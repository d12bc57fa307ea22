import LivioArk.Msgbus.Capacity
import LivioArk.Msgbus.QueueInvariant

namespace LivioArk.Msgbus.BoundedFifo

open Function LockFreeQueue QueueInvariant Capacity

variable {α : Type}

/-- A turn of a loop begins by loading the sequence of a cell. -/
def turns : Op α → ℕ
  | .enqueueSeq _ _ | .dequeueSeq _ => 1
  | _ => 0

/-- The accesses of one call with no other thread in between, and the number of
turns of its loop. An exchange fails only on a mismatch. -/
def complete : ℕ → Queue α → Op α → Option (Queue α × Op α × ℕ)
  | 0, _, _ => none
  | fuel + 1, q, op =>
    if op.isDone then some (q, op, 0)
    else
      (op.step q false).bind fun next ↦
        (complete fuel next.1 next.2).map fun result ↦
          (result.1, result.2.1, turns op + result.2.2)

/-- The queue after the call, what it returns, and the turns of its loop. A call
makes five accesses at most. -/
def execute (q : Queue α) (req : Req α) : Option (Queue α × Op α × ℕ) := complete 6 q req.start

def executeAll (q : Queue α) : List (Req α) → Option (Queue α)
  | [] => some q
  | req :: reqs => (execute q req).bind fun result ↦ executeAll result.1 reqs

/-- A list that takes `capacity` elements. A failed call writes nothing to the
output argument, and nothing to the list. -/
def fifo (capacity : ℕ) (l : List α) : Req α → List α × Op α
  | .tryEnqueue value =>
    if l.length = capacity then (l, .enqueueDone false) else (l ++ [value], .enqueueDone true)
  | .tryDequeue =>
    match l with
    | [] => ([], .dequeueDone false none)
    | value :: rest => (rest, .dequeueDone true (some value))

def failed : Op α → Bool
  | .enqueueDone ok | .dequeueDone ok _ => !ok
  | _ => false

def fifoAll (capacity : ℕ) (reqs : List (Req α)) : List α :=
  reqs.foldl (fun l req ↦ (fifo capacity l req).1) []

/-- Between two calls the sequence of each cell is known from the two
positions: one more than its position where an element waits, its next position
where there is room. -/
structure Quiet (k : ℕ) (q : Queue α) (l : List α) : Prop where
  mask : q.mask_ = 2 ^ k - 1
  size : q.enqueue_pos_ = q.dequeue_pos_ + l.length
  room : l.length ≤ 2 ^ k
  filled : ∀ i value, l[i]? = some value →
    q.cell (q.dequeue_pos_ + i) = ⟨q.dequeue_pos_ + i + 1, some value⟩
  free : ∀ i, l.length ≤ i → i < 2 ^ k →
    (q.cell (q.dequeue_pos_ + i)).sequence = q.dequeue_pos_ + i

theorem quiet_construct (k : ℕ) : Quiet k (Queue.construct (2 ^ k) : Queue α) [] where
  mask := rfl
  size := rfl
  room := Nat.zero_le _
  filled i value h := by cases h
  free i _ hi := by
    have hmask : (Queue.construct (2 ^ k) : Queue α).mask_ = 2 ^ k - 1 := rfl
    simp only [Queue.cell, Queue.construct, Nat.zero_add]
    rw [Nat.and_two_pow_sub_one_eq_mod, Nat.mod_eq_of_lt hi]

section Calls

variable {k : ℕ} {q : Queue α} {l : List α}

theorem complete_done {op : Op α} (hop : op.isDone = true) (fuel : ℕ) (q : Queue α) :
    complete (fuel + 1) q op = some (q, op, 0) := by
  rw [complete, if_pos hop]

theorem complete_step {fuel n : ℕ} {q' q'' : Queue α} {op op' result : Op α}
    (hop : op.isDone = false) (hstep : op.step q false = some (q', op'))
    (hrest : complete fuel q' op' = some (q'', result, n)) :
    complete (fuel + 1) q op = some (q'', result, turns op + n) := by
  rw [complete, hop, hstep, Option.bind_some, hrest]
  rfl

theorem execute_enqueue {pos : ℕ} (hpos : q.enqueue_pos_ = pos) (hlt : pos + 1 < 2 ^ 64)
    (hdiff : toSigned (q.cell pos).sequence - toSigned pos = 0) (value : α) :
    execute q (.tryEnqueue value) =
      some ((({ q with enqueue_pos_ := pos + 1 } : Queue α).storeData pos
        (some value)).storeSequence pos (pos + 1), .enqueueDone true, 1) := by
  subst hpos
  have hnext := Nat.mod_eq_of_lt hlt
  have hseq : (Op.enqueueSeq value q.enqueue_pos_).step q false =
      some (q, .enqueueCas value q.enqueue_pos_) := if_pos hdiff
  have hcas : (Op.enqueueCas value q.enqueue_pos_).step q false =
      some ({ q with enqueue_pos_ := q.enqueue_pos_ + 1 }, .enqueueStore value q.enqueue_pos_) := by
    rw [Op.step, if_pos ⟨rfl, rfl⟩, hnext]
  have hpublish : ∀ q' : Queue α, (Op.enqueuePublish q.enqueue_pos_).step q' false =
      some (q'.storeSequence q.enqueue_pos_ (q.enqueue_pos_ + 1), .enqueueDone true) := by
    intro q'
    rw [Op.step, hnext]
  exact complete_step rfl rfl (complete_step rfl hseq (complete_step rfl hcas
    (complete_step rfl rfl (complete_step rfl (hpublish _) (complete_done rfl 0 _)))))

theorem execute_dequeue {pos : ℕ} (hpos : q.dequeue_pos_ = pos) (hlt : pos + 1 < 2 ^ 64)
    (hlap : pos + q.mask_ + 1 < 2 ^ 64)
    (hdiff : toSigned (q.cell pos).sequence - toSigned (pos + 1) = 0) :
    execute q .tryDequeue =
      some ((({ q with dequeue_pos_ := pos + 1 } : Queue α).storeData pos none).storeSequence pos
        (pos + q.mask_ + 1), .dequeueDone true (q.cell pos).data, 1) := by
  subst hpos
  have hnext := Nat.mod_eq_of_lt hlt
  have hseq : (Op.dequeueSeq q.dequeue_pos_).step q false =
      some (q, .dequeueCas q.dequeue_pos_) := by
    rw [Op.step, hnext]
    exact if_pos hdiff
  have hcas : (Op.dequeueCas q.dequeue_pos_).step q false =
      some ({ q with dequeue_pos_ := q.dequeue_pos_ + 1 }, .dequeueTake q.dequeue_pos_) := by
    rw [Op.step, if_pos ⟨rfl, rfl⟩, hnext]
  have hrelease : ∀ (q' : Queue α) (value : Option α), q'.mask_ = q.mask_ →
      (Op.dequeueRelease q.dequeue_pos_ value).step q' false =
        some (q'.storeSequence q.dequeue_pos_ (q.dequeue_pos_ + q.mask_ + 1),
          .dequeueDone true value) := by
    intro q' value hmask
    rw [Op.step, hmask, Nat.mod_eq_of_lt hlap]
  exact complete_step rfl rfl (complete_step rfl hseq (complete_step rfl hcas
    (complete_step rfl rfl (complete_step rfl (hrelease _ _ rfl) (complete_done rfl 0 _)))))

/-- The accesses of a call that finds the queue full or empty. -/
theorem execute_enqueue_full
    (hdiff : toSigned (q.cell q.enqueue_pos_).sequence - toSigned q.enqueue_pos_ < 0) (value : α) :
    execute q (.tryEnqueue value) = some (q, .enqueueDone false, 1) := by
  have hseq : (Op.enqueueSeq value q.enqueue_pos_).step q false =
      some (q, .enqueueDone false) := by
    simp only [Op.step]
    rw [if_neg (ne_of_lt hdiff), if_pos hdiff]
  exact complete_step rfl rfl (complete_step rfl hseq (complete_done rfl 3 q))

theorem execute_dequeue_empty (hlt : q.dequeue_pos_ + 1 < 2 ^ 64)
    (hdiff : toSigned (q.cell q.dequeue_pos_).sequence - toSigned (q.dequeue_pos_ + 1) < 0) :
    execute q .tryDequeue = some (q, .dequeueDone false none, 1) := by
  have hseq : (Op.dequeueSeq q.dequeue_pos_).step q false = some (q, .dequeueDone false none) := by
    simp only [Op.step, Nat.mod_eq_of_lt hlt]
    rw [if_neg (ne_of_lt hdiff), if_pos hdiff]
  exact complete_step rfl rfl (complete_step rfl hseq (complete_done rfl 3 q))

theorem diff_eq {x pos : ℕ} (hx : x < 2 ^ 63) (hpos : pos < 2 ^ 63) :
    toSigned x - toSigned pos = (x : ℤ) - pos := by
  rw [toSigned_small hx, toSigned_small hpos]

theorem Quiet.enqueue (h : Quiet k q l) (hpos : q.enqueue_pos_ < 2 ^ 62)
    (hroom : l.length ≠ 2 ^ k) (value : α) :
    ∃ q', execute q (.tryEnqueue value) = some (q', .enqueueDone true, 1) ∧
      Quiet k q' (l ++ [value]) ∧ q'.enqueue_pos_ = q.enqueue_pos_ + 1 := by
  have hle := h.room
  have hlt : l.length < 2 ^ k := by omega
  have hsize := h.size
  have hseq : (q.cell q.enqueue_pos_).sequence = q.enqueue_pos_ := by
    rw [hsize]
    exact h.free _ le_rfl hlt
  have hdiff : toSigned (q.cell q.enqueue_pos_).sequence - toSigned q.enqueue_pos_ = 0 := by
    rw [hseq, sub_self]
  let claimed : Queue α := { q with enqueue_pos_ := q.enqueue_pos_ + 1 }
  let stored := claimed.storeData q.enqueue_pos_ (some value)
  let published := stored.storeSequence q.enqueue_pos_ (q.enqueue_pos_ + 1)
  refine ⟨published, ?_, ?_, rfl⟩
  · exact execute_enqueue rfl (by omega) hdiff value
  · have hother : ∀ i, i < 2 ^ k → i ≠ l.length →
        published.cell (q.dequeue_pos_ + i) = q.cell (q.dequeue_pos_ + i) := by
      intro i hi hne
      have hmod : (q.dequeue_pos_ + i) % 2 ^ k ≠ q.enqueue_pos_ % 2 ^ k := by
        apply mod_ne_of_window
        · omega
        · omega
        · omega
      rw [storeSequence_cell_ne (q := stored) h.mask _ hmod,
        storeData_cell_ne (q := claimed) h.mask _ hmod]
      rfl
    have hself : published.cell q.enqueue_pos_ = ⟨q.enqueue_pos_ + 1, some value⟩ := by
      rw [storeSequence_cell_self, storeData_cell_self]
    constructor
    · exact h.mask
    · simp only [List.length_append, List.length_singleton]
      change q.enqueue_pos_ + 1 = q.dequeue_pos_ + (l.length + 1)
      omega
    · simp only [List.length_append, List.length_singleton]
      omega
    · intro i v hv
      change published.cell (q.dequeue_pos_ + i) = ⟨q.dequeue_pos_ + i + 1, some v⟩
      have hi := (List.getElem?_eq_some_iff.mp hv).1
      simp only [List.length_append, List.length_singleton] at hi
      by_cases hlast : i = l.length
      · subst hlast
        have hvalue : value = v := by simpa using hv
        rw [← hsize, hself, hvalue]
      · rw [List.getElem?_append_left (by omega)] at hv
        rw [hother i (by omega) hlast]
        exact h.filled i v hv
    · intro i hge hi
      change (published.cell (q.dequeue_pos_ + i)).sequence = q.dequeue_pos_ + i
      simp only [List.length_append, List.length_singleton] at hge
      rw [hother i hi (by omega)]
      exact h.free i (by omega) hi

theorem Quiet.enqueue_full (h : Quiet k q l) (hk1 : 1 ≤ k)
    (hpos : q.enqueue_pos_ < 2 ^ 62) (hfull : l.length = 2 ^ k) (value : α) :
    execute q (.tryEnqueue value) = some (q, .enqueueDone false, 1) := by
  have hcap : 2 ^ 1 ≤ 2 ^ k := Nat.pow_le_pow_right (by decide) hk1
  have hsize := h.size
  have hcell : q.cell q.enqueue_pos_ = q.cell q.dequeue_pos_ := by
    rw [hsize, hfull]
    exact cell_lap h.mask _
  have hlt : 0 < l.length := by omega
  have hseq := congrArg Cell.sequence (h.filled 0 _ (List.getElem?_eq_getElem hlt))
  simp only [Nat.add_zero, ← hcell] at hseq
  have hdiff : toSigned (q.cell q.enqueue_pos_).sequence - toSigned q.enqueue_pos_ < 0 := by
    rw [hseq, diff_eq (by omega) (by omega)]
    omega
  exact execute_enqueue_full hdiff value

theorem Quiet.dequeue {value : α} {rest : List α} (h : Quiet k q (value :: rest)) (hk : k ≤ 62)
    (hpos : q.enqueue_pos_ < 2 ^ 62) :
    ∃ q', execute q .tryDequeue = some (q', .dequeueDone true (some value), 1) ∧
      Quiet k q' rest ∧ q'.enqueue_pos_ = q.enqueue_pos_ := by
  have hsize := h.size
  have hroom := h.room
  have hcap : 2 ^ k ≤ 2 ^ 62 := Nat.pow_le_pow_right (by decide) hk
  rw [List.length_cons] at hsize hroom
  have hcell : q.cell q.dequeue_pos_ = ⟨q.dequeue_pos_ + 1, some value⟩ := h.filled 0 value rfl
  have hlap : q.dequeue_pos_ + q.mask_ + 1 = q.dequeue_pos_ + 2 ^ k := by
    rw [h.mask]
    omega
  have hdiff : toSigned (q.cell q.dequeue_pos_).sequence - toSigned (q.dequeue_pos_ + 1) = 0 := by
    rw [hcell, sub_self]
  let claimed : Queue α := { q with dequeue_pos_ := q.dequeue_pos_ + 1 }
  let taken := claimed.storeData q.dequeue_pos_ none
  let released := taken.storeSequence q.dequeue_pos_ (q.dequeue_pos_ + 2 ^ k)
  refine ⟨released, ?_, ?_, rfl⟩
  · rw [execute_dequeue rfl (by omega) (by omega) hdiff, hlap, hcell]
  · have hother : ∀ i, i + 1 < 2 ^ k →
        released.cell (q.dequeue_pos_ + 1 + i) = q.cell (q.dequeue_pos_ + (i + 1)) := by
      intro i hi
      have hmod : (q.dequeue_pos_ + 1 + i) % 2 ^ k ≠ q.dequeue_pos_ % 2 ^ k := by
        apply mod_ne_of_window
        · omega
        · omega
        · omega
      rw [storeSequence_cell_ne (q := taken) h.mask _ hmod,
        storeData_cell_ne (q := claimed) h.mask _ hmod, Nat.add_assoc, Nat.add_comm 1 i]
      rfl
    constructor
    · exact h.mask
    · change q.enqueue_pos_ = q.dequeue_pos_ + 1 + rest.length
      omega
    · omega
    · intro i v hv
      change released.cell (q.dequeue_pos_ + 1 + i) = ⟨q.dequeue_pos_ + 1 + i + 1, some v⟩
      have hi := (List.getElem?_eq_some_iff.mp hv).1
      rw [hother i (by omega), h.filled (i + 1) v hv, ← Nat.add_assoc, Nat.add_right_comm _ i 1]
    · intro i hge hi
      change (released.cell (q.dequeue_pos_ + 1 + i)).sequence = q.dequeue_pos_ + 1 + i
      by_cases hlast : i + 1 < 2 ^ k
      · rw [hother i hlast, h.free (i + 1) (by rw [List.length_cons]; omega) hlast]
        omega
      · have hwrap : q.dequeue_pos_ + 1 + i = q.dequeue_pos_ + 2 ^ k := by omega
        rw [hwrap, storeSequence_cell_lap (q := taken) h.mask]

theorem Quiet.dequeue_empty (h : Quiet k q []) (hpos : q.enqueue_pos_ < 2 ^ 62) :
    execute q .tryDequeue = some (q, .dequeueDone false none, 1) := by
  have hsize := h.size
  rw [List.length_nil, Nat.add_zero] at hsize
  have hseq := h.free 0 le_rfl (Nat.two_pow_pos k)
  rw [Nat.add_zero] at hseq
  have hdiff : toSigned (q.cell q.dequeue_pos_).sequence - toSigned (q.dequeue_pos_ + 1) < 0 := by
    rw [hseq, diff_eq (by omega) (by omega)]
    omega
  exact execute_dequeue_empty (by omega) hdiff

/-- One call on the ring is one call on the list. -/
theorem Quiet.execute (h : Quiet k q l) (hk1 : 1 ≤ k) (hk : k ≤ 62)
    (hpos : q.enqueue_pos_ < 2 ^ 62) (req : Req α) :
    ∃ q', BoundedFifo.execute q req = some (q', (fifo (2 ^ k) l req).2, 1) ∧
      Quiet k q' (fifo (2 ^ k) l req).1 ∧ q'.enqueue_pos_ ≤ q.enqueue_pos_ + 1 ∧
      (failed (fifo (2 ^ k) l req).2 = true → q' = q) := by
  cases req with
  | tryEnqueue value =>
    by_cases hfull : l.length = 2 ^ k
    · simp only [fifo, if_pos hfull]
      exact ⟨q, h.enqueue_full hk1 hpos hfull value, h, Nat.le_succ _, fun _ ↦ rfl⟩
    · simp only [fifo, if_neg hfull]
      obtain ⟨q', hcall, hquiet, henqueue⟩ := h.enqueue hpos hfull value
      exact ⟨q', hcall, hquiet, Nat.le_of_eq henqueue, fun hfail ↦ by cases hfail⟩
  | tryDequeue =>
    cases l with
    | nil => exact ⟨q, h.dequeue_empty hpos, h, Nat.le_succ _, fun _ ↦ rfl⟩
    | cons value rest =>
      obtain ⟨q', hcall, hquiet, henqueue⟩ := h.dequeue hk hpos
      exact ⟨q', hcall, hquiet, henqueue ▸ Nat.le_succ _, fun hfail ↦ by cases hfail⟩

theorem Quiet.executeAll (h : Quiet k q l) (hk1 : 1 ≤ k) (hk : k ≤ 62) (reqs : List (Req α))
    (hpos : q.enqueue_pos_ + reqs.length < 2 ^ 62) :
    ∃ q', BoundedFifo.executeAll q reqs = some q' ∧
      Quiet k q' (reqs.foldl (fun l req ↦ (fifo (2 ^ k) l req).1) l) ∧
      q'.enqueue_pos_ ≤ q.enqueue_pos_ + reqs.length := by
  induction reqs generalizing q l with
  | nil => exact ⟨q, rfl, h, le_rfl⟩
  | cons req reqs ih =>
    rw [List.length_cons] at hpos ⊢
    obtain ⟨q₁, hcall, hquiet, hle, -⟩ := h.execute hk1 hk (by omega) req
    obtain ⟨q', hrest, hquiet', hle'⟩ := ih hquiet (by omega)
    refine ⟨q', ?_, hquiet', by omega⟩
    rw [BoundedFifo.executeAll, hcall, Option.bind_some]
    exact hrest

end Calls

/-- Whatever calls have gone before, the next one does what it does on a list
bounded by the stored capacity, in one turn of its loop. A failed call leaves
the ring as it is. -/
theorem ring_is_bounded_fifo {capacity : ℕ} (h : capacity ≤ 2 ^ 62) (past : List (Req α))
    (req : Req α) (hcalls : past.length + 1 < 2 ^ 62) :
    ∃ q q', executeAll (Queue.construct (storedCapacity capacity)) past = some q ∧
      execute q req = some (q',
        (fifo (storedCapacity capacity) (fifoAll (storedCapacity capacity) past) req).2, 1) ∧
      (failed (fifo (storedCapacity capacity)
        (fifoAll (storedCapacity capacity) past) req).2 = true → q' = q) := by
  obtain ⟨k, hk1, hk, hstored, -⟩ := storedCapacity_eq h
  rw [hstored]
  have hzero : (Queue.construct (2 ^ k) : Queue α).enqueue_pos_ = 0 := rfl
  obtain ⟨q, hpast, hquiet, hle⟩ :=
    (quiet_construct (α := α) k).executeAll hk1 hk past (by omega)
  obtain ⟨q', hcall, -, -, hsame⟩ := hquiet.execute hk1 hk (by omega) req
  exact ⟨q, q', hpast, hcall, hsame⟩

theorem ring_of_two_refuses : 1 ≤ 2 ^ 62 ∧
    ∃ q q',
      executeAll (Queue.construct (storedCapacity 1)) [.tryEnqueue 7, .tryEnqueue 8] = some q ∧
      execute q (.tryEnqueue 9) = some (q', .enqueueDone false, 1) ∧
      (failed (.enqueueDone false : Op ℕ) = true → q' = q) :=
  ⟨by decide, ring_is_bounded_fifo (by decide) [.tryEnqueue 7, .tryEnqueue 8] (.tryEnqueue 9)
    (by decide)⟩

end LivioArk.Msgbus.BoundedFifo
