import LivioArk.Msgbus.LockFreeQueue
import Mathlib.Data.Nat.ModEq
import Mathlib.Algebra.Order.Group.Nat
import Mathlib.Tactic.Linarith

namespace LivioArk.Msgbus.QueueInvariant

open Function LivioArk.Library.Transition LockFreeQueue

variable {Tid α : Type}

theorem toSigned_small {x : ℕ} (h : x < 2 ^ 63) : toSigned x = x := by
  simp only [toSigned, if_pos h]

/-- Two positions less than one lap apart never share a cell. -/
theorem mod_ne_of_window {p q c : ℕ} (hne : p ≠ q) (hpq : p < q + c) (hqp : q < p + c) :
    p % c ≠ q % c := by
  intro h
  rcases Nat.lt_or_gt_of_ne hne with hlt | hlt
  · have hd := (Nat.modEq_iff_dvd' hlt.le).mp h
    exact absurd (Nat.le_of_dvd (by omega) hd) (by omega)
  · have hd := (Nat.modEq_iff_dvd' hlt.le).mp h.symm
    exact absurd (Nat.le_of_dvd (by omega) hd) (by omega)

section Cells

variable {q : Queue α} {k : ℕ}

theorem index_eq (hm : q.mask_ = 2 ^ k - 1) (pos : ℕ) : pos &&& q.mask_ = pos % 2 ^ k := by
  rw [hm, Nat.and_two_pow_sub_one_eq_mod]

theorem cell_lap (hm : q.mask_ = 2 ^ k - 1) (pos : ℕ) : q.cell (pos + 2 ^ k) = q.cell pos := by
  simp only [Queue.cell, index_eq hm, Nat.add_mod_right]

theorem storeSequence_cell_self (pos x : ℕ) :
    (q.storeSequence pos x).cell pos = ⟨x, (q.cell pos).data⟩ := by
  simp [Queue.storeSequence, Queue.cell]

theorem storeSequence_cell_lap (hm : q.mask_ = 2 ^ k - 1) (pos x : ℕ) :
    (q.storeSequence pos x).cell (pos + 2 ^ k) = ⟨x, (q.cell pos).data⟩ := by
  rw [cell_lap (q := q.storeSequence pos x) hm, storeSequence_cell_self]

theorem storeSequence_cell_ne (hm : q.mask_ = 2 ^ k - 1) {pos p : ℕ} (x : ℕ)
    (h : p % 2 ^ k ≠ pos % 2 ^ k) : (q.storeSequence pos x).cell p = q.cell p := by
  simp only [Queue.storeSequence, Queue.cell, index_eq hm]
  rw [update_of_ne h]

theorem storeData_sequence (pos p : ℕ) (d : Option α) :
    ((q.storeData pos d).cell p).sequence = (q.cell p).sequence := by
  simp only [Queue.storeData, Queue.cell]
  by_cases h : p &&& q.mask_ = pos &&& q.mask_
  · rw [h, update_self]
  · rw [update_of_ne h]

theorem storeData_cell_self (pos : ℕ) (d : Option α) :
    ((q.storeData pos d).cell pos).data = d := by
  simp [Queue.storeData, Queue.cell]

theorem storeData_cell_ne (hm : q.mask_ = 2 ^ k - 1) {pos p : ℕ} (d : Option α)
    (h : p % 2 ^ k ≠ pos % 2 ^ k) : (q.storeData pos d).cell p = q.cell p := by
  simp only [Queue.storeData, Queue.cell, index_eq hm]
  rw [update_of_ne h]

end Cells

theorem storeSequence_data (q : Queue α) (pos p x : ℕ) :
    ((q.storeSequence pos x).cell p).data = (q.cell p).data := by
  simp only [Queue.storeSequence, Queue.cell]
  by_cases h : p &&& q.mask_ = pos &&& q.mask_
  · rw [h, update_self]
  · rw [update_of_ne h]

theorem storeSequence_le (q : Queue α) {pos x : ℕ} (hx : (q.cell pos).sequence ≤ x) (p : ℕ) :
    (q.cell p).sequence ≤ ((q.storeSequence pos x).cell p).sequence := by
  simp only [Queue.storeSequence, Queue.cell] at hx ⊢
  by_cases h : p &&& q.mask_ = pos &&& q.mask_
  · rw [h, update_self]; exact hx
  · rw [update_of_ne h]

/-- What the local variables of a call in progress say about the queue. The
lower bounds on sequence numbers are stable, since sequences only grow. -/
def OpOk (queue : Queue α) (put : List α) (got : ℕ) : Op α → Prop
  | .enqueueSeq _ pos => pos ≤ put.length
  | .enqueueCas _ pos => pos ≤ put.length ∧ pos ≤ (queue.cell pos).sequence
  | .enqueueStore value pos => put[pos]? = some value
  | .enqueuePublish pos => (queue.cell pos).data = put[pos]?
  | .dequeueSeq pos => pos ≤ got
  | .dequeueCas pos => pos ≤ got ∧ pos + 1 ≤ (queue.cell pos).sequence
  | .dequeueTake pos => (queue.cell pos).data = put[pos]?
  | .dequeueRelease pos value => value = put[pos]?
  | .dequeueDone ok value => ok = value.isSome
  | .enqueueLoad _ | .enqueueDone _ | .dequeueLoad => True

theorem OpOk.storeSequence {q : Queue α} {put : List α} {got pos x : ℕ} {op : Op α}
    (h : OpOk q put got op) (hx : (q.cell pos).sequence ≤ x) :
    OpOk (q.storeSequence pos x) put got op := by
  cases op with
  | enqueueCas value p => exact ⟨h.1, h.2.trans (storeSequence_le q hx p)⟩
  | dequeueCas p => exact ⟨h.1, h.2.trans (storeSequence_le q hx p)⟩
  | enqueuePublish p => exact (storeSequence_data q pos p x).trans h
  | dequeueTake p => exact (storeSequence_data q pos p x).trans h
  | _ => exact h

theorem OpOk.storeData {q : Queue α} {put : List α} {got pos : ℕ} {d : Option α} {op : Op α}
    {k : ℕ} (hm : q.mask_ = 2 ^ k - 1) (h : OpOk q put got op)
    (hne : ∀ p, op.filling = some p ∨ op.draining = some p → p % 2 ^ k ≠ pos % 2 ^ k) :
    OpOk (q.storeData pos d) put got op := by
  cases op with
  | enqueueCas value p => exact ⟨h.1, h.2.trans_eq (storeData_sequence pos p d).symm⟩
  | dequeueCas p => exact ⟨h.1, h.2.trans_eq (storeData_sequence pos p d).symm⟩
  | enqueuePublish p =>
    have hc := storeData_cell_ne hm d (hne p (.inl rfl))
    simp only [OpOk, hc]
    exact h
  | dequeueTake p =>
    have hc := storeData_cell_ne hm d (hne p (.inr rfl))
    simp only [OpOk, hc]
    exact h
  | _ => exact h

theorem OpOk.append {q : Queue α} {put : List α} {got : ℕ} {op : Op α} (h : OpOk q put got op)
    (hlt : ∀ p, op.filling = some p ∨ op.draining = some p → p < put.length) (value : α) :
    OpOk q (put ++ [value]) got op := by
  have hget : ∀ p, p < put.length → (put ++ [value])[p]? = put[p]? :=
    fun p hp ↦ List.getElem?_append_left hp
  cases op with
  | enqueueSeq v p =>
    have h : p ≤ put.length := h
    simp only [OpOk, List.length_append, List.length_singleton]
    omega
  | enqueueCas v p =>
    refine ⟨?_, h.2⟩
    have h := h.1
    simp only [List.length_append, List.length_singleton]
    omega
  | enqueueStore v p => exact (hget p (hlt p (.inl rfl))).trans h
  | enqueuePublish p => exact h.trans (hget p (hlt p (.inl rfl))).symm
  | dequeueTake p => exact h.trans (hget p (hlt p (.inr rfl))).symm
  | dequeueRelease p v => exact h.trans (hget p (hlt p (.inr rfl))).symm
  | _ => exact h

theorem OpOk.succ {q : Queue α} {put : List α} {got : ℕ} {op : Op α} (h : OpOk q put got op) :
    OpOk q put (got + 1) op := by
  cases op with
  | dequeueSeq p => exact Nat.le_succ_of_le h
  | dequeueCas p => exact ⟨Nat.le_succ_of_le h.1, h.2⟩
  | _ => exact h

/-- The queue invariant. The positions from `got` to `got + 2 ^ k` address each
cell once: below `put.length` a cell is being filled or is published, from
there on it is still being drained for the previous lap or is free. -/
structure Inv (k : ℕ) (s : Sys Tid α) : Prop where
  capacity : s.queue.capacity_ = 2 ^ k
  mask : s.queue.mask_ = 2 ^ k - 1
  enqueue_pos : s.queue.enqueue_pos_ = s.put.length
  dequeue_pos : s.queue.dequeue_pos_ = s.got
  got_le : s.got ≤ s.put.length
  room : s.put.length ≤ s.got + 2 ^ k
  published : ∀ p, s.got ≤ p → p < s.put.length → (∃ t, s.Filling t p) ∨
    ((s.queue.cell p).sequence = p + 1 ∧ (s.queue.cell p).data = s.put[p]?)
  free : ∀ p, s.put.length ≤ p → p < s.got + 2 ^ k →
    (∃ t, 2 ^ k ≤ p ∧ s.Draining t (p - 2 ^ k)) ∨ (s.queue.cell p).sequence = p
  filling : ∀ t p, s.Filling t p →
    s.got ≤ p ∧ p < s.put.length ∧ (s.queue.cell p).sequence = p
  draining : ∀ t p, s.Draining t p →
    p < s.got ∧ s.put.length ≤ p + 2 ^ k ∧ (s.queue.cell p).sequence = p + 1
  filling_unique : ∀ t u p, s.Filling t p → s.Filling u p → t = u
  draining_unique : ∀ t u p, s.Draining t p → s.Draining u p → t = u
  ops : ∀ t op, s.ops t = some op → OpOk s.queue s.put s.got op

theorem inv_construct (k : ℕ) : Inv k (Sys.construct (2 ^ k) : Sys Tid α) where
  capacity := rfl
  mask := rfl
  enqueue_pos := rfl
  dequeue_pos := rfl
  got_le := Nat.le_refl _
  room := Nat.zero_le _
  published p _ h := by simp [Sys.put, Sys.construct] at h
  free p _ h := by
    right
    simp only [Sys.construct, Sys.got, List.filterMap_nil, List.length_nil, Nat.zero_add] at h
    simp only [Sys.construct, Queue.construct, Queue.cell, Nat.and_two_pow_sub_one_eq_mod,
      Nat.mod_eq_of_lt h]
  filling t p h := by simp [Sys.Filling, Sys.construct] at h
  draining t p h := by simp [Sys.Draining, Sys.construct] at h
  filling_unique t u p h := by simp [Sys.Filling, Sys.construct] at h
  draining_unique t u p h := by simp [Sys.Draining, Sys.construct] at h
  ops t op h := by simp [Sys.construct] at h

variable {k : ℕ} {s : Sys Tid α} {t : Tid}

theorem Inv.cell_eq_of_lap (h : Inv k s) {p : ℕ} (hp : 2 ^ k ≤ p) :
    s.queue.cell p = s.queue.cell (p - 2 ^ k) := by
  have hlap := cell_lap h.mask (p - 2 ^ k)
  rwa [Nat.sub_add_cancel hp] at hlap

theorem Inv.free_at_enqueue (h : Inv k s) (hk : 1 ≤ k)
    (hseq : s.put.length ≤ (s.queue.cell s.put.length).sequence) :
    s.put.length < s.got + 2 ^ k ∧
      (s.queue.cell s.put.length).sequence = s.put.length ∧
      ∀ u, 2 ^ k ≤ s.put.length → ¬ s.Draining u (s.put.length - 2 ^ k) := by
  have hc : 2 ≤ 2 ^ k := by
    calc 2 = 2 ^ 1 := rfl
      _ ≤ 2 ^ k := Nat.pow_le_pow_right (by decide) hk
  have hdrain : ∀ u, 2 ^ k ≤ s.put.length → ¬ s.Draining u (s.put.length - 2 ^ k) := by
    intro u hle hu
    have hd := (h.draining u _ hu).2.2
    rw [h.cell_eq_of_lap hle] at hseq
    omega
  have hlt : s.put.length < s.got + 2 ^ k := by
    by_contra hge
    have hroom := h.room
    have heq : s.put.length = s.got + 2 ^ k := by omega
    rw [heq, cell_lap h.mask] at hseq
    rcases h.published s.got le_rfl (by omega) with ⟨u, hu⟩ | ⟨hu, _⟩
    · have := (h.filling u _ hu).2.2; omega
    · omega
  refine ⟨hlt, ?_, hdrain⟩
  rcases h.free _ le_rfl hlt with ⟨u, hle, hu⟩ | hu
  · exact absurd hu (hdrain u hle)
  · exact hu

theorem Inv.published_at_dequeue (h : Inv k s)
    (hseq : s.got + 1 ≤ (s.queue.cell s.got).sequence) :
    s.got < s.put.length ∧ (s.queue.cell s.got).sequence = s.got + 1 ∧
      (s.queue.cell s.got).data = s.put[s.got]? ∧ ∀ u, ¬ s.Filling u s.got := by
  have hfill : ∀ u, ¬ s.Filling u s.got := by
    intro u hu
    have := (h.filling u _ hu).2.2
    omega
  have hlt : s.got < s.put.length := by
    by_contra hge
    have hle := h.got_le
    have hpos := Nat.two_pow_pos k
    rcases h.free s.got (by omega) (by omega) with ⟨u, hk, hu⟩ | hu
    · have hd := (h.draining u _ hu).2.2
      rw [h.cell_eq_of_lap hk] at hseq
      omega
    · omega
  rcases h.published _ le_rfl hlt with ⟨u, hu⟩ | ⟨hu, hd⟩
  · exact absurd hu (hfill u)
  · exact ⟨hlt, hu, hd, hfill⟩

theorem Inv.claimed_window (h : Inv k s) {p : ℕ} {t : Tid}
    (hp : s.Filling t p ∨ s.Draining t p) :
    p < s.put.length ∧ s.put.length ≤ p + 2 ^ k := by
  rcases hp with hp | hp
  · have hf := h.filling t p hp
    have hroom := h.room
    omega
  · have hd := h.draining t p hp
    have hle := h.got_le
    omega

/-- Claims in progress by different threads are on different cells. -/
theorem Inv.cells_apart (h : Inv k s) {p q : ℕ} {t u : Tid} (htu : t ≠ u)
    (hp : s.Filling t p ∨ s.Draining t p) (hq : s.Filling u q ∨ s.Draining u q) :
    p % 2 ^ k ≠ q % 2 ^ k := by
  have hwp := h.claimed_window hp
  have hwq := h.claimed_window hq
  refine mod_ne_of_window ?_ (by omega) (by omega)
  rintro rfl
  rcases hp with hp | hp <;> rcases hq with hq | hq
  · exact htu (h.filling_unique t u p hp hq)
  · have := h.filling t p hp; have := h.draining u p hq; omega
  · have := h.filling u p hq; have := h.draining t p hp; omega
  · exact htu (h.draining_unique t u p hp hq)

theorem filling_of_op {op : Op α} {p : ℕ} (hop : s.ops t = some op) :
    s.Filling t p ↔ op.filling = some p := by
  simp only [Sys.Filling, hop, Option.bind_some]

theorem draining_of_op {op : Op α} {p : ℕ} (hop : s.ops t = some op) :
    s.Draining t p ↔ op.draining = some p := by
  simp only [Sys.Draining, hop, Option.bind_some]

theorem Inv.op_window (h : Inv k s) {op : Op α} (hop : s.ops t = some op) {p : ℕ}
    (hp : op.filling = some p ∨ op.draining = some p) : p < s.put.length :=
  (h.claimed_window (hp.imp (filling_of_op hop).mpr (draining_of_op hop).mpr)).1

theorem put_snoc (q : Queue α) (ops : Tid → Option (Op α)) (e : Event Tid α) :
    Sys.put ⟨q, ops, s.hist ++ [e]⟩ = s.put ++ e.enqueued.toList := by
  simp only [Sys.put, List.filterMap_append]
  cases h : e.enqueued <;> simp [h]

theorem got_snoc (q : Queue α) (ops : Tid → Option (Op α)) (e : Event Tid α) :
    Sys.got ⟨q, ops, s.hist ++ [e]⟩ = s.got + e.dequeued.toList.length := by
  simp only [Sys.got, List.filterMap_append, List.length_append]
  cases h : e.dequeued <;> simp [h]

/-- Every cell is addressed by one position of the current lap. -/
theorem exists_lap_position (got p : ℕ) {c : ℕ} (hc : 0 < c) :
    ∃ p', got ≤ p' ∧ p' < got + c ∧ p' % c = p % c := by
  refine ⟨got + (p + (c - 1) * got) % c, by omega, ?_, ?_⟩
  · have := Nat.mod_lt (p + (c - 1) * got) hc
    omega
  · have hmul : got + (p + (c - 1) * got) = p + c * got := by
      obtain ⟨d, rfl⟩ : ∃ d, c = d + 1 := ⟨c - 1, by omega⟩
      rw [Nat.add_sub_cancel, Nat.succ_mul]
      omega
    rw [Nat.add_mod_mod, hmul, Nat.add_mul_mod_self_left]

theorem Inv.sequence_lt (h : Inv k s) (hk : k ≤ 62) (hB : s.put.length < 2 ^ 62) (p : ℕ) :
    (s.queue.cell p).sequence < 2 ^ 63 := by
  have hcap : 2 ^ k ≤ 2 ^ 62 := Nat.pow_le_pow_right (by decide) hk
  have hle := h.got_le
  obtain ⟨p', hlo, hhi, hmod⟩ := exists_lap_position s.got p (Nat.two_pow_pos k)
  have hcell : s.queue.cell p = s.queue.cell p' := by
    simp only [Queue.cell, index_eq h.mask, hmod]
  rw [hcell]
  by_cases hp : p' < s.put.length
  · rcases h.published p' hlo hp with ⟨u, hu⟩ | ⟨hs, -⟩
    · have := (h.filling u p' hu).2.2
      omega
    · omega
  · rcases h.free p' (by omega) hhi with ⟨u, hge, hu⟩ | hs
    · have := (h.draining u _ hu).2.2
      rw [h.cell_eq_of_lap hge]
      omega
    · omega

/-- Below the bound on operations the signed comparison is exact. -/
theorem Inv.diff_eq (h : Inv k s) (hk : k ≤ 62) (hB : s.put.length < 2 ^ 62) (p : ℕ) {x : ℕ}
    (hx : x ≤ s.put.length + 1) :
    toSigned (s.queue.cell p).sequence - toSigned x = (s.queue.cell p).sequence - (x : ℤ) := by
  rw [toSigned_small (h.sequence_lt hk hB p), toSigned_small (by omega)]

variable [DecidableEq Tid]

theorem filling_update (q : Queue α) (op : Option (Op α)) (hist : List (Event Tid α)) (u : Tid)
    (p : ℕ) : Sys.Filling ⟨q, update s.ops t op, hist⟩ u p ↔
      if u = t then op.bind Op.filling = some p else s.Filling u p := by
  unfold Sys.Filling
  by_cases h : u = t
  · subst h; simp
  · simp [h]

theorem draining_update (q : Queue α) (op : Option (Op α)) (hist : List (Event Tid α)) (u : Tid)
    (p : ℕ) : Sys.Draining ⟨q, update s.ops t op, hist⟩ u p ↔
      if u = t then op.bind Op.draining = some p else s.Draining u p := by
  unfold Sys.Draining
  by_cases h : u = t
  · subst h; simp
  · simp [h]

theorem filling_unique_update {q : Queue α} {op : Op α} {hist : List (Event Tid α)}
    (h : ∀ t u p, s.Filling t p → s.Filling u p → t = u)
    (hnew : ∀ p u, u ≠ t → op.filling = some p → ¬ s.Filling u p) (u v : Tid) (p : ℕ) :
    Sys.Filling ⟨q, update s.ops t (some op), hist⟩ u p →
      Sys.Filling ⟨q, update s.ops t (some op), hist⟩ v p → u = v := by
  simp only [filling_update, Option.bind_some]
  split <;> split
  · rename_i hu hv; intros; rw [hu, hv]
  · rename_i hu hv; exact fun hp hq ↦ absurd hq (hnew p v hv hp)
  · rename_i hu hv; exact fun hp hq ↦ absurd hp (hnew p u hu hq)
  · exact h u v p

theorem draining_unique_update {q : Queue α} {op : Op α} {hist : List (Event Tid α)}
    (h : ∀ t u p, s.Draining t p → s.Draining u p → t = u)
    (hnew : ∀ p u, u ≠ t → op.draining = some p → ¬ s.Draining u p) (u v : Tid) (p : ℕ) :
    Sys.Draining ⟨q, update s.ops t (some op), hist⟩ u p →
      Sys.Draining ⟨q, update s.ops t (some op), hist⟩ v p → u = v := by
  simp only [draining_update, Option.bind_some]
  split <;> split
  · rename_i hu hv; intros; rw [hu, hv]
  · rename_i hu hv; exact fun hp hq ↦ absurd hq (hnew p v hv hp)
  · rename_i hu hv; exact fun hp hq ↦ absurd hp (hnew p u hu hq)
  · exact h u v p

theorem Inv.sameClaims (h : Inv k s) {q : Queue α} {op : Option (Op α)}
    {hist : List (Event Tid α)} (hput : hist.filterMap Event.enqueued = s.put)
    (hgot : (hist.filterMap Event.dequeued).length = s.got)
    (hfill : op.bind Op.filling = (s.ops t).bind Op.filling)
    (hdrain : op.bind Op.draining = (s.ops t).bind Op.draining)
    (hc : q.capacity_ = s.queue.capacity_) (hm : q.mask_ = s.queue.mask_)
    (he : q.enqueue_pos_ = s.queue.enqueue_pos_) (hd : q.dequeue_pos_ = s.queue.dequeue_pos_)
    (hseq : ∀ p, (q.cell p).sequence = (s.queue.cell p).sequence)
    (hdata : ∀ p, s.got ≤ p → p < s.put.length →
      (∃ u, s.Filling u p) ∨ (q.cell p).data = (s.queue.cell p).data)
    (hnew : ∀ o, op = some o → OpOk q s.put s.got o)
    (hops : ∀ u o, u ≠ t → s.ops u = some o → OpOk q s.put s.got o) :
    Inv k ⟨q, update s.ops t op, hist⟩ := by
  have hf : ∀ u p, Sys.Filling ⟨q, update s.ops t op, hist⟩ u p ↔ s.Filling u p := by
    intro u p
    rw [filling_update]
    split
    · rename_i hu
      rw [hu, hfill]
      rfl
    · rfl
  have hdr : ∀ u p, Sys.Draining ⟨q, update s.ops t op, hist⟩ u p ↔ s.Draining u p := by
    intro u p
    rw [draining_update]
    split
    · rename_i hu
      rw [hu, hdrain]
      rfl
    · rfl
  have hp : Sys.put (⟨q, update s.ops t op, hist⟩ : Sys Tid α) = s.put := hput
  have hg : Sys.got (⟨q, update s.ops t op, hist⟩ : Sys Tid α) = s.got := hgot
  constructor
  case ops =>
    intro u o ho
    rw [hp, hg]
    by_cases hu : u = t
    · subst hu
      simp only [update_self] at ho
      exact hnew o ho
    · simp only [update_of_ne hu] at ho
      exact hops u o hu ho
  all_goals simp only [hf, hdr, hp, hg, hseq]
  case capacity => exact hc.trans h.capacity
  case mask => exact hm.trans h.mask
  case enqueue_pos => exact he.trans h.enqueue_pos
  case dequeue_pos => exact hd.trans h.dequeue_pos
  case got_le => exact h.got_le
  case room => exact h.room
  case free => exact h.free
  case filling => exact h.filling
  case draining => exact h.draining
  case filling_unique => exact h.filling_unique
  case draining_unique => exact h.draining_unique
  case published =>
    intro p hpg hpn
    rcases h.published p hpg hpn with hu | ⟨hs, hd⟩
    · exact .inl hu
    · exact (hdata p hpg hpn).imp_right fun heq ↦ ⟨hs, heq.trans hd⟩

theorem Inv.silent (h : Inv k s) {op : Option (Op α)} {hist : List (Event Tid α)}
    (hput : hist.filterMap Event.enqueued = s.put)
    (hgot : (hist.filterMap Event.dequeued).length = s.got)
    (hfill : op.bind Op.filling = (s.ops t).bind Op.filling)
    (hdrain : op.bind Op.draining = (s.ops t).bind Op.draining)
    (hnew : ∀ o, op = some o → OpOk s.queue s.put s.got o) :
    Inv k ⟨s.queue, update s.ops t op, hist⟩ :=
  h.sameClaims hput hgot hfill hdrain rfl rfl rfl rfl (fun _ ↦ rfl) (fun _ _ _ ↦ .inr rfl) hnew
    fun u o _ ho ↦ h.ops u o ho

theorem Inv.quiet (h : Inv k s) {op op' : Op α} (hop : s.ops t = some op)
    (hev : op.event t op' = []) (hf : op'.filling = op.filling)
    (hd : op'.draining = op.draining) (hok : OpOk s.queue s.put s.got op') :
    Inv k ⟨s.queue, update s.ops t (some op'), s.hist ++ op.event t op'⟩ := by
  rw [hev, List.append_nil]
  refine h.silent rfl rfl (by rw [hop]; exact hf) (by rw [hop]; exact hd) fun o ho ↦ ?_
  cases ho
  exact hok

theorem Inv.enqueueClaim (h : Inv k s) (hk : 1 ≤ k) (hB : s.put.length + 1 < 2 ^ 62)
    {value : α} {pos : ℕ} (hop : s.ops t = some (.enqueueCas value pos))
    (hpos : s.queue.enqueue_pos_ = pos) :
    Inv k ⟨{ s.queue with enqueue_pos_ := (pos + 1) % 2 ^ 64 },
      update s.ops t (some (.enqueueStore value pos)),
      s.hist ++ [.enqueueClaim t pos value]⟩ := by
  have hn : pos = s.put.length := hpos.symm.trans h.enqueue_pos
  subst hn
  obtain ⟨hlt, hseq, hdrain⟩ := h.free_at_enqueue hk (h.ops t _ hop).2
  have hcell : ∀ p, Queue.cell { s.queue with enqueue_pos_ := (s.put.length + 1) % 2 ^ 64 } p =
      s.queue.cell p := fun _ ↦ rfl
  have hnf : ∀ p, ¬ s.Filling t p := by simp [filling_of_op hop, Op.filling]
  have hnd : ∀ p, ¬ s.Draining t p := by simp [draining_of_op hop, Op.draining]
  constructor
  case capacity => exact h.capacity
  case mask => exact h.mask
  case enqueue_pos =>
    simp only [put_snoc, Event.enqueued, Option.toList_some, List.length_append,
      List.length_singleton]
    exact Nat.mod_eq_of_lt (by omega)
  case dequeue_pos =>
    simp only [got_snoc, Event.dequeued]
    exact h.dequeue_pos
  case ops =>
    intro u o ho
    simp only [put_snoc, got_snoc, Event.enqueued, Event.dequeued, Option.toList_some,
      Option.toList_none, List.length_nil, Nat.add_zero]
    by_cases hu : u = t
    · subst hu
      simp only [update_self, Option.some.injEq] at ho
      subst ho
      simp [OpOk]
    · simp only [update_of_ne hu] at ho
      have hok := (h.ops u o ho).append (fun p hp ↦ h.op_window ho hp) value
      cases o <;> exact hok
  case filling_unique =>
    refine filling_unique_update h.filling_unique fun p u _ hp hu ↦ ?_
    have hlast : s.put.length = p := by simpa [Op.filling] using hp
    have := (h.filling u p hu).2.1
    omega
  case draining_unique =>
    exact draining_unique_update h.draining_unique fun p u _ hp ↦ by simp [Op.draining] at hp
  all_goals simp only [put_snoc, got_snoc, Event.enqueued, Event.dequeued, Option.toList_some,
    Option.toList_none, List.length_nil, Nat.add_zero, hcell, filling_update, draining_update,
    List.length_append, List.length_singleton]
  case got_le => have := h.got_le; omega
  case room => omega
  case published =>
    intro p hp hpn
    by_cases hlast : p = s.put.length
    · subst hlast
      exact .inl ⟨t, by simp [Op.filling]⟩
    · rcases h.published p hp (by omega) with ⟨u, hu⟩ | ⟨hs, hd⟩
      · refine .inl ⟨u, ?_⟩
        have hut : u ≠ t := by rintro rfl; exact hnf p hu
        simpa [hut] using hu
      · refine .inr ⟨hs, hd.trans ?_⟩
        rw [List.getElem?_append_left (by omega)]
  case free =>
    intro p hp hpc
    rcases h.free p (by omega) hpc with ⟨u, hle, hu⟩ | hs
    · have hut : u ≠ t := by rintro rfl; exact hnd _ hu
      exact .inl ⟨u, hle, by simpa [hut] using hu⟩
    · exact .inr hs
  case filling =>
    intro u p hu
    split at hu
    · have hp : s.put.length = p := by simpa [Op.filling] using hu
      subst hp
      have := h.got_le
      exact ⟨this, by omega, hseq⟩
    · have := h.filling u p hu
      omega
  case draining =>
    intro u p hu
    split at hu
    · simp [Op.draining] at hu
    · have hd := h.draining u p hu
      refine ⟨hd.1, ?_, hd.2.2⟩
      -- the cell of the new position is free, so nobody drains it
      by_contra hgt
      have heq : p = s.put.length - 2 ^ k := by omega
      exact hdrain u (by omega) (heq ▸ hu)

theorem Inv.dequeueClaim (h : Inv k s) (hB : s.put.length < 2 ^ 62) {pos : ℕ}
    (hop : s.ops t = some (.dequeueCas pos)) (hpos : s.queue.dequeue_pos_ = pos) :
    Inv k ⟨{ s.queue with dequeue_pos_ := (pos + 1) % 2 ^ 64 },
      update s.ops t (some (.dequeueTake pos)), s.hist ++ [.dequeueClaim t pos]⟩ := by
  have hn : pos = s.got := hpos.symm.trans h.dequeue_pos
  subst hn
  obtain ⟨hlt, hseq, hdata, hfill⟩ := h.published_at_dequeue (h.ops t _ hop).2
  have hcell : ∀ p, Queue.cell { s.queue with dequeue_pos_ := (s.got + 1) % 2 ^ 64 } p =
      s.queue.cell p := fun _ ↦ rfl
  have hnf : ∀ p, ¬ s.Filling t p := by simp [filling_of_op hop, Op.filling]
  have hnd : ∀ p, ¬ s.Draining t p := by simp [draining_of_op hop, Op.draining]
  constructor
  case capacity => exact h.capacity
  case mask => exact h.mask
  case enqueue_pos =>
    simp only [put_snoc, Event.enqueued, Option.toList_none, List.append_nil]
    exact h.enqueue_pos
  case dequeue_pos =>
    simp only [got_snoc, Event.dequeued, Option.toList_some, List.length_singleton]
    exact Nat.mod_eq_of_lt (by omega)
  case ops =>
    intro u o ho
    simp only [put_snoc, got_snoc, Event.enqueued, Event.dequeued, Option.toList_some,
      Option.toList_none, List.length_singleton, List.append_nil]
    by_cases hu : u = t
    · subst hu
      simp only [update_self, Option.some.injEq] at ho
      subst ho
      exact hdata
    · simp only [update_of_ne hu] at ho
      have hok := (h.ops u o ho).succ
      cases o <;> exact hok
  case filling_unique =>
    exact filling_unique_update h.filling_unique fun p u _ hp ↦ by simp [Op.filling] at hp
  case draining_unique =>
    refine draining_unique_update h.draining_unique fun p u _ hp hu ↦ ?_
    have hlast : s.got = p := by simpa [Op.draining] using hp
    have := (h.draining u p hu).1
    omega
  all_goals simp only [put_snoc, got_snoc, Event.enqueued, Event.dequeued, Option.toList_some,
    Option.toList_none, List.length_singleton, List.append_nil, hcell, filling_update,
    draining_update]
  case got_le => omega
  case room => have := h.room; omega
  case published =>
    intro p hp hpn
    rcases h.published p (by omega) hpn with ⟨u, hu⟩ | hs
    · have hut : u ≠ t := by rintro rfl; exact hnf p hu
      exact .inl ⟨u, by simpa [hut] using hu⟩
    · exact .inr hs
  case free =>
    intro p hp hpc
    by_cases hlast : p = s.got + 2 ^ k
    · subst hlast
      exact .inl ⟨t, by omega, by simp [Op.draining]⟩
    · rcases h.free p hp (by omega) with ⟨u, hle, hu⟩ | hs
      · have hut : u ≠ t := by rintro rfl; exact hnd _ hu
        exact .inl ⟨u, hle, by simpa [hut] using hu⟩
      · exact .inr hs
  case filling =>
    intro u p hu
    split at hu
    · simp [Op.filling] at hu
    · have hf := h.filling u p hu
      have hne : p ≠ s.got := by rintro rfl; exact hfill u hu
      omega
  case draining =>
    intro u p hu
    split at hu
    · have hp : s.got = p := by simpa [Op.draining] using hu
      subst hp
      exact ⟨by omega, h.room, hseq⟩
    · have := h.draining u p hu
      omega

theorem Inv.store (h : Inv k s) {value : α} {pos : ℕ}
    (hop : s.ops t = some (.enqueueStore value pos)) :
    Inv k ⟨s.queue.storeData pos (some value), update s.ops t (some (.enqueuePublish pos)),
      s.hist ++ [.store t pos value]⟩ := by
  have hft : s.Filling t pos := (filling_of_op hop).mpr rfl
  have hput : s.put[pos]? = some value := h.ops t _ hop
  refine h.sameClaims (by simp [Sys.put, Event.enqueued]) (by simp [Sys.got, Event.dequeued])
    (by rw [hop]; rfl) (by rw [hop]; rfl) rfl rfl rfl rfl
    (fun p ↦ storeData_sequence pos p _) (fun p hp hpn ↦ ?_) (fun o ho ↦ ?_)
    (fun u o hu ho ↦ ?_)
  · by_cases hpp : p = pos
    · exact .inl ⟨t, hpp ▸ hft⟩
    · have hw := h.filling t pos hft
      have hroom := h.room
      have hne := mod_ne_of_window (c := 2 ^ k) hpp (by omega) (by omega)
      exact .inr (congrArg Cell.data (storeData_cell_ne h.mask _ hne))
  · simp only [Option.some.injEq] at ho
    subst ho
    exact (storeData_cell_self pos (some value)).trans hput.symm
  · refine (h.ops u o ho).storeData h.mask fun p hp ↦ h.cells_apart hu ?_ (.inl hft)
    exact hp.imp (filling_of_op ho).mpr (draining_of_op ho).mpr

theorem Inv.take (h : Inv k s) {pos : ℕ} (hop : s.ops t = some (.dequeueTake pos)) :
    Inv k ⟨s.queue.storeData pos none,
      update s.ops t (some (.dequeueRelease pos (s.queue.cell pos).data)),
      s.hist ++ [.take t pos (s.queue.cell pos).data]⟩ := by
  have hdt : s.Draining t pos := (draining_of_op hop).mpr rfl
  have hdata : (s.queue.cell pos).data = s.put[pos]? := h.ops t _ hop
  refine h.sameClaims (by simp [Sys.put, Event.enqueued]) (by simp [Sys.got, Event.dequeued])
    (by rw [hop]; rfl) (by rw [hop]; rfl) rfl rfl rfl rfl
    (fun p ↦ storeData_sequence pos p _) (fun p hp hpn ↦ ?_) (fun o ho ↦ ?_)
    (fun u o hu ho ↦ ?_)
  · have hw := h.draining t pos hdt
    have hroom := h.room
    have hne := mod_ne_of_window (p := p) (q := pos) (c := 2 ^ k) (by omega) (by omega) (by omega)
    exact .inr (congrArg Cell.data (storeData_cell_ne h.mask _ hne))
  · simp only [Option.some.injEq] at ho
    subst ho
    exact hdata
  · refine (h.ops u o ho).storeData h.mask fun p hp ↦ h.cells_apart hu ?_ (.inr hdt)
    exact hp.imp (filling_of_op ho).mpr (draining_of_op ho).mpr

theorem Inv.publish (h : Inv k s) (hB : s.put.length < 2 ^ 62) {pos : ℕ}
    (hop : s.ops t = some (.enqueuePublish pos)) :
    Inv k ⟨s.queue.storeSequence pos ((pos + 1) % 2 ^ 64),
      update s.ops t (some (.enqueueDone true)), s.hist ++ [.publish t pos]⟩ := by
  have hft : s.Filling t pos := (filling_of_op hop).mpr rfl
  obtain ⟨hgp, hpn, hseq⟩ := h.filling t pos hft
  have hroom := h.room
  have hx : (pos + 1) % 2 ^ 64 = pos + 1 := Nat.mod_eq_of_lt (by omega)
  rw [hx]
  have hne : ∀ p, p ≠ pos → s.got ≤ p → p < s.got + 2 ^ k → p % 2 ^ k ≠ pos % 2 ^ k :=
    fun p hp hp1 hp2 ↦ mod_ne_of_window hp (by omega) (by omega)
  have hnd : ∀ p, ¬ s.Draining t p := by simp [draining_of_op hop, Op.draining]
  constructor
  case capacity => exact h.capacity
  case mask => exact h.mask
  case ops =>
    intro u o ho
    simp only [put_snoc, got_snoc, Event.enqueued, Event.dequeued, Option.toList_none,
      List.length_nil, List.append_nil, Nat.add_zero]
    by_cases hu : u = t
    · subst hu
      simp only [update_self, Option.some.injEq] at ho
      subst ho
      trivial
    · simp only [update_of_ne hu] at ho
      exact (h.ops u o ho).storeSequence (by omega)
  case filling_unique =>
    exact filling_unique_update h.filling_unique fun p u _ hp ↦ by simp [Op.filling] at hp
  case draining_unique =>
    exact draining_unique_update h.draining_unique fun p u _ hp ↦ by simp [Op.draining] at hp
  all_goals simp only [put_snoc, got_snoc, Event.enqueued, Event.dequeued, Option.toList_none,
    List.length_nil, List.append_nil, Nat.add_zero, storeSequence_data, filling_update,
    draining_update]
  case enqueue_pos => exact h.enqueue_pos
  case dequeue_pos => exact h.dequeue_pos
  case got_le => exact h.got_le
  case room => exact h.room
  case published =>
    intro p hp hp2
    by_cases hpp : p = pos
    · subst hpp
      exact .inr ⟨by rw [storeSequence_cell_self], h.ops t _ hop⟩
    · rcases h.published p hp hp2 with ⟨u, hu⟩ | ⟨hs, hd⟩
      · have hut : u ≠ t := by
          rintro rfl
          have := (filling_of_op hop).mp hu
          simp only [Op.filling, Option.some.injEq] at this
          exact hpp this.symm
        exact .inl ⟨u, by simpa [hut] using hu⟩
      · rw [storeSequence_cell_ne h.mask _ (hne p hpp hp (by omega))]
        exact .inr ⟨hs, hd⟩
  case free =>
    intro p hp hpc
    rcases h.free p hp hpc with ⟨u, hle, hu⟩ | hs
    · have hut : u ≠ t := by rintro rfl; exact hnd _ hu
      exact .inl ⟨u, hle, by simpa [hut] using hu⟩
    · rw [storeSequence_cell_ne h.mask _ (hne p (by omega) (by omega) hpc)]
      exact .inr hs
  case filling =>
    intro u p hu
    split at hu
    · simp [Op.filling] at hu
    · rename_i hut
      have hf := h.filling u p hu
      rw [storeSequence_cell_ne h.mask _ (h.cells_apart hut (.inl hu) (.inl hft))]
      exact hf
  case draining =>
    intro u p hu
    split at hu
    · simp [Op.draining] at hu
    · rename_i hut
      have hd := h.draining u p hu
      rw [storeSequence_cell_ne h.mask _ (h.cells_apart hut (.inr hu) (.inl hft))]
      exact hd

theorem Inv.release (h : Inv k s) (hk : k ≤ 62) (hB : s.put.length < 2 ^ 62) {pos : ℕ}
    {value : Option α} (hop : s.ops t = some (.dequeueRelease pos value)) :
    Inv k ⟨s.queue.storeSequence pos ((pos + s.queue.mask_ + 1) % 2 ^ 64),
      update s.ops t (some (.dequeueDone true value)), s.hist ++ [.release t pos value]⟩ := by
  have hdt : s.Draining t pos := (draining_of_op hop).mpr rfl
  obtain ⟨hpg, hpn, hseq⟩ := h.draining t pos hdt
  have hroom := h.room
  have hle := h.got_le
  have hpow := Nat.two_pow_pos k
  have hcap : 2 ^ k ≤ 2 ^ 62 := Nat.pow_le_pow_right (by decide) hk
  have hx : (pos + s.queue.mask_ + 1) % 2 ^ 64 = pos + 2 ^ k := by
    rw [h.mask, Nat.mod_eq_of_lt (by omega)]
    omega
  rw [hx]
  have hne : ∀ p, p ≠ pos + 2 ^ k → s.got ≤ p → p < s.got + 2 ^ k → p % 2 ^ k ≠ pos % 2 ^ k := by
    intro p hp hp1 hp2
    rw [← Nat.add_mod_right pos (2 ^ k)]
    exact mod_ne_of_window hp (by omega) (by omega)
  have hnf : ∀ p, ¬ s.Filling t p := by simp [filling_of_op hop, Op.filling]
  have hval : value = s.put[pos]? := h.ops t _ hop
  constructor
  case capacity => exact h.capacity
  case mask => exact h.mask
  case ops =>
    intro u o ho
    simp only [put_snoc, got_snoc, Event.enqueued, Event.dequeued, Option.toList_none,
      List.length_nil, List.append_nil, Nat.add_zero]
    by_cases hu : u = t
    · subst hu
      simp only [update_self, Option.some.injEq] at ho
      subst ho
      simp only [OpOk, hval, List.getElem?_eq_getElem (show pos < s.put.length by omega),
        Option.isSome_some]
    · simp only [update_of_ne hu] at ho
      exact (h.ops u o ho).storeSequence (by omega)
  case filling_unique =>
    exact filling_unique_update h.filling_unique fun p u _ hp ↦ by simp [Op.filling] at hp
  case draining_unique =>
    exact draining_unique_update h.draining_unique fun p u _ hp ↦ by simp [Op.draining] at hp
  all_goals simp only [put_snoc, got_snoc, Event.enqueued, Event.dequeued, Option.toList_none,
    List.length_nil, List.append_nil, Nat.add_zero, storeSequence_data, filling_update,
    draining_update]
  case enqueue_pos => exact h.enqueue_pos
  case dequeue_pos => exact h.dequeue_pos
  case got_le => exact h.got_le
  case room => exact h.room
  case published =>
    intro p hp hp2
    rcases h.published p hp hp2 with ⟨u, hu⟩ | ⟨hs, hd⟩
    · have hut : u ≠ t := by rintro rfl; exact hnf _ hu
      exact .inl ⟨u, by simpa [hut] using hu⟩
    · rw [storeSequence_cell_ne h.mask _ (hne p (by omega) hp (by omega))]
      exact .inr ⟨hs, hd⟩
  case free =>
    intro p hp hpc
    by_cases hpp : p = pos + 2 ^ k
    · subst hpp
      exact .inr (by rw [storeSequence_cell_lap h.mask])
    · rcases h.free p hp hpc with ⟨u, hle, hu⟩ | hs
      · have hut : u ≠ t := by
          rintro rfl
          have := (draining_of_op hop).mp hu
          simp only [Op.draining, Option.some.injEq] at this
          omega
        exact .inl ⟨u, hle, by simpa [hut] using hu⟩
      · rw [storeSequence_cell_ne h.mask _ (hne p hpp (by omega) hpc)]
        exact .inr hs
  case filling =>
    intro u p hu
    split at hu
    · simp [Op.filling] at hu
    · rename_i hut
      have hf := h.filling u p hu
      rw [storeSequence_cell_ne h.mask _ (h.cells_apart hut (.inl hu) (.inr hdt))]
      exact hf
  case draining =>
    intro u p hu
    split at hu
    · simp [Op.draining] at hu
    · rename_i hut
      have hd := h.draining u p hu
      rw [storeSequence_cell_ne h.mask _ (h.cells_apart hut (.inr hu) (.inr hdt))]
      exact hd

theorem access_cases {s' : Sys Tid α} {spurious : Bool} (h : s.access t spurious = some s') :
    ∃ op q op', s.ops t = some op ∧ op.step s.queue spurious = some (q, op') ∧
      s' = ⟨q, update s.ops t (some op'), s.hist ++ op.event t op'⟩ := by
  unfold Sys.access at h
  cases hop : s.ops t with
  | none => simp [hop] at h
  | some op =>
    cases hstep : op.step s.queue spurious with
    | none => simp [hop, hstep] at h
    | some r =>
      simp only [hop, hstep, Option.some.injEq] at h
      exact ⟨op, r.1, r.2, rfl, hstep, h.symm⟩

theorem call_cases {s' : Sys Tid α} {req : Req α} (h : s.call t req = some s') :
    s.ops t = none ∧
      s' = ⟨s.queue, update s.ops t (some req.start), s.hist ++ [.call t req]⟩ := by
  unfold Sys.call at h
  cases hop : s.ops t with
  | none =>
    simp only [hop, Option.some.injEq] at h
    exact ⟨rfl, h.symm⟩
  | some op => simp [hop] at h

theorem ret_cases {s' : Sys Tid α} (h : s.ret t = some s') :
    ∃ op, s.ops t = some op ∧ op.isDone = true ∧
      s' = ⟨s.queue, update s.ops t none, s.hist⟩ := by
  unfold Sys.ret at h
  cases hop : s.ops t with
  | none => simp [hop] at h
  | some op =>
    simp only [hop, Option.ite_none_right_eq_some, Option.some.injEq] at h
    exact ⟨op, rfl, h.1, h.2.symm⟩

theorem Inv.access (h : Inv k s) (hk1 : 1 ≤ k) (hk : k ≤ 62) {s' : Sys Tid α} {spurious : Bool}
    (hs : s.access t spurious = some s') (hB0 : s.put.length < 2 ^ 62)
    (hB : s'.put.length < 2 ^ 62) : Inv k s' := by
  obtain ⟨op, q, op', hop, hstep, rfl⟩ := access_cases hs
  have hok := h.ops t op hop
  have hle := h.got_le
  cases op with
  | enqueueLoad value =>
    cases hstep
    exact h.quiet hop rfl rfl rfl h.enqueue_pos.le
  | enqueueSeq value pos =>
    simp only [Op.step, h.diff_eq hk hB0 pos (Nat.le_succ_of_le hok)] at hstep
    split at hstep
    · rename_i hdiff
      cases hstep
      exact h.quiet hop rfl rfl rfl ⟨hok, by omega⟩
    · split at hstep <;> cases hstep <;> exact h.quiet hop rfl rfl rfl trivial
  | enqueueCas value pos =>
    simp only [Op.step] at hstep
    split at hstep
    · rename_i hcas
      cases hstep
      have hput : Sys.put (⟨{ s.queue with enqueue_pos_ := (pos + 1) % 2 ^ 64 },
          update s.ops t (some (.enqueueStore value pos)),
          s.hist ++ [.enqueueClaim t pos value]⟩ : Sys Tid α) = s.put ++ [value] := by
        simp [put_snoc, Event.enqueued]
      simp only [Op.event, hput, List.length_append, List.length_singleton] at hB
      exact h.enqueueClaim hk1 hB hop hcas.1
    · cases hstep
      exact h.quiet hop rfl rfl rfl h.enqueue_pos.le
  | enqueueStore value pos => cases hstep; exact h.store hop
  | enqueuePublish pos => cases hstep; exact h.publish hB0 hop
  | dequeueLoad =>
    cases hstep
    exact h.quiet hop rfl rfl rfl h.dequeue_pos.le
  | dequeueSeq pos =>
    have hpos : pos ≤ s.got := hok
    have hmod : (pos + 1) % 2 ^ 64 = pos + 1 := Nat.mod_eq_of_lt (by omega)
    simp only [Op.step, hmod, h.diff_eq hk hB0 pos (x := pos + 1) (by omega)] at hstep
    split at hstep
    · rename_i hdiff
      cases hstep
      push_cast at hdiff
      exact h.quiet hop rfl rfl rfl ⟨hok, by omega⟩
    · split at hstep <;> cases hstep
      · exact h.quiet hop rfl rfl rfl rfl
      · exact h.quiet hop rfl rfl rfl trivial
  | dequeueCas pos =>
    simp only [Op.step] at hstep
    split at hstep
    · rename_i hcas
      cases hstep
      exact h.dequeueClaim hB0 hop hcas.1
    · cases hstep
      exact h.quiet hop rfl rfl rfl h.dequeue_pos.le
  | dequeueTake pos => cases hstep; exact h.take hop
  | dequeueRelease pos value => cases hstep; exact h.release hk hB0 hop
  | enqueueDone ok => cases hstep
  | dequeueDone ok value => cases hstep

theorem put_length_mono {s' : Sys Tid α} {a : SysAction Tid α} (h : s.step a = some s') :
    s.put.length ≤ s'.put.length := by
  have happ : ∀ (q : Queue α) (ops : Tid → Option (Op α)) (es : List (Event Tid α)),
      s.put.length ≤ (Sys.put ⟨q, ops, s.hist ++ es⟩).length := by
    intro q ops es
    simp only [Sys.put, List.filterMap_append, List.length_append]
    omega
  cases a with
  | call t req => obtain ⟨-, rfl⟩ := call_cases h; exact happ _ _ _
  | access t spurious => obtain ⟨_, _, _, -, -, rfl⟩ := access_cases h; exact happ _ _ _
  | ret t => obtain ⟨_, -, -, rfl⟩ := ret_cases h; exact le_rfl

/-- One step of any thread keeps the queue invariant, as long as fewer than
`2 ^ 62` positions are claimed. -/
theorem Inv.step (h : Inv k s) (hk1 : 1 ≤ k) (hk : k ≤ 62) {s' : Sys Tid α}
    {a : SysAction Tid α} (hs : s.step a = some s') (hB : s'.put.length < 2 ^ 62) : Inv k s' := by
  cases a with
  | call t req =>
    obtain ⟨hop, rfl⟩ := call_cases hs
    refine h.silent (by simp [Sys.put, Event.enqueued]) (by simp [Sys.got, Event.dequeued])
      ?_ ?_ fun o ho ↦ ?_
    · rw [hop]; cases req <;> rfl
    · rw [hop]; cases req <;> rfl
    · cases ho
      cases req <;> trivial
  | access t spurious =>
    exact h.access hk1 hk hs (lt_of_le_of_lt (put_length_mono hs) hB) hB
  | ret t =>
    obtain ⟨op, hop, hdone, rfl⟩ := ret_cases hs
    refine h.silent rfl rfl ?_ ?_ fun o ho ↦ by cases ho
    · rw [hop]; cases op <;> simp_all [Op.isDone, Op.filling]
    · rw [hop]; cases op <;> simp_all [Op.isDone, Op.draining]

theorem inv_reachable (hk1 : 1 ≤ k) (hk : k ≤ 62)
    (hs : (LockFreeQueue.machine Tid α (2 ^ k)).Reachable s) (hB : s.put.length < 2 ^ 62) :
    Inv k s := by
  refine Machine.Reaches.invariant_below (fun s : Sys Tid α ↦ s.put.length) (2 ^ 62)
    (fun _ _ _ ht ↦ put_length_mono ht) ?_ ?_ hs hB
  · rintro s rfl
    exact inv_construct k
  · exact fun s a t _ hi _ ht hb ↦ hi.step hk1 hk ht hb

end LivioArk.Msgbus.QueueInvariant
