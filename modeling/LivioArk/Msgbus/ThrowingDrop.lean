import LivioArk.Msgbus.BoundedFifo

namespace LivioArk.Msgbus.ThrowingDrop

open LockFreeQueue BoundedFifo

variable {μ : Type}

inductive OnDrop
  | empty
  | returns
  | throws
  deriving DecidableEq

inductive DropPolicy
  | DropNewest
  | DropOldest
  deriving DecidableEq

inductive Exit
  | returned (result : Bool)
  | threw
  | retrying
  deriving DecidableEq

/-- What the dispatcher does in the course of one turn: the messages it takes
before the attempt to enqueue and before the one to dequeue, and whether it has
still to give back the cell that the first attempt needs. -/
structure Turn where
  before : ℕ := 0
  claimed : Bool := false
  between : ℕ := 0

/-- The queue in the course of a call, and where the messages went that have
left it since. -/
structure Course (μ : Type) where
  queue : List μ
  taken : List μ := []
  discarded : List μ := []
  deriving DecidableEq

def Course.serve (n : ℕ) (s : Course μ) : Course μ :=
  { s with queue := s.queue.drop n, taken := s.taken ++ s.queue.take n }

def tryEnqueue (capacity : ℕ) (turn : Turn) (mptr : μ) (s : Course μ) : Course μ × Bool :=
  let s := s.serve turn.before
  if turn.claimed then (s, false)
  else
    let next := fifo capacity s.queue (.tryEnqueue mptr)
    ({ s with queue := next.1 }, !failed next.2)

/-- `try_dequeue(oldest)`, by a call that discards what it gets. -/
def tryDequeue (capacity : ℕ) (turn : Turn) (s : Course μ) : Course μ × Option μ :=
  let s := s.serve turn.between
  match fifo capacity s.queue .tryDequeue with
  | (rest, .dequeueDone true (some oldest)) =>
    ({ s with queue := rest, discarded := s.discarded ++ [oldest] }, some oldest)
  | _ => (s, none)

variable (capacity : ℕ) (on_drop_ : μ → OnDrop) (mptr : μ)

/-- `notify_drop`, with whether it throws. -/
def notifyDrop (msg : μ) : Bool :=
  match on_drop_ msg with
  | .empty | .returns => false
  | .throws => true

def dropNewest (turn : Turn) (s : Course μ) : Exit × Course μ :=
  match tryEnqueue capacity turn mptr s with
  | (s, true) => (.returned true, s)
  | (s, false) => if notifyDrop on_drop_ mptr then (.threw, s) else (.returned true, s)

def retry : List Turn → Course μ → Exit × Course μ
  | [], s => (.retrying, s)
  | turn :: turns, s =>
    match tryEnqueue capacity turn mptr s with
    | (s, true) => (.returned true, s)
    | (s, false) =>
      match tryDequeue capacity turn s with
      | (s, some oldest) => if notifyDrop on_drop_ oldest then (.threw, s) else retry turns s
      | (s, none) => retry turns s

def dropOldest : List Turn → Course μ → Exit × Course μ
  | [], s => (.retrying, s)
  | turn :: turns, s =>
    match tryEnqueue capacity turn mptr s with
    | (s, true) => (.returned true, s)
    | (s, false) =>
      match tryDequeue capacity turn s with
      | (s, some oldest) =>
        if notifyDrop on_drop_ oldest then (.threw, s)
        else retry capacity on_drop_ mptr turns s
      | (s, none) => retry capacity on_drop_ mptr turns s

/-- `enqueueMessage` with the queue content `l`. The call has as many turns as
the dispatcher's schedule tells. -/
def enqueueMessage (policy : DropPolicy) (turns : List Turn) (l : List μ) : Exit × Course μ :=
  match policy, turns with
  | .DropNewest, [] => (.retrying, { queue := l })
  | .DropNewest, turn :: _ => dropNewest capacity on_drop_ mptr turn { queue := l }
  | .DropOldest, turns => dropOldest capacity on_drop_ mptr turns { queue := l }

/-- A call that exits by an exception has enqueued its message, or else has
discarded nothing: the queue has lost what the dispatcher took and no more. -/
def Uncorrupted (policy : DropPolicy) (turns : List Turn) (l : List μ) : Prop :=
  (enqueueMessage capacity on_drop_ mptr policy turns l).1 = .threw →
    mptr ∈ (enqueueMessage capacity on_drop_ mptr policy turns l).2.queue ∨
      (enqueueMessage capacity on_drop_ mptr policy turns l).2.taken ++
        (enqueueMessage capacity on_drop_ mptr policy turns l).2.queue = l

/-- The messages at the front that are in the way of a new one. -/
def inTheWay (capacity : ℕ) : List Turn → List μ → List μ
  | [], _ => []
  | turn :: turns, l =>
    if turn.claimed = false ∧ (l.drop turn.before).length ≠ capacity then []
    else
      match (l.drop turn.before).drop turn.between with
      | [] => inTheWay capacity turns []
      | oldest :: rest => oldest :: inTheWay capacity turns rest

variable {capacity on_drop_ mptr} {turn : Turn} {s : Course μ}

theorem tryEnqueue_room (h : turn.claimed = false ∧ (s.queue.drop turn.before).length ≠ capacity) :
    tryEnqueue capacity turn mptr s =
      ({ s.serve turn.before with queue := s.queue.drop turn.before ++ [mptr] }, true) := by
  have hfifo : fifo capacity (s.queue.drop turn.before) (.tryEnqueue mptr) =
      (s.queue.drop turn.before ++ [mptr], .enqueueDone true) := if_neg h.2
  simp only [tryEnqueue, h.1, Course.serve, hfifo]
  rfl

theorem tryEnqueue_full
    (h : ¬ (turn.claimed = false ∧ (s.queue.drop turn.before).length ≠ capacity)) :
    tryEnqueue capacity turn mptr s = (s.serve turn.before, false) := by
  cases hclaimed : turn.claimed with
  | true => simp only [tryEnqueue, hclaimed, if_true]
  | false =>
    have hfull : (s.queue.drop turn.before).length = capacity := by
      by_contra hroom
      exact h ⟨hclaimed, hroom⟩
    have hfifo : fifo capacity (s.queue.drop turn.before) (.tryEnqueue mptr) =
        (s.queue.drop turn.before, .enqueueDone false) := if_pos hfull
    simp only [tryEnqueue, hclaimed, Course.serve, hfifo]
    rfl

def Course.discard (n : ℕ) (s : Course μ) : Course μ where
  queue := (s.queue.drop n).tail
  taken := s.taken ++ s.queue.take n
  discarded := s.discarded ++ (s.queue.drop n).head?.toList

theorem tryDequeue_eq :
    tryDequeue capacity turn s = (s.discard turn.between, (s.queue.drop turn.between).head?) := by
  simp only [tryDequeue, Course.serve, Course.discard]
  cases s.queue.drop turn.between with
  | nil => simp [fifo]
  | cons oldest rest => rfl

/-- The first turn is one of the loop. -/
theorem dropOldest_eq_retry (turns : List Turn) (s : Course μ) :
    dropOldest capacity on_drop_ mptr turns s = retry capacity on_drop_ mptr turns s := by
  cases turns with
  | nil => rfl
  | cons turn turns => rfl

theorem notifyDrop_iff (msg : μ) : notifyDrop on_drop_ msg = true ↔ on_drop_ msg = .throws := by
  rw [notifyDrop]
  cases on_drop_ msg <;> simp

theorem retry_room (turns : List Turn)
    (h : turn.claimed = false ∧ (s.queue.drop turn.before).length ≠ capacity) :
    retry capacity on_drop_ mptr (turn :: turns) s =
      (.returned true,
        { s.serve turn.before with queue := s.queue.drop turn.before ++ [mptr] }) := by
  simp only [retry, tryEnqueue_room h]

theorem retry_full (turns : List Turn)
    (h : ¬ (turn.claimed = false ∧ (s.queue.drop turn.before).length ≠ capacity)) :
    retry capacity on_drop_ mptr (turn :: turns) s =
      if ((s.queue.drop turn.before).drop turn.between).head?.any (notifyDrop on_drop_) then
        (.threw, (s.serve turn.before).discard turn.between)
      else retry capacity on_drop_ mptr turns ((s.serve turn.before).discard turn.between) := by
  simp only [retry, tryEnqueue_full h, tryDequeue_eq, Course.serve]
  cases ((s.queue.drop turn.before).drop turn.between).head? with
  | none => rfl
  | some oldest => rfl

theorem retry_threw_iff (turns : List Turn) (s : Course μ) :
    (retry capacity on_drop_ mptr turns s).1 = .threw ↔
      ∃ msg ∈ inTheWay capacity turns s.queue, on_drop_ msg = .throws := by
  induction turns generalizing s with
  | nil => simp [retry, inTheWay]
  | cons turn turns ih =>
    rw [inTheWay]
    by_cases hroom : turn.claimed = false ∧ (s.queue.drop turn.before).length ≠ capacity
    · rw [retry_room turns hroom, if_pos hroom]
      simp
    · rw [retry_full turns hroom, if_neg hroom]
      have hnext : ((s.serve turn.before).discard turn.between).queue =
          ((s.queue.drop turn.before).drop turn.between).tail := rfl
      generalize (s.queue.drop turn.before).drop turn.between = queue at hnext ⊢
      cases queue with
      | nil =>
        rw [if_neg (by simp), ih, hnext]
        rfl
      | cons oldest rest =>
        simp only [List.mem_cons, exists_eq_or_imp]
        rw [← notifyDrop_iff oldest, List.head?_cons, Option.any_some]
        by_cases hthrows : notifyDrop on_drop_ oldest = true
        · rw [if_pos hthrows]
          simp [hthrows]
        · rw [if_neg hthrows, ih, hnext]
          simp only [hthrows, List.tail_cons, Bool.false_eq_true, false_or]

section Content

def Course.count (s : Course μ) : ℕ := s.taken.length + s.discarded.length + s.queue.length

theorem count_serve (n : ℕ) (s : Course μ) : (s.serve n).count = s.count := by
  simp only [Course.count, Course.serve, List.length_append, List.length_take, List.length_drop]
  omega

theorem count_discard (n : ℕ) (s : Course μ) : (s.discard n).count = s.count := by
  have hsplit : ∀ l : List μ, l.head?.toList.length + l.tail.length = l.length := by
    intro l
    cases l with
    | nil => rfl
    | cons x l => exact Nat.add_comm 1 l.length
  have hqueue := hsplit (s.queue.drop n)
  have hserve := count_serve n s
  simp only [Course.count, Course.serve, Course.discard, List.length_append] at hserve ⊢
  omega

/-- A loop that throws has not enqueued its message, and the last thing that it
did was to discard another one. -/
theorem retry_threw {turns : List Turn} {s : Course μ}
    (h : (retry capacity on_drop_ mptr turns s).1 = .threw) :
    (retry capacity on_drop_ mptr turns s).2.count = s.count ∧
      s.discarded.length < (retry capacity on_drop_ mptr turns s).2.discarded.length ∧
      ∀ msg ∈ (retry capacity on_drop_ mptr turns s).2.queue, msg ∈ s.queue := by
  induction turns generalizing s with
  | nil => cases h
  | cons turn turns ih =>
    by_cases hroom : turn.claimed = false ∧ (s.queue.drop turn.before).length ≠ capacity
    · rw [retry_room turns hroom] at h
      cases h
    · rw [retry_full turns hroom] at h ⊢
      have hcount : ((s.serve turn.before).discard turn.between).count = s.count := by
        rw [count_discard, count_serve]
      have hqueue : ∀ msg ∈ ((s.serve turn.before).discard turn.between).queue, msg ∈ s.queue :=
        fun msg hmsg ↦ List.mem_of_mem_drop (List.mem_of_mem_drop (List.mem_of_mem_tail hmsg))
      split at h
      · rename_i hthrows
        rw [if_pos hthrows]
        obtain ⟨oldest, holdest, -⟩ := (Option.any_eq_true _ _).mp hthrows
        refine ⟨hcount, ?_, hqueue⟩
        simp only [Course.discard, Course.serve, holdest, Option.toList_some, List.length_append,
          List.length_singleton]
        exact Nat.lt_succ_self _
      · rename_i hreturns
        rw [if_neg hreturns]
        obtain ⟨hcount', hdiscarded, hmem⟩ := ih h
        refine ⟨hcount'.trans hcount, lt_of_le_of_lt ?_ hdiscarded, ?_⟩
        · simp only [Course.discard, Course.serve, List.length_append]
          omega
        · exact fun msg hmsg ↦ hqueue msg (hmem msg hmsg)

end Content

theorem dropNewest_content {turn : Turn} {l : List μ}
    (h : (dropNewest capacity on_drop_ mptr turn { queue := l }).1 = .threw) :
    (dropNewest capacity on_drop_ mptr turn { queue := l }).2.taken ++
      (dropNewest capacity on_drop_ mptr turn { queue := l }).2.queue = l := by
  rw [dropNewest] at h ⊢
  by_cases hroom : turn.claimed = false ∧ (l.drop turn.before).length ≠ capacity
  · rw [tryEnqueue_room hroom] at h
    cases h
  · rw [tryEnqueue_full hroom] at h ⊢
    simp only at h ⊢
    split at h
    · rename_i hthrows
      rw [if_pos hthrows]
      simp only [Course.serve, List.nil_append, List.take_append_drop]
    · cases h

/-- A call is safe from a throwing callback exactly if it runs under
`DropNewest` or none of the messages in its way has such a callback. -/
theorem uncorrupted_iff (capacity : ℕ) (on_drop_ : μ → OnDrop) {mptr : μ} (policy : DropPolicy)
    (turns : List Turn) {l : List μ} (hfresh : mptr ∉ l) :
    Uncorrupted capacity on_drop_ mptr policy turns l ↔
      policy = .DropNewest ∨ ∀ msg ∈ inTheWay capacity turns l, on_drop_ msg ≠ .throws := by
  cases policy with
  | DropNewest =>
    refine ⟨fun _ ↦ .inl rfl, fun _ ↦ ?_⟩
    cases turns with
    | nil => exact fun h ↦ by cases h
    | cons turn turns => exact fun h ↦ .inr (dropNewest_content h)
  | DropOldest =>
    have hthrew : (retry capacity on_drop_ mptr turns { queue := l }).1 = .threw ↔ _ :=
      retry_threw_iff turns { queue := l }
    simp only [Uncorrupted, enqueueMessage, dropOldest_eq_retry]
    constructor
    · intro hsafe
      right
      intro msg hmsg hthrows
      have hexit := hthrew.mpr ⟨msg, hmsg, hthrows⟩
      obtain ⟨hcount, hdiscarded, hqueue⟩ := retry_threw hexit
      cases hsafe hexit with
      | inl hin => exact hfresh (hqueue mptr hin)
      | inr hcontent =>
        have hlength := congrArg List.length hcontent
        rw [List.length_append] at hlength
        simp only [Course.count, List.length_nil] at hcount hdiscarded
        omega
    · intro hcond hexit
      cases hcond with
      | inl hpolicy => cases hpolicy
      | inr hnone =>
        obtain ⟨msg, hmsg, hthrows⟩ := hthrew.mp hexit
        exact absurd hthrows (hnone msg hmsg)

/-- With nobody else at work only the message at the front of a full queue is
in the way. -/
theorem inTheWay_quiet (n : ℕ) (l : List μ) (hroom : 0 < capacity) :
    inTheWay capacity (List.replicate (n + 2) {}) l =
      if l.length = capacity then l.take 1 else [] := by
  rw [List.replicate_succ, inTheWay]
  simp only [List.drop_zero, true_and]
  by_cases hfull : l.length = capacity
  · rw [if_neg (not_not_intro hfull), if_pos hfull]
    cases l with
    | nil => exact absurd hfull (by simp; omega)
    | cons oldest rest =>
      rw [List.length_cons] at hfull
      rw [List.replicate_succ]
      simp only [inTheWay, List.drop_zero, true_and]
      rw [if_pos (by omega)]
      rfl
  · rw [if_pos hfull, if_neg hfull]

/-- The oldest message of a full queue makes room, and its callback returns. -/
theorem uncorrupted_called :
    let on_drop_ := fun msg ↦ if msg = 1 then OnDrop.returns else .throws
    Uncorrupted 2 on_drop_ 3 .DropOldest [{}, {}] [1, 2] ∧
      enqueueMessage 2 on_drop_ 3 .DropOldest [{}, {}] [1, 2] =
        (.returned true, { queue := [2, 3], discarded := [1] }) := by
  refine ⟨(uncorrupted_iff 2 _ .DropOldest [{}, {}] (by decide)).mpr (.inr ?_), by decide⟩
  decide

/-- A full queue whose oldest message has a throwing callback loses it, and the
new message is not in the queue. -/
theorem corrupted_full :
    ¬ Uncorrupted 2 (fun msg ↦ if msg = 1 then .throws else .empty) 3 .DropOldest [{}, {}]
      [1, 2] := by
  intro h
  have hexit := h (by decide)
  revert hexit
  decide

end LivioArk.Msgbus.ThrowingDrop
