import LivioArk.Library.QueueLog
import LivioArk.Msgbus.MessageBus

namespace LivioArk.Msgbus.Accounts

open LivioArk.Library.Transition LivioArk.Library.QueueLog MessageBus
open scoped List

variable {μ : Type}

/-- What a publisher or a consumer of a bounded queue sees of it: a message on
offer is queued, refused or discarded, and a queued one is dequeued or discarded. -/
structure Book (μ : Type) where
  offered : List μ
  waiting : List μ
  fifo : Fifo μ
  dequeued : List μ
  rejected : List μ
  dropped : List μ

inductive Entry (μ : Type)
  | offer (m : μ)
  | enqueue (m : μ)
  | dequeue
  | reject (m : μ)
  | dropNewest (m : μ)
  | dropOldest

/-- The policies under which `publish` may return false. -/
def Rejects (policy : FullPolicy) : Prop :=
  policy = .ReturnFalse ∨ policy = .Block ∨ policy = .BlockTimeout

instance : DecidablePred Rejects := fun _ ↦ inferInstanceAs (Decidable (_ ∨ _ ∨ _))

namespace Book

def initial : Book μ := ⟨[], [], .empty, [], [], []⟩

def queued (a : Book μ) : List μ := a.fifo.items

variable [DecidableEq μ]

def places (a : Book μ) (m : μ) : ℕ :=
  a.waiting.count m + a.queued.count m + a.dequeued.count m + a.rejected.count m +
    a.dropped.count m

/-- A bounded queue of `cap` places under a policy. A queue that is not full
refuses nobody, unless the policy lets a publisher give up waiting. -/
def step (policy : FullPolicy) (cap : ℕ) (a : Book μ) : Entry μ → Option (Book μ)
  | .offer m =>
    if m ∈ a.offered then none
    else some { a with offered := a.offered ++ [m], waiting := a.waiting ++ [m] }
  | .enqueue m =>
    if m ∈ a.waiting ∧ a.queued.length < cap then
      some { a with waiting := a.waiting.erase m, fifo := a.fifo.enqueue m }
    else none
  | .dequeue =>
    match a.fifo.dequeue with
    | (fifo, some m) => some { a with fifo, dequeued := a.dequeued ++ [m] }
    | (_, none) => none
  | .reject m =>
    if m ∈ a.waiting ∧ Rejects policy ∧ (policy = .ReturnFalse → cap ≤ a.queued.length) then
      some { a with waiting := a.waiting.erase m, rejected := a.rejected ++ [m] }
    else none
  | .dropNewest m =>
    if m ∈ a.waiting ∧ policy = .DropNewest ∧ cap ≤ a.queued.length then
      some { a with waiting := a.waiting.erase m, dropped := a.dropped ++ [m] }
    else none
  | .dropOldest =>
    match a.fifo.dequeue with
    | (fifo, some m) =>
      if policy = .DropOldest ∧ a.waiting ≠ [] then
        some { a with fifo, dropped := a.dropped ++ [m] }
      else none
    | (_, none) => none

end Book

variable [DecidableEq μ]

def machine (μ : Type) [DecidableEq μ] (policy : FullPolicy) (cap : ℕ) :
    Machine (Book μ) (Entry μ) where
  init a := a = .initial
  step := Book.step policy cap

structure Inv (policy : FullPolicy) (cap : ℕ) (a : Book μ) : Prop where
  fresh : a.offered.Nodup
  once : ∀ m, a.places m = a.offered.count m
  bounded : a.queued.length ≤ cap
  got_le : a.fifo.got ≤ a.fifo.put.length
  order : a.dequeued <+ a.fifo.taken
  all : policy ≠ .DropOldest → a.dequeued = a.fifo.taken
  left : ∀ m, a.fifo.taken.count m ≤ a.dequeued.count m + a.dropped.count m
  rejected : a.rejected ≠ [] → Rejects policy
  dropped : a.dropped ≠ [] → policy = .DropNewest ∨ policy = .DropOldest
  newest : policy = .DropNewest → ∀ m ∈ a.dropped, m ∉ a.fifo.put
  oldest : policy = .DropOldest → ∀ m ∈ a.dropped, m ∈ a.fifo.taken

theorem inv_initial (policy : FullPolicy) (cap : ℕ) : Inv policy cap (.initial : Book μ) where
  fresh := List.nodup_nil
  once _ := rfl
  bounded := Nat.zero_le _
  got_le := le_rfl
  order := List.Sublist.refl _
  all _ := rfl
  left _ := Nat.zero_le _
  rejected h := absurd rfl h
  dropped h := absurd rfl h
  newest _ _ h := absurd h List.not_mem_nil
  oldest _ _ h := absurd h List.not_mem_nil

variable {policy : FullPolicy} {cap : ℕ} {a b : Book μ} {m : μ}

theorem Inv.places_le_one (h : Inv policy cap a) (m : μ) : a.places m ≤ 1 := by
  rw [h.once]
  exact List.nodup_iff_count_le_one.mp h.fresh m

theorem count_put (q : Fifo μ) (m : μ) : q.put.count m = q.taken.count m + q.items.count m := by
  rw [← q.taken_append_items, List.count_append]

theorem Inv.put_nodup (h : Inv policy cap a) : a.fifo.put.Nodup := by
  refine List.nodup_iff_count_le_one.mpr fun m ↦ ?_
  have hp := h.places_le_one m
  have hl := h.left m
  have hc := count_put a.fifo m
  simp only [Book.places, Book.queued] at hp
  omega

/-- A message on offer is nowhere else. -/
theorem Inv.waiting_alone (h : Inv policy cap a) (hm : m ∈ a.waiting) :
    m ∉ a.fifo.put ∧ m ∉ a.rejected ∧ m ∉ a.dropped := by
  have hp := h.places_le_one m
  have hl := h.left m
  have hc := count_put a.fifo m
  have hw := List.count_pos_iff.mpr hm
  simp only [Book.places, Book.queued] at hp
  simp only [← List.count_pos_iff]
  omega

theorem Inv.rejected_alone (h : Inv policy cap a) (hm : m ∈ a.rejected) :
    ¬ (m ∈ a.fifo.put ∨ m ∈ a.dropped) := by
  have hp := h.places_le_one m
  have hl := h.left m
  have hc := count_put a.fifo m
  have hw := List.count_pos_iff.mpr hm
  simp only [Book.places, Book.queued] at hp
  simp only [← List.count_pos_iff]
  omega

theorem Inv.queued_not_dropped (h : Inv policy cap a) (hm : m ∈ a.queued) : m ∉ a.dropped := by
  have hp := h.places_le_one m
  have hw := List.count_pos_iff.mpr hm
  simp only [Book.places] at hp
  simp only [← List.count_pos_iff]
  omega

theorem Inv.places_pos_iff (h : Inv policy cap a) : 0 < a.places m ↔ m ∈ a.offered := by
  rw [h.once, List.count_pos_iff]

theorem Inv.offered_of_dropped (h : Inv policy cap a) (hm : m ∈ a.dropped) : m ∈ a.offered := by
  have hw := List.count_pos_iff.mpr hm
  apply h.places_pos_iff.mp
  simp only [Book.places]
  omega

theorem Inv.offer (h : Inv policy cap a) (hm : m ∉ a.offered) :
    Inv policy cap { a with offered := a.offered ++ [m], waiting := a.waiting ++ [m] } where
  fresh := List.nodup_append_comm.mp (List.nodup_cons.mpr ⟨hm, h.fresh⟩)
  once x := by
    have ho := h.once x
    simp only [Book.places, Book.queued, List.count_append] at ho ⊢
    omega
  bounded := h.bounded
  got_le := h.got_le
  order := h.order
  all := h.all
  left := h.left
  rejected := h.rejected
  dropped := h.dropped
  newest := h.newest
  oldest := h.oldest

theorem count_erase_add (hm : m ∈ a.waiting) (x : μ) :
    (a.waiting.erase m).count x + [m].count x = a.waiting.count x := by
  rw [← List.count_append, (List.perm_append_comm.trans (List.perm_cons_erase hm).symm).count_eq]

theorem Inv.enqueue (h : Inv policy cap a) (hm : m ∈ a.waiting) (hcap : a.queued.length < cap) :
    Inv policy cap { a with waiting := a.waiting.erase m, fifo := a.fifo.enqueue m } where
  fresh := h.fresh
  once x := by
    have ho := h.once x
    have he := count_erase_add hm x
    simp only [Book.places, Book.queued, Fifo.items_enqueue h.got_le, List.count_append] at ho ⊢
    omega
  bounded := by
    simp only [Book.queued, Fifo.items_enqueue h.got_le, List.length_append, List.length_singleton]
    exact hcap
  got_le := by
    have := h.got_le
    simp only [Fifo.enqueue, List.length_append]
    omega
  order := by
    rw [Fifo.taken_enqueue h.got_le]
    exact h.order
  all hp := by
    rw [Fifo.taken_enqueue h.got_le]
    exact h.all hp
  left x := by
    rw [Fifo.taken_enqueue h.got_le]
    exact h.left x
  rejected := h.rejected
  dropped := h.dropped
  newest hp x hx := by
    simp only [Fifo.enqueue, List.mem_append, List.mem_singleton, not_or]
    refine ⟨h.newest hp x hx, ?_⟩
    rintro rfl
    exact (h.waiting_alone hm).2.2 hx
  oldest hp x hx := by
    rw [Fifo.taken_enqueue h.got_le]
    exact h.oldest hp x hx

theorem Inv.dequeue {q : Fifo μ} (h : Inv policy cap a) (hq : a.fifo.dequeue = (q, some m)) :
    Inv policy cap { a with fifo := q, dequeued := a.dequeued ++ [m] } := by
  obtain ⟨hi, ht, hput, hgot⟩ := Fifo.dequeue_head hq
  exact {
    fresh := h.fresh
    once := fun x ↦ by
      have ho := h.once x
      simp only [Book.places, Book.queued, hi, List.count_append,
        List.count_cons, List.count_nil] at ho ⊢
      omega
    bounded := by
      have hb := h.bounded
      rw [Book.queued, hi] at hb
      exact (Nat.le_succ _).trans hb
    got_le := hgot
    order := by
      rw [ht]
      exact h.order.append (List.Sublist.refl _)
    all := fun hp ↦ by rw [ht, h.all hp]
    left := fun x ↦ by
      have hl := h.left x
      simp only [ht, List.count_append]
      omega
    rejected := h.rejected
    dropped := h.dropped
    newest := fun hp ↦ by
      rw [hput]
      exact h.newest hp
    oldest := fun hp x hx ↦ by
      rw [ht]
      exact List.mem_append_left _ (h.oldest hp x hx) }

theorem Inv.reject (h : Inv policy cap a) (hm : m ∈ a.waiting) (hp : Rejects policy) :
    Inv policy cap
      { a with waiting := a.waiting.erase m, rejected := a.rejected ++ [m] } where
  fresh := h.fresh
  once x := by
    have ho := h.once x
    have he := count_erase_add hm x
    simp only [Book.places, Book.queued, List.count_append] at ho ⊢
    omega
  bounded := h.bounded
  got_le := h.got_le
  order := h.order
  all := h.all
  left := h.left
  rejected _ := hp
  dropped := h.dropped
  newest := h.newest
  oldest := h.oldest

theorem Inv.dropNewest (h : Inv policy cap a) (hm : m ∈ a.waiting) (hp : policy = .DropNewest) :
    Inv policy cap
      { a with waiting := a.waiting.erase m, dropped := a.dropped ++ [m] } where
  fresh := h.fresh
  once x := by
    have ho := h.once x
    have he := count_erase_add hm x
    simp only [Book.places, Book.queued, List.count_append] at ho ⊢
    omega
  bounded := h.bounded
  got_le := h.got_le
  order := h.order
  all := h.all
  left x := by
    have hl := h.left x
    simp only [List.count_append]
    omega
  rejected := h.rejected
  dropped _ := .inl hp
  newest hp x hx := by
    rcases List.mem_append.mp hx with hx | hx
    · exact h.newest hp x hx
    · rw [List.mem_singleton.mp hx]
      exact (h.waiting_alone hm).1
  oldest hp' := by rw [hp] at hp'; cases hp'

theorem Inv.dropOldest {q : Fifo μ} (h : Inv policy cap a) (hq : a.fifo.dequeue = (q, some m))
    (hp : policy = .DropOldest) :
    Inv policy cap { a with fifo := q, dropped := a.dropped ++ [m] } := by
  obtain ⟨hi, ht, hput, hgot⟩ := Fifo.dequeue_head hq
  exact {
    fresh := h.fresh
    once := fun x ↦ by
      have ho := h.once x
      simp only [Book.places, Book.queued, hi, List.count_append,
        List.count_cons, List.count_nil] at ho ⊢
      omega
    bounded := by
      have hb := h.bounded
      rw [Book.queued, hi] at hb
      exact (Nat.le_succ _).trans hb
    got_le := hgot
    order := by
      rw [ht]
      exact h.order.trans (List.sublist_append_left _ _)
    all := fun hp' ↦ absurd hp hp'
    left := fun x ↦ by
      have hl := h.left x
      simp only [ht, List.count_append]
      omega
    rejected := h.rejected
    dropped := fun _ ↦ .inr hp
    newest := fun hp' ↦ by rw [hp] at hp'; cases hp'
    oldest := fun hp x hx ↦ by
      rw [ht]
      rcases List.mem_append.mp hx with hx | hx
      · exact List.mem_append_left _ (h.oldest hp x hx)
      · exact List.mem_append_right _ hx }

theorem Inv.step (h : Inv policy cap a) {e : Entry μ} (hs : a.step policy cap e = some b) :
    Inv policy cap b := by
  cases e with
  | offer m =>
    simp only [Book.step] at hs
    split at hs
    · cases hs
    · rename_i hm
      cases hs
      exact h.offer hm
  | enqueue m =>
    simp only [Book.step] at hs
    split at hs
    · rename_i hm
      cases hs
      exact h.enqueue hm.1 hm.2
    · cases hs
  | dequeue =>
    simp only [Book.step] at hs
    split at hs
    · rename_i q m hq
      cases hs
      exact h.dequeue hq
    · cases hs
  | reject m =>
    simp only [Book.step] at hs
    split at hs
    · rename_i hm
      cases hs
      exact h.reject hm.1 hm.2.1
    · cases hs
  | dropNewest m =>
    simp only [Book.step] at hs
    split at hs
    · rename_i hm
      cases hs
      exact h.dropNewest hm.1 hm.2.1
    · cases hs
  | dropOldest =>
    simp only [Book.step] at hs
    split at hs
    · rename_i q m hq
      split at hs
      · rename_i hp
        cases hs
        exact h.dropOldest hq hp.1
      · cases hs
    · cases hs

theorem inv_reachable (h : (machine μ policy cap).Reachable a) : Inv policy cap a := by
  refine Machine.Reaches.invariant ?_ (fun s e t _ hi _ ht ↦ hi.step ht) h
  rintro s rfl
  exact inv_initial policy cap

end LivioArk.Msgbus.Accounts
