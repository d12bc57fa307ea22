import LivioArk.Library.Transition
import Mathlib.Algebra.BigOperators.Group.List.Basic
import Mathlib.Algebra.GroupWithZero.Nat

namespace LivioArk.Library.Transition.Machine

variable {σ α : Type*} {M : Machine σ α} {P Q : σ → Prop} {size : σ → ℕ}

/-- What holds at the end of a run and of every state before one where it holds,
holds all along. -/
theorem run_before (hQ : ∀ s a t, M.step s a = some t → Q t → Q s) {s t : σ} (as : List α)
    (hrun : M.run s as = some t) (h : Q t) : Q s := by
  induction as generalizing s with
  | nil =>
    obtain rfl : s = t := Option.some.inj hrun
    exact h
  | cons a as ih =>
    obtain ⟨u, hu, ht⟩ := Option.bind_eq_some_iff.mp hrun
    exact hQ s a u hu (ih ht)

/-- What the steps of a run cost is paid by the budget that they bring with them
and by what others have paid meanwhile, of which `p` keeps account. -/
theorem run_budget {cost budget : α → ℕ} {p : σ → ℕ}
    (hQ : ∀ s a t, M.step s a = some t → Q t → Q s)
    (hs : ∀ s a t, P s → Q t → M.step s a = some t →
      P t ∧ cost a + size t + p s ≤ size s + budget a + p t)
    {s t : σ} (h : P s) (ht : Q t) (as : List α) (hrun : M.run s as = some t) :
    (as.map cost).sum + size t + p s ≤ size s + (as.map budget).sum + p t := by
  induction as generalizing s with
  | nil =>
    obtain rfl : s = t := Option.some.inj hrun
    simp
  | cons a as ih =>
    obtain ⟨u, hu, hrest⟩ := Option.bind_eq_some_iff.mp hrun
    obtain ⟨hP, hstep⟩ := hs s a u h (run_before hQ as hrest ht) hu
    have htail := ih hP hrest
    simp only [List.map_cons, List.sum_cons]
    omega

/-- A measure that some step can always lower leads to where no such step is
needed any more, in no more steps than it had left. -/
theorem run_until (size : σ → ℕ) (own : α → Prop)
    (hs : ∀ s, P s → ¬ Q s → ∃ a t, own a ∧ M.step s a = some t ∧ P t ∧ size t < size s)
    {s : σ} (h : P s) : ∃ as t, (∀ a ∈ as, own a) ∧ as.length + size t ≤ size s ∧
      M.run s as = some t ∧ P t ∧ Q t := by
  induction hn : size s using Nat.strongRecOn generalizing s with
  | _ n ih =>
    subst hn
    by_cases hQ : Q s
    · exact ⟨[], s, fun _ ha ↦ absurd ha List.not_mem_nil, by simp, rfl, h, hQ⟩
    · obtain ⟨a, u, ha, hu, hP, hlt⟩ := hs s h hQ
      obtain ⟨as, t, has, hlength, hrun, ht⟩ := ih (size u) hlt hP rfl
      refine ⟨a :: as, t, ?_, ?_, ?_, ht⟩
      · intro b hb
        cases hb with
        | head => exact ha
        | tail _ hb => exact has b hb
      · rw [List.length_cons]
        omega
      · simp only [run, hu, Option.bind_some, hrun]

/-- A measure that the steps of one thread lower and no step of another raises:
in every run it gets where it is going in no more steps of its own than it had
left, whatever the others do meanwhile. -/
theorem runIf_descends {ok : σ → α → Prop} [∀ s a, Decidable (ok s a)] (size : σ → ℕ)
    (own : α → Bool) (hpos : ∀ s, P s → 0 < size s)
    (hs : ∀ s a t, P s → ok s a → M.step s a = some t →
      Q t ∨ P t ∧ size t + (if own a then 1 else 0) ≤ size s)
    {s t : σ} (h : P s) {as : List α} (hrun : M.runIf ok s as = some t)
    (hown : size s ≤ as.countP own) :
    ∃ bs cs u, as = bs ++ cs ∧ M.runIf ok s bs = some u ∧ Q u ∧ bs.countP own ≤ size s := by
  induction as generalizing s with
  | nil => exact absurd hown (Nat.not_le_of_lt (hpos s h))
  | cons a as ih =>
    rw [runIf] at hrun
    split at hrun
    · rename_i hok
      obtain ⟨u, hu, hrest⟩ := Option.bind_eq_some_iff.mp hrun
      have hcount : (a :: as).countP own = as.countP own + if own a then 1 else 0 :=
        List.countP_cons
      rcases hs s a u h hok hu with hQ | ⟨hP, hle⟩
      · refine ⟨[a], as, u, rfl, ?_, hQ, ?_⟩
        · simp only [runIf, if_pos hok, hu, Option.bind_some]
        · have hsize := hpos s h
          rw [List.countP_singleton]
          split <;> omega
      · obtain ⟨bs, cs, v, rfl, hbs, hQ, hle'⟩ := ih hP hrest (by omega)
        refine ⟨a :: bs, cs, v, rfl, ?_, hQ, ?_⟩
        · simp only [runIf, if_pos hok, hu, Option.bind_some, hbs]
        · rw [List.countP_cons]
          omega
    · cases hrun

end LivioArk.Library.Transition.Machine
