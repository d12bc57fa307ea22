import LivioArk.Library.Transition
import Mathlib.Data.List.Induction

namespace LivioArk.Library.Transition.Machine

variable {σ α : Type*} {M : Machine σ α} {P Q : σ → Prop} {s t u : σ} {as bs : List α} {a : α}

/-- The run goes through a state with `P`, its ends included. What a call has
seen is told by the states since it began, also where only a later step says
which of them it was. -/
def Passes (M : Machine σ α) (s : σ) (as : List α) (P : σ → Prop) : Prop :=
  ∃ bs cs u, as = bs ++ cs ∧ M.run s bs = some u ∧ P u

theorem Passes.here (hrun : M.run s as = some t) (h : P t) : M.Passes s as P :=
  ⟨as, [], t, (List.append_nil as).symm, hrun, h⟩

theorem Passes.append (h : M.Passes s as P) (bs : List α) : M.Passes s (as ++ bs) P := by
  obtain ⟨as₁, as₂, u, rfl, hrun, hu⟩ := h
  exact ⟨as₁, as₂ ++ bs, u, List.append_assoc as₁ as₂ bs, hrun, hu⟩

theorem Passes.mono (h : M.Passes s as P) (hPQ : ∀ u, P u → Q u) : M.Passes s as Q := by
  obtain ⟨as₁, as₂, u, hsplit, hrun, hu⟩ := h
  exact ⟨as₁, as₂, u, hsplit, hrun, hPQ u hu⟩

section Checked

variable {ok : σ → α → Prop} [∀ s a, Decidable (ok s a)]

theorem runIf_snoc (h : M.runIf ok s (as ++ [a]) = some u) :
    ∃ t, M.runIf ok s as = some t ∧ ok t a ∧ M.step t a = some u := by
  induction as generalizing s with
  | nil =>
    simp only [List.nil_append, runIf] at h
    split at h
    · rename_i ha
      obtain ⟨t, ht, hu⟩ := Option.bind_eq_some_iff.mp h
      obtain rfl : t = u := Option.some.inj hu
      exact ⟨s, rfl, ha, ht⟩
    · cases h
  | cons b as ih =>
    simp only [List.cons_append, runIf] at h
    split at h
    · rename_i hb
      obtain ⟨v, hv, hrest⟩ := Option.bind_eq_some_iff.mp h
      obtain ⟨t, ht, ha, hstep⟩ := ih hrest
      refine ⟨t, ?_, ha, hstep⟩
      rw [runIf, if_pos hb, hv, Option.bind_some, ht]
    · cases h

theorem run_of_runIf (h : M.runIf ok s as = some t) : M.run s as = some t := by
  induction as generalizing s with
  | nil => exact h
  | cons a as ih =>
    rw [runIf] at h
    split at h
    · obtain ⟨u, hu, hrest⟩ := Option.bind_eq_some_iff.mp h
      rw [run, hu, Option.bind_some, ih hrest]
    · cases h

/-- The induction rule for what may speak of the steps taken so far. -/
theorem runIf_hindsight {I : List α → σ → Prop} (h0 : I [] s)
    (hs : ∀ as t a u, M.runIf ok s as = some t → I as t → ok t a → M.step t a = some u →
      I (as ++ [a]) u)
    (h : M.runIf ok s as = some t) : I as t := by
  induction as using List.reverseRecOn generalizing t with
  | nil =>
    obtain rfl : s = t := Option.some.inj h
    exact h0
  | append_singleton as a ih =>
    obtain ⟨u, hu, ha, hstep⟩ := runIf_snoc h
    exact hs as u a t hu (ih hu) ha hstep

end Checked

end LivioArk.Library.Transition.Machine
