import Mathlib.Data.List.Basic
import Mathlib.Data.Option.Basic

namespace LivioArk.Library.Transition

universe u v w

/-- A labelled machine. All nondeterminism lives in the action, so a step is
a partial function and a schedule can be evaluated. -/
structure Machine (σ : Type u) (α : Type v) where
  init : σ → Prop
  step : σ → α → Option σ

namespace Machine

variable {σ : Type u} {α : Type v} {τ : Type w} (M : Machine σ α)

def run (s : σ) : List α → Option σ
  | [] => some s
  | a :: as => (M.step s a).bind fun t ↦ run t as

inductive Reaches (ok : σ → α → Prop) : σ → Prop
  | start {s : σ} : M.init s → Reaches ok s
  | next {s t : σ} {a : α} : Reaches ok s → ok s a → M.step s a = some t → Reaches ok t

abbrev Reachable (s : σ) : Prop := M.Reaches (fun _ _ ↦ True) s

variable {M} {ok : σ → α → Prop}

theorem run_append (s : σ) (as bs : List α) :
    M.run s (as ++ bs) = (M.run s as).bind fun t ↦ M.run t bs := by
  induction as generalizing s with
  | nil => rfl
  | cons a as ih =>
    simp only [List.cons_append, run]
    cases M.step s a with
    | none => rfl
    | some t => exact ih t

theorem run_snoc {s t u : σ} {as : List α} {a : α} (h : M.run s as = some t)
    (ha : M.step t a = some u) : M.run s (as ++ [a]) = some u := by
  rw [run_append, h]
  simp only [Option.bind_some, run, ha]

theorem Reaches.run_next {s t : σ} (hs : M.Reachable s) (as : List α)
    (h : M.run s as = some t) : M.Reachable t := by
  induction as generalizing s with
  | nil =>
    simp only [run, Option.some.injEq] at h
    exact h ▸ hs
  | cons a as ih =>
    simp only [run, Option.bind_eq_some_iff] at h
    obtain ⟨u, hu, ht⟩ := h
    exact ih (.next hs trivial hu) ht

theorem Reaches.of_run {s t : σ} (hs : M.init s) (as : List α)
    (h : M.run s as = some t) : M.Reachable t :=
  Reaches.run_next (.start hs) as h

theorem Reaches.mono {ok' : σ → α → Prop} (hle : ∀ s a, ok s a → ok' s a) {s : σ}
    (h : M.Reaches ok s) : M.Reaches ok' s := by
  induction h with
  | start hs => exact .start hs
  | next _ ha ht ih => exact .next ih (hle _ _ ha) ht

theorem Reaches.reachable {s : σ} (h : M.Reaches ok s) : M.Reachable s :=
  h.mono fun _ _ _ ↦ trivial

/-- The induction rule for invariants: a step may use that its source is
reached and satisfies the invariant. -/
theorem Reaches.invariant {P : σ → Prop} (h0 : ∀ s, M.init s → P s)
    (hs : ∀ s a t, M.Reaches ok s → P s → ok s a → M.step s a = some t → P t)
    {s : σ} (h : M.Reaches ok s) : P s := by
  induction h with
  | start hs => exact h0 _ hs
  | next hr ha ht ih => exact hs _ _ _ hr ih ha ht

/-- A quantity that no step decreases bounds every earlier value, so a bound
on the last state is available at each step of the run. -/
theorem Reaches.invariant_below {P : σ → Prop} (size : σ → ℕ) (B : ℕ)
    (hmono : ∀ s a t, M.step s a = some t → size s ≤ size t)
    (h0 : ∀ s, M.init s → P s)
    (hs : ∀ s a t, M.Reaches ok s → P s → ok s a → M.step s a = some t → size t < B → P t)
    {s : σ} (h : M.Reaches ok s) (hB : size s < B) : P s := by
  induction h with
  | start hs => exact h0 _ hs
  | next hr ha ht ih =>
    exact hs _ _ _ hr (ih (Nat.lt_of_le_of_lt (hmono _ _ _ ht) hB)) ha ht hB

def runIf (M : Machine σ α) (ok : σ → α → Prop) [∀ s a, Decidable (ok s a)] (s : σ) :
    List α → Option σ
  | [] => some s
  | a :: as => if ok s a then (M.step s a).bind fun t ↦ runIf M ok t as else none

theorem Reaches.of_runIf [∀ s a, Decidable (ok s a)] {s t : σ} (hs : M.Reaches ok s)
    (as : List α) (h : M.runIf ok s as = some t) : M.Reaches ok t := by
  induction as generalizing s with
  | nil =>
    simp only [runIf, Option.some.injEq] at h
    exact h ▸ hs
  | cons a as ih =>
    simp only [runIf] at h
    split at h
    · rename_i ha
      obtain ⟨u, hu, ht⟩ := Option.bind_eq_some_iff.mp h
      exact ih (.next hs ha hu) ht
    · cases h

theorem run_invariant {P : σ → Prop} (hs : ∀ s a t, P s → M.step s a = some t → P t)
    {s t : σ} (h : P s) (as : List α) (hrun : M.run s as = some t) : P t := by
  induction as generalizing s with
  | nil =>
    simp only [run, Option.some.injEq] at hrun
    exact hrun ▸ h
  | cons a as ih =>
    simp only [run, Option.bind_eq_some_iff] at hrun
    obtain ⟨u, hu, ht⟩ := hrun
    exact ih (hs _ _ _ h hu) ht

/-- Two machines that answer every action alike do so along every schedule. -/
theorem run_rel {A : Machine τ α} {R : σ → τ → Prop}
    (hs : ∀ s x a, R s x → Option.Rel R (M.step s a) (A.step x a)) {s : σ} {x : τ} (h : R s x)
    (as : List α) : Option.Rel R (M.run s as) (A.run x as) := by
  induction as generalizing s x with
  | nil => exact .some h
  | cons a as ih =>
    have hstep := hs s x a h
    simp only [run]
    generalize M.step s a = s', A.step x a = x' at hstep ⊢
    cases hstep with
    | none => exact .none
    | some h' => exact ih h'

section Simulation

variable {β : Type*} {A : Machine τ β} {f : σ → τ} {ok' : τ → β → Prop}

/-- Each step of the source is matched by steps of the target that satisfy
`ok'`. No step at all is allowed: most steps of a detailed machine are silent. -/
inductive Steps (A : Machine τ β) (ok' : τ → β → Prop) : τ → τ → Prop
  | refl (x : τ) : Steps A ok' x x
  | cons {x y z : τ} {b : β} : ok' x b → A.step x b = some y → Steps A ok' y z → Steps A ok' x z

theorem Steps.one {x y : τ} {b : β} (hb : ok' x b) (h : A.step x b = some y) :
    Steps A ok' x y := .cons hb h (.refl y)

theorem Steps.reaches {x y : τ} (h : Steps A ok' x y) (hx : A.Reaches ok' x) :
    A.Reaches ok' y := by
  induction h with
  | refl => exact hx
  | cons hb hs _ ih => exact ih (.next hx hb hs)

theorem Steps.invariant {P : τ → Prop}
    (hs : ∀ x b y, A.Reaches ok' x → P x → ok' x b → A.step x b = some y → P y)
    {x y : τ} (h : Steps A ok' x y) (hx : A.Reaches ok' x) (hP : P x) : P y := by
  induction h with
  | refl => exact hP
  | cons hb ht _ ih => exact ih (.next hx hb ht) (hs _ _ _ hx hP hb ht)

/-- Forward simulation along a relation. The matching may use everything
already known about the two reached states. -/
theorem Reaches.simulate_rel {R : σ → τ → Prop}
    (h0 : ∀ s, M.init s → ∃ x, A.init x ∧ R s x)
    (hs : ∀ s a t x, M.Reaches ok s → A.Reaches ok' x → R s x → ok s a → M.step s a = some t →
      ∃ y, Steps A ok' x y ∧ R t y)
    {s : σ} (h : M.Reaches ok s) : ∃ x, A.Reaches ok' x ∧ R s x := by
  induction h with
  | start hs =>
    obtain ⟨x, hx, hR⟩ := h0 _ hs
    exact ⟨x, .start hx, hR⟩
  | next hr ha ht ih =>
    obtain ⟨x, hx, hR⟩ := ih
    obtain ⟨y, hy, hR'⟩ := hs _ _ _ _ hr hx hR ha ht
    exact ⟨y, hy.reaches hx, hR'⟩

theorem Reaches.simulate (h0 : ∀ s, M.init s → A.init (f s))
    (hs : ∀ s a t, M.Reaches ok s → A.Reaches ok' (f s) → ok s a → M.step s a = some t →
      Steps A ok' (f s) (f t))
    {s : σ} (h : M.Reaches ok s) : A.Reaches ok' (f s) := by
  have hR : ∃ x, A.Reaches ok' x ∧ x = f s := by
    refine simulate_rel (R := fun s x ↦ x = f s) (fun s hs ↦ ⟨_, h0 s hs, rfl⟩) ?_ h
    rintro s a t x hr hx rfl ha ht
    exact ⟨_, hs s a t hr hx ha ht, rfl⟩
  obtain ⟨x, hx, rfl⟩ := hR
  exact hx

end Simulation

end Machine

end LivioArk.Library.Transition
