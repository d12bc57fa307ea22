import LivioArk.Library.Transition

namespace LivioArk.Library.Transition

variable {σ α θ : Type*}

def Machine.pass (M : Machine σ α) (s : σ) : Option α → Option σ
  | none => some s
  | some a => M.step s a

structure Behaviour (M : Machine σ α) where
  state : ℕ → σ
  action : ℕ → Option α
  init : M.init (state 0)
  next : ∀ n, M.pass (state n) (action n) = some (state (n + 1))

namespace Behaviour

variable {M : Machine σ α} (b : Behaviour M)

theorem next_cases (n : ℕ) : b.action n = none ∧ b.state (n + 1) = b.state n ∨
    ∃ a, b.action n = some a ∧ M.step (b.state n) a = some (b.state (n + 1)) := by
  have hnext := b.next n
  cases ha : b.action n with
  | none =>
    rw [ha] at hnext
    exact .inl ⟨rfl, (Option.some.inj hnext).symm⟩
  | some a =>
    rw [ha] at hnext
    exact .inr ⟨a, rfl, hnext⟩

theorem reachable (n : ℕ) : M.Reachable (b.state n) := by
  induction n with
  | zero => exact .start b.init
  | succ n ih =>
    rcases b.next_cases n with ⟨-, he⟩ | ⟨a, -, ha⟩
    · rw [he]
      exact ih
    · exact .next ih trivial ha

theorem stable {P : σ → Prop} (hs : ∀ s a t, M.Reachable s → P s → M.step s a = some t → P t)
    {n : ℕ} (h : P (b.state n)) : ∀ m ≥ n, P (b.state m) := by
  intro m hm
  obtain ⟨d, rfl⟩ := Nat.exists_eq_add_of_le hm
  clear hm
  induction d with
  | zero => exact h
  | succ d ih =>
    rw [← Nat.add_assoc]
    rcases b.next_cases (n + d) with ⟨-, he⟩ | ⟨a, -, ha⟩
    · rw [he]
      exact ih
    · exact hs _ _ _ (b.reachable (n + d)) ih ha

/-- Weak fairness: a thread that can always go on does. `own` are its actions. -/
def Fair (own : α → Prop) : Prop :=
  ∀ n, ∃ m ≥ n, (∃ a, b.action m = some a ∧ own a) ∨ ∀ a, own a → M.step (b.state m) a = none

variable {P Q : σ → Prop} (own : θ → α → Prop) (helpful : σ → θ) (size : σ → ℕ)

/-- Until a step of the helpful thread nothing is lost. -/
theorem waits (hstep : ∀ s a t, P s → P t → ¬ Q s → M.step s a = some t →
      Q t ∨ size t < size s ∨ size t = size s ∧ helpful t = helpful s ∧ ¬ own (helpful s) a)
    {n : ℕ} (hP : ∀ m ≥ n, P (b.state m)) (d : ℕ) :
    (∃ m ≥ n, Q (b.state m) ∨ size (b.state m) < size (b.state n)) ∨
      size (b.state (n + d)) = size (b.state n) ∧
        helpful (b.state (n + d)) = helpful (b.state n) := by
  induction d with
  | zero => exact .inr ⟨rfl, rfl⟩
  | succ d ih =>
    rcases ih with hdone | ⟨hsize, hhelpful⟩
    · exact .inl hdone
    · by_cases hQ : Q (b.state (n + d))
      · exact .inl ⟨n + d, Nat.le_add_right n d, .inl hQ⟩
      · rcases b.next_cases (n + d) with ⟨-, he⟩ | ⟨a, -, ha⟩
        · refine .inr ?_
          rw [← Nat.add_assoc, he]
          exact ⟨hsize, hhelpful⟩
        · have hle : n ≤ n + d + 1 := by omega
          rcases hstep _ a _ (hP _ (Nat.le_add_right n d)) (hP _ hle) hQ ha with
            hQ' | hless | ⟨hsize', hhelpful', -⟩
          · exact .inl ⟨n + d + 1, hle, .inl hQ'⟩
          · exact .inl ⟨n + d + 1, hle, .inr (hsize ▸ hless)⟩
          · exact .inr ⟨hsize'.trans hsize, hhelpful'.trans hhelpful⟩

/-- A measure that no step raises, and in each state one thread that can go on and
lowers it when it does: then every fair run comes to where no such thread is
needed any more. -/
theorem eventually (hfair : ∀ s, P s → ¬ Q s → b.Fair (own (helpful s)))
    (henabled : ∀ s, P s → ¬ Q s → ∃ a t, own (helpful s) a ∧ M.step s a = some t)
    (hstep : ∀ s a t, P s → P t → ¬ Q s → M.step s a = some t →
      Q t ∨ size t < size s ∨ size t = size s ∧ helpful t = helpful s ∧ ¬ own (helpful s) a)
    {n : ℕ} (hP : ∀ m ≥ n, P (b.state m)) : ∃ m ≥ n, Q (b.state m) := by
  induction hk : size (b.state n) using Nat.strongRecOn generalizing n with
  | _ k ih =>
    subst hk
    have hless : (∃ m ≥ n, Q (b.state m) ∨ size (b.state m) < size (b.state n)) →
        ∃ m ≥ n, Q (b.state m) := by
      rintro ⟨m, hm, hQ | hlt⟩
      · exact ⟨m, hm, hQ⟩
      · obtain ⟨l, hl, hQ⟩ := ih _ hlt (fun l hl ↦ hP l (Nat.le_trans hm hl)) rfl
        exact ⟨l, Nat.le_trans hm hl, hQ⟩
    by_cases hdone : Q (b.state n)
    · exact ⟨n, Nat.le_refl n, hdone⟩
    obtain ⟨m, hm, hturn⟩ := hfair _ (hP n (Nat.le_refl n)) hdone n
    obtain ⟨d, rfl⟩ := Nat.exists_eq_add_of_le hm
    rcases b.waits own helpful size hstep hP d with hdone | ⟨hsize, hhelpful⟩
    · exact hless hdone
    · by_cases hQ : Q (b.state (n + d))
      · exact ⟨n + d, hm, hQ⟩
      · rcases hturn with ⟨a, ha, hown⟩ | hnone
        · rcases b.next_cases (n + d) with ⟨he, -⟩ | ⟨a', ha', hnext⟩
          · rw [ha] at he
            cases he
          · obtain rfl : a = a' := Option.some.inj (ha.symm.trans ha')
            rw [← hhelpful] at hown
            rcases hstep _ a _ (hP _ hm) (hP _ (Nat.le_succ_of_le hm)) hQ hnext with
              hQ' | hlt | ⟨-, -, hnot⟩
            · exact hless ⟨n + d + 1, Nat.le_succ_of_le hm, .inl hQ'⟩
            · exact hless ⟨n + d + 1, Nat.le_succ_of_le hm, .inr (hsize ▸ hlt)⟩
            · exact absurd hown hnot
        · obtain ⟨a, t, hown, ht⟩ := henabled _ (hP _ hm) hQ
          rw [hhelpful] at hown
          rw [hnone a hown] at ht
          cases ht

end Behaviour

section Runs

variable {M : Machine σ α} {s t : σ} {as : List α}

def Machine.trail (M : Machine σ α) (s : σ) : List α → ℕ → σ
  | [], _ => s
  | _ :: _, 0 => s
  | a :: as, n + 1 => ((M.step s a).map fun t ↦ M.trail t as n).getD s

theorem Machine.trail_zero (s : σ) (as : List α) : M.trail s as 0 = s := by
  cases as <;> rfl

theorem Machine.trail_next (h : M.run s as = some t) (n : ℕ) :
    M.pass (M.trail s as n) as[n]? = some (M.trail s as (n + 1)) := by
  induction as generalizing s n with
  | nil => rfl
  | cons a as ih =>
    obtain ⟨u, hu, hrun⟩ := Option.bind_eq_some_iff.mp h
    cases n with
    | zero =>
      simp only [Machine.trail, hu, Machine.trail_zero, Option.map_some, Option.getD_some]
      exact hu
    | succ n =>
      simp only [Machine.trail, hu, Option.map_some, Option.getD_some, List.getElem?_cons_succ]
      exact ih hrun n

theorem Machine.trail_end (h : M.run s as = some t) {n : ℕ} (hn : as.length ≤ n) :
    M.trail s as n = t := by
  induction as generalizing s n with
  | nil => exact Option.some.inj h
  | cons a as ih =>
    obtain ⟨u, hu, hrun⟩ := Option.bind_eq_some_iff.mp h
    cases n with
    | zero => cases hn
    | succ n =>
      simp only [Machine.trail, hu, Option.map_some, Option.getD_some]
      exact ih hrun (Nat.le_of_succ_le_succ hn)

theorem Machine.trail_append (h : M.run s as = some t) (bs : List α) :
    M.trail s (as ++ bs) as.length = t := by
  induction as generalizing s with
  | nil =>
    rw [← Option.some.inj h]
    exact Machine.trail_zero s bs
  | cons a as ih =>
    obtain ⟨u, hu, hrun⟩ := Option.bind_eq_some_iff.mp h
    simp only [List.cons_append, List.length_cons, Machine.trail, hu, Option.map_some,
      Option.getD_some]
    exact ih hrun

def Behaviour.ofRun (hs : M.init s) (h : M.run s as = some t) : Behaviour M where
  state := M.trail s as
  action n := as[n]?
  init := (Machine.trail_zero (M := M) s as).symm ▸ hs
  next := Machine.trail_next h

theorem Behaviour.fair_ofRun (hs : M.init s) (h : M.run s as = some t) {own : α → Prop}
    (hend : ∀ a, own a → M.step t a = none) : (Behaviour.ofRun hs h).Fair own := by
  intro n
  refine ⟨n + as.length, Nat.le_add_right _ _, .inr fun a ha ↦ ?_⟩
  have he : (Behaviour.ofRun hs h).state (n + as.length) = t :=
    Machine.trail_end h (Nat.le_add_left _ _)
  rw [he]
  exact hend a ha

end Runs

section Lassos

variable {M : Machine σ α} {s t : σ} {as bs : List α}

/-- Where the `n`-th step is in a run of `k` steps and a round of `l` that is
repeated for ever. -/
def round (k l n : ℕ) : ℕ := if n < k then n else k + (n - k) % l

theorem round_next {k l : ℕ} (hl : 0 < l) (n : ℕ) :
    round k l n + 1 < k + l ∧ round k l (n + 1) = round k l n + 1 ∨
      round k l n + 1 = k + l ∧ round k l (n + 1) = k := by
  rcases Nat.lt_or_ge n k with hn | hn
  · rcases Nat.lt_or_ge (n + 1) k with hn' | hn'
    · rw [round, round, if_pos hn, if_pos hn']
      exact .inl ⟨by omega, rfl⟩
    · have he : k = n + 1 := by omega
      subst he
      rw [round, round, if_pos hn, if_neg (Nat.lt_irrefl _), Nat.sub_self, Nat.zero_mod]
      exact .inl ⟨by omega, rfl⟩
  · have hnext : n + 1 - k = n - k + 1 := by omega
    have hmod := Nat.mod_lt (n - k) hl
    rw [round, round, if_neg (Nat.not_lt.mpr hn), if_neg (by omega), hnext, Nat.add_mod]
    rcases Nat.lt_or_ge ((n - k) % l + 1) l with hlt | hge
    · refine .inl ⟨by omega, ?_⟩
      rw [← Nat.add_mod, ← Nat.mod_add_mod, Nat.mod_eq_of_lt hlt]
      rfl
    · have hend : (n - k) % l + 1 = l := by omega
      refine .inr ⟨by omega, ?_⟩
      rw [← Nat.add_mod, ← Nat.mod_add_mod, hend, Nat.mod_self]
      rfl

theorem round_again (k l n i : ℕ) (hi : i < l) : ∃ m ≥ n, round k l m = k + i := by
  refine ⟨k + (l * n + i), ?_, ?_⟩
  · have hle : n ≤ l * n := Nat.le_mul_of_pos_left n (by omega)
    omega
  · rw [round, if_neg (by omega), Nat.add_sub_cancel_left, Nat.mul_add_mod, Nat.mod_eq_of_lt hi]

/-- A run that comes to a round of steps which lead back to where it begins. -/
def Behaviour.ofLasso (hs : M.init s) (h : M.run s as = some t) (hround : M.run t bs = some t)
    (hbs : 0 < bs.length) : Behaviour M where
  state n := M.trail s (as ++ bs) (round as.length bs.length n)
  action n := (as ++ bs)[round as.length bs.length n]?
  init := by
    have hzero : round as.length bs.length 0 = 0 := by
      rw [round]
      split
      · rfl
      · rw [Nat.zero_sub, Nat.zero_mod]
        omega
    rw [hzero, Machine.trail_zero]
    exact hs
  next n := by
    have hrun : M.run s (as ++ bs) = some t := by
      rw [Machine.run_append, h]
      exact hround
    rw [Machine.trail_next hrun]
    rcases round_next (k := as.length) hbs n with ⟨-, he⟩ | ⟨hend, hback⟩
    · rw [he]
    · rw [hend, hback, Machine.trail_append h, Machine.trail_end hrun]
      exact Nat.le_of_eq List.length_append

/-- It is fair to those who have a step in the round and to those who cannot go on
where it begins. -/
theorem Behaviour.fair_ofLasso (hs : M.init s) (h : M.run s as = some t)
    (hround : M.run t bs = some t) (hbs : 0 < bs.length) {own : α → Prop}
    (hown : (∃ a ∈ bs, own a) ∨ ∀ a, own a → M.step t a = none) :
    (Behaviour.ofLasso hs h hround hbs).Fair own := by
  intro n
  rcases hown with ⟨a, ha, hown⟩ | hidle
  · obtain ⟨i, hi, rfl⟩ := List.getElem_of_mem ha
    obtain ⟨m, hm, he⟩ := round_again as.length bs.length n i hi
    refine ⟨m, hm, .inl ⟨_, ?_, hown⟩⟩
    have hat : (as ++ bs)[as.length + i]? = some bs[i] := by
      rw [List.getElem?_append_right (Nat.le_add_right _ _), Nat.add_sub_cancel_left]
      exact List.getElem?_eq_getElem hi
    exact (congrArg _ he).trans hat
  · obtain ⟨m, hm, he⟩ := round_again as.length bs.length n 0 hbs
    refine ⟨m, hm, .inr fun a ha ↦ ?_⟩
    have hat : (Behaviour.ofLasso hs h hround hbs).state m = t :=
      (congrArg _ he).trans (Machine.trail_append h bs)
    rw [hat]
    exact hidle a ha

theorem Behaviour.mem_of_ofLasso (hs : M.init s) (h : M.run s as = some t)
    (hround : M.run t bs = some t) (hbs : 0 < bs.length) {n : ℕ} {a : α}
    (ha : (Behaviour.ofLasso hs h hround hbs).action n = some a) : a ∈ as ++ bs :=
  List.mem_of_getElem? ha

end Lassos

end LivioArk.Library.Transition
