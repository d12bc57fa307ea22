import Mathlib.Data.List.Basic
import Mathlib.Data.List.Nodup
import Mathlib.Data.List.Sublists

namespace LivioArk.Library.SerialTrace

variable {μ : Type}

inductive Mark (μ : Type)
  | begin (m : μ)
  | finish (m : μ)
  deriving DecidableEq

def spans : List μ → List (Mark μ)
  | [] => []
  | m :: l => .begin m :: .finish m :: spans l

inductive Hand (μ : Type)
  | free
  | holding (m : μ)
  | running (m : μ)

def Hand.jobs : Hand μ → List μ
  | .free => []
  | .holding m | .running m => [m]

def Hand.opened : Hand μ → List (Mark μ)
  | .running m => [.begin m]
  | .free | .holding _ => []

/-- The server has worked through its input from the front, up to the job in
its hand. -/
def Serves (input : List μ) (hand : Hand μ) (trace : List (Mark μ)) : Prop :=
  ∃ done, input = done ++ hand.jobs ∧ trace = spans done ++ hand.opened

variable {input : List μ} {trace : List (Mark μ)} {m : μ}

theorem spans_append (l l' : List μ) : spans (l ++ l') = spans l ++ spans l' := by
  induction l with
  | nil => rfl
  | cons m l ih => simp only [List.cons_append, spans, ih]

theorem mem_spans_begin {l : List μ} : .begin m ∈ spans l ↔ m ∈ l := by
  induction l with
  | nil => simp [spans]
  | cons m' l ih => simp [spans, ih]

theorem mem_spans_finish {l : List μ} : .finish m ∈ spans l ↔ m ∈ l := by
  induction l with
  | nil => simp [spans]
  | cons m' l ih => simp [spans, ih]

theorem count_spans_begin [DecidableEq μ] (l : List μ) (m : μ) :
    (spans l).count (.begin m) = l.count m := by
  induction l with
  | nil => rfl
  | cons m' l ih => simp [spans, List.count_cons, ih]

theorem count_spans_finish [DecidableEq μ] (l : List μ) (m : μ) :
    (spans l).count (.finish m) = l.count m := by
  induction l with
  | nil => rfl
  | cons m' l ih => simp [spans, List.count_cons, ih]

namespace Serves

theorem start : Serves ([] : List μ) .free [] := ⟨[], rfl, rfl⟩

theorem take (h : Serves input .free trace) (m : μ) :
    Serves (input ++ [m]) (.holding m) trace := by
  obtain ⟨done, rfl, rfl⟩ := h
  exact ⟨done, by simp [Hand.jobs], rfl⟩

theorem begin (h : Serves input (.holding m) trace) :
    Serves input (.running m) (trace ++ [.begin m]) := by
  obtain ⟨done, rfl, rfl⟩ := h
  exact ⟨done, rfl, by simp [Hand.opened]⟩

theorem finish (h : Serves input (.running m) trace) :
    Serves input .free (trace ++ [.finish m]) := by
  obtain ⟨done, rfl, rfl⟩ := h
  exact ⟨done ++ [m], by simp [Hand.jobs], by simp [Hand.opened, spans_append, spans]⟩

theorem drained (h : Serves input .free trace) : trace = spans input := by
  obtain ⟨done, rfl, rfl⟩ := h
  simp [Hand.jobs, Hand.opened]

theorem nothing {hand : Hand μ} (h : Serves [] hand trace) : trace = [] := by
  obtain ⟨done, hinput, rfl⟩ := h
  obtain ⟨rfl, hjobs⟩ := List.append_eq_nil_iff.mp hinput.symm
  cases hand with
  | free => rfl
  | _ => cases hjobs

theorem mem_input {hand : Hand μ} (h : Serves input hand trace) (hm : .begin m ∈ trace) :
    m ∈ input := by
  obtain ⟨done, rfl, rfl⟩ := h
  rcases List.mem_append.mp hm with hm | hm
  · exact List.mem_append_left _ (mem_spans_begin.mp hm)
  · cases hand with
    | running m' =>
      cases List.mem_singleton.mp hm
      exact List.mem_append_right _ List.mem_cons_self
    | _ => cases hm

end Serves

/-- A prefix of a trace that ends where a job begins has finished all before it. -/
theorem spans_before {done : List μ} {hand : Hand μ} {lhs rhs : List (Mark μ)}
    (h : spans done ++ hand.opened = lhs ++ .begin m :: rhs) :
    ∃ earlier later, lhs = spans earlier ∧ done ++ hand.jobs = earlier ++ m :: later := by
  induction done generalizing lhs with
  | nil =>
    cases hand with
    | running m' =>
      cases lhs with
      | nil =>
        cases h
        exact ⟨[], [], rfl, rfl⟩
      | cons x lhs =>
        simp [spans, Hand.opened] at h
    | _ => simp [spans, Hand.opened] at h
  | cons m' done ih =>
    cases lhs with
    | nil =>
      simp only [spans, List.cons_append, List.nil_append, List.cons.injEq, Mark.begin.injEq] at h
      obtain ⟨rfl, -⟩ := h
      exact ⟨[], done ++ hand.jobs, rfl, rfl⟩
    | cons x lhs =>
      cases lhs with
      | nil =>
        simp [spans] at h
      | cons y lhs =>
        simp only [spans, List.cons_append, List.cons.injEq] at h
        obtain ⟨rfl, rfl, h⟩ := h
        obtain ⟨earlier, later, rfl, hdone⟩ := ih h
        exact ⟨m' :: earlier, later, rfl, by simp [hdone]⟩

/-- Two jobs that a part of the input has in common with all of it stand there
in the same order. -/
theorem pair_sublist {part : List μ} {a b : μ} (hs : part.Sublist input) (hnodup : input.Nodup)
    (ha : a ∈ part) (hb : b ∈ part) (hab : List.Sublist [a, b] input) :
    List.Sublist [a, b] part := by
  induction hs with
  | slnil => cases ha
  | @cons part input x hs ih =>
    obtain ⟨hx, hnodup⟩ := List.nodup_cons.mp hnodup
    cases hab with
    | cons _ hab => exact ih hnodup ha hb hab
    | cons_cons _ hab => exact absurd (hs.subset ha) hx
  | @cons_cons part input x hs ih =>
    obtain ⟨hx, hnodup⟩ := List.nodup_cons.mp hnodup
    have mem_of : ∀ {c}, c ∈ x :: part → c ∈ input → c ∈ part := by
      intro c hc hin
      rcases List.mem_cons.mp hc with rfl | hc
      · exact absurd hin hx
      · exact hc
    cases hab with
    | cons _ hab =>
      have ha' := mem_of ha (hab.subset (by simp))
      have hb' := mem_of hb (hab.subset (by simp))
      exact .cons _ (ih hnodup ha' hb' hab)
    | cons_cons _ hab =>
      have hb' := mem_of hb (hab.subset (by simp))
      exact .cons_cons _ (List.singleton_sublist.mpr hb')

/-- A server that has begun a job has finished the jobs that came before it. -/
theorem Serves.before {hand : Hand μ} {lhs rhs : List (Mark μ)} {a b : μ}
    (h : Serves input hand trace) (hnodup : input.Nodup) (hab : List.Sublist [a, b] input)
    (htrace : trace = lhs ++ .begin b :: rhs) : .finish a ∈ lhs := by
  obtain ⟨done, rfl, rfl⟩ := h
  obtain ⟨earlier, later, rfl, hdone⟩ := spans_before htrace
  rw [hdone] at hab hnodup
  apply mem_spans_finish.mpr
  obtain ⟨l₁, l₂, hl, h₁, h₂⟩ := List.sublist_append_iff.mp hab
  have hb : b ∉ earlier := fun hb ↦
    List.disjoint_of_nodup_append hnodup hb List.mem_cons_self
  cases l₁ with
  | nil =>
    -- Both would come at or after the only occurrence of `b`.
    simp only [List.nil_append] at hl
    subst hl
    have hnb := (List.nodup_append.mp hnodup).2.1
    cases h₂ with
    | cons _ h₂ => exact absurd (h₂.subset (by simp)) (List.nodup_cons.mp hnb).1
    | cons_cons _ h₂ => exact absurd (h₂.subset (by simp)) (List.nodup_cons.mp hnb).1
  | cons x l₁ =>
    simp only [List.cons_append, List.cons.injEq] at hl
    obtain ⟨rfl, -⟩ := hl
    exact h₁.subset List.mem_cons_self

end LivioArk.Library.SerialTrace
