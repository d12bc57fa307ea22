import Mathlib.Data.List.Basic

namespace LivioArk.Library.Separated

variable {α : Type*} {x : α} {l s : List α}

/-- A list is one word without the separator, or such a word, the separator
and a list. -/
theorem separated_induction [DecidableEq α] {P : List α → Prop} (x : α)
    (word : ∀ l, x ∉ l → P l) (append : ∀ l s, x ∉ l → P s → P (l ++ x :: s)) (s : List α) :
    P s := by
  by_cases hx : x ∈ s
  · obtain ⟨l, t, hs, hl⟩ := List.eq_append_cons_of_mem hx
    rw [hs]
    exact append l t hl (separated_induction x word append t)
  · exact word s hx
termination_by s.length
decreasing_by
  rw [hs, List.length_append, List.length_cons]
  omega

/-- A word ends in the separator only if it contains it. -/
theorem getLast?_ne_of_not_mem (hl : x ∉ l) : l.getLast? ≠ some x :=
  fun h ↦ hl (List.mem_of_getLast? h)

theorem getLast?_append_cons (hs : s ≠ []) : (l ++ x :: s).getLast? = s.getLast? := by
  rw [List.getLast?_append_of_ne_nil _ (by simp), List.getLast?_cons_of_ne_nil hs]

section Words

variable [DecidableEq α]

theorem not_mem_of_mem_splitOn (s : List α) : ∀ l ∈ s.splitOn x, x ∉ l := by
  induction s using separated_induction x with
  | word l hl =>
    rw [List.splitOn_eq_singleton hl]
    simpa using hl
  | append l s hl ih =>
    rw [List.splitOn_append_cons_self_of_not_mem hl]
    simpa [hl] using ih

theorem mem_of_mem_splitOn (s : List α) : ∀ l ∈ s.splitOn x, ∀ a ∈ l, a ∈ s := by
  induction s using separated_induction x with
  | word l hl =>
    rw [List.splitOn_eq_singleton hl]
    simp
  | append l s hl ih =>
    rw [List.splitOn_append_cons_self_of_not_mem hl, List.forall_mem_cons]
    refine ⟨fun a ha ↦ List.mem_append_left _ ha, fun m hm a ha ↦ ?_⟩
    exact List.mem_append_right l (List.mem_cons_of_mem x (ih m hm a ha))

end Words

end LivioArk.Library.Separated
