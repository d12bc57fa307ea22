import LivioArk.Msgbus.Levels

namespace LivioArk.Msgbus.LevelSplitting

open LivioArk.Library.Separated Levels

/-- `std::string_view::find` of a character, from a position on. -/
def find (s : Str) (c : Char) (start : ℕ) : Option ℕ :=
  ((s.drop start).findIdx? (· = c)).map (start + ·)

def substr (s : Str) (pos : ℕ) (count : ℕ) : Str := (s.drop pos).take count

theorem find_bounds {s : Str} {c : Char} {start pos : ℕ} (h : find s c start = some pos) :
    start ≤ pos ∧ pos < s.length := by
  simp only [find, Option.map_eq_some_iff] at h
  obtain ⟨i, hi, rfl⟩ := h
  have hlt := (List.findIdx?_eq_some_iff_findIdx_eq.mp hi).1
  rw [List.length_drop] at hlt
  omega

def splitLoop (s : Str) (start : ℕ) (levels : List Str) : List Str :=
  if start < s.length then
    match _hpos : find s '/' start with
    | none => levels ++ [substr s start s.length]
    | some pos => splitLoop s (pos + 1) (levels ++ [substr s start (pos - start)])
  else levels
termination_by s.length - start
decreasing_by
  have hbounds := find_bounds _hpos
  omega

def splitByIndex (s : Str) : List Str := splitLoop s 0 []

section Loop

variable {s : Str} {start pos : ℕ}

theorem find_none (h : find s '/' start = none) : '/' ∉ s.drop start := by
  simp only [find, Option.map_eq_none_iff, List.findIdx?_eq_none_iff, decide_eq_false_iff_not] at h
  intro hmem
  exact h '/' hmem rfl

theorem find_some (h : find s '/' start = some pos) :
    '/' ∉ substr s start (pos - start) ∧
      s.drop start = substr s start (pos - start) ++ '/' :: s.drop (pos + 1) := by
  have hbounds := find_bounds h
  simp only [find, Option.map_eq_some_iff] at h
  obtain ⟨i, hi, rfl⟩ := h
  rw [List.findIdx?_eq_some_iff_getElem] at hi
  obtain ⟨hlt, hchar, hbefore⟩ := hi
  rw [Nat.add_sub_cancel_left]
  constructor
  · intro hmem
    obtain ⟨j, hj, hget⟩ := List.mem_take_iff_getElem.mp hmem
    have hji : j < i := by omega
    have hne := hbefore j hji
    simp [hget] at hne
  · have hslash : (s.drop start)[i] = '/' := by simpa using hchar
    have hcut := List.take_append_drop i (s.drop start)
    rw [List.drop_eq_getElem_cons hlt, hslash, List.drop_drop] at hcut
    exact hcut.symm

/-- What the loop still has to do is to split the rest of the string. -/
theorem splitLoop_eq (s : Str) (start : ℕ) (levels : List Str) :
    splitLoop s start levels = levels ++ splitLevels (s.drop start) := by
  induction start, levels using splitLoop.induct s with
  | case1 start levels hlt hpos =>
    rw [splitLoop, if_pos hlt]
    split
    · have hne : s.drop start ≠ [] := by simpa using hlt
      have hall : substr s start s.length = s.drop start :=
        List.take_of_length_le (by rw [List.length_drop]; omega)
      rw [splitLevels_word (find_none hpos) hne, hall]
    · rename_i pos hsome
      rw [hpos] at hsome
      cases hsome
  | case2 start levels hlt pos hpos ih =>
    rw [splitLoop, if_pos hlt]
    split
    · rename_i hnone
      rw [hpos] at hnone
      cases hnone
    · rename_i pos' hsome
      obtain rfl : pos = pos' := Option.some.inj (hpos.symm.trans hsome)
      obtain ⟨hword, hrest⟩ := find_some hpos
      rw [ih, hrest, splitLevels_append hword, List.append_assoc]
      rfl
  | case3 start levels hge =>
    rw [splitLoop, if_neg hge, List.drop_eq_nil_of_le (by omega)]
    simp [splitLevels]

theorem splitByIndex_eq (s : Str) : splitByIndex s = splitLevels s := by
  rw [splitByIndex, splitLoop_eq, List.drop_zero, List.nil_append]

end Loop

section Segments

variable {s t : Str}

theorem length_segments (s : Str) : (segments s).length = s.count '/' + 1 := by
  induction s using separated_induction '/' with
  | word l hl => rw [segments_word hl, List.count_eq_zero_of_not_mem hl, List.length_singleton]
  | append l s hl ih =>
    rw [segments_append hl, List.length_cons, ih, List.count_append,
      List.count_eq_zero_of_not_mem hl, List.count_cons_self, Nat.zero_add]

/-- Of the segments only a last empty one is missing. -/
theorem splitLevels_segments (s : Str) :
    splitLevels s = if (segments s).getLast (segments_ne_nil s) = [] then (segments s).dropLast
      else segments s := by
  induction s using separated_induction '/' with
  | word l hl =>
    simp only [segments_word hl, List.getLast_singleton, List.dropLast_singleton]
    by_cases hne : l = []
    · rw [if_pos hne, hne]
      rfl
    · rw [if_neg hne, splitLevels_word hl hne]
  | append l s hl ih =>
    have hne := segments_ne_nil s
    simp only [segments_append hl, List.getLast_cons hne, List.dropLast_cons_of_ne_nil hne,
      splitLevels_append hl, ih]
    split
    · rfl
    · rfl

theorem splitLevels_eq_nil : splitLevels s = [] ↔ s = [] := by
  constructor
  · intro h
    induction s using separated_induction '/' with
    | word l hl =>
      by_cases hne : l = []
      · exact hne
      · rw [splitLevels_word hl hne] at h
        cases h
    | append l s hl ih =>
      rw [splitLevels_append hl] at h
      cases h
  · intro h
    rw [h]
    rfl

/-- A last separator is what the levels forget. -/
theorem intercalate_splitLevels (s : Str) :
    ['/'].intercalate (splitLevels s) = if s.getLast? = some '/' then s.dropLast else s := by
  induction s using separated_induction '/' with
  | word l hl =>
    rw [if_neg (getLast?_ne_of_not_mem hl)]
    by_cases hne : l = []
    · rw [hne]
      rfl
    · rw [splitLevels_word hl hne, List.intercalate_singleton]
  | append l s hl ih =>
    rw [splitLevels_append hl]
    by_cases hs : s = []
    · subst hs
      have hnil : splitLevels [] = [] := rfl
      have hslash : ['/'].getLast? = some '/' := rfl
      rw [hnil, List.intercalate_singleton, List.getLast?_append_cons, if_pos hslash,
        List.dropLast_concat]
    · have hlevels : splitLevels s ≠ [] := fun h ↦ hs (splitLevels_eq_nil.mp h)
      rw [List.intercalate_cons_of_ne_nil hlevels, ih, getLast?_append_cons hs]
      split
      · rw [List.dropLast_append_of_ne_nil (List.cons_ne_nil _ _),
          List.dropLast_cons_of_ne_nil hs, List.append_assoc]
        rfl
      · rw [List.append_assoc]
        rfl

theorem of_getLast? (h : s.getLast? = some '/') : s = s.dropLast ++ ['/'] := by
  have hne : s ≠ [] := by
    intro hs
    rw [hs] at h
    cases h
  rw [List.getLast?_eq_getLast_of_ne_nil hne, Option.some.injEq] at h
  rw [← h, List.dropLast_append_getLast hne]

theorem splitLevels_inj (h : splitLevels s = splitLevels t) :
    s = t ∨ s = t ++ ['/'] ∨ t = s ++ ['/'] := by
  have hjoin := congrArg (List.intercalate ['/']) h
  rw [intercalate_splitLevels, intercalate_splitLevels] at hjoin
  by_cases hls : s.getLast? = some '/'
  · have hs' := of_getLast? hls
    rw [if_pos hls] at hjoin
    by_cases hlt : t.getLast? = some '/'
    · rw [if_pos hlt] at hjoin
      left
      rw [hs', of_getLast? hlt, hjoin]
    · rw [if_neg hlt] at hjoin
      right; left
      rw [← hjoin]
      exact hs'
  · rw [if_neg hls] at hjoin
    by_cases hlt : t.getLast? = some '/'
    · rw [if_pos hlt] at hjoin
      right; right
      rw [hjoin]
      exact of_getLast? hlt
    · rw [if_neg hlt] at hjoin
      exact .inl hjoin

end Segments

/-- The loop ends for every string, and this is what it returns. -/
theorem split_levels_correct (s : Str) :
    (∀ l ∈ splitByIndex s, '/' ∉ l) ∧
      (segments s).length = s.count '/' + 1 ∧
      (splitByIndex s = if (segments s).getLast (segments_ne_nil s) = []
        then (segments s).dropLast else segments s) ∧
      (['/'].intercalate (splitByIndex s) =
        if s.getLast? = some '/' then s.dropLast else s) ∧
      ∀ t, splitByIndex s = splitByIndex t → splitByIndex s ≠ [] →
        s = t ∨ s = t ++ ['/'] ∨ t = s ++ ['/'] := by
  have hlevels := splitLevels_segments s
  refine ⟨?_, length_segments s, ?_, ?_, ?_⟩
  · intro l hl
    rw [splitByIndex_eq, hlevels] at hl
    apply slash_not_mem (s := s) l
    split at hl
    · exact List.dropLast_subset _ hl
    · exact hl
  · rw [splitByIndex_eq]
    exact hlevels
  · rw [splitByIndex_eq]
    exact intercalate_splitLevels s
  · intro t ht _
    rw [splitByIndex_eq, splitByIndex_eq] at ht
    exact splitLevels_inj ht

end LivioArk.Msgbus.LevelSplitting
