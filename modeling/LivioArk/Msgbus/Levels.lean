import LivioArk.Library.Separated

namespace LivioArk.Msgbus.Levels

open LivioArk.Library.Separated

abbrev Str := List Char

/-- The loop of `splitLevels`; `level` has been read since the last '/'. -/
def splitLevelsFrom (level : Str) : Str → List Str
  | [] => [level]
  | c :: s =>
    if c = '/' then level :: (if s = [] then [] else splitLevelsFrom [] s)
    else splitLevelsFrom (level ++ [c]) s

def splitLevels (s : Str) : List Str :=
  if s = [] then [] else splitLevelsFrom [] s

/-- The segments between the separators, a last empty one included. -/
def segments (s : Str) : List Str := s.splitOn '/'

/-- What the levels of a pattern say about the levels of a topic: '*' stands
for one level and a final '#' for any number of them. -/
def levelsMatch : List Str → List Str → Bool
  | [], ts => ts.isEmpty
  | p :: ps, [] => p = ['#'] && ps.isEmpty
  | p :: ps, t :: ts =>
    (p = ['#'] && ps.isEmpty) || (p = ['*'] || p = t) && levelsMatch ps ts

section Segments

variable {s l : Str}

theorem segments_ne_nil (s : Str) : segments s ≠ [] := List.splitOn_ne_nil '/' s

theorem segments_word (hl : '/' ∉ l) : segments l = [l] := List.splitOn_eq_singleton hl

theorem segments_append (hl : '/' ∉ l) (s : Str) : segments (l ++ '/' :: s) = l :: segments s :=
  List.splitOn_append_cons_self_of_not_mem hl s

theorem slash_not_mem : ∀ l ∈ segments s, '/' ∉ l := not_mem_of_mem_splitOn s

theorem splitLevelsFrom_word (hl : '/' ∉ l) (level : Str) :
    splitLevelsFrom level l = [level ++ l] := by
  induction l generalizing level with
  | nil => simp [splitLevelsFrom]
  | cons c l ih =>
    rw [List.mem_cons, not_or] at hl
    rw [splitLevelsFrom, if_neg (Ne.symm hl.1), ih hl.2, List.append_assoc]
    rfl

theorem splitLevelsFrom_append (hl : '/' ∉ l) (level s : Str) :
    splitLevelsFrom level (l ++ '/' :: s) = (level ++ l) :: splitLevels s := by
  induction l generalizing level with
  | nil => simp [splitLevelsFrom, splitLevels]
  | cons c l ih =>
    rw [List.mem_cons, not_or] at hl
    rw [List.cons_append, splitLevelsFrom, if_neg (Ne.symm hl.1), ih hl.2, List.append_assoc]
    rfl

theorem splitLevels_word (hl : '/' ∉ l) (hne : l ≠ []) : splitLevels l = [l] := by
  rw [splitLevels, if_neg hne, splitLevelsFrom_word hl, List.nil_append]

theorem splitLevels_append (hl : '/' ∉ l) (s : Str) :
    splitLevels (l ++ '/' :: s) = l :: splitLevels s := by
  rw [splitLevels, if_neg (by simp), splitLevelsFrom_append hl, List.nil_append]

/-- Without a last '/' the levels are the segments. -/
theorem splitLevels_eq_segments (hs : s ≠ []) (hlast : s.getLast? ≠ some '/') :
    splitLevels s = segments s := by
  induction s using separated_induction '/' with
  | word l hl => rw [splitLevels_word hl hs, segments_word hl]
  | append l s hl ih =>
    have hne : s ≠ [] := fun h ↦ hlast (by simp [h])
    rw [getLast?_append_cons hne] at hlast
    rw [splitLevels_append hl, segments_append hl, ih hne hlast]

end Segments

end LivioArk.Msgbus.Levels
