import LivioArk.Msgbus.Subscriptions

namespace LivioArk.Msgbus.PatternCheck

open LivioArk.Library.Separated Levels TopicMatcher Subscriptions

variable {s l : Str} {ps : List Str}

/-- Every wildcard character is a whole level, and '#' is the last one. -/
structure Meaningful (s : Str) : Prop where
  levels : ∀ l ∈ splitLevels s, Segment l
  hash_last : ['#'] ∉ (splitLevels s).dropLast

theorem hashMisplaced_iff (s : Str) : hashMisplaced s = true ↔ '#' ∈ s.dropLast := by
  induction s with
  | nil => simp [hashMisplaced]
  | cons c s ih =>
    by_cases hs : s = []
    · subst hs
      by_cases hc : c = '#' <;> simp [hashMisplaced, List.idxOf?_cons, hc]
    · rw [List.dropLast_cons_of_ne_nil hs, List.mem_cons, ← ih]
      by_cases hc : c = '#'
      · simp [hashMisplaced, List.idxOf?_cons, hc, Ne.symm, hs]
      · cases hi : s.idxOf? '#' <;> simp [hashMisplaced, List.idxOf?_cons, hc, hi, Ne.symm hc]

section Match

def concretize (c : Char) : Char := if c = '*' ∨ c = '#' then 'x' else c

theorem slash_not_mem_map (hl : '/' ∉ l) : '/' ∉ l.map concretize := by
  intro hm
  obtain ⟨c, hc, he⟩ := List.mem_map.mp hm
  rw [concretize] at he
  split at he
  · cases he
  · exact hl (he ▸ hc)

theorem splitLevels_map (s : Str) :
    splitLevels (s.map concretize) = (splitLevels s).map (List.map concretize) := by
  induction s using separated_induction '/' with
  | word l hl =>
    by_cases hne : l = []
    · subst hne
      rfl
    · rw [splitLevels_word (slash_not_mem_map hl) (by simpa using hne), splitLevels_word hl hne]
      rfl
  | append l s hl ih =>
    have hmap : (l ++ '/' :: s).map concretize = l.map concretize ++ '/' :: s.map concretize := by
      rw [List.map_append, List.map_cons]
      rfl
    rw [hmap, splitLevels_append (slash_not_mem_map hl), splitLevels_append hl, ih]
    rfl

theorem map_concretize (hl : Plain l) : l.map concretize = l := by
  refine (List.map_congr_left fun c hc ↦ ?_).trans (List.map_id l)
  rw [concretize, if_neg]
  · rfl
  · intro h
    rcases h with rfl | rfl
    · exact hl.1 hc
    · exact hl.2 hc

theorem levelsMatch_concretize (hseg : ∀ l ∈ ps, Segment l) (hhash : ['#'] ∉ ps.dropLast) :
    levelsMatch ps (ps.map (List.map concretize)) = true := by
  induction ps with
  | nil => rfl
  | cons p ps ih =>
    obtain ⟨hp, hrest⟩ := List.forall_mem_cons.mp hseg
    rw [List.map_cons, levelsMatch]
    by_cases hps : ps = []
    · subst hps
      rcases hp with hplain | rfl | rfl
      · simp [map_concretize hplain, levelsMatch]
      · rfl
      · rfl
    · rw [List.dropLast_cons_of_ne_nil hps, List.mem_cons, not_or] at hhash
      rcases hp with hplain | rfl | rfl
      · simp [map_concretize hplain, ih hrest hhash.2]
      · simp [ih hrest hhash.2]
      · exact absurd rfl hhash.1

theorem isWildcard_concretize (s : Str) : isWildcard (s.map concretize) = false := by
  rw [isWildcard, List.any_map, List.any_eq_false]
  intro c _
  by_cases hc : c = '*' ∨ c = '#'
  · simp [concretize, hc]
  · simp [concretize, hc]

theorem Meaningful.matches (h : Meaningful s) :
    ∃ t, isWildcard t = false ∧ levelsMatch (splitLevels s) (splitLevels t) = true := by
  refine ⟨s.map concretize, isWildcard_concretize s, ?_⟩
  rw [splitLevels_map]
  exact levelsMatch_concretize h.levels h.hash_last

end Match

section Subscribe

variable {τ η : Type} [DecidableEq τ]

/-- An accepted pattern is meaningful and a rejected one changes nothing. -/
def Guarded (b : SubState τ η) (T : τ) (s : Str) (handler : η) : Prop :=
  match subscribe b T s handler with
  | (.ok _, _) => Meaningful s ∧
      ∃ t, isWildcard t = false ∧ levelsMatch (splitLevels s) (splitLevels t) = true
  | (.error _, b') => b'.wildcard_trie_ = b.wildcard_trie_ ∧ b'.slots_ = b.slots_ ∧
      b'.heap = b.heap ∧ b'.sub_to_topic_ = b.sub_to_topic_

/-- `subscribe` looks at the place of the first '#' only. -/
theorem subscribe_guarded (b : SubState τ η) (T : τ) (handler : η) (hw : isWildcard s = true) :
    Guarded b T s handler ↔ '#' ∈ s.dropLast ∨ Meaningful s := by
  rw [Guarded, ← hashMisplaced_iff]
  cases hhash : hashMisplaced s with
  | true =>
    rw [subscribe_misplaced hw hhash]
    exact ⟨fun _ ↦ .inl rfl, fun _ ↦ ⟨rfl, rfl, rfl, rfl⟩⟩
  | false =>
    rw [subscribe_wildcard hw hhash, or_iff_right Bool.false_ne_true]
    exact ⟨fun h ↦ h.1, fun h ↦ ⟨h, h.matches⟩⟩

/-- The pattern "a#" is accepted, and its '#' is not a level. -/
theorem partial_level_accepted :
    ¬ Guarded ({} : SubState Unit Unit) () ['a', '#'] () := by
  intro h
  have hlevels := h.1.levels
  revert hlevels
  decide

theorem subscribe_guarded_star : Guarded ({} : SubState Unit Unit) () ['*', '/', '#'] () :=
  (subscribe_guarded _ _ _ rfl).mpr (.inr ⟨by decide, by decide⟩)

end Subscribe

end LivioArk.Msgbus.PatternCheck
