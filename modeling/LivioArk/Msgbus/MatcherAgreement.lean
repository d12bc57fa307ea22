import LivioArk.Msgbus.TopicMatcher
import LivioArk.Msgbus.TrieIndex

namespace LivioArk.Msgbus.MatcherAgreement

open LivioArk.Library.Separated Levels TopicMatcher

variable {l m p s t : Str}

/-- A topic as the rules want it: no wildcards and no last '/'. -/
structure Concrete (t : Str) : Prop where
  nonempty : t ≠ []
  no_trailing : t.getLast? ≠ some '/'
  plain : isWildcard t = false

theorem isWildcard_eq_false : isWildcard t = false ↔ Plain t := by
  simp only [isWildcard, List.any_eq_false, Bool.or_eq_true, decide_eq_true_eq, not_or, Plain]
  exact ⟨fun h ↦ ⟨fun hm ↦ (h _ hm).1 rfl, fun hm ↦ (h _ hm).2 rfl⟩,
    fun h c hc ↦ ⟨fun he ↦ h.1 (he ▸ hc), fun he ↦ h.2 (he ▸ hc)⟩⟩

section Suffixes

theorem plain_append : Plain (l ++ s) ↔ Plain l ∧ Plain s := by
  simp only [Plain, List.mem_append, not_or]
  tauto

theorem grammatical_append (hl : '/' ∉ l) (h : Grammatical (l ++ '/' :: s)) :
    Segment l ∧ l ≠ ['#'] ∧ Grammatical s := by
  have hs : s ≠ [] := fun hs ↦ h.no_trailing (by simp [hs])
  have hlast := h.no_trailing
  have hseg := h.segment
  have hhash := h.hash_last
  rw [getLast?_append_cons hs] at hlast
  rw [segments_append hl] at hseg hhash
  rw [List.dropLast_cons_of_ne_nil (segments_ne_nil s), List.mem_cons, not_or] at hhash
  obtain ⟨hfirst, hrest⟩ := List.forall_mem_cons.mp hseg
  exact ⟨hfirst, Ne.symm hhash.1, hs, hlast, hrest, hhash.2⟩

theorem grammatical_word (hl : '/' ∉ l) (h : Grammatical l) : Segment l :=
  h.segment l (by rw [segments_word hl]; exact List.mem_singleton.mpr rfl)

theorem concrete_append (h : Concrete (l ++ '/' :: s)) : Plain l ∧ Concrete s := by
  have hs : s ≠ [] := fun hs ↦ h.no_trailing (by simp [hs])
  have hlast := h.no_trailing
  rw [getLast?_append_cons hs] at hlast
  obtain ⟨hl, hrest⟩ := plain_append.mp (isWildcard_eq_false.mp h.plain)
  have hplain : Plain s := (plain_cons.mp hrest).2
  exact ⟨hl, hs, hlast, isWildcard_eq_false.mpr hplain⟩

end Suffixes

section Scanner

theorem topicMatches_nil_left (t : Str) : topicMatches [] t = decide (t = []) := by
  simp [topicMatches, tailMatches]

theorem topicMatches_nil_right (p : Str) : topicMatches p [] = tailMatches p [] := by
  cases p <;> simp [topicMatches]

theorem topicMatches_slash (p t : Str) : topicMatches ('/' :: p) ('/' :: t) = topicMatches p t := by
  simp [topicMatches]

theorem topicMatches_hash (p : Str) (ht : t ≠ []) : topicMatches ('#' :: p) t = true := by
  cases t with
  | nil => exact absurd rfl ht
  | cons d t => simp [topicMatches]

/-- The rest of a string after a level. -/
def AtBoundary (s : Str) : Prop := s = [] ∨ ∃ r, s = '/' :: r

theorem skipLevel_append (hm : '/' ∉ m) (ht : AtBoundary t) : skipLevel (m ++ t) = t := by
  have hall : ∀ c ∈ m, decide (c ≠ '/') = true := by
    intro c hc
    simpa using fun he : c = '/' ↦ hm (he ▸ hc)
  rw [skipLevel, List.dropWhile_append_of_pos hall]
  rcases ht with rfl | ⟨r, rfl⟩
  · rfl
  · exact List.dropWhile_cons_of_neg (by simp)

theorem topicMatches_star (hm : '/' ∉ m) (ht : AtBoundary t) (hne : m ++ t ≠ []) :
    topicMatches ('*' :: p) (m ++ t) = topicMatches (skipSlash p) (skipSlash t) := by
  obtain ⟨d, r, hr⟩ := List.exists_cons_of_ne_nil hne
  have hskip : skipLevel (d :: r) = t := by rw [← hr, skipLevel_append hm ht]
  rw [hr, topicMatches, if_neg (by decide), if_pos rfl, hskip]

/-- A level of the pattern without wildcards is compared with a level of the
topic. -/
theorem topicMatches_level (hl : '/' ∉ l) (hplain : Plain l) (hm : '/' ∉ m) (hp : AtBoundary p)
    (ht : AtBoundary t) :
    topicMatches (l ++ p) (m ++ t) = (decide (l = m) && topicMatches p t) := by
  induction l generalizing m with
  | nil =>
    cases m with
    | nil => simp
    | cons d m =>
      rw [List.mem_cons, not_or] at hm
      rcases hp with rfl | ⟨r, rfl⟩
      · simp [topicMatches_nil_left]
      · simp [topicMatches, hm.1]
  | cons c l ih =>
    rw [List.mem_cons, not_or] at hl
    obtain ⟨hc, hplain⟩ := plain_cons.mp hplain
    cases m with
    | nil =>
      rcases ht with rfl | ⟨r, rfl⟩
      · simp [topicMatches_nil_right, tailMatches, hc.2, Ne.symm hl.1]
      · simp [topicMatches, hc.1, hc.2, Ne.symm hl.1]
    | cons d m =>
      rw [List.mem_cons, not_or] at hm
      by_cases hcd : c = d
      · subst hcd
        simp [topicMatches, hc.1, hc.2, ih hl.2 hplain hm.2]
      · simp [topicMatches, hc.1, hc.2, hcd]

end Scanner

section Tail

theorem head_ne_hash (hseg : Segment l) (hne : l ≠ ['#']) : l.head? ≠ some '#' := by
  intro hhead
  rcases hseg with hplain | rfl | hhash
  · exact hplain.2 (List.mem_of_head? hhead)
  · cases hhead
  · exact hne hhash

theorem getElem?_zero_eq_hash (h : Grammatical s) : s[0]? = some '#' ↔ segments s = [['#']] := by
  rw [← List.head?_eq_getElem?]
  induction s using separated_induction '/' with
  | word l hl =>
    rw [segments_word hl, List.singleton_inj]
    refine ⟨fun hhead ↦ ?_, fun he ↦ by rw [he]; rfl⟩
    by_contra hne
    exact head_ne_hash (grammatical_word hl h) hne hhead
  | append l s hl _ =>
    obtain ⟨hseg, hne, -⟩ := grammatical_append hl h
    rw [segments_append hl]
    refine ⟨fun hhead ↦ ?_, fun he ↦ ?_⟩
    · cases l with
      | nil => cases hhead
      | cons c l =>
        have hfirst : (c :: l).head? = some '#' := hhead
        exact absurd hfirst (head_ne_hash hseg hne)
    · exact absurd (List.cons.inj he).2 (segments_ne_nil s)

/-- What is left of a pattern at the end of the topic is accepted if it is '#'
or '/#', whatever has been before the '/'. -/
theorem tailMatches_nil (h : Grammatical s) :
    tailMatches s [] = true ↔ segments s = [['#']] ∨ segments s = [[], ['#']] := by
  have hhead := getElem?_zero_eq_hash h
  rw [tailMatches]
  induction s using separated_induction '/' with
  | word l hl =>
    have hslash : l[0]? ≠ some '/' := fun he ↦ hl (List.mem_of_getElem? he)
    rw [segments_word hl] at hhead ⊢
    simp [hhead, hslash, h.nonempty]
  | append l s hl _ =>
    obtain ⟨hseg, hne, hs⟩ := grammatical_append hl h
    rw [segments_append hl] at hhead ⊢
    have hfirst : l :: segments s ≠ [['#']] := fun he ↦ segments_ne_nil s (List.cons.inj he).2
    rw [if_neg (fun hc ↦ hfirst (hhead.mp hc))]
    cases l with
    | nil => simp [getElem?_zero_eq_hash hs, segments_ne_nil]
    | cons c l =>
      rw [List.mem_cons, not_or] at hl
      simp [Ne.symm hl.1, segments_ne_nil]

end Tail

def LevelMatches (p t : Str) : Prop := p = ['*'] ∨ p = t

/-- The topic ends where the pattern has a '*', and the pattern goes on with
an empty level and '#'. -/
def Overruns (ps ts : List Str) : Prop :=
  ∃ qs us t, ps = qs ++ [['*'], [], ['#']] ∧ ts = us ++ [t] ∧ List.Forall₂ LevelMatches qs us

section Overrun

variable {ps ts : List Str}

theorem not_overruns_singleton (p : Str) (ts : List Str) : ¬ Overruns [p] ts := by
  intro ⟨qs, us, t, hps, _⟩
  have hlen := congrArg List.length hps
  simp at hlen

theorem overruns_cons (p t : Str) (ps ts : List Str) : Overruns (p :: ps) (t :: ts) ↔
    (p = ['*'] ∧ ps = [[], ['#']] ∧ ts = []) ∨ LevelMatches p t ∧ Overruns ps ts := by
  constructor
  · intro ⟨qs, us, u, hps, hts, hall⟩
    cases hall with
    | nil =>
      simp only [List.nil_append, List.cons.injEq] at hps hts
      exact .inl ⟨hps.1, hps.2, hts.2⟩
    | cons hm hall =>
      simp only [List.cons_append, List.cons.injEq] at hps hts
      obtain ⟨rfl, hps⟩ := hps
      obtain ⟨rfl, hts⟩ := hts
      exact .inr ⟨hm, _, _, u, hps, hts, hall⟩
  · intro h
    rcases h with ⟨rfl, rfl, rfl⟩ | ⟨hm, qs, us, u, rfl, rfl, hall⟩
    · exact ⟨[], [], t, rfl, rfl, .nil⟩
    · exact ⟨p :: qs, t :: us, u, rfl, rfl, .cons hm hall⟩

theorem not_overruns_nil (ps : List Str) : ¬ Overruns ps [] := by
  intro ⟨qs, us, t, _, hts, _⟩
  exact List.append_ne_nil_of_right_ne_nil us (List.cons_ne_nil t []) hts.symm

theorem Overruns.not_levelsMatch (h : Overruns ps ts) : levelsMatch ps ts = false := by
  obtain ⟨qs, us, t, rfl, rfl, hall⟩ := h
  induction hall with
  | nil => simp [levelsMatch]
  | cons _ _ ih => simp [levelsMatch, ih]

end Overrun

section Matching

variable {ps ts : List Str}

theorem levelsMatch_plain (h : Plain l) :
    levelsMatch (l :: ps) (m :: ts) = (decide (l = m) && levelsMatch ps ts) := by
  simp [levelsMatch, h.ne_star, h.ne_hash]

theorem levelsMatch_star : levelsMatch (['*'] :: ps) (m :: ts) = levelsMatch ps ts := by
  simp [levelsMatch]

theorem levelMatches_plain (h : Plain l) : LevelMatches l m ↔ l = m :=
  or_iff_right h.ne_star

theorem topicMatches_word (hl : '/' ∉ l) (hseg : Segment l) (ht : Concrete t) :
    topicMatches l t = levelsMatch [l] (segments t) := by
  induction t using separated_induction '/' with
  | word m hm =>
    rw [segments_word hm]
    rcases hseg with hplain | rfl | rfl
    · have hlevel := topicMatches_level hl hplain hm (.inl rfl) (.inl rfl)
      rw [List.append_nil, List.append_nil] at hlevel
      rw [hlevel, levelsMatch_plain hplain, topicMatches_nil_left]
      rfl
    · have hstar := topicMatches_star (p := []) hm (.inl rfl) (by simpa using ht.nonempty)
      rw [List.append_nil] at hstar
      rw [hstar, levelsMatch_star, skipSlash, topicMatches_nil_left]
      rfl
    · rw [topicMatches_hash [] ht.nonempty]
      rfl
  | append m t hm _ =>
    obtain ⟨-, hct⟩ := concrete_append ht
    have hempty : levelsMatch [] (segments t) = false := by
      simp [levelsMatch, segments_ne_nil]
    rw [segments_append hm]
    rcases hseg with hplain | rfl | rfl
    · have hlevel := topicMatches_level hl hplain hm (.inl rfl) (.inr ⟨t, rfl⟩)
      rw [List.append_nil] at hlevel
      rw [hlevel, levelsMatch_plain hplain, hempty, topicMatches_nil_left]
      simp
    · rw [topicMatches_star hm (.inr ⟨t, rfl⟩) ht.nonempty, levelsMatch_star, hempty]
      simp [skipSlash, topicMatches_nil_left, hct.nonempty]
    · rw [topicMatches_hash [] ht.nonempty]
      rfl

/-- What `topicMatches` computes, in terms of levels. -/
theorem topicMatches_iff (hp : Grammatical p) (ht : Concrete t) :
    topicMatches p t = true ↔
      levelsMatch (segments p) (segments t) = true ∨ Overruns (segments p) (segments t) := by
  induction p using separated_induction '/' generalizing t with
  | word l hl =>
    rw [topicMatches_word hl (grammatical_word hl hp) ht, segments_word hl]
    exact (or_iff_left (not_overruns_singleton l _)).symm
  | append l s hl ih =>
    obtain ⟨hseg, hhash, hs⟩ := grammatical_append hl hp
    have hends : levelsMatch (segments s) [] = true ↔ segments s = [['#']] := by
      obtain ⟨q, qs, hq⟩ := List.exists_cons_of_ne_nil (segments_ne_nil s)
      simp [hq, levelsMatch]
    have hno : ∀ p, ¬ (LevelMatches l p ∧ Overruns (segments s) []) :=
      fun p h ↦ not_overruns_nil _ h.2
    rw [segments_append hl]
    induction t using separated_induction '/' with
    | word m hm =>
      rw [segments_word hm, overruns_cons, or_iff_left (hno m)]
      rcases hseg with hplain | rfl | rfl
      · have hlevel := topicMatches_level hl hplain hm (.inr ⟨s, rfl⟩) (.inl rfl)
        rw [List.append_nil, topicMatches_nil_right] at hlevel
        rw [hlevel, levelsMatch_plain hplain, or_iff_left (fun h ↦ hplain.ne_star h.1),
          Bool.and_eq_true, Bool.and_eq_true, hends, ← getElem?_zero_eq_hash hs]
        simp [tailMatches]
      · have hstar := topicMatches_star (p := '/' :: s) hm (.inl rfl) (by simpa using ht.nonempty)
        rw [List.append_nil] at hstar
        rw [List.singleton_append, hstar, levelsMatch_star, hends, skipSlash, skipSlash, if_pos rfl,
          topicMatches_nil_right, tailMatches_nil hs]
        simp
      · exact absurd rfl hhash
    | append m t hm _ =>
      obtain ⟨-, hct⟩ := concrete_append ht
      have hover : Overruns (l :: segments s) (m :: segments t) ↔
          LevelMatches l m ∧ Overruns (segments s) (segments t) :=
        (overruns_cons ..).trans (or_iff_right fun h ↦ segments_ne_nil t h.2.2)
      rw [segments_append hm, hover]
      rcases hseg with hplain | rfl | rfl
      · rw [topicMatches_level hl hplain hm (.inr ⟨s, rfl⟩) (.inr ⟨t, rfl⟩), topicMatches_slash,
          levelsMatch_plain hplain, levelMatches_plain hplain, Bool.and_eq_true, Bool.and_eq_true,
          ih hs hct, decide_eq_true_eq]
        exact and_or_left
      · rw [List.singleton_append, topicMatches_star hm (.inr ⟨t, rfl⟩) ht.nonempty,
          levelsMatch_star, skipSlash, skipSlash, if_pos rfl, if_pos rfl, ih hs hct,
          and_iff_right (.inl rfl)]
      · exact absurd rfl hhash

end Matching

section Agreement

open WildcardTrie TrieIndex

variable {τ σ : Type} [DecidableEq τ]

theorem Concrete.levels (h : Concrete t) : ∀ l ∈ splitLevels t, l ≠ ['*'] ∧ l ≠ ['#'] := by
  intro l hl
  rw [splitLevels_eq_segments h.nonempty h.no_trailing] at hl
  have hplain := isWildcard_eq_false.mp h.plain
  refine ⟨fun he ↦ hplain.1 ?_, fun he ↦ hplain.2 ?_⟩ <;>
    exact mem_of_mem_splitOn t l hl _ (by simp [he])

/-- A trie with one pattern reports what the levels say. -/
theorem match_single (p : Str) (entry : Entry τ σ) (ht : Concrete t) :
    match_ t entry.type (insert p entry {}) ≠ [] ↔
      levelsMatch (splitLevels p) (splitLevels t) = true := by
  have hperm := (@Holds.insert _ _ _ holds_initial p entry List.not_mem_nil).match_perm ht.levels
    entry.type
  rw [ne_eq, ← List.length_eq_zero_iff, hperm.length_eq]
  by_cases hm : levelsMatch (splitLevels p) (splitLevels t) = true
  · simp [scan, hm]
  · simp [scan, hm]

/-- The two matchers agree on everything that is not overrun. -/
theorem matchers_agree (hp : Grammatical p) (ht : Concrete t) (entry : Entry τ σ) :
    (topicMatches p t = true ↔ match_ t entry.type (insert p entry {}) ≠ []) ↔
      ¬ Overruns (splitLevels p) (splitLevels t) := by
  rw [match_single p entry ht, splitLevels_eq_segments hp.nonempty hp.no_trailing,
    splitLevels_eq_segments ht.nonempty ht.no_trailing, topicMatches_iff hp ht]
  constructor
  · intro hiff hover
    have hmatch := hiff.mp (.inr hover)
    rw [hover.not_levelsMatch] at hmatch
    cases hmatch
  · intro hno
    exact or_iff_left hno

/-- The pattern has an empty second level, which the topic has not. -/
theorem overrun_accepted : Grammatical ['*', '/', '/', '#'] ∧ Concrete ['x'] ∧
    ¬ (topicMatches ['*', '/', '/', '#'] ['x'] = true ↔
      match_ ['x'] () (insert ['*', '/', '/', '#'] (⟨(), (), 1⟩ : Entry Unit Unit) {}) ≠ []) := by
  refine ⟨by decide, ⟨by decide, by decide, rfl⟩, ?_⟩
  have hscan : topicMatches ['*', '/', '/', '#'] ['x'] = true := by
    simp [topicMatches, skipSlash, skipLevel, tailMatches]
  rw [hscan]
  decide

theorem matchers_agree_levels : topicMatches ['a', '/', '*', '/', '#'] ['a', '/', 'b'] = true ∧
    ((topicMatches ['a', '/', '*', '/', '#'] ['a', '/', 'b'] = true ↔
      match_ ['a', '/', 'b'] () (insert ['a', '/', '*', '/', '#'] (⟨(), (), 1⟩ : Entry Unit Unit)
        {}) ≠ []) ↔ ¬ Overruns [['a'], ['*'], ['#']] [['a'], ['b']]) := by
  refine ⟨by simp [topicMatches, skipSlash, skipLevel, tailMatches], ?_⟩
  exact matchers_agree (by decide) ⟨by decide, by decide, rfl⟩ _

end Agreement

end LivioArk.Msgbus.MatcherAgreement
