import LivioArk.Msgbus.Levels

namespace LivioArk.Msgbus.TopicMatcher

open LivioArk.Library.Separated Levels

def isWildcard (pattern : Str) : Bool := pattern.any fun c ↦ c = '*' || c = '#'

/-- The loop of `isValidTopic`; `prev` is the character before the rest. -/
def validFrom (prev : Option Char) (in_segment last_was_wildcard : Bool) : Str → Bool
  | [] => true
  | c :: rest =>
    if c = '/' then
      if last_was_wildcard then false
      else if rest = [] then false
      else validFrom (some c) false false rest
    else if c = '#' then
      if !in_segment && (prev = none || prev = some '/') then rest = [] else false
    else if c = '*' then
      if !in_segment && (prev = none || prev = some '/') then validFrom (some c) true true rest
      else false
    else if last_was_wildcard then false
    else validFrom (some c) true last_was_wildcard rest

def isValidTopic (topic : Str) : Bool :=
  if topic = [] then false else validFrom none false false topic

def skipLevel (topic : Str) : Str := topic.dropWhile (· ≠ '/')

def skipSlash : Str → Str
  | c :: s => if c = '/' then s else c :: s
  | [] => []

/-- What follows the loop of `topicMatches`. -/
def tailMatches (pattern topic : Str) : Bool :=
  if pattern[0]? = some '#' then true
  else if pattern[0]? = some '/' && pattern[1]? = some '#' then true
  else pattern = [] && topic = []

theorem length_skipSlash_le (s : Str) : (skipSlash s).length ≤ s.length := by
  cases s with
  | nil => exact Nat.le_refl 0
  | cons c s =>
    rw [skipSlash]
    split <;> simp

def topicMatches : Str → Str → Bool
  | c :: pattern, d :: topic =>
    if c = '#' then true
    else if c = '*' then topicMatches (skipSlash pattern) (skipSlash (skipLevel (d :: topic)))
    else if c ≠ d then false
    else topicMatches pattern topic
  | pattern, topic => tailMatches pattern topic
termination_by pattern => pattern.length
decreasing_by
  · exact Nat.lt_succ_of_le (length_skipSlash_le pattern)
  · exact Nat.lt_succ_self _

def Plain (l : Str) : Prop := '*' ∉ l ∧ '#' ∉ l

def Segment (l : Str) : Prop := Plain l ∨ l = ['*'] ∨ l = ['#']

/-- The documented grammar of topics and patterns. -/
structure Grammatical (s : Str) : Prop where
  nonempty : s ≠ []
  no_trailing : s.getLast? ≠ some '/'
  segment : ∀ l ∈ segments s, Segment l
  hash_last : ['#'] ∉ (segments s).dropLast

instance (l : Str) : Decidable (Plain l) := inferInstanceAs (Decidable (_ ∧ _))

instance (l : Str) : Decidable (Segment l) := inferInstanceAs (Decidable (_ ∨ _))

instance (s : Str) : Decidable (Grammatical s) :=
  decidable_of_iff (s ≠ [] ∧ s.getLast? ≠ some '/' ∧ (∀ l ∈ segments s, Segment l) ∧
      ['#'] ∉ (segments s).dropLast)
    ⟨fun ⟨h₁, h₂, h₃, h₄⟩ ↦ ⟨h₁, h₂, h₃, h₄⟩,
      fun h ↦ ⟨h.nonempty, h.no_trailing, h.segment, h.hash_last⟩⟩

section Validity

variable {c : Char} {l s : Str} {prev : Option Char}

theorem plain_cons : Plain (c :: l) ↔ (c ≠ '*' ∧ c ≠ '#') ∧ Plain l := by
  simp only [Plain, List.mem_cons, not_or, ne_eq, eq_comm (a := c)]
  tauto

theorem plain_nil : Plain [] := ⟨List.not_mem_nil, List.not_mem_nil⟩

theorem Plain.ne_star (h : Plain l) : l ≠ ['*'] := fun he ↦ h.1 (by simp [he])

theorem Plain.ne_hash (h : Plain l) : l ≠ ['#'] := fun he ↦ h.2 (by simp [he])

/-- Inside a level that has begun with an ordinary character. -/
theorem validFrom_inside (hl : '/' ∉ l) : validFrom prev true false l = true ↔ Plain l := by
  induction l generalizing prev with
  | nil => simp [validFrom, plain_nil]
  | cons c l ih =>
    rw [List.mem_cons, not_or] at hl
    rw [validFrom, if_neg (Ne.symm hl.1), plain_cons]
    by_cases hh : c = '#'
    · simp [hh]
    · by_cases hs : c = '*'
      · simp [hs]
      · simp [hh, hs, ih hl.2]

theorem validFrom_inside_append (hl : '/' ∉ l) (s : Str) :
    validFrom prev true false (l ++ '/' :: s) = true ↔
      Plain l ∧ s ≠ [] ∧ validFrom (some '/') false false s = true := by
  induction l generalizing prev with
  | nil => simp [validFrom, plain_nil]
  | cons c l ih =>
    rw [List.mem_cons, not_or] at hl
    rw [List.cons_append, validFrom, if_neg (Ne.symm hl.1), plain_cons]
    by_cases hh : c = '#'
    · simp [hh]
    · by_cases hs : c = '*'
      · simp [hs]
      · simp [hh, hs, ih hl.2]

/-- After a '*' nothing may follow, not even the end of the level. -/
theorem validFrom_star (s : Str) : validFrom (some '*') true true s = true ↔ s = [] := by
  cases s with
  | nil => simp [validFrom]
  | cons c s =>
    rw [validFrom]
    split
    · simp
    · split
      · simp
      · split <;> simp

theorem validFrom_word (hprev : prev = none ∨ prev = some '/') (hl : '/' ∉ l) :
    validFrom prev false false l = true ↔ Segment l := by
  cases l with
  | nil => simp [validFrom, Segment, plain_nil]
  | cons c l =>
    rw [List.mem_cons, not_or] at hl
    rw [validFrom, if_neg (Ne.symm hl.1), Segment, plain_cons]
    by_cases hh : c = '#'
    · simp [hh, hprev]
    · by_cases hs : c = '*'
      · simp [hs, hprev, validFrom_star]
      · simp [hh, hs, validFrom_inside hl.2]

theorem validFrom_append (hl : '/' ∉ l) (s : Str) :
    validFrom prev false false (l ++ '/' :: s) = true ↔
      Plain l ∧ s ≠ [] ∧ validFrom (some '/') false false s = true := by
  cases l with
  | nil => simp [validFrom, plain_nil]
  | cons c l =>
    rw [List.mem_cons, not_or] at hl
    rw [List.cons_append, validFrom, if_neg (Ne.symm hl.1), plain_cons]
    by_cases hh : c = '#'
    · simp [hh]
    · by_cases hs : c = '*'
      · simp [hs, validFrom_star]
      · simp [hh, hs, validFrom_inside_append hl.2]

/-- The automaton wants plain levels before the last one. -/
theorem validFrom_iff (hprev : prev = none ∨ prev = some '/') (hs : s ≠ []) :
    validFrom prev false false s = true ↔ s.getLast? ≠ some '/' ∧
      (∀ l ∈ (segments s).dropLast, Plain l) ∧
        Segment ((segments s).getLast (segments_ne_nil s)) := by
  induction s using separated_induction '/' generalizing prev with
  | word l hl =>
    simp [validFrom_word hprev hl, segments_word hl, getLast?_ne_of_not_mem hl]
  | append l s hl ih =>
    rw [validFrom_append hl]
    simp only [segments_append hl, List.dropLast_cons_of_ne_nil (segments_ne_nil s),
      List.getLast_cons (segments_ne_nil s), List.forall_mem_cons]
    by_cases hne : s = []
    · simp [hne]
    · rw [ih (.inr rfl) hne, getLast?_append_cons hne]
      tauto

end Validity

/-- Before the last level the automaton rejects a '*' as it rejects a '#'. -/
theorem isValidTopic_iff (s : Str) :
    isValidTopic s = true ↔ Grammatical s ∧ ['*'] ∉ (segments s).dropLast := by
  rw [isValidTopic]
  by_cases hs : s = []
  · rw [if_pos hs]
    exact ⟨fun h ↦ (by cases h), fun h ↦ absurd hs h.1.nonempty⟩
  · rw [if_neg hs, validFrom_iff (.inl rfl) hs]
    have hsplit : ∀ P : Str → Prop, (∀ l ∈ segments s, P l) ↔
        (∀ l ∈ (segments s).dropLast, P l) ∧ P ((segments s).getLast (segments_ne_nil s)) := by
      intro P
      conv_lhs => rw [← List.dropLast_append_getLast (segments_ne_nil s)]
      simp only [List.mem_append, List.mem_singleton, or_imp, forall_and, forall_eq]
    constructor
    · intro ⟨hlast, hplain, hseg⟩
      refine ⟨⟨hs, hlast, (hsplit Segment).mpr ⟨fun l hl ↦ .inl (hplain l hl), hseg⟩, ?_⟩, ?_⟩
      · exact fun h ↦ (hplain _ h).2 (List.mem_singleton.mpr rfl)
      · exact fun h ↦ (hplain _ h).1 (List.mem_singleton.mpr rfl)
    · intro ⟨hg, hstar⟩
      obtain ⟨hinit, hseg⟩ := (hsplit Segment).mp hg.segment
      refine ⟨hg.no_trailing, fun l hl ↦ ?_, hseg⟩
      rcases hinit l hl with hp | rfl | rfl
      · exact hp
      · exact absurd hl hstar
      · exact absurd hl hg.hash_last

/-- `isValidTopic` decides the grammar but for a '*' level with levels after it. -/
theorem isValidTopic_grammatical (s : Str) :
    (isValidTopic s = true ↔ Grammatical s) ↔ (Grammatical s → ['*'] ∉ (segments s).dropLast) := by
  rw [isValidTopic_iff]
  tauto

/-- The pattern "s/*/t" is rejected. -/
theorem star_rejected : ¬ (isValidTopic ['s', '/', '*', '/', 't'] = true ↔
    Grammatical ['s', '/', '*', '/', 't']) := by decide

end LivioArk.Msgbus.TopicMatcher
