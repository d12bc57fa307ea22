import LivioArk.Library.Transition
import LivioArk.Msgbus.WildcardTrie
import Mathlib.Data.List.Nodup

namespace LivioArk.Msgbus.TrieIndex

open LivioArk.Library.Transition LivioArk.Library.PrefixTree Levels WildcardTrie

variable {τ σ : Type}

/-- The trie together with the list of what it should hold. -/
structure Indexed (τ σ : Type) where
  snapshot : Snapshot τ σ := {}
  live : List (Str × Entry τ σ) := []
  deriving Repr, DecidableEq

/-- A copy of the trie may go through the children of a node in any other
order; `rehash` exchanges two of them. -/
inductive TrieAction (τ σ : Type) where
  | insert (pattern : Str) (entry : Entry τ σ)
  | remove (id : ℕ)
  | rehash (way : List Bool)

def Indexed.ids (s : Indexed τ σ) : List ℕ := s.live.map fun x ↦ x.2.sub_id

def step (s : Indexed τ σ) : TrieAction τ σ → Option (Indexed τ σ)
  | .insert pattern entry =>
    some ⟨insert pattern entry s.snapshot, s.live ++ [(pattern, entry)]⟩
  | .remove id => some
    { snapshot := match remove id s.snapshot with
        | some (_, snap) => snap
        | none => s.snapshot
      live := s.live.filter fun x ↦ x.2.sub_id ≠ id }
  | .rehash way =>
    some { s with snapshot := { s.snapshot with root := s.snapshot.root.swap way } }

def machine (τ σ : Type) : Machine (Indexed τ σ) (TrieAction τ σ) where
  init s := s = {}
  step := step

def Fresh (s : Indexed τ σ) : TrieAction τ σ → Prop
  | .insert _ entry => entry.sub_id ∉ s.ids
  | _ => True

def scan [DecidableEq τ] (live : List (Str × Entry τ σ)) (topic : Str) (msg_type : τ) : List σ :=
  (live.filter fun x ↦
    x.2.type = msg_type && levelsMatch (splitLevels x.1) (splitLevels topic)).map fun x ↦ x.2.slot

structure Holds (s : Indexed τ σ) : Prop where
  valid : s.snapshot.root.Valid
  contents : s.snapshot.root.contents.Perm (s.live.map fun x ↦ (splitLevels x.1, x.2))
  nodup : s.ids.Nodup
  count : s.snapshot.entry_count = s.live.length

section Steps

variable {s t : Indexed τ σ}

theorem holds_initial : Holds ({} : Indexed τ σ) where
  valid := trivial
  contents := .nil
  nodup := List.nodup_nil
  count := rfl

theorem Holds.insert (h : Holds s) (pattern : Str) {entry : Entry τ σ}
    (hfresh : entry.sub_id ∉ s.ids) :
    Holds ⟨WildcardTrie.insert pattern entry s.snapshot, s.live ++ [(pattern, entry)]⟩ where
  valid := Node.insertAt_valid entry _ h.valid
  contents := by
    refine (Node.insertAt_contents entry _ s.snapshot.root).perm.trans ?_
    rw [List.map_append]
    exact (h.contents.cons _).trans (List.perm_append_singleton _ _).symm
  nodup := by
    have hids : (s.live ++ [(pattern, entry)]).map (fun x ↦ x.2.sub_id) = s.ids ++ [entry.sub_id] :=
      List.map_append
    rw [Indexed.ids, hids, ← List.concat_eq_append]
    exact h.nodup.concat hfresh
  count := by
    rw [List.length_append, ← h.count]
    rfl

theorem Holds.ids_perm (h : Holds s) :
    s.ids.Perm (s.snapshot.root.contents.map fun x ↦ x.2.sub_id) := by
  have hmap := (h.contents.map fun x ↦ x.2.sub_id).symm
  rwa [List.map_map] at hmap

theorem Holds.remove_isSome (h : Holds s) (id : ℕ) :
    (WildcardTrie.remove id s.snapshot).isSome = true ↔ id ∈ s.ids := by
  rw [h.ids_perm.mem_iff, WildcardTrie.remove, Option.isSome_map, List.mem_map]
  cases hr : s.snapshot.root.removeFrom (fun entry ↦ entry.sub_id = id) with
  | none =>
    refine ⟨fun h ↦ (by cases h), fun ⟨x, hx, hid⟩ ↦ ?_⟩
    have hnot := Node.removeFrom_none hr x hx
    simp [hid] at hnot
  | some y =>
    obtain ⟨entry, root⟩ := y
    obtain ⟨hid, path, hmore⟩ := Node.removeFrom_some hr
    refine ⟨fun _ ↦ ⟨(path, entry), ?_, by simpa using hid⟩, fun _ ↦ rfl⟩
    exact hmore.perm.mem_iff.mpr List.mem_cons_self

theorem Holds.removed (h : Holds s) {id : ℕ} {entry : Entry τ σ} {root : Node Str (Entry τ σ)}
    (hr : s.snapshot.root.removeFrom (fun entry ↦ entry.sub_id = id) = some (entry, root)) :
    Holds ⟨⟨root, s.snapshot.entry_count - 1⟩, s.live.filter fun x ↦ x.2.sub_id ≠ id⟩ := by
  obtain ⟨hid, path, hmore⟩ := Node.removeFrom_some hr
  have hid : entry.sub_id = id := by simpa using hid
  have hnodup := h.ids_perm.nodup_iff.mp h.nodup
  rw [(hmore.perm.map _).nodup_iff, List.map_cons, List.nodup_cons, hid] at hnodup
  have hrest : ∀ x ∈ root.contents, x.2.sub_id ≠ id := by
    intro x hx heq
    exact hnodup.1 (List.mem_map.mpr ⟨x, hx, heq⟩)
  have hcontents : root.contents.Perm
      ((s.live.filter fun x ↦ x.2.sub_id ≠ id).map fun x ↦ (splitLevels x.1, x.2)) := by
    have hfilter := (hmore.perm.symm.trans h.contents).filter fun x ↦ x.2.sub_id ≠ id
    rw [List.filter_cons_of_neg (by simpa using hid), List.filter_map,
      List.filter_eq_self.mpr (by simpa using hrest)] at hfilter
    exact hfilter
  refine ⟨Node.removeFrom_valid h.valid hr, hcontents, ?_, ?_⟩
  · exact h.nodup.sublist ((List.filter_sublist).map _)
  · have hlen := hmore.perm.length_eq
    have hlive := h.contents.length_eq
    have hleft := hcontents.length_eq
    simp only [List.length_cons, List.length_map] at hlen hlive hleft
    have hcount := h.count
    simp only
    omega

theorem Holds.remove (h : Holds s) {id : ℕ} (hs : step s (.remove id) = some t) : Holds t := by
  cases hs
  cases hr : s.snapshot.root.removeFrom (fun entry ↦ entry.sub_id = id) with
  | none =>
    have hid : id ∉ s.ids := by
      rw [← h.remove_isSome, WildcardTrie.remove, hr]
      simp
    have hsame : s.live.filter (fun x ↦ x.2.sub_id ≠ id) = s.live := by
      refine List.filter_eq_self.mpr fun x hx ↦ ?_
      simpa using fun heq ↦ hid (List.mem_map.mpr ⟨x, hx, heq⟩)
    simp only [WildcardTrie.remove, hr, Option.map_none, hsame]
    exact h
  | some y =>
    simp only [WildcardTrie.remove, hr, Option.map_some]
    exact h.removed hr

theorem Holds.step {a : TrieAction τ σ} (h : Holds s) (hok : Fresh s a)
    (hs : TrieIndex.step s a = some t) : Holds t := by
  cases a with
  | insert pattern entry =>
    cases hs
    exact h.insert pattern hok
  | remove id => exact h.remove hs
  | rehash way =>
    cases hs
    exact ⟨Node.swap_valid way h.valid, (Node.swap_contents way _).trans h.contents, h.nodup,
      h.count⟩

theorem holds_reachable (h : (machine τ σ).Reaches Fresh s) : Holds s := by
  refine Machine.Reaches.invariant ?_ (fun _ _ _ _ hs hok ht ↦ hs.step hok ht) h
  intro s hs
  rw [show s = {} from hs]
  exact holds_initial

end Steps

section Matches

variable [DecidableEq τ] {s : Indexed τ σ}

/-- An entry is found once or not at all. -/
theorem flatMap_hits {topic : Str} (htopic : ∀ t ∈ splitLevels topic, t ≠ ['*'] ∧ t ≠ ['#'])
    (live : List (Str × Entry τ σ)) (msg_type : τ) :
    (live.flatMap fun x ↦ hits msg_type (splitLevels topic) (splitLevels x.1) x.2) =
      scan live topic msg_type := by
  induction live with
  | nil => rfl
  | cons x live ih =>
    rw [List.flatMap_cons, ih, hits, visits_eq htopic]
    by_cases ht : x.2.type = msg_type
    · by_cases hm : levelsMatch (splitLevels x.1) (splitLevels topic) = true
      · simp [scan, ht, hm]
      · simp [scan, hm]
    · simp [scan, ht]

theorem Holds.match_perm (h : Holds s) {topic : Str}
    (htopic : ∀ t ∈ splitLevels topic, t ≠ ['*'] ∧ t ≠ ['#']) (msg_type : τ) :
    (match_ topic msg_type s.snapshot).Perm (scan s.live topic msg_type) := by
  rw [match_]
  split
  · rename_i hcount
    rw [h.count, List.length_eq_zero_iff] at hcount
    rw [hcount]
    exact .nil
  · refine (matchNode_perm h.valid _).trans ?_
    rw [← flatMap_hits htopic]
    refine (h.contents.flatMap_right _).trans ?_
    rw [List.flatMap_map]

end Matches

/-- What a caller can see of the trie is what the list of the live entries says. -/
structure ExactIndex [DecidableEq τ] (s : Indexed τ σ) : Prop where
  count : s.snapshot.entry_count = s.live.length
  removes : ∀ id, (remove id s.snapshot).isSome = true ↔ id ∈ s.ids
  finds : ∀ topic msg_type, (∀ t ∈ splitLevels topic, t ≠ ['*'] ∧ t ≠ ['#']) →
    (match_ topic msg_type s.snapshot).Perm (scan s.live topic msg_type)

theorem exact_index [DecidableEq τ] {s : Indexed τ σ} (h : (machine τ σ).Reaches Fresh s) :
    ExactIndex s :=
  have hs := holds_reachable h
  ⟨hs.count, hs.remove_isSome, fun _ msg_type htopic ↦ hs.match_perm htopic msg_type⟩

instance (s : Indexed τ σ) (a : TrieAction τ σ) : Decidable (Fresh s a) :=
  match a with
  | .insert _ _ => inferInstanceAs (Decidable (_ ∉ s.ids))
  | .remove _ | .rehash _ => .isTrue trivial

def sharedPrefix : List (TrieAction Unit ℕ) :=
  [.insert ['a', '/', '*'] ⟨(), 10, 1⟩, .insert ['a', '/', '#'] ⟨(), 20, 2⟩,
    .insert ['a', '/', '*', '/', 'c'] ⟨(), 30, 3⟩, .rehash [false], .remove 1]

theorem exact_index_sharedPrefix : ∃ s : Indexed Unit ℕ,
    (machine Unit ℕ).runIf Fresh {} sharedPrefix = some s ∧ s.ids = [2, 3] ∧
      match_ ['a', '/', 'b', '/', 'c'] () s.snapshot = [20, 30] ∧ ExactIndex s :=
  ⟨_, rfl, rfl, rfl, exact_index (Machine.Reaches.of_runIf (.start rfl) sharedPrefix rfl)⟩

end LivioArk.Msgbus.TrieIndex
