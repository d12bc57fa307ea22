import LivioArk.Library.PrefixTree
import LivioArk.Msgbus.Levels

namespace LivioArk.Msgbus.WildcardTrie

open LivioArk.Library.PrefixTree Levels

structure Entry (τ σ : Type) where
  type : τ
  slot : σ
  sub_id : ℕ
  deriving Repr, DecidableEq

structure Snapshot (τ σ : Type) where
  root : Node Str (Entry τ σ) := .empty
  entry_count : ℕ := 0
  deriving Repr, DecidableEq

variable {τ σ : Type}

def insert (pattern : Str) (entry : Entry τ σ) (snap : Snapshot τ σ) : Snapshot τ σ where
  root := snap.root.insertAt entry (splitLevels pattern)
  entry_count := snap.entry_count + 1

/-- The entry that is removed, whose slot loses its subscriber, and what is
left. Nothing is published if there is no such entry. -/
def remove (id : ℕ) (snap : Snapshot τ σ) : Option (Entry τ σ × Snapshot τ σ) :=
  (snap.root.removeFrom fun entry ↦ entry.sub_id = id).map fun (entry, root) ↦
    (entry, ⟨root, snap.entry_count - 1⟩)

section Match

variable [DecidableEq τ]

def slotsOf (msg_type : τ) (entries : List (Entry τ σ)) : List σ :=
  (entries.filter fun entry ↦ entry.type = msg_type).map Entry.slot

def matchHash (msg_type : τ) (node : Node Str (Entry τ σ)) : List σ :=
  match node.children.find ['#'] with
  | some child => slotsOf msg_type child.entries
  | none => []

def matchNode (msg_type : τ) : List Str → Node Str (Entry τ σ) → List σ
  | [], node => matchHash msg_type node ++ slotsOf msg_type node.entries
  | level :: levels, node =>
    matchHash msg_type node ++
      (match node.children.find level with
        | some child => matchNode msg_type levels child
        | none => []) ++
      (match node.children.find ['*'] with
        | some child => matchNode msg_type levels child
        | none => [])

def match_ (topic : Str) (msg_type : τ) (snap : Snapshot τ σ) : List σ :=
  if snap.entry_count = 0 then [] else matchNode msg_type (splitLevels topic) snap.root

end Match

def visits : List Str → List Str → ℕ
  | [], [] => 1
  | [], _ :: _ => 0
  | p :: ps, [] => if p = ['#'] ∧ ps = [] then 1 else 0
  | p :: ps, t :: ts =>
    (if p = ['#'] ∧ ps = [] then 1 else 0) + (if p = t then visits ps ts else 0) +
      (if p = ['*'] then visits ps ts else 0)

section Visits

variable [DecidableEq τ] {n : Node Str (Entry τ σ)} {c : Children Str (Entry τ σ)} {msg_type : τ}

def hits (msg_type : τ) (ts path : List Str) (entry : Entry τ σ) : List σ :=
  if entry.type = msg_type then List.replicate (visits path ts) entry.slot else []

def here (msg_type : τ) (path : List Str) (entry : Entry τ σ) : List σ :=
  if entry.type = msg_type ∧ path = [] then [entry.slot] else []

theorem hits_cons (t : Str) (ts : List Str) (x : List Str × Entry τ σ) :
    hits msg_type (t :: ts) x.1 x.2 = under ['#'] (here msg_type) x ++
      under t (hits msg_type ts) x ++ under ['*'] (hits msg_type ts) x := by
  obtain ⟨_ | ⟨p, path⟩, entry⟩ := x
  · simp [hits, under, visits]
  · by_cases ht : entry.type = msg_type
    · simp only [hits, under, here, ht, visits, List.replicate_add, true_and]
      split_ifs <;> simp_all
    · simp [hits, under, here, ht]

theorem hits_nil (x : List Str × Entry τ σ) :
    hits msg_type [] x.1 x.2 = here msg_type x.1 x.2 ++ under ['#'] (here msg_type) x := by
  obtain ⟨_ | ⟨p, path⟩, entry⟩ := x
  · by_cases ht : entry.type = msg_type <;> simp [hits, under, here, visits, ht]
  · by_cases ht : entry.type = msg_type
    · simp only [hits, under, here, ht, visits]
      split_ifs <;> simp_all
    · simp [hits, under, here, ht]

theorem slotsOf_eq_flatMap (entries : List (Entry τ σ)) :
    slotsOf msg_type entries = entries.flatMap (here msg_type []) := by
  induction entries with
  | nil => rfl
  | cons entry entries ih =>
    rw [List.flatMap_cons, ← ih]
    by_cases ht : entry.type = msg_type <;> simp [slotsOf, here, ht]

theorem flatMap_here (n : Node Str (Entry τ σ)) :
    (n.contents.flatMap fun x ↦ here msg_type x.1 x.2) = slotsOf msg_type n.entries := by
  have hchildren : (n.children.contents.flatMap fun x ↦ here msg_type x.1 x.2) = [] := by
    refine List.flatMap_eq_nil_iff.mpr fun x hx ↦ ?_
    simp [here, n.children.path_ne_nil x hx]
  rw [Node.flatMap_contents, hchildren, List.append_nil, slotsOf_eq_flatMap]

theorem matchHash_eq (hn : n.Valid) :
    n.children.contents.flatMap (under ['#'] (here msg_type)) = matchHash msg_type n := by
  rw [Children.flatMap_under hn, matchHash]
  cases n.children.find ['#'] with
  | none => rfl
  | some child => exact flatMap_here child

/-- The walk finds every entry as often as it comes to its node. -/
theorem matchNode_perm (hn : n.Valid) (ts : List Str) :
    (matchNode msg_type ts n).Perm (n.contents.flatMap fun x ↦ hits msg_type ts x.1 x.2) := by
  induction ts generalizing n with
  | nil =>
    have hsum : (n.contents.flatMap fun x ↦ hits msg_type [] x.1 x.2) =
        n.contents.flatMap fun x ↦ here msg_type x.1 x.2 ++ under ['#'] (here msg_type) x := by
      simp only [hits_nil]
    have hunder : n.contents.flatMap (under ['#'] (here msg_type)) = matchHash msg_type n := by
      rw [← matchHash_eq hn, Node.contents, List.flatMap_append, List.flatMap_map]
      simp [under]
    rw [hsum, matchNode]
    apply List.perm_append_comm.trans
    rw [← flatMap_here, ← hunder]
    exact List.flatMap_append_perm _ _ _
  | cons t ts ih =>
    have hbelow : ∀ key, (match n.children.find key with
        | some child => matchNode msg_type ts child
        | none => []).Perm (n.children.contents.flatMap (under key (hits msg_type ts))) := by
      intro key
      rw [Children.flatMap_under hn]
      cases hfind : n.children.find key with
      | none => exact .refl _
      | some child => exact ih (Children.find_valid hn hfind)
    have hsum : (n.contents.flatMap fun x ↦ hits msg_type (t :: ts) x.1 x.2) =
        n.children.contents.flatMap fun x ↦ under ['#'] (here msg_type) x ++
          under t (hits msg_type ts) x ++ under ['*'] (hits msg_type ts) x := by
      have hentries : n.entries.flatMap (hits msg_type (t :: ts) []) = [] := by simp [hits, visits]
      rw [Node.flatMap_contents, hentries, List.nil_append]
      simp only [hits_cons]
    rw [hsum, matchNode, ← matchHash_eq hn]
    refine (((List.Perm.refl _).append (hbelow t)).append (hbelow ['*'])).trans ?_
    refine ((List.flatMap_append_perm _ _ _).append_right _).trans ?_
    exact List.flatMap_append_perm _ _ _

end Visits

/-- For a topic without wildcard levels the three branches of the walk never
meet in a node. -/
theorem visits_eq {ts : List Str} (hts : ∀ t ∈ ts, t ≠ ['*'] ∧ t ≠ ['#']) (ps : List Str) :
    visits ps ts = if levelsMatch ps ts then 1 else 0 := by
  induction ps generalizing ts with
  | nil => cases ts <;> rfl
  | cons p ps ih =>
    cases ts with
    | nil =>
      by_cases hhash : p = ['#'] ∧ ps = [] <;> simp [visits, levelsMatch, hhash]
    | cons t ts =>
      obtain ⟨ht, hts⟩ := List.forall_mem_cons.mp hts
      rw [visits, levelsMatch, ih hts]
      by_cases hhash : p = ['#']
      · subst hhash
        simp [Ne.symm ht.2]
      · by_cases hstar : p = ['*']
        · subst hstar
          simp [Ne.symm ht.1]
        · by_cases hpt : p = t
          · subst hpt
            simp [hhash, hstar]
          · simp [hhash, hstar, hpt]

end LivioArk.Msgbus.WildcardTrie
