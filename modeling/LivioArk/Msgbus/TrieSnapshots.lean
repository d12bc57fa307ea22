import LivioArk.Library.PrefixTreeCopy
import LivioArk.Library.Thinning
import LivioArk.Msgbus.WildcardTrie

namespace LivioArk.Msgbus.WildcardTrie

open LivioArk.Library.PrefixTree LivioArk.Library.Thinning Levels

variable {τ σ : Type}

def cloneNode (src : Node Str (Entry τ σ)) : Node Str (Entry τ σ) := src.copy

def cloneSnapshot (old : Snapshot τ σ) : Snapshot τ σ where
  root := cloneNode old.root
  entry_count := old.entry_count

theorem cloneSnapshot_eq {old : Snapshot τ σ} (h : old.root.Valid) : cloneSnapshot old = old := by
  rw [cloneSnapshot, cloneNode, Node.copy_eq h]

section Removed

variable {msg_type : τ} {P : Entry τ σ → Bool} {entry : Entry τ σ} {n n' : Node Str (Entry τ σ)}

abbrev Without (entry : Entry τ σ) : List σ → List σ → Prop := Thinned fun slot ↦ slot = entry.slot

/-- What a walk finds below a key, if it finds what `walk` finds in the child. -/
def below (walk : Node Str (Entry τ σ) → List σ) (key : Str) (children : Children Str (Entry τ σ)) :
    List σ :=
  match children.find key with
  | some child => walk child
  | none => []

theorem below_removed {walk : Node Str (Entry τ σ) → List σ} {c c' : Children Str (Entry τ σ)}
    (hc : c.Valid) (h : c.removeFrom P = some (entry, c')) (key : Str)
    (hwalk : ∀ n n', n.Valid → n.removeFrom P = some (entry, n') →
      Without entry (walk n) (walk n'))
    (hempty : walk .empty = []) : Without entry (below walk key c) (below walk key c') := by
  cases Children.find_removeFrom hc h key with
  | inl hsame =>
    rw [below, below, hsame]
    exact Thinned.refl _
  | inr hchild =>
    obtain ⟨n, n', hn, hr, hn'⟩ := hchild
    have hthin := hwalk n n' (Children.find_valid hc hn) hr
    cases hn' with
    | inl hkept =>
      simp only [below, hn, hkept]
      exact hthin
    | inr hgone =>
      obtain ⟨hgone, rfl⟩ := hgone
      simp only [below, hn, hgone]
      exact hempty ▸ hthin

variable [DecidableEq τ]

theorem slotsOf_oneMore {entries entries' : List (Entry τ σ)} (h : OneMore entry entries' entries) :
    Without entry (slotsOf msg_type entries) (slotsOf msg_type entries') := by
  obtain ⟨l, r, rfl, rfl⟩ := h
  by_cases hty : entry.type = msg_type
  · simp only [slotsOf, List.filter_append, List.filter_cons, hty, decide_true, if_true,
      List.map_append, List.map_cons]
    exact Thinned.without _ _ rfl
  · simp only [slotsOf, List.filter_append, List.filter_cons, hty, decide_false]
    exact Thinned.refl _

theorem slotsOf_removed (h : n.removeFrom P = some (entry, n')) :
    Without entry (slotsOf msg_type n.entries) (slotsOf msg_type n'.entries) := by
  cases Children.node_removeFrom_cases h with
  | inl htake =>
    obtain ⟨entries, htake, rfl⟩ := htake
    exact slotsOf_oneMore (takeEntry_some htake).2
  | inr hbelow =>
    obtain ⟨children, -, rfl⟩ := hbelow
    exact Thinned.refl _

theorem matchNode_empty (ts : List Str) :
    matchNode msg_type ts (.empty : Node Str (Entry τ σ)) = [] := by
  cases ts <;> rfl

theorem matchHash_removed (hn : n.Valid) (h : n.removeFrom P = some (entry, n')) :
    Without entry (matchHash msg_type n) (matchHash msg_type n') := by
  cases Children.node_removeFrom_cases h with
  | inl htake =>
    obtain ⟨entries, -, rfl⟩ := htake
    exact Thinned.refl _
  | inr hbelow =>
    obtain ⟨children, hc, rfl⟩ := hbelow
    have hslots : ∀ m m' : Node Str (Entry τ σ), m.Valid → m.removeFrom P = some (entry, m') →
        Without entry (slotsOf msg_type m.entries) (slotsOf msg_type m'.entries) :=
      fun _ _ _ hr ↦ slotsOf_removed hr
    exact below_removed hn hc ['#'] hslots rfl

/-- The walk after a removal leaves out nothing but the slot of the entry. -/
theorem matchNode_removed (hn : n.Valid) (h : n.removeFrom P = some (entry, n')) (ts : List Str) :
    Without entry (matchNode msg_type ts n) (matchNode msg_type ts n') := by
  induction ts generalizing n n' with
  | nil => exact (matchHash_removed hn h).append (slotsOf_removed h)
  | cons t ts ih =>
    have hhash : Without entry (matchHash msg_type n) (matchHash msg_type n') :=
      matchHash_removed hn h
    cases Children.node_removeFrom_cases h with
    | inl htake =>
      obtain ⟨entries, -, rfl⟩ := htake
      exact Thinned.refl _
    | inr hbelow =>
      obtain ⟨children, hc, rfl⟩ := hbelow
      have hkey : ∀ key, Without entry (below (matchNode msg_type ts) key n.children)
          (below (matchNode msg_type ts) key children) :=
        fun key ↦ below_removed hn hc key (fun _ _ ↦ ih) (matchNode_empty ts)
      exact (hhash.append (hkey t)).append (hkey ['*'])

theorem match_removed {snap snap' : Snapshot τ σ} {id : ℕ} (hv : snap.root.Valid)
    (hcount : snap.entry_count = snap.root.contents.length)
    (h : remove id snap = some (entry, snap')) (topic : Str) (msg_type : τ) :
    Without entry (match_ topic msg_type snap) (match_ topic msg_type snap') := by
  obtain ⟨⟨removed, root⟩, hr, he⟩ := Option.map_eq_some_iff.mp h
  obtain ⟨rfl, rfl⟩ := Prod.mk.inj he
  obtain ⟨-, path, hmore⟩ := Node.removeFrom_some hr
  have hlen : snap.entry_count = root.contents.length + 1 :=
    hcount.trans hmore.perm.length_eq
  have hthin : Without removed (matchNode msg_type (splitLevels topic) snap.root)
      (matchNode msg_type (splitLevels topic) root) := matchNode_removed hv hr _
  rw [match_, if_neg (by omega), match_]
  split
  · rename_i hzero
    have hleft : snap.entry_count - 1 = 0 := hzero
    have hnil : root.contents = [] := List.length_eq_zero_iff.mp (by omega)
    have hperm : (matchNode msg_type (splitLevels topic) root).Perm
        (root.contents.flatMap fun x ↦ hits msg_type (splitLevels topic) x.1 x.2) :=
      matchNode_perm (Node.removeFrom_valid hv hr) _
    rw [hnil] at hperm
    have hempty : matchNode msg_type (splitLevels topic) root = [] := hperm.eq_nil
    exact hempty ▸ hthin
  · exact hthin

end Removed

end LivioArk.Msgbus.WildcardTrie
