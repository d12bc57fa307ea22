import LivioArk.Library.PrefixTreeNodes
import LivioArk.Msgbus.TrieIndex

namespace LivioArk.Msgbus.TrieRemoval

open LivioArk.Library.Transition LivioArk.Library.PrefixTree Levels WildcardTrie TrieIndex

variable {τ σ : Type} {s t : Indexed τ σ}

/-- Two snapshots with the same nodes, the same entries in the same order in
each, and the same count. The maps of children have no order to compare. -/
structure SameTrie (s t : Snapshot τ σ) : Prop where
  nodes : ∀ path, s.root.entriesAt path = t.root.entriesAt path
  count : s.entry_count = t.entry_count

def rehashed (ways : List (List Bool)) (snap : Snapshot τ σ) : Snapshot τ σ :=
  { snap with root := ways.foldl (fun n way ↦ n.swap way) snap.root }

theorem pruned_reachable (h : (machine τ σ).Reaches Fresh s) : s.snapshot.root.Pruned := by
  refine Machine.Reaches.invariant (P := fun s ↦ s.snapshot.root.Pruned) ?_ ?_ h
  · intro s hs
    rw [show s = {} from hs]
    trivial
  · intro s a t _ hp _ ht
    cases a with
    | insert pattern entry =>
      obtain rfl := Option.some.inj ht
      exact Node.insertAt_pruned entry _ hp
    | remove id =>
      obtain rfl := Option.some.inj ht
      cases hr : s.snapshot.root.removeFrom (fun entry ↦ entry.sub_id = id) with
      | none =>
        simp only [WildcardTrie.remove, hr, Option.map_none]
        exact hp
      | some removed =>
        simp only [WildcardTrie.remove, hr, Option.map_some]
        exact Node.removeFrom_pruned hp hr
    | rehash way =>
      obtain rfl := Option.some.inj ht
      exact Node.swap_pruned way hp

theorem mem_ids_of_contents (h : Holds s) {path : List Str} {entry : Entry τ σ}
    (hmem : (path, entry) ∈ s.snapshot.root.contents) : entry.sub_id ∈ s.ids := by
  rw [h.ids_perm.mem_iff]
  exact List.mem_map.mpr ⟨_, hmem, rfl⟩

section Rehash

variable {snap : Snapshot τ σ}

theorem rehashed_spec (ways : List (List Bool)) (hv : snap.root.Valid) (hp : snap.root.Pruned) :
    (rehashed ways snap).root.Valid ∧ (rehashed ways snap).root.Pruned ∧
      (rehashed ways snap).root.contents.Perm snap.root.contents ∧
      ∀ path, Node.listAt path (rehashed ways snap).root.contents =
        Node.listAt path snap.root.contents := by
  induction ways generalizing snap with
  | nil => exact ⟨hv, hp, .refl _, fun _ ↦ rfl⟩
  | cons way ways ih =>
    obtain ⟨hv', hp', hperm, hlist⟩ :=
      @ih { snap with root := snap.root.swap way } (Node.swap_valid way hv)
        (Node.swap_pruned way hp)
    refine ⟨hv', hp', hperm.trans (Node.swap_contents way _), fun path ↦ ?_⟩
    exact (hlist path).trans (Node.listAt_swap way hv path)

end Rehash

section Removal

theorem listAt_removed {root root' : Node Str (Entry τ σ)} {id : ℕ} {entry : Entry τ σ}
    (hr : root.removeFrom (fun entry ↦ entry.sub_id = id) = some (entry, root'))
    (hother : ∀ x ∈ root'.contents, x.2.sub_id ≠ id) (path : List Str) :
    Node.listAt path root'.contents =
      (Node.listAt path root.contents).filter fun entry ↦ entry.sub_id ≠ id := by
  obtain ⟨hid, path', hmore⟩ := Node.removeFrom_some hr
  apply Node.listAt_oneMore hmore
  · simpa using hid
  · intro x hx
    simpa using hother x hx

theorem others_of_removed (h : Holds s) {id : ℕ} {entry : Entry τ σ} {root : Node Str (Entry τ σ)}
    (hr : s.snapshot.root.removeFrom (fun entry ↦ entry.sub_id = id) = some (entry, root)) :
    ∀ x ∈ root.contents, x.2.sub_id ≠ id := by
  intro x hx
  have hmem : (x.1, x.2) ∈ root.contents := hx
  have hremoved := mem_ids_of_contents (h.removed hr) hmem
  obtain ⟨y, hy, hid⟩ := List.mem_map.mp hremoved
  have hne : y.2.sub_id ≠ id := by simpa using (List.mem_filter.mp hy).2
  exact hid ▸ hne

theorem insert_remove (h : Holds s) (hp : s.snapshot.root.Pruned) (pattern : Str)
    {entry : Entry τ σ} (hfresh : entry.sub_id ∉ s.ids) (ways : List (List Bool)) :
    ∃ snap, remove entry.sub_id (rehashed ways (insert pattern entry s.snapshot)) =
        some (entry, snap) ∧ SameTrie snap s.snapshot := by
  have hmore := Node.insertAt_contents entry (splitLevels pattern) s.snapshot.root
  obtain ⟨hv, hpruned, hperm, hlist⟩ := rehashed_spec ways
    (h.insert pattern hfresh).valid (Node.insertAt_pruned entry (splitLevels pattern) hp)
  have hin := hperm.trans hmore.perm
  have hold : ∀ x ∈ s.snapshot.root.contents, x.2.sub_id ≠ entry.sub_id :=
    fun x hx heq ↦ hfresh (heq ▸ mem_ids_of_contents h hx)
  cases hr : (rehashed ways (insert pattern entry s.snapshot)).root.removeFrom
      (fun e ↦ e.sub_id = entry.sub_id) with
  | none =>
    have hnot := Node.removeFrom_none hr _ (hin.mem_iff.mpr List.mem_cons_self)
    simp at hnot
  | some removed =>
    obtain ⟨removed, root⟩ := removed
    obtain ⟨hid, path, hless⟩ := Node.removeFrom_some hr
    have hid : removed.sub_id = entry.sub_id := by simpa using hid
    -- no other entry has the id
    have hsame : (path, removed) = (splitLevels pattern, entry) := by
      have hmem := hin.mem_iff.mp (hless.perm.mem_iff.mpr List.mem_cons_self)
      cases List.mem_cons.mp hmem with
      | inl heq => exact heq
      | inr hmem => exact absurd hid (hold _ hmem)
    have hrest : root.contents.Perm s.snapshot.root.contents := by
      have hcons := hless.perm.symm.trans hin
      rw [hsame] at hcons
      exact hcons.cons_inv
    have hat : ∀ path, Node.listAt path root.contents =
        Node.listAt path s.snapshot.root.contents := by
      intro path
      rw [listAt_removed hr (fun x hx ↦ hold x (hrest.mem_iff.mp hx)), hlist]
      refine (Node.listAt_oneMore hmore ?_ ?_).symm
      · simp
      · intro x hx
        simpa using hold x hx
    have hentry : removed = entry := congrArg Prod.snd hsame
    refine ⟨⟨root, s.snapshot.entry_count⟩, ?_, ?_, rfl⟩
    · rw [remove, hr, hentry]
      rfl
    · exact Node.entriesAt_ext (Node.removeFrom_valid hv hr) (Node.removeFrom_pruned hpruned hr)
        h.valid hp hat

/-- A removal takes one entry from its path and leaves the order of the others. -/
theorem remove_live (h : Holds s) {id : ℕ} (hid : id ∈ s.ids) :
    ∃ entry snap, remove id s.snapshot = some (entry, snap) ∧
      ∀ path, (snap.root.entriesAt path).getD [] =
        ((s.snapshot.root.entriesAt path).getD []).filter fun entry ↦ entry.sub_id ≠ id := by
  cases hr : s.snapshot.root.removeFrom (fun entry ↦ entry.sub_id = id) with
  | none =>
    have hsome := (h.remove_isSome id).mpr hid
    rw [remove, hr] at hsome
    cases hsome
  | some removed =>
    obtain ⟨entry, root⟩ := removed
    refine ⟨entry, ⟨root, s.snapshot.entry_count - 1⟩, by rw [remove, hr]; rfl, ?_⟩
    intro path
    rw [← Node.listAt_contents (Node.removeFrom_valid h.valid hr), ← Node.listAt_contents h.valid]
    exact listAt_removed hr (others_of_removed h hr) path

end Removal

/-- Every node but the root has an entry or a child, and a leaf has the entry
of a live subscription. -/
theorem occupied_of_nodeAt (h : Holds s) (hp : s.snapshot.root.Pruned) {path : List Str}
    (hpath : path ≠ []) {n : Node Str (Entry τ σ)} (hn : s.snapshot.root.nodeAt path = some n) :
    (n.entries ≠ [] ∨ n.children ≠ .nil) ∧
      (n.children = .nil → ∃ entry ∈ n.entries, entry.sub_id ∈ s.ids) := by
  have hoccupied := (Node.nodeAt_pruned hp hn).2 hpath
  refine ⟨hoccupied, ?_⟩
  intro hleaf
  cases hoccupied with
  | inr hchildren => exact absurd hleaf hchildren
  | inl hentries =>
    obtain ⟨entry, hentry⟩ := List.exists_mem_of_ne_nil _ hentries
    refine ⟨entry, hentry, ?_⟩
    have hat : entry ∈ (s.snapshot.root.entriesAt path).getD [] := by
      rw [Node.entriesAt, hn]
      exact hentry
    rw [← Node.listAt_contents h.valid, Node.mem_listAt] at hat
    exact mem_ids_of_contents h hat

/-- No node is superfluous, a removal undoes the insertion of a new entry, and
a removal leaves the other entries where they are. -/
structure Tidy (s : Indexed τ σ) : Prop where
  minimal : ∀ path n, path ≠ [] → s.snapshot.root.nodeAt path = some n →
    (n.entries ≠ [] ∨ n.children ≠ .nil) ∧
      (n.children = .nil → ∃ entry ∈ n.entries, entry.sub_id ∈ s.ids)
  undo : ∀ pattern entry ways, entry.sub_id ∉ s.ids → ∃ snap,
    remove entry.sub_id (rehashed ways (insert pattern entry s.snapshot)) = some (entry, snap) ∧
      SameTrie snap s.snapshot
  removal : ∀ id ∈ s.ids, ∃ entry snap, remove id s.snapshot = some (entry, snap) ∧
    ∀ path, (snap.root.entriesAt path).getD [] =
      ((s.snapshot.root.entriesAt path).getD []).filter fun entry ↦ entry.sub_id ≠ id

theorem tidy_reachable (h : (machine τ σ).Reaches Fresh s) : Tidy s := by
  have hs := holds_reachable h
  have hp := pruned_reachable h
  constructor
  · intro path n hpath hn
    exact occupied_of_nodeAt hs hp hpath hn
  · intro pattern entry ways hfresh
    exact insert_remove hs hp pattern hfresh ways
  · intro id hid
    exact remove_live hs hid

theorem tidy_sharedPrefix : ∃ s : Indexed Unit ℕ,
    (machine Unit ℕ).runIf Fresh {} sharedPrefix = some s ∧ s.ids = [2, 3] ∧ Tidy s :=
  ⟨_, rfl, rfl, tidy_reachable (Machine.Reaches.of_runIf (.start rfl) sharedPrefix rfl)⟩

end LivioArk.Msgbus.TrieRemoval
