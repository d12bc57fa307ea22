import LivioArk.Library.PrefixTree

namespace LivioArk.Library.PrefixTree

variable {κ ε : Type*}

/-- No child is there for nothing: it has an entry or a child of its own. -/
def Children.Pruned : Children κ ε → Prop
  | .nil => True
  | .cons _ entries children rest =>
    (entries ≠ [] ∨ children ≠ .nil) ∧ children.Pruned ∧ rest.Pruned

def Node.Pruned (n : Node κ ε) : Prop := n.children.Pruned

def Node.Occupied (n : Node κ ε) : Prop := n.entries ≠ [] ∨ n.children ≠ .nil

namespace Children

variable {c c' : Children κ ε} {n : Node κ ε} {P : ε → Bool} {e : ε} {key k : κ}

theorem keep_pruned (hn : n.Pruned) (hc : c.Pruned) : (keep key n c).Pruned := by
  obtain ⟨_ | ⟨e, es⟩, _ | ⟨k, es', cs, r⟩⟩ := n
  · exact hc
  · exact ⟨.inr (by simp), hn, hc⟩
  · exact ⟨.inl (by simp), hn, hc⟩
  · exact ⟨.inl (by simp), hn, hc⟩

theorem removeFrom_pruned (hc : c.Pruned) (h : c.removeFrom P = some (e, c')) : c'.Pruned := by
  induction c generalizing c' with
  | nil => cases h
  | cons key entries children rest ihc ihr =>
    obtain ⟨hoccupied, hpc, hpr⟩ := hc
    cases removeFrom_cases h with
    | inl hnode =>
      obtain ⟨n, hn, rfl⟩ := hnode
      apply keep_pruned _ hpr
      cases node_removeFrom_cases hn with
      | inl htake =>
        obtain ⟨entries', -, rfl⟩ := htake
        exact hpc
      | inr hbelow =>
        obtain ⟨children', hchildren, rfl⟩ := hbelow
        exact ihc hpc hchildren
    | inr hrest =>
      obtain ⟨rest', hr, rfl⟩ := hrest
      exact ⟨hoccupied, hpc, ihr hpr hr⟩

theorem swap_ne_nil (way : List Bool) (hc : c ≠ .nil) : c.swap way ≠ .nil := by
  induction way, c using swap.induct with
  | case1 k es cs k' es' cs' rest => simp [swap]
  | case2 way k es cs rest ih => simp [swap]
  | case3 way k es cs rest ih => simp [swap]
  | case4 way c h₁ h₂ h₃ =>
    rw [swap.eq_4 way c h₁ h₂ h₃]
    exact hc

theorem swap_pruned (way : List Bool) (hc : c.Pruned) : (c.swap way).Pruned := by
  induction way, c using swap.induct with
  | case1 k es cs k' es' cs' rest =>
    obtain ⟨hk, hcs, hk', hcs', hrest⟩ := hc
    exact ⟨hk', hcs', hk, hcs, hrest⟩
  | case2 way k es cs rest ih =>
    obtain ⟨hk, hcs, hrest⟩ := hc
    exact ⟨hk, hcs, ih hrest⟩
  | case3 way k es cs rest ih =>
    obtain ⟨hk, hcs, hrest⟩ := hc
    exact ⟨hk.imp_right (swap_ne_nil way), ih hcs, hrest⟩
  | case4 way c h₁ h₂ h₃ =>
    rw [swap.eq_4 way c h₁ h₂ h₃]
    exact hc

theorem contents_ne_nil (hc : c.Pruned) (hne : c ≠ .nil) : c.contents ≠ [] := by
  induction c with
  | nil => exact absurd rfl hne
  | cons key entries children rest ihc ihr =>
    obtain ⟨hoccupied, hpc, -⟩ := hc
    intro hnil
    simp only [contents, List.append_eq_nil_iff, List.map_eq_nil_iff] at hnil
    cases hoccupied with
    | inl hentries => exact hentries hnil.1.1
    | inr hchildren => exact ihc hpc hchildren hnil.1.2

section Lookup

variable [DecidableEq κ] {f : Node κ ε → Node κ ε}

theorem upsert_ne_nil (c : Children κ ε) : c.upsert key f ≠ .nil := by
  cases c with
  | nil => simp [upsert]
  | cons key' entries children rest =>
    unfold upsert
    split <;> simp

theorem upsert_pruned (hf : ∀ n : Node κ ε, n.Pruned → (f n).Pruned ∧ (f n).Occupied)
    (hc : c.Pruned) : (c.upsert key f).Pruned := by
  induction c with
  | nil =>
    obtain ⟨hp, ho⟩ := hf .empty trivial
    exact ⟨ho, hp, trivial⟩
  | cons key' entries children rest ihc ihr =>
    obtain ⟨hoccupied, hpc, hpr⟩ := hc
    by_cases hk : key' = key
    · rw [upsert, if_pos hk]
      obtain ⟨hp, ho⟩ := hf ⟨entries, children⟩ hpc
      exact ⟨ho, hp, hpr⟩
    · rw [upsert, if_neg hk]
      exact ⟨hoccupied, hpc, ihr hpr⟩

theorem find_pruned (hc : c.Pruned) (h : c.find k = some n) : n.Pruned ∧ n.Occupied := by
  induction c with
  | nil => cases h
  | cons key entries children rest ihc ihr =>
    obtain ⟨hoccupied, hpc, hpr⟩ := hc
    by_cases hk : key = k
    · rw [find, if_pos hk, Option.some.injEq] at h
      subst h
      exact ⟨hpc, hoccupied⟩
    · rw [find, if_neg hk] at h
      exact ihr hpr h

theorem mem_contents_iff (hc : c.Valid) {path : List κ} :
    (k :: path, e) ∈ c.contents ↔ ∃ n, c.find k = some n ∧ (path, e) ∈ n.contents := by
  have hunder := flatMap_under hc k fun path e ↦ [(path, e)]
  have hmem : (k :: path, e) ∈ c.contents ↔
      (path, e) ∈ c.contents.flatMap (under k fun path e ↦ [(path, e)]) := by
    rw [List.mem_flatMap]
    constructor
    · intro h
      exact ⟨_, h, by simp [under]⟩
    · intro h
      obtain ⟨⟨path', e'⟩, hx, hu⟩ := h
      cases path' with
      | nil => simp [under] at hu
      | cons k' path' =>
        by_cases hk : k' = k
        · simp only [under, hk, if_true, List.mem_singleton, Prod.mk.injEq] at hu
          obtain ⟨rfl, rfl⟩ := hu
          rwa [hk] at hx
        · simp [under, hk] at hu
  rw [hmem, hunder]
  cases c.find k with
  | none => simp
  | some n => simp

end Lookup

end Children

namespace Node

variable {n n' : Node κ ε} {P : ε → Bool} {e : ε}

theorem removeFrom_pruned (hn : n.Pruned) (h : n.removeFrom P = some (e, n')) : n'.Pruned := by
  cases Children.node_removeFrom_cases h with
  | inl htake =>
    obtain ⟨entries, -, rfl⟩ := htake
    exact hn
  | inr hbelow =>
    obtain ⟨children, hc, rfl⟩ := hbelow
    exact Children.removeFrom_pruned hn hc

theorem swap_pruned (way : List Bool) (hn : n.Pruned) : (n.swap way).Pruned :=
  Children.swap_pruned way hn

variable [DecidableEq κ]

theorem insertAt_occupied (e : ε) (path : List κ) (n : Node κ ε) :
    (insertAt e path n).Occupied := by
  cases path with
  | nil => exact .inl (by simp [insertAt])
  | cons k path => exact .inr (Children.upsert_ne_nil n.children)

theorem insertAt_pruned (e : ε) (path : List κ) (hn : n.Pruned) : (insertAt e path n).Pruned := by
  induction path generalizing n with
  | nil => exact hn
  | cons k path ih =>
    exact Children.upsert_pruned (fun n hn ↦ ⟨ih hn, insertAt_occupied e path n⟩) hn

def nodeAt : List κ → Node κ ε → Option (Node κ ε)
  | [], n => some n
  | k :: path, n => (n.children.find k).bind (nodeAt path)

/-- A tree as a map from the paths of its nodes to their entries: the order of
the children does not show. -/
def entriesAt (path : List κ) (n : Node κ ε) : Option (List ε) := (n.nodeAt path).map Node.entries

theorem nodeAt_pruned (hn : n.Pruned) {path : List κ} {m : Node κ ε}
    (h : n.nodeAt path = some m) : m.Pruned ∧ (path ≠ [] → m.Occupied) := by
  induction path generalizing n with
  | nil =>
    obtain rfl := Option.some.inj h
    exact ⟨hn, fun hne ↦ absurd rfl hne⟩
  | cons k path ih =>
    rw [nodeAt, Option.bind_eq_some_iff] at h
    obtain ⟨child, hfind, hat⟩ := h
    obtain ⟨hp, ho⟩ := Children.find_pruned hn hfind
    obtain ⟨hmp, hmo⟩ := ih hp hat
    refine ⟨hmp, fun _ ↦ ?_⟩
    cases path with
    | nil =>
      obtain rfl := Option.some.inj hat
      exact ho
    | cons k' path => exact hmo (List.cons_ne_nil _ _)

/-- The entries of a list of paths with entries that are at one path. -/
def listAt (path : List κ) (l : List (List κ × ε)) : List ε :=
  l.flatMap fun x ↦ if x.1 = path then [x.2] else []

theorem mem_listAt {path : List κ} {l : List (List κ × ε)} : e ∈ listAt path l ↔ (path, e) ∈ l := by
  simp only [listAt, List.mem_flatMap, Prod.exists]
  constructor
  · intro h
    obtain ⟨p, e', hmem, he⟩ := h
    by_cases hp : p = path
    · rw [if_pos hp, List.mem_singleton] at he
      rwa [he, ← hp]
    · rw [if_neg hp] at he
      cases he
  · intro h
    exact ⟨path, e, h, by simp⟩

theorem listAt_append (path : List κ) (l l' : List (List κ × ε)) :
    listAt path (l ++ l') = listAt path l ++ listAt path l' := List.flatMap_append

theorem listAt_eq_nil {path : List κ} {l : List (List κ × ε)} (h : ∀ x ∈ l, x.1 ≠ path) :
    listAt path l = [] := by
  rw [listAt, List.flatMap_eq_nil_iff]
  intro x hx
  rw [if_neg (h x hx)]

theorem listAt_below (k : κ) (path : List κ) (l : List (List κ × ε)) :
    listAt (k :: path) (l.map fun x ↦ (k :: x.1, x.2)) = listAt path l := by
  rw [listAt, List.flatMap_map]
  simp [listAt]

theorem listAt_elsewhere {k : κ} {path : List κ} (h : path.head? ≠ some k)
    (l : List (List κ × ε)) : listAt path (l.map fun x ↦ (k :: x.1, x.2)) = [] := by
  apply listAt_eq_nil
  intro x hx heq
  obtain ⟨y, -, rfl⟩ := List.mem_map.mp hx
  rw [← heq, List.head?_cons] at h
  exact h rfl

/-- One entry is left out, and it is the only one that does not satisfy `Q`. -/
theorem listAt_oneMore {path path' : List κ} {l l' : List (List κ × ε)} {Q : ε → Bool}
    (h : OneMore (path', e) l l') (he : Q e = false) (hl : ∀ x ∈ l, Q x.2 = true) :
    listAt path l = (listAt path l').filter Q := by
  have hall : ∀ e ∈ listAt path l, Q e = true := fun e he ↦ hl _ (mem_listAt.mp he)
  obtain ⟨left, right, rfl, rfl⟩ := h
  rw [listAt_append] at hall
  have hcons : listAt path ((path', e) :: right) =
      (if path' = path then [e] else []) ++ listAt path right := rfl
  rw [listAt_append, listAt_append, hcons, List.filter_append, List.filter_append,
    List.filter_eq_self.mpr fun e he ↦ hall e (List.mem_append_left _ he),
    List.filter_eq_self.mpr fun e he ↦ hall e (List.mem_append_right _ he)]
  by_cases hp : path' = path
  · simp [hp, he]
  · simp [hp]

theorem listAt_contents (hn : n.Valid) (path : List κ) :
    listAt path n.contents = (n.entriesAt path).getD [] := by
  induction path generalizing n with
  | nil =>
    have hentries : listAt [] (n.entries.map fun e ↦ (([] : List κ), e)) = n.entries := by
      rw [listAt, List.flatMap_map]
      simp
    rw [contents, listAt_append, hentries, listAt_eq_nil n.children.path_ne_nil, List.append_nil]
    rfl
  | cons k path ih =>
    have hhere : listAt (k :: path) (n.entries.map fun e ↦ (([] : List κ), e)) = [] := by
      apply listAt_eq_nil
      intro x hx
      obtain ⟨e, -, rfl⟩ := List.mem_map.mp hx
      simp
    have hbelow : listAt (k :: path) n.children.contents = n.children.contents.flatMap
        (under k fun path' e ↦ if path' = path then [e] else []) := by
      unfold listAt
      congr 1
      funext x
      obtain ⟨_ | ⟨k', path'⟩, e⟩ := x
      · simp [under]
      · by_cases hk : k' = k
        · simp [under, hk]
        · simp [under, hk]
    rw [contents, listAt_append, hhere, List.nil_append, hbelow, Children.flatMap_under hn]
    simp only [entriesAt, nodeAt]
    cases hfind : n.children.find k with
    | none => rfl
    | some child => exact ih (Children.find_valid hn hfind)

/-- The nodes of a pruned tree are the root and what lies on the way to an
entry. -/
theorem entriesAt_isSome (hv : n.Valid) (hp : n.Pruned) (path : List κ) :
    (n.entriesAt path).isSome = true ↔ path = [] ∨ ∃ x ∈ n.contents, path <+: x.1 := by
  induction path generalizing n with
  | nil => simp [entriesAt, nodeAt]
  | cons k path ih =>
    have hmem : (∃ x ∈ n.contents, k :: path <+: x.1) ↔
        ∃ child, n.children.find k = some child ∧ ∃ y ∈ child.contents, path <+: y.1 := by
      constructor
      · intro h
        obtain ⟨⟨path', e⟩, hx, tail, rfl⟩ := h
        rw [contents, List.mem_append] at hx
        cases hx with
        | inl hx => simp at hx
        | inr hx =>
          obtain ⟨child, hfind, hy⟩ := (Children.mem_contents_iff hv).mp hx
          exact ⟨child, hfind, _, hy, tail, rfl⟩
      · intro h
        obtain ⟨child, hfind, y, hy, tail, htail⟩ := h
        refine ⟨(k :: y.1, y.2), ?_, tail, by rw [← htail]; rfl⟩
        rw [contents, List.mem_append]
        exact .inr ((Children.mem_contents_iff hv).mpr ⟨child, hfind, hy⟩)
    rw [hmem]
    simp only [entriesAt, nodeAt, List.cons_ne_nil, false_or]
    cases hfind : n.children.find k with
    | none => simp
    | some child =>
      obtain ⟨hcp, hco⟩ := Children.find_pruned hp hfind
      have hchild := ih (Children.find_valid hv hfind) hcp
      simp only [entriesAt] at hchild
      rw [Option.bind_some, hchild]
      constructor
      · intro h
        refine ⟨child, rfl, ?_⟩
        cases h with
        | inl hnil =>
          -- an occupied child has an entry somewhere
          have hne : child.contents ≠ [] := by
            intro hcontents
            rw [contents, List.append_eq_nil_iff, List.map_eq_nil_iff] at hcontents
            cases hco with
            | inl hentries => exact hentries hcontents.1
            | inr hchildren => exact Children.contents_ne_nil hcp hchildren hcontents.2
          obtain ⟨y, hy⟩ := List.exists_mem_of_ne_nil _ hne
          exact ⟨y, hy, hnil ▸ List.nil_prefix⟩
        | inr h => exact h
      · intro h
        obtain ⟨child', heq, h⟩ := h
        obtain rfl := Option.some.inj heq
        exact .inr h

/-- Two pruned trees with the same entries at each path are the same map. -/
theorem entriesAt_ext (hv : n.Valid) (hp : n.Pruned) (hv' : n'.Valid) (hp' : n'.Pruned)
    (h : ∀ path, listAt path n.contents = listAt path n'.contents) (path : List κ) :
    n.entriesAt path = n'.entriesAt path := by
  have hmem : ∀ x, x ∈ n.contents ↔ x ∈ n'.contents := by
    intro x
    have hx : x.2 ∈ listAt x.1 n.contents ↔ x.2 ∈ listAt x.1 n'.contents := by rw [h]
    rwa [mem_listAt, mem_listAt] at hx
  have hsome : (n.entriesAt path).isSome = true ↔ (n'.entriesAt path).isSome = true := by
    rw [entriesAt_isSome hv hp, entriesAt_isSome hv' hp']
    simp only [hmem]
  have hget : (n.entriesAt path).getD [] = (n'.entriesAt path).getD [] := by
    rw [← listAt_contents hv, ← listAt_contents hv', h]
  cases hn : n.entriesAt path with
  | none =>
    cases hn' : n'.entriesAt path with
    | none => rfl
    | some l => simp [hn, hn'] at hsome
  | some l =>
    cases hn' : n'.entriesAt path with
    | none => simp [hn, hn'] at hsome
    | some l' => simpa [hn, hn'] using hget

end Node

namespace Children

variable [DecidableEq κ] {c : Children κ ε}

theorem listAt_swap (way : List Bool) (hc : c.Valid) (path : List κ) :
    Node.listAt path (c.swap way).contents = Node.listAt path c.contents := by
  induction way, c using swap.induct generalizing path with
  | case1 k es cs k' es' cs' rest =>
    obtain ⟨hk, -, -⟩ := hc
    rw [keys, List.mem_cons, not_or] at hk
    simp only [swap, contents_cons, Node.listAt_append, ← List.append_assoc]
    congr 1
    -- a path begins with one of the two keys at most
    by_cases hhead : path.head? = some k
    · have hother : path.head? ≠ some k' := by
        rw [hhead]
        exact fun heq ↦ hk.1 (Option.some.inj heq)
      rw [Node.listAt_elsewhere hother, List.nil_append, List.append_nil]
    · rw [Node.listAt_elsewhere hhead, List.nil_append, List.append_nil]
  | case2 way k es cs rest ih =>
    obtain ⟨-, -, hrest⟩ := hc
    simp only [swap, contents_cons, Node.listAt_append, ih hrest]
  | case3 way k es cs rest ih =>
    obtain ⟨-, hcs, -⟩ := hc
    have hbelow : ∀ path, Node.listAt path (((cs.swap way).contents.map fun x ↦ (k :: x.1, x.2))) =
        Node.listAt path (cs.contents.map fun x ↦ (k :: x.1, x.2)) := by
      intro path
      by_cases hhead : path.head? = some k
      · obtain ⟨path', rfl⟩ := List.head?_eq_some_iff.mp hhead
        rw [Node.listAt_below, Node.listAt_below, ih hcs]
      · rw [Node.listAt_elsewhere hhead, Node.listAt_elsewhere hhead]
    simp only [swap, contents, Node.listAt_append, hbelow]
  | case4 way c h₁ h₂ h₃ => rw [swap.eq_4 way c h₁ h₂ h₃]

end Children

theorem Node.listAt_swap [DecidableEq κ] {n : Node κ ε} (way : List Bool) (hn : n.Valid)
    (path : List κ) : listAt path (n.swap way).contents = listAt path n.contents := by
  rw [contents, contents, listAt_append, listAt_append]
  exact congrArg _ (Children.listAt_swap way hn path)

end LivioArk.Library.PrefixTree
