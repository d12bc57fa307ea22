import Mathlib.Data.List.Perm.Basic

namespace LivioArk.Library.PrefixTree

/-- The children of a node under their keys, in the order in which the map is
gone through. A child is written as its entries and its own children. -/
inductive Children (κ ε : Type*) where
  | nil
  | cons (key : κ) (entries : List ε) (children rest : Children κ ε)
  deriving Repr, DecidableEq

structure Node (κ ε : Type*) where
  entries : List ε
  children : Children κ ε
  deriving Repr, DecidableEq

variable {κ ε β : Type*}

def Node.empty : Node κ ε := ⟨[], .nil⟩

def takeEntry (P : ε → Bool) (entries : List ε) : Option (ε × List ε) :=
  (entries.find? P).map fun e ↦ (e, entries.eraseP P)

namespace Children

def keys : Children κ ε → List κ
  | nil => []
  | cons key _ _ rest => key :: rest.keys

/-- A map has one child under a key. -/
def Valid : Children κ ε → Prop
  | nil => True
  | cons key _ children rest => key ∉ rest.keys ∧ children.Valid ∧ rest.Valid

def contents : Children κ ε → List (List κ × ε)
  | nil => []
  | cons key entries children rest =>
    (entries.map fun e ↦ ([key], e)) ++ (children.contents.map fun x ↦ (key :: x.1, x.2)) ++
      rest.contents

def find [DecidableEq κ] (k : κ) : Children κ ε → Option (Node κ ε)
  | nil => none
  | cons key entries children rest => if key = k then some ⟨entries, children⟩ else rest.find k

/-- Change the child under a key, which is made first if there is none. -/
def upsert [DecidableEq κ] (k : κ) (f : Node κ ε → Node κ ε) : Children κ ε → Children κ ε
  | nil => cons k (f .empty).entries (f .empty).children nil
  | cons key entries children rest =>
    if key = k then cons key (f ⟨entries, children⟩).entries (f ⟨entries, children⟩).children rest
    else cons key entries children (rest.upsert k f)

/-- A child that has neither entries nor children is not kept. -/
def keep (key : κ) : Node κ ε → Children κ ε → Children κ ε
  | ⟨[], nil⟩, rest => rest
  | ⟨entries, children⟩, rest => cons key entries children rest

def removeFrom (P : ε → Bool) : Children κ ε → Option (ε × Children κ ε)
  | nil => none
  | cons key entries children rest =>
    let child : Option (ε × Node κ ε) := match takeEntry P entries with
      | some (e, entries') => some (e, ⟨entries', children⟩)
      | none => (children.removeFrom P).map fun (e, children') ↦ (e, ⟨entries, children'⟩)
    match child with
    | some (e, n) => some (e, keep key n rest)
    | none => (rest.removeFrom P).map fun (e, rest') ↦ (e, cons key entries children rest')

/-- Exchange two neighbours: `true` goes on to the next child, `false` into
the children of this one. -/
def swap : List Bool → Children κ ε → Children κ ε
  | [], cons k es cs (cons k' es' cs' rest) => cons k' es' cs' (cons k es cs rest)
  | true :: way, cons k es cs rest => cons k es cs (rest.swap way)
  | false :: way, cons k es cs rest => cons k es (cs.swap way) rest
  | _, c => c

end Children

def under [DecidableEq κ] (k : κ) (f : List κ → ε → List β) (x : List κ × ε) : List β :=
  match x.1 with
  | [] => []
  | k' :: path => if k' = k then f path x.2 else []

namespace Node

def Valid (n : Node κ ε) : Prop := n.children.Valid

def contents (n : Node κ ε) : List (List κ × ε) :=
  (n.entries.map fun e ↦ ([], e)) ++ n.children.contents

def insertAt [DecidableEq κ] (e : ε) : List κ → Node κ ε → Node κ ε
  | [], n => { n with entries := n.entries ++ [e] }
  | k :: ks, n => { n with children := n.children.upsert k (insertAt e ks) }

def removeFrom (P : ε → Bool) (n : Node κ ε) : Option (ε × Node κ ε) :=
  match takeEntry P n.entries with
  | some (e, entries) => some (e, { n with entries })
  | none => (n.children.removeFrom P).map fun (e, children) ↦ (e, { n with children })

def swap (way : List Bool) (n : Node κ ε) : Node κ ε := { n with children := n.children.swap way }

end Node

/-- `t` has one more entry than `s`, in some place. -/
def OneMore {α : Type*} (x : α) (s t : List α) : Prop := ∃ l r, s = l ++ r ∧ t = l ++ x :: r

namespace OneMore

variable {α : Type*} {x : α} {s t : List α}

theorem perm (h : OneMore x s t) : t.Perm (x :: s) := by
  obtain ⟨l, r, rfl, rfl⟩ := h
  exact List.perm_middle

theorem append_left (h : OneMore x s t) (u : List α) : OneMore x (u ++ s) (u ++ t) := by
  obtain ⟨l, r, rfl, rfl⟩ := h
  exact ⟨u ++ l, r, by simp, by simp⟩

theorem append_right (h : OneMore x s t) (u : List α) : OneMore x (s ++ u) (t ++ u) := by
  obtain ⟨l, r, rfl, rfl⟩ := h
  exact ⟨l, r ++ u, by simp, by simp⟩

theorem map {β : Type*} (f : α → β) (h : OneMore x s t) : OneMore (f x) (s.map f) (t.map f) := by
  obtain ⟨l, r, rfl, rfl⟩ := h
  exact ⟨l.map f, r.map f, by simp, by simp⟩

theorem last (x : α) (s : List α) : OneMore x s (s ++ [x]) := ⟨s, [], by simp, rfl⟩

end OneMore

theorem takeEntry_some {P : ε → Bool} {entries entries' : List ε} {e : ε}
    (h : takeEntry P entries = some (e, entries')) : P e = true ∧ OneMore e entries' entries := by
  simp only [takeEntry, Option.map_eq_some_iff, Prod.mk.injEq] at h
  obtain ⟨_, hfind, rfl, rfl⟩ := h
  obtain ⟨hP, l, r, rfl, hl⟩ := List.find?_eq_some_iff_append.mp hfind
  refine ⟨hP, l, r, ?_, rfl⟩
  rw [List.eraseP_append_right _ (by simpa using hl), List.eraseP_cons_of_pos hP]

theorem takeEntry_none {P : ε → Bool} {entries : List ε} (h : takeEntry P entries = none) :
    ∀ e ∈ entries, P e = false := by
  simpa [takeEntry] using h

namespace Children

variable {P : ε → Bool} {c c' : Children κ ε} {e : ε} {key k : κ} {n : Node κ ε}

theorem contents_keep (key : κ) (n : Node κ ε) (rest : Children κ ε) :
    (keep key n rest).contents = (n.contents.map fun x ↦ (key :: x.1, x.2)) ++ rest.contents := by
  obtain ⟨_ | ⟨e, es⟩, _ | ⟨k, es', cs, r⟩⟩ := n <;> simp [keep, contents, Node.contents]

theorem contents_cons (key : κ) (entries : List ε) (children rest : Children κ ε) :
    (cons key entries children rest).contents =
      ((⟨entries, children⟩ : Node κ ε).contents.map fun x ↦ (key :: x.1, x.2)) ++
        rest.contents := by
  simp [contents, Node.contents]

theorem removeFrom_cons (P : ε → Bool) (key : κ) (entries : List ε) (children rest : Children κ ε) :
    (cons key entries children rest).removeFrom P =
      match (⟨entries, children⟩ : Node κ ε).removeFrom P with
      | some (e, n) => some (e, keep key n rest)
      | none => (rest.removeFrom P).map fun (e, rest') ↦ (e, cons key entries children rest') := rfl

theorem removeFrom_cases {entries : List ε} {children rest : Children κ ε}
    (h : (cons key entries children rest).removeFrom P = some (e, c')) :
    (∃ n, (⟨entries, children⟩ : Node κ ε).removeFrom P = some (e, n) ∧ c' = keep key n rest) ∨
      ∃ rest', rest.removeFrom P = some (e, rest') ∧ c' = cons key entries children rest' := by
  rw [removeFrom_cons] at h
  cases hn : (⟨entries, children⟩ : Node κ ε).removeFrom P with
  | some x =>
    simp only [hn, Option.some.injEq, Prod.mk.injEq] at h
    obtain ⟨rfl, rfl⟩ := h
    exact .inl ⟨x.2, rfl, rfl⟩
  | none =>
    simp only [hn, Option.map_eq_some_iff, Prod.mk.injEq, Prod.exists] at h
    obtain ⟨_, rest', hr, rfl, rfl⟩ := h
    exact .inr ⟨rest', hr, rfl⟩

theorem node_removeFrom_cases {n' : Node κ ε} (h : n.removeFrom P = some (e, n')) :
    (∃ entries, takeEntry P n.entries = some (e, entries) ∧ n' = ⟨entries, n.children⟩) ∨
      ∃ children, n.children.removeFrom P = some (e, children) ∧ n' = ⟨n.entries, children⟩ := by
  unfold Node.removeFrom at h
  cases htake : takeEntry P n.entries with
  | some x =>
    simp only [htake, Option.some.injEq, Prod.mk.injEq] at h
    obtain ⟨rfl, rfl⟩ := h
    exact .inl ⟨x.2, rfl, rfl⟩
  | none =>
    simp only [htake, Option.map_eq_some_iff, Prod.mk.injEq, Prod.exists] at h
    obtain ⟨_, children, hc, rfl, rfl⟩ := h
    exact .inr ⟨children, hc, rfl⟩

theorem removeFrom_some (h : c.removeFrom P = some (e, c')) :
    P e = true ∧ ∃ path, OneMore (path, e) c'.contents c.contents := by
  induction c generalizing c' with
  | nil => cases h
  | cons key entries children rest ihc ihr =>
    rcases removeFrom_cases h with ⟨n, hn, rfl⟩ | ⟨rest', hr, rfl⟩
    · rw [contents_cons, contents_keep]
      rcases node_removeFrom_cases hn with ⟨entries', htake, rfl⟩ | ⟨children', hc, rfl⟩
      · obtain ⟨hP, hmore⟩ := takeEntry_some htake
        exact ⟨hP, [key], (((hmore.map _).append_right _).map _).append_right _⟩
      · obtain ⟨hP, path, hmore⟩ := ihc hc
        exact ⟨hP, key :: path, ((hmore.append_left _).map _).append_right _⟩
    · obtain ⟨hP, path, hmore⟩ := ihr hr
      exact ⟨hP, path, hmore.append_left _⟩

theorem removeFrom_none (h : c.removeFrom P = none) : ∀ x ∈ c.contents, P x.2 = false := by
  induction c with
  | nil => simp [contents]
  | cons key entries children rest ihc ihr =>
    rw [removeFrom_cons] at h
    cases hn : (⟨entries, children⟩ : Node κ ε).removeFrom P with
    | some x => simp [hn] at h
    | none =>
      simp only [hn, Option.map_eq_none_iff] at h
      unfold Node.removeFrom at hn
      cases htake : takeEntry P entries with
      | some y => simp [htake] at hn
      | none =>
        simp only [htake, Option.map_eq_none_iff] at hn
        intro x hx
        simp only [contents, List.mem_append, List.mem_map] at hx
        rcases hx with (⟨e, he, rfl⟩ | ⟨y, hy, rfl⟩) | hx
        · exact takeEntry_none htake e he
        · exact ihc hn y hy
        · exact ihr h x hx

theorem mem_keys_keep (h : k ∈ (keep key n c).keys) : k = key ∨ k ∈ c.keys := by
  obtain ⟨_ | ⟨e, es⟩, _ | ⟨k', es', cs, r⟩⟩ := n <;> simp_all [keep, keys]

theorem valid_keep (hn : n.Valid) (hkey : key ∉ c.keys) (hc : c.Valid) : (keep key n c).Valid := by
  obtain ⟨_ | ⟨e, es⟩, _ | ⟨k', es', cs, r⟩⟩ := n
  · exact hc
  · exact ⟨hkey, hn, hc⟩
  · exact ⟨hkey, hn, hc⟩
  · exact ⟨hkey, hn, hc⟩

theorem removeFrom_valid (hc : c.Valid) (h : c.removeFrom P = some (e, c')) :
    c'.Valid ∧ ∀ k ∈ c'.keys, k ∈ c.keys := by
  induction c generalizing c' with
  | nil => cases h
  | cons key entries children rest ihc ihr =>
    obtain ⟨hkey, hvc, hvr⟩ := hc
    rcases removeFrom_cases h with ⟨n, hn, rfl⟩ | ⟨rest', hr, rfl⟩
    · have hvn : n.Valid := by
        rcases node_removeFrom_cases hn with ⟨entries', -, rfl⟩ | ⟨children', hc, rfl⟩
        · exact hvc
        · exact (ihc hvc hc).1
      refine ⟨valid_keep hvn hkey hvr, fun k hk ↦ ?_⟩
      rw [keys, List.mem_cons]
      exact mem_keys_keep hk
    · obtain ⟨hv, hsub⟩ := ihr hvr hr
      refine ⟨⟨fun hk ↦ hkey (hsub _ hk), hvc, hv⟩, fun k hk ↦ ?_⟩
      rw [keys, List.mem_cons] at hk ⊢
      exact hk.imp_right (hsub k)

theorem path_ne_nil (c : Children κ ε) : ∀ x ∈ c.contents, x.1 ≠ [] := by
  induction c with
  | nil => simp [contents]
  | cons key entries children rest ihc ihr =>
    intro x hx
    rw [contents_cons, List.mem_append, List.mem_map] at hx
    rcases hx with ⟨y, -, rfl⟩ | hx
    · exact List.cons_ne_nil _ _
    · exact ihr x hx

section Lookup

variable [DecidableEq κ] {f : Node κ ε → Node κ ε}

theorem mem_keys_upsert : k ∈ (c.upsert key f).keys ↔ k = key ∨ k ∈ c.keys := by
  induction c with
  | nil => simp [upsert, keys]
  | cons key' entries children rest ihc ihr =>
    by_cases hk : key' = key
    · subst hk
      rw [upsert, if_pos rfl, keys, keys, List.mem_cons]
      tauto
    · rw [upsert, if_neg hk, keys, keys, List.mem_cons, List.mem_cons, ihr]
      tauto

theorem upsert_valid (hf : ∀ n : Node κ ε, n.Valid → (f n).Valid) (hc : c.Valid) :
    (c.upsert key f).Valid := by
  induction c with
  | nil => exact ⟨List.not_mem_nil, hf _ trivial, trivial⟩
  | cons key' entries children rest ihc ihr =>
    obtain ⟨hkey, hvc, hvr⟩ := hc
    by_cases hk : key' = key
    · rw [upsert, if_pos hk]
      exact ⟨hkey, hf ⟨entries, children⟩ hvc, hvr⟩
    · rw [upsert, if_neg hk]
      refine ⟨fun h ↦ ?_, hvc, ihr hvr⟩
      rcases mem_keys_upsert.mp h with h | h
      · exact hk h
      · exact hkey h

theorem upsert_contents {path : List κ} (hf : ∀ n, OneMore (path, e) n.contents (f n).contents)
    (c : Children κ ε) : OneMore (key :: path, e) c.contents (c.upsert key f).contents := by
  induction c with
  | nil =>
    rw [upsert, contents_cons]
    exact ((hf .empty).map fun x ↦ (key :: x.1, x.2)).append_right []
  | cons key' entries children rest ihc ihr =>
    by_cases hk : key' = key
    · subst hk
      rw [upsert, if_pos rfl, contents_cons, contents_cons]
      exact ((hf ⟨entries, children⟩).map fun x ↦ (key' :: x.1, x.2)).append_right _
    · rw [upsert, if_neg hk, contents_cons, contents_cons]
      exact ihr.append_left _

theorem find_eq_none (h : k ∉ c.keys) : c.find k = none := by
  induction c with
  | nil => rfl
  | cons key entries children rest ihc ihr =>
    rw [keys, List.mem_cons, not_or] at h
    rw [find, if_neg (Ne.symm h.1), ihr h.2]

theorem find_valid (hc : c.Valid) (h : c.find k = some n) : n.Valid := by
  induction c with
  | nil => cases h
  | cons key entries children rest ihc ihr =>
    obtain ⟨-, hvc, hvr⟩ := hc
    by_cases hk : key = k
    · rw [find, if_pos hk, Option.some.injEq] at h
      exact h ▸ hvc
    · rw [find, if_neg hk] at h
      exact ihr hvr h

theorem flatMap_under (hc : c.Valid) (k : κ) (f : List κ → ε → List β) :
    c.contents.flatMap (under k f) =
      match c.find k with
      | some n => n.contents.flatMap fun x ↦ f x.1 x.2
      | none => [] := by
  induction c with
  | nil => rfl
  | cons key entries children rest ihc ihr =>
    obtain ⟨hkey, hvc, hvr⟩ := hc
    rw [contents_cons, List.flatMap_append, ihr hvr, List.flatMap_map]
    by_cases hk : key = k
    · subst hk
      simp [find, find_eq_none hkey, under]
    · simp [find, hk, under]

end Lookup

/-- The order of the children does not matter. -/
theorem swap_spec (way : List Bool) (c : Children κ ε) :
    (c.swap way).contents.Perm c.contents ∧ (c.swap way).keys.Perm c.keys ∧
      (c.Valid → (c.swap way).Valid) := by
  induction way, c using swap.induct with
  | case1 k es cs k' es' cs' rest =>
    refine ⟨?_, List.Perm.swap _ _ _, fun ⟨hk, hc, hk', hc', hr⟩ ↦ ?_⟩
    · simp only [swap, contents_cons, ← List.append_assoc]
      exact List.perm_append_comm.append_right _
    · rw [keys, List.mem_cons, not_or] at hk
      refine ⟨?_, hc', hk.2, hc, hr⟩
      rw [keys, List.mem_cons, not_or]
      exact ⟨Ne.symm hk.1, hk'⟩
  | case2 way k es cs rest ih =>
    obtain ⟨hcontents, hkeys, hvalid⟩ := ih
    refine ⟨?_, hkeys.cons _, fun ⟨hk, hc, hr⟩ ↦ ⟨fun h ↦ hk (hkeys.mem_iff.mp h), hc, hvalid hr⟩⟩
    simp only [swap, contents_cons]
    exact hcontents.append_left _
  | case3 way k es cs rest ih =>
    obtain ⟨hcontents, hkeys, hvalid⟩ := ih
    refine ⟨?_, .refl _, fun ⟨hk, hc, hr⟩ ↦ ⟨hk, hvalid hc, hr⟩⟩
    simp only [swap, contents]
    exact ((hcontents.map _).append_left _).append_right _
  | case4 way c h₁ h₂ h₃ =>
    rw [swap.eq_4 way c h₁ h₂ h₃]
    exact ⟨.refl _, .refl _, id⟩

end Children

namespace Node

variable {P : ε → Bool} {n n' : Node κ ε} {e : ε}

theorem removeFrom_some (h : n.removeFrom P = some (e, n')) :
    P e = true ∧ ∃ path, OneMore (path, e) n'.contents n.contents := by
  rcases Children.node_removeFrom_cases h with ⟨entries, htake, rfl⟩ | ⟨children, hc, rfl⟩
  · obtain ⟨hP, hmore⟩ := takeEntry_some htake
    exact ⟨hP, [], (hmore.map _).append_right _⟩
  · obtain ⟨hP, path, hmore⟩ := Children.removeFrom_some hc
    exact ⟨hP, path, hmore.append_left _⟩

theorem removeFrom_none (h : n.removeFrom P = none) : ∀ x ∈ n.contents, P x.2 = false := by
  unfold removeFrom at h
  cases htake : takeEntry P n.entries with
  | some y => simp [htake] at h
  | none =>
    simp only [htake, Option.map_eq_none_iff] at h
    intro x hx
    simp only [contents, List.mem_append, List.mem_map] at hx
    rcases hx with ⟨e, he, rfl⟩ | hx
    · exact takeEntry_none htake e he
    · exact Children.removeFrom_none h x hx

theorem removeFrom_valid (hn : n.Valid) (h : n.removeFrom P = some (e, n')) : n'.Valid := by
  rcases Children.node_removeFrom_cases h with ⟨entries, -, rfl⟩ | ⟨children, hc, rfl⟩
  · exact hn
  · exact (Children.removeFrom_valid hn hc).1

theorem flatMap_contents (n : Node κ ε) (f : List κ → ε → List β) :
    (n.contents.flatMap fun x ↦ f x.1 x.2) =
      n.entries.flatMap (f []) ++ n.children.contents.flatMap fun x ↦ f x.1 x.2 := by
  rw [contents, List.flatMap_append, List.flatMap_map]

theorem insertAt_contents [DecidableEq κ] (e : ε) (path : List κ) (n : Node κ ε) :
    OneMore (path, e) n.contents (insertAt e path n).contents := by
  induction path generalizing n with
  | nil =>
    simp only [insertAt, contents, List.map_append]
    exact (OneMore.last _ _).append_right _
  | cons k path ih => exact (Children.upsert_contents ih n.children).append_left _

theorem insertAt_valid [DecidableEq κ] (e : ε) (path : List κ) (hn : n.Valid) :
    (insertAt e path n).Valid := by
  induction path generalizing n with
  | nil => exact hn
  | cons k path ih => exact Children.upsert_valid (fun n hn ↦ ih hn) hn

theorem swap_contents (way : List Bool) (n : Node κ ε) :
    (n.swap way).contents.Perm n.contents :=
  (Children.swap_spec way n.children).1.append_left _

theorem swap_valid (way : List Bool) (hn : n.Valid) : (n.swap way).Valid :=
  (Children.swap_spec way n.children).2.2 hn

end Node

end LivioArk.Library.PrefixTree
