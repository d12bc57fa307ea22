import LivioArk.Library.PrefixTree

namespace LivioArk.Library.PrefixTree

variable {κ ε : Type*}

namespace Children

def append : Children κ ε → Children κ ε → Children κ ε
  | nil, c => c
  | cons key entries children rest, c => cons key entries children (rest.append c)

variable {c d : Children κ ε} {key k : κ} {n : Node κ ε} {P : ε → Bool} {e : ε}

theorem append_nil (c : Children κ ε) : c.append nil = c := by
  induction c with
  | nil => rfl
  | cons key entries children rest _ ih => rw [append, ih]

theorem append_assoc (a b c : Children κ ε) : (a.append b).append c = a.append (b.append c) := by
  induction a with
  | nil => rfl
  | cons key entries children rest _ ih => rw [append, append, append, ih]

theorem keys_append (c d : Children κ ε) : (c.append d).keys = c.keys ++ d.keys := by
  induction c with
  | nil => rfl
  | cons key entries children rest _ ih => rw [append, keys, keys, ih, List.cons_append]

section Copy

variable [DecidableEq κ]

/-- A new child under a key. A key that is there keeps its child. -/
def emplace (k : κ) (n : Node κ ε) : Children κ ε → Children κ ε
  | nil => cons k n.entries n.children nil
  | cons key entries children rest =>
    if key = k then cons key entries children rest
    else cons key entries children (rest.emplace k n)

/-- Copies of the children of `src`, each made before it is put into `dst`. -/
def copyInto : Children κ ε → Children κ ε → Children κ ε
  | nil, dst => dst
  | cons key entries children rest, dst =>
    copyInto rest (dst.emplace key ⟨entries, copyInto children nil⟩)

theorem emplace_new (hk : k ∉ c.keys) (n : Node κ ε) :
    c.emplace k n = c.append (cons k n.entries n.children nil) := by
  induction c with
  | nil => rfl
  | cons key entries children rest _ ih =>
    rw [keys, List.mem_cons, not_or] at hk
    rw [emplace, if_neg (Ne.symm hk.1), ih hk.2, append]

theorem copyInto_eq (hc : c.Valid) (hd : ∀ k ∈ c.keys, k ∉ d.keys) :
    copyInto c d = d.append c := by
  induction c generalizing d with
  | nil => exact (append_nil d).symm
  | cons key entries children rest ihc ihr =>
    obtain ⟨hkey, hvc, hvr⟩ := hc
    have hnew : key ∉ d.keys := hd key List.mem_cons_self
    have hcopy : copyInto children nil = children := ihc hvc fun _ _ ↦ List.not_mem_nil
    rw [copyInto, hcopy, emplace_new hnew, ihr hvr, append_assoc]
    · rfl
    · intro k hk hmem
      rw [keys_append, List.mem_append] at hmem
      cases hmem with
      | inl hmem => exact hd k (List.mem_cons_of_mem key hk) hmem
      | inr hmem =>
        obtain rfl := List.mem_singleton.mp hmem
        exact hkey hk

theorem copyInto_nil (hc : c.Valid) : copyInto c nil = c :=
  copyInto_eq hc fun _ _ ↦ List.not_mem_nil

end Copy

section Removal

variable [DecidableEq κ] {c' : Children κ ε}

theorem find_keep (key k : κ) (n : Node κ ε) (rest : Children κ ε) :
    (keep key n rest).find k = (if key = k then some n else rest.find k) ∨
      n = .empty ∧ (keep key n rest).find k = rest.find k := by
  obtain ⟨_ | ⟨e, es⟩, _ | ⟨k', es', cs, r⟩⟩ := n
  · exact .inr ⟨rfl, rfl⟩
  · exact .inl rfl
  · exact .inl rfl
  · exact .inl rfl

/-- A removal leaves the child under a key as it is, or removes from it. A child
that this leaves empty is gone. -/
theorem find_removeFrom (hc : c.Valid) (h : c.removeFrom P = some (e, c')) (k : κ) :
    c'.find k = c.find k ∨ ∃ n n', c.find k = some n ∧ n.removeFrom P = some (e, n') ∧
      (c'.find k = some n' ∨ c'.find k = none ∧ n' = .empty) := by
  induction c generalizing c' with
  | nil => cases h
  | cons key entries children rest ihc ihr =>
    obtain ⟨hkey, hvc, hvr⟩ := hc
    cases removeFrom_cases h with
    | inl hnode =>
      obtain ⟨n, hn, rfl⟩ := hnode
      by_cases hk : key = k
      · subst hk
        refine .inr ⟨⟨entries, children⟩, n, if_pos rfl, hn, ?_⟩
        cases find_keep key key n rest with
        | inl hfind => exact .inl (hfind.trans (if_pos rfl))
        | inr hfind => exact .inr ⟨hfind.2.trans (find_eq_none hkey), hfind.1⟩
      · left
        rw [find, if_neg hk]
        cases find_keep key k n rest with
        | inl hfind => exact hfind.trans (if_neg hk)
        | inr hfind => exact hfind.2
    | inr hrest =>
      obtain ⟨rest', hr, rfl⟩ := hrest
      by_cases hk : key = k
      · subst hk
        exact .inl (by rw [find, find, if_pos rfl, if_pos rfl])
      · rw [find, find, if_neg hk, if_neg hk]
        exact ihr hvr hr

end Removal

end Children

def Node.copy [DecidableEq κ] (n : Node κ ε) : Node κ ε :=
  ⟨n.entries, Children.copyInto n.children .nil⟩

theorem Node.copy_eq [DecidableEq κ] {n : Node κ ε} (hn : n.Valid) : n.copy = n := by
  rw [Node.copy, Children.copyInto_nil hn]

end LivioArk.Library.PrefixTree
