import LivioArk.Msgbus.Message

namespace LivioArk.Msgbus.ObjectPlaces

open Function Message

/-- Each object is in one place: with one thread that alone knows it, with the
handles that point to it, in the free list of a pool, or nowhere. -/
inductive Place (θ τ : Type)
  | gone
  | held (t : θ)
  | shared
  | pooled (T : τ)

variable {θ τ κ δ : Type}

/-- What the place of an object says about it: about the number of handles that
count for it, the thread that holds it alone, the pool that has it, and its
lives, of which the last is over when the object is not in use. -/
structure PlacedAt (p : Place θ τ) (object : Option (TypedMessage τ κ δ)) (handles : ℕ)
    (holder : θ → Prop) (free : τ → Prop) (life : ℕ) (ended : ℕ → Prop) (allocated : Prop) :
    Prop where
  count : ∀ m, object = some m → m.ref_count_ = handles
  recycler : ∀ m, object = some m → m.recycler_ = none ∨ m.recycler_ = some m.type
  gone : p = .gone ↔ object = none
  held : ∀ t, holder t ↔ p = .held t
  shared : p = .shared ↔ 0 < handles
  pooled : ∀ T, free T ↔ p = .pooled T
  type : ∀ T m, p = .pooled T → object = some m → m.type = T
  unallocated : ¬ allocated → object = none ∧ life = 0
  lived : allocated → 1 ≤ life
  born : ∀ n, ended n → 1 ≤ n ∧ n ≤ life
  past : ∀ n, 1 ≤ n → n < life → ended n
  finished : allocated → (ended life ↔ p = .gone ∨ ∃ T, p = .pooled T)

structure Placed (place : ℕ → Place θ τ) (heap : Heap τ κ δ) (counts : ℕ → ℕ)
    (held : θ → Option ℕ) (life : ℕ → ℕ) (ends : List (ℕ × ℕ)) : Prop where
  each : ∀ a, PlacedAt (place a) (heap.objects a) (counts a) (fun t ↦ held t = some a)
    (fun T ↦ a ∈ heap.pools T) (life a) (fun n ↦ (a, n) ∈ ends) (a < heap.next)
  nodup : ∀ T, (heap.pools T).Nodup
  once : ends.Nodup
  no_fault : heap.fault = false

variable {place : ℕ → Place θ τ} {heap heap' : Heap τ κ δ} {counts counts' : ℕ → ℕ}
  {held held' : θ → Option ℕ} {life life' : ℕ → ℕ} {ends ends' : List (ℕ × ℕ)} {t : θ} {raw : ℕ}
  {p : Place θ τ}

theorem placed_empty : Placed (θ := θ) (fun _ ↦ .gone) ({} : Heap τ κ δ) (fun _ ↦ 0) (fun _ ↦ none)
    (fun _ ↦ 0) [] where
  each a :=
    { count := fun m hm ↦ by cases hm
      recycler := fun m hm ↦ by cases hm
      gone := ⟨fun _ ↦ rfl, fun _ ↦ rfl⟩
      held := fun t ↦ ⟨fun h ↦ (by cases h), fun h ↦ (by cases h)⟩
      shared := ⟨fun h ↦ (by cases h), fun h ↦ absurd h (Nat.lt_irrefl 0)⟩
      pooled := fun T ↦ ⟨fun h ↦ (by cases h), fun h ↦ (by cases h)⟩
      type := fun T m _ hm ↦ by cases hm
      unallocated := fun _ ↦ ⟨rfl, rfl⟩
      lived := fun ha ↦ absurd ha (Nat.not_lt_zero a)
      born := fun n h ↦ by cases h
      past := fun n _ hn ↦ absurd hn (Nat.not_lt_zero n)
      finished := fun ha ↦ absurd ha (Nat.not_lt_zero a) }
  nodup T := List.nodup_nil
  once := List.nodup_nil
  no_fault := rfl

theorem Placed.change (h : Placed place heap counts held life ends)
    (hobjects : ∀ a, a ≠ raw → heap'.objects a = heap.objects a)
    (hcounts : ∀ a, a ≠ raw → counts' a = counts a)
    (hheld : ∀ a, a ≠ raw → ∀ t, held' t = some a ↔ held t = some a)
    (hpools : ∀ a, a ≠ raw → ∀ T, a ∈ heap'.pools T ↔ a ∈ heap.pools T)
    (hlife : ∀ a, a ≠ raw → life' a = life a)
    (hends : ∀ a, a ≠ raw → ∀ n, (a, n) ∈ ends' ↔ (a, n) ∈ ends)
    (hnext : ∀ a, a ≠ raw → (a < heap'.next ↔ a < heap.next))
    (hraw : PlacedAt p (heap'.objects raw) (counts' raw) (fun t ↦ held' t = some raw)
      (fun T ↦ raw ∈ heap'.pools T) (life' raw) (fun n ↦ (raw, n) ∈ ends') (raw < heap'.next))
    (hnodup : ∀ T, (heap'.pools T).Nodup) (honce : ends'.Nodup) (hfault : heap'.fault = false) :
    Placed (update place raw p) heap' counts' held' life' ends' where
  each a := by
    by_cases ha : a = raw
    · subst ha
      rw [update_self]
      exact hraw
    · have hat := h.each a
      rw [update_of_ne ha, hobjects a ha, hcounts a ha, hlife a ha, propext (hnext a ha),
        funext fun t ↦ propext (hheld a ha t), funext fun T ↦ propext (hpools a ha T),
        funext fun n ↦ propext (hends a ha n)]
      exact hat
  nodup := hnodup
  once := honce
  no_fault := hfault

theorem Placed.congr (h : Placed place heap counts held life ends)
    (hcounts : ∀ a, counts' a = counts a) (hheld : ∀ t, held' t = held t) :
    Placed place heap counts' held' life ends := by
  obtain rfl : counts' = counts := funext hcounts
  obtain rfl : held' = held := funext hheld
  exact h

theorem Placed.allocated (h : Placed place heap counts held life ends) (hne : place raw ≠ .gone) :
    raw < heap.next := by
  by_contra hlt
  exact hne ((h.each raw).gone.mpr ((h.each raw).unallocated hlt).1)

theorem Placed.object (h : Placed place heap counts held life ends) (hne : place raw ≠ .gone) :
    ∃ m, heap.objects raw = some m := by
  cases hm : heap.objects raw with
  | none => exact absurd ((h.each raw).gone.mpr hm) hne
  | some m => exact ⟨m, rfl⟩

theorem Placed.counts_zero (h : Placed place heap counts held life ends)
    (hne : place raw ≠ .shared) : counts raw = 0 := by
  by_contra hzero
  exact hne ((h.each raw).shared.mpr (Nat.pos_of_ne_zero hzero))

theorem Placed.held_iff (h : Placed place heap counts held life ends) :
    held t = some raw ↔ place raw = .held t := (h.each raw).held t

/-- An object is a thread's alone, or there is a handle for it. -/
def Place.inUse : Place θ τ → Prop
  | .held _ | .shared => True
  | .gone | .pooled _ => False

theorem Place.inUse_ne (hp : p.inUse) : p ≠ .gone ∧ ∀ T, p ≠ .pooled T := by
  cases p with
  | held | shared => exact ⟨by simp, by simp⟩
  | gone | pooled => exact absurd hp not_false

section Access

variable {f : TypedMessage τ κ δ → TypedMessage τ κ δ}

theorem Placed.access (h : Placed place heap counts held life ends) (hold : (place raw).inUse)
    (hnew : p.inUse) (hcounts : ∀ a, a ≠ raw → counts' a = counts a)
    (hheld : ∀ a, a ≠ raw → ∀ t, held' t = some a ↔ held t = some a)
    (hholder : ∀ t, held' t = some raw ↔ p = .held t) (hshared : p = .shared ↔ 0 < counts' raw)
    (hcount : ∀ m : TypedMessage τ κ δ, m.ref_count_ = counts raw →
      (f m).ref_count_ = counts' raw)
    (hrecycler : ∀ m : TypedMessage τ κ δ, (m.recycler_ = none ∨ m.recycler_ = some m.type) →
      (f m).recycler_ = none ∨ (f m).recycler_ = some (f m).type) :
    Placed (update place raw p) (heap.access raw f) counts' held' life ends := by
  obtain ⟨hgone, hpooled⟩ := Place.inUse_ne hold
  obtain ⟨hgone', hpooled'⟩ := Place.inUse_ne hnew
  obtain ⟨m, hm⟩ := h.object hgone
  have hnext := h.allocated hgone
  have hat := h.each raw
  have haccess : heap.access raw f =
      { heap with objects := update heap.objects raw (some (f m)) } := by
    simp only [Heap.access, hm]
  have hobject : ∀ m', update heap.objects raw (some (f m)) raw = some m' → f m = m' := by
    intro m' hm'
    rwa [update_self, Option.some.injEq] at hm'
  rw [haccess]
  refine h.change (fun a ha ↦ update_of_ne ha ..) hcounts hheld (fun _ _ _ ↦ .rfl)
    (fun _ _ ↦ rfl) (fun _ _ _ ↦ .rfl) (fun _ _ ↦ .rfl) ?_ h.nodup h.once h.no_fault
  constructor
  · intro m' hm'
    rw [← hobject m' hm']
    exact hcount m (hat.count m hm)
  · intro m' hm'
    rw [← hobject m' hm']
    exact hrecycler m (hat.recycler m hm)
  · simp only [hgone', update_self, reduceCtorEq]
  · exact hholder
  · exact hshared
  · intro T
    rw [hat.pooled T]
    exact ⟨fun hp ↦ absurd hp (hpooled T), fun hp ↦ absurd hp (hpooled' T)⟩
  · exact fun T _ hp ↦ absurd hp (hpooled' T)
  · exact fun hlt ↦ absurd hnext hlt
  · exact hat.lived
  · exact hat.born
  · exact hat.past
  · intro _
    rw [hat.finished hnext]
    simp only [hgone, hpooled, hgone', hpooled', exists_false, or_self]

theorem Placed.prepare (h : Placed place heap counts held life ends) (ht : held t = some raw)
    (hcount : ∀ m : TypedMessage τ κ δ, m.ref_count_ = 0 → (f m).ref_count_ = 0)
    (hrecycler : ∀ m : TypedMessage τ κ δ,
      (f m).recycler_ = none ∨ (f m).recycler_ = some (f m).type) :
    Placed place (heap.access raw f) counts held life ends := by
  have hraw := h.held_iff.mp ht
  have hzero : counts raw = 0 := h.counts_zero (by simp [hraw])
  have hsame : update place raw (.held t) = place := by rw [← hraw, update_eq_self]
  rw [← hsame]
  refine h.access (by rw [hraw]; trivial) trivial (fun _ _ ↦ rfl) (fun _ _ _ ↦ .rfl) ?_ ?_ ?_
    fun m _ ↦ hrecycler m
  · intro u
    rw [h.held_iff, hraw]
  · simp [hzero]
  · intro m hm
    rw [hzero] at hm ⊢
    exact hcount m hm

theorem Placed.copy (h : Placed place heap counts held life ends) (hraw : place raw = .shared)
    (hcounts : ∀ a, counts' a = if a = raw then counts a + 1 else counts a) :
    Placed place (heap.access raw .add_ref) counts' held life ends := by
  have hcount := hcounts raw
  rw [if_pos rfl] at hcount
  have hsame : update place raw .shared = place := by rw [← hraw, update_eq_self]
  rw [← hsame]
  refine h.access (by rw [hraw]; trivial) trivial (fun a ha ↦ by rw [hcounts, if_neg ha])
    (fun _ _ _ ↦ .rfl) ?_ ?_ ?_ fun m hm ↦ hm
  · intro u
    rw [h.held_iff, hraw]
  · simp [hcount]
  · intro m hm
    simp only [TypedMessage.add_ref]
    omega

theorem Placed.release_shared (h : Placed place heap counts held life ends)
    (hcounts : ∀ a, counts a = if a = raw then counts' a + 1 else counts' a)
    (hmore : 0 < counts' raw) :
    Placed place (heap.access raw fun m ↦ m.release_ref.2) counts' held life ends := by
  have hcount := hcounts raw
  rw [if_pos rfl] at hcount
  have hraw : place raw = .shared := (h.each raw).shared.mpr (by omega)
  have hsame : update place raw .shared = place := by rw [← hraw, update_eq_self]
  rw [← hsame]
  refine h.access (by rw [hraw]; trivial) trivial (fun a ha ↦ by rw [hcounts, if_neg ha])
    (fun _ _ _ ↦ .rfl) ?_ ⟨fun _ ↦ hmore, fun _ ↦ rfl⟩ ?_ fun m hm ↦ hm
  · intro u
    rw [h.held_iff, hraw]
  · intro m hm
    simp only [TypedMessage.release_ref]
    omega

end Access

section Holders

variable [DecidableEq θ]

theorem Placed.given (h : Placed place heap counts held life ends) (ht : held t = some raw) :
    (∀ a, a ≠ raw → ∀ u, update held t none u = some a ↔ held u = some a) ∧
      ∀ u, update held t none u ≠ some raw := by
  constructor
  · intro a ha u
    by_cases hu : u = t
    · subst hu
      rw [update_self, ht, Option.some.injEq]
      exact ⟨fun hnone ↦ (by cases hnone), fun heq ↦ absurd heq.symm ha⟩
    · rw [update_of_ne hu]
  · intro u
    by_cases hu : u = t
    · rw [hu, update_self]
      simp
    · rw [update_of_ne hu]
      intro hheld
      have hplace := h.held_iff.mp ht
      rw [h.held_iff.mp hheld] at hplace
      cases hplace
      exact hu rfl

theorem Placed.taken (h : Placed place heap counts held life ends) (ht : held t = none)
    (hraw : ∀ u, place raw ≠ .held u) :
    (∀ a, a ≠ raw → ∀ u, update held t (some raw) u = some a ↔ held u = some a) ∧
      ∀ u, update held t (some raw) u = some raw ↔ (.held t : Place θ τ) = .held u := by
  constructor
  · intro a ha u
    by_cases hu : u = t
    · subst hu
      rw [update_self, ht, Option.some.injEq]
      exact ⟨fun heq ↦ absurd heq.symm ha, fun hnone ↦ (by cases hnone)⟩
    · rw [update_of_ne hu]
  · intro u
    by_cases hu : u = t
    · subst hu
      simp
    · rw [update_of_ne hu, h.held_iff, Place.held.injEq]
      exact ⟨fun hheld ↦ absurd hheld (hraw u), fun heq ↦ absurd heq.symm hu⟩

theorem Placed.adopt (h : Placed place heap counts held life ends) (ht : held t = some raw)
    (hcounts : ∀ a, counts' a = if a = raw then counts a + 1 else counts a) :
    Placed (update place raw .shared) (heap.access raw .add_ref) counts' (update held t none) life
      ends := by
  have hraw := h.held_iff.mp ht
  have hcount := hcounts raw
  rw [if_pos rfl] at hcount
  obtain ⟨hothers, hnone⟩ := h.given ht
  refine h.access (by rw [hraw]; trivial) trivial (fun a ha ↦ by rw [hcounts, if_neg ha]) hothers
    ?_ ?_ ?_ fun m hm ↦ hm
  · intro u
    simp [hnone u]
  · simp [hcount]
  · intro m hm
    simp only [TypedMessage.add_ref]
    omega

theorem Placed.release_last (h : Placed place heap counts held life ends) (ht : held t = none)
    (hcounts : ∀ a, counts a = if a = raw then counts' a + 1 else counts' a)
    (hlast : counts' raw = 0) :
    Placed (update place raw (.held t)) (heap.access raw fun m ↦ m.release_ref.2) counts'
      (update held t (some raw)) life ends := by
  have hcount := hcounts raw
  rw [if_pos rfl] at hcount
  have hraw : place raw = .shared := (h.each raw).shared.mpr (by omega)
  have hfree : ∀ u, place raw ≠ .held u := fun u ↦ by simp [hraw]
  obtain ⟨hothers, hholder⟩ := h.taken ht hfree
  refine h.access (by rw [hraw]; trivial) trivial (fun a ha ↦ by rw [hcounts, if_neg ha]) hothers
    hholder ?_ ?_ fun m hm ↦ hm
  · simp [hlast]
  · intro m hm
    simp only [TypedMessage.release_ref]
    omega

theorem Placed.create {T : τ} {topic_id : ℕ} {data : δ}
    (h : Placed place heap counts held life ends) (ht : held t = none) :
    Placed (update place heap.next (.held t)) (heap.create T topic_id data).2 counts
      (update held t (some heap.next)) (update life heap.next (life heap.next + 1)) ends := by
  have hat := h.each heap.next
  obtain ⟨hnone, hlife⟩ := hat.unallocated (Nat.lt_irrefl _)
  have hgone := hat.gone.mpr hnone
  have hzero : counts heap.next = 0 := h.counts_zero (by simp [hgone])
  have hfree : ∀ u, place heap.next ≠ .held u := fun u ↦ by simp [hgone]
  obtain ⟨hothers, hholder⟩ := h.taken ht hfree
  have hobject : ∀ m, (heap.create T topic_id data).2.objects heap.next = some m →
      { type := T, topic_id_ := topic_id, data_ := data } = m := by
    intro m hm
    simpa only [Heap.create, update_self, Option.some.injEq] using hm
  refine h.change (fun a ha ↦ update_of_ne ha ..) (fun _ _ ↦ rfl) hothers (fun _ _ _ ↦ .rfl)
    (fun a ha ↦ update_of_ne ha ..) (fun _ _ _ ↦ .rfl) ?_ ?_ h.nodup h.once h.no_fault
  · intro a ha
    simp only [Heap.create]
    omega
  · rw [update_self]
    constructor
    · intro m hm
      rw [← hobject m hm, hzero]
      rfl
    · intro m hm
      rw [← hobject m hm]
      exact .inl rfl
    · simp only [Heap.create, update_self, reduceCtorEq]
    · exact hholder
    · simp [hzero]
    · intro T'
      refine ⟨fun hmem ↦ ?_, fun hp ↦ (by cases hp)⟩
      have hpooled := (hat.pooled T').mp hmem
      rw [hgone] at hpooled
      cases hpooled
    · exact fun T' m hp ↦ by cases hp
    · exact fun hlt ↦ absurd (Nat.lt_succ_self heap.next) hlt
    · exact fun _ ↦ Nat.succ_pos _
    · intro n hmem
      have hborn := hat.born n hmem
      omega
    · intro n hn hlt
      omega
    · intro _
      refine ⟨fun hmem ↦ ?_, fun hp ↦ by simp at hp⟩
      have hborn := hat.born _ hmem
      omega

theorem Placed.finished (h : Placed place heap counts held life ends) (ht : held t = some raw)
    (hobjects : ∀ a, a ≠ raw → heap'.objects a = heap.objects a)
    (hpools : ∀ a, a ≠ raw → ∀ T, a ∈ heap'.pools T ↔ a ∈ heap.pools T)
    (hnext : heap'.next = heap.next) (hnodup : ∀ T, (heap'.pools T).Nodup)
    (hfault : heap'.fault = heap.fault)
    (hrest : ∀ m, heap'.objects raw = some m → heap.objects raw = some m)
    (hgone : p = .gone ↔ heap'.objects raw = none)
    (hpooled : ∀ T, raw ∈ heap'.pools T ↔ p = .pooled T)
    (htype : ∀ T m, p = .pooled T → heap'.objects raw = some m → m.type = T)
    (hp : ¬ p.inUse) :
    Placed (update place raw p) heap' counts (update held t none) life
      (ends ++ [(raw, life raw)]) := by
  have hraw := h.held_iff.mp ht
  have hat := h.each raw
  have hlt : raw < heap.next := h.allocated (by simp [hraw])
  have hzero : counts raw = 0 := h.counts_zero (by simp [hraw])
  obtain ⟨hothers, hnone⟩ := h.given ht
  have hunended : (raw, life raw) ∉ ends := by
    intro hin
    have hover := (hat.finished hlt).mp hin
    simp [hraw] at hover
  have hlife := hat.lived hlt
  refine h.change hobjects (fun _ _ ↦ rfl) hothers hpools (fun _ _ ↦ rfl) ?_
    (fun a _ ↦ by rw [hnext]) ?_ hnodup ?_ (hfault.trans h.no_fault)
  · intro a ha n
    rw [List.mem_append, List.mem_singleton, Prod.mk.injEq]
    exact ⟨fun hin ↦ hin.resolve_right fun heq ↦ ha heq.1, .inl⟩
  · constructor
    · exact fun m hm ↦ hat.count m (hrest m hm)
    · exact fun m hm ↦ hat.recycler m (hrest m hm)
    · exact hgone
    · intro u
      refine ⟨fun hheld ↦ absurd hheld (hnone u), fun heq ↦ ?_⟩
      subst heq
      exact absurd trivial hp
    · rw [hzero]
      refine ⟨fun heq ↦ ?_, fun hpos ↦ absurd hpos (Nat.lt_irrefl 0)⟩
      subst heq
      exact absurd trivial hp
    · exact hpooled
    · exact htype
    · rw [hnext]
      exact fun hnot ↦ absurd hlt hnot
    · exact fun _ ↦ hlife
    · intro n hin
      cases List.mem_append.mp hin with
      | inl hin => exact hat.born n hin
      | inr hin =>
        obtain ⟨-, rfl⟩ := Prod.mk.injEq .. ▸ List.mem_singleton.mp hin
        exact ⟨hlife, le_rfl⟩
    · exact fun n hn hlt ↦ List.mem_append_left _ (hat.past n hn hlt)
    · intro _
      refine ⟨fun _ ↦ ?_, fun _ ↦ List.mem_append_right _ (List.mem_singleton_self _)⟩
      cases p with
      | gone => exact .inl rfl
      | pooled T => exact .inr ⟨T, rfl⟩
      | held | shared => exact absurd trivial hp
  · apply h.once.append (List.nodup_singleton _)
    rw [List.disjoint_singleton]
    exact hunended

theorem Placed.delete (h : Placed place heap counts held life ends) (ht : held t = some raw) :
    Placed (update place raw .gone) (heap.delete raw) counts (update held t none) life
      (ends ++ [(raw, life raw)]) := by
  have hraw := h.held_iff.mp ht
  obtain ⟨m, hm⟩ : ∃ m, heap.objects raw = some m := h.object (by simp [hraw])
  have hdelete : heap.delete raw = { heap with objects := update heap.objects raw none } := by
    simp only [Heap.delete, hm]
  rw [hdelete]
  refine h.finished ht (fun a ha ↦ update_of_ne ha ..) (fun _ _ _ ↦ .rfl) rfl h.nodup rfl
    ?_ ?_ ?_ ?_ id
  · intro m' hm'
    simp at hm'
  · simp
  · intro T
    rw [(h.each raw).pooled, hraw]
    simp
  · exact fun T m' hp ↦ by cases hp

variable [DecidableEq τ]

theorem Placed.unpool {T : τ} {rest : List ℕ} (h : Placed place heap counts held life ends)
    (ht : held t = none) (hpool : heap.pools T = raw :: rest) :
    Placed (update place raw (.held t)) { heap with pools := update heap.pools T rest } counts
      (update held t (some raw)) (update life raw (life raw + 1)) ends := by
  have hat := h.each raw
  have hraw : place raw = .pooled T := (hat.pooled T).mp (hpool ▸ List.mem_cons_self)
  have hnext : raw < heap.next := h.allocated (by simp [hraw])
  have hnodup := h.nodup T
  rw [hpool, List.nodup_cons] at hnodup
  have hfree : ∀ u, place raw ≠ .held u := fun u ↦ by simp [hraw]
  obtain ⟨hothers, hholder⟩ := h.taken ht hfree
  refine h.change (fun _ _ ↦ rfl) (fun _ _ ↦ rfl) hothers ?_ (fun a ha ↦ update_of_ne ha ..)
    (fun _ _ _ ↦ .rfl) (fun _ _ ↦ .rfl) ?_ ?_ h.once h.no_fault
  · intro a ha T'
    change a ∈ update heap.pools T rest T' ↔ a ∈ heap.pools T'
    by_cases hT : T' = T
    · rw [hT, update_self, hpool, List.mem_cons]
      exact ⟨.inr, fun hin ↦ hin.resolve_left ha⟩
    · rw [update_of_ne hT]
  · rw [update_self]
    constructor
    · exact hat.count
    · exact hat.recycler
    · rw [← hat.gone, hraw]
      simp
    · exact hholder
    · rw [← hat.shared, hraw]
      simp
    · intro T'
      refine ⟨fun hin ↦ ?_, fun hp ↦ (by cases hp)⟩
      change raw ∈ update heap.pools T rest T' at hin
      by_cases hT : T' = T
      · rw [hT, update_self] at hin
        exact absurd hin hnodup.1
      · rw [update_of_ne hT, hat.pooled, hraw] at hin
        cases hin
        exact absurd rfl hT
    · exact fun T' m hp ↦ by cases hp
    · exact fun hlt ↦ absurd hnext hlt
    · exact fun _ ↦ Nat.succ_pos _
    · intro n hin
      have hborn := hat.born n hin
      omega
    · intro n hn hlt
      by_cases hlast : n = life raw
      · rw [hlast]
        exact (hat.finished hnext).mpr (.inr ⟨T, hraw⟩)
      · exact hat.past n hn (by omega)
    · intro _
      refine ⟨fun hin ↦ ?_, fun hp ↦ by simp at hp⟩
      have hborn := hat.born _ hin
      omega
  · intro T'
    change (update heap.pools T rest T').Nodup
    by_cases hT : T' = T
    · rw [hT, update_self]
      exact hnodup.2
    · rw [update_of_ne hT]
      exact h.nodup T'

theorem Placed.enpool {m : TypedMessage τ κ δ} (h : Placed place heap counts held life ends)
    (ht : held t = some raw) (hm : heap.objects raw = some m) :
    Placed (update place raw (.pooled m.type))
      { heap with pools := update heap.pools m.type (heap.pools m.type ++ [raw]) } counts
      (update held t none) life (ends ++ [(raw, life raw)]) := by
  have hraw := h.held_iff.mp ht
  have hnot : ∀ T, raw ∉ heap.pools T := by
    intro T hin
    have hpooled := ((h.each raw).pooled T).mp hin
    rw [hraw] at hpooled
    cases hpooled
  refine h.finished ht (fun _ _ ↦ rfl) ?_ rfl ?_ rfl (fun _ hm' ↦ hm') ?_ ?_ ?_ id
  · intro a ha T
    change a ∈ update heap.pools m.type (heap.pools m.type ++ [raw]) T ↔ a ∈ heap.pools T
    by_cases hT : T = m.type
    · rw [hT, update_self, List.mem_append, List.mem_singleton]
      exact ⟨fun hin ↦ hin.resolve_right ha, .inl⟩
    · rw [update_of_ne hT]
  · intro T
    change (update heap.pools m.type (heap.pools m.type ++ [raw]) T).Nodup
    by_cases hT : T = m.type
    · rw [hT, update_self]
      refine (h.nodup _).append (List.nodup_singleton raw) ?_
      rw [List.disjoint_singleton]
      exact hnot m.type
    · rw [update_of_ne hT]
      exact h.nodup T
  · simp [hm]
  · intro T
    change raw ∈ update heap.pools m.type (heap.pools m.type ++ [raw]) T ↔ _
    by_cases hT : T = m.type
    · rw [hT, update_self]
      simp
    · rw [update_of_ne hT, Place.pooled.injEq]
      exact ⟨fun hin ↦ absurd hin (hnot T), fun heq ↦ absurd heq.symm hT⟩
  · intro T m' hT hm'
    have hsame : heap.objects raw = some m' := hm'
    rw [hm] at hsame
    cases hsame
    cases hT
    rfl

theorem Placed.ended (h : Placed place heap counts held life ends) (ht : held t = some raw)
    (full : Bool) :
    ∃ p, Placed (update place raw p)
      (match (heap.objects raw).bind TypedMessage.recycler_ with
      | some T => heap.recycle T full raw
      | none => heap.delete raw) counts (update held t none) life (ends ++ [(raw, life raw)]) := by
  have hraw := h.held_iff.mp ht
  obtain ⟨m, hm⟩ : ∃ m, heap.objects raw = some m := h.object (by simp [hraw])
  rw [hm, Option.bind_some]
  cases (h.each raw).recycler m hm with
  | inl hnone =>
    rw [hnone]
    exact ⟨_, h.delete ht⟩
  | inr hrecycler =>
    rw [hrecycler]
    have hcast : heap.cast m.type raw = heap := by simp [Heap.cast, hm]
    simp only [Heap.recycle, hcast, Heap.release]
    split
    · exact ⟨_, h.delete ht⟩
    · exact ⟨_, h.enpool ht hm⟩

end Holders

end LivioArk.Msgbus.ObjectPlaces
