import LivioArk.Msgbus.Message

namespace LivioArk.Msgbus.Ownership

open Function Message

variable {τ κ δ : Type} {refs refs' : List ℕ} {h : Heap τ κ δ} {raw : ℕ}
  {m : TypedMessage τ κ δ}

/-- A message that `n` pointers share goes back to its own pool, and its
callback is for messages of its own type. -/
structure Owned (n : ℕ) (m : TypedMessage τ κ δ) : Prop where
  count : m.ref_count_ = n
  recycler : m.recycler_ = some m.type
  callback : ∀ d, m.on_drop_ = some d → d.type = m.type

/-- `refs` lists what the `MessagePtr`s of the program point to. Each object
counts its pointers, and no pooled object has one. -/
structure Sound (refs : List ℕ) (h : Heap τ κ δ) : Prop where
  owned : ∀ a ∈ refs, ∃ m, h.objects a = some m ∧ Owned (refs.count a) m
  pooled : ∀ T, ∀ a ∈ h.pools T, a ∉ refs ∧ ∃ m, h.objects a = some m ∧ m.type = T
  nodup : ∀ T, (h.pools T).Nodup
  unallocated : ∀ a, h.next ≤ a → h.objects a = none
  no_fault : h.fault = false

structure Private (raw : ℕ) (refs : List ℕ) (h : Heap τ κ δ) (m : TypedMessage τ κ δ) :
    Prop where
  sound : Sound refs h
  object : h.objects raw = some m
  unreferenced : raw ∉ refs
  unpooled : ∀ T, raw ∉ h.pools T

theorem sound_empty : Sound [] ({} : Heap τ κ δ) where
  owned a ha := by cases ha
  pooled T a ha := by cases ha
  nodup T := List.nodup_nil
  unallocated a _ := rfl
  no_fault := rfl

theorem Sound.perm (hs : Sound refs h) (hp : refs.Perm refs') : Sound refs' h where
  owned a ha := by
    obtain ⟨m, hm, ho⟩ := hs.owned a (hp.mem_iff.mpr ha)
    exact ⟨m, hm, hp.count_eq a ▸ ho⟩
  pooled T a ha := by
    obtain ⟨hnot, hm⟩ := hs.pooled T a ha
    exact ⟨fun hmem ↦ hnot (hp.mem_iff.mpr hmem), hm⟩
  nodup := hs.nodup
  unallocated := hs.unallocated
  no_fault := hs.no_fault

theorem Sound.unpooled (hs : Sound refs h) (hraw : raw ∈ refs) (T : τ) : raw ∉ h.pools T := by
  intro hmem
  exact (hs.pooled T raw hmem).1 hraw

section Access

variable {f : TypedMessage τ κ δ → TypedMessage τ κ δ}

theorem access_eq (hm : h.objects raw = some m) :
    h.access raw f = { h with objects := update h.objects raw (some (f m)) } := by
  unfold Heap.access
  rw [hm]

theorem objects_access (hm : h.objects raw = some m) :
    (h.access raw f).objects raw = some (f m) := by
  simp only [access_eq hm, update_self]

theorem pools_access : (h.access raw f).pools = h.pools := by
  unfold Heap.access
  cases h.objects raw <;> rfl

theorem content_access_ne {a : ℕ} (hne : a ≠ raw) : (h.access raw f).content a = h.content a := by
  unfold Heap.access
  cases h.objects raw with
  | none => rfl
  | some m => simp only [Heap.content, update_of_ne hne]

theorem content_access (hm : h.objects raw = some m) :
    (h.access raw f).content raw = some (f m).content := by
  rw [access_eq hm]
  simp only [Heap.content, update_self, Option.map_some]

theorem content_access_same (hf : ∀ m, (f m).content = m.content) (a : ℕ) :
    (h.access raw f).content a = h.content a := by
  by_cases hne : a = raw
  · subst hne
    cases hm : h.objects a with
    | none => simp only [Heap.access, hm, Heap.content]
    | some m => rw [content_access hm, hf, Heap.content, hm, Option.map_some]
  · exact content_access_ne hne

theorem Sound.access (hs : Sound refs h) (hm : h.objects raw = some m)
    (hpool : ∀ T, raw ∉ h.pools T) (hcount : ∀ a, a ≠ raw → refs'.count a = refs.count a)
    (howned : raw ∈ refs' → Owned (refs'.count raw) (f m)) : Sound refs' (h.access raw f) := by
  have hmem : ∀ a, a ≠ raw → (a ∈ refs' ↔ a ∈ refs) := by
    intro a hne
    rw [← List.count_pos_iff, ← List.count_pos_iff, hcount a hne]
  rw [access_eq hm]
  constructor
  · intro a ha
    by_cases hne : a = raw
    · subst hne
      exact ⟨f m, update_self .., howned ha⟩
    · obtain ⟨m', hm', ho⟩ := hs.owned a ((hmem a hne).mp ha)
      refine ⟨m', ?_, hcount a hne ▸ ho⟩
      simpa only [update_of_ne hne] using hm'
  · intro T a ha
    have hne : a ≠ raw := fun he ↦ hpool T (he ▸ ha)
    obtain ⟨hnot, m', hm', ht⟩ := hs.pooled T a ha
    refine ⟨fun hr ↦ hnot ((hmem a hne).mp hr), m', ?_, ht⟩
    simpa only [update_of_ne hne] using hm'
  · exact hs.nodup
  · intro a ha
    have hne : a ≠ raw := by
      intro he
      subst he
      rw [hs.unallocated a ha] at hm
      cases hm
    simpa only [update_of_ne hne] using hs.unallocated a ha
  · exact hs.no_fault

theorem Private.access (hp : Private raw refs h m) : Private raw refs (h.access raw f) (f m) where
  sound := by
    refine hp.sound.access hp.object hp.unpooled (fun a _ ↦ rfl) ?_
    intro hmem
    exact absurd hmem hp.unreferenced
  object := objects_access hp.object
  unreferenced := hp.unreferenced
  unpooled T := pools_access (h := h) ▸ hp.unpooled T

end Access

section Pointers

theorem Owned.add_ref {n : ℕ} (ho : Owned n m) : Owned (n + 1) m.add_ref where
  count := by
    have hcount := ho.count
    simp only [TypedMessage.add_ref]
    omega
  recycler := ho.recycler
  callback := ho.callback

theorem Owned.release_ref {n : ℕ} (ho : Owned (n + 1) m) : Owned n m.release_ref.2 where
  count := by
    have hcount := ho.count
    simp only [TypedMessage.release_ref]
    omega
  recycler := ho.recycler
  callback := ho.callback

theorem Sound.copy (hs : Sound refs h) (hraw : raw ∈ refs) :
    Sound (raw :: refs) (MessagePtr.copy raw h) := by
  obtain ⟨m, hm, ho⟩ := hs.owned raw hraw
  refine hs.access hm (hs.unpooled hraw) (fun a hne ↦ List.count_cons_of_ne hne.symm) ?_
  intro _
  rw [List.count_cons_self]
  exact ho.add_ref

theorem Private.adopt (hp : Private raw refs h m) (hm : Owned 0 m) :
    Sound (raw :: refs) (MessagePtr.adopt raw h) := by
  refine hp.sound.access hp.object hp.unpooled (fun a hne ↦ List.count_cons_of_ne hne.symm) ?_
  intro _
  rw [List.count_cons_self, List.count_eq_zero_of_not_mem hp.unreferenced]
  exact hm.add_ref

theorem content_adopt (a : ℕ) : (MessagePtr.adopt raw h).content a = h.content a :=
  content_access_same (f := TypedMessage.add_ref) (fun _ ↦ rfl) a

theorem content_copy (a : ℕ) : (MessagePtr.copy raw h).content a = h.content a :=
  content_access_same (f := TypedMessage.add_ref) (fun _ ↦ rfl) a

end Pointers

theorem Private.delete (hp : Private raw refs h m) : Sound refs (h.delete raw) := by
  have hne : ∀ a, a ∈ refs → a ≠ raw := fun a ha he ↦ hp.unreferenced (he ▸ ha)
  have heq : h.delete raw = { h with objects := update h.objects raw none } := by
    unfold Heap.delete
    rw [hp.object]
  rw [heq]
  constructor
  · intro a ha
    simpa only [update_of_ne (hne a ha)] using hp.sound.owned a ha
  · intro T a ha
    have hne' : a ≠ raw := fun he ↦ hp.unpooled T (he ▸ ha)
    simpa only [update_of_ne hne'] using hp.sound.pooled T a ha
  · exact hp.sound.nodup
  · intro a ha
    by_cases he : a = raw
    · subst he
      exact update_self ..
    · simpa only [update_of_ne he] using hp.sound.unallocated a ha
  · exact hp.sound.no_fault

theorem content_delete {a : ℕ} (hne : a ≠ raw) : (h.delete raw).content a = h.content a := by
  unfold Heap.delete
  cases h.objects raw with
  | none => rfl
  | some m => simp only [Heap.content, update_of_ne hne]

/-- The last pointer to a message goes: the message is nobody's. -/
theorem Sound.forsaken (hs : Sound (raw :: refs) h) (hraw : raw ∉ refs)
    (hm : h.objects raw = some m) :
    Private raw refs (h.access raw fun m ↦ m.release_ref.2) m.release_ref.2 where
  sound := by
    refine hs.access hm (hs.unpooled (List.mem_cons_self ..)) ?_ (fun hmem ↦ absurd hmem hraw)
    intro a hne
    exact (List.count_cons_of_ne (Ne.symm hne)).symm
  object := objects_access hm
  unreferenced := hraw
  unpooled T := pools_access (h := h) ▸ hs.unpooled (List.mem_cons_self ..) T

theorem Sound.create {T : τ} (hs : Sound refs h) (topic_id : ℕ) (data : δ) :
    Private (h.create T topic_id data).1 refs (h.create T topic_id data).2
      { type := T, topic_id_ := topic_id, data_ := data } := by
  have hnone : h.objects h.next = none := hs.unallocated _ le_rfl
  have hrefs : h.next ∉ refs := by
    intro hmem
    obtain ⟨m, hm, -⟩ := hs.owned _ hmem
    rw [hnone] at hm
    cases hm
  have hpool : ∀ T, h.next ∉ h.pools T := by
    intro T hmem
    obtain ⟨-, m, hm, -⟩ := hs.pooled T _ hmem
    rw [hnone] at hm
    cases hm
  refine ⟨⟨?_, ?_, hs.nodup, ?_, hs.no_fault⟩, update_self .., hrefs, hpool⟩
  · intro a ha
    have hne : a ≠ h.next := fun he ↦ hrefs (he ▸ ha)
    simpa only [Heap.create, update_of_ne hne] using hs.owned a ha
  · intro T' a ha
    have hne : a ≠ h.next := fun he ↦ hpool T' (he ▸ ha)
    simpa only [Heap.create, update_of_ne hne] using hs.pooled T' a ha
  · intro a ha
    have hlt : h.next < a := ha
    simpa only [Heap.create, update_of_ne (Nat.ne_of_gt hlt)] using
      hs.unallocated a (Nat.le_of_lt hlt)

variable [DecidableEq τ]

section Release

variable {T : τ} {full : Bool}

theorem Private.cast (hp : Private raw refs h m) : h.cast m.type raw = h := by
  unfold Heap.cast
  rw [hp.object]
  simp

theorem Private.enpool (hp : Private raw refs h m) :
    Sound refs { h with pools := update h.pools m.type (h.pools m.type ++ [raw]) } where
  owned := hp.sound.owned
  pooled T a ha := by
    by_cases hT : T = m.type
    · subst hT
      simp only [update_self, List.mem_append, List.mem_singleton] at ha
      cases ha with
      | inl ha => exact hp.sound.pooled _ a ha
      | inr ha =>
        subst ha
        exact ⟨hp.unreferenced, m, hp.object, rfl⟩
    · simp only [update_of_ne hT] at ha
      exact hp.sound.pooled T a ha
  nodup T := by
    by_cases hT : T = m.type
    · subst hT
      simp only [update_self]
      refine (hp.sound.nodup _).append (List.nodup_singleton raw) ?_
      rw [List.disjoint_singleton]
      exact hp.unpooled m.type
    · simpa only [update_of_ne hT] using hp.sound.nodup T
  unallocated := hp.sound.unallocated
  no_fault := hp.sound.no_fault

theorem Private.release (hp : Private raw refs h m) :
    Sound refs (h.release m.type full raw) := by
  unfold Heap.release
  split
  · exact hp.delete
  · exact hp.enpool

theorem content_cast (a : ℕ) : (h.cast T raw).content a = h.content a := by
  unfold Heap.cast
  split <;> rfl

theorem content_recycle {a : ℕ} (hne : a ≠ raw) :
    (h.recycle T full raw).content a = h.content a := by
  unfold Heap.recycle Heap.release
  split
  · rw [content_delete hne, content_cast]
  · exact content_cast a

theorem Sound.reset (hs : Sound (raw :: refs) h) : Sound refs (MessagePtr.reset full raw h) := by
  obtain ⟨m, hm, ho⟩ := hs.owned raw (List.mem_cons_self ..)
  rw [List.count_cons_self] at ho
  have hcount := ho.count
  simp only [MessagePtr.reset, hm]
  by_cases hraw : raw ∈ refs
  · have hpos := List.count_pos_iff.mpr hraw
    have hlast : m.release_ref.1 = false := by
      simp only [TypedMessage.release_ref, decide_eq_false_iff_not]
      omega
    rw [hlast]
    refine hs.access hm (hs.unpooled (List.mem_cons_self ..)) ?_ (fun _ ↦ ho.release_ref)
    intro a hne
    exact (List.count_cons_of_ne (Ne.symm hne)).symm
  · have hzero := List.count_eq_zero_of_not_mem hraw
    have hlast : m.release_ref.1 = true := by
      simp only [TypedMessage.release_ref, decide_eq_true_eq]
      omega
    have hp := hs.forsaken hraw hm
    rw [hlast, if_pos rfl, ho.recycler]
    have hcast := hp.cast
    simp only [TypedMessage.release_ref] at hcast hp
    simp only [Heap.recycle, TypedMessage.release_ref, hcast]
    exact hp.release

theorem content_reset {a : ℕ} (hs : Sound (raw :: refs) h) (ha : a ∈ refs) :
    (MessagePtr.reset full raw h).content a = h.content a := by
  obtain ⟨m, hm, ho⟩ := hs.owned raw (List.mem_cons_self ..)
  have hkept : ∀ a, (h.access raw fun m ↦ m.release_ref.2).content a = h.content a :=
    content_access_same fun _ ↦ rfl
  simp only [MessagePtr.reset, hm]
  by_cases hlast : m.release_ref.1 = true
  · have hne : a ≠ raw := by
      intro he
      subst he
      have hpos := List.count_pos_iff.mpr ha
      have hcount := ho.count
      rw [List.count_cons_self] at hcount
      simp only [TypedMessage.release_ref, decide_eq_true_eq] at hlast
      omega
    rw [if_pos hlast, ho.recycler]
    simp only [content_recycle hne, hkept]
  · rw [if_neg hlast, hkept]

end Release

section NotifyDrop

def Content.dropCall (c : Content τ κ δ) : Option (DropCall κ δ) :=
  c.on_drop.map fun cb ↦ ⟨cb, c.topic_sv, c.data⟩

theorem Sound.notify_drop (hs : Sound refs h) (hraw : raw ∈ refs) :
    ∃ c, h.content raw = some c ∧ (h.notify_drop raw).1 = Content.dropCall c ∧
      Sound refs (h.notify_drop raw).2 ∧
      (h.notify_drop raw).2.content raw = some { c with on_drop := none } ∧
      ∀ a, a ≠ raw → (h.notify_drop raw).2.content a = h.content a := by
  obtain ⟨m, hm, ho⟩ := hs.owned raw hraw
  refine ⟨m.content, by rw [Heap.content, hm, Option.map_some], ?_⟩
  cases hd : m.on_drop_ with
  | none =>
    have heq : h.notify_drop raw = (none, h) := by simp only [Heap.notify_drop, hm, hd]
    rw [heq]
    refine ⟨?_, hs, ?_, fun a _ ↦ rfl⟩
    · simp [Content.dropCall, TypedMessage.content, hd]
    · simp [Heap.content, hm, TypedMessage.content, hd]
  | some d =>
    have hsound : Sound refs (h.access raw fun m ↦ { m with on_drop_ := none }) := by
      refine hs.access hm (hs.unpooled hraw) (fun a _ ↦ rfl) (fun _ ↦ ⟨ho.count, ho.recycler, ?_⟩)
      intro d' hd'
      cases hd'
    have hcast : (h.access raw fun m ↦ { m with on_drop_ := none }).cast d.type raw =
        h.access raw fun m ↦ { m with on_drop_ := none } := by
      have hany : (m.type = d.type) := (ho.callback d hd).symm
      simp [Heap.cast, access_eq hm, hany]
    have heq : h.notify_drop raw = (some ⟨d.cb, m.topic_sv_, m.data_⟩,
        h.access raw fun m ↦ { m with on_drop_ := none }) := by
      simp only [Heap.notify_drop, hm, hd, hcast]
    rw [heq]
    refine ⟨?_, hsound, ?_, fun a hne ↦ content_access_ne hne⟩
    · simp [Content.dropCall, TypedMessage.content, hd]
    · rw [content_access hm]
      simp [TypedMessage.content]

end NotifyDrop

section Acquire

variable {T : τ} {hit : Bool}

theorem Sound.acquire {h' : Heap τ κ δ} (hs : Sound refs h)
    (hget : h.acquire T hit = (some raw, h')) :
    (∃ m, m.type = T ∧ Private raw refs h' m) ∧ h'.objects = h.objects := by
  unfold Heap.acquire at hget
  cases hit with
  | false => simp at hget
  | true =>
    cases hpool : h.pools T with
    | nil => simp [hpool] at hget
    | cons a rest =>
      obtain ⟨rfl, rfl⟩ : a = raw ∧ { h with pools := update h.pools T rest } = h' := by
        simpa [hpool] using hget
      have hnodup := hs.nodup T
      rw [hpool, List.nodup_cons] at hnodup
      have hsub : ∀ T', ∀ b ∈ update h.pools T rest T', b ∈ h.pools T' := by
        intro T' b hb
        by_cases hT : T' = T
        · subst hT
          rw [update_self] at hb
          exact hpool ▸ List.mem_cons_of_mem a hb
        · rwa [update_of_ne hT] at hb
      obtain ⟨hnot, m, hm, htype⟩ := hs.pooled T a (hpool ▸ List.mem_cons_self ..)
      refine ⟨⟨m, htype, ?_, hm, hnot, ?_⟩, rfl⟩
      · refine ⟨hs.owned, fun T' b hb ↦ hs.pooled T' b (hsub T' b hb), ?_, hs.unallocated,
          hs.no_fault⟩
        intro T'
        by_cases hT : T' = T
        · subst hT
          simpa only [update_self] using hnodup.2
        · simpa only [update_of_ne hT] using hs.nodup T'
      · intro T' hmem
        by_cases hT : T' = T
        · subst hT
          simp only [update_self] at hmem
          exact hnodup.1 hmem
        · -- an object is in the pool of its own type only
          obtain ⟨-, m', hm', htype'⟩ := hs.pooled T' a (hsub T' a hmem)
          rw [hm, Option.some.injEq] at hm'
          subst hm'
          exact hT (htype'.symm.trans htype)

end Acquire

end LivioArk.Msgbus.Ownership
