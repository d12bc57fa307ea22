import LivioArk.Msgbus.Subscriptions

namespace LivioArk.Msgbus.SubStore

open Function LivioArk.Library.PrefixTree
open Levels TopicMatcher TopicRegistry WildcardTrie Subscriptions

variable {τ η ν ε : Type}

structure Sub (τ η : Type) where
  id : ℕ
  type : τ
  topic : Str
  handler : η
  deriving Repr, DecidableEq

structure Apart (b : SubState τ η) : Prop where
  distinct : (b.wildcard_trie_.root.contents.map fun x ↦ x.2.slot).Nodup
  below : ∀ x ∈ b.wildcard_trie_.root.contents, x.2.slot < b.allocated
  slots_below : ∀ tid slot, b.slots_ tid = some slot → slot < b.allocated
  slots_inj : ∀ tid tid' slot, b.slots_ tid = some slot → b.slots_ tid' = some slot → tid = tid'
  apart : ∀ tid slot, b.slots_ tid = some slot →
    ∀ x ∈ b.wildcard_trie_.root.contents, x.2.slot ≠ slot

def Sub.subscriber (x : Sub τ η) : Subscriber η := ⟨x.id, x.handler⟩

/-- An entry of the trie together with the contents of its slot. -/
def shown (heap : ℕ → TopicSlot τ η) (x : List Str × Entry τ ℕ) :
    List Str × τ × ℕ × TopicSlot τ η :=
  (x.1, x.2.type, x.2.sub_id, heap x.2.slot)

def Sub.expected (x : Sub τ η) : List Str × τ × ℕ × TopicSlot τ η :=
  (splitLevels x.topic, x.type, x.id, ⟨some x.type, [x.subscriber]⟩)

def wild (live : List (Sub τ η)) : List (Sub τ η) := live.filter fun x ↦ isWildcard x.topic

structure TrieHolds (b : SubState τ η) (live : List (Sub τ η)) : Prop where
  valid : b.wildcard_trie_.root.Valid
  contents : (b.wildcard_trie_.root.contents.map (shown b.heap)).Perm
    ((wild live).map Sub.expected)
  count : b.wildcard_trie_.entry_count = (wild live).length

structure SlotHolds (live : List (Sub τ η)) (topic : Str) (slot : TopicSlot τ η) : Prop where
  exact : isWildcard topic = false
  subscribers : slot.subscribers_ = (live.filter fun x ↦ x.topic = topic).map Sub.subscriber
  typed : ∃ T, slot.msg_type = some T ∧ ∀ x ∈ live, x.topic = topic → x.type = T

structure SlotsHold (b : SubState τ η) (live : List (Sub τ η)) : Prop where
  holds : ∀ tid slot, b.slots_ tid = some slot →
    ∃ topic, find topic b.registry_ = some tid ∧ SlotHolds live topic (b.heap slot)
  placed : ∀ x ∈ live, isWildcard x.topic = false →
    ∃ tid slot, find x.topic b.registry_ = some tid ∧ b.slots_ tid = some slot

/-- The structures that a dispatch reads agree with each other and with the
subscriptions they should hold. -/
structure Stored (b : SubState τ η) (live : List (Sub τ η)) : Prop where
  registry : Bijective b.registry_
  apart : Apart b
  trie : TrieHolds b live
  slots : SlotsHold b live
  orphans : ∀ slot, (∀ tid, b.slots_ tid ≠ some slot) →
    (∀ x ∈ b.wildcard_trie_.root.contents, x.2.slot ≠ slot) → (b.heap slot).subscribers_ = []

def Describes (registry : Registry) (x : Sub τ η) (info : SubInfo) : Prop :=
  if isWildcard x.topic then info.is_wildcard = true
  else info.is_wildcard = false ∧ find x.topic registry = some info.tid

theorem Describes.mono {r registry : Registry} {x : Sub τ η} {info : SubInfo}
    (h : Describes r x info)
    (hkeep : ∀ name id, find name r = some id → find name registry = some id) :
    Describes registry x info := by
  rw [Describes] at h ⊢
  split
  · rename_i hw
    simpa only [hw, if_true] using h
  · rename_i hw
    simp only [hw, Bool.false_eq_true, if_false] at h
    exact ⟨h.1, hkeep _ _ h.2⟩

section Dispatch

variable {b : SubState τ η} {live : List (Sub τ η)}

theorem TrieHolds.contents_nil (h : TrieHolds b live) (hc : b.wildcard_trie_.entry_count = 0) :
    b.wildcard_trie_.root.contents = [] := by
  have hlen := h.contents.length_eq
  rw [List.length_map, List.length_map, ← h.count, hc] at hlen
  exact List.length_eq_zero_iff.mp hlen

variable [DecidableEq τ] {msg : Message τ ν}
variable {call : η → ν → Except ε Unit}

def Sub.times (msg : Message τ ν) (x : Sub τ η) : ℕ :=
  if x.type = msg.type then
    if isWildcard x.topic then visits (splitLevels x.topic) (splitLevels msg.topic_sv_)
    else if x.topic = msg.topic_sv_ then 1 else 0
  else 0

def Sub.invocations (msg : Message τ ν) (x : Sub τ η) : List (Invocation η ν) :=
  List.replicate (x.times msg) ⟨x.id, x.handler, msg.data_⟩

theorem dispatchList_eq (call : η → ν → Except ε Unit) (data : ν) (subs : List (Subscriber η)) :
    TopicSlot.dispatchList call data subs = subs.map fun sub ↦ ⟨sub.id, sub.handler, data⟩ := by
  induction subs with
  | nil => rfl
  | cons sub subs ih =>
    rw [TopicSlot.dispatchList, ih]
    split <;> rfl

def shownInvocations (msg : Message τ ν) (x : List Str × τ × ℕ × TopicSlot τ η) :
    List (Invocation η ν) :=
  if x.2.1 = msg.type then
    (List.replicate (visits x.1 (splitLevels msg.topic_sv_)) x.2.2.2).flatMap fun slot ↦
      slot.subscribers_.map fun sub ↦ ⟨sub.id, sub.handler, msg.data_⟩
  else []

theorem shownInvocations_expected {x : Sub τ η} (hw : isWildcard x.topic = true) :
    shownInvocations msg x.expected = x.invocations msg := by
  by_cases ht : x.type = msg.type
  · simp [shownInvocations, Sub.expected, Sub.invocations, Sub.times, Sub.subscriber, ht, hw,
      List.flatMap_replicate, List.flatten_replicate_singleton]
  · simp [shownInvocations, Sub.expected, Sub.invocations, Sub.times, ht]

theorem TrieHolds.match_perm (h : TrieHolds b live) (topic : Str) (T : τ) :
    (match_ topic T b.wildcard_trie_).Perm
      (b.wildcard_trie_.root.contents.flatMap fun x ↦ hits T (splitLevels topic) x.1 x.2) := by
  rw [match_]
  split
  · rename_i hc
    rw [h.contents_nil hc]
    exact .nil
  · exact matchNode_perm h.valid _

/-- The wildcard half of `dispatchMessage`. -/
theorem TrieHolds.dispatch_perm (h : TrieHolds b live) :
    ((match_ msg.topic_sv_ msg.type b.wildcard_trie_).flatMap fun slot ↦
      TopicSlot.dispatchList call msg.data_ (b.heap slot).subscribers_).Perm
        ((wild live).flatMap (Sub.invocations msg)) := by
  have hshown : ∀ x : List Str × Entry τ ℕ,
      ((hits msg.type (splitLevels msg.topic_sv_) x.1 x.2).flatMap fun slot ↦
        TopicSlot.dispatchList call msg.data_ (b.heap slot).subscribers_) =
          shownInvocations msg (shown b.heap x) := by
    intro x
    by_cases ht : x.2.type = msg.type
    · simp [hits, shownInvocations, shown, ht, dispatchList_eq, List.flatMap_replicate]
    · simp [hits, shownInvocations, shown, ht]
  have hwild : ((wild live).map Sub.expected).flatMap (shownInvocations msg) =
      (wild live).flatMap (Sub.invocations msg) := by
    rw [List.flatMap_map]
    refine List.flatMap_congr fun x hx ↦ ?_
    exact shownInvocations_expected (List.mem_filter.mp hx).2
  refine ((h.match_perm _ _).flatMap_right _).trans ?_
  rw [List.flatMap_assoc]
  simp only [hshown]
  rw [← hwild, ← List.flatMap_map]
  exact h.contents.flatMap_right _

def exact (live : List (Sub τ η)) : List (Sub τ η) := live.filter fun x ↦ !isWildcard x.topic

/-- The exact half of the invocations comes from the subscriptions to the topic. -/
theorem flatMap_exact (hexact : isWildcard msg.topic_sv_ = false)
    (hty : ∀ x ∈ live, x.topic = msg.topic_sv_ → x.type = msg.type) :
    (exact live).flatMap (Sub.invocations msg) =
      (live.filter fun x ↦ x.topic = msg.topic_sv_).map fun x ↦ ⟨x.id, x.handler, msg.data_⟩ := by
  induction live with
  | nil => rfl
  | cons x live ih =>
    obtain ⟨hx, hty⟩ := List.forall_mem_cons.mp hty
    have ih := ih hty
    by_cases ht : x.topic = msg.topic_sv_
    · have hw : isWildcard x.topic = false := ht ▸ hexact
      simp only [exact] at ih
      simp [exact, ht, hexact, Sub.invocations, Sub.times, hx ht, ih]
    · by_cases hw : isWildcard x.topic = true
      · simpa [exact, ht, hw] using ih
      · simp only [exact] at ih
        simp [exact, ht, hw, Sub.invocations, Sub.times, ih]

theorem flatMap_exact_nil (hno : ∀ x ∈ live, isWildcard x.topic = false →
    x.topic = msg.topic_sv_ → x.type ≠ msg.type) :
    (exact live).flatMap (Sub.invocations msg) = [] := by
  refine List.flatMap_eq_nil_iff.mpr fun x hx ↦ ?_
  obtain ⟨hx, hw⟩ := List.mem_filter.mp hx
  have hw : isWildcard x.topic = false := by simpa using hw
  by_cases ht : x.topic = msg.topic_sv_
  · simp [Sub.invocations, Sub.times, hno x hx hw ht]
  · simp [Sub.invocations, Sub.times, hw, ht]

theorem SlotsHold.dispatch_eq (h : SlotsHold b live) (hreg : Bijective b.registry_)
    (hmsg : find msg.topic_sv_ b.registry_ = some msg.topic_id_) :
    ((exactSlot b msg).flatMap fun slot ↦
      TopicSlot.dispatchList call msg.data_ (b.heap slot).subscribers_) =
        (exact live).flatMap (Sub.invocations msg) := by
  rw [exactSlot]
  cases hslot : b.slots_ msg.topic_id_ with
  | none =>
    rw [flatMap_exact_nil]
    · rfl
    · intro x hx hw ht
      obtain ⟨tid, slot, hfind, hplaced⟩ := h.placed x hx hw
      rw [ht, hmsg, Option.some.injEq] at hfind
      rw [← hfind, hslot] at hplaced
      cases hplaced
  | some slot =>
    obtain ⟨topic, hfind, hholds⟩ := h.holds _ _ hslot
    obtain rfl := hreg.find_inj hfind hmsg
    obtain ⟨T, hT, htyped⟩ := hholds.typed
    by_cases hty : T = msg.type
    · subst hty
      rw [flatMap_exact hholds.exact htyped]
      simp [hT, dispatchList_eq, hholds.subscribers, Sub.subscriber]
    · rw [flatMap_exact_nil fun x hx _ ht he ↦ hty ((htyped x hx ht).symm.trans he)]
      simp [hT, hty]

theorem flatMap_split (live : List (Sub τ η)) (msg : Message τ ν) :
    ((exact live).flatMap (Sub.invocations msg) ++
      (wild live).flatMap (Sub.invocations msg)).Perm (live.flatMap (Sub.invocations msg)) := by
  rw [← List.flatMap_append]
  refine List.Perm.flatMap_right _ (List.perm_append_comm.trans ?_)
  exact List.filter_append_perm (fun x : Sub τ η ↦ isWildcard x.topic) live

/-- A dispatch that loads the slots finds a subscription to its topic. -/
theorem Stored.exactSlot_mem (h : Stored b live)
    (hmsg : find msg.topic_sv_ b.registry_ = some msg.topic_id_) {x : Sub τ η} (hx : x ∈ live)
    (hw : isWildcard x.topic = false) (htopic : x.topic = msg.topic_sv_)
    (hty : x.type = msg.type) :
    ∃ slot ∈ exactSlot b msg, slot < b.allocated ∧
      x.subscriber ∈ (b.heap slot).subscribers_ := by
  obtain ⟨tid, slot, hfind, hslot⟩ := h.slots.placed x hx hw
  rw [htopic, hmsg, Option.some.injEq] at hfind
  obtain ⟨topic, hname, hholds⟩ := h.slots.holds tid slot hslot
  obtain rfl : x.topic = topic := htopic.trans (h.registry.find_inj (hfind ▸ hmsg) hname)
  obtain ⟨T, hT, htyped⟩ := hholds.typed
  refine ⟨slot, ?_, h.apart.slots_below tid slot hslot, ?_⟩
  · simp [exactSlot, hfind, hslot, hT, ← htyped x hx rfl, hty]
  · rw [hholds.subscribers]
    exact List.mem_map_of_mem (List.mem_filter.mpr ⟨hx, by simp⟩)

theorem Stored.match_mem (h : Stored b live) {x : Sub τ η} (hx : x ∈ live)
    (hw : isWildcard x.topic = true) (hty : x.type = msg.type)
    (hvisits : 0 < visits (splitLevels x.topic) (splitLevels msg.topic_sv_)) :
    ∃ slot ∈ match_ msg.topic_sv_ msg.type b.wildcard_trie_, slot < b.allocated ∧
      x.subscriber ∈ (b.heap slot).subscribers_ := by
  have hmem : x.expected ∈ b.wildcard_trie_.root.contents.map (shown b.heap) :=
    h.trie.contents.mem_iff.mpr (List.mem_map_of_mem (List.mem_filter.mpr ⟨hx, hw⟩))
  obtain ⟨y, hy, he⟩ := List.mem_map.mp hmem
  have hpath : y.1 = splitLevels x.topic := congrArg Prod.fst he
  have htype : y.2.type = x.type := congrArg (fun z ↦ z.2.1) he
  have hslot : b.heap y.2.slot = ⟨some x.type, [x.subscriber]⟩ := congrArg (fun z ↦ z.2.2.2) he
  refine ⟨y.2.slot, (h.trie.match_perm _ _).mem_iff.mpr ?_, h.apart.below y hy, by simp [hslot]⟩
  refine List.mem_flatMap.mpr ⟨y, hy, ?_⟩
  simp [hits, htype, hty, hpath, Nat.pos_iff_ne_zero.mp hvisits]

/-- Every live subscription is invoked as often as it should be, whatever the
handlers throw. -/
theorem Stored.dispatch_perm (h : Stored b live)
    (hmsg : find msg.topic_sv_ b.registry_ = some msg.topic_id_) :
    (dispatchMessage b call msg).Perm (live.flatMap (Sub.invocations msg)) := by
  rw [dispatchMessage, matchedSlots, List.flatMap_append, h.slots.dispatch_eq h.registry hmsg]
  exact (h.trie.dispatch_perm.append_left _).trans (flatMap_split live msg)

end Dispatch

section Sections

variable {b : SubState τ η} {live : List (Sub τ η)} {T : τ} {topic : Str} {handler : η}
variable {id tid slot : ℕ}

theorem stored_initial : Stored ({} : SubState τ η) [] where
  registry := bijective_initial
  apart := ⟨List.nodup_nil, fun _ h ↦ (by cases h), fun _ _ h ↦ (by cases h),
    fun _ _ _ h ↦ (by cases h), fun _ _ h ↦ (by cases h)⟩
  trie := ⟨trivial, .nil, rfl⟩
  slots := ⟨fun _ _ h ↦ (by cases h), fun _ h ↦ (by cases h)⟩
  orphans _ _ _ := rfl

theorem Stored.frame (h : Stored b live) (next_id_ : ℕ) (sub_to_topic_ : ℕ → Option SubInfo) :
    Stored { b with next_id_, sub_to_topic_ } live :=
  ⟨h.registry, { h.apart with }, { h.trie with }, { h.slots with }, h.orphans⟩

theorem map_shown_update {entries : List (List Str × Entry τ ℕ)} {heap : ℕ → TopicSlot τ η}
    (hne : ∀ x ∈ entries, x.2.slot ≠ slot) (s : TopicSlot τ η) :
    entries.map (shown (update heap slot s)) = entries.map (shown heap) := by
  refine List.map_congr_left fun x hx ↦ ?_
  rw [shown, shown, update_of_ne (hne x hx)]

theorem wild_append (live : List (Sub τ η)) (x : Sub τ η) :
    wild (live ++ [x]) = wild live ++ if isWildcard x.topic then [x] else [] := by
  rw [wild, List.filter_append]
  cases hw : isWildcard x.topic <;> simp [wild, hw]

theorem filter_topic_append (live : List (Sub τ η)) (x : Sub τ η) (topic : Str) :
    (live ++ [x]).filter (fun y ↦ y.topic = topic) =
      live.filter (fun y ↦ y.topic = topic) ++ if x.topic = topic then [x] else [] := by
  rw [List.filter_append]
  by_cases ht : x.topic = topic <;> simp [ht]

/-- Nothing is lost when entries leave the trie or change places in it. -/
theorem Apart.of_subperm (h : Apart b) {root : Node Str (Entry τ ℕ)} {n : ℕ}
    (hsub : root.contents.Subperm b.wildcard_trie_.root.contents) :
    Apart { b with wildcard_trie_ := ⟨root, n⟩ } where
  distinct := by
    obtain ⟨l, hperm, hl⟩ := hsub
    exact (hperm.map _).nodup_iff.mp (h.distinct.sublist (hl.map _))
  below x hx := h.below x (hsub.subset hx)
  slots_below := h.slots_below
  slots_inj := h.slots_inj
  apart tid slot hslot x hx := h.apart tid slot hslot x (hsub.subset hx)

theorem Stored.resolveSlow (h : Stored b live)
    (hb : Bijective (resolveSlow topic b.registry_).2) :
    Stored { b with registry_ := (resolveSlow topic b.registry_).2 } live where
  registry := hb
  apart := { h.apart with }
  trie := { h.trie with }
  slots := by
    refine ⟨fun tid slot hslot ↦ ?_, fun x hx hw ↦ ?_⟩
    · obtain ⟨name, hfind, hholds⟩ := h.slots.holds tid slot hslot
      exact ⟨name, find_resolveSlow hfind topic, hholds⟩
    · obtain ⟨tid, slot, hfind, hslot⟩ := h.slots.placed x hx hw
      exact ⟨tid, slot, find_resolveSlow hfind topic, hslot⟩
  orphans := h.orphans

theorem Stored.rehash (h : Stored b live) (way : List Bool) :
    Stored { b with wildcard_trie_ :=
      { b.wildcard_trie_ with root := b.wildcard_trie_.root.swap way } } live where
  registry := h.registry
  apart := h.apart.of_subperm (Node.swap_contents way _).subperm
  trie := by
    refine ⟨Node.swap_valid way h.trie.valid, ?_, h.trie.count⟩
    exact ((Node.swap_contents way _).map _).trans h.trie.contents
  slots := { h.slots with }
  orphans slot hslot hne :=
    h.orphans slot hslot fun x hx ↦ hne x ((Node.swap_contents way _).mem_iff.mpr hx)

theorem Apart.place (h : Apart b) (T : τ) (tid : ℕ) :
    Apart { (makeSlot b T).2 with slots_ := update b.slots_ tid (some b.allocated) } where
  distinct := h.distinct
  below x hx := Nat.lt_succ_of_lt (h.below x hx)
  slots_below tid' slot hslot := by
    by_cases ht : tid' = tid
    · subst ht
      simp only [update_self, Option.some.injEq] at hslot
      exact hslot ▸ Nat.lt_succ_self _
    · simp only [update_of_ne ht] at hslot
      exact Nat.lt_succ_of_lt (h.slots_below tid' slot hslot)
  slots_inj t u slot ht hu := by
    have hnew : ∀ v, b.slots_ v ≠ some b.allocated :=
      fun v hv ↦ Nat.lt_irrefl _ (h.slots_below v _ hv)
    by_cases htt : t = tid <;> by_cases hut : u = tid
    · rw [htt, hut]
    · simp only [htt, update_self, Option.some.injEq, update_of_ne hut] at ht hu
      exact absurd (ht ▸ hu) (hnew u)
    · simp only [hut, update_self, Option.some.injEq, update_of_ne htt] at ht hu
      exact absurd (hu ▸ ht) (hnew t)
    · simp only [update_of_ne htt, update_of_ne hut] at ht hu
      exact h.slots_inj t u slot ht hu
  apart tid' slot hslot x hx := by
    by_cases ht : tid' = tid
    · simp only [ht, update_self, Option.some.injEq] at hslot
      exact hslot ▸ Nat.ne_of_lt (h.below x hx)
    · simp only [update_of_ne ht] at hslot
      exact h.apart tid' slot hslot x hx

theorem Stored.place (h : Stored b live) (T : τ) (hfind : find topic b.registry_ = some tid)
    (hw : isWildcard topic = false) (hnone : b.slots_ tid = none) :
    Stored { (makeSlot b T).2 with slots_ := update b.slots_ tid (some b.allocated) } live where
  registry := h.registry
  apart := h.apart.place T tid
  trie := by
    refine ⟨h.trie.valid, ?_, h.trie.count⟩
    have hne := fun x hx ↦ Nat.ne_of_lt (h.apart.below x hx)
    exact (map_shown_update hne _).symm ▸ h.trie.contents
  slots := by
    refine ⟨fun tid' slot hslot ↦ ?_, fun x hx hwx ↦ ?_⟩
    · by_cases ht : tid' = tid
      · subst ht
        simp only [update_self, Option.some.injEq] at hslot
        subst hslot
        have hnot : ∀ x ∈ live, x.topic ≠ topic := by
          rintro x hx rfl
          obtain ⟨tid', slot, hfind', hslot⟩ := h.slots.placed x hx hw
          rw [hfind, Option.some.injEq] at hfind'
          rw [← hfind', hnone] at hslot
          cases hslot
        refine ⟨topic, hfind, hw, ?_, T, ?_, fun x hx ht ↦ absurd ht (hnot x hx)⟩
        · have hempty : live.filter (fun x ↦ x.topic = topic) = [] :=
            List.filter_eq_nil_iff.mpr fun x hx ↦ by simpa using hnot x hx
          simp only [makeSlot, update_self, hempty, List.map_nil]
        · simp only [makeSlot, update_self]
      · simp only [update_of_ne ht] at hslot
        obtain ⟨name, hname, hholds⟩ := h.slots.holds tid' slot hslot
        refine ⟨name, hname, ?_⟩
        simp only [makeSlot, update_of_ne (Nat.ne_of_lt (h.apart.slots_below tid' slot hslot))]
        exact hholds
    · obtain ⟨tid', slot, hfind', hslot⟩ := h.slots.placed x hx hwx
      have hne : tid' ≠ tid := by
        rintro rfl
        rw [hnone] at hslot
        cases hslot
      refine ⟨tid', slot, hfind', ?_⟩
      simp only [update_of_ne hne]
      exact hslot
  orphans slot hslot hne := by
    have hs : slot ≠ b.allocated := by
      rintro rfl
      exact hslot tid (update_self ..)
    simp only [makeSlot, update_of_ne hs]
    refine h.orphans slot (fun tid' hs' ↦ ?_) hne
    have ht : tid' ≠ tid := by
      rintro rfl
      rw [hnone] at hs'
      cases hs'
    exact hslot tid' ((update_of_ne ht _ _).trans hs')

theorem Stored.createSlot [DecidableEq τ] {b' : SubState τ η} (h : Stored b live)
    (hfind : find topic b.registry_ = some tid) (hw : isWildcard topic = false)
    (hc : createSlot b T tid = (.ok slot, b')) :
    Stored b' live ∧ b'.slots_ tid = some slot ∧ (b'.heap slot).msg_type = some T := by
  rcases createSlot_ok hc with ⟨rfl, hslot, hty⟩ | ⟨hnone, rfl, rfl⟩
  · obtain ⟨_, _, hholds⟩ := h.slots.holds tid slot hslot
    obtain ⟨T', hT', _⟩ := hholds.typed
    exact ⟨h, hslot, hty T' hT' ▸ hT'⟩
  · refine ⟨h.place T hfind hw hnone, ?_, ?_⟩
    · simp only [update_self]
    · simp only [makeSlot, update_self]

theorem Stored.addSubscriber (h : Stored b live) {x : Sub τ η}
    (hfind : find x.topic b.registry_ = some tid) (hslot : b.slots_ tid = some slot)
    (hty : (b.heap slot).msg_type = some x.type) :
    Stored (updateSlot b slot (·.addSubscriber x.handler x.id)) (live ++ [x]) where
  registry := h.registry
  apart := { h.apart with }
  trie := by
    obtain ⟨topic, hfind', hholds⟩ := h.slots.holds tid slot hslot
    obtain rfl := h.registry.find_inj hfind hfind'
    have hwild : wild (live ++ [x]) = wild live := by simp [wild_append, hholds.exact]
    refine ⟨h.trie.valid, ?_, ?_⟩
    · rw [hwild, updateSlot, map_shown_update (h.apart.apart tid slot hslot)]
      exact h.trie.contents
    · rw [hwild]
      exact h.trie.count
  slots := by
    obtain ⟨topic, hfind', hholds⟩ := h.slots.holds tid slot hslot
    obtain rfl := h.registry.find_inj hfind hfind'
    refine ⟨fun tid' slot' hslot' ↦ ?_, fun y hy hw ↦ ?_⟩
    · by_cases hs : slot' = slot
      · subst hs
        obtain rfl := h.apart.slots_inj tid tid' slot' hslot hslot'
        obtain ⟨T, hT, htyped⟩ := hholds.typed
        refine ⟨x.topic, hfind, hholds.exact, ?_, T, ?_, fun y hy ht ↦ ?_⟩
        · simp only [updateSlot, update_self, TopicSlot.addSubscriber, hholds.subscribers,
            filter_topic_append, if_true, List.map_append, List.map_singleton, Sub.subscriber]
        · simpa only [updateSlot, update_self, TopicSlot.addSubscriber] using hT
        · rcases List.mem_append.mp hy with hy | hy
          · exact htyped y hy ht
          · rw [List.mem_singleton.mp hy]
            exact Option.some.inj (hty.symm.trans hT)
      · obtain ⟨name, hname, hheld⟩ := h.slots.holds tid' slot' hslot'
        have hne : x.topic ≠ name := by
          rintro rfl
          rw [hfind, Option.some.injEq] at hname
          subst hname
          exact hs (Option.some.inj (hslot'.symm.trans hslot))
        obtain ⟨T, hT, htyped⟩ := hheld.typed
        refine ⟨name, hname, hheld.exact, ?_, T, ?_, fun y hy ht ↦ ?_⟩
        · simp only [updateSlot, update_of_ne hs, hheld.subscribers, filter_topic_append, hne,
            if_false, List.append_nil]
        · simpa only [updateSlot, update_of_ne hs] using hT
        · rcases List.mem_append.mp hy with hy | hy
          · exact htyped y hy ht
          · exact absurd (List.mem_singleton.mp hy ▸ ht) hne
    · rcases List.mem_append.mp hy with hy | hy
      · exact h.slots.placed y hy hw
      · rw [List.mem_singleton.mp hy]
        exact ⟨tid, slot, hfind, hslot⟩
  orphans slot' hs hne := by
    have hs' : slot' ≠ slot := by
      rintro rfl
      exact hs tid hslot
    simp only [updateSlot, update_of_ne hs']
    exact h.orphans slot' hs hne

theorem Stored.subscribeWildcard (h : Stored b live) {x : Sub τ η}
    (hw : isWildcard x.topic = true) :
    Stored (subscribeWildcard b x.type x.topic x.handler x.id) (live ++ [x]) where
  registry := h.registry
  apart := by
    have hperm := (Node.insertAt_contents ⟨x.type, b.allocated, x.id⟩ (splitLevels x.topic)
      b.wildcard_trie_.root).perm
    have hnew := fun y hy ↦ Nat.ne_of_lt (h.apart.below y hy)
    refine ⟨?_, fun y hy ↦ ?_, fun tid slot hslot ↦ ?_, h.apart.slots_inj,
      fun tid slot hslot y hy ↦ ?_⟩
    · refine (hperm.map _).nodup_iff.mpr ?_
      rw [List.map_cons, List.nodup_cons, List.mem_map]
      exact ⟨fun ⟨y, hy, he⟩ ↦ hnew y hy he, h.apart.distinct⟩
    · rcases List.mem_cons.mp (hperm.mem_iff.mp hy) with rfl | hy
      · exact Nat.lt_succ_self _
      · exact Nat.lt_succ_of_lt (h.apart.below y hy)
    · exact Nat.lt_succ_of_lt (h.apart.slots_below tid slot hslot)
    · rcases List.mem_cons.mp (hperm.mem_iff.mp hy) with rfl | hy
      · exact (Nat.ne_of_lt (h.apart.slots_below tid slot hslot)).symm
      · exact h.apart.apart tid slot hslot y hy
  trie := by
    have hperm := (Node.insertAt_contents ⟨x.type, b.allocated, x.id⟩ (splitLevels x.topic)
      b.wildcard_trie_.root).perm
    have hnew := fun y hy ↦ Nat.ne_of_lt (h.apart.below y hy)
    have hwild : wild (live ++ [x]) = wild live ++ [x] := by simp [wild_append, hw]
    refine ⟨Node.insertAt_valid _ _ h.trie.valid, ?_, ?_⟩
    · rw [hwild, List.map_append]
      refine (hperm.map _).trans (.trans ?_ (List.perm_append_singleton _ _).symm)
      simp only [Subscriptions.subscribeWildcard, updateSlot, makeSlot, List.map_cons,
        update_idem, map_shown_update hnew]
      have hshown : ∀ heap : ℕ → TopicSlot τ η, shown (update heap b.allocated
          (TopicSlot.addSubscriber x.handler x.id (update heap b.allocated
            { msg_type := some x.type } b.allocated)))
              (splitLevels x.topic, ⟨x.type, b.allocated, x.id⟩) = x.expected := by
        intro heap
        simp [shown, Sub.expected, TopicSlot.addSubscriber, Sub.subscriber]
      rw [hshown]
      exact h.trie.contents.cons _
    · rw [hwild, List.length_append, ← h.trie.count]
      rfl
  slots := by
    have hother : ∀ y : Sub τ η, isWildcard y.topic = false → y ≠ x := by
      rintro y hy rfl
      rw [hy] at hw
      cases hw
    refine ⟨fun tid slot hslot ↦ ?_, fun y hy hwy ↦ ?_⟩
    · obtain ⟨topic, hfind, hheld⟩ := h.slots.holds tid slot hslot
      have hne : x.topic ≠ topic := by
        rintro rfl
        exact hother x hheld.exact rfl
      have hs : slot ≠ b.allocated := Nat.ne_of_lt (h.apart.slots_below tid slot hslot)
      obtain ⟨T, hT, htyped⟩ := hheld.typed
      refine ⟨topic, hfind, hheld.exact, ?_, T, ?_, fun y hy ht ↦ ?_⟩
      · simp only [Subscriptions.subscribeWildcard, updateSlot, makeSlot, update_of_ne hs,
          hheld.subscribers, filter_topic_append, hne, if_false, List.append_nil]
      · simpa only [Subscriptions.subscribeWildcard, updateSlot, makeSlot, update_of_ne hs] using hT
      · rcases List.mem_append.mp hy with hy | hy
        · exact htyped y hy ht
        · exact absurd (List.mem_singleton.mp hy ▸ ht) hne
    · rcases List.mem_append.mp hy with hy | hy
      · exact h.slots.placed y hy hwy
      · exact absurd (List.mem_singleton.mp hy) (hother y hwy)
  orphans slot hslot hne := by
    have hperm := (Node.insertAt_contents ⟨x.type, b.allocated, x.id⟩ (splitLevels x.topic)
      b.wildcard_trie_.root).perm
    have hs : slot ≠ b.allocated :=
      fun he ↦ hne _ (hperm.mem_iff.mpr List.mem_cons_self) he.symm
    simp only [Subscriptions.subscribeWildcard, updateSlot, makeSlot, update_of_ne hs]
    exact h.orphans slot hslot fun y hy ↦ hne y (hperm.mem_iff.mpr (List.mem_cons_of_mem _ hy))

theorem eq_of_id (hnodup : (live.map Sub.id).Nodup) {x y : Sub τ η} (hx : x ∈ live) (hy : y ∈ live)
    (hid : y.id = x.id) : y = x :=
  List.inj_on_of_nodup_map hnodup hy hx hid

theorem filter_id_of_not (hnodup : (live.map Sub.id).Nodup) {x : Sub τ η} (hx : x ∈ live)
    {P : Sub τ η → Bool} (hP : P x = false) :
    (live.filter fun y ↦ y.id ≠ x.id).filter P = live.filter P := by
  rw [List.filter_filter]
  refine List.filter_congr fun y hy ↦ ?_
  by_cases hid : y.id = x.id
  · obtain rfl := eq_of_id hnodup hx hy hid
    simp [hP]
  · simp [hid]

theorem TrieHolds.entry (h : TrieHolds b live) {y : List Str × Entry τ ℕ}
    (hy : y ∈ b.wildcard_trie_.root.contents) : ∃ x ∈ wild live, x.expected = shown b.heap y :=
  List.mem_map.mp (h.contents.mem_iff.mp (List.mem_map_of_mem hy))

theorem Stored.subscribed (h : Stored b live) {sub : Subscriber η}
    (hsub : sub ∈ (b.heap slot).subscribers_) : ∃ x ∈ live, x.subscriber = sub := by
  by_cases hslot : ∃ tid, b.slots_ tid = some slot
  · obtain ⟨tid, hslot⟩ := hslot
    obtain ⟨topic, _, hholds⟩ := h.slots.holds tid slot hslot
    rw [hholds.subscribers] at hsub
    obtain ⟨x, hx, rfl⟩ := List.mem_map.mp hsub
    exact ⟨x, (List.mem_filter.mp hx).1, rfl⟩
  · by_cases hentry : ∃ y ∈ b.wildcard_trie_.root.contents, y.2.slot = slot
    · obtain ⟨y, hy, rfl⟩ := hentry
      obtain ⟨x, hx, he⟩ := h.trie.entry hy
      have hheap : b.heap y.2.slot = ⟨some x.type, [x.subscriber]⟩ :=
        (congrArg (fun z ↦ z.2.2.2) he).symm
      rw [hheap] at hsub
      exact ⟨x, (List.mem_filter.mp hx).1, (List.mem_singleton.mp hsub).symm⟩
    · push Not at hslot hentry
      rw [h.orphans slot hslot hentry] at hsub
      cases hsub

/-- No part of a subscription is left in the bus. -/
structure NothingLeft (b : SubState τ η) (id : ℕ) : Prop where
  subscribers : ∀ slot, ∀ sub ∈ (b.heap slot).subscribers_, sub.id ≠ id
  entries : ∀ y ∈ b.wildcard_trie_.root.contents, y.2.sub_id ≠ id
  record : b.sub_to_topic_ id = none

theorem Stored.nothingLeft (h : Stored b live) (hlive : ∀ x ∈ live, x.id ≠ id)
    (hrecord : b.sub_to_topic_ id = none) : NothingLeft b id := by
  refine ⟨fun slot sub hsub he ↦ ?_, fun y hy he ↦ ?_, hrecord⟩
  · obtain ⟨x, hx, rfl⟩ := h.subscribed hsub
    exact hlive x hx he
  · obtain ⟨x, hx, hshown⟩ := h.trie.entry hy
    have hid : x.id = y.2.sub_id := congrArg (fun z ↦ z.2.2.1) hshown
    exact hlive x (List.mem_filter.mp hx).1 (hid.trans he)

theorem TrieHolds.removeFrom (h : TrieHolds b live) {x : Sub τ η} (hx : x ∈ wild live) :
    ∃ entry root path,
      b.wildcard_trie_.root.removeFrom (fun entry ↦ entry.sub_id = x.id) = some (entry, root) ∧
        entry.sub_id = x.id ∧
          b.wildcard_trie_.root.contents.Perm ((path, entry) :: root.contents) := by
  cases hr : b.wildcard_trie_.root.removeFrom (fun entry ↦ entry.sub_id = x.id) with
  | none =>
    obtain ⟨y, hy, he⟩ := List.mem_map.mp
      (h.contents.mem_iff.mpr (List.mem_map.mpr ⟨x, hx, rfl⟩))
    have hnot := Node.removeFrom_none hr y hy
    have hid : y.2.sub_id = x.id := congrArg (fun z ↦ z.2.2.1) he
    simp [hid] at hnot
  | some found =>
    obtain ⟨entry, root⟩ := found
    obtain ⟨hid, path, hmore⟩ := Node.removeFrom_some hr
    exact ⟨entry, root, path, rfl, by simpa using hid, hmore.perm⟩

theorem TrieHolds.contents_removed (h : TrieHolds b live) (hnodup : (live.map Sub.id).Nodup)
    {path : List Str} {entry : Entry τ ℕ} {root : Node Str (Entry τ ℕ)} (hid : entry.sub_id = id)
    (hperm : b.wildcard_trie_.root.contents.Perm ((path, entry) :: root.contents)) :
    (root.contents.map (shown b.heap)).Perm
      ((wild (live.filter fun y ↦ y.id ≠ id)).map Sub.expected) := by
  have hshown := (hperm.symm.map (shown b.heap)).trans h.contents
  have hids : ((wild live).map Sub.expected).map (fun z ↦ z.2.2.1) = (wild live).map Sub.id := by
    rw [List.map_map]
    rfl
  have hwild : ((wild live).map Sub.id).Nodup := hnodup.sublist (List.filter_sublist.map _)
  rw [← hids, ← (hshown.map _).nodup_iff, List.map_cons, List.map_cons, List.nodup_cons] at hwild
  have hrest : ∀ z ∈ root.contents.map (shown b.heap), z.2.2.1 ≠ id := by
    intro z hz he
    exact hwild.1 (List.mem_map.mpr ⟨z, hz, he.trans hid.symm⟩)
  have hfilter := hshown.filter fun z ↦ z.2.2.1 ≠ id
  rw [List.map_cons, List.filter_cons_of_neg (by simp [shown, hid]),
    List.filter_eq_self.mpr (by simpa using hrest), List.filter_map] at hfilter
  rw [wild, List.filter_filter, List.filter_congr fun y _ ↦ Bool.and_comm _ _,
    ← List.filter_filter]
  exact hfilter

theorem Stored.removeWildcard (h : Stored b live) (hnodup : (live.map Sub.id).Nodup)
    {x : Sub τ η} (hx : x ∈ live) (hw : isWildcard x.topic = true) :
    Stored (removeWildcard b x.id) (live.filter fun y ↦ y.id ≠ x.id) := by
  obtain ⟨entry, root, path, hr, hid, hperm⟩ := h.trie.removeFrom (List.mem_filter.mpr ⟨hx, hw⟩)
  have hdistinct := (hperm.map fun y ↦ y.2.slot).nodup_iff.mp h.apart.distinct
  rw [List.map_cons, List.nodup_cons, List.mem_map] at hdistinct
  have hslots : ∀ y ∈ root.contents, y.2.slot ≠ entry.slot :=
    fun y hy he ↦ hdistinct.1 ⟨y, hy, he⟩
  have hentry : (path, entry) ∈ b.wildcard_trie_.root.contents :=
    hperm.mem_iff.mpr List.mem_cons_self
  have hcontents := h.trie.contents_removed hnodup hid hperm
  simp only [Subscriptions.removeWildcard, remove, hr, Option.map_some]
  refine ⟨h.registry, ?_, ⟨Node.removeFrom_valid h.trie.valid hr, ?_, ?_⟩, ?_, fun slot hs hne ↦ ?_⟩
  · have hsub : root.contents.Subperm b.wildcard_trie_.root.contents :=
      (List.sublist_cons_self _ _).subperm.trans hperm.symm.subperm
    exact { h.apart.of_subperm (n := b.wildcard_trie_.entry_count - 1) hsub with }
  · simp only [updateSlot, map_shown_update hslots]
    exact hcontents
  · have hlen := hperm.length_eq
    have hall := h.trie.contents.length_eq
    have hleft := hcontents.length_eq
    have hcount := h.trie.count
    simp only [List.length_cons, List.length_map] at hlen hall hleft
    simp only [updateSlot]
    omega
  · refine ⟨fun tid slot hslot ↦ ?_, fun y hy hwy ↦ ?_⟩
    · obtain ⟨topic, hfind, hheld⟩ := h.slots.holds tid slot hslot
      have hs : slot ≠ entry.slot := (h.apart.apart tid slot hslot _ hentry).symm
      have hne : decide (x.topic = topic) = false := by
        simp only [decide_eq_false_iff_not]
        rintro rfl
        rw [hheld.exact] at hw
        cases hw
      obtain ⟨T, hT, htyped⟩ := hheld.typed
      refine ⟨topic, hfind, hheld.exact, ?_, T, ?_, fun y hy ht ↦ ?_⟩
      · simp only [updateSlot, update_of_ne hs, hheld.subscribers]
        rw [filter_id_of_not hnodup hx (P := fun y ↦ decide (y.topic = topic)) hne]
      · simpa only [updateSlot, update_of_ne hs] using hT
      · exact htyped y (List.mem_filter.mp hy).1 ht
    · exact h.slots.placed y (List.mem_filter.mp hy).1 hwy
  · by_cases he : slot = entry.slot
    · rw [he]
      obtain ⟨y, _, hy⟩ := h.trie.entry hentry
      have hslot : b.heap entry.slot = ⟨some y.type, [y.subscriber]⟩ :=
        (congrArg (fun z ↦ z.2.2.2) hy).symm
      have hyid : y.id = x.id := (congrArg (fun z ↦ z.2.2.1) hy).trans hid
      simp [updateSlot, TopicSlot.removeSubscriber, hslot, Sub.subscriber, hyid]
    · simp only [updateSlot, update_of_ne he]
      refine h.orphans slot hs fun y hy ↦ ?_
      rcases List.mem_cons.mp (hperm.mem_iff.mp hy) with rfl | hy
      · exact Ne.symm he
      · exact hne y hy

theorem Stored.removeExact (h : Stored b live) (hnodup : (live.map Sub.id).Nodup)
    {x : Sub τ η} (hx : x ∈ live) (hw : isWildcard x.topic = false)
    (hfind : find x.topic b.registry_ = some tid) :
    Stored (removeExact b x.id tid) (live.filter fun y ↦ y.id ≠ x.id) := by
  obtain ⟨tid', slot, hfind', hslot⟩ := h.slots.placed x hx hw
  obtain rfl : tid = tid' := Option.some.inj (hfind.symm.trans hfind')
  have hwild : wild (live.filter fun y ↦ y.id ≠ x.id) = wild live :=
    filter_id_of_not hnodup hx hw
  simp only [Subscriptions.removeExact, hslot]
  refine ⟨h.registry, { h.apart with }, ⟨h.trie.valid, ?_, ?_⟩, ?_, fun slot' hs hne ↦ ?_⟩
  · rw [hwild, updateSlot, map_shown_update (h.apart.apart tid slot hslot)]
    exact h.trie.contents
  · rw [hwild]
    exact h.trie.count
  · refine ⟨fun tid' slot' hslot' ↦ ?_, fun y hy hwy ↦ ?_⟩
    · obtain ⟨topic, hname, hheld⟩ := h.slots.holds tid' slot' hslot'
      obtain ⟨T, hT, htyped⟩ := hheld.typed
      refine ⟨topic, hname, hheld.exact, ?_, T, ?_, fun y hy ht ↦ ?_⟩
      · by_cases hs : slot' = slot
        · subst hs
          simp only [updateSlot, update_self, TopicSlot.removeSubscriber, hheld.subscribers,
            List.filter_map, List.filter_filter]
          congr 1
          refine List.filter_congr fun y _ ↦ ?_
          by_cases hid : y.id = x.id <;> simp [Sub.subscriber, hid]
        · have hne : decide (x.topic = topic) = false := by
            simp only [decide_eq_false_iff_not]
            rintro rfl
            rw [hfind, Option.some.injEq] at hname
            subst hname
            exact hs (Option.some.inj (hslot'.symm.trans hslot))
          simp only [updateSlot, update_of_ne hs, hheld.subscribers]
          rw [filter_id_of_not hnodup hx (P := fun y ↦ decide (y.topic = topic)) hne]
      · by_cases hs : slot' = slot
        · subst hs
          simpa only [updateSlot, update_self, TopicSlot.removeSubscriber] using hT
        · simpa only [updateSlot, update_of_ne hs] using hT
      · exact htyped y (List.mem_filter.mp hy).1 ht
    · exact h.slots.placed y (List.mem_filter.mp hy).1 hwy
  · have hs' : slot' ≠ slot := by
      rintro rfl
      exact hs tid hslot
    simp only [updateSlot, update_of_ne hs']
    exact h.orphans slot' hs hne

theorem Stored.detach (h : Stored b live) (hnodup : (live.map Sub.id).Nodup) {x : Sub τ η}
    (hx : x ∈ live) {info : SubInfo} (hd : Describes b.registry_ x info) :
    Stored (detach b x.id info) (live.filter fun y ↦ y.id ≠ x.id) := by
  rw [Describes] at hd
  rw [Subscriptions.detach]
  split at hd
  · rename_i hw
    simp only [hd, if_true]
    exact h.removeWildcard hnodup hx hw
  · rename_i hw
    simp only [hd.1, Bool.false_eq_true, if_false]
    exact h.removeExact hnodup hx (by simpa using hw) hd.2

variable [DecidableEq τ] {b' : SubState τ η} {info : SubInfo}

theorem attach_keeps {result : Except String (ℕ × SubInfo)}
    (hc : attach b T topic handler = (result, b')) {name : Str}
    (hf : find name b.registry_ = some tid) : find name b'.registry_ = some tid := by
  rw [(attach_frame hc).2.2]
  split
  · exact hf
  · exact find_resolveSlow hf topic

theorem Stored.attach_error (h : Stored b live)
    (hbij : isWildcard topic = false → Bijective (TopicRegistry.resolveSlow topic b.registry_).2)
    {e : String} (hc : attach b T topic handler = (.error e, b')) : Stored b' live := by
  by_cases hw : isWildcard topic = true
  · simp only [attach, hw, if_true] at hc
    split at hc <;> cases hc
    exact h.frame _ _
  · have hw : isWildcard topic = false := by simpa using hw
    have hstored := (h.resolveSlow (hbij hw)).frame (fetchId b).1 b.sub_to_topic_
    rw [attach_exact hw] at hc
    rcases hslot : Subscriptions.createSlot { (fetchId b).2 with
      registry_ := (TopicRegistry.resolveSlow topic b.registry_).2 } T
        (TopicRegistry.resolveSlow topic b.registry_).1 with ⟨_ | slot, found⟩
    · simp only [hslot] at hc
      cases hc
      obtain rfl := createSlot_error hslot
      exact hstored
    · simp only [hslot] at hc
      cases hc

theorem Stored.attach_ok (h : Stored b live)
    (hbij : isWildcard topic = false → Bijective (TopicRegistry.resolveSlow topic b.registry_).2)
    (hc : attach b T topic handler = (.ok (id, info), b')) :
    id = (fetchId b).1 ∧ Stored b' (live ++ [⟨id, T, topic, handler⟩]) ∧
      Describes b'.registry_ ⟨id, T, topic, handler⟩ info := by
  by_cases hw : isWildcard topic = true
  · simp only [attach, hw, if_true] at hc
    split at hc <;> cases hc
    have hframe := h.frame (fetchId b).1 b.sub_to_topic_
    refine ⟨rfl, hframe.subscribeWildcard (x := ⟨(fetchId b).1, T, topic, handler⟩) hw, ?_⟩
    simp only [Describes, hw, if_true]
  · have hw : isWildcard topic = false := by simpa using hw
    have hstored := (h.resolveSlow (hbij hw)).frame (fetchId b).1 b.sub_to_topic_
    have hself := find_resolveSlow_self topic b.registry_
    rw [attach_exact hw] at hc
    rcases hslot : Subscriptions.createSlot { (fetchId b).2 with
      registry_ := (TopicRegistry.resolveSlow topic b.registry_).2 } T
        (TopicRegistry.resolveSlow topic b.registry_).1 with ⟨_ | slot, found⟩
    · simp only [hslot] at hc
      cases hc
    · simp only [hslot] at hc
      cases hc
      obtain ⟨hb', hplace, hty⟩ := hstored.createSlot hself hw hslot
      have hreg : found.registry_ = (TopicRegistry.resolveSlow topic b.registry_).2 :=
        (createSlot_frame hslot).2.1
      rw [← hreg] at hself
      refine ⟨rfl, hb'.addSubscriber (x := ⟨(fetchId b).1, T, topic, handler⟩) hself hplace hty, ?_⟩
      simp only [Describes, hw, Bool.false_eq_true, if_false, true_and]
      exact hself

end Sections

section Growth

/-- What no section takes back: topic ids, slots and their types. -/
structure Extends (b b' : SubState τ η) : Prop where
  finds : ∀ name tid, find name b.registry_ = some tid → find name b'.registry_ = some tid
  slots : ∀ tid slot, b.slots_ tid = some slot → b'.slots_ tid = some slot
  allocated : b.allocated ≤ b'.allocated
  types : ∀ slot < b.allocated, (b'.heap slot).msg_type = (b.heap slot).msg_type

def Keeps (kept : ℕ → Prop) (b b' : SubState τ η) : Prop :=
  ∀ slot < b.allocated, ∀ sub ∈ (b.heap slot).subscribers_, kept sub.id →
    sub ∈ (b'.heap slot).subscribers_

variable {b b' : SubState τ η} {kept : ℕ → Prop} {T : τ} {tid slot : ℕ}

theorem Extends.of_eq (hr : b'.registry_ = b.registry_) (hs : b'.slots_ = b.slots_)
    (ha : b'.allocated = b.allocated) (hh : b'.heap = b.heap) : Extends b b' where
  finds _ _ hf := hr ▸ hf
  slots _ _ hslot := hs ▸ hslot
  allocated := ha ▸ Nat.le_refl _
  types _ _ := hh ▸ rfl

theorem Keeps.of_eq (hh : b'.heap = b.heap) : Keeps kept b b' := fun _ _ _ hsub _ ↦ hh ▸ hsub

theorem extends_resolve (topic : Str) (b : SubState τ η) :
    Extends b { b with registry_ := (resolveSlow topic b.registry_).2 } where
  finds _ _ hf := find_resolveSlow hf topic
  slots _ _ hslot := hslot
  allocated := Nat.le_refl _
  types _ _ := rfl

theorem extends_updateSlot (b : SubState τ η) (slot : ℕ) {f : TopicSlot τ η → TopicSlot τ η}
    (hf : ∀ s, (f s).msg_type = s.msg_type) : Extends b (updateSlot b slot f) where
  finds _ _ hf := hf
  slots _ _ hslot := hslot
  allocated := Nat.le_refl _
  types slot' _ := by
    by_cases hs : slot' = slot
    · simp only [hs, updateSlot, update_self, hf]
    · simp only [updateSlot, update_of_ne hs]

theorem keeps_updateSlot (b : SubState τ η) (slot : ℕ) {f : TopicSlot τ η → TopicSlot τ η}
    (hf : ∀ s, ∀ sub ∈ s.subscribers_, kept sub.id → sub ∈ (f s).subscribers_) :
    Keeps kept b (updateSlot b slot f) := by
  intro slot' _ sub hsub hkept
  by_cases hs : slot' = slot
  · simp only [hs, updateSlot, update_self]
    exact hf _ sub (hs ▸ hsub) hkept
  · simpa only [updateSlot, update_of_ne hs] using hsub

theorem extends_createSlot [DecidableEq τ] {result : Except String ℕ}
    (hb : ∀ tid slot, b.slots_ tid = some slot → slot < b.allocated)
    (hc : createSlot b T tid = (result, b')) : Extends b b' ∧ Keeps kept b b' := by
  have hsame : Extends b b ∧ Keeps kept b b := ⟨.of_eq rfl rfl rfl rfl, .of_eq rfl⟩
  cases result with
  | error e =>
    rw [createSlot_error hc]
    exact hsame
  | ok slot =>
    rcases createSlot_ok hc with ⟨rfl, _⟩ | ⟨hnone, _, rfl⟩
    · exact hsame
    · refine ⟨⟨fun _ _ hf ↦ hf, fun tid' slot' hslot ↦ ?_, Nat.le_succ _, fun slot' hs ↦ ?_⟩, ?_⟩
      · have ht : tid' ≠ tid := by
          rintro rfl
          rw [hnone] at hslot
          cases hslot
        simpa only [update_of_ne ht] using hslot
      · simp only [makeSlot, update_of_ne (Nat.ne_of_lt hs)]
      · intro slot' hs sub hsub _
        simpa only [makeSlot, update_of_ne (Nat.ne_of_lt hs)] using hsub

theorem extends_subscribeWildcard (b : SubState τ η) (T : τ) (topic : Str) (handler : η) (id : ℕ) :
    Extends b (subscribeWildcard b T topic handler id) ∧
      Keeps kept b (subscribeWildcard b T topic handler id) := by
  refine ⟨⟨fun _ _ hf ↦ hf, fun _ _ hslot ↦ hslot, Nat.le_succ _, fun slot hs ↦ ?_⟩, ?_⟩
  · simp only [subscribeWildcard, updateSlot, makeSlot, update_of_ne (Nat.ne_of_lt hs)]
  · intro slot hs sub hsub _
    simpa only [subscribeWildcard, updateSlot, makeSlot, update_of_ne (Nat.ne_of_lt hs)] using hsub

theorem removeSubscriber_keeps (id : ℕ) (s : TopicSlot τ η) :
    (s.removeSubscriber id).msg_type = s.msg_type ∧
      ∀ sub ∈ s.subscribers_, sub.id ≠ id → sub ∈ (s.removeSubscriber id).subscribers_ :=
  ⟨rfl, fun _ hsub hne ↦ List.mem_filter.mpr ⟨hsub, by simpa using hne⟩⟩

theorem extends_removeWildcard (b : SubState τ η) (id : ℕ) :
    Extends b (removeWildcard b id) ∧ Keeps (· ≠ id) b (removeWildcard b id) := by
  rw [removeWildcard]
  cases remove id b.wildcard_trie_ with
  | none => exact ⟨.of_eq rfl rfl rfl rfl, .of_eq rfl⟩
  | some found =>
    obtain ⟨entry, wildcard_trie_⟩ := found
    have hext := extends_updateSlot { b with wildcard_trie_ } entry.slot
      fun s ↦ (removeSubscriber_keeps id s).1
    have hkeep : Keeps (· ≠ id) { b with wildcard_trie_ } _ :=
      keeps_updateSlot _ entry.slot fun s ↦ (removeSubscriber_keeps id s).2
    exact ⟨⟨hext.finds, hext.slots, hext.allocated, hext.types⟩, hkeep⟩

end Growth

end LivioArk.Msgbus.SubStore
