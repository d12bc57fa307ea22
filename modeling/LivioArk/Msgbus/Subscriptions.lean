import LivioArk.Msgbus.TopicMatcher
import LivioArk.Msgbus.TopicRegistry
import LivioArk.Msgbus.WildcardTrie

namespace LivioArk.Msgbus.Subscriptions

open Function Levels TopicMatcher TopicRegistry WildcardTrie

/-- `η` stands for the handlers. -/
structure Subscriber (η : Type) where
  id : ℕ
  handler : η
  deriving Repr, DecidableEq

/-- `τ` stands for the message types. -/
structure TopicSlot (τ η : Type) where
  msg_type : Option τ := none
  subscribers_ : List (Subscriber η) := []
  deriving Repr, DecidableEq

structure Invocation (η ν : Type) where
  id : ℕ
  handler : η
  data : ν
  deriving Repr, DecidableEq

structure SubInfo where
  tid : ℕ
  is_wildcard : Bool
  deriving Repr, DecidableEq

structure Message (τ ν : Type) where
  topic_id_ : ℕ
  topic_sv_ : Str
  type : τ
  data_ : ν
  deriving Repr, DecidableEq

variable {τ η ν ε : Type}

namespace TopicSlot

def addSubscriber (handler : η) (id : ℕ) (slot : TopicSlot τ η) : TopicSlot τ η :=
  { slot with subscribers_ := slot.subscribers_ ++ [⟨id, handler⟩] }

def removeSubscriber (id : ℕ) (slot : TopicSlot τ η) : TopicSlot τ η :=
  { slot with subscribers_ := slot.subscribers_.filter fun sub ↦ sub.id ≠ id }

/-- What a handler throws is swallowed. -/
def dispatchList (call : η → ν → Except ε Unit) (data : ν) :
    List (Subscriber η) → List (Invocation η ν)
  | [] => []
  | sub :: subs =>
    match call sub.handler data with
    | .ok () => ⟨sub.id, sub.handler, data⟩ :: dispatchList call data subs
    | .error _ => ⟨sub.id, sub.handler, data⟩ :: dispatchList call data subs

end TopicSlot

/-- The subscription side of the bus. Slots are shared, so they live in a heap;
`allocated` of its places are in use. -/
structure SubState (τ η : Type) where
  next_id_ : ℕ := 0
  registry_ : Registry := {}
  slots_ : ℕ → Option ℕ := fun _ ↦ none
  wildcard_trie_ : Snapshot τ ℕ := {}
  sub_to_topic_ : ℕ → Option SubInfo := fun _ ↦ none
  heap : ℕ → TopicSlot τ η := fun _ ↦ {}
  allocated : ℕ := 0

/-- A `SubscriptionId` has 64 bits. -/
def subscriptionIdLimit : ℕ := 2 ^ 64

/-- The first '#' is not the last character. -/
def hashMisplaced (topic : Str) : Bool :=
  match topic.idxOf? '#' with
  | some pos => pos + 1 ≠ topic.length
  | none => false

section Operations

variable [DecidableEq τ] (b : SubState τ η)

def fetchId : ℕ × SubState τ η :=
  let id := (b.next_id_ + 1) % subscriptionIdLimit
  (id, { b with next_id_ := id })

def makeSlot (T : τ) : ℕ × SubState τ η :=
  (b.allocated,
    { b with
      heap := update b.heap b.allocated { msg_type := some T }
      allocated := b.allocated + 1 })

def updateSlot (slot : ℕ) (f : TopicSlot τ η → TopicSlot τ η) : SubState τ η :=
  { b with heap := update b.heap slot (f (b.heap slot)) }

def recordSub (id : ℕ) (info : SubInfo) : SubState τ η :=
  { b with sub_to_topic_ := update b.sub_to_topic_ id (some info) }

def subscribeWildcard (T : τ) (topic : Str) (handler : η) (id : ℕ) : SubState τ η :=
  let (slot, b) := makeSlot b T
  let b := updateSlot b slot (·.addSubscriber handler id)
  { b with wildcard_trie_ := insert topic ⟨T, slot, id⟩ b.wildcard_trie_ }

def checkedSlot (T : τ) (tid slot : ℕ) : Except String ℕ :=
  match (b.heap slot).msg_type with
  | some msg_type =>
    if msg_type ≠ T then
      .error ("Type mismatch for topic: " ++ String.ofList (to_string tid b.registry_))
    else .ok slot
  | none => .ok slot

/-- The part of `getOrCreateSlot` under `slots_write_mutex_`. -/
def createSlot (T : τ) (tid : ℕ) : Except String ℕ × SubState τ η :=
  match b.slots_ tid with
  | some slot => (checkedSlot b T tid slot, b)
  | none =>
    let (slot, b) := makeSlot b T
    (.ok slot, { b with slots_ := update b.slots_ tid (some slot) })

def getOrCreateSlot (T : τ) (tid : ℕ) : Except String ℕ × SubState τ η :=
  match b.slots_ tid with
  | some slot => (checkedSlot b T tid slot, b)
  | none => createSlot b T tid

def attach (T : τ) (topic : Str) (handler : η) : Except String (ℕ × SubInfo) × SubState τ η :=
  let (id, b) := fetchId b
  if isWildcard topic then
    if hashMisplaced topic then
      (.error "Invalid wildcard pattern: '#' must be the last segment", b)
    else (.ok (id, ⟨kInvalidTopicId, true⟩), subscribeWildcard b T topic handler id)
  else
    let (tid, registry_) := resolve topic b.registry_
    match getOrCreateSlot { b with registry_ } T tid with
    | (.error e, b) => (.error e, b)
    | (.ok slot, b) => (.ok (id, ⟨tid, false⟩), updateSlot b slot (·.addSubscriber handler id))

def subscribe (T : τ) (topic : Str) (handler : η) : Except String ℕ × SubState τ η :=
  match attach b T topic handler with
  | (.error e, b) => (.error e, b)
  | (.ok (id, info), b) => (.ok id, recordSub b id info)

def takeSub (id : ℕ) : Option SubInfo × SubState τ η :=
  (b.sub_to_topic_ id, { b with sub_to_topic_ := update b.sub_to_topic_ id none })

def removeWildcard (id : ℕ) : SubState τ η :=
  match remove id b.wildcard_trie_ with
  | some (entry, wildcard_trie_) =>
    updateSlot { b with wildcard_trie_ } entry.slot (·.removeSubscriber id)
  | none => b

def removeExact (id tid : ℕ) : SubState τ η :=
  match b.slots_ tid with
  | some slot => updateSlot b slot (·.removeSubscriber id)
  | none => b

/-- The part of `unsubscribe` after the id was found. -/
def detach (id : ℕ) (info : SubInfo) : SubState τ η :=
  if info.is_wildcard then removeWildcard b id else removeExact b id info.tid

def unsubscribe (id : ℕ) : SubState τ η :=
  match takeSub b id with
  | (none, b) => b
  | (some info, b) => detach b id info

def makeMessage (T : τ) (topic : Str) (data : ν) : Message τ ν × SubState τ η :=
  let (tid, registry_) := resolve topic b.registry_
  (⟨tid, to_string tid registry_, T, data⟩, { b with registry_ })

def exactSlot (msg : Message τ ν) : List ℕ :=
  match b.slots_ msg.topic_id_ with
  | some slot => if (b.heap slot).msg_type = some msg.type then [slot] else []
  | none => []

def matchedSlots (msg : Message τ ν) : List ℕ :=
  exactSlot b msg ++ match_ msg.topic_sv_ msg.type b.wildcard_trie_

def dispatchMessage (call : η → ν → Except ε Unit) (msg : Message τ ν) : List (Invocation η ν) :=
  (matchedSlots b msg).flatMap fun slot ↦
    TopicSlot.dispatchList call msg.data_ (b.heap slot).subscribers_

end Operations

section Frames

theorem removeWildcard_frame (b : SubState τ η) (id : ℕ) :
    (removeWildcard b id).next_id_ = b.next_id_ ∧ (removeWildcard b id).registry_ = b.registry_ ∧
      (removeWildcard b id).sub_to_topic_ = b.sub_to_topic_ := by
  rw [removeWildcard]
  cases remove id b.wildcard_trie_ <;> exact ⟨rfl, rfl, rfl⟩

theorem removeExact_frame (b : SubState τ η) (id tid : ℕ) :
    (removeExact b id tid).next_id_ = b.next_id_ ∧ (removeExact b id tid).registry_ = b.registry_ ∧
      (removeExact b id tid).sub_to_topic_ = b.sub_to_topic_ := by
  rw [removeExact]
  cases b.slots_ tid <;> exact ⟨rfl, rfl, rfl⟩

theorem detach_frame (b : SubState τ η) (id : ℕ) (info : SubInfo) :
    (detach b id info).next_id_ = b.next_id_ ∧ (detach b id info).registry_ = b.registry_ ∧
      (detach b id info).sub_to_topic_ = b.sub_to_topic_ := by
  rw [detach]
  split
  · exact removeWildcard_frame b id
  · exact removeExact_frame b id info.tid

end Frames

section Specs

variable [DecidableEq τ] {b : SubState τ η} {T : τ} {topic : Str} {handler : η}

variable {b' : SubState τ η} {id tid slot : ℕ}

theorem getOrCreateSlot_eq : getOrCreateSlot b T tid = createSlot b T tid := by
  rw [getOrCreateSlot, createSlot]
  cases b.slots_ tid <;> rfl

theorem checkedSlot_ok (h : checkedSlot b T tid slot = .ok id) :
    id = slot ∧ ∀ T', (b.heap slot).msg_type = some T' → T' = T := by
  rw [checkedSlot] at h
  cases hty : (b.heap slot).msg_type with
  | none =>
    simp only [hty, Except.ok.injEq] at h
    exact ⟨h.symm, fun _ h ↦ by cases h⟩
  | some T' =>
    simp only [hty] at h
    split at h
    · cases h
    · rename_i hT
      rw [Except.ok.injEq] at h
      exact ⟨h.symm, fun _ h ↦ Option.some.inj h ▸ not_not.mp hT⟩

theorem checkedSlot_error {e : String} (h : checkedSlot b T tid slot = .error e) :
    ∃ T', (b.heap slot).msg_type = some T' ∧ T' ≠ T := by
  rw [checkedSlot] at h
  cases hty : (b.heap slot).msg_type with
  | none => simp [hty] at h
  | some T' =>
    simp only [hty] at h
    split at h
    · rename_i hT
      exact ⟨T', rfl, hT⟩
    · cases h

theorem createSlot_ok (h : createSlot b T tid = (.ok slot, b')) :
    (b' = b ∧ b.slots_ tid = some slot ∧ ∀ T', (b.heap slot).msg_type = some T' → T' = T) ∨
      (b.slots_ tid = none ∧ slot = b.allocated ∧
        b' = { (makeSlot b T).2 with slots_ := update b.slots_ tid (some b.allocated) }) := by
  rw [createSlot] at h
  cases hslot : b.slots_ tid with
  | none =>
    simp only [hslot, makeSlot, Prod.mk.injEq, Except.ok.injEq] at h
    exact .inr ⟨rfl, h.1.symm, h.2.symm⟩
  | some found =>
    simp only [hslot, Prod.mk.injEq] at h
    obtain ⟨rfl, hty⟩ := checkedSlot_ok h.1
    exact .inl ⟨h.2.symm, rfl, hty⟩

theorem createSlot_error {e : String} (h : createSlot b T tid = (.error e, b')) : b' = b := by
  rw [createSlot] at h
  cases hslot : b.slots_ tid with
  | none => simp [hslot, makeSlot] at h
  | some found =>
    simp only [hslot, Prod.mk.injEq] at h
    exact h.2.symm

theorem createSlot_refused {e : String} (h : createSlot b T tid = (.error e, b')) :
    ∃ slot T', b.slots_ tid = some slot ∧ (b.heap slot).msg_type = some T' ∧ T' ≠ T := by
  rw [createSlot] at h
  cases hslot : b.slots_ tid with
  | none => simp [hslot, makeSlot] at h
  | some slot =>
    simp only [hslot, Prod.mk.injEq] at h
    obtain ⟨T', hty, hne⟩ := checkedSlot_error h.1
    exact ⟨slot, T', rfl, hty, hne⟩

theorem createSlot_frame (h : createSlot b T tid = (.ok slot, b')) :
    b'.next_id_ = b.next_id_ ∧ b'.registry_ = b.registry_ ∧
      b'.sub_to_topic_ = b.sub_to_topic_ := by
  rcases createSlot_ok h with ⟨rfl, _⟩ | ⟨_, _, rfl⟩ <;> exact ⟨rfl, rfl, rfl⟩

theorem subscribe_misplaced (hw : isWildcard topic = true) (hh : hashMisplaced topic = true) :
    subscribe b T topic handler =
      (.error "Invalid wildcard pattern: '#' must be the last segment", (fetchId b).2) := by
  simp only [subscribe, attach, hw, hh, if_true]

theorem subscribe_wildcard (hw : isWildcard topic = true) (hh : hashMisplaced topic = false) :
    subscribe b T topic handler =
      (.ok (fetchId b).1, recordSub
        (subscribeWildcard (fetchId b).2 T topic handler (fetchId b).1) (fetchId b).1
        ⟨kInvalidTopicId, true⟩) := by
  simp only [subscribe, attach, hw, hh, if_true, Bool.false_eq_true, if_false]

theorem attach_exact (hw : isWildcard topic = false) :
    attach b T topic handler =
      match createSlot { (fetchId b).2 with registry_ := (resolveSlow topic b.registry_).2 } T
        (resolveSlow topic b.registry_).1 with
      | (.error e, b) => (.error e, b)
      | (.ok slot, b') => (.ok ((fetchId b).1, ⟨(resolveSlow topic b.registry_).1, false⟩),
          updateSlot b' slot (·.addSubscriber handler (fetchId b).1)) := by
  simp only [attach, hw, getOrCreateSlot_eq, resolve_eq, Bool.false_eq_true, if_false, fetchId]

/-- What `attach` does besides slots and trie. -/
theorem attach_frame {result : Except String (ℕ × SubInfo)}
    (h : attach b T topic handler = (result, b')) :
    b'.next_id_ = (fetchId b).1 ∧ b'.sub_to_topic_ = b.sub_to_topic_ ∧
      b'.registry_ =
        if isWildcard topic then b.registry_ else (resolveSlow topic b.registry_).2 := by
  by_cases hw : isWildcard topic = true
  · simp only [attach, hw, if_true] at h ⊢
    split at h <;> cases h <;> exact ⟨rfl, rfl, rfl⟩
  · rw [attach_exact (by simpa using hw)] at h
    simp only [hw, Bool.false_eq_true, if_false]
    rcases hc : createSlot { (fetchId b).2 with registry_ := (resolveSlow topic b.registry_).2 } T
      (resolveSlow topic b.registry_).1 with ⟨_ | slot, found⟩
    · simp only [hc] at h
      cases h
      obtain rfl := createSlot_error hc
      exact ⟨rfl, rfl, rfl⟩
    · simp only [hc] at h
      cases h
      obtain ⟨hnext, hreg, hsub⟩ := createSlot_frame hc
      exact ⟨hnext, hsub, hreg⟩

theorem attach_registry (b : SubState τ η) (T : τ) (topic : Str) (handler : η) :
    (attach b T topic handler).2.registry_ =
      if isWildcard topic then b.registry_ else (resolveSlow topic b.registry_).2 := by
  have hsplit : attach b T topic handler =
    ((attach b T topic handler).1, (attach b T topic handler).2) := rfl
  exact (attach_frame hsplit).2.2

end Specs

end LivioArk.Msgbus.Subscriptions
