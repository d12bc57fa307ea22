import LivioArk.Msgbus.Ownership
import LivioArk.Msgbus.TopicRegistry

namespace LivioArk.Msgbus.PublishPaths

open Function Levels TopicRegistry Message Ownership

variable {τ κ δ : Type}

structure TopicHandle (τ κ : Type) where
  type : τ
  tid_ : ℕ
  topic_sv_ : Str
  cached_on_drop_ : Option (DropCallback τ κ) := none

section Pooled

variable [DecidableEq τ]

/-- How all the paths begin: a pooled object is reset, else there is a new one. -/
def obtainRaw (T : τ) (hit : Bool) (tid : ℕ) (msg : δ) (h : Heap τ κ δ) : ℕ × Heap τ κ δ :=
  match h.acquire T hit with
  | (some raw, h) => (raw, h.access raw (.reset tid msg))
  | (none, h) => h.create T tid msg

/-- `publish(topic, msg)` until it calls `enqueueMessage`. -/
def publish (T : τ) (hit : Bool) (topic : Str) (msg : δ) (registry_ : Registry)
    (h : Heap τ κ δ) : ℕ × Heap τ κ δ × Registry :=
  let (tid, registry_) := resolve topic registry_
  let (raw, h) := obtainRaw T hit tid msg h
  let h := h.access raw fun m ↦ { m with recycler_ := some T }
  let h := h.access raw (.set_topic_sv (to_string tid registry_))
  (raw, MessagePtr.adopt raw h, registry_)

/-- `publish(topic, msg, on_drop)` until it calls `enqueueMessage`. There is no
callback when `on_drop` is an empty function. -/
def publishOnDrop (T : τ) (hit : Bool) (topic : Str) (msg : δ) (on_drop : Option κ)
    (registry_ : Registry) (h : Heap τ κ δ) : ℕ × Heap τ κ δ × Registry :=
  let (tid, registry_) := resolve topic registry_
  let (raw, h) := obtainRaw T hit tid msg h
  let h := h.access raw fun m ↦ { m with recycler_ := some T }
  let h := h.access raw (.set_topic_sv (to_string tid registry_))
  match on_drop with
  | none => (raw, MessagePtr.adopt raw h, registry_)
  | some cb =>
    let h := h.access raw fun m ↦ { m with on_drop_ := some ⟨T, cb⟩ }
    (raw, MessagePtr.adopt raw h, registry_)

def topic (T : τ) (topic : Str) (registry_ : Registry) : TopicHandle τ κ × Registry :=
  let (tid, registry_) := resolve topic registry_
  ({ type := T, tid_ := tid, topic_sv_ := to_string tid registry_ }, registry_)

def topicOnDrop (T : τ) (topic : Str) (on_drop : Option κ) (registry_ : Registry) :
    TopicHandle τ κ × Registry :=
  let (tid, registry_) := resolve topic registry_
  match on_drop with
  | none => ({ type := T, tid_ := tid, topic_sv_ := to_string tid registry_ }, registry_)
  | some cb =>
    ({ type := T
       tid_ := tid
       topic_sv_ := to_string tid registry_
       cached_on_drop_ := some ⟨T, cb⟩ }, registry_)

def TopicHandle.publish (handle : TopicHandle τ κ) (hit : Bool) (msg : δ) (h : Heap τ κ δ) :
    ℕ × Heap τ κ δ :=
  let (raw, h) := obtainRaw handle.type hit handle.tid_ msg h
  let h := h.access raw fun m ↦ { m with recycler_ := some handle.type }
  let h := h.access raw (.set_topic_sv handle.topic_sv_)
  let h := h.access raw fun m ↦ { m with on_drop_ := handle.cached_on_drop_ }
  (raw, MessagePtr.adopt raw h)

end Pooled

section Names

variable {name : Str} {id : ℕ} {r : Registry}

def Named (r : Registry) : Prop :=
  ∀ name id, find name r = some id → ∃ sv, r.id_to_sv_.lookup id = some sv

theorem named_initial : Named {} := by
  intro name id hf
  cases hf

theorem lookup_emplace (id' : ℕ) (sv : Str) {names : List (ℕ × Str)}
    (hsv : names.lookup id = some sv) (name : Str) :
    (emplace id' name names).lookup id = some sv := by
  unfold emplace
  split
  · exact hsv
  · rw [List.lookup_append, hsv, Option.some_or]

theorem lookup_emplace_self (id : ℕ) (name : Str) (names : List (ℕ × Str)) :
    ∃ sv, (emplace id name names).lookup id = some sv := by
  unfold emplace
  split
  · rename_i hsome
    exact Option.isSome_iff_exists.mp hsome
  · rename_i hnone
    have hlookup : names.lookup id = none := Option.not_isSome_iff_eq_none.mp hnone
    exact ⟨name, by rw [List.lookup_append, hlookup]; simp⟩

/-- A string once shown for an id is shown for ever: nothing is overwritten. -/
theorem lookup_resolve {sv : Str} (hsv : r.id_to_sv_.lookup id = some sv) (name : Str) :
    (resolve name r).2.id_to_sv_.lookup id = some sv := by
  rw [resolve_eq]
  cases hf : find name r with
  | some id' => simpa only [resolveSlow, hf] using hsv
  | none =>
    simp only [resolveSlow, hf]
    exact lookup_emplace _ sv hsv name

theorem find_resolve (hf : find name r = some id) (name' : Str) :
    find name (resolve name' r).2 = some id := by
  rw [resolve_eq]
  exact find_resolveSlow hf name'

theorem find_resolve_self (name : Str) (r : Registry) :
    find name (resolve name r).2 = some (resolve name r).1 := by
  rw [resolve_eq]
  exact find_resolveSlow_self name r

theorem resolve_known (hf : find name r = some id) : resolve name r = (id, r) := by
  simp only [resolve, hf]

theorem Named.resolve (hr : Named r) (name : Str) : Named (resolve name r).2 := by
  intro name' id hf
  rw [resolve_eq] at hf ⊢
  cases hname : find name r with
  | some _ =>
    simp only [resolveSlow, hname] at hf ⊢
    exact hr name' id hf
  | none =>
    simp only [resolveSlow, hname] at hf ⊢
    simp only [find, List.lookup_append, Option.or_eq_some_iff] at hf
    cases hf with
    | inl hf =>
      obtain ⟨sv, hsv⟩ := hr name' id hf
      exact ⟨sv, lookup_emplace _ sv hsv name⟩
    | inr hf =>
      have hid : id = r.next_id_ := by
        simp only [List.lookup_cons, List.lookup_nil] at hf
        split at hf
        · exact (Option.some.inj hf.2).symm
        · cases hf.2
      rw [hid]
      exact lookup_emplace_self _ name _

end Names

section Built

variable [DecidableEq τ] {refs : List ℕ} {h : Heap τ κ δ} {T : τ} {hit : Bool} {msg : δ}

/-- `raw` is a new message with the content `c` and one pointer, and no other
message is touched. -/
structure Published (refs : List ℕ) (h : Heap τ κ δ) (c : Content τ κ δ) (raw : ℕ)
    (h' : Heap τ κ δ) : Prop where
  sound : Sound (raw :: refs) h'
  unreferenced : raw ∉ refs
  content : h'.content raw = some c
  others : ∀ a, a ∈ refs → h'.content a = h.content a

/-- `raw` is being made ready by the thread that got it from `h`. -/
structure Building (refs : List ℕ) (h : Heap τ κ δ) (raw : ℕ) (h' : Heap τ κ δ)
    (m : TypedMessage τ κ δ) : Prop where
  hidden : Private raw refs h' m
  others : ∀ a, a ∈ refs → h'.content a = h.content a

variable {raw : ℕ} {h' : Heap τ κ δ} {m : TypedMessage τ κ δ}

omit [DecidableEq τ] in
theorem Building.access (hb : Building refs h raw h' m)
    (f : TypedMessage τ κ δ → TypedMessage τ κ δ) :
    Building refs h raw (h'.access raw f) (f m) where
  hidden := hb.hidden.access
  others a ha := by
    have hne : a ≠ raw := fun he ↦ hb.hidden.unreferenced (he ▸ ha)
    rw [content_access_ne hne, hb.others a ha]

omit [DecidableEq τ] in
theorem Building.adopt (hb : Building refs h raw h' m) (hm : Owned 0 m) :
    Published refs h m.content raw (MessagePtr.adopt raw h') where
  sound := hb.hidden.adopt hm
  unreferenced := hb.hidden.unreferenced
  content := by rw [content_adopt, Heap.content, hb.hidden.object, Option.map_some]
  others a ha := by rw [content_adopt, hb.others a ha]

/-- Whether the object is recycled or new, only its old topic string is left. -/
theorem obtainRaw_building (hs : Sound refs h) (T : τ) (hit : Bool) (tid : ℕ) (msg : δ) :
    ∃ sv, Building refs h (obtainRaw T hit tid msg h).1 (obtainRaw T hit tid msg h).2
      { type := T, topic_sv_ := sv, topic_id_ := tid, data_ := msg } := by
  unfold obtainRaw
  cases hget : h.acquire T hit with
  | mk found h₁ =>
    cases found with
    | some raw =>
      obtain ⟨⟨m, htype, hp⟩, hobjects⟩ := hs.acquire hget
      have hb : Building refs h raw h₁ m := ⟨hp, fun a _ ↦ by simp only [Heap.content, hobjects]⟩
      subst htype
      exact ⟨m.topic_sv_, hb.access (.reset tid msg)⟩
    | none =>
      have hmiss : h₁ = h := by
        unfold Heap.acquire at hget
        split at hget
        · cases hget
        · exact (Prod.mk.inj hget).2.symm
      subst hmiss
      refine ⟨[], hs.create tid msg, ?_⟩
      intro a ha
      obtain ⟨m, hm, -⟩ := hs.owned a ha
      have hne : a ≠ h₁.next := by
        intro he
        rw [hs.unallocated a (Nat.le_of_eq he.symm)] at hm
        cases hm
      simp only [Heap.content, Heap.create, update_of_ne hne]

theorem publish_published (hs : Sound refs h) (T : τ) (hit : Bool) (topic : Str) (msg : δ)
    (r : Registry) :
    Published refs h ⟨T, (resolve topic r).1, to_string (resolve topic r).1 (resolve topic r).2,
      msg, none⟩ (publish T hit topic msg r h).1 (publish T hit topic msg r h).2.1 := by
  obtain ⟨sv, hb⟩ := obtainRaw_building hs T hit (resolve topic r).1 msg
  have hb := (hb.access fun m ↦ { m with recycler_ := some T }).access
    (.set_topic_sv (to_string (resolve topic r).1 (resolve topic r).2))
  exact hb.adopt ⟨rfl, rfl, fun d hd ↦ by cases hd⟩

theorem publishOnDrop_published (hs : Sound refs h) (T : τ) (hit : Bool) (topic : Str) (msg : δ)
    (on_drop : Option κ) (r : Registry) :
    Published refs h ⟨T, (resolve topic r).1, to_string (resolve topic r).1 (resolve topic r).2,
      msg, on_drop⟩ (publishOnDrop T hit topic msg on_drop r h).1
      (publishOnDrop T hit topic msg on_drop r h).2.1 := by
  obtain ⟨sv, hb⟩ := obtainRaw_building hs T hit (resolve topic r).1 msg
  have hb := (hb.access fun m ↦ { m with recycler_ := some T }).access
    (.set_topic_sv (to_string (resolve topic r).1 (resolve topic r).2))
  cases on_drop with
  | none => exact hb.adopt ⟨rfl, rfl, fun d hd ↦ by cases hd⟩
  | some cb =>
    have hb := hb.access fun m ↦ { m with on_drop_ := some ⟨T, cb⟩ }
    refine hb.adopt ⟨rfl, rfl, ?_⟩
    intro d hd
    obtain rfl := Option.some.inj hd
    rfl

theorem handle_published (hs : Sound refs h) (handle : TopicHandle τ κ) (hit : Bool) (msg : δ)
    (htype : ∀ d, handle.cached_on_drop_ = some d → d.type = handle.type) :
    Published refs h ⟨handle.type, handle.tid_, handle.topic_sv_, msg,
      handle.cached_on_drop_.map DropCallback.cb⟩ (handle.publish hit msg h).1
      (handle.publish hit msg h).2 := by
  obtain ⟨sv, hb⟩ := obtainRaw_building hs handle.type hit handle.tid_ msg
  have hb := ((hb.access fun m ↦ { m with recycler_ := some handle.type }).access
    (.set_topic_sv handle.topic_sv_)).access
      fun m ↦ { m with on_drop_ := handle.cached_on_drop_ }
  exact hb.adopt ⟨rfl, rfl, htype⟩

end Built

end LivioArk.Msgbus.PublishPaths
