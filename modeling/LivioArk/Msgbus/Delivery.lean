import LivioArk.Library.Transition
import LivioArk.Msgbus.SubStore

namespace LivioArk.Msgbus.Delivery

open Function LivioArk.Library.Transition LivioArk.Library.PrefixTree
open Levels TopicMatcher TopicRegistry WildcardTrie Subscriptions SubStore

variable {τ η ν ε : Type}

structure Publication (τ ν : Type) where
  type : τ
  topic : Str
  data : ν
  msg : Message τ ν
  deriving Repr, DecidableEq

/-- The bus, and beside it what the calls so far mean: the live subscriptions,
the number of `subscribe` calls, the topics that were asked for and what was
published. -/
structure Delivering (τ η ν : Type) where
  bus : SubState τ η := {}
  live : List (Sub τ η) := []
  calls : ℕ := 0
  topics : List Str := []
  published : List (Publication τ ν) := []

inductive BusCall (τ η ν : Type) where
  | subscribe (T : τ) (topic : Str) (handler : η)
  | unsubscribe (id : ℕ)
  | publish (T : τ) (topic : Str) (data : ν)
  | rehash (way : List Bool)

def BusCall.topics : BusCall τ η ν → List Str
  | .subscribe _ topic _ => if isWildcard topic then [] else [topic]
  | .publish _ topic _ => [topic]
  | _ => []

section Machine

variable [DecidableEq τ]

def effect (s : Delivering τ η ν) : BusCall τ η ν → Delivering τ η ν
  | .subscribe T topic handler =>
    match subscribe s.bus T topic handler with
    | (.ok id, bus) =>
      { s with bus, live := s.live ++ [⟨id, T, topic, handler⟩], calls := s.calls + 1 }
    | (.error _, bus) => { s with bus, calls := s.calls + 1 }
  | .unsubscribe id =>
    { s with bus := unsubscribe s.bus id, live := s.live.filter fun x ↦ x.id ≠ id }
  | .publish T topic data =>
    let (msg, bus) := makeMessage s.bus T topic data
    { s with bus, published := s.published ++ [⟨T, topic, data, msg⟩] }
  | .rehash way =>
    let trie := s.bus.wildcard_trie_
    { s with bus := { s.bus with wildcard_trie_ := { trie with root := trie.root.swap way } } }

def step (s : Delivering τ η ν) (a : BusCall τ η ν) : Option (Delivering τ η ν) :=
  some { effect s a with topics := s.topics ++ a.topics }

def machine (τ η ν : Type) [DecidableEq τ] : Machine (Delivering τ η ν) (BusCall τ η ν) where
  init s := s = {}
  step := step

end Machine

/-- The ids are the numbers of the calls, as long as they do not wrap around. -/
structure Numbered (b : SubState τ η) (live : List (Sub τ η)) (calls : ℕ) : Prop where
  next : b.next_id_ = calls
  nodup : (live.map Sub.id).Nodup
  range : ∀ x ∈ live, 1 ≤ x.id ∧ x.id ≤ calls

structure Recorded (b : SubState τ η) (live : List (Sub τ η)) : Prop where
  sound : ∀ id info, b.sub_to_topic_ id = some info →
    ∃ x ∈ live, x.id = id ∧ Describes b.registry_ x info
  complete : ∀ x ∈ live, ∃ info, b.sub_to_topic_ x.id = some info

def Publication.Resolved (registry : Registry) (p : Publication τ ν) : Prop :=
  find p.topic registry = some p.msg.topic_id_ ∧ p.msg.topic_sv_ = p.topic ∧
    p.msg.type = p.type ∧ p.msg.data_ = p.data

structure Agree (s : Delivering τ η ν) : Prop where
  stored : Stored s.bus s.live
  numbered : Numbered s.bus s.live s.calls
  recorded : Recorded s.bus s.live
  topics : ∀ name ∈ s.bus.registry_.map_.map Prod.fst, name ∈ s.topics
  published : ∀ p ∈ s.published, p.Resolved s.bus.registry_

section Steps

variable {b b' : SubState τ η} {live : List (Sub τ η)} {calls id : ℕ} {x : Sub τ η}

theorem Numbered.next_id (h : Numbered b live calls) (hB : calls + 1 < subscriptionIdLimit) :
    (fetchId b).1 = calls + 1 := by
  rw [fetchId, h.next, Nat.mod_eq_of_lt hB]

theorem Numbered.add (h : Numbered b live calls) (hx : x.id = calls + 1)
    (hb : b'.next_id_ = calls + 1) : Numbered b' (live ++ [x]) (calls + 1) where
  next := hb
  nodup := by
    rw [List.map_append, List.map_singleton, ← List.concat_eq_append]
    refine h.nodup.concat fun hmem ↦ ?_
    obtain ⟨y, hy, hid⟩ := List.mem_map.mp hmem
    have hle := (h.range y hy).2
    omega
  range y hy := by
    rcases List.mem_append.mp hy with hy | hy
    · exact ⟨(h.range y hy).1, Nat.le_succ_of_le (h.range y hy).2⟩
    · rw [List.mem_singleton.mp hy, hx]
      exact ⟨Nat.succ_pos _, Nat.le_refl _⟩

theorem Numbered.remove (h : Numbered b live calls) (id : ℕ) (hb : b'.next_id_ = b.next_id_) :
    Numbered b' (live.filter fun y ↦ y.id ≠ id) calls where
  next := hb.trans h.next
  nodup := h.nodup.sublist (List.filter_sublist.map _)
  range y hy := h.range y (List.mem_filter.mp hy).1

theorem Recorded.mono (h : Recorded b live) (hs : b'.sub_to_topic_ = b.sub_to_topic_)
    (hkeep : ∀ name id, find name b.registry_ = some id → find name b'.registry_ = some id) :
    Recorded b' live where
  sound id info hinfo := by
    obtain ⟨y, hy, hid, hdesc⟩ := h.sound id info (hs ▸ hinfo)
    exact ⟨y, hy, hid, hdesc.mono hkeep⟩
  complete y hy := hs ▸ h.complete y hy

theorem Recorded.add (h : Recorded b live) {info : SubInfo} (hx : Describes b'.registry_ x info)
    (hs : b'.sub_to_topic_ = update b.sub_to_topic_ x.id (some info))
    (hkeep : ∀ name id, find name b.registry_ = some id → find name b'.registry_ = some id) :
    Recorded b' (live ++ [x]) where
  sound id info' hinfo := by
    rw [hs] at hinfo
    by_cases hid : id = x.id
    · rw [hid, update_self, Option.some.injEq] at hinfo
      exact ⟨x, by simp, hid.symm, hinfo ▸ hx⟩
    · rw [update_of_ne hid] at hinfo
      obtain ⟨y, hy, hyid, hdesc⟩ := h.sound id info' hinfo
      exact ⟨y, List.mem_append_left _ hy, hyid, hdesc.mono hkeep⟩
  complete y hy := by
    rw [hs]
    by_cases hid : y.id = x.id
    · exact ⟨info, by rw [hid, update_self]⟩
    · rw [update_of_ne hid]
      rcases List.mem_append.mp hy with hy | hy
      · exact h.complete y hy
      · exact absurd (congrArg Sub.id (List.mem_singleton.mp hy)) hid

theorem Recorded.remove (h : Recorded b live) (id : ℕ) (hr : b'.registry_ = b.registry_)
    (hs : b'.sub_to_topic_ = update b.sub_to_topic_ id none) :
    Recorded b' (live.filter fun y ↦ y.id ≠ id) where
  sound id' info hinfo := by
    rw [hs] at hinfo
    by_cases hid : id' = id
    · rw [hid, update_self] at hinfo
      cases hinfo
    · rw [update_of_ne hid] at hinfo
      obtain ⟨y, hy, hyid, hdesc⟩ := h.sound id' info hinfo
      exact ⟨y, List.mem_filter.mpr ⟨hy, by simpa [hyid] using hid⟩, hyid, hr ▸ hdesc⟩
  complete y hy := by
    obtain ⟨hy, hne⟩ := List.mem_filter.mp hy
    rw [hs, update_of_ne (by simpa using hne)]
    exact h.complete y hy

end Steps

section Calls

variable {s t : Delivering τ η ν} {T : τ} {topic : Str} {handler : η}

theorem agree_initial : Agree ({} : Delivering τ η ν) where
  stored := stored_initial
  numbered := ⟨rfl, List.nodup_nil, fun _ h ↦ by cases h⟩
  recorded := ⟨fun _ _ h ↦ (by cases h), fun _ h ↦ (by cases h)⟩
  topics _ h := by cases h
  published _ h := by cases h

theorem Agree.resolved (h : Agree s) (topic : Str)
    (hB : (s.topics ++ [topic]).toFinset.card < idLimit) :
    Bijective (resolveSlow topic s.bus.registry_).2 ∧
      ∀ name ∈ (resolveSlow topic s.bus.registry_).2.map_.map Prod.fst,
        name ∈ s.topics ++ [topic] := by
  refine ⟨h.stored.registry.resolveSlow (fun name hn ↦ ?_) (by simp) hB, fun name hn ↦ ?_⟩
  · exact List.mem_append_left _ (h.topics name hn)
  · rcases topics_resolveSlow hn with rfl | hn
    · simp
    · exact List.mem_append_left _ (h.topics name hn)

variable [DecidableEq τ]

theorem Agree.subscribe (h : Agree s) (hB : s.calls + 1 < subscriptionIdLimit)
    (hbij : isWildcard topic = false → Bijective (resolveSlow topic s.bus.registry_).2)
    {topics : List Str}
    (htopics : ∀ name ∈ (attach s.bus T topic handler).2.registry_.map_.map Prod.fst,
      name ∈ topics) :
    Agree { effect s (.subscribe T topic handler) with topics } := by
  have hid := h.numbered.next_id hB
  rcases hc : attach s.bus T topic handler with ⟨e | ⟨id, info⟩, bus⟩
  · obtain ⟨hnext, hsub, _⟩ := attach_frame hc
    have hkeep : ∀ name tid, find name s.bus.registry_ = some tid →
        find name bus.registry_ = some tid := fun _ _ ↦ attach_keeps hc
    rw [hc] at htopics
    simp only [effect, Subscriptions.subscribe, hc]
    refine ⟨h.stored.attach_error hbij hc, ⟨hnext.trans hid, h.numbered.nodup, fun y hy ↦ ?_⟩,
      h.recorded.mono hsub hkeep, htopics, fun p hp ↦ ?_⟩
    · exact ⟨(h.numbered.range y hy).1, Nat.le_succ_of_le (h.numbered.range y hy).2⟩
    · exact ⟨hkeep _ _ (h.published p hp).1, (h.published p hp).2⟩
  · obtain ⟨hnext, hsub, _⟩ := attach_frame hc
    have hkeep : ∀ name tid, find name s.bus.registry_ = some tid →
        find name bus.registry_ = some tid := fun _ _ ↦ attach_keeps hc
    obtain ⟨rfl, hstored, hdesc⟩ := h.stored.attach_ok hbij hc
    rw [hc] at htopics
    simp only [effect, Subscriptions.subscribe, hc]
    refine ⟨hstored.frame _ _, h.numbered.add hid (hnext.trans hid),
      h.recorded.add hdesc (congrArg (update · _ _) hsub) hkeep, htopics, fun p hp ↦ ?_⟩
    exact ⟨hkeep _ _ (h.published p hp).1, (h.published p hp).2⟩

theorem Agree.unsubscribe (h : Agree s) (id : ℕ) : Agree (effect s (.unsubscribe id)) := by
  simp only [effect, Subscriptions.unsubscribe, takeSub]
  have hstored := h.stored.frame s.bus.next_id_ (update s.bus.sub_to_topic_ id none)
  cases hinfo : s.bus.sub_to_topic_ id with
  | none =>
    have hlive : s.live.filter (fun y ↦ y.id ≠ id) = s.live := by
      refine List.filter_eq_self.mpr fun y hy ↦ ?_
      obtain ⟨info, hy⟩ := h.recorded.complete y hy
      have hne : y.id ≠ id := by
        rintro rfl
        rw [hinfo] at hy
        cases hy
      simpa using hne
    exact ⟨hlive.symm ▸ hstored, h.numbered.remove id rfl, h.recorded.remove id rfl rfl, h.topics,
      h.published⟩
  | some info =>
    obtain ⟨x, hx, rfl, hdesc⟩ := h.recorded.sound id info hinfo
    obtain ⟨hnext, hreg, hsub⟩ := detach_frame
      { s.bus with sub_to_topic_ := update s.bus.sub_to_topic_ x.id none } x.id info
    exact ⟨hstored.detach h.numbered.nodup hx hdesc, h.numbered.remove x.id hnext,
      h.recorded.remove x.id hreg hsub, hreg.symm ▸ h.topics, hreg.symm ▸ h.published⟩

theorem Agree.publish (h : Agree s) {data : ν}
    (htopics : (s.topics ++ [topic]).toFinset.card < idLimit) :
    Agree { effect s (.publish T topic data) with topics := s.topics ++ [topic] } := by
  obtain ⟨hbij, hknown⟩ := h.resolved topic htopics
  have hkeep : ∀ name id, find name s.bus.registry_ = some id →
      find name (resolveSlow topic s.bus.registry_).2 = some id :=
    fun _ _ hf ↦ find_resolveSlow hf topic
  have hself := find_resolveSlow_self topic s.bus.registry_
  simp only [effect, makeMessage, resolve_eq]
  refine ⟨h.stored.resolveSlow hbij, ⟨h.numbered.next, h.numbered.nodup, h.numbered.range⟩,
    h.recorded.mono rfl hkeep, hknown, fun p hp ↦ ?_⟩
  rcases List.mem_append.mp hp with hp | hp
  · exact ⟨hkeep _ _ (h.published p hp).1, (h.published p hp).2⟩
  · cases List.mem_singleton.mp hp
    exact ⟨hself, hbij.to_string_eq hself, rfl, rfl⟩

/-- Fewer calls than ids and fewer topics than topic ids. -/
structure Small (s : Delivering τ η ν) : Prop where
  calls : s.calls < 2 ^ 64
  topics : s.topics.toFinset.card < 2 ^ 32 - 1

theorem calls_le (s : Delivering τ η ν) (a : BusCall τ η ν) : s.calls ≤ (effect s a).calls := by
  cases a with
  | subscribe T topic handler =>
    simp only [effect]
    split
    · exact Nat.le_succ _
    · exact Nat.le_succ _
  | unsubscribe | publish | rehash => exact Nat.le_refl _

theorem Small.of_step {a : BusCall τ η ν} (h : Small t) (hs : step s a = some t) : Small s := by
  cases hs
  refine ⟨Nat.lt_of_le_of_lt (calls_le s a) h.calls, Nat.lt_of_le_of_lt ?_ h.topics⟩
  exact Finset.card_le_card fun name hn ↦ by
    simp only [List.mem_toFinset, List.mem_append] at hn ⊢
    exact .inl hn

theorem Agree.of_effect {a : BusCall τ η ν} (h : Agree (effect s a)) (ha : a.topics = []) :
    Agree { effect s a with topics := s.topics ++ a.topics } := by
  have htopics : (effect s a).topics = s.topics ++ a.topics := by
    rw [ha, List.append_nil]
    cases a with
    | subscribe T topic handler =>
      simp only [effect]
      split <;> rfl
    | unsubscribe | publish | rehash => rfl
  rw [← htopics]
  exact h

theorem Agree.step {a : BusCall τ η ν} (h : Agree s) (hs : Delivery.step s a = some t)
    (hsmall : Small t) : Agree t := by
  cases hs
  have htopics : (s.topics ++ a.topics).toFinset.card < idLimit :=
    Nat.lt_of_lt_of_le hsmall.topics (by decide)
  cases a with
  | subscribe T topic handler =>
    have hcalls : s.calls + 1 < subscriptionIdLimit := by
      have hlt : (effect s (.subscribe T topic handler)).calls < 2 ^ 64 := hsmall.calls
      simp only [effect] at hlt
      split at hlt <;> exact hlt
    refine h.subscribe hcalls (fun hw ↦ ?_) ?_
    · simp only [BusCall.topics, hw, Bool.false_eq_true, if_false] at htopics
      exact (h.resolved topic htopics).1
    · rw [attach_registry]
      intro name hn
      by_cases hw : isWildcard topic = true
      · simp only [hw, if_true] at hn
        exact List.mem_append_left _ (h.topics name hn)
      · simp only [BusCall.topics, hw, Bool.false_eq_true, if_false] at hn htopics ⊢
        exact (h.resolved topic htopics).2 name hn
  | unsubscribe id => exact (h.unsubscribe id).of_effect rfl
  | publish T topic data => exact h.publish htopics
  | rehash way =>
    refine Agree.of_effect ?_ rfl
    exact ⟨h.stored.rehash way, ⟨h.numbered.next, h.numbered.nodup, h.numbered.range⟩,
      h.recorded.mono rfl fun _ _ hf ↦ hf, h.topics, h.published⟩

theorem agree_reachable (hs : (machine τ η ν).Reachable s) (hsmall : Small s) : Agree s := by
  revert hsmall
  refine Machine.Reaches.invariant (P := fun s ↦ Small s → Agree s) ?_ ?_ hs
  · intro s hs _
    rw [show s = {} from hs]
    exact agree_initial
  · intro s a t _ h _ ht hsmall
    exact (h (hsmall.of_step ht)).step ht hsmall

end Calls

section Delivered

/-- The walk comes to the node of a pattern exactly when the levels match. -/
theorem visits_pos_iff (ps ts : List Str) : 0 < visits ps ts ↔ levelsMatch ps ts = true := by
  induction ps generalizing ts with
  | nil => cases ts <;> simp [visits, levelsMatch]
  | cons p ps ih =>
    cases ts with
    | nil =>
      by_cases hhash : p = ['#'] ∧ ps = [] <;> simp [visits, levelsMatch, hhash]
    | cons t ts =>
      have ih := ih ts
      rw [visits, levelsMatch]
      by_cases hhash : p = ['#'] ∧ ps = []
      · have hfirst : (decide (p = ['#']) && ps.isEmpty) = true := by simpa using hhash
        rw [hfirst, if_pos hhash, Bool.true_or]
        exact iff_of_true (Nat.add_pos_left (Nat.add_pos_left Nat.one_pos _) _) rfl
      · have hfirst : (decide (p = ['#']) && ps.isEmpty) = false := by simpa using hhash
        rw [hfirst, if_neg hhash, Bool.false_or, Nat.zero_add, Bool.and_eq_true, ← ih,
          Nat.add_pos_iff_pos_or_pos]
        split_ifs with ht hstar hstar <;> simp [ht, hstar]

/-- A subscription to the topic itself or to a pattern that matches it. -/
def Sub.asksFor (x : Sub τ η) (topic : Str) : Bool :=
  if isWildcard x.topic then levelsMatch (splitLevels x.topic) (splitLevels topic)
  else x.topic = topic

theorem times_pos_iff [DecidableEq τ] (x : Sub τ η) (msg : Message τ ν) :
    0 < x.times msg ↔ x.type = msg.type ∧ Sub.asksFor x msg.topic_sv_ = true := by
  by_cases ht : x.type = msg.type
  · by_cases hw : isWildcard x.topic = true
    · simp only [Sub.times, Sub.asksFor, ht, hw, if_true, true_and, visits_pos_iff]
    · simp [Sub.times, Sub.asksFor, ht, hw, Nat.pos_iff_ne_zero]
  · simp [Sub.times, ht]

variable [DecidableEq τ] {s : Delivering τ η ν}

/-- The handlers that run are those of the live subscriptions of the type that
ask for the topic, whatever they throw. -/
theorem delivery_set (hs : (machine τ η ν).Reachable s) (hsmall : Small s) {p : Publication τ ν}
    (hp : p ∈ s.published) (call : η → ν → Except ε Unit) (c : Invocation η ν) :
    c ∈ dispatchMessage s.bus call p.msg ↔
      ∃ x ∈ s.live, x.type = p.type ∧ Sub.asksFor x p.topic = true ∧
        c = ⟨x.id, x.handler, p.data⟩ := by
  have h := agree_reachable hs hsmall
  obtain ⟨hfind, htopic, htype, hdata⟩ := h.published p hp
  rw [(h.stored.dispatch_perm (htopic ▸ hfind)).mem_iff, List.mem_flatMap]
  refine exists_congr fun x ↦ and_congr_right fun _ ↦ ?_
  rw [Sub.invocations, List.mem_replicate, ← Nat.pos_iff_ne_zero, times_pos_iff, htype, htopic,
    hdata, and_assoc]

end Delivered

def noThrow (_ _ : ℕ) : Except Unit Unit := .ok ()

def mixedCalls : List (BusCall Bool ℕ ℕ) :=
  [.subscribe true ['a', '/', 'b'] 10, .subscribe true ['a', '/', '*'] 20,
    .subscribe true ['#', 'a'] 30, .subscribe false ['a', '/', '#'] 40,
    .subscribe true ['a', '/', 'b'] 50, .unsubscribe 1, .publish true ['a', '/', 'b'] 7]

theorem delivery_set_mixedCalls : ∃ (s : Delivering Bool ℕ ℕ) (p : Publication Bool ℕ),
    (machine Bool ℕ ℕ).run {} mixedCalls = some s ∧ p ∈ s.published ∧
      dispatchMessage s.bus noThrow p.msg = [⟨5, 50, 7⟩, ⟨2, 20, 7⟩] ∧
        ∀ c, c ∈ dispatchMessage s.bus noThrow p.msg ↔
          ∃ x ∈ s.live, x.type = p.type ∧ Sub.asksFor x p.topic = true ∧
            c = ⟨x.id, x.handler, p.data⟩ :=
  ⟨_, _, rfl, List.mem_singleton_self _, rfl,
    delivery_set (.of_run (M := machine Bool ℕ ℕ) rfl mixedCalls rfl)
      ⟨by decide, by decide⟩ (List.mem_singleton_self _) noThrow⟩

section WrapAround

variable {s : Delivering Unit ℕ ℕ}

def Delivering.after (n : ℕ) (s : Delivering Unit ℕ ℕ) : Delivering Unit ℕ ℕ :=
  { s with
    bus := { s.bus with next_id_ := (s.bus.next_id_ + n) % subscriptionIdLimit }
    calls := s.calls + n }

def refused : BusCall Unit ℕ ℕ := .subscribe () ['#', 'a'] 0

theorem run_refused (n : ℕ) (hnext : s.bus.next_id_ < subscriptionIdLimit) :
    (machine Unit ℕ ℕ).run s (List.replicate n refused) = some (s.after n) := by
  induction n with
  | zero =>
    simp only [List.replicate_zero, Machine.run, Delivering.after, Nat.add_zero,
      Nat.mod_eq_of_lt hnext]
  | succ n ih =>
    rw [List.replicate_succ', Machine.run_snoc ih]
    have hspec : subscribe (s.after n).bus () ['#', 'a'] 0 = _ := subscribe_misplaced rfl rfl
    simp only [machine, step, effect, refused, hspec]
    have hwild : isWildcard ['#', 'a'] = true := rfl
    simp only [Delivering.after, fetchId, Nat.mod_add_mod, Nat.add_assoc, BusCall.topics, hwild,
      if_true, List.append_nil]

def firstCall : List (BusCall Unit ℕ ℕ) := [.subscribe () ['a'] 10]

def lastCalls : List (BusCall Unit ℕ ℕ) :=
  [.subscribe () ['b'] 20, .unsubscribe 1, .unsubscribe 1, .publish () ['a'] 7]

/-- After 2^64 calls an id is given out again: both its subscriptions have been
taken back, and a handler still runs. -/
theorem delivery_wrapped : ∃ (s : Delivering Unit ℕ ℕ) (p : Publication Unit ℕ),
    (machine Unit ℕ ℕ).Reachable s ∧ p ∈ s.published ∧ s.live = [] ∧
      dispatchMessage s.bus noThrow p.msg = [⟨1, 10, 7⟩] := by
  have hfirst := Machine.Reaches.of_run (M := machine Unit ℕ ℕ) rfl firstCall rfl
  have hmany := hfirst.run_next _ (run_refused (2 ^ 64 - 1) (by decide))
  have hlast := hmany.run_next lastCalls rfl
  exact ⟨_, _, hlast, List.mem_singleton_self _, rfl, rfl⟩

end WrapAround

end LivioArk.Msgbus.Delivery
