import LivioArk.Msgbus.SubscriptionThreads

namespace LivioArk.Msgbus.SubscriptionThreads

open Function LivioArk.Library.Transition LivioArk.Library.PrefixTree
open Levels TopicMatcher TopicRegistry WildcardTrie Subscriptions SubStore Dispatching

variable {Tid τ η ν : Type}

namespace Status

def owner : Status Tid → Option Tid
  | .pending t | .added t | .taken t => some t
  | _ => none

def present : Status Tid → Prop
  | .added _ | .recorded | .taken _ => True
  | _ => False

def settled : Status Tid → Prop
  | .recorded | .taken _ | .removed => True
  | _ => False

end Status

def Installed (b : SubState τ η) (topic : Str) (T : τ) : Prop :=
  ∃ tid slot, find topic b.registry_ = some tid ∧ b.slots_ tid = some slot ∧
    (b.heap slot).msg_type = some T

section Invariant

variable (s : Subscribing Tid τ η ν) (t : Tid)

def SubscribeFits : SubscribePc τ η → Prop
  | .idle => True
  | .lookup x | .resolve x =>
    s.status x.id = .pending t ∧ isWildcard x.topic = false ∧ x.topic ∈ s.topics
  | .findSlot x tid | .createSlot x tid =>
    s.status x.id = .pending t ∧ isWildcard x.topic = false ∧
      find x.topic s.bus.registry_ = some tid
  | .addSubscriber x tid slot =>
    s.status x.id = .pending t ∧ isWildcard x.topic = false ∧
      find x.topic s.bus.registry_ = some tid ∧ s.bus.slots_ tid = some slot ∧
        (s.bus.heap slot).msg_type = some x.type
  | .insert x => s.status x.id = .pending t ∧ isWildcard x.topic = true
  | .record x info =>
    s.status x.id = .added t ∧ x ∈ s.live ∧ Describes s.bus.registry_ x info ∧
      (isWildcard x.topic = false → Installed s.bus x.topic x.type)

def UnsubscribeFits : UnsubscribePc → Prop
  | .idle => True
  | .take id => id ∈ s.asked
  | .findSlot id tid =>
    id ∈ s.asked ∧ s.status id = .taken t ∧
      ∃ x ∈ s.live, x.id = id ∧ isWildcard x.topic = false ∧
        find x.topic s.bus.registry_ = some tid
  | .removeSubscriber id slot =>
    id ∈ s.asked ∧ s.status id = .taken t ∧
      ∃ x ∈ s.live, x.id = id ∧ isWildcard x.topic = false ∧
        ∃ tid, find x.topic s.bus.registry_ = some tid ∧ s.bus.slots_ tid = some slot
  | .remove id =>
    id ∈ s.asked ∧ s.status id = .taken t ∧ ∃ x ∈ s.live, x.id = id ∧ isWildcard x.topic = true

structure ReturnedFits (x : Sub τ η) : Prop where
  unique : ∀ y ∈ s.live, y.id = x.id → y = x
  settled : (s.status x.id).settled
  kept : x.id ∉ s.asked → s.status x.id = .recorded
  installed : isWildcard x.topic = false → Installed s.bus x.topic x.type

structure ThrownFits (x : Sub τ η) : Prop where
  removed : s.status x.id = .removed
  installed : isWildcard x.topic = false → ∃ T, T ≠ x.type ∧ Installed s.bus x.topic T

structure Tracks : Prop where
  stored : Stored s.bus s.live
  next : s.bus.next_id_ = s.calls
  topics : ∀ name ∈ s.bus.registry_.map_.map Prod.fst, name ∈ s.topics
  nodup : (s.live.map Sub.id).Nodup
  unused : ∀ id, s.calls < id → s.status id = .unused
  present : ∀ id, (s.status id).present ↔ ∃ x ∈ s.live, x.id = id
  unrecorded : ∀ id, s.status id ≠ .recorded → s.bus.sub_to_topic_ id = none
  recorded : ∀ x ∈ s.live, s.status x.id = .recorded →
    ∃ info, s.bus.sub_to_topic_ x.id = some info ∧ Describes s.bus.registry_ x info
  subs : ∀ t, SubscribeFits s t (s.subs t)
  unsubs : ∀ t, UnsubscribeFits s t (s.unsubs t)
  single : ∀ t, s.subs t = .idle ∨ s.unsubs t = .idle
  takers : ∀ id t, s.status id = .taken t → (s.unsubs t).removing = some id
  returned : ∀ x ∈ s.returned, ReturnedFits s x
  thrown : ∀ x ∈ s.thrown, ThrownFits s x
  asked : ∀ id ∈ s.asked, ∃ x ∈ s.returned, x.id = id
  published : ∀ msg ∈ s.published, find msg.topic_sv_ s.bus.registry_ = some msg.topic_id_

end Invariant

section Frames

variable {s s' : Subscribing Tid τ η ν} {t u : Tid}

structure Grows (s s' : Subscribing Tid τ η ν) : Prop where
  ext : Extends s.bus s'.bus
  topics : s.topics ⊆ s'.topics
  asked : s.asked ⊆ s'.asked
  new : ∀ x ∈ s'.live, x ∈ s.live ∨ ¬ (s.status x.id).settled
  settled : ∀ id, (s.status id).settled → (s'.status id).settled
  recorded : ∀ id, s.status id = .recorded → id ∉ s'.asked → s'.status id = .recorded
  removed : ∀ id, s.status id = .removed → s'.status id = .removed

structure Spares (u : Tid) (s s' : Subscribing Tid τ η ν) : Prop where
  subs : s'.subs u = s.subs u
  unsubs : s'.unsubs u = s.unsubs u
  owned : ∀ id, (s.status id).owner = some u → s'.status id = s.status id
  live : ∀ x ∈ s.live, (s.status x.id).owner = some u → x ∈ s'.live
  takers : ∀ id, s'.status id = .taken u → s.status id = .taken u

theorem Installed.mono {b b' : SubState τ η} {topic : Str} {T : τ} (h : Installed b topic T)
    (hb : ∀ tid slot, b.slots_ tid = some slot → slot < b.allocated) (hext : Extends b b') :
    Installed b' topic T := by
  obtain ⟨tid, slot, hfind, hslot, hty⟩ := h
  exact ⟨tid, slot, hext.finds _ _ hfind, hext.slots _ _ hslot,
    (hext.types slot (hb tid slot hslot)).trans hty⟩

theorem SubscribeFits.mono {pc : SubscribePc τ η} (h : SubscribeFits s u pc)
    (hstored : Stored s.bus s.live) (hm : Grows s s') (hu : Spares u s s') :
    SubscribeFits s' u pc := by
  have hpending : ∀ id, s.status id = .pending u → s'.status id = .pending u :=
    fun id hid ↦ (hu.owned id (by rw [hid]; rfl)).trans hid
  cases pc with
  | idle => trivial
  | lookup x | resolve x => exact ⟨hpending _ h.1, h.2.1, hm.topics h.2.2⟩
  | findSlot x tid | createSlot x tid =>
    exact ⟨hpending _ h.1, h.2.1, hm.ext.finds _ _ h.2.2⟩
  | addSubscriber x tid slot =>
    obtain ⟨hid, hw, hfind, hslot, hty⟩ := h
    exact ⟨hpending _ hid, hw, hm.ext.finds _ _ hfind, hm.ext.slots _ _ hslot,
      (hm.ext.types slot (hstored.apart.slots_below tid slot hslot)).trans hty⟩
  | insert x => exact ⟨hpending _ h.1, h.2⟩
  | record x info =>
    obtain ⟨hid, hx, hdesc, hinst⟩ := h
    have howner : (s.status x.id).owner = some u := by rw [hid]; rfl
    exact ⟨(hu.owned _ howner).trans hid, hu.live x hx howner, hdesc.mono hm.ext.finds,
      fun hw ↦ (hinst hw).mono hstored.apart.slots_below hm.ext⟩

theorem UnsubscribeFits.mono {pc : UnsubscribePc} (h : UnsubscribeFits s u pc)
    (hm : Grows s s') (hu : Spares u s s') : UnsubscribeFits s' u pc := by
  have htaken : ∀ id, s.status id = .taken u → s'.status id = .taken u :=
    fun id hid ↦ (hu.owned id (by rw [hid]; rfl)).trans hid
  have hlive : ∀ x ∈ s.live, s.status x.id = .taken u → x ∈ s'.live :=
    fun x hx hid ↦ hu.live x hx (by rw [hid]; rfl)
  cases pc with
  | idle => trivial
  | take id => exact hm.asked h
  | findSlot id tid =>
    obtain ⟨hid, hst, x, hx, rfl, hw, hfind⟩ := h
    exact ⟨hm.asked hid, htaken _ hst, x, hlive x hx hst, rfl, hw, hm.ext.finds _ _ hfind⟩
  | removeSubscriber id slot =>
    obtain ⟨hid, hst, x, hx, rfl, hw, tid, hfind, hslot⟩ := h
    exact ⟨hm.asked hid, htaken _ hst, x, hlive x hx hst, rfl, hw, tid, hm.ext.finds _ _ hfind,
      hm.ext.slots _ _ hslot⟩
  | remove id =>
    obtain ⟨hid, hst, x, hx, rfl, hw⟩ := h
    exact ⟨hm.asked hid, htaken _ hst, x, hlive x hx hst, rfl, hw⟩

theorem ReturnedFits.mono {x : Sub τ η} (h : ReturnedFits s x) (hstored : Stored s.bus s.live)
    (hm : Grows s s') : ReturnedFits s' x where
  unique y hy hid := (hm.new y hy).elim (fun hy ↦ h.unique y hy hid)
    fun hnot ↦ absurd (hid ▸ h.settled) hnot
  settled := hm.settled _ h.settled
  kept hid := hm.recorded _ (h.kept fun hmem ↦ hid (hm.asked hmem)) hid
  installed hw := (h.installed hw).mono hstored.apart.slots_below hm.ext

theorem ThrownFits.mono {x : Sub τ η} (h : ThrownFits s x) (hstored : Stored s.bus s.live)
    (hm : Grows s s') : ThrownFits s' x where
  removed := hm.removed _ h.removed
  installed hw := by
    obtain ⟨T, hT, hinst⟩ := h.installed hw
    exact ⟨T, hT, hinst.mono hstored.apart.slots_below hm.ext⟩

structure Moved (t : Tid) (s s' : Subscribing Tid τ η ν) : Prop where
  stored : Stored s'.bus s'.live
  next : s'.bus.next_id_ = s'.calls
  topics : ∀ name ∈ s'.bus.registry_.map_.map Prod.fst, name ∈ s'.topics
  nodup : (s'.live.map Sub.id).Nodup
  unused : ∀ id, s'.calls < id → s'.status id = .unused
  present : ∀ id, (s'.status id).present ↔ ∃ x ∈ s'.live, x.id = id
  unrecorded : ∀ id, s'.status id ≠ .recorded → s'.bus.sub_to_topic_ id = none
  recorded : ∀ x ∈ s'.live, s'.status x.id = .recorded →
    ∃ info, s'.bus.sub_to_topic_ x.id = some info ∧ Describes s'.bus.registry_ x info
  sub : SubscribeFits s' t (s'.subs t)
  unsub : UnsubscribeFits s' t (s'.unsubs t)
  single : s'.subs t = .idle ∨ s'.unsubs t = .idle
  taker : ∀ id, s'.status id = .taken t → (s'.unsubs t).removing = some id
  returned : ∀ x ∈ s'.returned, x ∈ s.returned ∨ ReturnedFits s' x
  thrown : ∀ x ∈ s'.thrown, x ∈ s.thrown ∨ ThrownFits s' x
  asked : ∀ id ∈ s'.asked, ∃ x ∈ s'.returned, x.id = id
  published : ∀ msg ∈ s'.published, msg ∈ s.published ∨
    find msg.topic_sv_ s'.bus.registry_ = some msg.topic_id_

theorem Tracks.move (h : Tracks s) (hm : Grows s s') (hspares : ∀ u ≠ t, Spares u s s')
    (hn : Moved t s s') : Tracks s' where
  stored := hn.stored
  next := hn.next
  topics := hn.topics
  nodup := hn.nodup
  unused := hn.unused
  present := hn.present
  unrecorded := hn.unrecorded
  recorded := hn.recorded
  subs u := by
    by_cases hu : u = t
    · exact hu ▸ hn.sub
    · rw [(hspares u hu).subs]
      exact (h.subs u).mono h.stored hm (hspares u hu)
  unsubs u := by
    by_cases hu : u = t
    · exact hu ▸ hn.unsub
    · rw [(hspares u hu).unsubs]
      exact (h.unsubs u).mono hm (hspares u hu)
  single u := by
    by_cases hu : u = t
    · exact hu ▸ hn.single
    · rw [(hspares u hu).subs, (hspares u hu).unsubs]
      exact h.single u
  takers id u hid := by
    by_cases hu : u = t
    · rw [hu] at hid ⊢
      exact hn.taker id hid
    · rw [(hspares u hu).unsubs]
      exact h.takers id u ((hspares u hu).takers id hid)
  returned x hx := (hn.returned x hx).elim (fun hx ↦ (h.returned x hx).mono h.stored hm)
    fun hfits ↦ hfits
  thrown x hx := (hn.thrown x hx).elim (fun hx ↦ (h.thrown x hx).mono h.stored hm)
    fun hfits ↦ hfits
  asked := hn.asked
  published msg hmsg := (hn.published msg hmsg).elim
    (fun hmsg ↦ hm.ext.finds _ _ (h.published msg hmsg)) fun hfind ↦ hfind

theorem Tracks.around (h : Tracks s) {bus : SubState τ η} {topics : List Str}
    {published : List (Message τ ν)} (hext : Extends s.bus bus) (hstored : Stored bus s.live)
    (hnext : bus.next_id_ = s.bus.next_id_) (hrecords : bus.sub_to_topic_ = s.bus.sub_to_topic_)
    (hnames : ∀ name ∈ bus.registry_.map_.map Prod.fst, name ∈ topics) (htopics : s.topics ⊆ topics)
    (hpublished : ∀ msg ∈ published, msg ∈ s.published ∨
      find msg.topic_sv_ bus.registry_ = some msg.topic_id_) :
    Tracks { s with bus, topics, published } := by
  have hm : Grows s { s with bus, topics, published } := {
    ext := hext
    topics := htopics
    asked := fun _ h ↦ h
    new := fun _ hx ↦ .inl hx
    settled := fun _ h ↦ h
    recorded := fun _ h _ ↦ h
    removed := fun _ h ↦ h }
  have hspares : ∀ u, Spares u s { s with bus, topics, published } :=
    fun _ ↦ ⟨rfl, rfl, fun _ _ ↦ rfl, fun _ hx _ ↦ hx, fun _ h ↦ h⟩
  exact {
    stored := hstored
    next := hnext.trans h.next
    topics := hnames
    nodup := h.nodup
    unused := h.unused
    present := h.present
    unrecorded := fun id hid ↦ hrecords ▸ h.unrecorded id hid
    recorded := fun x hx hid ↦ by
      obtain ⟨info, hinfo, hdesc⟩ := h.recorded x hx hid
      exact ⟨info, hrecords ▸ hinfo, hdesc.mono hext.finds⟩
    subs := fun u ↦ (h.subs u).mono h.stored hm (hspares u)
    unsubs := fun u ↦ (h.unsubs u).mono hm (hspares u)
    single := h.single
    takers := h.takers
    returned := fun x hx ↦ (h.returned x hx).mono h.stored hm
    thrown := fun x hx ↦ (h.thrown x hx).mono h.stored hm
    asked := h.asked
    published := fun msg hmsg ↦ (hpublished msg hmsg).elim
      (fun hmsg ↦ hext.finds _ _ (h.published msg hmsg)) fun hfind ↦ hfind }

structure Marks (t : Tid) (id : ℕ) (q : Status Tid) (s s' : Subscribing Tid τ η ν) : Prop where
  ext : Extends s.bus s'.bus
  topics : s.topics ⊆ s'.topics
  asked : s.asked ⊆ s'.asked
  subs : ∀ u ≠ t, s'.subs u = s.subs u
  unsubs : ∀ u ≠ t, s'.unsubs u = s.unsubs u
  status : s'.status = update s.status id q
  free : ∀ u ≠ t, (s.status id).owner ≠ some u
  taken : ∀ u, q = .taken u → u = t ∧ (s'.unsubs t).removing = some id
  taker : ∀ id' ≠ id, (s.unsubs t).removing = some id' → (s'.unsubs t).removing = some id'
  settled : (s.status id).settled → q.settled
  recorded : s.status id = .recorded → id ∈ s'.asked
  removed : s.status id ≠ .removed
  live : ∀ x : Sub τ η, x.id ≠ id → (x ∈ s'.live ↔ x ∈ s.live)
  fresh : ∀ x ∈ s'.live, x.id = id → x ∈ s.live ∨ ¬ (s.status id).settled
  present : q.present ↔ ∃ x ∈ s'.live, x.id = id
  others : ∀ id' ≠ id, s'.bus.sub_to_topic_ id' = s.bus.sub_to_topic_ id'
  unrecorded : q ≠ .recorded → s'.bus.sub_to_topic_ id = none
  record : q = .recorded → ∀ x ∈ s'.live, x.id = id →
    ∃ info, s'.bus.sub_to_topic_ id = some info ∧ Describes s'.bus.registry_ x info

theorem Marks.spares {id : ℕ} {q : Status Tid} (hm : Marks t id q s s') (hu : u ≠ t) :
    Spares u s s' := by
  have hother : ∀ id', (s.status id').owner = some u → id' ≠ id := by
    intro id' hid he
    exact hm.free u hu (he ▸ hid)
  refine ⟨hm.subs u hu, hm.unsubs u hu, fun id' hid ↦ ?_,
    fun x hx hid ↦ (hm.live x (hother x.id hid)).mpr hx, fun id' hid ↦ ?_⟩
  · rw [hm.status, update_of_ne (hother id' hid)]
  · by_cases he : id' = id
    · subst he
      rw [hm.status, update_self] at hid
      exact absurd (hm.taken u hid).1 hu
    · rwa [hm.status, update_of_ne he] at hid

theorem Marks.grows {id : ℕ} {q : Status Tid} (hm : Marks t id q s s') : Grows s s' := by
  refine ⟨hm.ext, hm.topics, hm.asked, fun x hx ↦ ?_, fun id' hid ↦ ?_, fun id' hid hnot ↦ ?_,
    fun id' hid ↦ ?_⟩
  · by_cases he : x.id = id
    · exact he ▸ hm.fresh x hx he
    · exact .inl ((hm.live x he).mp hx)
  all_goals by_cases he : id' = id
  · subst he
    rw [hm.status, update_self]
    exact hm.settled hid
  · rwa [hm.status, update_of_ne he]
  · subst he
    exact absurd (hm.recorded hid) hnot
  · rwa [hm.status, update_of_ne he]
  · subst he
    exact absurd hid hm.removed
  · rwa [hm.status, update_of_ne he]

theorem Tracks.mark (h : Tracks s) {id : ℕ} {q : Status Tid} (hm : Marks t id q s s')
    (hstored : Stored s'.bus s'.live) (hnext : s'.bus.next_id_ = s'.calls)
    (hnames : ∀ name ∈ s'.bus.registry_.map_.map Prod.fst, name ∈ s'.topics)
    (hnodup : (s'.live.map Sub.id).Nodup)
    (hcalls : s.calls ≤ s'.calls) (hid : id ≤ s'.calls)
    (hsub : SubscribeFits s' t (s'.subs t)) (hunsub : UnsubscribeFits s' t (s'.unsubs t))
    (hsingle : s'.subs t = .idle ∨ s'.unsubs t = .idle)
    (hreturned : ∀ x ∈ s'.returned, x ∈ s.returned ∨ ReturnedFits s' x)
    (hthrown : ∀ x ∈ s'.thrown, x ∈ s.thrown ∨ ThrownFits s' x)
    (hasked : ∀ id ∈ s'.asked, ∃ x ∈ s'.returned, x.id = id)
    (hpublished : s'.published = s.published) : Tracks s' := by
  refine h.move hm.grows (fun _ hu ↦ hm.spares hu) ⟨hstored, hnext, hnames, hnodup,
    fun id' hlt ↦ ?_, fun id' ↦ ?_, fun id' hne ↦ ?_,
    fun x hx hrec ↦ ?_, hsub, hunsub, hsingle, fun id' htaken ↦ ?_, hreturned,
    hthrown, hasked, fun msg hmsg ↦ .inl (hpublished ▸ hmsg)⟩
  · rw [hm.status, update_of_ne (Nat.ne_of_gt (Nat.lt_of_le_of_lt hid hlt))]
    exact h.unused id' (Nat.lt_of_le_of_lt hcalls hlt)
  · by_cases he : id' = id
    · rw [he, hm.status, update_self]
      exact hm.present
    · rw [hm.status, update_of_ne he, h.present]
      refine exists_congr fun x ↦ and_congr_left fun hx ↦ (hm.live x ?_).symm
      exact hx ▸ he
  · by_cases he : id' = id
    · rw [he, hm.status, update_self] at hne
      exact he ▸ hm.unrecorded hne
    · rw [hm.status, update_of_ne he] at hne
      exact (hm.others id' he).trans (h.unrecorded id' hne)
  · by_cases he : x.id = id
    · rw [he, hm.status, update_self] at hrec
      exact he ▸ hm.record hrec x hx he
    · rw [hm.status, update_of_ne he] at hrec
      obtain ⟨info, hinfo, hdesc⟩ := h.recorded x ((hm.live x he).mp hx) hrec
      exact ⟨info, (hm.others _ he).trans hinfo, hdesc.mono hm.ext.finds⟩
  · by_cases he : id' = id
    · rw [he, hm.status, update_self] at htaken
      exact he ▸ (hm.taken t htaken).2
    · rw [hm.status, update_of_ne he] at htaken
      exact hm.taker id' he (h.takers id' t htaken)

theorem Tracks.quiet (h : Tracks s) (hext : Extends s.bus s'.bus) (hstored : Stored s'.bus s.live)
    (hnext : s'.bus.next_id_ = s.bus.next_id_)
    (hrecords : s'.bus.sub_to_topic_ = s.bus.sub_to_topic_)
    (hnames : ∀ name ∈ s'.bus.registry_.map_.map Prod.fst, name ∈ s'.topics)
    (htopics : s.topics ⊆ s'.topics) (hcalls : s'.calls = s.calls)
    (hstatus : s'.status = s.status) (hlive : s'.live = s.live)
    (hreturned : s'.returned = s.returned) (hthrown : s'.thrown = s.thrown)
    (hasked : ∀ id ∈ s'.asked, id ∈ s.asked ∨ ∃ x ∈ s.returned, x.id = id)
    (haskedmore : s.asked ⊆ s'.asked)
    (hsubs : ∀ u ≠ t, s'.subs u = s.subs u) (hunsubs : ∀ u ≠ t, s'.unsubs u = s.unsubs u)
    (hsub : SubscribeFits s' t (s'.subs t)) (hunsub : UnsubscribeFits s' t (s'.unsubs t))
    (hsingle : s'.subs t = .idle ∨ s'.unsubs t = .idle)
    (htaker : ∀ id, (s.unsubs t).removing = some id → (s'.unsubs t).removing = some id)
    (hpublished : ∀ msg ∈ s'.published, msg ∈ s.published ∨
      find msg.topic_sv_ s'.bus.registry_ = some msg.topic_id_) : Tracks s' := by
  have hm : Grows s s' := {
    ext := hext
    topics := htopics
    asked := haskedmore
    new := fun x hx ↦ .inl (hlive ▸ hx)
    settled := fun _ hid ↦ hstatus ▸ hid
    recorded := fun _ hid _ ↦ hstatus ▸ hid
    removed := fun _ hid ↦ hstatus ▸ hid }
  have hspares : ∀ u ≠ t, Spares u s s' := fun u hu ↦ {
    subs := hsubs u hu
    unsubs := hunsubs u hu
    owned := fun id _ ↦ by rw [hstatus]
    live := fun x hx _ ↦ hlive ▸ hx
    takers := fun _ hid ↦ hstatus ▸ hid }
  refine h.move hm hspares ⟨hlive ▸ hstored, hnext.trans (h.next.trans hcalls.symm), hnames,
    hlive ▸ h.nodup, hcalls ▸ hstatus ▸ h.unused, hstatus ▸ hlive ▸ h.present,
    fun id hid ↦ ?_, fun x hx hid ↦ ?_, hsub, hunsub, hsingle, fun id hid ↦ ?_,
    fun x hx ↦ .inl (hreturned ▸ hx), fun x hx ↦ .inl (hthrown ▸ hx), fun id hid ↦ ?_, hpublished⟩
  · rw [hrecords]
    exact h.unrecorded id (hstatus ▸ hid)
  · obtain ⟨info, hinfo, hdesc⟩ := h.recorded x (hlive ▸ hx) (hstatus ▸ hid)
    exact ⟨info, hrecords ▸ hinfo, hdesc.mono hext.finds⟩
  · exact htaker id (h.takers id t (hstatus ▸ hid))
  · rw [hreturned]
    exact (hasked id hid).elim (h.asked id) fun hx ↦ hx

end Frames

end LivioArk.Msgbus.SubscriptionThreads
