import LivioArk.Msgbus.WholeHands

namespace LivioArk.Msgbus.WholeBus

open Function LivioArk.Library.Transition LivioArk.Library.QueueLog LivioArk.Library.SerialTrace
open Levels Subscriptions SubStore Delivery LockFreeQueue BusSteps WeakBus Lanes Shutdown
open MessageBus (Bus Config Agent Local LoopPc WorkerPc)
open AtomicBus (BusAction)
open SubscriptionThreads

section Subs

variable {Tid τ η ν : Type} {s s' : Subscribing Tid τ η ν} {t : Tid}

structure Goes (s s' : Subscribing Tid τ η ν) : Prop where
  published : s'.published = s.published
  reports : s'.reports = s.reports
  returned : s.returned ⊆ s'.returned
  dispatches : ∀ t d, s.dispatches t = some d →
    ∃ d', s'.dispatches t = some d' ∧ d'.frame.msg = d.frame.msg ∧ d'.due = d.due

theorem Goes.of_behind (hb : Behind s s') (hp : s'.published = s.published) : Goes s s' := by
  refine ⟨hp, hb.reports, hb.returned, fun t d hd ↦ ⟨d, ?_, rfl, rfl⟩⟩
  rw [hb.dispatches]
  exact hd

theorem load_msg [DecidableEq τ] {b : SubState τ η} {f f' : Dispatching.Frame τ η ν}
    (h : f.load b = some f') : f'.msg = f.msg := by
  unfold Dispatching.Frame.load at h
  split at h
  · cases h
  · cases h
    rfl
  · split at h
    · cases h
      rfl
    · split at h
      · cases h
        rfl
      · cases h

variable [DecidableEq Tid]

theorem Goes.of_changes (hc : Changes t s s') : Goes s s' := by
  refine .of_behind hc.behind ?_
  cases hc <;> rfl

theorem Goes.setDispatch {d d' : Dispatch τ η ν} (hd : s.dispatches t = some d)
    (he : s'.dispatches = update s.dispatches t (some d'))
    (hmsg : d'.frame.msg = d.frame.msg) (hdue : d'.due = d.due) (hp : s'.published = s.published)
    (hr : s'.reports = s.reports) (hret : s'.returned = s.returned) : Goes s s' := by
  refine ⟨hp, hr, by rw [hret]; exact List.Subset.refl _, fun u e hu ↦ ?_⟩
  rw [he]
  by_cases hut : u = t
  · rw [hut] at hu
    obtain rfl : d = e := Option.some.inj (hd.symm.trans hu)
    rw [hut, update_self]
    exact ⟨d', rfl, hmsg, hdue⟩
  · rw [update_of_ne hut]
    exact ⟨e, hu, rfl, rfl⟩

end Subs

section Alone

variable {Pid τ η ν : Type} [DecidableEq Pid] [DecidableEq τ]
  {s s' : Subscribing (Agent Pid) τ η ν}

theorem alone_goes {a : SubAction (Agent Pid) τ η ν} (ha : alone a = true) (h : Tracks s)
    (hsmall : SubscriptionThreads.Small s') (hs : SubscriptionThreads.step s a = some s') :
    Goes s s' := by
  cases a with
  | publish | dispatch | finish => cases ha
  | subscribe t T topic handler =>
    simp only [SubscriptionThreads.step] at hs
    split at hs
    · cases hs
      refine .of_behind (subscribe_behind s t T topic handler) ?_
      unfold Subscribing.subscribe
      simp only
      split
      · split <;> rfl
      · rfl
    · cases hs
  | subscribeStep t =>
    have htopics : s.topics.toFinset.card < TopicRegistry.idLimit :=
      Nat.lt_of_lt_of_le (hsmall.of_step hs).topics (by decide)
    exact .of_changes (subscribeStep_changes h htopics hs)
  | unsubscribe t id =>
    simp only [SubscriptionThreads.step] at hs
    split at hs
    · cases hs
      exact ⟨rfl, rfl, List.Subset.refl _, fun t d hd ↦ ⟨d, hd, rfl, rfl⟩⟩
    · cases hs
  | unsubscribeStep t => exact .of_changes (unsubscribeStep_changes h hs)
  | rehash way =>
    cases hs
    exact ⟨rfl, rfl, List.Subset.refl _, fun t d hd ↦ ⟨d, hd, rfl, rfl⟩⟩
  | load t =>
    obtain ⟨d, hd, hload⟩ := dispatchStep_some hs
    obtain ⟨frame, hframe, rfl⟩ := Option.map_eq_some_iff.mp hload
    exact .setDispatch hd rfl (load_msg hframe) rfl rfl rfl rfl
  | call t =>
    obtain ⟨d, hd, hcall⟩ := dispatchStep_some hs
    cases hsubs : d.frame.subs with
    | nil =>
      rw [hsubs] at hcall
      cases hcall
    | cons sub subs =>
      rw [hsubs] at hcall
      obtain rfl := Option.some.inj hcall
      exact .setDispatch hd rfl rfl rfl rfl rfl rfl
  | return_ t =>
    simp only [SubscriptionThreads.step] at hs
    split at hs
    · rename_i d hd
      split at hs
      · cases hs
        exact .setDispatch hd rfl rfl rfl rfl rfl rfl
      · cases hs
    · cases hs

end Alone

section Projections

variable {Pid τ η ν : Type} [DecidableEq Pid] [DecidableEq τ] [DecidableEq ν]
  {cfg : Config (Parcel τ ν)} {cap capacity : ℕ} {s t : Whole Pid τ η ν}

inductive Moves (cfg : Config (Parcel τ ν)) (cap : ℕ) (s : Whole Pid τ η ν) :
    WholeAction Pid τ η ν → Whole Pid τ η ν → Prop
  | publish {p : Pid} {T : τ} {topic : Str} {data : ν}
      {subs : Subscribing (Agent Pid) τ η ν} {bus : Bus (Fifo (Parcel τ ν)) Pid (Parcel τ ν)} :
      SubscriptionThreads.step s.subs (.publish T topic data) = some subs →
      AtomicBus.step (routed cfg) cap s.bus (.thread (.publish p
        ⟨s.subs.published.length, (makeMessage s.subs.bus T topic data).1⟩)) = some bus →
      Moves cfg cap s (.publish p T topic data)
        { bus, subs, due := update s.due s.subs.published.length s.subs.returned }
  | bus {a : BusAction Pid (Parcel τ ν)} {bus : Bus (Fifo (Parcel τ ν)) Pid (Parcel τ ν)} :
      apart s.bus a = true → AtomicBus.step (routed cfg) cap s.bus a = some bus →
      Moves cfg cap s (.bus a) { s with bus }
  | subs {a : SubAction (Agent Pid) τ η ν} {subs : Subscribing (Agent Pid) τ η ν} :
      alone a = true → SubscriptionThreads.step s.subs a = some subs →
      Moves cfg cap s (.subs a) { s with subs }
  | begin {ag : Agent Pid} {parcel : Parcel τ ν} {subs : Subscribing (Agent Pid) τ η ν}
      {bus : Bus (Fifo (Parcel τ ν)) Pid (Parcel τ ν)} :
      ahead s.bus ag = some parcel →
      SubscriptionThreads.step s.subs (.dispatch ag parcel.n) = some subs →
      AtomicBus.step (routed cfg) cap s.bus (.thread (own ag)) = some bus →
      Moves cfg cap s (.begin ag) { s with bus, subs }
  | finish {ag : Agent Pid} {parcel : Parcel τ ν} {subs : Subscribing (Agent Pid) τ η ν}
      {bus : Bus (Fifo (Parcel τ ν)) Pid (Parcel τ ν)} :
      inside s.bus ag = some parcel →
      SubscriptionThreads.step s.subs (.finish ag) = some subs →
      AtomicBus.step (routed cfg) cap s.bus (.thread (own ag)) = some bus →
      Moves cfg cap s (.finish ag) { s with bus, subs }

theorem step_moves {a : WholeAction Pid τ η ν} (h : step cfg cap s a = some t) :
    Moves cfg cap s a t := by
  cases a with
  | publish p T topic data =>
    simp only [step, publish] at h
    obtain ⟨subs, hsubs, h⟩ := Option.bind_eq_some_iff.mp h
    obtain ⟨bus, hbus, rfl⟩ := Option.map_eq_some_iff.mp h
    exact .publish hsubs hbus
  | bus a =>
    simp only [step] at h
    split at h
    · rename_i ha
      obtain ⟨bus, hbus, rfl⟩ := Option.map_eq_some_iff.mp h
      exact .bus ha hbus
    · cases h
  | subs a =>
    simp only [step] at h
    split at h
    · rename_i ha
      obtain ⟨subs, hsubs, rfl⟩ := Option.map_eq_some_iff.mp h
      exact .subs ha hsubs
    · cases h
  | begin ag =>
    simp only [step, begin] at h
    obtain ⟨parcel, hparcel, h⟩ := Option.bind_eq_some_iff.mp h
    obtain ⟨subs, hsubs, h⟩ := Option.bind_eq_some_iff.mp h
    obtain ⟨bus, hbus, rfl⟩ := Option.map_eq_some_iff.mp h
    exact .begin hparcel hsubs hbus
  | finish ag =>
    simp only [step, finish] at h
    obtain ⟨parcel, hparcel, h⟩ := Option.bind_eq_some_iff.mp h
    obtain ⟨subs, hsubs, h⟩ := Option.bind_eq_some_iff.mp h
    obtain ⟨bus, hbus, rfl⟩ := Option.map_eq_some_iff.mp h
    exact .finish hparcel hsubs hbus

theorem Moves.bus_step {a : WholeAction Pid τ η ν} (h : Moves cfg cap s a t) :
    t.bus = s.bus ∨ ∃ b, AtomicBus.step (routed cfg) cap s.bus b = some t.bus := by
  cases h with
  | subs => exact .inl rfl
  | publish _ hbus | bus _ hbus | begin _ _ hbus | finish _ _ hbus => exact .inr ⟨_, hbus⟩

theorem Moves.subs_step {a : WholeAction Pid τ η ν} (h : Moves cfg cap s a t)
    (hcalm : Calm s a) : t.subs = s.subs ∨
      ∃ b, Undisputed s.subs b ∧ SubscriptionThreads.step s.subs b = some t.subs := by
  cases h with
  | bus => exact .inl rfl
  | subs _ hsubs => exact .inr ⟨_, hcalm, hsubs⟩
  | publish hsubs | begin _ hsubs | finish _ hsubs =>
    refine .inr ⟨_, ?_, hsubs⟩
    trivial

/-- The queues of a whole bus run as they would by themselves. -/
theorem bus_reachable (h : (machine Pid η cfg capacity).Reaches Calm s) :
    (AtomicBus.machine Pid (routed cfg) capacity).Reachable s.bus := by
  refine h.simulate (fun s hs ↦ ?_) fun s a t _ _ _ hst ↦ ?_
  · rw [show s = {} from hs]
    rfl
  · rcases (step_moves hst).bus_step with he | ⟨b, hb⟩
    · rw [he]
      exact .refl _
    · exact .one trivial hb

theorem subs_reaches (h : (machine Pid η cfg capacity).Reaches Calm s) :
    (SubscriptionThreads.machine (Agent Pid) τ η ν).Reaches Undisputed s.subs := by
  refine h.simulate (fun s hs ↦ ?_) fun s a t _ _ hcalm hst ↦ ?_
  · rw [show s = {} from hs]
    rfl
  · rcases (step_moves hst).subs_step hcalm with he | ⟨b, hun, hb⟩
    · rw [he]
      exact .refl _
    · exact .one hun hb

end Projections

section Links

variable {Pid τ η ν : Type} {s t : Whole Pid τ η ν}

/-- The message of a dispatch is that of the parcel, and it began with all the
subscriptions that had been returned when the parcel was published. -/
structure Carries (s : Whole Pid τ η ν) (p : Parcel τ ν) (msg : Message τ ν)
    (due : List (Sub τ η)) : Prop where
  old : p.n < s.subs.published.length
  msg : msg = p.msg
  due : s.due p.n ⊆ due

structure Linked (s : Whole Pid τ η ν) : Prop where
  parcels : ∀ p ∈ s.bus.offered, s.subs.published[p.n]? = some p.msg
  returned : ∀ n, s.due n ⊆ s.subs.returned
  handed : ∀ ag p, inside s.bus ag = some p →
    ∃ d, s.subs.dispatches ag = some d ∧ Carries s p d.frame.msg d.due
  reported : List.Forall₂ (fun p r ↦ Carries s p r.msg r.due) (finished s.bus.events) s.subs.reports

theorem Linked.initial : Linked ({} : Whole Pid τ η ν) where
  parcels p hp := by cases hp
  returned _ := List.Subset.refl _
  handed ag p hp := by cases ag <;> cases hp
  reported := .nil

theorem Carries.mono {p : Parcel τ ν} {msg : Message τ ν} {due : List (Sub τ η)}
    (h : Carries s p msg due) (hpub : s.subs.published <+: t.subs.published)
    (hdue : ∀ n < s.subs.published.length, t.due n = s.due n) : Carries t p msg due where
  old := Nat.lt_of_lt_of_le h.old hpub.length_le
  msg := h.msg
  due := hdue p.n h.old ▸ h.due

structure Later (s t : Whole Pid τ η ν) : Prop where
  published : s.subs.published <+: t.subs.published
  due : ∀ n < s.subs.published.length, t.due n = s.due n

theorem Later.parcel (hl : Later s t) {p : Parcel τ ν} (h : s.subs.published[p.n]? = some p.msg) :
    t.subs.published[p.n]? = some p.msg := by
  obtain ⟨rest, he⟩ := hl.published
  rw [← he, List.getElem?_append_left (List.getElem?_eq_some_iff.mp h).1]
  exact h

theorem Later.of_eq (hp : t.subs.published = s.subs.published) (hd : t.due = s.due) :
    Later s t :=
  ⟨hp ▸ List.prefix_refl _, fun _ _ ↦ by rw [hd]⟩

theorem Linked.stays (h : Linked s) (hl : Later s t) {ag : Agent Pid} {p : Parcel τ ν}
    (hin : inside t.bus ag = inside s.bus ag) (hp : inside t.bus ag = some p)
    (hgoes : ∀ d, s.subs.dispatches ag = some d → ∃ d', t.subs.dispatches ag = some d' ∧
      d'.frame.msg = d.frame.msg ∧ d'.due = d.due) :
    ∃ d, t.subs.dispatches ag = some d ∧ Carries t p d.frame.msg d.due := by
  rw [hin] at hp
  obtain ⟨d, hd, hc⟩ := h.handed ag p hp
  obtain ⟨d', hd', hmsg, hdue⟩ := hgoes d hd
  refine ⟨d', hd', ?_⟩
  rw [hmsg, hdue]
  exact hc.mono hl.published hl.due

theorem Linked.reports (h : Linked s) (hl : Later s t) :
    List.Forall₂ (fun p r ↦ Carries t p r.msg r.due) (finished s.bus.events) s.subs.reports :=
  h.reported.imp fun _ _ hc ↦ hc.mono hl.published hl.due

theorem Linked.apart (h : Linked s) {bus : Bus (Fifo (Parcel τ ν)) Pid (Parcel τ ν)}
    (hq : Quiet s.bus bus) : Linked { s with bus } := by
  have hl : Later s { s with bus } := .of_eq rfl rfl
  refine ⟨fun p hp ↦ ?_, h.returned, fun ag p hp ↦ ?_, ?_⟩
  · rw [hq.offered] at hp
    exact h.parcels p hp
  · exact h.stays hl (hq.inside ag) hp fun d hd ↦ ⟨d, hd, rfl, rfl⟩
  · rw [hq.events]
    exact h.reports hl

theorem Linked.alone (h : Linked s) {subs : Subscribing (Agent Pid) τ η ν}
    (hg : Goes s.subs subs) : Linked { s with subs } := by
  have hl : Later s { s with subs } := .of_eq hg.published rfl
  refine ⟨fun p hp ↦ hl.parcel (h.parcels p hp), fun n x hx ↦ hg.returned (h.returned n hx),
    fun ag p hp ↦ ?_, ?_⟩
  · exact h.stays hl rfl hp (hg.dispatches ag)
  · rw [hg.reports]
    exact h.reports hl

variable [DecidableEq Pid] [DecidableEq τ] [DecidableEq ν] {cfg : Config (Parcel τ ν)}
  {cap capacity : ℕ} {subs : Subscribing (Agent Pid) τ η ν}
  {bus : Bus (Fifo (Parcel τ ν)) Pid (Parcel τ ν)} {ag : Agent Pid} {parcel : Parcel τ ν}

theorem Linked.publish (h : Linked s) {T : τ} {topic : Str} {data : ν} {p : Pid}
    (hsubs : SubscriptionThreads.step s.subs (.publish T topic data) = some subs)
    (hbus : AtomicBus.step (routed cfg) cap s.bus (.thread (.publish p
      ⟨s.subs.published.length, (makeMessage s.subs.bus T topic data).1⟩)) = some bus) :
    Linked { bus, subs, due := update s.due s.subs.published.length s.subs.returned } := by
  obtain ⟨-, -, hpipe, -, -, -, hledger⟩ := publish_cases hbus
  have hpub : subs.published = s.subs.published ++ [(makeMessage s.subs.bus T topic data).1] :=
    (congrArg Subscribing.published (Option.some.inj hsubs)).symm
  have hoffered : bus.offered = s.bus.offered ++ _ := congrArg Ledger.offered hledger
  have hevents : bus.events = s.bus.events := congrArg Pipeline.events hpipe
  have hinside : ∀ ag, inside bus ag = inside s.bus ag := by
    refine inside_of_pc ?_ fun i ↦ ?_
    · rw [show bus.loop = s.bus.loop from congrArg Pipeline.loop hpipe]
    · rw [show bus.workers = s.bus.workers from congrArg Pipeline.workers hpipe]
  have hl : Later s
      { bus, subs, due := update s.due s.subs.published.length s.subs.returned } := by
    refine ⟨?_, fun n hn ↦ update_of_ne (Nat.ne_of_lt hn) _ _⟩
    rw [hpub]
    exact List.prefix_append _ _
  have hreturned : ∀ n, update s.due s.subs.published.length s.subs.returned n ⊆
      s.subs.returned := by
    intro n
    by_cases hn : n = s.subs.published.length
    · rw [hn, update_self]
      exact List.Subset.refl _
    · rw [update_of_ne hn]
      exact h.returned n
  obtain rfl := Option.some.inj hsubs
  refine ⟨fun q hq ↦ ?_, hreturned, fun ag q hq ↦ ?_, ?_⟩
  · rw [hoffered] at hq
    rcases List.mem_append.mp hq with hq | hq
    · exact hl.parcel (h.parcels q hq)
    · rw [List.mem_singleton.mp hq]
      exact List.getElem?_concat_length
  · exact h.stays hl (hinside ag) hq fun d hd ↦ ⟨d, hd, rfl, rfl⟩
  · rw [hevents]
    exact h.reports hl

theorem Linked.begin (h : Linked s)
    (hr : (AtomicBus.machine Pid (routed cfg) capacity).Reachable s.bus)
    (hahead : ahead s.bus ag = some parcel)
    (hsubs : SubscriptionThreads.step s.subs (.dispatch ag parcel.n) = some subs)
    (hbus : AtomicBus.step (routed cfg) cap s.bus (.thread (own ag)) = some bus) :
    Linked { s with bus, subs } := by
  obtain ⟨hturns, hinside, hfinished⟩ := begin_turns hahead hbus
  have hmsg := h.parcels parcel (put_offered hr (taken_put hr (hand_taken hr (.inl hahead))))
  simp only [SubscriptionThreads.step, hmsg] at hsubs
  split at hsubs
  · obtain rfl := Option.some.inj hsubs
    have hl : Later s { s with bus, subs := s.subs.setDispatch ag (some
        { frame := { msg := parcel.msg }, due := s.subs.returned }) } := .of_eq rfl rfl
    refine ⟨fun p hp ↦ ?_, h.returned, fun u p hp ↦ ?_, ?_⟩
    · rw [hturns.offered] at hp
      exact h.parcels p hp
    · by_cases hu : u = ag
      · rw [hu] at hp ⊢
        obtain rfl : parcel = p := Option.some.inj (hinside.symm.trans hp)
        refine ⟨_, update_self .., (List.getElem?_eq_some_iff.mp hmsg).1, rfl, h.returned _⟩
      · refine h.stays hl (hturns.others u hu) hp fun d hd ↦ ⟨d, ?_, rfl, rfl⟩
        exact (update_of_ne hu _ _).trans hd
    · rw [hfinished]
      exact h.reports hl
  · cases hsubs

theorem Linked.finish (h : Linked s) (hin : inside s.bus ag = some parcel)
    (hsubs : SubscriptionThreads.step s.subs (.finish ag) = some subs)
    (hbus : AtomicBus.step (routed cfg) cap s.bus (.thread (own ag)) = some bus) :
    Linked { s with bus, subs } := by
  obtain ⟨hturns, hinside, hfinished⟩ := finish_turns hin hbus
  obtain ⟨d, hd, hcarries⟩ := h.handed ag parcel hin
  obtain ⟨d', hd', hsubs⟩ := dispatchStep_some hsubs
  obtain rfl : d = d' := Option.some.inj (hd.symm.trans hd')
  split at hsubs
  · obtain rfl := Option.some.inj hsubs
    have hl : Later s { s with bus, subs := { s.subs.setDispatch ag none with
        reports := s.subs.reports ++ [⟨d.frame.msg, d.due, s.subs.asked, d.invoked⟩] } } :=
      .of_eq rfl rfl
    refine ⟨fun p hp ↦ ?_, h.returned, fun u p hp ↦ ?_, ?_⟩
    · rw [hturns.offered] at hp
      exact h.parcels p hp
    · by_cases hu : u = ag
      · rw [hu, hinside] at hp
        cases hp
      · refine h.stays hl (hturns.others u hu) hp fun e he ↦ ⟨e, ?_, rfl, rfl⟩
        exact (update_of_ne hu _ _).trans he
    · rw [hfinished]
      exact List.rel_append (h.reports hl) (.cons (hcarries.mono hl.published hl.due) .nil)
  · cases hsubs

/-- Along a run the two sides do not lose each other. -/
theorem linked (hs : (machine Pid η cfg capacity).Reaches Calm s)
    (hsmall : SubscriptionThreads.Small s.subs) : Linked s := by
  revert hsmall
  refine Machine.Reaches.invariant
    (P := fun s ↦ SubscriptionThreads.Small s.subs → Linked s) ?_ ?_ hs
  · intro s hs _
    rw [show s = {} from hs]
    exact .initial
  · intro s a t hr h hcalm hst hsmall
    have hbus := bus_reachable hr
    have hmoves := step_moves hst
    have hbefore : SubscriptionThreads.Small s.subs := by
      rcases hmoves.subs_step hcalm with he | ⟨b, -, hb⟩
      · rw [← he]
        exact hsmall
      · exact hsmall.of_step hb
    have h := h hbefore
    cases hmoves with
    | publish hsubs hstep => exact h.publish hsubs hstep
    | bus ha hstep => exact h.apart (apart_quiet (unstarted hbus) ha hstep)
    | subs ha hsubs =>
      have htracks := (served_reaches (subs_reaches hr) hbefore).tracks
      exact h.alone (alone_goes ha htracks hsmall hsubs)
    | begin hahead hsubs hstep => exact h.begin hbus hahead hsubs hstep
    | finish hin hsubs hstep => exact h.finish hin hsubs hstep

end Links

section Topics

variable {Pid τ η ν : Type} {s : Whole Pid τ η ν}

theorem Linked.known (h : Linked s) (htracks : Tracks s.subs) {p : Parcel τ ν}
    (hp : p ∈ s.bus.offered) :
    TopicRegistry.find p.msg.topic_sv_ s.subs.bus.registry_ = some p.msg.topic_id_ :=
  htracks.published p.msg (List.mem_of_getElem? (h.parcels p hp))

theorem Linked.topic_iff (h : Linked s) (htracks : Tracks s.subs) {p q : Parcel τ ν}
    (hp : p ∈ s.bus.offered) (hq : q ∈ s.bus.offered) :
    p.msg.topic_sv_ = q.msg.topic_sv_ ↔ p.msg.topic_id_ = q.msg.topic_id_ := by
  have hfind := h.known htracks hp
  have hfind' := h.known htracks hq
  refine ⟨fun he ↦ ?_, fun he ↦ ?_⟩
  · rw [he, hfind'] at hfind
    exact (Option.some.inj hfind).symm
  · rw [← he] at hfind'
    exact htracks.stored.registry.find_inj hfind hfind'

/-- A published message and the report of the dispatch that it came to: all who
had subscribed to it before it was published and did not take that back have got
it. -/
structure Handled (s : Whole Pid τ η ν) (p : Parcel τ ν) (r : Report τ η ν) : Prop where
  msg : r.msg = p.msg
  due : ∀ x ∈ s.due p.n, x.id ∉ r.asked → x.type = p.msg.type →
    Sub.asksFor x p.msg.topic_sv_ = true → ⟨x.id, x.handler, p.msg.data_⟩ ∈ r.invoked

theorem Carries.handled (hserved : Served s.subs) {p : Parcel τ ν} {r : Report τ η ν}
    (hr : r ∈ s.subs.reports) (hc : Carries s p r.msg r.due) : Handled s p r := by
  refine ⟨hc.msg, fun x hx hnot htype hasks ↦ ?_⟩
  rw [← hc.msg] at htype hasks ⊢
  exact hserved.reports r hr x (hc.due hx) ⟨htype, hasks⟩ hnot

variable [DecidableEq Pid] [DecidableEq τ] [DecidableEq ν] {cfg : Config (Parcel τ ν)}
  {capacity : ℕ}

theorem finished_taken (h : (AtomicBus.machine Pid (routed cfg) capacity).Reachable s.bus)
    {p : Parcel τ ν} (hp : p ∈ finished s.bus.events) : p ∈ s.bus.taken := by
  obtain ⟨e, he, hfinish⟩ := List.mem_filterMap.mp hp
  cases e with
  | begin w m => cases hfinish
  | finish w m =>
    obtain rfl := Option.some.inj hfinish
    have hdone : m ∈ doneBy w s.bus.events :=
      List.mem_filterMap.mpr ⟨.finish m, mem_trace_finish.mpr he, rfl⟩
    exact (mem_lane.mp ((done_front h w).subset hdone)).1

theorem Linked.topic_handled (h : Linked s) (htracks : Tracks s.subs)
    (hr : (AtomicBus.machine Pid (routed cfg) capacity).Reachable s.bus) (topic : Str) :
    (finished s.bus.events).filter (fun p ↦ p.msg.topic_sv_ = topic) <+:
        s.bus.taken.filter (fun p ↦ p.msg.topic_sv_ = topic) ∧
      (s.bus.stopper = .returned →
        (finished s.bus.events).filter (fun p ↦ p.msg.topic_sv_ = topic) =
          s.bus.taken.filter fun p ↦ p.msg.topic_sv_ = topic) := by
  have hoffered : ∀ {p}, p ∈ s.bus.taken → p ∈ s.bus.offered :=
    fun hp ↦ put_offered hr (taken_put hr hp)
  by_cases hex : ∃ q ∈ s.bus.taken, q.msg.topic_sv_ = topic
  · obtain ⟨q, hq, rfl⟩ := hex
    have hiff : ∀ p ∈ s.bus.taken, decide (p.msg.topic_sv_ = q.msg.topic_sv_) =
        decide ((routed cfg).topic_id p = q.msg.topic_id_) :=
      fun p hp ↦ decide_eq_decide.mpr (h.topic_iff htracks (hoffered hp) (hoffered hq))
    rw [List.filter_congr hiff, List.filter_congr fun p hp ↦ hiff p (finished_taken hr hp)]
    exact WholeBus.topic_handled hr q.msg.topic_id_
  · have hnone : ∀ l : List (Parcel τ ν), l ⊆ s.bus.taken →
        l.filter (fun p ↦ p.msg.topic_sv_ = topic) = [] := by
      intro l hl
      refine List.filter_eq_nil_iff.mpr fun p hp he ↦ ?_
      exact hex ⟨p, hl hp, of_decide_eq_true he⟩
    rw [hnone _ fun p hp ↦ finished_taken hr hp, hnone _ (List.Subset.refl _)]
    exact ⟨List.prefix_refl _, fun _ ↦ rfl⟩

/-- From `publish` to the handlers: the messages of a topic are handled in the
order in which the router took them, each once and each with all the handlers
that it is for; when `stop` has returned none is left. -/
theorem messages_handled (hs : (machine Pid η cfg capacity).Reaches Calm s)
    (hsmall : SubscriptionThreads.Small s.subs) :
    (∀ topic, ∃ handled, handled <+: s.bus.taken.filter (fun p ↦ p.msg.topic_sv_ = topic) ∧
        List.Forall₂ (Handled s) handled
          (s.subs.reports.filter fun r ↦ r.msg.topic_sv_ = topic) ∧
        (s.bus.stopper = .returned →
          handled = s.bus.taken.filter fun p ↦ p.msg.topic_sv_ = topic)) ∧
      (s.bus.taken.map Parcel.n).Nodup ∧
      (∀ p ∈ s.bus.taken, s.subs.published[p.n]? = some p.msg) ∧
      (s.bus.stopper = .returned → cfg.policy_ ≠ .DropOldest → s.bus.accepted ⊆ s.bus.taken) := by
  have hr := bus_reachable hs
  have hserved := served_reaches (subs_reaches hs) hsmall
  have h := linked hs hsmall
  have hclosing : Closing (routed cfg) (pipeline (weaken s.bus)) :=
    closing_reachable (weaken_reachable hr)
  have hparcels : ∀ p ∈ s.bus.taken, s.subs.published[p.n]? = some p.msg :=
    fun p hp ↦ h.parcels p (put_offered hr (taken_put hr hp))
  refine ⟨fun topic ↦ ?_, ?_, hparcels, fun hstop hpolicy m hm ↦ ?_⟩
  · obtain ⟨hfront, hall⟩ := h.topic_handled hserved.tracks hr topic
    refine ⟨_, hfront, ?_, hall⟩
    have hreported : List.Forall₂ (Handled s) (finished s.bus.events) s.subs.reports := by
      have hreports : ∀ r ∈ s.subs.reports, r ∈ s.subs.reports := fun _ hr ↦ hr
      have hflip := (List.forall₂_and_left _ _).mpr ⟨hreports, h.reported.flip⟩
      exact hflip.flip.imp fun p r hc ↦ hc.2.handled hserved hc.1
    refine List.rel_filter (fun p r hh ↦ ?_) hreported
    simp only [decide_eq_true_eq, hh.msg]
  · have hnodup : s.bus.taken.Nodup := by
      refine (Ordering.put_nodup hr).sublist ?_
      exact ((List.sublist_append_left _ _).trans hclosing.lanes.fetched.ordered).trans
        (List.take_sublist _ _)
    refine hnodup.map_on fun p hp q hq he ↦ ?_
    have hmsg := hparcels p hp
    rw [he, hparcels q hq] at hmsg
    cases p
    cases q
    cases he
    cases hmsg
    rfl
  · exact hclosing.collected.taken hpolicy (.inl (hclosing.finished hstop)) hm

end Topics

def twoWorkersConfig : Config (Parcel Unit ℕ) where
  policy_ := .ReturnFalse
  num_dispatchers_ := 2
  num_dispatchers_pos := Nat.two_pos
  topic_id _ := 0
  hash := id
  has_on_drop _ := false

def oneMessage : List (WholeAction Bool Unit ℕ ℕ) :=
  let subscribe : List (SubAction (Agent Bool) Unit ℕ ℕ) :=
    .subscribe (.publisher false) () ['a'] 10 ::
      List.replicate 6 (.subscribeStep (.publisher false))
  let route : List (BusAction Bool (Parcel Unit ℕ)) :=
    [.queue (.publisher true), .thread (.publisher true), .thread (.publisher true),
      .thread .start, .thread (.loop none), .queue .loop, .thread (.loop none), .queue .loop,
      .thread (.loop none), .thread (.worker 1), .queue (.worker 1)]
  let call : List (SubAction (Agent Bool) Unit ℕ ℕ) :=
    [.load (.worker 1), .load (.worker 1), .call (.worker 1), .return_ (.worker 1),
      .load (.worker 1)]
  let leave (i : ℕ) : List (BusAction Bool (Parcel Unit ℕ)) :=
    [.thread (.worker i), .thread (.worker i), .queue (.worker i)]
  let stop : List (BusAction Bool (Parcel Unit ℕ)) :=
    [.thread .stop, .thread .stop, .thread (.loop none), .queue .loop, .thread .stop,
      .thread .stop] ++ leave 0 ++ leave 1 ++ List.replicate 4 (.thread .stop)
  subscribe.map .subs ++ .publish true () ['a'] 7 :: route.map .bus ++
    .begin (.worker 1) :: call.map .subs ++ .finish (.worker 1) :: stop.map .bus

def keeps : WholeAction Bool Unit ℕ ℕ → Bool
  | .subs (.unsubscribe ..) | .subs (.unsubscribeStep _) => false
  | _ => true

theorem calm_of_keeps (s : Whole Bool Unit ℕ ℕ) (a : WholeAction Bool Unit ℕ ℕ)
    (h : keeps a = true) : Calm s a := by
  cases a with
  | subs a =>
    cases a with
    | unsubscribe | unsubscribeStep => cases h
    | _ => trivial
  | _ => trivial

theorem oneMessage_run :
    ((machine Bool ℕ twoWorkersConfig 2).runIf (fun _ a ↦ keeps a = true) {} oneMessage).map
        (fun s ↦ (s.bus.stopper, s.subs.reports.map Report.invoked, s.subs.calls,
          s.subs.topics.length)) =
      some (.returned, [[⟨1, 10, 7⟩]], 1, 2) := by
  decide +kernel

theorem messages_handled_stopped : ∃ s : Whole Bool Unit ℕ ℕ,
    (machine Bool ℕ twoWorkersConfig 2).Reaches Calm s ∧ s.bus.stopper = .returned ∧
      s.subs.reports.map Report.invoked = [[⟨1, 10, 7⟩]] ∧
      List.Forall₂ (Handled s) (s.bus.taken.filter fun p ↦ p.msg.topic_sv_ = ['a'])
        (s.subs.reports.filter fun r ↦ r.msg.topic_sv_ = ['a']) := by
  obtain ⟨s, hrun, he⟩ := Option.map_eq_some_iff.mp oneMessage_run
  simp only [Prod.mk.injEq] at he
  obtain ⟨hstop, hinvoked, hcalls, htopics⟩ := he
  have hs : (machine Bool ℕ twoWorkersConfig 2).Reaches Calm s :=
    (Machine.Reaches.of_runIf (.start rfl) oneMessage hrun).mono calm_of_keeps
  have hsmall : SubscriptionThreads.Small s.subs := by
    refine ⟨by rw [hcalls]; decide, Nat.lt_of_le_of_lt (List.toFinset_card_le _) ?_⟩
    rw [htopics]
    decide
  obtain ⟨handled, -, hall, hlast⟩ := (messages_handled hs hsmall).1 ['a']
  rw [hlast hstop] at hall
  exact ⟨s, hs, hstop, hinvoked, hall⟩

end LivioArk.Msgbus.WholeBus
