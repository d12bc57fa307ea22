import LivioArk.Msgbus.Delivery
import LivioArk.Msgbus.SubscriptionSteps

namespace LivioArk.Msgbus.SubscriptionThreads

open Function LivioArk.Library.Transition LivioArk.Library.PrefixTree
open Levels TopicMatcher TopicRegistry WildcardTrie Subscriptions SubStore Dispatching
open Delivery (Sub.asksFor visits_pos_iff)

variable {Tid τ η ν : Type}

/-- Fewer calls than ids and fewer topics than topic ids. -/
structure Small (s : Subscribing Tid τ η ν) : Prop where
  calls : s.calls < 2 ^ 64
  topics : s.topics.toFinset.card < 2 ^ 32 - 1

/-- An id whose record is gone is not on its way out of the bus. -/
def Settles (s : Subscribing Tid τ η ν) : UnsubscribePc → Prop
  | .take id => s.bus.sub_to_topic_ id = none → ∀ u, (s.unsubs u).removing ≠ some id
  | _ => True

/-- No `unsubscribe` misses an id that another one has taken and is still
removing. -/
def Undisputed (s : Subscribing Tid τ η ν) : SubAction Tid τ η ν → Prop
  | .unsubscribeStep t => Settles s (s.unsubs t)
  | _ => True

section Behind

variable {s s' : Subscribing Tid τ η ν} {t : Tid}

structure Behind (s s' : Subscribing Tid τ η ν) : Prop where
  dispatches : s'.dispatches = s.dispatches
  invocations : s'.invocations = s.invocations
  reports : s'.reports = s.reports
  ext : Extends s.bus s'.bus
  keeps : Keeps (fun id ↦ id ∉ s.asked) s.bus s'.bus
  returned : s.returned ⊆ s'.returned
  asked : s.asked ⊆ s'.asked

variable [DecidableEq Tid]

theorem Changes.behind (hc : Changes t s s') : Behind s s' := by
  have hsame : Extends s.bus s.bus := .of_eq rfl rfl rfl rfl
  cases hc with
  | settle _ hext hkeeps => exact ⟨rfl, rfl, rfl, hext, hkeeps, fun _ h ↦ h, fun _ h ↦ h⟩
  | throw => exact ⟨rfl, rfl, rfl, hsame, .of_eq rfl, fun _ h ↦ h, fun _ h ↦ h⟩
  | add _ _ hext hkeeps => exact ⟨rfl, rfl, rfl, hext, hkeeps, fun _ h ↦ h, fun _ h ↦ h⟩
  | record =>
    exact ⟨rfl, rfl, rfl, .of_eq rfl rfl rfl rfl, .of_eq rfl, List.subset_append_left _ _,
      fun _ h ↦ h⟩
  | missing => exact ⟨rfl, rfl, rfl, hsame, .of_eq rfl, fun _ h ↦ h, fun _ h ↦ h⟩
  | take =>
    exact ⟨rfl, rfl, rfl, .of_eq rfl rfl rfl rfl, .of_eq rfl, fun _ h ↦ h, fun _ h ↦ h⟩
  | place => exact ⟨rfl, rfl, rfl, hsame, .of_eq rfl, fun _ h ↦ h, fun _ h ↦ h⟩
  | removed _ hasked _ hext hkeeps =>
    refine ⟨rfl, rfl, rfl, hext, fun slot hs sub hsub hnot ↦ ?_, fun _ h ↦ h, fun _ h ↦ h⟩
    exact hkeeps slot hs sub hsub fun he ↦ hnot (he ▸ hasked)

/-- An id that `unsubscribe` has returned for is not in use. -/
def GoneFits (s : Subscribing Tid τ η ν) : Prop := ∀ id ∈ s.gone, s.status id = .removed

theorem Changes.gone (hc : Changes t s s') (h : Tracks s) (hg : GoneFits s)
    (hun : ∀ id, s.unsubs t = .take id → s.bus.sub_to_topic_ id = none →
      ∀ u, (s.unsubs u).removing ≠ some id) : GoneFits s' := by
  have hother : ∀ {id' : ℕ} {q : Status Tid}, s.status id' ≠ .removed → ∀ id ∈ s.gone,
      update s.status id' q id = .removed := by
    intro id' q hne id hid
    have hne : id ≠ id' := fun he ↦ hne (he ▸ hg id hid)
    rw [update_of_ne hne]
    exact hg id hid
  cases hc with
  | settle => exact hg
  | throw _ hpending => exact hother (by rw [hpending]; exact fun h ↦ by cases h)
  | add _ hpending => exact hother (by rw [hpending]; exact fun h ↦ by cases h)
  | record hpc =>
    have hfits := h.subs t
    rw [hpc] at hfits
    exact hother (by rw [hfits.1]; exact fun h ↦ by cases h)
  | @missing id hpc hnone =>
    intro id' hid
    rcases List.mem_append.mp hid with hid | hid
    · exact hg id' hid
    · obtain rfl := List.mem_singleton.mp hid
      have hasked := h.unsubs t
      rw [hpc] at hasked
      obtain ⟨x, hx, rfl⟩ := h.asked id' hasked
      have hsettled := (h.returned x hx).settled
      change s.status x.id = .removed
      cases hst : s.status x.id with
      | unused | pending | added =>
        rw [hst] at hsettled
        exact hsettled.elim
      | removed => rfl
      | taken u => exact absurd (h.takers x.id u hst) (hun x.id hpc hnone u)
      | recorded =>
        obtain ⟨y, hy, he⟩ := (h.present x.id).mp (by rw [hst]; trivial)
        obtain ⟨info, hinfo, _⟩ := h.recorded y hy (he ▸ hst)
        rw [he, hnone] at hinfo
        cases hinfo
  | @take id info hpc hinfo =>
    refine hother fun hst ↦ ?_
    rw [h.unrecorded id (by rw [hst]; exact fun h ↦ by cases h)] at hinfo
    cases hinfo
  | place => exact hg
  | removed _ _ hst =>
    intro id' hid
    rcases List.mem_append.mp hid with hid | hid
    · exact hother (by rw [hst]; exact fun h ↦ by cases h) id' hid
    · rw [List.mem_singleton.mp hid]
      exact update_self ..

end Behind

section Dispatches

variable {s s' : Subscribing Tid τ η ν} {t : Tid} {T : τ} {topic : Str} {handler : η}

theorem dispatchStep_some {f : Dispatch τ η ν → Option (Subscribing Tid τ η ν)}
    (hs : s.dispatchStep t f = some s') : ∃ d, s.dispatches t = some d ∧ f d = some s' := by
  rw [Subscribing.dispatchStep] at hs
  cases hd : s.dispatches t with
  | none => simp [hd] at hs
  | some d =>
    simp only [hd] at hs
    split at hs
    · cases hs
    · exact ⟨d, rfl, hs⟩

theorem Tracks.publish (h : Tracks s) {data : ν}
    (hB : (s.topics ++ [topic]).toFinset.card < idLimit) :
    Tracks { s with
      bus := (makeMessage s.bus T topic data).2
      topics := s.topics ++ [topic]
      published := s.published ++ [(makeMessage s.bus T topic data).1] } := by
  have hbij : Bijective (resolveSlow topic s.bus.registry_).2 :=
    h.stored.registry.resolveSlow (fun name hn ↦ List.mem_append_left _ (h.topics name hn))
      (by simp) hB
  have hself := find_resolveSlow_self topic s.bus.registry_
  simp only [makeMessage, resolve_eq]
  refine h.around (extends_resolve topic s.bus) (h.stored.resolveSlow hbij) rfl rfl
    (fun name hn ↦ ?_) (List.subset_append_left _ _) fun msg hmsg ↦ ?_
  · rcases topics_resolveSlow hn with rfl | hn
    · simp
    · exact List.mem_append_left _ (h.topics name hn)
  · refine (List.mem_append.mp hmsg).imp_right fun hmsg ↦ ?_
    rw [List.mem_singleton.mp hmsg]
    simp only [hbij.to_string_eq hself]
    exact hself

variable [DecidableEq Tid]

theorem unsubscribeStep_calls (hs : s.unsubscribeStep t = some s') :
    s'.calls = s.calls ∧ s'.topics = s.topics := by
  rw [Subscribing.unsubscribeStep] at hs
  repeat' split at hs
  all_goals cases hs <;> exact ⟨rfl, rfl⟩

theorem subscribe_calls (s : Subscribing Tid τ η ν) (t : Tid) (T : τ) (topic : Str) (handler : η) :
    (s.subscribe t T topic handler).calls = s.calls + 1 ∧
      s.topics ⊆ (s.subscribe t T topic handler).topics := by
  simp only [Subscribing.subscribe]
  split
  · split <;> exact ⟨rfl, fun _ h ↦ h⟩
  · exact ⟨rfl, List.subset_append_left _ _⟩

theorem subscribe_behind (s : Subscribing Tid τ η ν) (t : Tid) (T : τ) (topic : Str)
    (handler : η) : Behind s (s.subscribe t T topic handler) := by
  have hext : Extends s.bus (fetchId s.bus).2 := .of_eq rfl rfl rfl rfl
  simp only [Subscribing.subscribe]
  split
  · split <;> exact ⟨rfl, rfl, rfl, hext, .of_eq rfl, fun _ h ↦ h, fun _ h ↦ h⟩
  · exact ⟨rfl, rfl, rfl, hext, .of_eq rfl, fun _ h ↦ h, fun _ h ↦ h⟩

theorem subscribe_gone (h : Tracks s) (hB : s.calls + 1 < subscriptionIdLimit) (hg : GoneFits s) :
    GoneFits (s.subscribe t T topic handler) := by
  have hid : (s.bus.next_id_ + 1) % subscriptionIdLimit = s.calls + 1 := by
    rw [h.next, Nat.mod_eq_of_lt hB]
  have hother : ∀ q : Status Tid, ∀ id ∈ s.gone,
      update s.status (s.calls + 1) q id = .removed := by
    intro q id hgone
    have hne : id ≠ s.calls + 1 := by
      intro he
      have hremoved := hg id hgone
      rw [he, h.unused _ (Nat.lt_succ_self _)] at hremoved
      cases hremoved
    rw [update_of_ne hne]
    exact hg id hgone
  simp only [Subscribing.subscribe, fetchId, hid]
  split
  · split <;> exact hother _
  · exact hother _

variable [DecidableEq τ]

inductive Dispatches (s : Subscribing Tid τ η ν) : Subscribing Tid τ η ν → Prop
  | start {t : Tid} {msg : Message τ ν} : msg ∈ s.published →
      Dispatches s (s.setDispatch t (some { frame := { msg }, due := s.returned }))
  | load {t : Tid} {d : Dispatch τ η ν} {frame : Frame τ η ν} : s.dispatches t = some d →
      d.frame.load s.bus = some frame →
      Dispatches s (s.setDispatch t (some { d with frame, gone := s.gone }))
  | call {t : Tid} {d : Dispatch τ η ν} {sub : Subscriber η} {subs : List (Subscriber η)} :
      s.dispatches t = some d → d.frame.subs = sub :: subs → Dispatches s (s.call t d sub subs)
  | return_ {t : Tid} {d : Dispatch τ η ν} : s.dispatches t = some d →
      Dispatches s (s.setDispatch t (some { d with handling := false }))
  | finish {t : Tid} {d : Dispatch τ η ν} : s.dispatches t = some d → d.frame.finished = true →
      Dispatches s { s.setDispatch t none with
        reports := s.reports ++ [⟨d.frame.msg, d.due, s.asked, d.invoked⟩] }

theorem subscribeStep_calls (hs : s.subscribeStep t = some s') :
    s.subs t ≠ .idle ∧ s'.calls = s.calls ∧ s'.topics = s.topics := by
  rw [Subscribing.subscribeStep] at hs
  refine ⟨fun hidle ↦ ?_, ?_⟩
  · rw [hidle] at hs
    cases hs
  · repeat' split at hs
    all_goals cases hs <;> exact ⟨rfl, rfl⟩

theorem step_calls {a : SubAction Tid τ η ν} (hs : step s a = some s') :
    s.calls ≤ s'.calls ∧ s.topics ⊆ s'.topics := by
  have hsame : ∀ {s' : Subscribing Tid τ η ν}, s'.calls = s.calls ∧ s'.topics = s.topics →
      s.calls ≤ s'.calls ∧ s.topics ⊆ s'.topics :=
    fun h ↦ ⟨Nat.le_of_eq h.1.symm, h.2 ▸ fun _ h ↦ h⟩
  cases a with
  | subscribe t T topic handler =>
    simp only [step] at hs
    split at hs <;> cases hs
    obtain ⟨hcalls, htopics⟩ := subscribe_calls s t T topic handler
    exact ⟨hcalls ▸ Nat.le_succ _, htopics⟩
  | subscribeStep t => exact hsame (subscribeStep_calls hs).2
  | unsubscribe t id =>
    simp only [step] at hs
    split at hs <;> cases hs
    exact hsame ⟨rfl, rfl⟩
  | unsubscribeStep t => exact hsame (unsubscribeStep_calls hs)
  | publish T topic data =>
    cases hs
    exact ⟨Nat.le_refl _, List.subset_append_left _ _⟩
  | rehash way =>
    cases hs
    exact hsame ⟨rfl, rfl⟩
  | dispatch t n =>
    simp only [step] at hs
    repeat' split at hs
    all_goals cases hs <;> exact hsame ⟨rfl, rfl⟩
  | load t =>
    obtain ⟨d, _, hs⟩ := dispatchStep_some hs
    obtain ⟨frame, _, rfl⟩ := Option.map_eq_some_iff.mp hs
    exact hsame ⟨rfl, rfl⟩
  | call t =>
    obtain ⟨d, _, hs⟩ := dispatchStep_some hs
    split at hs <;> cases hs
    exact hsame ⟨rfl, rfl⟩
  | return_ t =>
    simp only [step] at hs
    repeat' split at hs
    all_goals cases hs <;> exact hsame ⟨rfl, rfl⟩
  | finish t =>
    obtain ⟨d, _, hs⟩ := dispatchStep_some hs
    split at hs <;> cases hs
    exact hsame ⟨rfl, rfl⟩

theorem Small.of_step {a : SubAction Tid τ η ν} (h : Small s') (hs : step s a = some s') :
    Small s := by
  obtain ⟨hcalls, htopics⟩ := step_calls hs
  refine ⟨Nat.lt_of_le_of_lt hcalls h.calls, Nat.lt_of_le_of_lt ?_ h.topics⟩
  exact Finset.card_le_card fun name hn ↦ by
    simp only [List.mem_toFinset] at hn ⊢
    exact htopics hn

/-- A step is one of the threads and the bus, or one of a dispatch. -/
theorem step_cases {a : SubAction Tid τ η ν} (h : Tracks s) (hg : GoneFits s) (hsmall : Small s')
    (hun : Undisputed s a) (hs : step s a = some s') :
    (Tracks s' ∧ Behind s s' ∧ GoneFits s') ∨ Dispatches s s' := by
  have htopics : s.topics.toFinset.card < idLimit :=
    Nat.lt_of_lt_of_le (hsmall.of_step hs).topics (by decide)
  have hsame : Extends s.bus s.bus := .of_eq rfl rfl rfl rfl
  cases a with
  | subscribe t T topic handler =>
    simp only [step] at hs
    split at hs
    · rename_i hmay
      cases hs
      have hB : s.calls + 1 < subscriptionIdLimit := by
        rw [← (subscribe_calls s t T topic handler).1]
        exact hsmall.calls
      exact .inl ⟨h.subscribe hmay hB, subscribe_behind s t T topic handler,
        subscribe_gone h hB hg⟩
    · cases hs
  | subscribeStep t =>
    have hc := subscribeStep_changes h htopics hs
    refine .inl ⟨hc.tracks h, hc.behind, hc.gone h hg fun id hpc ↦ ?_⟩
    rw [(h.single t).resolve_left (subscribeStep_calls hs).1] at hpc
    cases hpc
  | unsubscribe t id =>
    simp only [step] at hs
    split at hs
    · rename_i hmay
      rw [Bool.and_eq_true] at hmay
      obtain ⟨hmay, hid⟩ := hmay
      obtain ⟨hsub, hunsub⟩ := idle_of_mayCall hmay
      cases hs
      refine .inl ⟨h.look (.take id) hsub (fun id' hid' ↦ ?_) (List.subset_append_left _ _) ?_
        fun id hr ↦ ?_, ⟨rfl, rfl, rfl, hsame, .of_eq rfl, fun _ h ↦ h,
        List.subset_append_left _ _⟩, hg⟩
      · refine (List.mem_append.mp hid').imp_right fun hid' ↦ ?_
        rw [List.mem_singleton.mp hid']
        obtain ⟨x, hx, he⟩ := List.any_eq_true.mp hid
        exact ⟨x, hx, by simpa using he⟩
      · exact List.mem_append_right _ (List.mem_singleton_self _)
      · rw [hunsub] at hr
        cases hr
    · cases hs
  | unsubscribeStep t =>
    have hc := unsubscribeStep_changes h hs
    refine .inl ⟨hc.tracks h, hc.behind, hc.gone h hg fun id hpc hnone ↦ ?_⟩
    rw [Undisputed, hpc] at hun
    exact hun hnone
  | publish T topic data =>
    cases hs
    refine .inl ⟨h.publish (Nat.lt_of_lt_of_le hsmall.topics (by decide)), ?_, hg⟩
    have hext : Extends s.bus (makeMessage s.bus T topic data).2 := by
      simp only [makeMessage, resolve_eq]
      exact extends_resolve topic s.bus
    exact ⟨rfl, rfl, rfl, hext, .of_eq rfl, fun _ h ↦ h, fun _ h ↦ h⟩
  | rehash way =>
    cases hs
    refine .inl ⟨?_, ?_, hg⟩
    · exact h.around (.of_eq rfl rfl rfl rfl) (h.stored.rehash way) rfl rfl h.topics (fun _ h ↦ h)
        fun _ h ↦ .inl h
    · exact ⟨rfl, rfl, rfl, .of_eq rfl rfl rfl rfl, .of_eq rfl, fun _ h ↦ h, fun _ h ↦ h⟩
  | dispatch t n =>
    simp only [step] at hs
    split at hs
    · rename_i msg hmsg
      split at hs
      · cases hs
        exact .inr (.start (List.mem_of_getElem? hmsg))
      · cases hs
    · cases hs
  | load t =>
    obtain ⟨d, hd, hs⟩ := dispatchStep_some hs
    obtain ⟨frame, hframe, rfl⟩ := Option.map_eq_some_iff.mp hs
    exact .inr (.load hd hframe)
  | call t =>
    obtain ⟨d, hd, hs⟩ := dispatchStep_some hs
    split at hs
    · rename_i sub subs hsubs
      cases hs
      exact .inr (.call hd hsubs)
    · cases hs
  | return_ t =>
    simp only [step] at hs
    split at hs
    · rename_i d hd
      split at hs
      · cases hs
        exact .inr (.return_ hd)
      · cases hs
    · cases hs
  | finish t =>
    obtain ⟨d, hd, hs⟩ := dispatchStep_some hs
    split at hs
    · rename_i hfinished
      cases hs
      exact .inr (.finish hd hfinished)
    · cases hs

end Dispatches

section Served

variable {s s' : Subscribing Tid τ η ν} {d : Dispatch τ η ν} {x : Sub τ η}

/-- A dispatch on its way will still come to the subscription. -/
def Owes (b : SubState τ η) (f : Frame τ η ν) (x : Sub τ η) : Prop :=
  f.exact = true ∧ isWildcard x.topic = false ∨
    f.wildcards = true ∧ isWildcard x.topic = true ∨
      (∃ slot ∈ f.slots, slot < b.allocated ∧ x.subscriber ∈ (b.heap slot).subscribers_) ∨
        x.subscriber ∈ f.subs

def Wants (x : Sub τ η) (msg : Message τ ν) : Prop :=
  x.type = msg.type ∧ Sub.asksFor x msg.topic_sv_ = true

structure DispatchFits (s : Subscribing Tid τ η ν) (d : Dispatch τ η ν) : Prop where
  known : find d.frame.msg.topic_sv_ s.bus.registry_ = some d.frame.msg.topic_id_
  due : d.due ⊆ s.returned
  owed : ∀ x ∈ d.due, Wants x d.frame.msg → x.id ∉ s.asked →
    Owes s.bus d.frame x ∨ ⟨x.id, x.handler, d.frame.msg.data_⟩ ∈ d.invoked
  subs : ∀ sub ∈ d.frame.subs, sub.id ∉ d.gone

structure Served (s : Subscribing Tid τ η ν) : Prop where
  tracks : Tracks s
  gone : GoneFits s
  dispatches : ∀ t d, s.dispatches t = some d → DispatchFits s d
  invocations : ∀ p ∈ s.invocations, p.1.id ∉ p.2
  reports : ∀ r ∈ s.reports, ∀ x ∈ r.due, Wants x r.msg → x.id ∉ r.asked →
    ⟨x.id, x.handler, r.msg.data_⟩ ∈ r.invoked

theorem DispatchFits.behind (h : DispatchFits s d) (hb : Behind s s') : DispatchFits s' d where
  known := hb.ext.finds _ _ h.known
  due := fun _ hx ↦ hb.returned (h.due hx)
  owed x hx hwants hnot := by
    have hnot : x.id ∉ s.asked := fun hasked ↦ hnot (hb.asked hasked)
    refine (h.owed x hx hwants hnot).imp_left fun howes ↦ ?_
    refine howes.imp_right fun howes ↦ howes.imp_right fun howes ↦ howes.imp_left ?_
    intro ⟨slot, hslot, hlt, hsub⟩
    exact ⟨slot, hslot, Nat.lt_of_lt_of_le hlt hb.ext.allocated, hb.keeps slot hlt _ hsub hnot⟩
  subs := h.subs

/-- A subscription that nobody has asked to take back is still there. -/
theorem Tracks.kept (h : Tracks s) (hx : x ∈ s.returned) (hnot : x.id ∉ s.asked) : x ∈ s.live := by
  have hfits := h.returned x hx
  have hpresent : (s.status x.id).present := by
    rw [hfits.kept hnot]
    trivial
  obtain ⟨y, hy, he⟩ := (h.present x.id).mp hpresent
  exact hfits.unique y hy he ▸ hy

theorem finished_eq {f : Frame τ η ν} (h : f.finished = true) :
    f.exact = false ∧ f.wildcards = false ∧ f.slots = [] ∧ f.subs = [] := by
  simpa [Frame.finished, and_assoc] using h

theorem DispatchFits.call (h : DispatchFits s d) {sub : Subscriber η} {subs : List (Subscriber η)}
    (hsubs : d.frame.subs = sub :: subs) :
    DispatchFits s { d with
      frame := { d.frame with subs }
      handling := true
      invoked := d.invoked ++ [⟨sub.id, sub.handler, d.frame.msg.data_⟩] } := by
  refine ⟨h.known, h.due, fun x hx hwants hnot ↦ ?_, fun sub' hsub ↦ ?_⟩
  · rcases h.owed x hx hwants hnot with (hexact | hwild | hslot | hsub) | hinvoked
    · exact .inl (.inl hexact)
    · exact .inl (.inr (.inl hwild))
    · exact .inl (.inr (.inr (.inl hslot)))
    · rw [hsubs] at hsub
      rcases List.mem_cons.mp hsub with rfl | hsub
      · exact .inr (List.mem_append_right _ (List.mem_singleton_self _))
      · exact .inl (.inr (.inr (.inr hsub)))
    · exact .inr (List.mem_append_left _ hinvoked)
  · exact h.subs sub' (hsubs ▸ List.mem_cons_of_mem _ hsub)

theorem DispatchFits.finished (h : DispatchFits s d) (hf : d.frame.finished = true)
    (hx : x ∈ d.due) (hwants : Wants x d.frame.msg) (hnot : x.id ∉ s.asked) :
    ⟨x.id, x.handler, d.frame.msg.data_⟩ ∈ d.invoked := by
  obtain ⟨hexact, hwild, hslots, hsubs⟩ := finished_eq hf
  refine (h.owed x hx hwants hnot).resolve_left ?_
  rw [Owes, hexact, hwild, hslots, hsubs]
  simp

def slotOf (b : SubState τ η) (topic : Str) : Option ℕ :=
  (find topic b.registry_).bind b.slots_

theorem Installed.slotOf {b : SubState τ η} {topic : Str} {T : τ} (h : Installed b topic T) :
    ∃ slot, SubscriptionThreads.slotOf b topic = some slot ∧ (b.heap slot).msg_type = some T := by
  obtain ⟨tid, slot, hfind, hslot, hty⟩ := h
  exact ⟨slot, by rw [SubscriptionThreads.slotOf, hfind, Option.bind_some, hslot], hty⟩

theorem Stored.slotOf_mem {b : SubState τ η} {live : List (Sub τ η)} (h : Stored b live)
    (hx : x ∈ live) (hw : isWildcard x.topic = false) :
    ∃ slot, slotOf b x.topic = some slot ∧ x.subscriber ∈ (b.heap slot).subscribers_ := by
  obtain ⟨tid, slot, hfind, hslot⟩ := h.slots.placed x hx hw
  obtain ⟨topic, hname, hholds⟩ := h.slots.holds tid slot hslot
  obtain rfl := h.registry.find_inj hfind hname
  refine ⟨slot, by rw [slotOf, hfind, Option.bind_some, hslot], ?_⟩
  rw [hholds.subscribers]
  exact List.mem_map_of_mem (List.mem_filter.mpr ⟨hx, by simp⟩)

theorem Served.setDispatch [DecidableEq Tid] (h : Served s) {t : Tid} {d : Option (Dispatch τ η ν)}
    (hd : ∀ d' ∈ d, DispatchFits s d') (u : Tid) (d' : Dispatch τ η ν)
    (hu : update s.dispatches t d u = some d') : DispatchFits s d' := by
  by_cases he : u = t
  · rw [he, update_self] at hu
    exact hd d' hu
  · rw [update_of_ne he] at hu
    exact h.dispatches u d' hu

variable [DecidableEq τ]

/-- Whatever is loaded next, a subscription that was owed an invocation still is. -/
theorem Owes.load {b : SubState τ η} {live : List (Sub τ η)} {f f' : Frame τ η ν}
    (h : Owes b f x) (hstored : Stored b live)
    (hmsg : find f.msg.topic_sv_ b.registry_ = some f.msg.topic_id_) (hx : x ∈ live)
    (hwants : Wants x f.msg) (hf : f.load b = some f') : Owes b f' x := by
  obtain ⟨hty, hasks⟩ := hwants
  obtain ⟨msg, exact, wildcards, slots, subs⟩ := f
  cases subs with
  | cons sub subs => cases hf
  | nil =>
    cases slots with
    | cons slot slots =>
      cases hf
      rcases h with hexact | hwild | ⟨slot', hslot, hlt, hsub⟩ | hsub
      · exact .inl hexact
      · exact .inr (.inl hwild)
      · rcases List.mem_cons.mp hslot with rfl | hslot
        · exact .inr (.inr (.inr hsub))
        · exact .inr (.inr (.inl ⟨slot', hslot, hlt, hsub⟩))
      · cases hsub
    | nil =>
      cases exact with
      | true =>
        cases hf
        rcases h with ⟨_, hw⟩ | hwild | ⟨_, hslot, _⟩ | hsub
        · have htopic : x.topic = msg.topic_sv_ := by
            simpa [Sub.asksFor, hw] using hasks
          exact .inr (.inr (.inl (hstored.exactSlot_mem hmsg hx hw htopic hty)))
        · exact .inr (.inl hwild)
        · cases hslot
        · cases hsub
      | false =>
        cases wildcards with
        | true =>
          cases hf
          rcases h with ⟨hexact, _⟩ | ⟨_, hw⟩ | ⟨_, hslot, _⟩ | hsub
          · cases hexact
          · have hvisits : 0 < visits (splitLevels x.topic) (splitLevels msg.topic_sv_) := by
              rw [visits_pos_iff]
              simpa [Sub.asksFor, hw] using hasks
            exact .inr (.inr (.inl (hstored.match_mem hx hw hty hvisits)))
          · cases hslot
          · cases hsub
        | false => cases hf

theorem DispatchFits.load (h : DispatchFits s d) (hs : Served s) {frame : Frame τ η ν}
    (hf : d.frame.load s.bus = some frame) : DispatchFits s { d with frame, gone := s.gone } := by
  have hmsg := load_msg hf
  refine ⟨hmsg ▸ h.known, h.due, fun x hx hwants hnot ↦ ?_, fun sub hsub hgone ↦ ?_⟩
  · simp only [hmsg] at hwants ⊢
    refine (h.owed x hx hwants hnot).imp_left fun howes ↦ ?_
    exact howes.load hs.tracks.stored h.known (hs.tracks.kept (h.due hx) hnot) hwants hf
  · rcases load_subs hf with hnil | ⟨slot, hslot⟩
    · rw [show frame.subs = [] from hnil] at hsub
      cases hsub
    · rw [show frame.subs = _ from hslot] at hsub
      obtain ⟨x, hx, rfl⟩ := hs.tracks.stored.subscribed hsub
      have hpresent := (hs.tracks.present x.id).mpr ⟨x, hx, rfl⟩
      rw [hs.gone x.id hgone] at hpresent
      exact hpresent

variable [DecidableEq Tid]

theorem Dispatches.served (hd : Dispatches s s') (h : Served s) : Served s' := by
  -- what a dispatch does leaves everything that `DispatchFits` looks at as it was
  have hsame : ∀ {dispatches invocations reports} {d : Dispatch τ η ν}, DispatchFits s d →
      DispatchFits { s with dispatches, invocations, reports } d :=
    fun h ↦ ⟨h.known, h.due, h.owed, h.subs⟩
  have hset : ∀ {t : Tid} {d : Dispatch τ η ν}, DispatchFits s d →
      ∀ u d', update s.dispatches t (some d) u = some d' → DispatchFits s d' :=
    fun hd ↦ h.setDispatch fun d' hd' ↦ Option.some.inj hd' ▸ hd
  cases hd with
  | @start t msg hmsg =>
    refine ⟨h.tracks.dispatching _ _ _, h.gone, fun u d' hu ↦ hsame (hset ?_ u d' hu),
      h.invocations, h.reports⟩
    refine ⟨h.tracks.published msg hmsg, fun _ h ↦ h, fun x _ hwants _ ↦ .inl ?_,
      fun _ hsub ↦ by cases hsub⟩
    cases hw : isWildcard x.topic with
    | true => exact .inr (.inl ⟨rfl, hw⟩)
    | false => exact .inl ⟨rfl, hw⟩
  | load hd hf =>
    exact ⟨h.tracks.dispatching _ _ _, h.gone,
      fun u d' hu ↦ hsame (hset ((h.dispatches _ _ hd).load h hf) u d' hu), h.invocations,
      h.reports⟩
  | @call t d sub subs hd hsubs =>
    have hfits := h.dispatches t d hd
    refine ⟨h.tracks.dispatching _ _ _, h.gone,
      fun u d' hu ↦ hsame (hset (hfits.call hsubs) u d' hu), fun p hp ↦ ?_, h.reports⟩
    rcases List.mem_append.mp hp with hp | hp
    · exact h.invocations p hp
    · rw [List.mem_singleton.mp hp]
      exact hfits.subs sub (hsubs ▸ List.mem_cons_self)
  | @return_ t d hd =>
    have hfits := h.dispatches t d hd
    have hfits : DispatchFits s { d with handling := false } :=
      ⟨hfits.known, hfits.due, hfits.owed, hfits.subs⟩
    exact ⟨h.tracks.dispatching _ _ _, h.gone, fun u d' hu ↦ hsame (hset hfits u d' hu),
      h.invocations, h.reports⟩
  | @finish t d hd hf =>
    have hnone : ∀ u d', update s.dispatches t none u = some d' → DispatchFits s d' :=
      h.setDispatch fun _ h ↦ by cases h
    refine ⟨h.tracks.dispatching _ _ _, h.gone, fun u d' hu ↦ hsame (hnone u d' hu),
      h.invocations, fun r hr ↦ ?_⟩
    rcases List.mem_append.mp hr with hr | hr
    · exact h.reports r hr
    · rw [List.mem_singleton.mp hr]
      exact fun x hx hwants hnot ↦ (h.dispatches t d hd).finished hf hx hwants hnot

theorem Served.step {a : SubAction Tid τ η ν} (h : Served s) (hsmall : Small s')
    (hun : Undisputed s a) (hs : SubscriptionThreads.step s a = some s') : Served s' := by
  rcases step_cases h.tracks h.gone hsmall hun hs with ⟨htracks, hb, hgone⟩ | hd
  · refine ⟨htracks, hgone, fun t d hd ↦ ?_, hb.invocations ▸ h.invocations,
      hb.reports ▸ h.reports⟩
    rw [hb.dispatches] at hd
    exact (h.dispatches t d hd).behind hb
  · exact hd.served h

theorem served_reaches (hs : (machine Tid τ η ν).Reaches Undisputed s) (hsmall : Small s) :
    Served s := by
  revert hsmall
  refine Machine.Reaches.invariant (P := fun s ↦ Small s → Served s) ?_ ?_ hs
  · intro s hs _
    rw [show s = {} from hs]
    exact ⟨tracks_initial, fun _ h ↦ (by cases h), fun _ _ h ↦ (by cases h),
      fun _ h ↦ (by cases h), fun _ h ↦ (by cases h)⟩
  · intro s a t _ h hun ht hsmall
    exact (h (hsmall.of_step ht)).step hsmall hun ht

/-- Subscriptions are neither lost nor do they come back: a dispatch calls the
handlers it began with and that nobody asked to take back, no list that is
loaded after `unsubscribe` returned has the handler, and the slot of a topic has
one type, with nothing left of the calls that throw. -/
theorem subscriptions_kept (hs : (machine Tid τ η ν).Reaches Undisputed s) (hsmall : Small s) :
    (∀ r ∈ s.reports, ∀ x ∈ r.due, x.id ∉ r.asked → x.type = r.msg.type →
        Sub.asksFor x r.msg.topic_sv_ = true → ⟨x.id, x.handler, r.msg.data_⟩ ∈ r.invoked) ∧
      (∀ c gone, (c, gone) ∈ s.invocations → c.id ∉ gone) ∧
      (∀ x ∈ s.returned, isWildcard x.topic = false → ∃ slot, slotOf s.bus x.topic = some slot ∧
        (s.bus.heap slot).msg_type = some x.type ∧
          (x.id ∉ s.asked → x.subscriber ∈ (s.bus.heap slot).subscribers_)) ∧
      ∀ x ∈ s.thrown, NothingLeft s.bus x.id ∧
        (isWildcard x.topic = false → ∃ slot T, slotOf s.bus x.topic = some slot ∧
          (s.bus.heap slot).msg_type = some T ∧ T ≠ x.type) := by
  have h := served_reaches hs hsmall
  refine ⟨fun r hr x hx hnot hty hasks ↦ h.reports r hr x hx ⟨hty, hasks⟩ hnot,
    fun c gone hc ↦ h.invocations (c, gone) hc, fun x hx hw ↦ ?_, fun x hx ↦ ⟨?_, fun hw ↦ ?_⟩⟩
  · obtain ⟨slot, hslot, hty⟩ := ((h.tracks.returned x hx).installed hw).slotOf
    refine ⟨slot, hslot, hty, fun hnot ↦ ?_⟩
    obtain ⟨slot', hslot', hsub⟩ := Stored.slotOf_mem h.tracks.stored (h.tracks.kept hx hnot) hw
    rw [hslot, Option.some.injEq] at hslot'
    exact hslot' ▸ hsub
  · have hremoved := (h.tracks.thrown x hx).removed
    refine h.tracks.stored.nothingLeft (fun y hy he ↦ ?_) (h.tracks.unrecorded x.id ?_)
    · have hpresent := (h.tracks.present x.id).mpr ⟨y, hy, he⟩
      rw [hremoved] at hpresent
      exact hpresent
    · rw [hremoved]
      exact fun h ↦ by cases h
  · obtain ⟨T, hT, hinst⟩ := (h.tracks.thrown x hx).installed hw
    obtain ⟨slot, hslot, hty⟩ := hinst.slotOf
    exact ⟨slot, T, hslot, hty, hT⟩

end Served

instance [Fintype Tid] (s : Subscribing Tid τ η ν) (pc : UnsubscribePc) :
    Decidable (Settles s pc) :=
  match pc with
  | .take id => inferInstanceAs
      (Decidable (s.bus.sub_to_topic_ id = none → ∀ u, (s.unsubs u).removing ≠ some id))
  | .idle | .findSlot _ _ | .removeSubscriber _ _ | .remove _ => .isTrue trivial

instance [Fintype Tid] (s : Subscribing Tid τ η ν) (a : SubAction Tid τ η ν) :
    Decidable (Undisputed s a) :=
  match a with
  | .unsubscribeStep t => inferInstanceAs (Decidable (Settles s (s.unsubs t)))
  | .subscribe .. | .subscribeStep _ | .unsubscribe .. | .publish .. | .rehash _ | .dispatch ..
  | .load _ | .call _ | .return_ _ | .finish _ => .isTrue trivial

def typeRace : List (SubAction Bool Bool ℕ ℕ) :=
  [.subscribe true true ['a'] 10, .subscribe false false ['a'] 20, .subscribeStep true,
    .subscribeStep false, .subscribeStep true, .subscribeStep false, .subscribeStep false,
    .subscribeStep true, .subscribeStep true, .subscribeStep false, .subscribeStep true,
    .subscribeStep true, .subscribe false true ['a'] 30, .subscribeStep false,
    .subscribeStep false, .subscribeStep false, .subscribeStep false, .publish true ['a'] 7,
    .dispatch true 0, .load true, .load true, .call true, .unsubscribe true 1,
    .unsubscribeStep true, .unsubscribeStep true, .unsubscribeStep true, .return_ true,
    .call true, .return_ true, .load true, .finish true]

theorem typeRace_run :
    ((machine Bool Bool ℕ ℕ).runIf Undisputed {} typeRace).map (fun s ↦
      (s.gone, s.reports.map Report.invoked, s.thrown.map Sub.id, s.calls, s.topics.length)) =
        some ([1], [[⟨1, 10, 7⟩, ⟨3, 30, 7⟩]], [2], 3, 4) := by
  decide +kernel

theorem subscriptions_kept_typeRace : ∃ s : Subscribing Bool Bool ℕ ℕ,
    (machine Bool Bool ℕ ℕ).Reaches Undisputed s ∧ s.gone = [1] ∧
      s.reports.map Report.invoked = [[⟨1, 10, 7⟩, ⟨3, 30, 7⟩]] ∧
        s.thrown.map Sub.id = [2] ∧ NothingLeft s.bus 2 := by
  obtain ⟨s, hrun, he⟩ := Option.map_eq_some_iff.mp typeRace_run
  simp only [Prod.mk.injEq] at he
  obtain ⟨hgone, hinvoked, hthrown, hcalls, htopics⟩ := he
  have hs : (machine Bool Bool ℕ ℕ).Reaches Undisputed s := .of_runIf (.start rfl) typeRace hrun
  have hsmall : Small s := by
    refine ⟨by rw [hcalls]; decide, Nat.lt_of_le_of_lt (List.toFinset_card_le _) ?_⟩
    rw [htopics]
    decide
  refine ⟨s, hs, hgone, hinvoked, hthrown, ?_⟩
  have hmem : 2 ∈ s.thrown.map Sub.id := by
    rw [hthrown]
    exact List.mem_singleton_self _
  obtain ⟨x, hx, hid⟩ := List.mem_map.mp hmem
  rw [← hid]
  exact ((subscriptions_kept hs hsmall).2.2.2 x hx).1

def disputed : List (SubAction Bool Unit ℕ ℕ) :=
  [.subscribe true () ['a'] 10, .subscribeStep true, .subscribeStep true, .subscribeStep true,
    .subscribeStep true, .subscribeStep true, .subscribeStep true, .publish () ['a'] 7,
    .unsubscribe true 1, .unsubscribeStep true, .unsubscribe false 1, .unsubscribeStep false,
    .dispatch false 0, .load false, .load false, .call false]

theorem disputed_run : ((machine Bool Unit ℕ ℕ).run {} disputed).map Subscribing.invocations =
    some [(⟨1, 10, 7⟩, [1])] := by
  decide +kernel

/-- A list that is loaded after `unsubscribe` returned has the handler. -/
theorem unsubscribed_invoked : ∃ s : Subscribing Bool Unit ℕ ℕ,
    (machine Bool Unit ℕ ℕ).Reachable s ∧ s.invocations = [(⟨1, 10, 7⟩, [1])] := by
  obtain ⟨s, hrun, he⟩ := Option.map_eq_some_iff.mp disputed_run
  exact ⟨s, .of_run (M := machine Bool Unit ℕ ℕ) rfl disputed hrun, he⟩

end LivioArk.Msgbus.SubscriptionThreads
