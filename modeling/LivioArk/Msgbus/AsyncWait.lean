import LivioArk.Msgbus.Delivery
import LivioArk.Msgbus.Dispatching

namespace LivioArk.Msgbus.AsyncWait

open Function LivioArk.Library.Transition LivioArk.Library.PrefixTree
open Levels TopicMatcher TopicRegistry WildcardTrie Subscriptions SubStore Delivery Dispatching

variable {Tid τ η ν : Type}

inductive Handler (η : Type) where
  | awaiting
  | other (handler : η)
  deriving Repr, DecidableEq

inductive Suspend where
  | subscribing
  | added (id : ℕ) (info : SubInfo)
  | recorded (id : ℕ)
  | finished (id : ℕ)
  | threw
  deriving Repr, DecidableEq

/-- The two places that unsubscribe. -/
inductive Place where
  | await_resume
  | destructor
  deriving Repr, DecidableEq

inductive Cleanup where
  | read (place : Place)
  | take (place : Place) (id : ℕ)
  | remove (place : Place) (id : ℕ) (info : SubInfo)
  | clear
  | finished
  deriving Repr, DecidableEq

/-- A coroutine is resumed by a dispatcher or destroyed by its owner. -/
inductive Coroutine where
  | suspended
  | resumed (c : Cleanup)
  | destroying (c : Cleanup)
  deriving Repr, DecidableEq

/-- Where a dispatcher is: between two handlers, after it has set `fired`, or in
the handler that has resumed the coroutine. -/
inductive Dispatcher (τ η ν : Type) where
  | idle
  | dispatching (f : Frame τ (Handler η) ν)
  | fired (f : Frame τ (Handler η) ν)
  | inside (f : Frame τ (Handler η) ν)

inductive WaitEvent where
  | resumed
  | destroyed
  deriving Repr, DecidableEq

/-- One wait on a bus with other subscriptions. -/
structure Waiting (Tid τ η ν : Type) where
  bus : SubState τ (Handler η)
  live : List (Sub τ (Handler η))
  suspend : Suspend := .subscribing
  sub_id : ℕ := 0
  result : Option ν := none
  fired : Bool := false
  coroutine : Coroutine := .suspended
  dispatchers : Tid → Dispatcher τ η ν := fun _ ↦ .idle
  history : List WaitEvent := []

inductive WaitAction (Tid τ ν : Type) where
  | suspend
  | destroy
  | cleanup
  | dispatch (t : Tid) (msg : Message τ ν)
  | load (t : Tid)
  | handle (t : Tid)
  | resume (t : Tid)
  | return_ (t : Tid)

section Machine

variable [DecidableEq Tid] [DecidableEq τ]

def Waiting.suspendStep (T : τ) (topic : Str) (s : Waiting Tid τ η ν) :
    Option (Waiting Tid τ η ν) :=
  match s.suspend with
  | .subscribing =>
    match attach s.bus T topic .awaiting with
    | (.error _, bus) => some { s with bus, suspend := .threw }
    | (.ok (id, info), bus) => some
      { s with bus, suspend := .added id info, live := s.live ++ [⟨id, T, topic, .awaiting⟩] }
  | .added id info => some { s with bus := recordSub s.bus id info, suspend := .recorded id }
  | .recorded id => some { s with sub_id := id, suspend := .finished id }
  | .finished _ | .threw => none

def Waiting.unsubscribed (s : Waiting Tid τ η ν) : Place → Cleanup × Waiting Tid τ η ν
  | .await_resume => (.clear, s)
  | .destructor => (.finished, { s with history := s.history ++ [.destroyed] })

def Waiting.cleanupStep (s : Waiting Tid τ η ν) : Cleanup → Option (Cleanup × Waiting Tid τ η ν)
  | .read .await_resume => some (.take .await_resume s.sub_id, s)
  | .read .destructor =>
    if s.sub_id = 0 then some (s.unsubscribed .destructor)
    else some (.take .destructor s.sub_id, s)
  | .take place id =>
    match takeSub s.bus id with
    | (none, bus) => some (Waiting.unsubscribed { s with bus } place)
    | (some info, bus) => some (.remove place id info, { s with bus })
  | .remove place id info => some (Waiting.unsubscribed
      { s with bus := detach s.bus id info, live := s.live.filter fun x ↦ x.id ≠ id } place)
  | .clear => some (.read .destructor, { s with sub_id := 0 })
  | .finished => none

def Waiting.at_ (s : Waiting Tid τ η ν) (t : Tid) (d : Dispatcher τ η ν) : Waiting Tid τ η ν :=
  { s with dispatchers := update s.dispatchers t d }

def step (T : τ) (topic : Str) (s : Waiting Tid τ η ν) :
    WaitAction Tid τ ν → Option (Waiting Tid τ η ν)
  | .suspend => s.suspendStep T topic
  | .destroy =>
    match s.coroutine with
    | .suspended => some { s with coroutine := .destroying (.read .destructor) }
    | _ => none
  | .cleanup =>
    match s.coroutine with
    | .suspended => none
    | .resumed c => (s.cleanupStep c).map fun (c, s) ↦ { s with coroutine := .resumed c }
    | .destroying c => (s.cleanupStep c).map fun (c, s) ↦ { s with coroutine := .destroying c }
  | .dispatch t msg =>
    match s.dispatchers t with
    | .idle => some (s.at_ t (.dispatching { msg }))
    | _ => none
  | .load t =>
    match s.dispatchers t with
    | .dispatching f => (f.load s.bus).map fun f ↦ s.at_ t (.dispatching f)
    | _ => none
  | .handle t =>
    match s.dispatchers t with
    | .dispatching f =>
      match f.subs with
      | sub :: subs =>
        match sub.handler with
        | .awaiting =>
          if s.fired then some (s.at_ t (.dispatching { f with subs }))
          else some { s.at_ t (.fired { f with subs }) with fired := true }
        | .other _ => some (s.at_ t (.dispatching { f with subs }))
      | [] => none
    | _ => none
  | .resume t =>
    match s.dispatchers t with
    | .fired f =>
      let s := { s with result := some f.msg.data_, history := s.history ++ [WaitEvent.resumed] }
      match s.coroutine with
      | .suspended => some { s.at_ t (.inside f) with coroutine := .resumed (.read .await_resume) }
      | _ => some (s.at_ t (.dispatching f)) -- from here on the behaviour is undefined
    | _ => none
  | .return_ t =>
    match s.dispatchers t with
    | .dispatching f => if f.finished then some (s.at_ t .idle) else none
    | .inside f =>
      match s.coroutine with
      | .resumed .finished => some (s.at_ t (.dispatching f))
      | _ => none
    | _ => none

/-- The wait starts on a bus that any calls may have left, with ids and topic ids
to spare. -/
def Starts (topic : Str) (s : Waiting Tid τ η ν) : Prop :=
  ∃ d : Delivering τ (Handler η) ν, (Delivery.machine τ (Handler η) ν).Reachable d ∧
    (∀ x ∈ d.live, x.handler ≠ .awaiting) ∧ d.calls + 1 < 2 ^ 64 ∧
      (d.topics ++ [topic]).toFinset.card < 2 ^ 32 - 1 ∧ s = { bus := d.bus, live := d.live }

def machine (Tid τ η ν : Type) [DecidableEq Tid] [DecidableEq τ] (T : τ) (topic : Str) :
    Machine (Waiting Tid τ η ν) (WaitAction Tid τ ν) where
  init := Starts topic
  step := step T topic

end Machine

section Firing

def Coroutine.Over : Coroutine → Prop
  | .resumed .finished | .destroying .finished => True
  | _ => False

def Dispatcher.isFired : Dispatcher τ η ν → Bool
  | .fired _ => true
  | _ => false

variable {T : τ} {topic : Str} {s t : Waiting Tid τ η ν} {c c' : Cleanup}

structure Firing (s : Waiting Tid τ η ν) : Prop where
  unfired : s.fired = false → (∀ p, (s.dispatchers p).isFired = false) ∧
    .resumed ∉ s.history ∧ ∀ c, s.coroutine ≠ .resumed c
  unique : ∀ p q, (s.dispatchers p).isFired = true → (s.dispatchers q).isFired = true → p = q
  pending : ∀ p, (s.dispatchers p).isFired = true → .resumed ∉ s.history
  once : s.history.count .resumed ≤ 1
  ended : .destroyed ∈ s.history → s.coroutine.Over

theorem cleanup_frame (hs : s.cleanupStep c = some (c', t)) :
    t.fired = s.fired ∧ t.dispatchers = s.dispatchers ∧ t.suspend = s.suspend ∧
      (t.history = s.history ∨ c' = .finished ∧ t.history = s.history ++ [.destroyed]) := by
  have hunsub : ∀ (u : Waiting Tid τ η ν) place, u.unsubscribed place = (c', t) →
      t.fired = u.fired ∧ t.dispatchers = u.dispatchers ∧ t.suspend = u.suspend ∧
        (t.history = u.history ∨ c' = .finished ∧ t.history = u.history ++ [.destroyed]) := by
    intro u place hu
    cases place <;> cases hu
    · exact ⟨rfl, rfl, rfl, .inl rfl⟩
    · exact ⟨rfl, rfl, rfl, .inr ⟨rfl, rfl⟩⟩
  cases c with
  | read place =>
    cases place with
    | await_resume =>
      cases hs
      exact ⟨rfl, rfl, rfl, .inl rfl⟩
    | destructor =>
      simp only [Waiting.cleanupStep] at hs
      split at hs
      · exact hunsub s .destructor (Option.some.inj hs)
      · cases hs
        exact ⟨rfl, rfl, rfl, .inl rfl⟩
  | take place id =>
    simp only [Waiting.cleanupStep] at hs
    split at hs
    · have hsame := hunsub _ place (Option.some.inj hs)
      exact hsame
    · cases hs
      exact ⟨rfl, rfl, rfl, .inl rfl⟩
  | remove place id info =>
    have hsame := hunsub _ place (Option.some.inj hs)
    exact hsame
  | clear =>
    cases hs
    exact ⟨rfl, rfl, rfl, .inl rfl⟩
  | finished => cases hs

theorem suspend_frame [DecidableEq τ] (hs : s.suspendStep T topic = some t) :
    t.fired = s.fired ∧ t.dispatchers = s.dispatchers ∧ t.coroutine = s.coroutine ∧
      t.history = s.history := by
  simp only [Waiting.suspendStep] at hs
  split at hs
  · split at hs <;> cases hs <;> exact ⟨rfl, rfl, rfl, rfl⟩
  · cases hs
    exact ⟨rfl, rfl, rfl, rfl⟩
  · cases hs
    exact ⟨rfl, rfl, rfl, rfl⟩
  · cases hs
  · cases hs

theorem firing_initial [DecidableEq τ] (h : Starts topic s) : Firing s := by
  obtain ⟨d, _, _, _, _, rfl⟩ := h
  exact ⟨fun _ ↦ ⟨fun _ ↦ rfl, by simp, fun c hc ↦ (by cases hc)⟩, fun p q hp ↦ (by cases hp),
    fun p hp ↦ (by cases hp), Nat.zero_le _, fun h ↦ (by cases h)⟩

theorem Firing.cleanup (h : Firing s) {coroutine : Coroutine}
    (hover : s.coroutine.Over → c = .finished) (hends : c' = .finished → coroutine.Over)
    (hresumed : (∀ c, s.coroutine ≠ .resumed c) → ∀ c, coroutine ≠ .resumed c)
    (hs : s.cleanupStep c = some (c', t)) : Firing { t with coroutine } := by
  obtain ⟨hfired, hdisp, _, hhist⟩ := cleanup_frame hs
  have hmem : .resumed ∈ t.history ↔ .resumed ∈ s.history := by
    rcases hhist with hhist | ⟨_, hhist⟩ <;> simp [hhist]
  have hcount : t.history.count .resumed = s.history.count .resumed := by
    rcases hhist with hhist | ⟨_, hhist⟩ <;> simp [hhist]
  refine ⟨fun hf ↦ ?_, fun p q hp hq ↦ ?_, fun p hp ↦ ?_, hcount ▸ h.once, fun hm ↦ ?_⟩
  · obtain ⟨hnone, hnot, hc⟩ := h.unfired (hfired ▸ hf)
    exact ⟨hdisp.symm ▸ hnone, fun hm ↦ hnot (hmem.mp hm), hresumed hc⟩
  · exact h.unique p q (hdisp ▸ hp) (hdisp ▸ hq)
  · exact fun hm ↦ h.pending p (hdisp ▸ hp) (hmem.mp hm)
  · rcases hhist with hhist | ⟨hend, _⟩
    · obtain rfl := hover (h.ended (hhist ▸ hm))
      cases hs
    · exact hends hend

variable [DecidableEq Tid]

theorem Firing.at_ (h : Firing s) (p : Tid) {d : Dispatcher τ η ν} (hd : d.isFired = false) :
    Firing (s.at_ p d) := by
  have hother : ∀ q, ((s.at_ p d).dispatchers q).isFired = true →
      (s.dispatchers q).isFired = true := by
    intro q hq
    by_cases hqp : q = p
    · subst hqp
      simp only [Waiting.at_, update_self, hd] at hq
      cases hq
    · simpa only [Waiting.at_, update_of_ne hqp] using hq
  refine ⟨fun hf ↦ ?_, fun q r hq hr ↦ h.unique q r (hother q hq) (hother r hr),
    fun q hq ↦ h.pending q (hother q hq), h.once, h.ended⟩
  obtain ⟨hnone, hnot, hc⟩ := h.unfired hf
  refine ⟨fun q ↦ Bool.eq_false_iff.mpr fun hq ↦ ?_, hnot, hc⟩
  have hfired := hother q hq
  rw [hnone q] at hfired
  cases hfired

theorem Firing.fire (h : Firing s) (hf : s.fired = false) (p : Tid) (f : Frame τ (Handler η) ν) :
    Firing { s.at_ p (.fired f) with fired := true } := by
  obtain ⟨hnone, hnot, _⟩ := h.unfired hf
  have honly : ∀ q, ((s.at_ p (.fired f)).dispatchers q).isFired = true → q = p := by
    intro q hq
    by_contra hqp
    simp only [Waiting.at_, update_of_ne hqp, hnone q] at hq
    cases hq
  exact ⟨fun hf ↦ (by cases hf), fun q r hq hr ↦ (honly q hq).trans (honly r hr).symm,
    fun _ _ ↦ hnot, h.once, h.ended⟩

theorem Firing.resume (h : Firing s) {p : Tid} (hp : (s.dispatchers p).isFired = true)
    {d : Dispatcher τ η ν} (hd : d.isFired = false) {result : Option ν} {coroutine : Coroutine}
    (hover : s.coroutine.Over → coroutine.Over) :
    Firing { s.at_ p d with result, coroutine, history := s.history ++ [.resumed] } := by
  have hnone : ∀ q, ((s.at_ p d).dispatchers q).isFired = false := by
    intro q
    by_cases hqp : q = p
    · subst hqp
      simpa only [Waiting.at_, update_self] using hd
    · simp only [Waiting.at_, update_of_ne hqp]
      exact Bool.eq_false_iff.mpr fun hq ↦ hqp (h.unique q p hq hp)
  have hfired : s.fired = true := by
    by_contra hf
    rw [(h.unfired (by simpa using hf)).1 p] at hp
    cases hp
  have hnever : ∀ q, ((s.at_ p d).dispatchers q).isFired ≠ true := by
    intro q hq
    rw [hnone q] at hq
    cases hq
  refine ⟨fun hf ↦ ?_, fun q _ hq ↦ absurd hq (hnever q), fun q hq ↦ absurd hq (hnever q), ?_,
    fun hm ↦ ?_⟩
  · rw [show s.fired = false from hf] at hfired
    cases hfired
  · simp [List.count_eq_zero.mpr (h.pending p hp)]
  · refine hover (h.ended ?_)
    simpa using hm

theorem Firing.step {a : WaitAction Tid τ ν} [DecidableEq τ] (h : Firing s)
    (hs : AsyncWait.step T topic s a = some t) : Firing t := by
  cases a with
  | suspend =>
    obtain ⟨hfired, hdisp, hcor, hhist⟩ := suspend_frame hs
    refine ⟨?_, ?_, ?_, ?_, ?_⟩
    · rw [hfired, hdisp, hcor, hhist]
      exact h.unfired
    · rw [hdisp]
      exact h.unique
    · rw [hdisp, hhist]
      exact h.pending
    · rw [hhist]
      exact h.once
    · rw [hcor, hhist]
      exact h.ended
  | destroy =>
    simp only [AsyncWait.step] at hs
    split at hs
    · rename_i hc
      cases hs
      refine ⟨fun hf ↦ ?_, h.unique, h.pending, h.once, fun hm ↦ ?_⟩
      · exact ⟨(h.unfired hf).1, (h.unfired hf).2.1, fun c hc ↦ by cases hc⟩
      · have hover := h.ended hm
        rw [hc] at hover
        exact hover.elim
    · cases hs
  | cleanup =>
    simp only [AsyncWait.step] at hs
    cases hc : s.coroutine with
    | suspended => simp [hc] at hs
    | resumed c =>
      simp only [hc, Option.map_eq_some_iff] at hs
      obtain ⟨⟨c', u⟩, hu, rfl⟩ := hs
      refine h.cleanup ?_ ?_ ?_ hu
      · rw [hc]
        cases c <;> simp [Coroutine.Over]
      · rintro rfl
        trivial
      · exact fun hno ↦ absurd hc (hno c)
    | destroying c =>
      simp only [hc, Option.map_eq_some_iff] at hs
      obtain ⟨⟨c', u⟩, hu, rfl⟩ := hs
      refine h.cleanup ?_ ?_ ?_ hu
      · rw [hc]
        cases c <;> simp [Coroutine.Over]
      · rintro rfl
        trivial
      · exact fun _ c hc ↦ by cases hc
  | dispatch p msg =>
    simp only [AsyncWait.step] at hs
    split at hs
    · cases hs
      exact h.at_ p rfl
    · cases hs
  | load p =>
    simp only [AsyncWait.step] at hs
    split at hs
    · obtain ⟨f, _, rfl⟩ := Option.map_eq_some_iff.mp hs
      exact h.at_ p rfl
    · cases hs
  | handle p =>
    simp only [AsyncWait.step] at hs
    split at hs
    · split at hs
      · split at hs
        · split at hs
          · cases hs
            exact h.at_ p rfl
          · rename_i hf
            cases hs
            exact h.fire (by simpa using hf) p _
        · cases hs
          exact h.at_ p rfl
      · cases hs
    · cases hs
  | resume p =>
    simp only [AsyncWait.step] at hs
    split at hs
    · rename_i f hf
      have hp : (s.dispatchers p).isFired = true := by rw [hf]; rfl
      split at hs
      · rename_i hc
        cases hs
        refine h.resume hp rfl fun hover ↦ ?_
        rw [show s.coroutine = .suspended from hc] at hover
        exact hover.elim
      · cases hs
        exact h.resume hp rfl fun hover ↦ hover
    · cases hs
  | return_ p =>
    simp only [AsyncWait.step] at hs
    split at hs
    · split at hs <;> cases hs
      exact h.at_ p rfl
    · split at hs <;> cases hs
      exact h.at_ p rfl
    · cases hs

theorem firing_reachable [DecidableEq τ] (hs : (machine Tid τ η ν T topic).Reachable s) :
    Firing s :=
  Machine.Reaches.invariant (fun _ ↦ firing_initial) (fun _ _ _ _ h _ ht ↦ h.step ht) hs

end Firing

end LivioArk.Msgbus.AsyncWait
