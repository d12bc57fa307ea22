import LivioArk.Msgbus.AsyncWaitCleanup

namespace LivioArk.Msgbus.AsyncWait

open Function LivioArk.Library.Transition
open Levels Subscriptions SubStore Dispatching

variable {Tid τ η ν : Type}

def Handler.isAwaiting : Handler η → Bool
  | .awaiting => true
  | .other _ => false

def Dispatcher.holds : Dispatcher τ η ν → Bool
  | .dispatching f => f.subs.any fun sub ↦ sub.handler.isAwaiting
  | _ => false

def Suspend.over : Suspend → Bool
  | .finished _ | .threw => true
  | _ => false

def Waiting.completes (s : Waiting Tid τ η ν) : Cleanup → Bool
  | .read .destructor => s.sub_id = 0
  | .take .destructor id => (s.bus.sub_to_topic_ id).isNone
  | .remove .destructor _ _ => true
  | _ => false

def Waiting.ending (s : Waiting Tid τ η ν) : Bool :=
  match s.coroutine with
  | .suspended => false
  | .resumed c | .destroying c => s.completes c

/-- No dispatcher is on its way to resume the coroutine. -/
structure Quiet (s : Waiting Tid τ η ν) : Prop where
  none_fired : ∀ p, (s.dispatchers p).isFired = false
  unfired : s.fired = false → s.suspend.over = true ∧ ∀ p, (s.dispatchers p).holds = false

def EndsQuiet (s : Waiting Tid τ η ν) : WaitAction Tid τ ν → Prop
  | .cleanup => s.ending = true → Quiet s
  | _ => True

/-- What is left after the destructor cannot resume. -/
structure Calm (s : Waiting Tid τ η ν) : Prop where
  none_fired : ∀ p, (s.dispatchers p).isFired = false
  unfired : s.fired = false →
    s.suspend.over = true ∧ NoneAwaits s.live ∧ ∀ p, (s.dispatchers p).holds = false

section Steps

variable {T : τ} {topic : Str} {s t : Waiting Tid τ η ν} {c c' : Cleanup}

theorem isAwaiting_iff (h : Handler η) : h.isAwaiting = true ↔ h = .awaiting := by
  cases h <;> simp [Handler.isAwaiting]

theorem suspend_over [DecidableEq τ] (h : s.suspend.over = true) :
    s.suspendStep T topic = none := by
  cases hc : s.suspend with
  | finished | threw => simp [Waiting.suspendStep, hc]
  | subscribing | added | recorded => simp [hc, Suspend.over] at h

/-- The step after which the destructor is over is the one that ends it. -/
theorem ending_of_destroyed (hs : s.cleanupStep c = some (c', t)) (hnot : .destroyed ∉ s.history)
    (hm : .destroyed ∈ t.history) : s.completes c = true := by
  cases c with
  | read place =>
    cases place with
    | await_resume =>
      cases hs
      exact absurd hm hnot
    | destructor =>
      simp only [Waiting.cleanupStep] at hs
      split at hs
      · rename_i hsub
        simpa [Waiting.completes] using hsub
      · cases hs
        exact absurd hm hnot
  | take place id =>
    cases hrec : s.bus.sub_to_topic_ id with
    | none =>
      simp only [Waiting.cleanupStep, takeSub, hrec] at hs
      cases place with
      | await_resume =>
        cases hs
        exact absurd hm hnot
      | destructor => simp [Waiting.completes, hrec]
    | some info =>
      simp only [Waiting.cleanupStep, takeSub, hrec] at hs
      cases hs
      exact absurd hm hnot
  | remove place id info =>
    cases place with
    | await_resume =>
      cases hs
      exact absurd hm hnot
    | destructor => rfl
  | clear =>
    cases hs
    exact absurd hm hnot
  | finished => cases hs

theorem Quiet.calm (h : Quiet s) (hinv : Inv True topic s) (hfiring : Firing s)
    {coroutine : Coroutine} (hc : s.coroutine = .resumed c ∨ s.coroutine = .destroying c)
    (hends : s.completes c = true) (hs : s.cleanupStep c = some (c', t)) :
    Calm { t with coroutine } := by
  obtain ⟨hfired, hdisp, hsuspend, _⟩ := cleanup_frame hs
  refine ⟨fun p ↦ hdisp ▸ h.none_fired p, fun hf ↦ ?_⟩
  have hf : s.fired = false := hfired ▸ hf
  obtain ⟨hover, hholds⟩ := h.unfired hf
  refine ⟨hsuspend ▸ hover, ?_, hdisp ▸ hholds⟩
  have hc : s.coroutine = .destroying c := hc.resolve_left ((hfiring.unfired hf).2.2 c)
  have hfits := hinv.fits
  rw [hc] at hfits
  cases hsus : s.suspend with
  | subscribing | added | recorded =>
    rw [hsus] at hover
    cases hover
  | threw =>
    rw [hsus] at hfits
    obtain ⟨hsub, hblind, hnone⟩ := hfits
    obtain ⟨_, _, rfl⟩ := Cleanup.Blind.step hblind hinv.zero hsub hs
    exact hnone
  | finished id =>
    rw [hsus] at hfits
    obtain ⟨hone, hfits, hread⟩ := hfits
    cases c with
    | read place =>
      cases place with
      | await_resume => cases hends
      | destructor =>
        have hsub : s.sub_id = 0 := by simpa [Waiting.completes] using hends
        exact absurd ((hread rfl).symm.trans hsub) hone.1
    | take place i =>
      cases place with
      | await_resume => cases hends
      | destructor =>
        obtain ⟨rfl, _, _, _, info, hinfo, _⟩ := hfits
        simp [Waiting.completes, hinfo] at hends
    | remove place i info =>
      cases place with
      | await_resume => cases hends
      | destructor =>
        obtain ⟨rfl, _⟩ := hfits
        cases hs
        intro x hx ha
        obtain ⟨hx, hne⟩ := List.mem_filter.mp hx
        exact (by simpa using hne : x.id ≠ i) (hone.2 x hx ha)
    | clear => cases hends
    | finished => cases hends

def NoneAfter (history : List WaitEvent) : Prop :=
  ∀ past future, history = past ++ .destroyed :: future → .resumed ∉ future

theorem NoneAfter.append {history : List WaitEvent} (h : NoneAfter history) {e : WaitEvent}
    (he : e = .resumed → .destroyed ∉ history) : NoneAfter (history ++ [e]) := by
  intro past future heq
  rcases List.eq_nil_or_concat future with rfl | ⟨future', e', rfl⟩
  · exact List.not_mem_nil
  · rw [List.concat_eq_append, ← List.cons_append, ← List.append_assoc] at heq
    obtain ⟨hpast, he'⟩ := List.append_inj' heq rfl
    rw [List.concat_eq_append, List.mem_append, List.mem_singleton]
    rintro (hm | rfl)
    · exact h past future' hpast hm
    · apply he (List.singleton_inj.mp he')
      rw [hpast]
      exact List.mem_append_right _ List.mem_cons_self

variable [DecidableEq Tid]

theorem Calm.at_ (h : Calm s) (p : Tid) {d : Dispatcher τ η ν} (hd : d.isFired = false)
    (hholds : s.fired = false → d.holds = false) : Calm (s.at_ p d) := by
  refine ⟨fun q ↦ ?_, fun hf ↦ ⟨(h.unfired hf).1, (h.unfired hf).2.1, fun q ↦ ?_⟩⟩
  · by_cases hqp : q = p
    · subst hqp
      simpa only [Waiting.at_, update_self] using hd
    · simpa only [Waiting.at_, update_of_ne hqp] using h.none_fired q
  · by_cases hqp : q = p
    · subst hqp
      simpa only [Waiting.at_, update_self] using hholds hf
    · simpa only [Waiting.at_, update_of_ne hqp] using (h.unfired hf).2.2 q

variable [DecidableEq τ]

/-- After the destructor nobody resumes and nothing can be fired any more. -/
theorem Calm.step {a : WaitAction Tid τ ν} (h : Calm s) (hfiring : Firing s)
    (hstored : Stored s.bus s.live) (hover : s.coroutine.Over)
    (hs : AsyncWait.step T topic s a = some t) : Calm t := by
  cases a with
  | suspend =>
    obtain ⟨hfired, hdisp, _, _⟩ := suspend_frame hs
    refine ⟨fun p ↦ hdisp ▸ h.none_fired p, fun hf ↦ ?_⟩
    have hnone : s.suspendStep T topic = none := suspend_over (h.unfired (hfired ▸ hf)).1
    rw [show s.suspendStep T topic = some t from hs] at hnone
    cases hnone
  | destroy =>
    simp only [AsyncWait.step] at hs
    split at hs
    · rename_i hc
      rw [hc] at hover
      exact hover.elim
    · cases hs
  | cleanup =>
    simp only [AsyncWait.step] at hs
    cases hc : s.coroutine with
    | suspended => simp [hc] at hs
    | resumed c | destroying c =>
      rw [hc] at hover
      cases c with
      | finished => simp [hc, Waiting.cleanupStep] at hs
      | read | take | remove | clear => exact hover.elim
  | dispatch p msg =>
    simp only [AsyncWait.step] at hs
    split at hs
    · cases hs
      exact h.at_ p rfl fun _ ↦ rfl
    · cases hs
  | load p =>
    simp only [AsyncWait.step] at hs
    split at hs
    · obtain ⟨f', hload, rfl⟩ := Option.map_eq_some_iff.mp hs
      refine h.at_ p rfl fun hf ↦ ?_
      rcases load_subs hload with hsubs | ⟨slot, hsubs⟩
      · simp [Dispatcher.holds, hsubs]
      · simp only [Dispatcher.holds, hsubs, List.any_eq_false]
        intro sub hsub ha
        obtain ⟨x, hx, rfl⟩ := hstored.subscribed hsub
        exact (h.unfired hf).2.1 x hx ((isAwaiting_iff _).mp ha)
    · cases hs
  | handle p =>
    simp only [AsyncWait.step] at hs
    split at hs
    · rename_i f hp
      have hholds := fun hf ↦ (h.unfired hf).2.2 p
      rw [hp] at hholds
      split at hs
      · rename_i sub subs hsubs
        simp only [Dispatcher.holds, hsubs, List.any_cons, Bool.or_eq_false_iff] at hholds
        split at hs
        · rename_i ha
          split at hs
          · cases hs
            exact h.at_ p rfl fun hf ↦ (hholds hf).2
          · rename_i hf
            have hnot := (hholds (by simpa using hf)).1
            rw [ha] at hnot
            cases hnot
        · cases hs
          exact h.at_ p rfl fun hf ↦ (hholds hf).2
      · cases hs
    · cases hs
  | resume p =>
    simp only [AsyncWait.step] at hs
    split at hs
    · rename_i f hp
      have hnone := h.none_fired p
      rw [hp] at hnone
      cases hnone
    · cases hs
  | return_ p =>
    simp only [AsyncWait.step] at hs
    split at hs
    · split at hs <;> cases hs
      exact h.at_ p rfl fun _ ↦ rfl
    · split at hs
      · rename_i hc
        cases hs
        exact h.at_ p rfl fun hf ↦ absurd hc ((hfiring.unfired hf).2.2 _)
      · cases hs
    · cases hs

theorem step_history {a : WaitAction Tid τ ν} (hs : AsyncWait.step T topic s a = some t) :
    t.history = s.history ∨
      (∃ p, (s.dispatchers p).isFired = true ∧ t.history = s.history ++ [.resumed]) ∨
        a = .cleanup ∧ t.history = s.history ++ [.destroyed] := by
  cases a with
  | suspend => exact .inl (suspend_frame hs).2.2.2
  | destroy =>
    simp only [AsyncWait.step] at hs
    split at hs <;> cases hs
    exact .inl rfl
  | cleanup =>
    simp only [AsyncWait.step] at hs
    cases hc : s.coroutine with
    | suspended => simp [hc] at hs
    | resumed c | destroying c =>
      simp only [hc, Option.map_eq_some_iff] at hs
      obtain ⟨⟨c', u⟩, hu, rfl⟩ := hs
      rcases (cleanup_frame hu).2.2.2 with hhist | ⟨_, hhist⟩
      · exact .inl hhist
      · exact .inr (.inr ⟨rfl, hhist⟩)
  | dispatch p msg =>
    simp only [AsyncWait.step] at hs
    split at hs <;> cases hs
    exact .inl rfl
  | load p =>
    simp only [AsyncWait.step] at hs
    split at hs
    · obtain ⟨f, _, rfl⟩ := Option.map_eq_some_iff.mp hs
      exact .inl rfl
    · cases hs
  | handle p =>
    simp only [AsyncWait.step] at hs
    split at hs
    · split at hs
      · split at hs
        · split at hs <;> cases hs <;> exact .inl rfl
        · cases hs
          exact .inl rfl
      · cases hs
    · cases hs
  | resume p =>
    simp only [AsyncWait.step] at hs
    split at hs
    · rename_i f hf
      refine .inr (.inl ⟨p, by rw [hf]; rfl, ?_⟩)
      split at hs <;> cases hs <;> rfl
    · cases hs
  | return_ p =>
    simp only [AsyncWait.step] at hs
    split at hs
    · split at hs <;> cases hs
      exact .inl rfl
    · split at hs <;> cases hs
      exact .inl rfl
    · cases hs

structure Guarded (s : Waiting Tid τ η ν) : Prop where
  calm : .destroyed ∈ s.history → Calm s
  after : NoneAfter s.history

theorem Guarded.step {a : WaitAction Tid τ ν} (h : Guarded s) (hinv : Inv True topic s)
    (hfiring : Firing s) (hok : EndsQuiet s a) (hs : AsyncWait.step T topic s a = some t) :
    Guarded t := by
  by_cases hd : .destroyed ∈ s.history
  · have hcalm := h.calm hd
    have hover := hfiring.ended hd
    refine ⟨fun _ ↦ hcalm.step hfiring hinv.stored hover hs, ?_⟩
    rcases step_history hs with hhist | ⟨p, hp, _⟩ | ⟨_, hhist⟩
    · exact hhist ▸ h.after
    · rw [hcalm.none_fired p] at hp
      cases hp
    · rw [hhist]
      exact h.after.append fun he ↦ by cases he
  · rcases step_history hs with hhist | ⟨p, hp, hhist⟩ | ⟨rfl, hhist⟩
    · exact ⟨fun hm ↦ absurd (hhist ▸ hm) hd, hhist ▸ h.after⟩
    · refine ⟨fun hm ↦ ?_, hhist ▸ h.after.append fun _ ↦ hd⟩
      rw [hhist] at hm
      exact absurd (by simpa using hm) hd
    · refine ⟨fun _ ↦ ?_, hhist ▸ h.after.append fun he ↦ by cases he⟩
      have hm : .destroyed ∈ t.history := by simp [hhist]
      simp only [AsyncWait.step] at hs
      cases hc : s.coroutine with
      | suspended => simp [hc] at hs
      | resumed c =>
        simp only [hc, Option.map_eq_some_iff] at hs
        obtain ⟨⟨c', u⟩, hu, rfl⟩ := hs
        have hends := ending_of_destroyed hu hd hm
        refine Quiet.calm (hok ?_) hinv hfiring (.inl hc) hends hu
        simpa only [Waiting.ending, hc] using hends
      | destroying c =>
        simp only [hc, Option.map_eq_some_iff] at hs
        obtain ⟨⟨c', u⟩, hu, rfl⟩ := hs
        have hends := ending_of_destroyed hu hd hm
        refine Quiet.calm (hok ?_) hinv hfiring (.inr hc) hends hu
        simpa only [Waiting.ending, hc] using hends

/-- The coroutine is resumed at most once, and never after the destructor if that
ends in a quiet state. -/
theorem resumes_once (hs : (machine Tid τ η ν T topic).Reaches EndsQuiet s) :
    s.history.count .resumed ≤ 1 ∧
      ∀ past future, s.history = past ++ .destroyed :: future → .resumed ∉ future := by
  refine ⟨(firing_reachable hs.reachable).once, ?_⟩
  have hguarded : Guarded s := by
    refine Machine.Reaches.invariant ?_ (fun s a t hr h hok ht ↦ ?_) hs
    · rintro s ⟨d, _, _, _, _, rfl⟩
      exact ⟨fun h ↦ (by cases h), fun past _ h ↦ by cases past <;> cases h⟩
    · exact h.step (inv_reachable hr.reachable) (firing_reachable hr.reachable) hok ht
  exact hguarded.after

end Steps

instance [Fintype Tid] (s : Waiting Tid τ η ν) : Decidable (Quiet s) :=
  decidable_of_iff ((∀ p, (s.dispatchers p).isFired = false) ∧
    (s.fired = false → s.suspend.over = true ∧ ∀ p, (s.dispatchers p).holds = false))
    ⟨fun h ↦ ⟨h.1, h.2⟩, fun h ↦ ⟨h.1, h.2⟩⟩

instance [Fintype Tid] (s : Waiting Tid τ η ν) (a : WaitAction Tid τ ν) :
    Decidable (EndsQuiet s a) :=
  match a with
  | .cleanup => inferInstanceAs (Decidable (s.ending = true → Quiet s))
  | .suspend | .destroy | .dispatch _ _ | .load _ | .handle _ | .resume _ | .return_ _ =>
    .isTrue trivial

def waitingTwo : Waiting Bool Unit Unit ℕ := { bus := {}, live := [] }

theorem waitingTwo_starts : Starts ['a'] waitingTwo :=
  ⟨{}, .start rfl, fun _ h ↦ (by cases h), by decide, by decide, rfl⟩

def raceToResume : List (WaitAction Bool Unit ℕ) :=
  [.suspend, .suspend, .suspend, .dispatch false waitMessage, .dispatch true waitMessage,
    .load false, .load true, .load false, .load true, .handle true, .resume true, .cleanup,
    .cleanup, .cleanup, .cleanup, .cleanup, .handle false]

theorem resumes_once_raceToResume : ∃ s : Waiting Bool Unit Unit ℕ,
    (machine Bool Unit Unit ℕ () ['a']).runIf EndsQuiet waitingTwo raceToResume = some s ∧
      s.history = [.resumed, .destroyed] ∧ s.history.count .resumed ≤ 1 ∧
        ∀ past future, s.history = past ++ .destroyed :: future → .resumed ∉ future := by
  refine ⟨_, rfl, rfl, ?_⟩
  have hs : (machine Bool Unit Unit ℕ () ['a']).Reaches EndsQuiet _ :=
    .of_runIf (.start waitingTwo_starts) raceToResume rfl
  exact resumes_once hs

def cancelTooLate : List (WaitAction Unit Unit ℕ) :=
  [.suspend, .suspend, .suspend, .dispatch () waitMessage, .load (), .load (), .destroy, .cleanup,
    .cleanup, .cleanup, .handle (), .resume ()]

theorem resumed_after_destructor : ∃ s : Waiting Unit Unit Unit ℕ,
    (machine Unit Unit Unit ℕ () ['a']).Reachable s ∧ s.history = [.destroyed, .resumed] :=
  ⟨_, Machine.Reaches.of_run (M := machine Unit Unit Unit ℕ () ['a']) waiting_starts
    cancelTooLate rfl, rfl⟩

end LivioArk.Msgbus.AsyncWait
