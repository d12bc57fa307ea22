import LivioArk.Msgbus.Backpressure
import Mathlib.Data.Fintype.Basic

namespace LivioArk.Msgbus.LostWakeup

open Function LivioArk.Library.Transition LivioArk.Library.QueueLog
open LockFreeQueue MessageBus BusSteps AtomicBus Backpressure

variable {Q Pid μ : Type} {cfg : Config μ} {cap : ℕ}

/-- The publisher has been woken up or looks at its predicate. -/
def awake : PubPc μ → Bool
  | .relock _ _ | .checkRunning _ _ | .tryWaiting _ _ => true
  | _ => false

def asleep : PubPc μ → Bool
  | .park _ | .parked _ => true
  | _ => false

def committed : PubPc μ → Bool
  | .tryWaiting _ _ | .park _ | .parked _ => true
  | _ => false

/-- Between the dequeue and `notifyNotFull`. -/
def notifying : LoopPc μ → Bool
  | .notify _ _ => true
  | _ => false

/-- The waiting publishers of a running bus. Each free place of the queue has
somebody coming for it, for whom `awake` stands in the list, or a notification
that is still to be issued. -/
structure Waits (cap : ℕ) (s : Bus (Fifo μ) Pid μ) : Prop where
  points : ∀ p, fits .Block (s.publishers p)
  parked : ∀ p, p ∈ s.cv_not_full_ ↔ ∃ m, s.publishers p = .parked m
  nodup : s.cv_not_full_.Nodup
  running : s.running_ = true → s.loop ≠ .unstarted ∧ s.stopper = .idle
  quiet : s.loop = .unstarted ∨ s.stopper ≠ .idle ∧ s.stopper ≠ .notifyAll →
    ∀ p, committed (s.publishers p) = false
  unstarted : s.loop = .unstarted → s.stopper = .idle
  coming : s.running_ = true → (∃ p, asleep (s.publishers p) = true) →
    ∃ l : List Pid, l.Nodup ∧ (∀ p ∈ l, awake (s.publishers p) = true) ∧
      cap ≤ s.queue_.items.length + l.length + if notifying s.loop then 1 else 0

theorem waits_initial (cap : ℕ) : Waits cap (.initial .empty : Bus (Fifo μ) Pid μ) where
  points _ := trivial
  parked _ := by simp [Bus.initial]
  nodup := List.nodup_nil
  running h := by cases h
  quiet _ _ := rfl
  unstarted _ := rfl
  coming h := by cases h

theorem committed_of_asleep {pc : PubPc μ} (h : asleep pc = true) : committed pc = true := by
  cases pc <;> first | rfl | cases h

variable {s t : Bus (Fifo μ) Pid μ}

/-- A step that moves no publisher and gives the queue no more room than it
has notifications under way. -/
theorem Waits.frame (h : Waits cap s) (hpub : t.publishers = s.publishers)
    (hcv : t.cv_not_full_ = s.cv_not_full_)
    (hrun : t.running_ = true → s.running_ = true ∧ t.loop ≠ .unstarted ∧ t.stopper = .idle)
    (hquiet : t.loop = .unstarted ∨ t.stopper ≠ .idle ∧ t.stopper ≠ .notifyAll →
      s.loop = .unstarted ∨ s.stopper ≠ .idle ∧ s.stopper ≠ .notifyAll)
    (hun : t.loop = .unstarted → t.stopper = .idle)
    (hroom : s.running_ = true → (∃ p, asleep (s.publishers p) = true) →
      s.queue_.items.length + (if notifying s.loop then 1 else 0) ≤
        t.queue_.items.length + if notifying t.loop then 1 else 0) : Waits cap t where
  points := by rw [hpub]; exact h.points
  parked := by rw [hpub, hcv]; exact h.parked
  nodup := by rw [hcv]; exact h.nodup
  running hr := (hrun hr).2
  quiet hq := by rw [hpub]; exact h.quiet (hquiet hq)
  unstarted := hun
  coming hr hex := by
    rw [hpub] at hex ⊢
    obtain ⟨l, hnodup, hawake, hl⟩ := h.coming (hrun hr).1 hex
    have := hroom (hrun hr).1 hex
    exact ⟨l, hnodup, hawake, by omega⟩

theorem Waits.aside (h : Waits cap s) {queues : ℕ → Fifo μ} {workers : ℕ → WorkerPc μ}
    {events : List (Dispatch μ)} :
    Waits cap { s with worker_queues_ := queues, workers, events } :=
  h.frame rfl rfl (fun hr ↦ ⟨hr, h.running hr⟩) id h.unstarted fun _ _ ↦ le_rfl

/-- Nobody waits while the bus has not been started. -/
theorem Waits.start {workers : ℕ → WorkerPc μ} (h : Waits cap s) (hl : s.loop = .unstarted) :
    Waits cap { s with running_ := true, loop := .head, workers } where
  points := h.points
  parked := h.parked
  nodup := h.nodup
  running _ := ⟨by simp, h.unstarted hl⟩
  quiet _ := h.quiet (.inl hl)
  unstarted _ := h.unstarted hl
  coming _ hex := by
    obtain ⟨p, hp⟩ := hex
    have hc := h.quiet (.inl hl) p
    rw [committed_of_asleep hp] at hc
    cases hc

/-- The window of a lost `notify_one`: the predicate was false, the publisher
is not parked yet. -/
def parking : PubPc μ → Bool
  | .park _ => true
  | _ => false

/-- The window of a lost `notify_all`: the predicate has read `running_` as
true, the publisher is not parked yet. -/
def deciding : PubPc μ → Bool
  | .tryWaiting _ _ | .park _ => true
  | _ => false

/-- No notification is issued into its window. A `notify_one` that wakes up a
parked publisher does no harm. -/
def Heard (s : Bus (Fifo μ) Pid μ) : BusAction Pid μ → Prop
  | .thread (.loop _) =>
    notifying s.loop = true → s.cv_not_full_ = [] → ∀ p, parking (s.publishers p) = false
  | .thread .stop => s.stopper = .notifyAll → ∀ p, deciding (s.publishers p) = false
  | _ => True

instance [Fintype Pid] (s : Bus (Fifo μ) Pid μ) : DecidablePred (Heard s)
  | .thread (.loop _) => inferInstanceAs (Decidable
      (notifying s.loop = true → s.cv_not_full_ = [] → ∀ p, parking (s.publishers p) = false))
  | .thread .stop => inferInstanceAs (Decidable
      (s.stopper = .notifyAll → ∀ p, deciding (s.publishers p) = false))
  | .thread (.publish _ _) | .thread (.publisher _) | .thread (.timeout _)
  | .thread (.spurious _) | .thread .start | .thread (.worker _) | .queue _ => .isTrue trivial

variable [DecidableEq Pid] {p : Pid} {pc : PubPc μ}

theorem Waits.turn (h : Waits cap s) (hpub : t.publishers = update s.publishers p pc)
    (hf : fits .Block pc) (hcv : t.cv_not_full_ = s.cv_not_full_)
    (hpipe : pipeline t = { pipeline s with queue_ := t.queue_ })
    (hold : ∀ m, s.publishers p ≠ .parked m) (hnew : ∀ m, pc ≠ .parked m)
    (hcommit : committed pc = true → committed (s.publishers p) = true ∨ s.running_ = true)
    (hcoming : s.running_ = true → (∃ q, asleep (update s.publishers p pc q) = true) →
      ∃ l : List Pid, l.Nodup ∧ (∀ q ∈ l, awake (update s.publishers p pc q) = true) ∧
        cap ≤ t.queue_.items.length + l.length + if notifying s.loop then 1 else 0) :
    Waits cap t := by
  have hrun : t.running_ = s.running_ := congrArg Pipeline.running_ hpipe
  have hloop : t.loop = s.loop := congrArg Pipeline.loop hpipe
  have hstop : t.stopper = s.stopper := congrArg Pipeline.stopper hpipe
  refine ⟨?_, fun q ↦ ?_, ?_, ?_, fun hqt q ↦ ?_, ?_, ?_⟩
  · rw [hpub]; exact fits_update h.points hf
  · rw [hcv, h.parked, hpub]
    by_cases hqp : q = p
    · subst hqp
      rw [update_self]
      exact ⟨fun ⟨m, hm⟩ ↦ absurd hm (hold m), fun ⟨m, hm⟩ ↦ absurd hm (hnew m)⟩
    · rw [update_of_ne hqp]
  · rw [hcv]; exact h.nodup
  · rw [hrun, hloop, hstop]; exact h.running
  · rw [hloop, hstop] at hqt
    rw [hpub]
    by_cases hqp : q = p
    · subst hqp
      rw [update_self]
      by_contra hc
      rcases hcommit (Bool.not_eq_false _ ▸ hc) with hc | hc
      · rw [h.quiet hqt q] at hc
        cases hc
      · obtain ⟨hl, hs⟩ := h.running hc
        rcases hqt with hqt | hqt
        · exact hl hqt
        · exact hqt.1 hs
    · rw [update_of_ne hqp]
      exact h.quiet hqt q
  · rw [hloop, hstop]; exact h.unstarted
  · rw [hrun, hpub, hloop]; exact hcoming

theorem Waits.move (h : Waits cap s) (hpub : t.publishers = update s.publishers p pc)
    (hf : fits .Block pc) (hcv : t.cv_not_full_ = s.cv_not_full_)
    (hpipe : pipeline t = pipeline s) (hold : ∀ m, s.publishers p ≠ .parked m)
    (hnew : ∀ m, pc ≠ .parked m)
    (hcommit : committed pc = true → committed (s.publishers p) = true ∨ s.running_ = true)
    (hawake : s.running_ = true → awake (s.publishers p) = true → awake pc = true)
    (hasleep : asleep pc = true → asleep (s.publishers p) = true) : Waits cap t := by
  have hq : t.queue_ = s.queue_ := congrArg Pipeline.queue_ hpipe
  refine h.turn hpub hf hcv (by rw [hpipe, hq]; rfl) hold hnew hcommit fun hr hex ↦ ?_
  obtain ⟨q, hqa⟩ := hex
  have hq' : asleep (s.publishers q) = true := by
    by_cases hqp : q = p
    · subst hqp
      rw [update_self] at hqa
      exact hasleep hqa
    · rwa [update_of_ne hqp] at hqa
  obtain ⟨l, hnodup, hl, hroom⟩ := h.coming hr ⟨q, hq'⟩
  refine ⟨l, hnodup, fun u hu ↦ ?_, by rw [hq]; exact hroom⟩
  by_cases hup : u = p
  · subst hup
    rw [update_self]
    exact hawake hr (hl u hu)
  · rw [update_of_ne hup]
    exact hl u hu

theorem Waits.park {m : μ} (h : Waits cap s) (hpc : s.publishers p = .park m) :
    Waits cap { s.goto p (.parked m) with
      cv_not_full_mutex_ := none, cv_not_full_ := s.cv_not_full_ ++ [p] } where
  points := fits_update h.points (.inl rfl)
  parked q := by
    by_cases hqp : q = p
    · subst hqp
      simp [Bus.goto]
    · simp [Bus.goto, hqp, h.parked]
  nodup := by
    refine List.nodup_append_comm.mp (List.nodup_cons.mpr ⟨fun hp ↦ ?_, h.nodup⟩)
    obtain ⟨m', hm'⟩ := (h.parked p).mp hp
    rw [hpc] at hm'
    cases hm'
  running := h.running
  quiet hq q := by
    have hc : committed (s.publishers p) = false := h.quiet hq p
    rw [hpc] at hc
    cases hc
  unstarted := h.unstarted
  coming hr _ := by
    obtain ⟨l, hnodup, hl, hroom⟩ := h.coming hr ⟨p, by rw [hpc]; rfl⟩
    refine ⟨l, hnodup, fun q hq ↦ ?_, hroom⟩
    have hqa := hl q hq
    have hqp : q ≠ p := by
      rintro rfl
      rw [hpc] at hqa
      cases hqa
    simpa [Bus.goto, hqp] using hqa

theorem Waits.unpark {last : Bool} {loop : LoopPc μ} (h : Waits cap s) (hp : p ∈ s.cv_not_full_)
    (hloop : loop = s.loop ∨ s.loop ≠ .unstarted ∧ loop ≠ .unstarted) :
    Waits cap { s.unpark p last with loop } := by
  obtain ⟨m, hpc⟩ := (h.parked p).mp hp
  have hun : loop = .unstarted → s.loop = .unstarted := by
    rintro rfl
    rcases hloop with hl | hl
    · exact hl.symm
    · exact absurd rfl hl.2
  have hwoken : (s.publishers p).woken last = .relock m last := by rw [hpc]; rfl
  exact {
    points := fits_update h.points (fits_woken (h.points p))
    parked := fun q ↦ by
      by_cases hqp : q = p
      · subst hqp
        simp [Bus.unpark, hwoken, h.nodup.mem_erase_iff]
      · simp [Bus.unpark, hqp, h.nodup.mem_erase_iff, h.parked]
    nodup := h.nodup.erase p
    running := fun hr ↦ ⟨fun hl ↦ (h.running hr).1 (hun hl), (h.running hr).2⟩
    quiet := fun hq q ↦ by
      have hq' := h.quiet (hq.imp_left hun) q
      by_cases hqp : q = p
      · subst hqp
        simp [Bus.unpark, hwoken, committed]
      · simpa [Bus.unpark, hqp] using hq'
    unstarted := fun hl ↦ h.unstarted (hun hl)
    coming := fun hr _ ↦ by
      obtain ⟨l, hnodup, hl, hroom⟩ := h.coming hr ⟨p, by rw [hpc]; rfl⟩
      have hpl : p ∉ l := by
        intro hpl
        have := hl p hpl
        rw [hpc] at this
        cases this
      refine ⟨p :: l, List.nodup_cons.mpr ⟨hpl, hnodup⟩, fun q hq ↦ ?_, ?_⟩
      · by_cases hqp : q = p
        · subst hqp
          simp [Bus.unpark, hwoken, awake]
        · have hq' := hl q ((List.mem_cons.mp hq).resolve_left hqp)
          simpa [Bus.unpark, hqp] using hq'
      · have hone : (if notifying s.loop then 1 else 0) ≤ 1 := by split <;> omega
        simp only [Bus.unpark, List.length_cons] at hroom ⊢
        omega }

theorem Waits.notify_all {stopper : StopPc} (h : Waits cap s) (hs : s.stopper ≠ .idle)
    (hheard : ∀ p, deciding (s.publishers p) = false) :
    Waits cap { s.notify_all with stopper } := by
  have hrun : s.running_ = false := by
    by_contra hr
    exact hs (h.running (Bool.not_eq_false _ ▸ hr)).2
  have hun : s.loop ≠ .unstarted := fun hl ↦ hs (h.unstarted hl)
  have hcommit : ∀ p, committed (s.notify_all.publishers p) = false := by
    intro p
    simp only [Bus.notify_all]
    split
    · rename_i hp
      obtain ⟨m, hm⟩ := (h.parked p).mp hp
      rw [hm]
      rfl
    · rename_i hp
      cases hpc : s.publishers p with
      | parked m => exact absurd ((h.parked p).mpr ⟨m, hpc⟩) hp
      | park m | tryWaiting m last =>
        have := hheard p
        rw [hpc] at this
        cases this
      | _ => rfl
  exact {
    points := fun p ↦ (woken_notify_all (s := s)).fits (h.points p)
    parked := fun p ↦ by
      refine ⟨fun hp ↦ absurd hp List.not_mem_nil, fun hm ↦ ?_⟩
      obtain ⟨m, hm⟩ := hm
      have hc := hcommit p
      rw [show s.notify_all.publishers p = .parked m from hm] at hc
      cases hc
    nodup := List.nodup_nil
    running := fun hr ↦ by
      rw [show s.running_ = true from hr] at hrun
      cases hrun
    quiet := fun _ ↦ hcommit
    unstarted := fun hl ↦ absurd hl hun
    coming := fun hr ↦ by
      rw [show s.running_ = true from hr] at hrun
      cases hrun }

theorem Waits.publisherStep [DecidableEq μ] (h : Waits cap s)
    (hs : s.publisherStep cfg p = some t) : Waits cap t := by
  have hf := h.points p
  unfold Bus.publisherStep at hs
  cases hpc : s.publishers p with
  | lockWait m | relock m last =>
    simp only [hpc] at hs
    split at hs <;> cases hs
    exact h.move rfl (.inl rfl) rfl rfl (by simp [hpc]) (by simp) (by simp [committed])
      (by simp [awake]) (by simp [asleep])
  | checkRunning m last =>
    simp only [hpc, Option.some.injEq] at hs
    subst hs
    cases hr : s.running_ with
    | true =>
      exact h.move rfl (.inl rfl) rfl rfl (by simp [hpc]) (by simp) (fun _ ↦ .inr hr)
        (by simp [awake]) (by simp [asleep])
    | false =>
      exact h.move rfl (.inl rfl) rfl rfl (by simp [hpc]) (by simp) (by simp [committed])
        (by simp [hr]) (by simp [asleep])
  | park m =>
    simp only [hpc, Option.some.injEq] at hs
    subst hs
    exact h.park hpc
  | unlockWait m enqueued =>
    simp only [hpc, Option.some.injEq] at hs
    subst hs
    refine h.move rfl ?_ rfl rfl (by simp [hpc]) ?_ ?_ (by simp [hpc, awake]) ?_ <;>
      cases enqueued <;> simp [fits, committed, asleep]
  | wakeDispatcher m =>
    simp only [hpc, Option.some.injEq] at hs
    subst hs
    exact h.move rfl (.inl rfl) rfl rfl (by simp [hpc]) (by simp) (by simp [committed])
      (by simp [hpc, awake]) (by simp [asleep])
  | returning m result =>
    simp only [hpc, Option.some.injEq] at hs
    subst hs
    exact h.move rfl trivial rfl rfl (by simp [hpc]) (by simp) (by simp [committed])
      (by simp [hpc, awake]) (by simp [asleep])
  | notifyDrop m | lockPublish m | dropOldest m oldest => rw [hpc] at hf; cases hf
  | _ => simp only [hpc] at hs; cases hs

theorem Waits.enqueued {m : μ} (h : Waits cap s) (hgot : s.queue_.got ≤ s.queue_.put.length)
    (hpub : t.publishers = update s.publishers p pc) (hcv : t.cv_not_full_ = s.cv_not_full_)
    (hpipe : pipeline t = { pipeline s with queue_ := t.queue_ })
    (hq : t.queue_ = s.queue_.enqueue m) (hold : ∀ m, s.publishers p ≠ .parked m)
    (hf : fits .Block pc) (hnew : committed pc = false) : Waits cap t := by
  refine h.turn hpub hf hcv hpipe hold ?_ (by simp [hnew]) fun hr hex ↦ ?_
  · rintro m rfl
    cases hnew
  · obtain ⟨q, hqa⟩ := hex
    have hqp : q ≠ p := by
      rintro rfl
      rw [update_self] at hqa
      rw [committed_of_asleep hqa] at hnew
      cases hnew
    rw [update_of_ne hqp] at hqa
    obtain ⟨l, hnodup, hl, hroom⟩ := h.coming hr ⟨q, hqa⟩
    refine ⟨l.erase p, hnodup.erase p, fun u hu ↦ ?_, ?_⟩
    · obtain ⟨hup, hu⟩ := hnodup.mem_erase_iff.mp hu
      rw [update_of_ne hup]
      exact hl u hu
    · have hlen : l.length ≤ (l.erase p).length + 1 := by
        rw [List.length_erase]
        split <;> omega
      rw [hq, Fifo.items_enqueue hgot, List.length_append, List.length_singleton]
      omega

/-- A publisher finds the queue full: there is no place to come for. -/
theorem Waits.full (h : Waits cap s) (hfull : cap ≤ s.queue_.items.length)
    (hpub : t.publishers = update s.publishers p pc) (hcv : t.cv_not_full_ = s.cv_not_full_)
    (hpipe : pipeline t = pipeline s) (hold : ∀ m, s.publishers p ≠ .parked m)
    (hf : fits .Block pc) (hnew : ∀ m, pc ≠ .parked m)
    (hcommit : committed pc = true → committed (s.publishers p) = true) : Waits cap t := by
  have hq : t.queue_ = s.queue_ := congrArg Pipeline.queue_ hpipe
  refine h.turn hpub hf hcv (by rw [hpipe, hq]; rfl) hold hnew (fun hc ↦ .inl (hcommit hc))
    fun _ _ ↦ ⟨[], List.nodup_nil, by simp, ?_⟩
  rw [hq]
  omega

theorem Waits.publisherQueue (h : Waits cap s) (hgot : s.queue_.got ≤ s.queue_.put.length)
    (hp : cfg.policy_ = .Block) (hs : queueStep cfg cap s (.publisher p) = some t) :
    Waits cap t := by
  obtain ⟨pc, hpub, -, hpipe, -, hcv, hcase⟩ := queueStep_publisher hs
  have hfit := h.points p
  rcases hcase with ⟨m, -, -, hq, hres⟩ | ⟨hfull, hq, hres⟩ | ⟨-, -, hres⟩
  · have hf := fits_resume (hp ▸ hfit) hres
    rw [hp] at hf
    refine h.enqueued hgot hpub hcv hpipe hq (fun m hm ↦ ?_) hf ?_
    · rw [hm] at hres
      cases hres
    · cases hpc : s.publishers p <;> rw [hpc] at hres <;> cases hres <;> rfl
  · have hf := fits_resume (hp ▸ hfit) hres
    rw [hp] at hf hres
    have hpipe' : pipeline t = pipeline s := by rw [hpipe, hq]; rfl
    cases hpc : s.publishers p with
    | tryEnqueue m =>
      rw [hpc] at hres
      cases hres
      exact h.full hfull hpub hcv hpipe' (by simp [hpc]) hf (by simp) (by simp [committed])
    | tryWaiting m last =>
      rw [hpc] at hres
      cases hres
      refine h.full hfull hpub hcv hpipe' (by simp [hpc]) hf ?_ fun _ ↦ by rw [hpc]; rfl
      cases last <;> simp
    | tryDropping m =>
      rw [hpc] at hfit
      cases hfit
    | _ => rw [hpc] at hres; cases hres
  · obtain ⟨m, hpc, -, -⟩ := resume_dequeued hres
    rw [hpc] at hfit
    cases hfit

theorem Waits.loopStep {waiter : Option Pid} (h : Waits cap s) (hp : cfg.policy_ = .Block)
    (hok : Heard s (.thread (.loop waiter))) (hs : s.loopStep cfg waiter = some t) :
    Waits cap t := by
  unfold Bus.loopStep at hs
  have move : ∀ (events : List (Dispatch μ)) (loop : LoopPc μ), loop ≠ .unstarted →
      notifying s.loop = false → s.loop ≠ .unstarted → Waits cap { s with loop, events } := by
    intro events loop hl hn hsl
    refine h.frame rfl rfl (fun hr ↦ ⟨hr, hl, (h.running hr).2⟩) (.imp_left fun hq ↦ absurd hq hl)
      (fun hq ↦ absurd hq hl) fun _ _ ↦ ?_
    rw [hn]
    simp
  cases hl : s.loop with
  | head =>
    simp only [hl, Option.some.injEq] at hs
    subst hs
    exact move s.events _ (by simp) (by simp [hl, notifying]) (by simp [hl])
  | begin drain m | dispatching drain m =>
    simp only [hl, Option.some.injEq] at hs
    subst hs
    exact move _ _ (by cases drain <;> simp [LoopPc.next]) (by simp [hl, notifying]) (by simp [hl])
  | wakeWorker drain =>
    simp only [hl, Option.some.injEq] at hs
    subst hs
    exact move s.events _ (by cases drain <;> simp [LoopPc.next]) (by simp [hl, notifying])
      (by simp [hl])
  | notify drain m =>
    simp only [hl, Bus.notifyNotFull, hp, Option.map_eq_some_iff] at hs
    obtain ⟨u, hu, rfl⟩ := hs
    have hnext : (if cfg.num_dispatchers_ = 1 then LoopPc.begin drain m else .route drain m) ≠
        .unstarted := by split <;> simp
    cases waiter with
    | none =>
      simp only [Bus.notify_one] at hu
      split at hu
      · rename_i hcv
        cases hu
        refine h.frame rfl rfl (fun hr ↦ ⟨hr, hnext, (h.running hr).2⟩)
          (.imp_left fun hq ↦ absurd hq hnext) (fun hq ↦ absurd hq hnext) fun _ ⟨p, hpa⟩ ↦ ?_
        -- Nobody is parked, and nobody is about to park either.
        exfalso
        cases hpc : s.publishers p with
        | park m' =>
          have := hok (by rw [hl]; rfl) hcv p
          rw [hpc] at this
          cases this
        | parked m' =>
          have := (h.parked p).mpr ⟨m', hpc⟩
          rw [hcv] at this
          exact absurd this List.not_mem_nil
        | _ => rw [hpc] at hpa; cases hpa
      · cases hu
    | some p =>
      simp only [Bus.notify_one] at hu
      split at hu
      · rename_i hmem
        cases hu
        exact h.unpark hmem (.inr ⟨by simp [hl], hnext⟩)
      · cases hu
  | _ => simp only [hl] at hs; cases hs

section Step

variable [DecidableEq μ]

theorem Waits.stopStep (h : Waits cap s) (hok : Heard s (.thread .stop))
    (hs : s.stopStep cfg = some t) : Waits cap t := by
  unfold Bus.stopStep at hs
  have past : ∀ (drained : Bool) (stopper : StopPc), stopper ≠ .idle → s.stopper ≠ .idle →
      s.stopper ≠ .notifyAll → Waits cap { s with router_drained_ := drained, stopper } := by
    intro drained stopper hne hni hnn
    have hnr : s.running_ ≠ true := fun hr ↦ hni (h.running hr).2
    refine h.frame rfl rfl (fun hr ↦ absurd hr hnr) (fun _ ↦ .inr ⟨hni, hnn⟩)
      (fun hq ↦ absurd (h.unstarted hq) hni) fun hr ↦ absurd hr hnr
  cases hst : s.stopper with
  | idle =>
    simp only [hst] at hs
    split at hs
    · rename_i hr
      cases hs
      refine h.frame rfl rfl (fun hr ↦ by cases hr) ?_ (fun hq ↦ absurd hq (h.running hr).1)
        fun _ _ ↦ le_rfl
      rintro (hq | hq)
      · exact .inl hq
      · exact absurd rfl hq.2
    · cases hs
      exact h
  | notifyAll =>
    simp only [hst, Option.some.injEq] at hs
    subst hs
    exact h.notify_all (by simp [hst]) (hok hst)
  | joinLoop =>
    simp only [hst] at hs
    split at hs <;> cases hs
    exact past s.router_drained_ _ (by split <;> simp) (by simp [hst]) (by simp [hst])
  | setDrained =>
    simp only [hst, Option.some.injEq] at hs
    subst hs
    exact past _ _ (by simp) (by simp [hst]) (by simp [hst])
  | joinWorker i =>
    simp only [hst] at hs
    split at hs
    · split at hs <;> cases hs
      exact past s.router_drained_ _ (by simp) (by simp [hst]) (by simp [hst])
    · cases hs
      exact past s.router_drained_ _ (by simp) (by simp [hst]) (by simp [hst])
  | clear =>
    simp only [hst, Option.some.injEq] at hs
    subst hs
    exact past _ _ (by simp) (by simp [hst]) (by simp [hst])
  | returned => simp only [hst] at hs; cases hs

theorem Waits.localStep {a : Local Pid μ} (h : Waits cap s) (hp : cfg.policy_ = .Block)
    (hok : Heard s (.thread a)) (hs : s.localStep cfg a = some t) : Waits cap t := by
  cases a with
  | publish p mptr =>
    simp only [Bus.localStep, Bus.publish, hp] at hs
    split at hs
    · rename_i hidle
      cases hs
      exact h.move rfl (by simp [fits]) rfl rfl (by simp [hidle]) (by simp) (by simp [committed])
        (by simp [hidle, awake]) (by simp [asleep])
    · cases hs
  | publisher p => exact h.publisherStep hs
  | timeout p =>
    simp only [Bus.localStep, Bus.timeout, hp] at hs
    split at hs
    · rename_i hb
      cases hb.1
    · cases hs
  | spurious p =>
    simp only [Bus.localStep, Bus.spurious] at hs
    split at hs
    · rename_i hmem
      cases hs
      have hu : Waits cap { s.unpark p false with loop := s.loop } := h.unpark hmem (.inl rfl)
      exact hu
    · cases hs
  | start =>
    simp only [Bus.localStep, Bus.start] at hs
    split at hs
    · rename_i hl
      cases hs
      exact h.start hl
    · cases hs
  | loop waiter => exact h.loopStep hp hok hs
  | worker i =>
    simp only [Bus.localStep, Bus.workerStep] at hs
    split at hs
    · split at hs <;> cases hs <;> exact h.aside
    · cases hs
  | stop => exact h.stopStep hok hs

theorem Waits.step {act : BusAction Pid μ} (h : Waits cap s) (hp : cfg.policy_ = .Block)
    (hgot : s.queue_.got ≤ s.queue_.put.length) (hok : Heard s act)
    (hs : AtomicBus.step cfg cap s act = some t) : Waits cap t := by
  cases act with
  | thread a => exact h.localStep hp hok hs
  | queue ag =>
    cases ag with
    | publisher p => exact h.publisherQueue hgot hp hs
    | loop =>
      obtain ⟨-, hcase⟩ := queueStep_loop hs
      rcases hcase with ⟨drain, q, m, hl, hdeq, rfl⟩ | ⟨drain, hl, -, rfl⟩ |
        ⟨drain, m, hl, -, rfl⟩ | ⟨drain, m, -, rfl⟩
      · have hitems := (Fifo.dequeue_head hdeq).1
        refine h.frame rfl rfl (fun hr ↦ ⟨hr, by simp, (h.running hr).2⟩) (.imp_left (by simp))
          (by simp) fun _ _ ↦ ?_
        simp only [hl, notifying, hitems, List.length_cons]
        simp
      · have hne : (if drain then LoopPc.finished else LoopPc.head : LoopPc μ) ≠ .unstarted := by
          split <;> simp
        refine h.frame rfl rfl (fun hr ↦ ⟨hr, hne, (h.running hr).2⟩)
          (.imp_left fun hq ↦ absurd hq hne) (fun hq ↦ absurd hq hne) fun _ _ ↦ ?_
        simp [hl, notifying]
      · refine h.frame rfl rfl (fun hr ↦ ⟨hr, by simp, (h.running hr).2⟩) (.imp_left (by simp))
          (by simp) fun _ _ ↦ ?_
        simp [hl, notifying]
      · exact h
    | worker i =>
      obtain ⟨-, -, phase, -, hcase⟩ := queueStep_worker hs
      rcases hcase with ⟨q, m, -, rfl⟩ | ⟨-, rfl⟩
      · exact h.aside
      · exact h.aside

theorem waits_reaches {capacity : ℕ} (hp : cfg.policy_ = .Block)
    (h : (AtomicBus.machine Pid cfg capacity).Reaches Heard s) :
    Waits (storedCapacity capacity) s := by
  refine Machine.Reaches.invariant ?_ ?_ h
  · rintro s rfl
    exact waits_initial _
  · intro s act t hs hw hok ht
    obtain ⟨a, ha, hR⟩ := refines hs.reachable
    exact hw.step hp (hR.fifo ▸ (Accounts.inv_reachable ha).got_le) hok ht

end Step

/-- No blocked publisher is forgotten: while the bus runs, publishers sleep
only before a full queue, and when `stop` has returned nobody sleeps. -/
structure NobodyForgotten (cap : ℕ) (s : Bus (Fifo μ) Pid μ) : Prop where
  running : s.running_ = true → ∀ p ∈ s.cv_not_full_,
    (∀ q, q ≠ p → awake (s.publishers q) = false) → notifying s.loop = false →
      s.queue_.items.length = cap
  stopped : s.running_ = false → s.stopper = .returned → s.cv_not_full_ = []

/-- The notifications take no lock. Nobody is forgotten in a run in which none
of them falls between a failed predicate and the parking. -/
theorem nobody_forgotten [DecidableEq μ] {capacity : ℕ} (hp : cfg.policy_ = .Block)
    (h : (AtomicBus.machine Pid cfg capacity).Reaches Heard s) :
    NobodyForgotten (storedCapacity capacity) s := by
  have hw := waits_reaches hp h
  obtain ⟨a, ha, hR⟩ := refines h.reachable
  refine ⟨fun hr p hpcv hothers hn ↦ ?_, fun _ hst ↦ ?_⟩
  · obtain ⟨m, hm⟩ := (hw.parked p).mp hpcv
    obtain ⟨l, -, hl, hroom⟩ := hw.coming hr ⟨p, by rw [hm]; rfl⟩
    have hnil : l = [] := by
      refine List.eq_nil_iff_forall_not_mem.mpr fun q hq ↦ ?_
      have hqa := hl q hq
      by_cases hqp : q = p
      · rw [hqp, hm] at hqa
        cases hqa
      · rw [hothers q hqp] at hqa
        cases hqa
    have hb : s.queue_.items.length ≤ storedCapacity capacity := by
      rw [← hR.fifo]; exact (Accounts.inv_reachable ha).bounded
    rw [hnil, hn] at hroom
    simp only [List.length_nil, Bool.false_eq_true, if_false] at hroom
    omega
  · refine List.eq_nil_iff_forall_not_mem.mpr fun p hpcv ↦ ?_
    obtain ⟨m, hm⟩ := (hw.parked p).mp hpcv
    have hc := hw.quiet (.inr ⟨by simp [hst], by simp [hst]⟩) p
    rw [hm] at hc
    cases hc

def blockConfig : Config ℕ where
  policy_ := .Block
  num_dispatchers_ := 1
  num_dispatchers_pos := Nat.one_pos
  topic_id _ := 0
  hash := id
  has_on_drop _ := false

def fillUp : List (BusAction Unit ℕ) :=
  let put (m : ℕ) : List (BusAction Unit ℕ) := [.thread (.publish () m), .queue (.publisher ())]
  let next : BusAction Unit ℕ := .thread (.publisher ())
  .thread .start :: put 0 ++ [next, next] ++ put 1 ++ [next, next] ++
    put 2 ++ [next, next, .queue (.publisher ())]

def lostNotifyOne : List (BusAction Unit ℕ) :=
  fillUp ++ [.thread (.loop none), .queue .loop, .thread (.loop none), .thread (.publisher ())]

def lostNotifyAll : List (BusAction Unit ℕ) :=
  let drain : List (BusAction Unit ℕ) :=
    [.queue .loop, .thread (.loop none), .thread (.loop none), .thread (.loop none)]
  fillUp ++ [.thread .stop, .thread .stop, .thread (.loop none)] ++ drain ++ drain ++
    [.queue .loop, .thread .stop, .thread .stop, .thread (.publisher ())]

theorem forgotten_publisher :
    (∃ s, (AtomicBus.machine Unit blockConfig 2).run (.initial .empty) lostNotifyOne = some s ∧
      s.running_ = true ∧ s.cv_not_full_ = [()] ∧ notifying s.loop = false ∧
        s.queue_.items = [1] ∧ ¬ NobodyForgotten (storedCapacity 2) s) ∧
    ∃ s, (AtomicBus.machine Unit blockConfig 2).run (.initial .empty) lostNotifyAll = some s ∧
      s.running_ = false ∧ s.stopper = .returned ∧ s.cv_not_full_ = [()] ∧
        ¬ NobodyForgotten (storedCapacity 2) s := by
  refine ⟨⟨_, rfl, rfl, rfl, rfl, rfl, fun h ↦ ?_⟩, ⟨_, rfl, rfl, rfl, rfl, fun h ↦ ?_⟩⟩
  · exact absurd (h.running rfl () (by decide) (fun _ hq ↦ absurd rfl hq) rfl) (by decide)
  · exact absurd (h.stopped rfl rfl) (by decide)

def heardInTime : List (BusAction Unit ℕ) :=
  fillUp ++ [.thread (.publisher ()), .thread (.loop none), .queue .loop,
    .thread (.loop (some ())), .thread (.publisher ())]

theorem nobody_forgotten_handover : ∃ s,
    (AtomicBus.machine Unit blockConfig 2).runIf Heard (.initial .empty) heardInTime = some s ∧
      s.publishers () = .checkRunning 2 false ∧ NobodyForgotten (storedCapacity 2) s := by
  have h : (AtomicBus.machine Unit blockConfig 2).Reaches Heard _ :=
    .of_runIf (.start rfl) heardInTime rfl
  exact ⟨_, rfl, rfl, nobody_forgotten rfl h⟩

end LivioArk.Msgbus.LostWakeup
