import LivioArk.Library.Fairness
import LivioArk.Msgbus.BusWork
import LivioArk.Msgbus.Capacity

namespace LivioArk.Msgbus.StopReturns

open Function LivioArk.Library.Transition LivioArk.Library.QueueLog
open LockFreeQueue MessageBus BusSteps AtomicBus WeakBus Shutdown BusFlow BusWork

variable {Pid μ : Type} {cfg : Config μ} {cap capacity : ℕ}

def joining : StopPc → Bool
  | .setDrained | .joinWorker _ => true
  | _ => false

structure Alive (cfg : Config μ) (s : Pipeline (Fifo μ) μ) : Prop where
  awake : cfg.num_dispatchers_ ≠ 1 → s.loop ≠ .unstarted → ∀ i, s.workers i ≠ .unstarted
  phase : ∀ i, s.workers i ≠ .head .final
  drained : ∀ i, s.stopper = .joinWorker i → s.router_drained_ = true
  several : joining s.stopper = true → cfg.num_dispatchers_ ≠ 1

section Alive

variable {s t : Pipeline (Fifo μ) μ} {who : Option Thread}

theorem loopFlow_started {running_ : Bool} {q q' : Fifo μ} {pc pc' : LoopPc μ} {taken : List μ}
    {events : List (Dispatch μ)} (h : LoopFlow cfg running_ q pc q' pc' taken events) :
    pc ≠ .unstarted := by
  cases h <;> exact fun he ↦ by cases he

theorem workerFlow_phase {running_ router_drained_ : Bool} {i : ℕ} {q q' : Fifo μ}
    {pc pc' : WorkerPc μ} {events : List (Dispatch μ)}
    (h : WorkerFlow running_ router_drained_ i q pc q' pc' events) :
    pc' ≠ .unstarted ∧ pc' ≠ .head .final := by
  cases h with
  | head | await => split <;> exact ⟨fun he ↦ (by cases he), fun he ↦ (by cases he)⟩
  | take | begin => exact ⟨fun he ↦ (by cases he), fun he ↦ (by cases he)⟩
  | @empty phase => cases phase <;> exact ⟨fun he ↦ (by cases he), fun he ↦ (by cases he)⟩
  | @finish phase => cases phase <;> exact ⟨fun he ↦ (by cases he), fun he ↦ (by cases he)⟩

theorem Alive.flow (h : Alive cfg s) (hf : Flow cfg cap s who t) : Alive cfg t := by
  cases hf with
  | publisher => exact ⟨h.awake, h.phase, h.drained, h.several⟩
  | start hl =>
    refine ⟨fun hN _ i ↦ ?_, fun i ↦ ?_, h.drained, h.several⟩
    · simp only [hN, if_false]
      exact fun he ↦ by cases he
    · split
      · exact h.phase i
      · exact fun he ↦ by cases he
  | loop hflow =>
    exact ⟨fun hN _ ↦ h.awake hN (loopFlow_started hflow), h.phase, h.drained, h.several⟩
  | route hl => exact ⟨fun hN _ ↦ h.awake hN (by rw [hl]; exact fun he ↦ by cases he), h.phase,
      h.drained, h.several⟩
  | full => exact h
  | @worker i q pc events hi hflow =>
    obtain ⟨hawake, hphase⟩ := workerFlow_phase hflow
    refine ⟨fun hN hl j ↦ ?_, fun j ↦ ?_, h.drained, h.several⟩
    · by_cases hj : j = i
      · rw [hj]
        simpa only [update_self] using hawake
      · simpa only [update_of_ne hj] using h.awake hN hl j
    · by_cases hj : j = i
      · rw [hj]
        simpa only [update_self] using hphase
      · simpa only [update_of_ne hj] using h.phase j
  | stop hflow =>
    refine ⟨h.awake, h.phase, fun i hi ↦ ?_, fun hj ↦ ?_⟩
    · cases hflow with
      | joinWorker hst => exact h.drained _ hst
      | setDrained => rfl
      | notRunning => exact h.drained i hi
      | joinLoop => split at hi <;> cases hi
      | _ => cases hi
    · cases hflow with
      | joinWorker hst => exact h.several (by rw [hst]; rfl)
      | setDrained hst => exact h.several (by rw [hst]; rfl)
      | notRunning => exact h.several hj
      | joinLoop =>
        split at hj
        · cases hj
        · assumption
      | _ => cases hj

end Alive

section Progress

variable {u v : Pipeline (Fifo μ) μ} {who : Option Thread}

def lagging (cfg : Config μ) (cap : ℕ) (s : Pipeline (Fifo μ) μ) : Thread :=
  match s.loop with
  | .route _ m =>
    if (s.worker_queues_ (cfg.worker m)).items.length < cap then .loop
    else .worker (cfg.worker m)
  | _ => .loop

def stopLeft (cfg : Config μ) : StopPc → ℕ
  | .idle => cfg.num_dispatchers_ + 6
  | .notifyAll => cfg.num_dispatchers_ + 5
  | .joinLoop => cfg.num_dispatchers_ + 4
  | .setDrained => cfg.num_dispatchers_ + 3
  | .joinWorker i => cfg.num_dispatchers_ - i + 2
  | .clear => 1
  | .returned => 0

theorem stopFlow_left {running_ router_drained_ : Bool} {stopper : StopPc}
    (h : StopFlow cfg u running_ router_drained_ stopper) (hstop : u.stopper ≠ .idle) :
    stopLeft cfg stopper < stopLeft cfg u.stopper := by
  cases h with
  | call hst | notRunning hst => exact absurd hst hstop
  | joinLoop hst =>
    rw [hst]
    split <;> simp only [stopLeft] <;> omega
  | joinWorker hst hi | joined hst hi | notifyAll hst | setDrained hst | clear hst =>
    rw [hst]
    simp only [stopLeft]
    omega

variable (cfg) in
theorem stopLeft_le (pc : StopPc) : stopLeft cfg pc ≤ cfg.num_dispatchers_ + 6 := by
  cases pc <;> simp only [stopLeft] <;> omega

theorem flow_stopper (h : Flow cfg cap u who v) (hstop : u.stopper ≠ .idle) :
    who = some .stop ∧ stopLeft cfg v.stopper < stopLeft cfg u.stopper ∨
      who ≠ some .stop ∧ v.stopper = u.stopper := by
  cases h with
  | stop hflow => exact .inl ⟨rfl, stopFlow_left hflow hstop⟩
  | _ => exact .inr ⟨fun he ↦ (by cases he), rfl⟩

theorem flow_over {th : Thread} (h : Flow cfg cap u (some th) v) (hl : u.loop = .finished)
    (hw : ∀ i < cfg.num_dispatchers_, u.workers i = .unstarted ∨ u.workers i = .finished)
    (hst : u.stopper = .returned) : False := by
  cases h with
  | loop hflow =>
    rw [hl] at hflow
    cases hflow
  | route hl' | full hl' =>
    rw [hl] at hl'
    cases hl'
  | worker hi hflow =>
    rcases hw _ hi with hw | hw
    · rw [hw] at hflow
      cases hflow
    · rw [hw] at hflow
      cases hflow
  | stop hflow =>
    cases hflow with
    | call hst' | notRunning hst' | notifyAll hst' | joinLoop hst' | setDrained hst'
    | joinWorker hst' | joined hst' | clear hst' =>
      rw [hst] at hst'
      cases hst'

theorem lagging_idle (h : Idle cfg cap u who v) : lagging cfg cap v = lagging cfg cap u := by
  simp only [lagging, h.loop, h.queues]

theorem lagging_works (h : Idle cfg cap u who v) (hcap : 0 < cap) :
    who ≠ some (lagging cfg cap u) := by
  intro hwho
  cases hl : u.loop with
  | route drain m =>
    by_cases hroom : (u.worker_queues_ (cfg.worker m)).items.length < cap
    · simp only [lagging, hl, if_pos hroom] at hwho
      obtain ⟨drain', m', hl', hfull⟩ := h.full hwho
      rw [hl] at hl'
      cases hl'
      exact absurd hroom (Nat.not_lt_of_le hfull)
    · simp only [lagging, hl, if_neg hroom] at hwho
      have hitems := (h.worker _ hwho).1
      rw [hitems] at hroom
      exact hroom hcap
  | _ =>
    simp only [lagging, hl] at hwho
    obtain ⟨drain', m', hl', -⟩ := h.full hwho
    rw [hl] at hl'
    cases hl'

variable [DecidableEq μ]

def blocker (cfg : Config μ) (cap : ℕ) (s : Pipeline (Fifo μ) μ) : Thread :=
  match s.stopper with
  | .joinLoop => if s.loop = .finished then .stop else lagging cfg cap s
  | .joinWorker i =>
    if i < cfg.num_dispatchers_ ∧ s.workers i ≠ .finished then .worker i else .stop
  | _ => .stop

theorem blocker_idle (h : Idle cfg cap u who v) (hwho : who ≠ some .stop) :
    blocker cfg cap v = blocker cfg cap u := by
  have hfinished : ∀ i, v.workers i ≠ .finished ↔ u.workers i ≠ .finished :=
    fun i ↦ not_congr (h.workers i)
  simp only [blocker, h.stopper hwho, h.loop, lagging_idle h]
  cases u.stopper <;> simp only [hfinished]

/-- Who `stop` waits for does not go round in circles. -/
theorem blocker_works (h : Idle cfg cap u who v) (hcap : 0 < cap) (hwho : who ≠ some .stop)
    (hrunning : u.running_ = false)
    (hdrained : ∀ i, u.stopper = .joinWorker i → u.router_drained_ = true) :
    who ≠ some (blocker cfg cap u) := by
  cases hst : u.stopper with
  | joinLoop =>
    simp only [blocker, hst]
    split
    · exact hwho
    · exact lagging_works h hcap
  | joinWorker i =>
    simp only [blocker, hst]
    split
    · intro he
      have hrun := (h.worker i he).2 (hdrained i hst)
      rw [hrunning] at hrun
      cases hrun
    · exact hwho
  | _ =>
    simp only [blocker, hst]
    exact hwho

end Progress

variable [DecidableEq Pid] {s t : Bus (Fifo μ) Pid μ}

theorem notifyNotFull_enabled (cfg : Config μ) (s : Bus (Fifo μ) Pid μ) :
    ∃ waiter t, s.notifyNotFull cfg waiter = some t := by
  have hone : ∃ waiter t, s.notify_one waiter = some t := by
    cases hcv : s.cv_not_full_ with
    | nil => exact ⟨none, s, by rw [Bus.notify_one, if_pos hcv]⟩
    | cons p ps =>
      refine ⟨some p, s.unpark p false, ?_⟩
      rw [Bus.notify_one, hcv, if_pos List.mem_cons_self]
  unfold Bus.notifyNotFull
  cases cfg.policy_ with
  | Block | BlockTimeout => exact hone
  | ReturnFalse | DropNewest | DropOldest => exact ⟨none, s, rfl⟩

variable [DecidableEq μ]

theorem alive (h : (AtomicBus.machine Pid cfg capacity).Reachable s) : Alive cfg (pipeline s) := by
  refine Machine.Reaches.invariant (P := fun s ↦ Alive cfg (pipeline s)) ?_ ?_ h
  · rintro s rfl
    refine ⟨fun _ hl ↦ absurd rfl hl, fun i hi ↦ (by cases hi), fun i hi ↦ (by cases hi),
      fun hj ↦ (by cases hj)⟩
  · intro s a t _ halive _ hst
    exact halive.flow (step_flow hst)

theorem closing (h : (AtomicBus.machine Pid cfg capacity).Reachable s) :
    Closing cfg (pipeline (weaken s)) :=
  closing_reachable (weaken_reachable h)

theorem phases (h : (AtomicBus.machine Pid cfg capacity).Reachable s) :
    Phases cfg s.running_ s.router_drained_ s.loop s.workers s.stopper :=
  (closing h).phases

/-- A worker that `stop` has waited for, or that was never started. -/
theorem at_rest (h : (AtomicBus.machine Pid cfg capacity).Reachable s) {i : ℕ}
    (hi : i < cfg.num_dispatchers_) (hpassed : passed i s.stopper) :
    s.workers i = .unstarted ∨ s.workers i = .finished := by
  by_cases hN : cfg.num_dispatchers_ = 1
  · exact .inl ((closing h).lanes.wired.single hN i)
  · exact .inr ((phases h).workers hN i hi hpassed)

theorem clear_rests (h : (AtomicBus.machine Pid cfg capacity).Reachable s) {i : ℕ}
    (hi : i < cfg.num_dispatchers_) (hclear : s.stopper = .clear) :
    s.workers i = .unstarted ∨ s.workers i = .finished := by
  refine at_rest h hi ?_
  rw [hclear]
  trivial

section Enabled

theorem loop_enabled (hu : s.loop ≠ .unstarted) (hf : s.loop ≠ .finished) :
    ∃ (a : BusAction Pid μ) (t : _), doer a = some .loop ∧ AtomicBus.step cfg cap s a = some t := by
  have hqueue : (queueStep cfg cap s .loop).isSome = true → ∃ (a : BusAction Pid μ) (t : _),
      doer a = some .loop ∧ AtomicBus.step cfg cap s a = some t := by
    intro h
    obtain ⟨t, ht⟩ := Option.isSome_iff_exists.mp h
    exact ⟨.queue .loop, t, rfl, ht⟩
  have hthread : ∀ waiter, (s.loopStep cfg waiter).isSome = true → ∃ (a : BusAction Pid μ) (t : _),
      doer a = some .loop ∧ AtomicBus.step cfg cap s a = some t := by
    intro waiter h
    obtain ⟨t, ht⟩ := Option.isSome_iff_exists.mp h
    exact ⟨.thread (.loop waiter), t, rfl, ht⟩
  cases hl : s.loop with
  | unstarted => exact absurd hl hu
  | finished => exact absurd hl hf
  | head | begin | dispatching | wakeWorker =>
    apply hthread none
    rw [Bus.loopStep, hl]
    rfl
  | notify drain m =>
    obtain ⟨waiter, u, hu⟩ := notifyNotFull_enabled cfg s
    apply hthread waiter
    rw [Bus.loopStep, hl]
    simp only [hu, Option.map_some, Option.isSome_some]
  | poll drain =>
    apply hqueue
    simp only [queueStep, Bus.request, hl, Option.bind_some, exec, Bus.queue, Bus.setQueue,
      Bus.resume, Bus.resumeLoop]
    cases s.queue_.dequeue.2 <;> rfl
  | route drain m =>
    apply hqueue
    by_cases hroom : (s.worker_queues_ (cfg.worker m)).items.length < cap
    · rw [queueStep_route hl hroom]
      rfl
    · simp only [queueStep, Bus.request, hl, Option.bind_some, Bus.queue, exec_full hroom,
        Bus.setQueue, Bus.resume, Bus.resumeLoop, Option.isSome_some]

theorem worker_enabled {i : ℕ} (hi : i < cfg.num_dispatchers_) (hu : s.workers i ≠ .unstarted)
    (hf : s.workers i ≠ .finished) (hphase : s.workers i ≠ .head .final) :
    ∃ (a : BusAction Pid μ) (t : _), doer a = some (.worker i) ∧
      AtomicBus.step cfg cap s a = some t := by
  have hthread : (s.workerStep cfg i).isSome = true → ∃ (a : BusAction Pid μ) (t : _),
      doer a = some (.worker i) ∧ AtomicBus.step cfg cap s a = some t := by
    intro h
    obtain ⟨t, ht⟩ := Option.isSome_iff_exists.mp h
    exact ⟨.thread (.worker i), t, rfl, ht⟩
  cases hw : s.workers i with
  | unstarted => exact absurd hw hu
  | finished => exact absurd hw hf
  | head phase =>
    cases phase with
    | final => exact absurd hw hphase
    | running | awaiting =>
      apply hthread
      rw [Bus.workerStep, if_pos hi, hw]
      rfl
  | begin | dispatching =>
    apply hthread
    rw [Bus.workerStep, if_pos hi, hw]
    rfl
  | poll phase =>
    have hqueue : (queueStep cfg cap s (.worker i)).isSome = true := by
      simp only [queueStep, Bus.request, if_pos hi, hw, Option.bind_some, exec, Bus.queue,
        Bus.setQueue, Bus.resume, Bus.resumeWorker]
      cases (s.worker_queues_ i).dequeue.2 <;> cases phase <;> rfl
    obtain ⟨t, ht⟩ := Option.isSome_iff_exists.mp hqueue
    exact ⟨.queue (.worker i), t, rfl, ht⟩

end Enabled

section Waiting

theorem storedCapacity_pos (capacity : ℕ) : 0 < storedCapacity capacity := by
  simp only [storedCapacity, roundUpPowerOf2]
  repeat' split
  all_goals omega

theorem lagging_enabled (h : (AtomicBus.machine Pid cfg capacity).Reachable s)
    (hu : s.loop ≠ .unstarted) (hf : s.loop ≠ .finished) :
    ∃ (a : BusAction Pid μ) (t : _), doer a = some (lagging cfg cap (pipeline s)) ∧
      AtomicBus.step cfg (storedCapacity capacity) s a = some t := by
  have hloop : (pipeline s).loop = s.loop := rfl
  cases hl : s.loop with
  | route drain m =>
    by_cases hroom : (s.worker_queues_ (cfg.worker m)).items.length < cap
    · have he : lagging cfg cap (pipeline s) = .loop := by
        simp only [lagging, hloop, hl]
        exact if_pos hroom
      rw [he]
      exact loop_enabled hu hf
    · have he : lagging cfg cap (pipeline s) = .worker (cfg.worker m) := by
        simp only [lagging, hloop, hl]
        exact if_neg hroom
      have hN : cfg.num_dispatchers_ ≠ 1 := by
        have hsuits : Lanes.suits cfg.num_dispatchers_ s.loop := (closing h).lanes.wired.suits
        rwa [hl] at hsuits
      have halive := alive h
      rw [he]
      refine worker_enabled (worker_lt cfg m) (halive.awake hN hu _) (fun hw ↦ ?_)
        (halive.phase _)
      exact hf ((phases h).final (cfg.worker m) (by rw [hw]; rfl))
  | _ =>
    have he : lagging cfg cap (pipeline s) = .loop := by simp only [lagging, hloop, hl]
    rw [he]
    exact loop_enabled hu hf

theorem stop_enabled (hs : ∃ t, s.stopStep cfg = some t) :
    ∃ (a : BusAction Pid μ) (t : _), doer a = some .stop ∧ AtomicBus.step cfg cap s a = some t := by
  obtain ⟨t, ht⟩ := hs
  exact ⟨.thread .stop, t, rfl, ht⟩

theorem blocker_enabled (h : (AtomicBus.machine Pid cfg capacity).Reachable s)
    (hstop : s.stopper ≠ .idle) (hreturned : s.stopper ≠ .returned) :
    ∃ (a : BusAction Pid μ) (t : _),
      doer a = some (blocker cfg (storedCapacity capacity) (pipeline s)) ∧
        AtomicBus.step cfg (storedCapacity capacity) s a = some t := by
  have hstopper : (pipeline s).stopper = s.stopper := rfl
  have hu : s.loop ≠ .unstarted := fun hl ↦ hstop ((phases h).idle hl)
  cases hst : s.stopper with
  | idle => exact absurd hst hstop
  | returned => exact absurd hst hreturned
  | notifyAll | setDrained | clear =>
    simp only [blocker, hstopper, hst]
    apply stop_enabled
    simp only [Bus.stopStep, hst]
    exact ⟨_, rfl⟩
  | joinLoop =>
    by_cases hl : s.loop = .finished
    · have he : blocker cfg (storedCapacity capacity) (pipeline s) = .stop := by
        simp only [blocker, hstopper, hst]
        exact if_pos hl
      rw [he]
      apply stop_enabled
      simp only [Bus.stopStep, hst, if_pos hl]
      exact ⟨_, rfl⟩
    · have he : blocker cfg (storedCapacity capacity) (pipeline s) =
          lagging cfg (storedCapacity capacity) (pipeline s) := by
        simp only [blocker, hstopper, hst]
        exact if_neg hl
      rw [he]
      exact lagging_enabled h hu hl
  | joinWorker i =>
    by_cases hi : i < cfg.num_dispatchers_ ∧ s.workers i ≠ .finished
    · have he : blocker cfg (storedCapacity capacity) (pipeline s) = .worker i := by
        simp only [blocker, hstopper, hst]
        exact if_pos hi
      have halive := alive h
      have hN : cfg.num_dispatchers_ ≠ 1 := halive.several (by rw [hstopper, hst]; rfl)
      rw [he]
      exact worker_enabled hi.1 (halive.awake hN hu i) hi.2 (halive.phase i)
    · have he : blocker cfg (storedCapacity capacity) (pipeline s) = .stop := by
        simp only [blocker, hstopper, hst]
        exact if_neg hi
      rw [he]
      apply stop_enabled
      simp only [Bus.stopStep, hst]
      split
      · rename_i hlt
        have hw : s.workers i = .finished := by
          by_contra hne
          exact hi ⟨hlt, hne⟩
        exact ⟨_, if_pos hw⟩
      · exact ⟨_, rfl⟩

/-- Once `stop` has been called nothing goes round in circles that it waits for. -/
theorem busy_stopping (h : (AtomicBus.machine Pid cfg capacity).Reachable s)
    (hstop : s.stopper ≠ .idle) {k : ℕ} (hput : s.queue_.put.length ≤ k) :
    Busy cfg k (pipeline s) where
  started hl := hstop ((phases h).idle hl)
  room drain hl hitems := by
    have hlt : s.queue_.got < s.queue_.put.length := by
      by_contra hge
      exact hitems (Fifo.items_eq_nil_iff.mpr (Nat.le_of_not_lt hge))
    exact Nat.lt_of_lt_of_le hlt hput
  polled _ := by
    refine .inl (Bool.eq_false_of_not_eq_true fun hr ↦ ?_)
    exact hstop ((phases h).running.mp hr).2
  rest hclear _ hi := clear_rests h hi hclear

/-- In every run in which the threads get their turns and only so many messages
are put into the queue, `stop` returns. -/
theorem stop_returns (b : Behaviour (AtomicBus.machine Pid cfg capacity))
    (hfair : ∀ th, b.Fair fun a ↦ doer a = some th) {k : ℕ}
    (hput : ∀ n, (b.state n).queue_.put.length ≤ k) {n : ℕ}
    (hcalled : (b.state n).stopper ≠ .idle) : ∃ m ≥ n, (b.state m).stopper = .returned := by
  have hcap := storedCapacity_pos capacity
  refine b.eventually
    (P := fun s ↦ (AtomicBus.machine Pid cfg capacity).Reachable s ∧ s.stopper ≠ .idle ∧
      s.queue_.put.length ≤ k)
    (Q := fun s ↦ s.stopper = .returned) (fun th a ↦ doer a = some th)
    (fun s ↦ blocker cfg (storedCapacity capacity) (pipeline s))
    (fun s ↦ work cfg k (pipeline s) + stopLeft cfg s.stopper) (fun _ _ _ ↦ hfair _) ?_ ?_ ?_
  · rintro s ⟨h, hstop, -⟩ hreturned
    exact blocker_enabled h hstop hreturned
  · rintro s a t ⟨h, hstop, hput⟩ - - hst
    have hflow := step_flow hst
    have hbusy := busy_stopping h hstop hput
    have hrunning : s.running_ = false :=
      Bool.eq_false_of_not_eq_true fun hr ↦ hstop ((phases h).running.mp hr).2
    rcases flow_stopper hflow hstop with ⟨-, hless⟩ | ⟨hwho, hstopper⟩
    · have hle : work cfg k (pipeline t) ≤ work cfg k (pipeline s) := by
        rcases flow_work hflow hbusy with hless | ⟨hle, -⟩
        · exact Nat.le_of_lt hless
        · exact hle
      exact .inr (.inl (Nat.add_lt_add_of_le_of_lt hle hless))
    · have hstopper : t.stopper = s.stopper := hstopper
      rw [hstopper]
      rcases flow_work hflow hbusy with hless | ⟨hle, hidle⟩
      · exact .inr (.inl (Nat.add_lt_add_right hless _))
      · rcases Nat.lt_or_eq_of_le hle with hless | heq
        · exact .inr (.inl (Nat.add_lt_add_right hless _))
        · refine .inr (.inr ⟨by rw [heq], blocker_idle hidle hwho, ?_⟩)
          exact blocker_works hidle hcap hwho hrunning (alive h).drained
  · intro m hm
    refine ⟨b.reachable m, ?_, hput m⟩
    refine b.stable (P := fun s ↦ s.stopper ≠ .idle) (fun s a t _ hstop hst ↦ ?_) hcalled m hm
    rcases flow_stopper (step_flow hst) hstop with ⟨-, hless⟩ | ⟨-, hstopper⟩
    · intro hidle
      have hle := stopLeft_le cfg s.stopper
      have hless : stopLeft cfg t.stopper < stopLeft cfg s.stopper := hless
      rw [hidle] at hless
      exact absurd hle (Nat.not_le_of_lt hless)
    · exact fun hidle ↦ hstop (hstopper.symm.trans hidle)

/-- After that no thread of the bus moves. -/
theorem returned_rests (h : (AtomicBus.machine Pid cfg capacity).Reachable s)
    (hreturned : s.stopper = .returned) {th : Thread} {a : BusAction Pid μ}
    (ha : doer a = some th) : AtomicBus.step cfg (storedCapacity capacity) s a = none := by
  have hl : s.loop = .finished := (phases h).joined (by rw [hreturned]; rfl)
  have hw : ∀ i < cfg.num_dispatchers_, s.workers i = .unstarted ∨ s.workers i = .finished := by
    intro i hi
    refine at_rest h hi ?_
    rw [hreturned]
    trivial
  cases hst : AtomicBus.step cfg (storedCapacity capacity) s a with
  | none => rfl
  | some t =>
    have hflow := step_flow hst
    rw [ha] at hflow
    exact (flow_over hflow hl hw hreturned).elim

/-- A run that ends when `stop` has returned is fair to every thread of the bus. -/
theorem fair_returned (hs : (AtomicBus.machine Pid cfg capacity).init s)
    {as : List (BusAction Pid μ)} (hrun : (AtomicBus.machine Pid cfg capacity).run s as = some t)
    (hreturned : t.stopper = .returned) (th : Thread) :
    (Behaviour.ofRun hs hrun).Fair fun a ↦ doer a = some th :=
  Behaviour.fair_ofRun hs hrun fun _ ha ↦
    returned_rests (Machine.Reaches.of_run hs as hrun) hreturned ha

end Waiting

/-- `stop` is called while messages are under way, and comes to its end. -/
theorem stop_returns_stopped :
    ∃ b : Behaviour (AtomicBus.machine Bool Ordering.twoWorkersConfig 2),
      (b.state 28).stopper = .notifyAll ∧ ∃ m ≥ 28, (b.state m).stopper = .returned := by
  have hrun : ((AtomicBus.machine Bool Ordering.twoWorkersConfig 2).run (.initial .empty)
      stopped).map (fun s ↦ (s.stopper, s.queue_.put.length)) = some (.returned, 2) := rfl
  obtain ⟨t, ht, he⟩ := Option.map_eq_some_iff.mp hrun
  obtain ⟨hstopper, hput⟩ := Prod.mk.inj he
  have hstart : (AtomicBus.machine Bool Ordering.twoWorkersConfig 2).init (.initial .empty) := rfl
  have hstate : ∀ n < stopped.length,
      ((AtomicBus.machine Bool Ordering.twoWorkersConfig 2).trail (.initial .empty) stopped
        n).queue_.put.length ≤ 2 := by
    decide +kernel
  refine ⟨.ofRun hstart ht, rfl, stop_returns (.ofRun hstart ht) (k := 2)
    (fair_returned hstart ht hstopper) (fun n ↦ ?_) (n := 28) (fun he ↦ by cases he)⟩
  rcases Nat.lt_or_ge n stopped.length with hn | hn
  · exact hstate n hn
  · have hend : (Behaviour.ofRun hstart ht).state n = t := Machine.trail_end ht hn
    rw [hend]
    exact Nat.le_of_eq hput

end LivioArk.Msgbus.StopReturns
