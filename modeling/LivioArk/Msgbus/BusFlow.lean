import LivioArk.Msgbus.Shutdown

namespace LivioArk.Msgbus.BusFlow

open Function LivioArk.Library.Transition LivioArk.Library.QueueLog
open LockFreeQueue MessageBus BusSteps AtomicBus

variable {Pid μ : Type}

/-- The threads that serve the queues, and the one that calls `stop`. -/
inductive Thread
  | loop
  | worker (i : ℕ)
  | stop
  deriving DecidableEq

/-- The thread that takes a step. Publishers and the caller of `start` do not
matter here. -/
def doer : BusAction Pid μ → Option Thread
  | .thread (.loop _) | .queue .loop => some .loop
  | .thread (.worker i) | .queue (.worker i) => some (.worker i)
  | .thread .stop => some .stop
  | .thread (.publish _ _) | .thread (.publisher _) | .thread (.timeout _)
  | .thread (.spurious _) | .thread .start | .queue (.publisher _) => none

inductive Touch (q : Fifo μ) : Fifo μ → Prop
  | same : Touch q q
  | put (m : μ) : Touch q (q.enqueue m)
  | take : Touch q q.dequeue.1

/-- A step of the loop that does not go to a worker's queue: what becomes of the
main queue and of the loop, and what it adds to the two records. -/
inductive LoopFlow (cfg : Config μ) (running_ : Bool) (q : Fifo μ) :
    LoopPc μ → Fifo μ → LoopPc μ → List μ → List (Dispatch μ) → Prop
  | head : LoopFlow cfg running_ q .head q (.poll (!running_)) [] []
  | take {drain : Bool} {q' : Fifo μ} {m : μ} : q.dequeue = (q', some m) →
      LoopFlow cfg running_ q (.poll drain) q' (.notify drain m) [m] []
  | empty {drain : Bool} : q.items = [] →
      LoopFlow cfg running_ q (.poll drain) q (if drain then .finished else .head) [] []
  | notified {drain : Bool} {m : μ} : LoopFlow cfg running_ q (.notify drain m) q
      (if cfg.num_dispatchers_ = 1 then .begin drain m else .route drain m) [] []
  | begin {drain : Bool} {m : μ} :
      LoopFlow cfg running_ q (.begin drain m) q (.dispatching drain m) [] [.begin 0 m]
  | finish {drain : Bool} {m : μ} :
      LoopFlow cfg running_ q (.dispatching drain m) q (.next drain) [] [.finish 0 m]
  | woke {drain : Bool} : LoopFlow cfg running_ q (.wakeWorker drain) q (.next drain) [] []

inductive WorkerFlow (running_ router_drained_ : Bool) (i : ℕ) (q : Fifo μ) :
    WorkerPc μ → Fifo μ → WorkerPc μ → List (Dispatch μ) → Prop
  | head : WorkerFlow running_ router_drained_ i q (.head .running) q
      (if running_ then .poll .running else .head .awaiting) []
  | await : WorkerFlow running_ router_drained_ i q (.head .awaiting) q
      (if router_drained_ then .poll .final else .poll .awaiting) []
  | take {phase : Phase} {q' : Fifo μ} {m : μ} : q.dequeue = (q', some m) →
      WorkerFlow running_ router_drained_ i q (.poll phase) q' (.begin phase m) []
  | empty {phase : Phase} : q.items = [] →
      WorkerFlow running_ router_drained_ i q (.poll phase) q
        (if phase = .final then .finished else .head phase) []
  | begin {phase : Phase} {m : μ} : WorkerFlow running_ router_drained_ i q (.begin phase m) q
      (.dispatching phase m) [.begin i m]
  | finish {phase : Phase} {m : μ} : WorkerFlow running_ router_drained_ i q
      (.dispatching phase m) q (.next phase) [.finish i m]

inductive StopFlow (cfg : Config μ) (s : Pipeline (Fifo μ) μ) : Bool → Bool → StopPc → Prop
  | call : s.stopper = .idle → s.running_ = true →
      StopFlow cfg s false s.router_drained_ .notifyAll
  | notRunning : s.stopper = .idle → s.running_ = false →
      StopFlow cfg s s.running_ s.router_drained_ s.stopper
  | notifyAll : s.stopper = .notifyAll → StopFlow cfg s s.running_ s.router_drained_ .joinLoop
  | joinLoop : s.stopper = .joinLoop → s.loop = .finished → StopFlow cfg s s.running_
      s.router_drained_ (if cfg.num_dispatchers_ = 1 then .clear else .setDrained)
  | setDrained : s.stopper = .setDrained → StopFlow cfg s s.running_ true (.joinWorker 0)
  | joinWorker {i : ℕ} : s.stopper = .joinWorker i → i < cfg.num_dispatchers_ →
      s.workers i = .finished → StopFlow cfg s s.running_ s.router_drained_ (.joinWorker (i + 1))
  | joined {i : ℕ} : s.stopper = .joinWorker i → cfg.num_dispatchers_ ≤ i →
      StopFlow cfg s s.running_ s.router_drained_ .clear
  | clear : s.stopper = .clear → StopFlow cfg s s.running_ false .returned

inductive Flow (cfg : Config μ) (cap : ℕ) (s : Pipeline (Fifo μ) μ) :
    Option Thread → Pipeline (Fifo μ) μ → Prop
  | publisher {q : Fifo μ} : Touch s.queue_ q → Flow cfg cap s none { s with queue_ := q }
  | start : s.loop = .unstarted → Flow cfg cap s none { s with
      running_ := true
      loop := .head
      workers := if cfg.num_dispatchers_ = 1 then s.workers else fun _ ↦ .head .running }
  | loop {q : Fifo μ} {pc : LoopPc μ} {taken : List μ} {events : List (Dispatch μ)} :
      LoopFlow cfg s.running_ s.queue_ s.loop q pc taken events →
      Flow cfg cap s (some .loop) { s with
        queue_ := q
        loop := pc
        taken := s.taken ++ taken
        events := s.events ++ events }
  | route {drain : Bool} {m : μ} : s.loop = .route drain m →
      (s.worker_queues_ (cfg.worker m)).items.length < cap →
      Flow cfg cap s (some .loop) { s with
        worker_queues_ := update s.worker_queues_ (cfg.worker m)
          ((s.worker_queues_ (cfg.worker m)).enqueue m)
        loop := .wakeWorker drain }
  | full {drain : Bool} {m : μ} : s.loop = .route drain m →
      cap ≤ (s.worker_queues_ (cfg.worker m)).items.length → Flow cfg cap s (some .loop) s
  | worker {i : ℕ} {q : Fifo μ} {pc : WorkerPc μ} {events : List (Dispatch μ)} :
      i < cfg.num_dispatchers_ →
      WorkerFlow s.running_ s.router_drained_ i (s.worker_queues_ i) (s.workers i) q pc events →
      Flow cfg cap s (some (.worker i)) { s with
        worker_queues_ := update s.worker_queues_ i q
        workers := update s.workers i pc
        events := s.events ++ events }
  | stop {running_ router_drained_ : Bool} {stopper : StopPc} {accepted : List μ} :
      StopFlow cfg s running_ router_drained_ stopper →
      Flow cfg cap s (some .stop) { s with running_, router_drained_, stopper, accepted }

section Steps

variable {cfg : Config μ} {cap : ℕ} {s t : Bus (Fifo μ) Pid μ}

theorem Flow.of_touch {q : Fifo μ} (h : Touch s.queue_ q)
    (hp : pipeline t = { pipeline s with queue_ := q }) :
    Flow cfg cap (pipeline s) none (pipeline t) := by
  rw [hp]
  exact .publisher h

theorem Flow.of_loop {q : Fifo μ} {pc : LoopPc μ} (taken : List μ) (events : List (Dispatch μ))
    (h : LoopFlow cfg s.running_ s.queue_ s.loop q pc taken events)
    (hp : pipeline t = { pipeline s with
      queue_ := q, loop := pc, taken := s.taken ++ taken, events := s.events ++ events }) :
    Flow cfg cap (pipeline s) (some .loop) (pipeline t) := by
  rw [hp]
  exact .loop h

theorem Flow.of_worker {i : ℕ} {q : Fifo μ} {pc : WorkerPc μ} (events : List (Dispatch μ))
    (hi : i < cfg.num_dispatchers_)
    (h : WorkerFlow s.running_ s.router_drained_ i (s.worker_queues_ i) (s.workers i) q pc events)
    (hp : pipeline t = { pipeline s with
      worker_queues_ := update s.worker_queues_ i q
      workers := update s.workers i pc
      events := s.events ++ events }) :
    Flow cfg cap (pipeline s) (some (.worker i)) (pipeline t) := by
  rw [hp]
  exact .worker hi h

theorem Flow.of_stop {running_ router_drained_ : Bool} {stopper : StopPc} {accepted : List μ}
    (h : StopFlow cfg (pipeline s) running_ router_drained_ stopper)
    (hp : pipeline t = { pipeline s with running_, router_drained_, stopper, accepted }) :
    Flow cfg cap (pipeline s) (some .stop) (pipeline t) := by
  rw [hp]
  exact .stop h

theorem pipeline_worker {i : ℕ} {q : Fifo μ} {pc : WorkerPc μ} (hq : q = s.worker_queues_ i)
    (hp : pipeline t = { pipeline s with workers := update s.workers i pc }) :
    pipeline t = { pipeline s with
      worker_queues_ := update s.worker_queues_ i q
      workers := update s.workers i pc
      events := s.events ++ [] } := by
  rw [hp, hq, update_eq_self, List.append_nil]
  rfl

theorem workerStep_flow {i : ℕ} (h : s.workerStep cfg i = some t) :
    Flow cfg cap (pipeline s) (some (.worker i)) (pipeline t) := by
  rw [Bus.workerStep] at h
  split at h
  · rename_i hi
    cases hw : s.workers i with
    | head phase =>
      rw [hw] at h
      cases phase with
      | running =>
        obtain rfl := Option.some.inj h
        refine .of_worker [] hi ?_ (pipeline_worker rfl rfl)
        rw [hw]
        exact .head
      | awaiting =>
        obtain rfl := Option.some.inj h
        refine .of_worker [] hi ?_ (pipeline_worker rfl rfl)
        rw [hw]
        exact .await
      | final => cases h
    | begin phase m =>
      rw [hw] at h
      obtain rfl := Option.some.inj h
      refine .of_worker [.begin i m] hi (by rw [hw]; exact .begin) ?_
      rw [update_eq_self]
      rfl
    | dispatching phase m =>
      rw [hw] at h
      obtain rfl := Option.some.inj h
      refine .of_worker [.finish i m] hi (by rw [hw]; exact .finish) ?_
      rw [update_eq_self]
      rfl
    | unstarted | poll | finished =>
      rw [hw] at h
      cases h
  · cases h

variable [DecidableEq Pid]

theorem queueStep_route {drain : Bool} {m : μ} (hl : s.loop = .route drain m)
    (hroom : (s.worker_queues_ (cfg.worker m)).items.length < cap) :
    queueStep cfg cap s .loop = some { s with
      worker_queues_ := update s.worker_queues_ (cfg.worker m)
        ((s.worker_queues_ (cfg.worker m)).enqueue m)
      loop := .wakeWorker drain } := by
  simp only [queueStep, Bus.request, hl, Option.bind_some, Bus.queue, exec_room hroom,
    Bus.setQueue, Bus.resume, Bus.resumeLoop]

theorem queueStep_flow {ag : Agent Pid} (h : queueStep cfg cap s ag = some t) :
    Flow cfg cap (pipeline s) (doer (.queue ag : BusAction Pid μ)) (pipeline t) := by
  cases ag with
  | publisher p =>
    obtain ⟨pc, -, -, hp, -, -, hcases⟩ := queueStep_publisher h
    refine .of_touch ?_ hp
    rcases hcases with ⟨m, -, -, hq, -⟩ | ⟨-, hq, -⟩ | ⟨-, hq, -⟩
    · rw [hq]
      exact .put m
    · rw [hq]
      exact .same
    · rw [hq]
      exact .take
  | loop =>
    obtain ⟨-, ⟨drain, q, m, hl, hd, rfl⟩ | ⟨drain, hl, hi, rfl⟩ | ⟨drain, m, hl, hroom, rfl⟩ |
      ⟨drain, m, hl, rfl⟩⟩ := queueStep_loop h
    · refine .of_loop _ [] (by rw [hl]; exact .take hd) ?_
      rw [List.append_nil]
      rfl
    · refine .of_loop [] [] (by rw [hl]; exact .empty hi) ?_
      rw [List.append_nil, List.append_nil]
      rfl
    · exact .route hl hroom
    · refine .full hl (Nat.le_of_not_lt fun hroom ↦ ?_)
      rw [queueStep_route hl hroom] at h
      have hloop : LoopPc.wakeWorker drain = t.loop := congrArg Bus.loop (Option.some.inj h)
      rw [hl] at hloop
      cases hloop
  | worker i =>
    obtain ⟨-, hi, phase, hw, hcases⟩ := queueStep_worker h
    rcases hcases with ⟨q, m, hd, rfl⟩ | ⟨hi', rfl⟩
    · refine .of_worker [] hi (by rw [hw]; exact .take hd) ?_
      rw [List.append_nil]
      rfl
    · refine .of_worker [] hi ?_ (pipeline_worker rfl rfl)
      rw [hw]
      exact .empty hi'

theorem loopStep_flow {waiter : Option Pid} (h : s.loopStep cfg waiter = some t) :
    Flow cfg cap (pipeline s) (some .loop) (pipeline t) := by
  rw [Bus.loopStep] at h
  cases hl : s.loop with
  | head =>
    rw [hl] at h
    obtain rfl := Option.some.inj h
    refine .of_loop [] [] (by rw [hl]; exact .head) ?_
    rw [List.append_nil, List.append_nil]
    rfl
  | notify drain m =>
    rw [hl] at h
    obtain ⟨u, hu, rfl⟩ := Option.map_eq_some_iff.mp h
    refine .of_loop [] [] (by rw [hl]; exact .notified) ?_
    rw [List.append_nil, List.append_nil]
    exact congrArg (fun p : Pipeline (Fifo μ) μ ↦ { p with
      loop := if cfg.num_dispatchers_ = 1 then .begin drain m else .route drain m })
      (notifyNotFull_frame hu).2
  | begin drain m =>
    rw [hl] at h
    obtain rfl := Option.some.inj h
    refine .of_loop [] [.begin 0 m] (by rw [hl]; exact .begin) ?_
    rw [List.append_nil]
    rfl
  | dispatching drain m =>
    rw [hl] at h
    obtain rfl := Option.some.inj h
    refine .of_loop [] [.finish 0 m] (by rw [hl]; exact .finish) ?_
    rw [List.append_nil]
    rfl
  | wakeWorker drain =>
    rw [hl] at h
    obtain rfl := Option.some.inj h
    refine .of_loop [] [] (by rw [hl]; exact .woke) ?_
    rw [List.append_nil, List.append_nil]
    rfl
  | unstarted | poll | route | finished =>
    rw [hl] at h
    cases h

variable [DecidableEq μ]

theorem stopStep_flow (h : s.stopStep cfg = some t) :
    Flow cfg cap (pipeline s) (some .stop) (pipeline t) := by
  rw [Bus.stopStep] at h
  cases hst : s.stopper with
  | idle =>
    simp only [hst] at h
    split at h
    · rename_i hr
      obtain rfl := Option.some.inj h
      exact .of_stop (.call hst hr) rfl
    · rename_i hr
      obtain rfl := Option.some.inj h
      exact .of_stop (.notRunning hst (Bool.eq_false_of_not_eq_true hr)) rfl
  | notifyAll =>
    simp only [hst] at h
    obtain rfl := Option.some.inj h
    exact .of_stop (.notifyAll hst) rfl
  | joinLoop =>
    simp only [hst] at h
    split at h
    · rename_i hl
      obtain rfl := Option.some.inj h
      exact .of_stop (.joinLoop hst hl) rfl
    · cases h
  | setDrained =>
    simp only [hst] at h
    obtain rfl := Option.some.inj h
    exact .of_stop (.setDrained hst) rfl
  | joinWorker i =>
    simp only [hst] at h
    split at h
    · rename_i hi
      split at h
      · rename_i hw
        obtain rfl := Option.some.inj h
        exact .of_stop (.joinWorker hst hi hw) rfl
      · cases h
    · rename_i hi
      obtain rfl := Option.some.inj h
      exact .of_stop (.joined hst (Nat.le_of_not_lt hi)) rfl
  | clear =>
    simp only [hst] at h
    obtain rfl := Option.some.inj h
    exact .of_stop (.clear hst) rfl
  | returned =>
    simp only [hst] at h
    cases h

theorem step_flow {a : BusAction Pid μ} (h : AtomicBus.step cfg cap s a = some t) :
    Flow cfg cap (pipeline s) (doer a) (pipeline t) := by
  cases a with
  | queue ag => exact queueStep_flow h
  | thread a =>
    cases a with
    | publish p m => exact .of_touch .same (publish_cases h).2.2.1
    | publisher p =>
      obtain ⟨pc, -, hp, -⟩ := publisherStep_turn h
      exact .of_touch .same hp
    | timeout p => exact .of_touch .same (timeout_frame h).2
    | spurious p => exact .of_touch .same (spurious_frame h).2
    | start =>
      have h : s.start cfg = some t := h
      rw [Bus.start] at h
      split at h
      · rename_i hl
        obtain rfl := Option.some.inj h
        exact .start hl
      · cases h
    | loop waiter => exact loopStep_flow h
    | worker i => exact workerStep_flow h
    | stop => exact stopStep_flow h

end Steps

end LivioArk.Msgbus.BusFlow
