import LivioArk.Msgbus.Acceptance

namespace LivioArk.Msgbus.Pipeline

open Function LivioArk.Library.Transition LivioArk.Library.QueueLog
open LockFreeQueue MessageBus BusSteps WeakBus Acceptance

variable {Pid μ : Type}

inductive Touch (cfg : Config μ) (v w : View Pid μ) : Prop
  | same : w.fifo = v.fifo → w.resp .loop = v.resp .loop → Touch cfg v w
  | put (m : μ) : w.fifo = v.fifo.enqueue m → w.resp .loop = v.resp .loop → Touch cfg v w
  | take (m : μ) : cfg.policy_ = .DropOldest → v.fifo.dequeue = (w.fifo, some m) →
    w.resp .loop = v.resp .loop → Touch cfg v w

variable [DecidableEq Pid]

inductive PipeStep (cfg : Config μ) (s : Pipeline (View Pid μ) μ) :
    Pipeline (View Pid μ) μ → Prop
  | idle : PipeStep cfg s s
  | publisher {v : View Pid μ} : Touch cfg s.queue_ v → PipeStep cfg s { s with queue_ := v }
  | start : s.loop = .unstarted →
    PipeStep cfg s { s with
      running_ := true
      loop := .head
      workers := if cfg.num_dispatchers_ = 1 then s.workers else fun _ ↦ .head .running }
  | loopHead : s.loop = .head → PipeStep cfg s { s with loop := .poll (!s.running_) }
  | notified {drain : Bool} {m : μ} : s.loop = .notify drain m →
    PipeStep cfg s { s with
      loop := if cfg.num_dispatchers_ = 1 then .begin drain m else .route drain m }
  | begin {drain : Bool} {m : μ} : s.loop = .begin drain m →
    PipeStep cfg s { s with loop := .dispatching drain m, events := s.events ++ [.begin 0 m] }
  | finish {drain : Bool} {m : μ} : s.loop = .dispatching drain m →
    PipeStep cfg s { s with loop := .next drain, events := s.events ++ [.finish 0 m] }
  | wokeWorker {drain : Bool} : s.loop = .wakeWorker drain →
    PipeStep cfg s { s with loop := .next drain }
  | loopTake {drain : Bool} {q : Fifo μ} {m : μ} : s.loop = .poll drain →
    s.queue_.resp .loop = none → s.queue_.fifo.dequeue = (q, some m) →
    PipeStep cfg s { s with
      queue_ := { s.queue_ with fifo := q }.answer .loop (.dequeued (some m)) }
  | loopFail {drain : Bool} : s.loop = .poll drain → s.queue_.resp .loop = none →
    (drain = true → s.queue_.fifo.items = []) →
    PipeStep cfg s { s with queue_ := s.queue_.answer .loop (.dequeued none) }
  | loopGot {drain : Bool} {m : μ} : s.loop = .poll drain →
    s.queue_.resp .loop = some (.dequeued (some m)) →
    PipeStep cfg s { s with
      queue_ := s.queue_.clear .loop, loop := .notify drain m, taken := s.taken ++ [m] }
  | loopNone {drain : Bool} : s.loop = .poll drain → s.queue_.resp .loop = some (.dequeued none) →
    PipeStep cfg s { s with
      queue_ := s.queue_.clear .loop, loop := if drain then .finished else .head }
  | routePut {drain : Bool} {m : μ} : s.loop = .route drain m →
    (s.worker_queues_ (cfg.worker m)).resp .loop = none →
    PipeStep cfg s { s with
      worker_queues_ := update s.worker_queues_ (cfg.worker m)
        ({ s.worker_queues_ (cfg.worker m) with
          fifo := (s.worker_queues_ (cfg.worker m)).fifo.enqueue m }.answer .loop
            (.enqueued true)) }
  | routeFail {drain : Bool} {m : μ} : s.loop = .route drain m →
    (s.worker_queues_ (cfg.worker m)).resp .loop = none →
    PipeStep cfg s { s with
      worker_queues_ := update s.worker_queues_ (cfg.worker m)
        ((s.worker_queues_ (cfg.worker m)).answer .loop (.enqueued false)) }
  | routed {drain : Bool} {m : μ} : s.loop = .route drain m →
    (s.worker_queues_ (cfg.worker m)).resp .loop = some (.enqueued true) →
    PipeStep cfg s { s with
      worker_queues_ := update s.worker_queues_ (cfg.worker m)
        ((s.worker_queues_ (cfg.worker m)).clear .loop)
      loop := .wakeWorker drain }
  | routeAgain {drain : Bool} {m : μ} : s.loop = .route drain m →
    (s.worker_queues_ (cfg.worker m)).resp .loop = some (.enqueued false) →
    PipeStep cfg s { s with
      worker_queues_ := update s.worker_queues_ (cfg.worker m)
        ((s.worker_queues_ (cfg.worker m)).clear .loop) }
  | workerHead {i : ℕ} : i < cfg.num_dispatchers_ → s.workers i = .head .running →
    PipeStep cfg s { s with
      workers := update s.workers i (if s.running_ then .poll .running else .head .awaiting) }
  | workerAwait {i : ℕ} : i < cfg.num_dispatchers_ → s.workers i = .head .awaiting →
    PipeStep cfg s { s with
      workers := update s.workers i (if s.router_drained_ then .poll .final else .poll .awaiting) }
  | workerBegin {i : ℕ} {phase : Phase} {m : μ} : i < cfg.num_dispatchers_ →
    s.workers i = .begin phase m →
    PipeStep cfg s { s with
      workers := update s.workers i (.dispatching phase m)
      events := s.events ++ [.begin i m] }
  | workerFinish {i : ℕ} {phase : Phase} {m : μ} : i < cfg.num_dispatchers_ →
    s.workers i = .dispatching phase m →
    PipeStep cfg s { s with
      workers := update s.workers i (.next phase)
      events := s.events ++ [.finish i m] }
  | workerTake {i : ℕ} {phase : Phase} {q : Fifo μ} {m : μ} : i < cfg.num_dispatchers_ →
    s.workers i = .poll phase → (s.worker_queues_ i).resp (.worker i) = none →
    (s.worker_queues_ i).fifo.dequeue = (q, some m) →
    PipeStep cfg s { s with
      worker_queues_ := update s.worker_queues_ i
        ({ s.worker_queues_ i with fifo := q }.answer (.worker i) (.dequeued (some m))) }
  | workerFail {i : ℕ} {phase : Phase} : i < cfg.num_dispatchers_ → s.workers i = .poll phase →
    (s.worker_queues_ i).resp (.worker i) = none →
    (phase = .final → (s.worker_queues_ i).fifo.items = []) →
    PipeStep cfg s { s with
      worker_queues_ := update s.worker_queues_ i
        ((s.worker_queues_ i).answer (.worker i) (.dequeued none)) }
  | workerGot {i : ℕ} {phase : Phase} {m : μ} : i < cfg.num_dispatchers_ →
    s.workers i = .poll phase →
    (s.worker_queues_ i).resp (.worker i) = some (.dequeued (some m)) →
    PipeStep cfg s { s with
      worker_queues_ := update s.worker_queues_ i ((s.worker_queues_ i).clear (.worker i))
      workers := update s.workers i (.begin phase m) }
  | workerNone {i : ℕ} {phase : Phase} : i < cfg.num_dispatchers_ → s.workers i = .poll phase →
    (s.worker_queues_ i).resp (.worker i) = some (.dequeued none) →
    PipeStep cfg s { s with
      worker_queues_ := update s.worker_queues_ i ((s.worker_queues_ i).clear (.worker i))
      workers := update s.workers i (if phase = .final then .finished else .head phase) }
  | stop {accepted : List μ} : s.stopper = .idle → s.running_ = true →
    accepted ⊆ s.queue_.fifo.put →
    PipeStep cfg s { s with running_ := false, stopper := .notifyAll, accepted }
  | notifyAll : s.stopper = .notifyAll → PipeStep cfg s { s with stopper := .joinLoop }
  | joinLoop : s.stopper = .joinLoop → s.loop = .finished →
    PipeStep cfg s { s with
      stopper := if cfg.num_dispatchers_ = 1 then .clear else .setDrained }
  | setDrained : s.stopper = .setDrained →
    PipeStep cfg s { s with router_drained_ := true, stopper := .joinWorker 0 }
  | joinWorker {i : ℕ} : s.stopper = .joinWorker i → i < cfg.num_dispatchers_ →
    s.workers i = .finished → PipeStep cfg s { s with stopper := .joinWorker (i + 1) }
  | joined {i : ℕ} : s.stopper = .joinWorker i → cfg.num_dispatchers_ ≤ i →
    PipeStep cfg s { s with stopper := .clear }
  | clear : s.stopper = .clear →
    PipeStep cfg s { s with router_drained_ := false, stopper := .returned }

variable {cfg : Config μ} {s t : Bus (View Pid μ) Pid μ}

theorem pipeStep_of_eq (h : pipeline t = pipeline s) : PipeStep cfg (pipeline s) (pipeline t) := by
  rw [h]
  exact .idle

theorem pipeStep_loop {waiter : Option Pid} (h : s.loopStep cfg waiter = some t) :
    PipeStep cfg (pipeline s) (pipeline t) := by
  unfold Bus.loopStep at h
  cases hl : s.loop with
  | head =>
    simp only [hl, Option.some.injEq] at h
    subst h
    exact .loopHead hl
  | notify drain m =>
    simp only [hl, Option.map_eq_some_iff] at h
    obtain ⟨u, hu, rfl⟩ := h
    have hp := (notifyNotFull_frame hu).2
    have hpipe : pipeline { u with
        loop := if cfg.num_dispatchers_ = 1 then .begin drain m else .route drain m } =
        { pipeline s with
          loop := if cfg.num_dispatchers_ = 1 then .begin drain m else .route drain m } := by
      rw [← hp]
      rfl
    rw [hpipe]
    exact .notified hl
  | begin drain m =>
    simp only [hl, Option.some.injEq] at h
    subst h
    exact .begin hl
  | dispatching drain m =>
    simp only [hl, Option.some.injEq] at h
    subst h
    exact .finish hl
  | wakeWorker drain =>
    simp only [hl, Option.some.injEq] at h
    subst h
    exact .wokeWorker hl
  | _ => simp only [hl] at h; cases h

theorem pipeStep_worker {i : ℕ} (h : s.workerStep cfg i = some t) :
    PipeStep cfg (pipeline s) (pipeline t) := by
  unfold Bus.workerStep at h
  split at h
  · rename_i hi
    cases hw : s.workers i with
    | head phase =>
      cases phase with
      | running =>
        simp only [hw, Option.some.injEq] at h
        subst h
        exact .workerHead hi hw
      | awaiting =>
        simp only [hw, Option.some.injEq] at h
        subst h
        exact .workerAwait hi hw
      | final => simp only [hw] at h; cases h
    | begin phase m =>
      simp only [hw, Option.some.injEq] at h
      subst h
      exact .workerBegin hi hw
    | dispatching phase m =>
      simp only [hw, Option.some.injEq] at h
      subst h
      exact .workerFinish hi hw
    | _ => simp only [hw] at h; cases h
  · cases h

theorem pipeStep_stop [DecidableEq μ] (hsent : Sent cfg s) (h : s.stopStep cfg = some t) :
    PipeStep cfg (pipeline s) (pipeline t) := by
  unfold Bus.stopStep at h
  cases hst : s.stopper with
  | idle =>
    simp only [hst] at h
    split at h
    · rename_i hr
      cases h
      exact .stop hst hr hsent.accepted_subset
    · cases h
      exact .idle
  | notifyAll =>
    simp only [hst, Option.some.injEq] at h
    subst h
    exact .notifyAll hst
  | joinLoop =>
    simp only [hst] at h
    split at h
    · rename_i hl
      cases h
      exact .joinLoop hst hl
    · cases h
  | setDrained =>
    simp only [hst, Option.some.injEq] at h
    subst h
    exact .setDrained hst
  | joinWorker i =>
    simp only [hst] at h
    split at h
    · rename_i hi
      split at h
      · rename_i hw
        cases h
        exact .joinWorker hst hi hw
      · cases h
    · rename_i hi
      cases h
      exact .joined hst (Nat.le_of_not_lt hi)
  | clear =>
    simp only [hst, Option.some.injEq] at h
    subst h
    exact .clear hst
  | returned => simp only [hst] at h; cases h

theorem pipeStep_local [DecidableEq μ] {a : Local Pid μ} (hsent : Sent cfg s)
    (h : s.localStep cfg a = some t) :
    PipeStep cfg (pipeline s) (pipeline t) := by
  cases a with
  | publish p mptr => exact pipeStep_of_eq (publish_cases h).2.2.1
  | publisher p =>
    obtain ⟨pc, -, hp, -⟩ := publisherStep_turn h
    exact pipeStep_of_eq hp
  | timeout p => exact pipeStep_of_eq (timeout_frame h).2
  | spurious p => exact pipeStep_of_eq (spurious_frame h).2
  | start =>
    simp only [Bus.localStep, Bus.start] at h
    split at h
    · rename_i hl
      cases h
      exact .start hl
    · cases h
  | loop waiter => exact pipeStep_loop h
  | worker i => exact pipeStep_worker h
  | stop => exact pipeStep_stop hsent h

section Requests

variable {ag : Agent Pid} {qid : QueueId} {req : Req μ}

/-- Only a publisher under `DropOldest` takes messages from the main queue. -/
theorem policy_of_dequeue {policy : FullPolicy} {pc : PubPc μ} (h : fits policy pc)
    (hr : pc.request = some .tryDequeue) : policy = .DropOldest := by
  cases pc with
  | takeOldest m => exact h
  | _ => cases hr

variable [DecidableEq μ]

theorem pipeStep_exec (hsent : Sent cfg s) (h : step cfg s (.exec ag) = some t) :
    PipeStep cfg (pipeline s) (pipeline t) := by
  simp only [step, Option.bind_eq_some_iff, Option.map_eq_some_iff, Prod.exists] at h
  obtain ⟨qid, req, hreq, w, hw, rfl⟩ := h
  obtain ⟨hr, hcase⟩ := exec_cases hw
  cases calls_of_request hreq with
  | @publisher p _ hp =>
    refine .publisher ?_
    rcases hcase with ⟨m, -, rfl⟩ | ⟨q, m, rfl, hq, rfl⟩
    · exact .put m rfl (answer_resp_ne _ (by simp))
    · exact .take m (policy_of_dequeue (hsent.fits p) hp) hq (answer_resp_ne _ (by simp))
  | poll hl =>
    rcases hcase with ⟨m, hm, -⟩ | ⟨q, m, -, hq, rfl⟩
    · cases hm
    · exact .loopTake hl hr hq
  | route hl =>
    rcases hcase with ⟨m, hm, rfl⟩ | ⟨q, m, hm, -, -⟩
    · cases hm
      exact .routePut hl hr
    · cases hm
  | worker hi hwk =>
    rcases hcase with ⟨m, hm, -⟩ | ⟨q, m, -, hq, rfl⟩
    · cases hm
    · exact .workerTake hi hwk hr hq

theorem pipeStep_fail (hok : Exact s (.fail ag)) (h : step cfg s (.fail ag) = some t) :
    PipeStep cfg (pipeline s) (pipeline t) := by
  simp only [step, Option.bind_eq_some_iff, Option.map_eq_some_iff, Prod.exists] at h
  obtain ⟨qid, req, hreq, w, hw, rfl⟩ := h
  obtain ⟨hr, rfl⟩ := fail_cases hw
  cases calls_of_request hreq with
  | publisher hp => exact .publisher (.same rfl (answer_resp_ne _ (by simp)))
  | poll hl => exact .loopFail hl hr fun hd ↦ hok (hd ▸ hl)
  | route hl => exact .routeFail hl hr
  | worker hi hwk => exact .workerFail hi hwk hr fun hp ↦ hok (hp ▸ hwk)

theorem pipeStep_ret (h : step cfg s (.ret ag) = some t) :
    PipeStep cfg (pipeline s) (pipeline t) := by
  simp only [step, Option.bind_eq_some_iff, Prod.exists] at h
  obtain ⟨qid, req, hreq, resp, hresp, h⟩ := h
  cases calls_of_request hreq with
  | publisher hp =>
    obtain ⟨pc, -, -, -, hp, -⟩ := resumePublisher_cases h
    rw [hp]
    exact .publisher (.same rfl (clear_resp_ne (by simp)))
  | @poll drain hl =>
    cases resp with
    | enqueued ok => simp [Bus.resume, Bus.resumeLoop, Bus.setQueue, hl] at h
    | dequeued value =>
      cases value with
      | some m =>
        simp only [Bus.resume, Bus.resumeLoop, Bus.setQueue, hl, Option.some.injEq] at h
        subst h
        exact .loopGot hl hresp
      | none =>
        simp only [Bus.resume, Bus.resumeLoop, Bus.setQueue, hl, Option.some.injEq] at h
        subst h
        exact .loopNone hl hresp
  | @route drain m hl =>
    cases resp with
    | enqueued ok =>
      cases ok with
      | true =>
        simp only [Bus.resume, Bus.resumeLoop, Bus.setQueue, hl, Option.some.injEq] at h
        subst h
        exact .routed hl hresp
      | false =>
        simp only [Bus.resume, Bus.resumeLoop, Bus.setQueue, hl, Option.some.injEq] at h
        subst h
        have hp := PipeStep.routeAgain (s := pipeline s) hl hresp
        simpa only [pipeline, hl, Bus.queue] using hp
    | dequeued value => simp [Bus.resume, Bus.resumeLoop, Bus.setQueue, hl] at h
  | @worker i phase hi hwk =>
    cases resp with
    | enqueued ok => simp [Bus.resume, Bus.resumeWorker, Bus.setQueue, hwk] at h
    | dequeued value =>
      cases value with
      | some m =>
        simp only [Bus.resume, Bus.resumeWorker, Bus.setQueue, hwk, Option.some.injEq] at h
        subst h
        exact .workerGot hi hwk hresp
      | none =>
        have hp := PipeStep.workerNone (s := pipeline s) hi hwk hresp
        cases phase <;>
          (simp only [Bus.resume, Bus.resumeWorker, Bus.setQueue, hwk, Option.some.injEq] at h
           subst h
           exact hp)

theorem pipeStep_of_step {a : ViewAction Pid μ} (hsent : Sent cfg s) (hok : Exact s a)
    (h : step cfg s a = some t) : PipeStep cfg (pipeline s) (pipeline t) := by
  cases a with
  | thread a => exact pipeStep_local hsent h
  | exec ag => exact pipeStep_exec hsent h
  | fail ag => exact pipeStep_fail hok h
  | ret ag => exact pipeStep_ret h

end Requests

end LivioArk.Msgbus.Pipeline
