import LivioArk.Library.QueueLog
import LivioArk.Msgbus.BusSteps

namespace LivioArk.Msgbus.AtomicBus

open Function LivioArk.Library.Transition LivioArk.Library.QueueLog
open LockFreeQueue MessageBus BusSteps

variable {Pid μ : Type}

def exec (cap : ℕ) (q : Fifo μ) : Req μ → Fifo μ × Resp μ
  | .tryEnqueue m =>
    if q.items.length < cap then (q.enqueue m, .enqueued true) else (q, .enqueued false)
  | .tryDequeue => (q.dequeue.1, .dequeued q.dequeue.2)

theorem exec_room {cap : ℕ} {q : Fifo μ} {m : μ} (h : q.items.length < cap) :
    exec cap q (.tryEnqueue m) = (q.enqueue m, .enqueued true) := if_pos h

theorem exec_full {cap : ℕ} {q : Fifo μ} {m : μ} (h : ¬ q.items.length < cap) :
    exec cap q (.tryEnqueue m) = (q, .enqueued false) := if_neg h

inductive BusAction (Pid μ : Type)
  | thread (a : Local Pid μ)
  | queue (ag : Agent Pid)

variable [DecidableEq Pid]

/-- A whole queue operation is one step of the thread that calls it. -/
def queueStep (cfg : Config μ) (cap : ℕ) (s : Bus (Fifo μ) Pid μ) (ag : Agent Pid) :
    Option (Bus (Fifo μ) Pid μ) :=
  (s.request cfg ag).bind fun (qid, req) ↦
    let (q, resp) := exec cap (s.queue qid) req
    (s.setQueue q qid).resume cfg ag resp

variable {cfg : Config μ} {cap : ℕ} {s t : Bus (Fifo μ) Pid μ}

/-- A queue operation of a publisher: it puts its message, finds the queue
full, takes the oldest message or finds the queue empty. -/
theorem queueStep_publisher {p : Pid} (h : queueStep cfg cap s (.publisher p) = some t) :
    ∃ pc, t.publishers = update s.publishers p pc ∧ ledger t = ledger s ∧
      pipeline t = { pipeline s with queue_ := t.queue_ } ∧
      t.publish_mutex_ = s.publish_mutex_ ∧ t.cv_not_full_ = s.cv_not_full_ ∧
      ((∃ m, (s.publishers p).request = some (.tryEnqueue m) ∧ s.queue_.items.length < cap ∧
          t.queue_ = s.queue_.enqueue m ∧
          (s.publishers p).resume cfg.policy_ (.enqueued true) = some pc) ∨
        (cap ≤ s.queue_.items.length ∧ t.queue_ = s.queue_ ∧
          (s.publishers p).resume cfg.policy_ (.enqueued false) = some pc) ∨
        ((s.publishers p).request = some .tryDequeue ∧ t.queue_ = s.queue_.dequeue.1 ∧
          (s.publishers p).resume cfg.policy_ (.dequeued s.queue_.dequeue.2) = some pc)) := by
  simp only [queueStep, Option.bind_eq_some_iff, Bus.request, Option.map_eq_some_iff,
    Prod.exists, Prod.mk.injEq] at h
  obtain ⟨_, _, ⟨req, hreq, rfl, rfl⟩, h⟩ := h
  obtain ⟨pc, hpc, hpub, hl, hp, hm, hcv⟩ := resumePublisher_cases h
  refine ⟨pc, hpub, hl, ?_, hm, hcv, ?_⟩
  · rw [hp, show t.queue_ = (exec cap s.queue_ req).1 from congrArg Pipeline.queue_ hp]
    rfl
  · have hq : t.queue_ = (exec cap s.queue_ req).1 := congrArg Pipeline.queue_ hp
    have hpc : (s.publishers p).resume cfg.policy_ (exec cap s.queue_ req).2 = some pc := hpc
    cases req with
    | tryEnqueue m =>
      by_cases hc : s.queue_.items.length < cap
      · rw [exec_room hc] at hq hpc
        exact .inl ⟨m, hreq, hc, hq, hpc⟩
      · rw [exec_full hc] at hq hpc
        exact .inr (.inl ⟨by omega, hq, hpc⟩)
    | tryDequeue => exact .inr (.inr ⟨hreq, hq, hpc⟩)

/-- A queue operation of the loop: it takes a message, finds the queue empty,
or hands its message over to a worker. -/
theorem queueStep_loop (h : queueStep cfg cap s .loop = some t) :
    Woken s t ∧
      ((∃ drain q m, s.loop = .poll drain ∧ s.queue_.dequeue = (q, some m) ∧
          t = { s with queue_ := q, loop := .notify drain m, taken := s.taken ++ [m] }) ∨
        (∃ drain, s.loop = .poll drain ∧ s.queue_.items = [] ∧
          t = { s with loop := if drain then .finished else .head }) ∨
        (∃ drain m, s.loop = .route drain m ∧
          (s.worker_queues_ (cfg.worker m)).items.length < cap ∧
          t = { s with
            worker_queues_ := update s.worker_queues_ (cfg.worker m)
              ((s.worker_queues_ (cfg.worker m)).enqueue m)
            loop := .wakeWorker drain }) ∨
        (∃ drain m, s.loop = .route drain m ∧ t = s)) := by
  simp only [queueStep, Option.bind_eq_some_iff, Bus.request, Prod.exists] at h
  obtain ⟨qid, req, hreq, h⟩ := h
  cases hl : s.loop with
  | poll drain =>
    simp only [hl, Option.some.injEq, Prod.mk.injEq] at hreq
    obtain ⟨rfl, rfl⟩ := hreq
    simp only [exec, Bus.queue, Bus.setQueue, Bus.resume, Bus.resumeLoop, hl] at h
    cases hd : s.queue_.dequeue with
    | mk q value =>
      cases value with
      | some m =>
        simp only [hd, Option.some.injEq] at h
        subst h
        exact ⟨woken_of_eq rfl rfl rfl rfl, .inl ⟨drain, q, m, rfl, rfl, rfl⟩⟩
      | none =>
        obtain ⟨rfl, hi⟩ := Fifo.dequeue_none hd
        simp only [hd, Option.some.injEq] at h
        subst h
        exact ⟨woken_of_eq rfl rfl rfl rfl, .inr (.inl ⟨drain, rfl, hi, rfl⟩)⟩
  | route drain m =>
    simp only [hl, Option.some.injEq, Prod.mk.injEq] at hreq
    obtain ⟨rfl, rfl⟩ := hreq
    simp only [Bus.queue, Bus.setQueue, Bus.resume, Bus.resumeLoop, hl] at h
    by_cases hc : (s.worker_queues_ (cfg.worker m)).items.length < cap
    · simp only [exec_room hc, Option.some.injEq] at h
      subst h
      exact ⟨woken_of_eq rfl rfl rfl rfl, .inr (.inr (.inl ⟨drain, m, rfl, hc, rfl⟩))⟩
    · simp only [exec_full hc, update_eq_self, Option.some.injEq] at h
      subst h
      exact ⟨woken_of_eq rfl rfl rfl rfl, .inr (.inr (.inr ⟨drain, m, rfl, by rw [← hl]⟩))⟩
  | _ => simp only [hl] at hreq; cases hreq

/-- A queue operation of a worker: it takes a message or finds its queue empty. -/
theorem queueStep_worker {i : ℕ} (h : queueStep cfg cap s (.worker i) = some t) :
    Woken s t ∧ i < cfg.num_dispatchers_ ∧ ∃ phase, s.workers i = .poll phase ∧
      ((∃ q m, (s.worker_queues_ i).dequeue = (q, some m) ∧
          t = { s with
            worker_queues_ := update s.worker_queues_ i q
            workers := update s.workers i (.begin phase m) }) ∨
        ((s.worker_queues_ i).items = [] ∧
          t = { s with
            workers := update s.workers i
              (if phase = .final then .finished else .head phase) })) := by
  simp only [queueStep, Option.bind_eq_some_iff, Bus.request, Prod.exists] at h
  obtain ⟨qid, req, hreq, h⟩ := h
  by_cases hi : i < cfg.num_dispatchers_
  · simp only [if_pos hi] at hreq
    cases hw : s.workers i with
    | poll phase =>
      simp only [hw, Option.some.injEq, Prod.mk.injEq] at hreq
      obtain ⟨rfl, rfl⟩ := hreq
      simp only [exec, Bus.queue, Bus.setQueue, Bus.resume, Bus.resumeWorker, hw] at h
      cases hd : (s.worker_queues_ i).dequeue with
      | mk q value =>
        cases value with
        | some m =>
          simp only [hd, Option.some.injEq] at h
          subst h
          exact ⟨woken_of_eq rfl rfl rfl rfl, hi, phase, rfl, .inl ⟨q, m, rfl, rfl⟩⟩
        | none =>
          obtain ⟨rfl, hn⟩ := Fifo.dequeue_none hd
          simp only [hd, update_eq_self] at h
          cases phase <;>
            (simp only [Option.some.injEq] at h
             subst h
             exact ⟨woken_of_eq rfl rfl rfl rfl, hi, _, rfl, .inr ⟨hn, rfl⟩⟩)
    | _ => simp only [hw] at hreq; cases hreq
  · simp only [if_neg hi] at hreq
    cases hreq

variable [DecidableEq μ]

def step (cfg : Config μ) (cap : ℕ) (s : Bus (Fifo μ) Pid μ) :
    BusAction Pid μ → Option (Bus (Fifo μ) Pid μ)
  | .thread a => s.localStep cfg a
  | .queue ag => queueStep cfg cap s ag

def machine (Pid : Type) [DecidableEq Pid] (cfg : Config μ) (capacity : ℕ) :
    Machine (Bus (Fifo μ) Pid μ) (BusAction Pid μ) where
  init s := s = .initial .empty
  step := step cfg (storedCapacity capacity)

end LivioArk.Msgbus.AtomicBus
