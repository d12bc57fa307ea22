import LivioArk.Msgbus.AtomicBus

namespace LivioArk.Msgbus.WeakBus

open Function LivioArk.Library.Transition LivioArk.Library.QueueLog
open LockFreeQueue MessageBus BusSteps

variable {Q R Pid μ : Type}

/-- A queue as the pipeline sees it: what has been put and taken, and what the
operation that a thread has called is going to return. -/
structure View (Pid μ : Type) where
  fifo : Fifo μ
  resp : Agent Pid → Option (Resp μ)

def View.empty : View Pid μ := ⟨.empty, fun _ ↦ none⟩

def failed : Req μ → Resp μ
  | .tryEnqueue _ => .enqueued false
  | .tryDequeue => .dequeued none

inductive ViewAction (Pid μ : Type)
  | thread (a : Local Pid μ)
  | exec (ag : Agent Pid)
  | fail (ag : Agent Pid)
  | ret (ag : Agent Pid)

namespace View

variable [DecidableEq Pid]

def answer (v : View Pid μ) (ag : Agent Pid) (r : Resp μ) : View Pid μ :=
  { v with resp := update v.resp ag (some r) }

/-- The operation takes effect: it succeeds, at any time before it returns. -/
def exec (v : View Pid μ) (ag : Agent Pid) (req : Req μ) : Option (View Pid μ) :=
  if v.resp ag = none then
    match req with
    | .tryEnqueue m => some ({ v with fifo := v.fifo.enqueue m }.answer ag (.enqueued true))
    | .tryDequeue =>
      match v.fifo.dequeue with
      | (fifo, some m) => some ({ v with fifo }.answer ag (.dequeued (some m)))
      | (_, none) => none
  else none

/-- The operation fails, for whatever reason. -/
def fail (v : View Pid μ) (ag : Agent Pid) (req : Req μ) : Option (View Pid μ) :=
  if v.resp ag = none then some (v.answer ag (failed req)) else none

def clear (v : View Pid μ) (ag : Agent Pid) : View Pid μ :=
  { v with resp := update v.resp ag none }

end View

def mapQ (f : Q → R) (s : Bus Q Pid μ) : Bus R Pid μ where
  queue_ := f s.queue_
  worker_queues_ i := f (s.worker_queues_ i)
  running_ := s.running_
  router_drained_ := s.router_drained_
  publish_mutex_ := s.publish_mutex_
  cv_not_full_mutex_ := s.cv_not_full_mutex_
  cv_not_full_ := s.cv_not_full_
  on_drop_ := s.on_drop_
  publishers := s.publishers
  loop := s.loop
  workers := s.workers
  stopper := s.stopper
  offered := s.offered
  results := s.results
  dropped := s.dropped
  callbacks := s.callbacks
  discarded := s.discarded
  taken := s.taken
  events := s.events
  accepted := s.accepted

variable {cfg : Config μ} (f : Q → R) (s : Bus Q Pid μ)

theorem mapQ_queue (qid : QueueId) : (mapQ f s).queue qid = f (s.queue qid) := by
  cases qid <;> rfl

theorem mapQ_setQueue (q : Q) (qid : QueueId) :
    (mapQ f s).setQueue (f q) qid = mapQ f (s.setQueue q qid) := by
  cases qid with
  | main => rfl
  | worker i =>
    have h : (fun j ↦ f (update s.worker_queues_ i q j)) =
        update (fun j ↦ f (s.worker_queues_ j)) i (f q) := by
      funext j
      by_cases hj : j = i
      · subst hj
        simp
      · simp [hj]
    simp only [Bus.setQueue, mapQ, h]

theorem queue_setQueue (s : Bus Q Pid μ) (q : Q) (qid : QueueId) :
    (s.setQueue q qid).queue qid = q := by
  cases qid with
  | main => rfl
  | worker i => exact update_self _ _ _

theorem setQueue_setQueue (s : Bus Q Pid μ) (q r : Q) (qid : QueueId) :
    (s.setQueue q qid).setQueue r qid = s.setQueue r qid := by
  cases qid with
  | main => rfl
  | worker i => simp only [Bus.setQueue, update_idem]

theorem request_setQueue (s : Bus Q Pid μ) (q : Q) (qid : QueueId) (ag : Agent Pid) :
    (s.setQueue q qid).request cfg ag = s.request cfg ag := by
  cases qid <;> cases ag <;> rfl

theorem mapQ_request (ag : Agent Pid) : (mapQ f s).request cfg ag = s.request cfg ag := by
  cases ag <;> rfl

theorem mapQ_workerStep (i : ℕ) :
    (mapQ f s).workerStep cfg i = (s.workerStep cfg i).map (mapQ f) := by
  unfold Bus.workerStep
  split
  · simp only [show (mapQ f s).workers = s.workers from rfl]
    cases s.workers i with
    | head phase => cases phase <;> rfl
    | _ => rfl
  · rfl

/-- The polls that decide that there is nothing left find an empty queue: the
drain of the loop, and the last loop of a worker. -/
def Exact (s : Bus (View Pid μ) Pid μ) : ViewAction Pid μ → Prop
  | .fail .loop => s.loop = .poll true → s.queue_.fifo.items = []
  | .fail (.worker i) => s.workers i = .poll .final → (s.worker_queues_ i).fifo.items = []
  | _ => True

def ofFifo (q : Fifo μ) : View Pid μ := ⟨q, fun _ ↦ none⟩

def weaken (s : Bus (Fifo μ) Pid μ) : Bus (View Pid μ) Pid μ := mapQ ofFifo s

theorem exact_fail {s : Bus (Fifo μ) Pid μ} {ag : Agent Pid} {qid : QueueId} {req : Req μ}
    (hreq : s.request cfg ag = some (qid, req))
    (hempty : req = .tryDequeue → (s.queue qid).items = []) : Exact (weaken s) (.fail ag) := by
  cases ag with
  | publisher p => trivial
  | loop =>
    intro hl
    have hl : s.loop = .poll true := hl
    simp only [Bus.request, hl, Option.some.injEq, Prod.mk.injEq] at hreq
    obtain ⟨rfl, rfl⟩ := hreq
    exact hempty rfl
  | worker i =>
    intro hw
    have hw : s.workers i = .poll .final := hw
    simp only [Bus.request, hw] at hreq
    split at hreq
    · simp only [Option.some.injEq, Prod.mk.injEq] at hreq
      obtain ⟨rfl, rfl⟩ := hreq
      exact hempty rfl
    · cases hreq

section Waking

variable [DecidableEq Pid]

theorem clear_answer (q : Fifo μ) (ag : Agent Pid) (r : Resp μ) :
    ((ofFifo q).answer ag r).clear ag = ofFifo q := by
  simp only [View.answer, View.clear, ofFifo, update_idem, update_eq_self]

theorem mapQ_goto (p : Pid) (pc : PubPc μ) : (mapQ f s).goto p pc = mapQ f (s.goto p pc) := rfl

theorem mapQ_notifyNotFull (waiter : Option Pid) :
    (mapQ f s).notifyNotFull cfg waiter = (s.notifyNotFull cfg waiter).map (mapQ f) := by
  have hone : ∀ w, (mapQ f s).notify_one w = (s.notify_one w).map (mapQ f) := by
    intro w
    cases w with
    | none =>
      simp only [Bus.notify_one]
      rw [apply_ite (Option.map (mapQ f))]
      rfl
    | some p =>
      simp only [Bus.notify_one]
      rw [apply_ite (Option.map (mapQ f))]
      rfl
  unfold Bus.notifyNotFull
  cases cfg.policy_ with
  | Block | BlockTimeout => exact hone waiter
  | _ =>
    simp only
    rw [apply_ite (Option.map (mapQ f))]
    rfl

theorem mapQ_loopStep (waiter : Option Pid) :
    (mapQ f s).loopStep cfg waiter = (s.loopStep cfg waiter).map (mapQ f) := by
  unfold Bus.loopStep
  simp only [mapQ_notifyNotFull, show (mapQ f s).loop = s.loop from rfl]
  cases s.loop with
  | notify drain m => cases s.notifyNotFull cfg waiter <;> rfl
  | _ => rfl

theorem mapQ_resume (ag : Agent Pid) (resp : Resp μ) :
    (mapQ f s).resume cfg ag resp = (s.resume cfg ag resp).map (mapQ f) := by
  cases ag with
  | publisher p =>
    simp only [Bus.resume, Bus.resumePublisher, show (mapQ f s).publishers = s.publishers from rfl]
    cases (s.publishers p).resume cfg.policy_ resp <;> rfl
  | loop =>
    simp only [Bus.resume, Bus.resumeLoop, show (mapQ f s).loop = s.loop from rfl]
    split <;> rfl
  | worker i =>
    simp only [Bus.resume, Bus.resumeWorker, show (mapQ f s).workers = s.workers from rfl]
    split <;> rfl

end Waking

variable [DecidableEq μ]

theorem mapQ_notify_drop (m : μ) : (mapQ f s).notify_drop m = mapQ f (s.notify_drop m) := by
  unfold Bus.notify_drop
  rw [apply_ite (mapQ f)]
  rfl

theorem mapQ_drop (m : μ) : (mapQ f s).drop m = mapQ f (s.drop m) := by
  simp only [Bus.drop, mapQ_notify_drop]
  rfl

variable [DecidableEq Pid]

theorem mapQ_publisherStep (p : Pid) :
    (mapQ f s).publisherStep cfg p = (s.publisherStep cfg p).map (mapQ f) := by
  unfold Bus.publisherStep
  simp only [mapQ_drop, mapQ_goto]
  simp only [show (mapQ f s).publishers = s.publishers from rfl]
  cases s.publishers p with
  | lockPublish m | lockWait m | relock m last =>
    simp only
    rw [apply_ite (Option.map (mapQ f))]
    rfl
  | _ => rfl

theorem mapQ_stopStep : (mapQ f s).stopStep cfg = (s.stopStep cfg).map (mapQ f) := by
  unfold Bus.stopStep
  simp only [show (mapQ f s).stopper = s.stopper from rfl]
  cases s.stopper with
  | idle | joinLoop =>
    simp only
    rw [apply_ite (Option.map (mapQ f))]
    rfl
  | joinWorker i =>
    by_cases hi : i < cfg.num_dispatchers_
    · simp only [if_pos hi]
      rw [apply_ite (Option.map (mapQ f))]
      rfl
    · simp only [if_neg hi]
      rfl
  | _ => rfl

/-- Steps that touch no queue do not see what the queues are. -/
theorem mapQ_localStep (a : Local Pid μ) :
    (mapQ f s).localStep cfg a = (s.localStep cfg a).map (mapQ f) := by
  cases a with
  | publish p mptr =>
    simp only [Bus.localStep, Bus.publish]
    rw [apply_ite (Option.map (mapQ f))]
    rfl
  | publisher p => exact mapQ_publisherStep f s p
  | timeout p =>
    simp only [Bus.localStep, Bus.timeout]
    rw [apply_ite (Option.map (mapQ f))]
    rfl
  | spurious p =>
    simp only [Bus.localStep, Bus.spurious]
    rw [apply_ite (Option.map (mapQ f))]
    rfl
  | start =>
    simp only [Bus.localStep, Bus.start]
    rw [apply_ite (Option.map (mapQ f))]
    rfl
  | loop waiter => exact mapQ_loopStep f s waiter
  | worker i => exact mapQ_workerStep f s i
  | stop => exact mapQ_stopStep f s

def step (cfg : Config μ) (s : Bus (View Pid μ) Pid μ) :
    ViewAction Pid μ → Option (Bus (View Pid μ) Pid μ)
  | .thread a => s.localStep cfg a
  | .exec ag =>
    (s.request cfg ag).bind fun (qid, req) ↦
      ((s.queue qid).exec ag req).map fun v ↦ s.setQueue v qid
  | .fail ag =>
    (s.request cfg ag).bind fun (qid, req) ↦
      ((s.queue qid).fail ag req).map fun v ↦ s.setQueue v qid
  | .ret ag =>
    (s.request cfg ag).bind fun (qid, _) ↦
      ((s.queue qid).resp ag).bind fun resp ↦
        (s.setQueue ((s.queue qid).clear ag) qid).resume cfg ag resp

/-- The bus over queues of which only this much is known: operations take
effect in some order between call and return, and may fail. -/
def machine (Pid : Type) [DecidableEq Pid] (cfg : Config μ) :
    Machine (Bus (View Pid μ) Pid μ) (ViewAction Pid μ) where
  init s := s = .initial .empty
  step := step cfg

section Atomic

/-- An atomic step is the effect of the operation and its return. -/
theorem ret_answer {s : Bus (Fifo μ) Pid μ} {ag : Agent Pid} {qid : QueueId} {req : Req μ}
    {q : Fifo μ} {resp : Resp μ} (hreq : s.request cfg ag = some (qid, req)) :
    step cfg ((weaken s).setQueue ((ofFifo q).answer ag resp) qid) (.ret ag) =
      ((s.setQueue q qid).resume cfg ag resp).map weaken := by
  simp only [step, request_setQueue, weaken, mapQ_request, hreq, Option.bind_some, queue_setQueue,
    clear_answer, setQueue_setQueue, mapQ_setQueue, mapQ_resume]
  simp only [View.answer, update_self, Option.bind_some]
  rfl

theorem weaken_queueStep {cap : ℕ} {s t : Bus (Fifo μ) Pid μ} {ag : Agent Pid}
    (h : AtomicBus.queueStep cfg cap s ag = some t) :
    Machine.Steps (machine Pid cfg) Exact (weaken s) (weaken t) := by
  simp only [AtomicBus.queueStep, Option.bind_eq_some_iff, Prod.exists] at h
  obtain ⟨qid, req, hreq, h⟩ := h
  have hqueue : (weaken s).queue qid = ofFifo (s.queue qid) := mapQ_queue _ _ _
  have hwreq : (weaken s).request cfg ag = some (qid, req) := by rw [weaken, mapQ_request, hreq]
  have finish : ∀ {q resp} {a : ViewAction Pid μ}, Exact (weaken s) a →
      step cfg (weaken s) a = some ((weaken s).setQueue ((ofFifo q).answer ag resp) qid) →
      (s.setQueue q qid).resume cfg ag resp = some t →
      Machine.Steps (machine Pid cfg) Exact (weaken s) (weaken t) := by
    intro q resp a ha hstep hres
    refine .cons ha hstep (.one (b := .ret ag) trivial ?_)
    have hret : step cfg ((weaken s).setQueue ((ofFifo q).answer ag resp) qid) (.ret ag) = _ :=
      ret_answer hreq
    rw [hres] at hret
    exact hret
  cases req with
  | tryEnqueue m =>
    by_cases hc : (s.queue qid).items.length < cap
    · rw [AtomicBus.exec_room hc] at h
      refine finish (a := .exec ag) trivial ?_ h
      simp only [step, hwreq, Option.bind_some, hqueue, View.exec, ofFifo, if_pos]
      rfl
    · rw [AtomicBus.exec_full hc] at h
      refine finish (a := .fail ag) (exact_fail hreq (by simp)) ?_ h
      simp only [step, hwreq, Option.bind_some, hqueue, View.fail, ofFifo, if_pos]
      rfl
  | tryDequeue =>
    cases hd : (s.queue qid).dequeue with
    | mk q value =>
      simp only [AtomicBus.exec, hd] at h
      cases value with
      | some m =>
        refine finish (a := .exec ag) trivial ?_ h
        simp only [step, hwreq, Option.bind_some, hqueue, View.exec, ofFifo, if_pos, hd]
        rfl
      | none =>
        obtain ⟨rfl, hempty⟩ := Fifo.dequeue_none hd
        refine finish (a := .fail ag) (exact_fail hreq fun _ ↦ hempty) ?_ h
        simp only [step, hwreq, Option.bind_some, hqueue, View.fail, ofFifo, if_pos]
        rfl

theorem weaken_step {cap : ℕ} {s t : Bus (Fifo μ) Pid μ} {a : AtomicBus.BusAction Pid μ}
    (h : AtomicBus.step cfg cap s a = some t) :
    Machine.Steps (machine Pid cfg) Exact (weaken s) (weaken t) := by
  cases a with
  | thread a =>
    refine .one (b := .thread a) trivial ?_
    have hm : (weaken s).localStep cfg a = (s.localStep cfg a).map weaken := mapQ_localStep _ _ _
    rw [show s.localStep cfg a = some t from h] at hm
    exact hm
  | queue ag => exact weaken_queueStep h

/-- The bus over atomic queues is a special case, with exact polls. -/
theorem weaken_reachable {capacity : ℕ} {s : Bus (Fifo μ) Pid μ}
    (h : (AtomicBus.machine Pid cfg capacity).Reachable s) :
    (machine Pid cfg).Reaches Exact (weaken s) := by
  refine Machine.Reaches.simulate (f := weaken) ?_ (fun _ _ _ _ _ _ ht ↦ weaken_step ht) h
  rintro s rfl
  rfl

end Atomic

end LivioArk.Msgbus.WeakBus
