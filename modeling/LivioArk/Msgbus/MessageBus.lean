import LivioArk.Msgbus.LockFreeQueue

namespace LivioArk.Msgbus.MessageBus

open Function LockFreeQueue

inductive FullPolicy
  | ReturnFalse
  | DropOldest
  | DropNewest
  | Block
  | BlockTimeout
  deriving DecidableEq

/-- The constructor's arguments, and what a message is as far as the threads
look at it. One element of `μ` stands for one `TypedMessage` in one life. The
constructor replaces a requested number of 0 dispatchers by at least 1. -/
structure Config (μ : Type) where
  policy_ : FullPolicy
  num_dispatchers_ : ℕ
  num_dispatchers_pos : 0 < num_dispatchers_
  topic_id : μ → ℕ
  hash : ℕ → ℕ
  has_on_drop : μ → Bool

def Config.worker {μ : Type} (cfg : Config μ) (msg : μ) : ℕ :=
  cfg.hash (cfg.topic_id msg) % cfg.num_dispatchers_

variable {Q Pid μ : Type}

/-- Where a publisher stands in `enqueueMessage`. Under `DropOldest` the first
attempt and the retry loop run through the same three points. -/
inductive PubPc (μ : Type)
  | idle
  | tryEnqueue (mptr : μ)
  | notifyDrop (mptr : μ)
  | lockPublish (mptr : μ)
  | tryDropping (mptr : μ)
  | takeOldest (mptr : μ)
  | dropOldest (mptr oldest : μ)
  | lockWait (mptr : μ)
  | checkRunning (mptr : μ) (last : Bool)
  | tryWaiting (mptr : μ) (last : Bool)
  | park (mptr : μ)
  | parked (mptr : μ)
  | relock (mptr : μ) (last : Bool)
  | unlockWait (mptr : μ) (enqueued : Bool)
  | wakeDispatcher (mptr : μ)
  | returning (mptr : μ) (result : Bool)
  deriving DecidableEq

/-- Where the consumer of the main queue stands: `dispatchLoop` with one
dispatcher, `routerLoop` with several. `drain` tells the second loop. -/
inductive LoopPc (μ : Type)
  | unstarted
  | head
  | poll (drain : Bool)
  | notify (drain : Bool) (msg : μ)
  | begin (drain : Bool) (msg : μ)
  | dispatching (drain : Bool) (msg : μ)
  | route (drain : Bool) (msg : μ)
  | wakeWorker (drain : Bool)
  | finished
  deriving DecidableEq

inductive Phase
  | running
  | awaiting
  | final
  deriving DecidableEq

inductive WorkerPc (μ : Type)
  | unstarted
  | head (phase : Phase)
  | poll (phase : Phase)
  | begin (phase : Phase) (msg : μ)
  | dispatching (phase : Phase) (msg : μ)
  | finished
  deriving DecidableEq

inductive StopPc
  | idle
  | notifyAll
  | joinLoop
  | setDrained
  | joinWorker (i : ℕ)
  | clear
  | returned
  deriving DecidableEq

/-- A call of `dispatchMessage` begins or returns. The only dispatcher of a
single-dispatcher bus counts as worker 0. -/
inductive Dispatch (μ : Type)
  | begin (worker : ℕ) (msg : μ)
  | finish (worker : ℕ) (msg : μ)
  deriving DecidableEq

/-- The threads of one bus and what they share. `Q` is the representation of a
queue. The fields from `offered` on record what has happened. -/
structure Bus (Q Pid μ : Type) where
  queue_ : Q
  worker_queues_ : ℕ → Q
  running_ : Bool
  router_drained_ : Bool
  publish_mutex_ : Option Pid
  cv_not_full_mutex_ : Option Pid
  cv_not_full_ : List Pid
  on_drop_ : μ → Bool
  publishers : Pid → PubPc μ
  loop : LoopPc μ
  workers : ℕ → WorkerPc μ
  stopper : StopPc
  offered : List μ
  results : List (μ × Bool)
  dropped : List μ
  callbacks : List μ
  discarded : Pid → ℕ
  taken : List μ
  events : List (Dispatch μ)
  accepted : List μ

def Bus.initial (q : Q) : Bus Q Pid μ where
  queue_ := q
  worker_queues_ _ := q
  running_ := false
  router_drained_ := false
  publish_mutex_ := none
  cv_not_full_mutex_ := none
  cv_not_full_ := []
  on_drop_ _ := false
  publishers _ := .idle
  loop := .unstarted
  workers _ := .unstarted
  stopper := .idle
  offered := []
  results := []
  dropped := []
  callbacks := []
  discarded _ := 0
  taken := []
  events := []
  accepted := []

inductive Agent (Pid : Type)
  | publisher (p : Pid)
  | loop
  | worker (i : ℕ)
  deriving DecidableEq

inductive QueueId
  | main
  | worker (i : ℕ)
  deriving DecidableEq

inductive Resp (μ : Type)
  | enqueued (ok : Bool)
  | dequeued (value : Option μ)
  deriving DecidableEq

def PubPc.request : PubPc μ → Option (Req μ)
  | .tryEnqueue mptr | .tryDropping mptr | .tryWaiting mptr _ => some (.tryEnqueue mptr)
  | .takeOldest _ => some .tryDequeue
  | _ => none

def PubPc.resume (policy : FullPolicy) : PubPc μ → Resp μ → Option (PubPc μ)
  | .tryEnqueue mptr, .enqueued true => some (.wakeDispatcher mptr)
  | .tryEnqueue mptr, .enqueued false =>
    match policy with
    | .DropNewest => some (.notifyDrop mptr)
    | .Block | .BlockTimeout => some (.lockWait mptr)
    | .ReturnFalse | .DropOldest => some (.returning mptr false)
  | .tryDropping mptr, .enqueued true => some (.wakeDispatcher mptr)
  | .tryDropping mptr, .enqueued false => some (.takeOldest mptr)
  | .takeOldest mptr, .dequeued (some oldest) => some (.dropOldest mptr oldest)
  | .takeOldest mptr, .dequeued none => some (.tryDropping mptr)
  | .tryWaiting mptr _, .enqueued true => some (.unlockWait mptr true)
  | .tryWaiting mptr last, .enqueued false =>
    some (if last then .unlockWait mptr false else .park mptr)
  | _, _ => none

/-- A parked publisher that has been woken up must take the mutex again. With
`last` set the wait is over after one more look at the predicate. -/
def PubPc.woken (last : Bool) : PubPc μ → PubPc μ
  | .parked mptr => .relock mptr last
  | pc => pc

def LoopPc.next (drain : Bool) : LoopPc μ := if drain then .poll true else .head

def WorkerPc.next (phase : Phase) : WorkerPc μ :=
  match phase with
  | .final => .poll .final
  | phase => .head phase

namespace Bus

def queue (s : Bus Q Pid μ) : QueueId → Q
  | .main => s.queue_
  | .worker i => s.worker_queues_ i

def setQueue (s : Bus Q Pid μ) (q : Q) : QueueId → Bus Q Pid μ
  | .main => { s with queue_ := q }
  | .worker i => { s with worker_queues_ := update s.worker_queues_ i q }

variable [DecidableEq Pid] [DecidableEq μ]

def goto (s : Bus Q Pid μ) (p : Pid) (pc : PubPc μ) : Bus Q Pid μ :=
  { s with publishers := update s.publishers p pc }

def notify_drop (s : Bus Q Pid μ) (msg : μ) : Bus Q Pid μ :=
  if s.on_drop_ msg then
    { s with on_drop_ := update s.on_drop_ msg false, callbacks := s.callbacks ++ [msg] }
  else s

def drop (s : Bus Q Pid μ) (msg : μ) : Bus Q Pid μ :=
  let s := s.notify_drop msg
  { s with dropped := s.dropped ++ [msg] }

def unpark (s : Bus Q Pid μ) (p : Pid) (last : Bool) : Bus Q Pid μ :=
  { s with
    cv_not_full_ := s.cv_not_full_.erase p
    publishers := update s.publishers p ((s.publishers p).woken last) }

/-- `cv_not_full_.notify_one()`. The scheduler picks the waiter; nobody is
woken only when nobody waits. -/
def notify_one (s : Bus Q Pid μ) : Option Pid → Option (Bus Q Pid μ)
  | none => if s.cv_not_full_ = [] then some s else none
  | some p => if p ∈ s.cv_not_full_ then some (s.unpark p false) else none

def notify_all (s : Bus Q Pid μ) : Bus Q Pid μ :=
  { s with
    cv_not_full_ := []
    publishers := fun p ↦
      if p ∈ s.cv_not_full_ then (s.publishers p).woken false else s.publishers p }

def notifyNotFull (cfg : Config μ) (s : Bus Q Pid μ) (waiter : Option Pid) :
    Option (Bus Q Pid μ) :=
  match cfg.policy_ with
  | .Block | .BlockTimeout => s.notify_one waiter
  | _ => if waiter = none then some s else none

/-- `publish` has built its message and calls `enqueueMessage`. -/
def publish (cfg : Config μ) (s : Bus Q Pid μ) (p : Pid) (mptr : μ) : Option (Bus Q Pid μ) :=
  if s.publishers p = .idle ∧ mptr ∉ s.offered then
    let pc := match cfg.policy_ with
      | .DropOldest => .lockPublish mptr
      | _ => .tryEnqueue mptr
    some { s with
      publishers := update s.publishers p pc
      on_drop_ := update s.on_drop_ mptr (cfg.has_on_drop mptr)
      offered := s.offered ++ [mptr]
      discarded := update s.discarded p 0 }
  else none

/-- The next step of a publisher that is not a queue operation. -/
def publisherStep (cfg : Config μ) (s : Bus Q Pid μ) (p : Pid) : Option (Bus Q Pid μ) :=
  match s.publishers p with
  | .notifyDrop mptr => some ((s.drop mptr).goto p (.returning mptr true))
  | .lockPublish mptr =>
    if s.publish_mutex_ = none then
      some { s.goto p (.tryDropping mptr) with publish_mutex_ := some p }
    else none
  | .dropOldest mptr oldest => some ((s.drop oldest).goto p (.tryDropping mptr))
  | .lockWait mptr =>
    if s.cv_not_full_mutex_ = none then
      some { s.goto p (.checkRunning mptr false) with cv_not_full_mutex_ := some p }
    else none
  | .checkRunning mptr last =>
    some (s.goto p (if s.running_ then .tryWaiting mptr last else .unlockWait mptr false))
  | .park mptr =>
    some { s.goto p (.parked mptr) with
      cv_not_full_mutex_ := none, cv_not_full_ := s.cv_not_full_ ++ [p] }
  | .relock mptr last =>
    if s.cv_not_full_mutex_ = none then
      some { s.goto p (.checkRunning mptr last) with cv_not_full_mutex_ := some p }
    else none
  | .unlockWait mptr enqueued =>
    some { s.goto p (if enqueued then .wakeDispatcher mptr else .returning mptr false) with
      cv_not_full_mutex_ := none }
  | .wakeDispatcher mptr => some (s.goto p (.returning mptr true))
  | .returning mptr result =>
    some { s.goto p .idle with
      results := s.results ++ [(mptr, result)]
      publish_mutex_ := if cfg.policy_ = .DropOldest then none else s.publish_mutex_ }
  | .idle | .tryEnqueue _ | .tryDropping _ | .takeOldest _ | .tryWaiting _ _ | .parked _ => none

/-- `wait_until` of `BlockTimeout` runs into its deadline. -/
def timeout (cfg : Config μ) (s : Bus Q Pid μ) (p : Pid) : Option (Bus Q Pid μ) :=
  if cfg.policy_ = .BlockTimeout ∧ p ∈ s.cv_not_full_ then some (s.unpark p true) else none

def spurious (s : Bus Q Pid μ) (p : Pid) : Option (Bus Q Pid μ) :=
  if p ∈ s.cv_not_full_ then some (s.unpark p false) else none

/-- `start()` on a bus that has not run before. -/
def start (cfg : Config μ) (s : Bus Q Pid μ) : Option (Bus Q Pid μ) :=
  if s.loop = .unstarted then
    some { s with
      running_ := true
      loop := .head
      workers := if cfg.num_dispatchers_ = 1 then s.workers else fun _ ↦ .head .running }
  else none

/-- The next step of `dispatchLoop` or `routerLoop` that is not a queue
operation. An unsuccessful poll spins, yields or sleeps for at most a
millisecond and then is at the head of the loop again. -/
def loopStep (cfg : Config μ) (s : Bus Q Pid μ) (waiter : Option Pid) : Option (Bus Q Pid μ) :=
  match s.loop with
  | .head => some { s with loop := .poll (!s.running_) }
  | .notify drain msg =>
    (s.notifyNotFull cfg waiter).map fun s ↦
      { s with loop := if cfg.num_dispatchers_ = 1 then .begin drain msg else .route drain msg }
  | .begin drain msg =>
    some { s with loop := .dispatching drain msg, events := s.events ++ [.begin 0 msg] }
  | .dispatching drain msg =>
    some { s with loop := .next drain, events := s.events ++ [.finish 0 msg] }
  | .wakeWorker drain => some { s with loop := .next drain }
  | .unstarted | .poll _ | .route _ _ | .finished => none

def workerStep (cfg : Config μ) (s : Bus Q Pid μ) (i : ℕ) : Option (Bus Q Pid μ) :=
  if i < cfg.num_dispatchers_ then
    match s.workers i with
    | .head .running =>
      some { s with
        workers := update s.workers i (if s.running_ then .poll .running else .head .awaiting) }
    | .head .awaiting =>
      some { s with
        workers := update s.workers i
          (if s.router_drained_ then .poll .final else .poll .awaiting) }
    | .begin phase msg =>
      some { s with
        workers := update s.workers i (.dispatching phase msg)
        events := s.events ++ [.begin i msg] }
    | .dispatching phase msg =>
      some { s with
        workers := update s.workers i (.next phase)
        events := s.events ++ [.finish i msg] }
    | .head .final | .unstarted | .poll _ | .finished => none
  else none

def acceptedNow (s : Bus Q Pid μ) : List μ :=
  s.results.filterMap fun r ↦ if r.2 ∧ r.1 ∉ s.dropped then some r.1 else none

/-- The next step of `stop()`. A call that finds the bus not running returns
at once and leaves the bus as it is. -/
def stopStep (cfg : Config μ) (s : Bus Q Pid μ) : Option (Bus Q Pid μ) :=
  match s.stopper with
  | .idle =>
    if s.running_ then
      some { s with running_ := false, stopper := .notifyAll, accepted := s.acceptedNow }
    else some s
  | .notifyAll => some { s.notify_all with stopper := .joinLoop }
  | .joinLoop =>
    if s.loop = .finished then
      some { s with stopper := if cfg.num_dispatchers_ = 1 then .clear else .setDrained }
    else none
  | .setDrained => some { s with router_drained_ := true, stopper := .joinWorker 0 }
  | .joinWorker i =>
    if i < cfg.num_dispatchers_ then
      if s.workers i = .finished then some { s with stopper := .joinWorker (i + 1) } else none
    else some { s with stopper := .clear }
  | .clear => some { s with router_drained_ := false, stopper := .returned }
  | .returned => none

end Bus

inductive Local (Pid μ : Type)
  | publish (p : Pid) (mptr : μ)
  | publisher (p : Pid)
  | timeout (p : Pid)
  | spurious (p : Pid)
  | start
  | loop (waiter : Option Pid)
  | worker (i : ℕ)
  | stop

namespace Bus

variable [DecidableEq Pid] [DecidableEq μ] (cfg : Config μ)

def localStep (s : Bus Q Pid μ) : Local Pid μ → Option (Bus Q Pid μ)
  | .publish p mptr => s.publish cfg p mptr
  | .publisher p => s.publisherStep cfg p
  | .timeout p => s.timeout cfg p
  | .spurious p => s.spurious p
  | .start => s.start cfg
  | .loop waiter => s.loopStep cfg waiter
  | .worker i => s.workerStep cfg i
  | .stop => s.stopStep cfg

def request (s : Bus Q Pid μ) : Agent Pid → Option (QueueId × Req μ)
  | .publisher p => (s.publishers p).request.map fun req ↦ (.main, req)
  | .loop =>
    match s.loop with
    | .poll _ => some (.main, .tryDequeue)
    | .route _ msg => some (.worker (cfg.worker msg), .tryEnqueue msg)
    | _ => none
  | .worker i =>
    if i < cfg.num_dispatchers_ then
      match s.workers i with
      | .poll _ => some (.worker i, .tryDequeue)
      | _ => none
    else none

def resumePublisher (s : Bus Q Pid μ) (p : Pid) (resp : Resp μ) : Option (Bus Q Pid μ) :=
  ((s.publishers p).resume cfg.policy_ resp).map fun pc ↦
    { s.goto p pc with
      discarded := match pc with
        | .dropOldest _ _ => update s.discarded p (s.discarded p + 1)
        | _ => s.discarded }

def resumeLoop (s : Bus Q Pid μ) (resp : Resp μ) : Option (Bus Q Pid μ) :=
  match s.loop, resp with
  | .poll drain, .dequeued (some msg) =>
    some { s with loop := .notify drain msg, taken := s.taken ++ [msg] }
  | .poll drain, .dequeued none => some { s with loop := if drain then .finished else .head }
  | .route drain _, .enqueued true => some { s with loop := .wakeWorker drain }
  | .route _ _, .enqueued false => some s
  | _, _ => none

def resumeWorker (s : Bus Q Pid μ) (i : ℕ) (resp : Resp μ) : Option (Bus Q Pid μ) :=
  match s.workers i, resp with
  | .poll phase, .dequeued (some msg) =>
    some { s with workers := update s.workers i (.begin phase msg) }
  | .poll .final, .dequeued none => some { s with workers := update s.workers i .finished }
  | .poll phase, .dequeued none => some { s with workers := update s.workers i (.head phase) }
  | _, _ => none

def resume (s : Bus Q Pid μ) : Agent Pid → Resp μ → Option (Bus Q Pid μ)
  | .publisher p, resp => s.resumePublisher cfg p resp
  | .loop, resp => s.resumeLoop resp
  | .worker i, resp => s.resumeWorker i resp

end Bus

end LivioArk.Msgbus.MessageBus
