import LivioArk.Library.Transition
import LivioArk.Msgbus.MessageBus

namespace LivioArk.Msgbus.Wakeup

open Function LivioArk.Library.Transition MessageBus

def kSpinThreshold : ℕ := 64

def kYieldThreshold : ℕ := 256

/-- The consumer of the main queue, which runs `dispatchLoop` or `routerLoop`,
and the workers. Each has a queue, a condition variable and a sleeping flag. -/
inductive Thread
  | main
  | worker (i : ℕ)
  deriving DecidableEq

inductive Cause
  | entry
  | notified
  | spurious
  | timeout
  deriving DecidableEq

/-- Where a thread stands. `consumed` tells that a notification has reached it
in the wait that it is in. -/
inductive Pc (μ : Type)
  | unstarted
  | head (idle : ℕ)
  | poll (phase : Phase) (idle : ℕ)
  | serve (phase : Phase) (msg : μ)
  | loadSleeping (phase : Phase) (i : ℕ)
  | notifyOne (phase : Phase) (i : ℕ)
  | announce (idle : ℕ)
  | test (idle : ℕ) (cause : Cause) (consumed : Bool)
  | parked (idle : ℕ) (consumed : Bool)
  | retract (idle : ℕ)
  | awaiting
  | finished
  deriving DecidableEq

/-- Where a publisher stands that has enqueued its message. -/
inductive Waking
  | idle
  | loadSleeping
  | notifyOne
  deriving DecidableEq

inductive Stopping
  | idle
  | notifyMain
  | notifyWorker (i : ℕ)
  | joinMain
  | setDrained
  | joinWorker (i : ℕ)
  | clear
  | returned
  deriving DecidableEq

/-- What the waits and the notifications of a bus depend on. The mutexes of the
condition variables are taken by the waiting threads only, each by one. -/
structure Bus (Pid μ : Type) where
  running_ : Bool := false
  router_drained_ : Bool := false
  queues : Thread → List μ := fun _ ↦ []
  sleeping_ : Thread → Bool := fun _ ↦ false
  threads : Thread → Pc μ := fun _ ↦ .unstarted
  publishers : Pid → Waking := fun _ ↦ .idle
  stopper : Stopping := .idle

variable {Pid μ : Type}

/-- A notification ends the wait of the condition variable itself. -/
def Pc.notified : Pc μ → Pc μ
  | parked idle consumed => test idle .notified consumed
  | pc => pc

/-- Back at the head of the loop with a message served. -/
def Phase.again : Phase → Pc μ
  | .running => .head 0
  | .awaiting => .awaiting
  | .final => .poll .final 0

/-- After an attempt to dequeue that found nothing. The thread spins, then
yields, and then sleeps. -/
def Phase.empty (idle : ℕ) : Phase → Pc μ
  | .running =>
    if idle < kSpinThreshold then .head (idle + 1)
    else if idle < kYieldThreshold then .head (idle + 1)
    else .announce idle
  | .awaiting => .awaiting
  | .final => .finished

inductive Action (Pid μ : Type)
  | start
  | publish (p : Pid) (msg : μ)
  | publisher (p : Pid)
  | thread (th : Thread)
  | timeout (th : Thread)
  | spurious (th : Thread)
  | stop

namespace Bus

def goto (th : Thread) (pc : Pc μ) (s : Bus Pid μ) : Bus Pid μ :=
  { s with threads := update s.threads th pc }

/-- `notify_one` on the condition variable of a thread, or `notify_all`: there
is no other thread that waits on it. -/
def notify (th : Thread) (s : Bus Pid μ) : Bus Pid μ := s.goto th (s.threads th).notified

variable [DecidableEq μ]

/-- `start` on a running bus, or on one that has not run before. -/
def start (cfg : Config μ) (s : Bus Pid μ) : Option (Bus Pid μ) :=
  if s.running_ then some s
  else if s.threads .main = .unstarted then
    some { s with
      running_ := true
      threads := fun
        | .main => .head 0
        | .worker i =>
          if cfg.num_dispatchers_ ≠ 1 ∧ i < cfg.num_dispatchers_ then .head 0 else .unstarted }
  else none

variable [DecidableEq Pid]

def publish (cfg : Config μ) (cap : ℕ) (p : Pid) (msg : μ) (s : Bus Pid μ) :
    Option (Bus Pid μ) :=
  if s.publishers p = .idle then
    if (s.queues .main).length < cap then
      some { s with
        queues := update s.queues .main (s.queues .main ++ [msg])
        publishers := update s.publishers p .loadSleeping }
    else if cfg.policy_ = .DropOldest then
      some { s with
        queues := update s.queues .main ((s.queues .main).tail ++ [msg])
        publishers := update s.publishers p .loadSleeping }
    else none
  else none

/-- `wakeDispatcher`. -/
def publisher (p : Pid) (s : Bus Pid μ) : Option (Bus Pid μ) :=
  match s.publishers p with
  | .idle => none
  | .loadSleeping =>
    some { s with
      publishers := update s.publishers p (if s.sleeping_ .main then .notifyOne else .idle) }
  | .notifyOne => some { s.notify .main with publishers := update s.publishers p .idle }

/-- `dispatchMessage` and `routeToWorker` up to `wakeWorker`. The router goes on
once there is room in the queue of the worker. -/
def serve (cfg : Config μ) (cap : ℕ) (phase : Phase) (msg : μ) (s : Bus Pid μ) :
    Thread → Option (Bus Pid μ)
  | .worker i => some (s.goto (.worker i) (Phase.again phase))
  | .main =>
    if cfg.num_dispatchers_ = 1 then some (s.goto .main (Phase.again phase))
    else if (s.queues (.worker (cfg.worker msg))).length < cap then
      some { s.goto .main (.loadSleeping phase (cfg.worker msg)) with
        queues := update s.queues (.worker (cfg.worker msg))
          (s.queues (.worker (cfg.worker msg)) ++ [msg]) }
    else none

def thread (cfg : Config μ) (cap : ℕ) (th : Thread) (s : Bus Pid μ) : Option (Bus Pid μ) :=
  match s.threads th with
  | .head idle =>
    some (s.goto th
      (if s.running_ then .poll .running idle
      else match th with
        | .main => .poll .final 0
        | .worker _ => .awaiting))
  | .awaiting => some (s.goto th (.poll (if s.router_drained_ then .final else .awaiting) 0))
  | .poll phase idle =>
    match s.queues th with
    | [] => some (s.goto th (Phase.empty idle phase))
    | msg :: rest => some { s.goto th (.serve phase msg) with queues := update s.queues th rest }
  | .serve phase msg => s.serve cfg cap phase msg th
  | .loadSleeping phase i =>
    some (s.goto th (if s.sleeping_ (.worker i) then .notifyOne phase i else Phase.again phase))
  | .notifyOne phase i => some ((s.notify (.worker i)).goto th (Phase.again phase))
  | .announce idle =>
    some { s.goto th (.test idle .entry false) with sleeping_ := update s.sleeping_ th true }
  | .test idle cause consumed =>
    -- the predicate is `!running_`, and a timeout ends the wait in any case
    some (s.goto th
      (if !s.running_ || cause = .timeout then .retract idle
      else .parked idle (consumed || cause = .notified)))
  | .retract idle => some { s.goto th (.head idle) with sleeping_ := update s.sleeping_ th false }
  | .parked _ _ | .unstarted | .finished => none

def wake (cause : Cause) (th : Thread) (s : Bus Pid μ) : Option (Bus Pid μ) :=
  match s.threads th with
  | .parked idle consumed => some (s.goto th (.test idle cause consumed))
  | _ => none

def stop (cfg : Config μ) (s : Bus Pid μ) : Option (Bus Pid μ) :=
  match s.stopper with
  | .idle =>
    if s.running_ then some { s with running_ := false, stopper := .notifyMain } else some s
  | .notifyMain =>
    some { s.notify .main with
      stopper := if cfg.num_dispatchers_ = 1 then .joinMain else .notifyWorker 0 }
  | .notifyWorker i =>
    if i < cfg.num_dispatchers_ then
      some { s.notify (.worker i) with stopper := .notifyWorker (i + 1) }
    else some { s with stopper := .joinMain }
  | .joinMain =>
    if s.threads .main = .finished then
      some { s with stopper := if cfg.num_dispatchers_ = 1 then .clear else .setDrained }
    else none
  | .setDrained => some { s with router_drained_ := true, stopper := .joinWorker 0 }
  | .joinWorker i =>
    if i < cfg.num_dispatchers_ then
      if s.threads (.worker i) = .finished then some { s with stopper := .joinWorker (i + 1) }
      else none
    else some { s with stopper := .clear }
  | .clear =>
    some { s with router_drained_ := false, sleeping_ := fun _ ↦ false, stopper := .returned }
  | .returned => none

def step (cfg : Config μ) (cap : ℕ) (s : Bus Pid μ) : Action Pid μ → Option (Bus Pid μ)
  | .start => s.start cfg
  | .publish p msg => s.publish cfg cap p msg
  | .publisher p => s.publisher p
  | .thread th => s.thread cfg cap th
  | .timeout th => s.wake .timeout th
  | .spurious th => s.wake .spurious th
  | .stop => s.stop cfg

end Bus

def machine (Pid : Type) [DecidableEq Pid] [DecidableEq μ] (cfg : Config μ) (cap : ℕ) :
    Machine (Bus Pid μ) (Action Pid μ) where
  init s := s = {}
  step := Bus.step cfg cap

def Notified (s : Bus Pid μ) (th : Thread) : Prop :=
  ∃ idle consumed, s.threads th = .test idle .notified consumed

/-- The wait of the thread goes on unless its predicate holds. -/
def Pc.waiting : Pc μ → Bool
  | test _ cause _ => cause ≠ .timeout
  | parked _ _ => true
  | _ => false

def Pc.consumed : Pc μ → Bool
  | test _ _ consumed | parked _ consumed => consumed
  | _ => false

def Pc.polls : Pc μ → Bool
  | poll _ _ => true
  | _ => false

section Steps

variable {cfg : Config μ} {cap : ℕ} {s t : Bus Pid μ} {th other : Thread} {pc : Pc μ}

theorem waiting_of_polls {pc : Pc μ} (h : pc.polls = true) : pc.waiting = false := by
  cases pc with
  | poll => rfl
  | _ => cases h

theorem Notified.waiting (h : Notified s th) : (s.threads th).waiting = true := by
  obtain ⟨idle, consumed, hpc⟩ := h
  rw [hpc]
  rfl

@[simp] theorem threads_goto : (s.goto th pc).threads th = pc := by
  simp only [Bus.goto, update_self]

theorem threads_goto_ne (hne : other ≠ th) : (s.goto th pc).threads other = s.threads other := by
  simp only [Bus.goto, update_of_ne hne]

theorem goto_goto (pc' : Pc μ) : (s.goto th pc).goto th pc' = s.goto th pc' := by
  simp only [Bus.goto, update_idem]

theorem threads_notify : (s.notify th).threads other = s.threads other ∨
    (s.notify th).threads other = (s.threads other).notified := by
  by_cases h : other = th
  · subst h
    exact .inr threads_goto
  · exact .inl (threads_goto_ne h)

/-- What a step may do to a thread that does not make it. -/
inductive Passive (s : Bus Pid μ) (th : Thread) : Action Pid μ → Pc μ → Prop
  | still {a : Action Pid μ} : Passive s th a (s.threads th)
  | notified {a : Action Pid μ} : Passive s th a (s.threads th).notified
  | timeout {idle : ℕ} {consumed : Bool} : s.threads th = .parked idle consumed →
    Passive s th (.timeout th) (.test idle .timeout consumed)
  | spurious {idle : ℕ} {consumed : Bool} : s.threads th = .parked idle consumed →
    Passive s th (.spurious th) (.test idle .spurious consumed)
  | started : s.running_ = false → Passive s th .start (.head 0)
  | unstarted : s.running_ = false → Passive s th .start .unstarted

variable {a : Action Pid μ}

theorem passive_notify (a : Action Pid μ) : Passive s th a ((s.notify other).threads th) := by
  have hnotify : (s.notify other).threads th = s.threads th ∨
      (s.notify other).threads th = (s.threads th).notified := threads_notify
  cases hnotify with
  | inl h => exact h ▸ .still
  | inr h => exact h ▸ .notified

variable (th) in
theorem wake_cases {cause : Cause} (h : s.wake cause other = some t) :
    t.running_ = s.running_ ∧
      ((th = other ∧ ∃ idle consumed, s.threads th = .parked idle consumed ∧
        t.threads th = .test idle cause consumed) ∨ t.threads th = s.threads th) := by
  rw [Bus.wake] at h
  split at h
  · rename_i idle consumed hparked
    obtain rfl := Option.some.inj h
    refine ⟨rfl, ?_⟩
    by_cases hth : th = other
    · subst hth
      exact .inl ⟨rfl, idle, consumed, hparked, threads_goto⟩
    · exact .inr (threads_goto_ne hth)
  · cases h

theorem thread_cases (h : s.thread cfg cap th = some t) :
    t.running_ = s.running_ ∧
      ∃ pc u, t.threads = (Bus.goto th pc u).threads ∧ (u = s ∨ ∃ i, u = s.notify (.worker i)) := by
  cases hpc : s.threads th with
  | unstarted | parked | finished =>
    simp only [Bus.thread, hpc] at h
    cases h
  | head | awaiting | loadSleeping | announce | test | retract =>
    simp only [Bus.thread, hpc] at h
    obtain rfl := Option.some.inj h
    exact ⟨rfl, _, s, rfl, .inl rfl⟩
  | notifyOne phase i =>
    simp only [Bus.thread, hpc] at h
    obtain rfl := Option.some.inj h
    exact ⟨rfl, _, _, rfl, .inr ⟨i, rfl⟩⟩
  | poll phase idle =>
    simp only [Bus.thread, hpc] at h
    cases hqueue : s.queues th with
    | nil =>
      simp only [hqueue] at h
      obtain rfl := Option.some.inj h
      exact ⟨rfl, _, s, rfl, .inl rfl⟩
    | cons msg rest =>
      simp only [hqueue] at h
      obtain rfl := Option.some.inj h
      exact ⟨rfl, _, s, rfl, .inl rfl⟩
  | serve phase msg =>
    simp only [Bus.thread, hpc, Bus.serve] at h
    cases th with
    | worker i =>
      obtain rfl := Option.some.inj h
      exact ⟨rfl, _, s, rfl, .inl rfl⟩
    | main =>
      simp only at h
      split at h
      · obtain rfl := Option.some.inj h
        exact ⟨rfl, _, s, rfl, .inl rfl⟩
      · split at h
        · obtain rfl := Option.some.inj h
          exact ⟨rfl, _, s, rfl, .inl rfl⟩
        · cases h

theorem passive_thread (hne : th ≠ other) (h : s.thread cfg cap other = some t) :
    Passive s th a (t.threads th) := by
  obtain ⟨-, pc, u, hthreads, hu⟩ := thread_cases h
  rw [hthreads, threads_goto_ne hne]
  cases hu with
  | inl hu => exact hu ▸ .still
  | inr hu =>
    obtain ⟨i, rfl⟩ := hu
    exact passive_notify a

section Publishers

variable [DecidableEq Pid]

theorem publish_cases {p : Pid} {msg : μ} (h : s.publish cfg cap p msg = some t) :
    t.running_ = s.running_ ∧ t.threads = s.threads := by
  rw [Bus.publish] at h
  split at h
  · split at h
    · obtain rfl := Option.some.inj h
      exact ⟨rfl, rfl⟩
    · split at h
      · obtain rfl := Option.some.inj h
        exact ⟨rfl, rfl⟩
      · cases h
  · cases h

theorem publisher_cases {p : Pid} (h : s.publisher p = some t) :
    t.running_ = s.running_ ∧ (t.threads = s.threads ∨ t.threads = (s.notify .main).threads) := by
  rw [Bus.publisher] at h
  split at h
  · cases h
  · obtain rfl := Option.some.inj h
    exact ⟨rfl, .inl rfl⟩
  · obtain rfl := Option.some.inj h
    exact ⟨rfl, .inr rfl⟩

end Publishers

section Decidable

variable [DecidableEq μ]

theorem passive_stop (h : s.stop cfg = some t) : Passive s th a (t.threads th) := by
  cases hstop : s.stopper with
  | idle =>
    simp only [Bus.stop, hstop] at h
    split at h <;> (obtain rfl := Option.some.inj h; exact .still)
  | notifyMain =>
    simp only [Bus.stop, hstop] at h
    obtain rfl := Option.some.inj h
    exact passive_notify a
  | notifyWorker i =>
    simp only [Bus.stop, hstop] at h
    split at h
    · obtain rfl := Option.some.inj h
      exact passive_notify a
    · obtain rfl := Option.some.inj h
      exact .still
  | joinMain =>
    simp only [Bus.stop, hstop] at h
    split at h
    · obtain rfl := Option.some.inj h
      exact .still
    · cases h
  | setDrained | clear =>
    simp only [Bus.stop, hstop] at h
    obtain rfl := Option.some.inj h
    exact .still
  | joinWorker i =>
    simp only [Bus.stop, hstop] at h
    split at h
    · split at h
      · obtain rfl := Option.some.inj h
        exact .still
      · cases h
    · obtain rfl := Option.some.inj h
      exact .still
  | returned =>
    simp only [Bus.stop, hstop] at h
    cases h

theorem passive_start (h : s.start cfg = some t) : Passive s th .start (t.threads th) := by
  rw [Bus.start] at h
  split at h
  · obtain rfl := Option.some.inj h
    exact .still
  · rename_i hrunning
    have hrunning : s.running_ = false := by simpa using hrunning
    split at h
    · obtain rfl := Option.some.inj h
      cases th with
      | main => exact .started hrunning
      | worker i =>
        simp only
        split
        · exact .started hrunning
        · exact .unstarted hrunning
    · cases h

variable [DecidableEq Pid]

/-- The steps of others reach a thread by notifications alone. -/
theorem step_passive (hne : ∀ own, a = .thread own → own ≠ th)
    (h : s.step cfg cap a = some t) : Passive s th a (t.threads th) := by
  cases a with
  | start => exact passive_start h
  | publish p msg => exact (publish_cases h).2 ▸ .still
  | publisher p =>
    cases (publisher_cases h).2 with
    | inl hthreads => exact hthreads ▸ .still
    | inr hthreads => exact hthreads ▸ passive_notify _
  | thread other => exact passive_thread (hne other rfl).symm h
  | timeout other =>
    cases (wake_cases th h).2 with
    | inl hwoken =>
      obtain ⟨rfl, idle, consumed, hparked, hthread⟩ := hwoken
      exact hthread ▸ .timeout hparked
    | inr hsame => exact hsame ▸ .still
  | spurious other =>
    cases (wake_cases th h).2 with
    | inl hwoken =>
      obtain ⟨rfl, idle, consumed, hparked, hthread⟩ := hwoken
      exact hthread ▸ .spurious hparked
    | inr hsame => exact hsame ▸ .still
  | stop => exact passive_stop h

theorem running_step (ha : a ≠ .stop) (hrunning : s.running_ = true)
    (h : s.step cfg cap a = some t) : t.running_ = true := by
  cases a with
  | start =>
    simp only [Bus.step, Bus.start, hrunning, if_true] at h
    exact Option.some.inj h ▸ hrunning
  | publish p msg => exact (publish_cases h).1.trans hrunning
  | publisher p => exact (publisher_cases h).1.trans hrunning
  | thread own => exact (thread_cases h).1.trans hrunning
  | timeout other | spurious other => exact (wake_cases other h).1.trans hrunning
  | stop => exact absurd rfl ha

end Decidable

theorem thread_test {idle : ℕ} {cause : Cause} {consumed : Bool}
    (hpc : s.threads th = .test idle cause consumed) :
    s.thread cfg cap th = some (s.goto th
      (if !s.running_ || cause = .timeout then .retract idle
      else .parked idle (consumed || cause = .notified))) := by
  simp only [Bus.thread, hpc]

theorem waiting_thread (hrunning : s.running_ = true) (hwaiting : (s.threads th).waiting = true)
    (h : s.thread cfg cap th = some t) : (t.threads th).waiting = true := by
  cases hpc : s.threads th with
  | test idle cause consumed =>
    rw [hpc] at hwaiting
    have hcause : cause ≠ .timeout := by simpa [Pc.waiting] using hwaiting
    rw [thread_test hpc] at h
    obtain rfl := Option.some.inj h
    rw [threads_goto, if_neg (by simp [hrunning, hcause])]
    rfl
  | parked =>
    simp only [Bus.thread, hpc] at h
    cases h
  | unstarted | head | poll | serve | loadSleeping | notifyOne | announce | retract | awaiting
  | finished =>
    rw [hpc] at hwaiting
    cases hwaiting

theorem consumed_again (phase : Phase) : (Phase.again phase : Pc μ).consumed = false := by
  cases phase <;> rfl

theorem consumed_empty (idle : ℕ) (phase : Phase) :
    (Phase.empty idle phase : Pc μ).consumed = false := by
  cases phase with
  | running =>
    rw [Phase.empty]
    split
    · rfl
    · split <;> rfl
  | awaiting | final => rfl

/-- Only the wait itself remembers a notification, when it goes on. -/
theorem consumed_thread (hold : (s.threads th).consumed = false)
    (hnotified : Notified s th → s.running_ = false)
    (h : s.thread cfg cap th = some t) : (t.threads th).consumed = false := by
  cases hpc : s.threads th with
  | test idle cause consumed =>
    rw [thread_test hpc] at h
    obtain rfl := Option.some.inj h
    rw [threads_goto]
    rw [hpc] at hold
    obtain rfl : consumed = false := hold
    split
    · rfl
    · rename_i hfalse
      -- a notified thread finds its predicate true
      have hcause : cause ≠ .notified := by
        intro hcause
        subst hcause
        rw [hnotified ⟨idle, false, hpc⟩] at hfalse
        exact hfalse rfl
      simp [Pc.consumed, hcause]
  | unstarted | parked | finished =>
    simp only [Bus.thread, hpc] at h
    cases h
  | head idle =>
    simp only [Bus.thread, hpc] at h
    obtain rfl := Option.some.inj h
    rw [threads_goto]
    split
    · rfl
    · cases th <;> rfl
  | awaiting | announce | retract =>
    simp only [Bus.thread, hpc] at h
    obtain rfl := Option.some.inj h
    exact congrArg Pc.consumed threads_goto
  | loadSleeping phase i =>
    simp only [Bus.thread, hpc] at h
    obtain rfl := Option.some.inj h
    rw [threads_goto]
    split
    · rfl
    · exact consumed_again phase
  | notifyOne phase i =>
    simp only [Bus.thread, hpc] at h
    obtain rfl := Option.some.inj h
    rw [threads_goto]
    exact consumed_again phase
  | poll phase idle =>
    simp only [Bus.thread, hpc] at h
    cases hqueue : s.queues th with
    | nil =>
      simp only [hqueue] at h
      obtain rfl := Option.some.inj h
      rw [threads_goto]
      exact consumed_empty idle phase
    | cons msg rest =>
      simp only [hqueue] at h
      obtain rfl := Option.some.inj h
      exact congrArg Pc.consumed threads_goto
  | serve phase msg =>
    simp only [Bus.thread, hpc, Bus.serve] at h
    cases th with
    | worker i =>
      obtain rfl := Option.some.inj h
      rw [threads_goto]
      exact consumed_again phase
    | main =>
      simp only at h
      split at h
      · obtain rfl := Option.some.inj h
        rw [threads_goto]
        exact consumed_again phase
      · split at h
        · obtain rfl := Option.some.inj h
          simp only [threads_goto]
          rfl
        · cases h

theorem Passive.consumed {pc' : Pc μ} (h : Passive s th a pc')
    (hold : (s.threads th).consumed = false) : pc'.consumed = false := by
  cases h with
  | still => exact hold
  | notified =>
    cases hpc : s.threads th <;> rw [hpc] at hold <;> exact hold
  | timeout hparked | spurious hparked =>
    rw [hparked] at hold
    exact hold
  | started | unstarted => rfl

theorem Passive.waiting {pc' : Pc μ} (h : Passive s th a pc') (ha : a ≠ .timeout th)
    (hrunning : s.running_ = true) (hwaiting : (s.threads th).waiting = true) :
    pc'.waiting = true := by
  cases h with
  | still => exact hwaiting
  | notified =>
    cases hpc : s.threads th <;> rw [hpc] at hwaiting <;> exact hwaiting
  | timeout hparked => exact absurd rfl ha
  | spurious hparked => rfl
  | started hstopped | unstarted hstopped =>
    rw [hrunning] at hstopped
    cases hstopped

end Steps

section Runs

variable [DecidableEq Pid] [DecidableEq μ] {cfg : Config μ} {cap : ℕ} {s t : Bus Pid μ}
  {th : Thread}

/-- The thread gets to its next attempt to dequeue by its own steps, without a
timeout. -/
def Attempts (cfg : Config μ) (cap : ℕ) (s : Bus Pid μ) (th : Thread) : Prop :=
  ∃ n t, (machine Pid cfg cap).run s (List.replicate n (.thread th)) = some t ∧
    (t.threads th).polls = true

/-- A notified thread evaluates its predicate only when the bus has been
stopped. -/
def AfterStop (s : Bus Pid μ) (a : Action Pid μ) : Prop :=
  ∀ th, a = .thread th → Notified s th → s.running_ = false

/-- In a running bus nothing but its timeout gets a thread out of its wait, not
any number of messages and notifications. -/
theorem notified_in_vain (hrunning : s.running_ = true)
    (hwaiting : (s.threads th).waiting = true) (as : List (Action Pid μ))
    (has : ∀ a ∈ as, a ≠ .stop ∧ a ≠ .timeout th) (h : (machine Pid cfg cap).run s as = some t) :
    (t.threads th).waiting = true ∧ t.running_ = true := by
  induction as generalizing s with
  | nil =>
    simp only [Machine.run, Option.some.injEq] at h
    exact h ▸ ⟨hwaiting, hrunning⟩
  | cons a as ih =>
    simp only [Machine.run, Option.bind_eq_some_iff] at h
    obtain ⟨u, hu, ht⟩ := h
    have ha := has a List.mem_cons_self
    have hrunning' : u.running_ = true := running_step ha.1 hrunning hu
    refine ih hrunning' ?_ (fun b hb ↦ has b (List.mem_cons_of_mem a hb)) ht
    by_cases hown : a = .thread th
    · subst hown
      exact waiting_thread hrunning hwaiting hu
    · have hne : ∀ own, a = .thread own → own ≠ th := by
        intro own hown' heq
        exact hown (heq ▸ hown')
      exact (step_passive hne hu).waiting ha.2 hrunning hwaiting

theorem attempts_polls (h : (s.threads th).polls = true) : Attempts cfg cap s th := ⟨0, s, rfl, h⟩

theorem attempts_step (h : s.thread cfg cap th = some t) (ht : Attempts cfg cap t th) :
    Attempts cfg cap s th := by
  obtain ⟨n, u, hrun, hpolls⟩ := ht
  refine ⟨n + 1, u, ?_, hpolls⟩
  have hstep : (machine Pid cfg cap).step s (.thread th) = some t := h
  rw [List.replicate_succ, Machine.run, hstep, Option.bind_some]
  exact hrun

theorem attempts_awaiting (hpc : s.threads th = .awaiting) : Attempts cfg cap s th := by
  apply attempts_step (t := s.goto th (.poll (if s.router_drained_ then .final else .awaiting) 0))
  · simp only [Bus.thread, hpc]
  · apply attempts_polls
    rw [threads_goto]
    rfl

theorem attempts_head {idle : ℕ} (hstopped : s.running_ = false) (hpc : s.threads th = .head idle) :
    Attempts cfg cap s th := by
  cases th with
  | main =>
    apply attempts_step (t := s.goto .main (.poll .final 0))
    · simp [Bus.thread, hpc, hstopped]
    · apply attempts_polls
      rw [threads_goto]
      rfl
  | worker i =>
    apply attempts_step (t := s.goto (.worker i) .awaiting)
    · simp [Bus.thread, hpc, hstopped]
    · exact attempts_awaiting threads_goto

/-- After the end of the bus a thread leaves its wait and empties its queue. -/
theorem attempts_of_stopped (hnotified : Notified s th) (hstopped : s.running_ = false) :
    Attempts cfg cap s th := by
  obtain ⟨idle, consumed, hpc⟩ := hnotified
  apply attempts_step (t := s.goto th (.retract idle))
  · rw [thread_test hpc, hstopped]
    rfl
  · have hretract : (s.goto th (.retract idle)).threads th = .retract idle := threads_goto
    refine attempts_step (t := { (s.goto th (.retract idle)).goto th (.head idle) with
      sleeping_ := update s.sleeping_ th false }) ?_ ?_
    · simp only [Bus.thread, hretract]
      rfl
    · exact attempts_head hstopped threads_goto

theorem not_attempts_of_running (hnotified : Notified s th) (hrunning : s.running_ = true) :
    ¬ Attempts cfg cap s th := by
  intro hattempts
  obtain ⟨n, t, hrun, hpolls⟩ := hattempts
  have has : ∀ a ∈ List.replicate n (.thread th : Action Pid μ), a ≠ .stop ∧ a ≠ .timeout th := by
    intro a ha
    rw [List.eq_of_mem_replicate ha]
    exact ⟨by simp, by simp⟩
  obtain ⟨hstill, -⟩ := notified_in_vain hrunning hnotified.waiting _ has hrun
  rw [waiting_of_polls hpolls] at hstill
  cases hstill

/-- A notified thread gets out of its wait by the notification exactly if the
bus is not running any more; in a running bus it waits on for its timeout. If
notified threads evaluate their predicates only after the end of the bus, none
of them goes back to its wait in the whole run. -/
theorem notified_serves_iff (Pid : Type) [DecidableEq Pid] (cfg : Config μ) (cap : ℕ) :
    (∀ s : Bus Pid μ, (machine Pid cfg cap).Reachable s → ∀ th, Notified s th →
      (Attempts cfg cap s th ↔ s.running_ = false) ∧
      (s.running_ = true → ∀ as t, (∀ a ∈ as, a ≠ .stop ∧ a ≠ .timeout th) →
        (machine Pid cfg cap).run s as = some t → (t.threads th).waiting = true)) ∧
    ∀ s : Bus Pid μ, (machine Pid cfg cap).Reaches AfterStop s →
      ∀ th idle, s.threads th ≠ .parked idle true := by
  constructor
  · intro s _ th hnotified
    refine ⟨⟨?_, attempts_of_stopped hnotified⟩, ?_⟩
    · intro hattempts
      by_contra hrunning
      exact not_attempts_of_running hnotified (by simpa using hrunning) hattempts
    · intro hrunning as t has hrun
      exact (notified_in_vain hrunning hnotified.waiting as has hrun).1
  · intro s hs
    have hconsumed : ∀ th, (s.threads th).consumed = false := by
      refine Machine.Reaches.invariant (P := fun s ↦ ∀ th, (s.threads th).consumed = false) ?_ ?_ hs
      · intro s hs th
        rw [show s = {} from hs]
        rfl
      · intro s a t _ hold hafter ht th
        by_cases hown : a = .thread th
        · subst hown
          exact consumed_thread (hold th) (hafter th rfl) ht
        · have hne : ∀ own, a = .thread own → own ≠ th := by
            intro own hown' heq
            exact hown (heq ▸ hown')
          exact (step_passive hne ht).consumed (hold th)
    intro th idle hparked
    have h := hconsumed th
    rw [hparked] at h
    cases h

end Runs

section Wasted

def oneDispatcher : Config ℕ where
  policy_ := .Block
  num_dispatchers_ := 1
  num_dispatchers_pos := Nat.one_pos
  topic_id _ := 0
  hash := id
  has_on_drop _ := false

def dozing (n : ℕ) : Bus Unit ℕ := Bus.goto .main (.head n) { running_ := true }

theorem dozing_reachable {n : ℕ} (hn : n ≤ kYieldThreshold) :
    (machine Unit oneDispatcher 2).Reachable (dozing n) := by
  induction n with
  | zero =>
    have hstart : (machine Unit oneDispatcher 2).step {} .start = some (dozing 0) := by
      simp only [machine, Bus.step, Bus.start, dozing, Bus.goto, Bool.false_eq_true, if_false,
        if_true, Option.some.injEq, Bus.mk.injEq, true_and, and_true]
      funext th
      cases th with
      | main => rfl
      | worker i => rfl
    exact .next (.start rfl) trivial hstart
  | succ n ih =>
    have hhead : (dozing n).threads .main = .head n := threads_goto
    have hpoll : (machine Unit oneDispatcher 2).step (dozing n) (.thread .main) =
        some ((dozing n).goto .main (.poll .running n)) := by
      simp only [machine, Bus.step, Bus.thread, hhead]
      rfl
    have hempty : (machine Unit oneDispatcher 2).step
        ((dozing n).goto .main (.poll .running n)) (.thread .main) = some (dozing (n + 1)) := by
      have hnext : (Phase.empty n .running : Pc ℕ) = .head (n + 1) := by
        rw [Phase.empty, if_pos (show n < kYieldThreshold by omega), ite_self]
      have hqueue : ((dozing n).goto .main (.poll .running n)).queues .main = [] := rfl
      simp only [machine, Bus.step, Bus.thread, threads_goto, hqueue, hnext, goto_goto]
      rw [dozing, dozing, goto_goto]
    exact .next (.next (ih (by omega)) trivial hpoll) trivial hempty

def notifiedRun : List (Action Unit ℕ) :=
  [.thread .main, .thread .main, .thread .main, .thread .main, .publish () 7, .publisher (),
    .publisher ()]

theorem notified_serves_once :
    ∃ s : Bus Unit ℕ, Notified s .main ∧
      (Attempts oneDispatcher 2 s .main ↔ s.running_ = false) := by
  have hrun : ((machine Unit oneDispatcher 2).run (dozing kYieldThreshold) notifiedRun).map
      (fun s ↦ s.threads .main) = some (.test kYieldThreshold .notified false) := by decide
  obtain ⟨s, hs, hpc⟩ := Option.map_eq_some_iff.mp hrun
  have hnotified : Notified s .main := ⟨_, _, hpc⟩
  exact ⟨s, hnotified, ((notified_serves_iff Unit oneDispatcher 2).1 s
    ((dozing_reachable le_rfl).run_next _ hs) .main hnotified).1⟩

/-- The notified dispatcher goes back to its wait with the message in its
queue. -/
theorem notification_wasted :
    ¬ ∀ s : Bus Unit ℕ, (machine Unit oneDispatcher 2).Reachable s → s.running_ = true →
      ∀ th idle, s.threads th = .parked idle true → s.queues th = [] := by
  intro h
  have hrun : ((machine Unit oneDispatcher 2).run (dozing kYieldThreshold)
      (notifiedRun ++ [.thread .main])).map
        (fun s ↦ (s.running_, s.threads .main, s.queues .main)) =
      some (true, .parked kYieldThreshold true, [7]) := by decide
  obtain ⟨s, hs, heq⟩ := Option.map_eq_some_iff.mp hrun
  simp only [Prod.mk.injEq] at heq
  obtain ⟨hrunning, hparked, hqueue⟩ := heq
  have hempty := h s ((dozing_reachable le_rfl).run_next _ hs) hrunning .main _ hparked
  rw [hqueue] at hempty
  cases hempty

end Wasted

end LivioArk.Msgbus.Wakeup
