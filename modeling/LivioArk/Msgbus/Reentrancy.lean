import LivioArk.Library.Transition
import LivioArk.Msgbus.MessageBus
import Mathlib.Data.Fintype.Basic

namespace LivioArk.Msgbus.Reentrancy

open Function LivioArk.Library.Transition LockFreeQueue MessageBus

variable {Tid μ : Type}

/-- Dispatcher 0 of a single-dispatcher bus runs `dispatchLoop`; with several
dispatchers number `i` runs `workerLoop`. -/
inductive Thread (Tid : Type) where
  | outside (t : Tid)
  | dispatcher (i : ℕ)
  deriving DecidableEq

inductive Frame (μ : Type) where
  | handler
  | on_drop
  | enqueueMessage (pc : PubPc μ)
  deriving DecidableEq

/-- The bus with the call stacks of its threads, innermost call first. A parked
thread can wake up at any time, so it is not kept who waits. -/
structure Nested (Tid μ : Type) where
  running_ : Bool := false
  queue_ : List μ := []
  on_drop_ : μ → Bool := fun _ ↦ false
  publish_mutex_ : Option (Thread Tid) := none
  cv_not_full_mutex_ : Option (Thread Tid) := none
  frames : Thread Tid → List (Frame μ) := fun _ ↦ []
  dispatching : ℕ → Bool := fun _ ↦ false
  routing : Option μ := none
  worker_queues_ : ℕ → List μ := fun _ ↦ []

/-- The steps. `take` is one of `dispatchLoop` or of `routerLoop`. -/
inductive NestedAction (Tid μ : Type) where
  | publish (c : Thread Tid) (m : μ)
  | enqueueStep (c : Thread Tid)
  | wake (c : Thread Tid) (timeout : Bool)
  | return_ (c : Thread Tid)
  | throw (c : Thread Tid)
  | take
  | route
  | takeRouted (i : ℕ)
  | handle (i : ℕ)
  | finish (i : ℕ)
  | start
  | stop

/-- Only user code calls `publish`. A dispatcher runs some only in a handler. -/
def userCode : Thread Tid → List (Frame μ) → Bool
  | .outside _, [] => true
  | .dispatcher _, [] => false
  | _, .enqueueMessage _ :: _ => false
  | _, _ => true

namespace Nested

variable [DecidableEq Tid] [DecidableEq μ] (cfg : Config μ) (capacity : ℕ)
variable (s : Nested Tid μ) (c : Thread Tid)

def setStack (stack : List (Frame μ)) : Nested Tid μ :=
  { s with frames := update s.frames c stack }

def publish (m : μ) : Option (Nested Tid μ) :=
  if userCode c (s.frames c) then
    let pc := if cfg.policy_ = .DropOldest then .lockPublish m else .tryEnqueue m
    some { s.setStack c (.enqueueMessage pc :: s.frames c) with
      on_drop_ := update s.on_drop_ m (cfg.has_on_drop m) }
  else none

def notify_drop (m : μ) (pc : PubPc μ) (rest : List (Frame μ)) : Nested Tid μ :=
  if s.on_drop_ m then
    { s.setStack c (.on_drop :: .enqueueMessage pc :: rest) with
      on_drop_ := update s.on_drop_ m false }
  else s.setStack c (.enqueueMessage pc :: rest)

def queueStep (pc : PubPc μ) (rest : List (Frame μ)) : Req μ → Option (Nested Tid μ)
  | .tryEnqueue m =>
    if s.queue_.length < capacity then
      (pc.resume cfg.policy_ (.enqueued true)).map fun pc ↦
        { s.setStack c (.enqueueMessage pc :: rest) with queue_ := s.queue_ ++ [m] }
    else
      (pc.resume cfg.policy_ (.enqueued false)).map fun pc ↦
        s.setStack c (.enqueueMessage pc :: rest)
  | .tryDequeue =>
    (pc.resume cfg.policy_ (.dequeued s.queue_.head?)).map fun pc ↦
      { s.setStack c (.enqueueMessage pc :: rest) with queue_ := s.queue_.tail }

def localStep (pc : PubPc μ) (rest : List (Frame μ)) : Option (Nested Tid μ) :=
  let goto := fun pc ↦ s.setStack c (.enqueueMessage pc :: rest)
  match pc with
  | .notifyDrop m => some (s.notify_drop c m (.returning m true) rest)
  | .lockPublish m =>
    if s.publish_mutex_ = none then some { goto (.tryDropping m) with publish_mutex_ := some c }
    else none
  | .dropOldest m oldest => some (s.notify_drop c oldest (.tryDropping m) rest)
  | .lockWait m =>
    if s.cv_not_full_mutex_ = none then
      some { goto (.checkRunning m false) with cv_not_full_mutex_ := some c }
    else none
  | .checkRunning m last =>
    some (goto (if s.running_ then .tryWaiting m last else .unlockWait m false))
  | .park m => some { goto (.parked m) with cv_not_full_mutex_ := none }
  | .relock m last =>
    if s.cv_not_full_mutex_ = none then
      some { goto (.checkRunning m last) with cv_not_full_mutex_ := some c }
    else none
  | .unlockWait m enqueued =>
    some { goto (if enqueued then .wakeDispatcher m else .returning m false) with
      cv_not_full_mutex_ := none }
  | .wakeDispatcher m => some (goto (.returning m true))
  | .returning _ _ =>
    some { s.setStack c rest with
      publish_mutex_ := if cfg.policy_ = .DropOldest then none else s.publish_mutex_ }
  | .idle | .tryEnqueue _ | .tryDropping _ | .takeOldest _ | .tryWaiting _ _ | .parked _ => none

def enqueueStep : Option (Nested Tid μ) :=
  match s.frames c with
  | .enqueueMessage pc :: rest =>
    match pc.request with
    | some req => s.queueStep cfg capacity c pc rest req
    | none => s.localStep cfg c pc rest
  | _ => none

/-- A parked thread wakes up, of itself, notified or, under `BlockTimeout`, because
of its deadline. -/
def wake (timeout : Bool) : Option (Nested Tid μ) :=
  match s.frames c with
  | .enqueueMessage (.parked m) :: rest =>
    if timeout ∧ cfg.policy_ ≠ .BlockTimeout then none
    else some (s.setStack c (.enqueueMessage (.relock m timeout) :: rest))
  | _ => none

def return_ : Option (Nested Tid μ) :=
  match s.frames c with
  | .handler :: rest | .on_drop :: rest => some (s.setStack c rest)
  | _ => none

/-- What a handler throws is swallowed. What a callback throws leaves
`enqueueMessage`, and the guard unlocks the mutex. -/
def throw : Option (Nested Tid μ) :=
  match s.frames c with
  | .handler :: rest => some (s.setStack c rest)
  | .on_drop :: .enqueueMessage _ :: rest =>
    some { s.setStack c rest with
      publish_mutex_ := if cfg.policy_ = .DropOldest then none else s.publish_mutex_ }
  | _ => none

end Nested

section Machine

variable [DecidableEq Tid] [DecidableEq μ] (cfg : Config μ) (capacity : ℕ)

def step (s : Nested Tid μ) : NestedAction Tid μ → Option (Nested Tid μ)
  | .publish c m => s.publish cfg c m
  | .enqueueStep c => s.enqueueStep cfg capacity c
  | .wake c timeout => s.wake cfg c timeout
  | .return_ c => s.return_ c
  | .throw c => s.throw cfg c
  | .take =>
    match s.queue_ with
    | [] => none
    | m :: queue_ =>
      if cfg.num_dispatchers_ = 1 then
        if s.dispatching 0 then none
        else some { s with queue_, dispatching := update s.dispatching 0 true }
      else if s.routing.isNone then some { s with queue_, routing := some m }
      else none
  | .route =>
    match s.routing with
    | none => none
    | some m =>
      let queue := s.worker_queues_ (cfg.worker m)
      if queue.length < capacity then
        some { s with
          routing := none
          worker_queues_ := update s.worker_queues_ (cfg.worker m) (queue ++ [m]) }
      else none
  | .takeRouted i =>
    match s.worker_queues_ i with
    | [] => none
    | _ :: queue =>
      if cfg.num_dispatchers_ = 1 ∨ s.dispatching i then none
      else some { s with
        worker_queues_ := update s.worker_queues_ i queue
        dispatching := update s.dispatching i true }
  | .handle i =>
    if s.dispatching i ∧ s.frames (.dispatcher i) = [] then
      some (s.setStack (.dispatcher i) [.handler])
    else none
  | .finish i =>
    if s.dispatching i ∧ s.frames (.dispatcher i) = [] then
      some { s with dispatching := update s.dispatching i false }
    else none
  | .start =>
    if ¬ s.running_ ∧ ∀ i < cfg.num_dispatchers_, s.frames (.dispatcher i) = [] then
      some { s with running_ := true }
    else none
  | .stop => some { s with running_ := false }

def machine (Tid μ : Type) [DecidableEq Tid] [DecidableEq μ] (cfg : Config μ) (capacity : ℕ) :
    Machine (Nested Tid μ) (NestedAction Tid μ) where
  init s := s = {}
  step := step cfg capacity

end Machine

def calling : List (Frame μ) → Option (PubPc μ)
  | .enqueueMessage pc :: _ => some pc
  | _ => none

def LocksAgain (s : Nested Tid μ) (c : Thread Tid) : Prop :=
  (∃ m, calling (s.frames c) = some (.lockPublish m)) ∧ s.publish_mutex_ = some c

/-- The only dispatcher waits until somebody else makes room in the queue. -/
def WaitsForItself (cfg : Config μ) (s : Nested Tid μ) (c : Thread Tid) : Prop :=
  cfg.num_dispatchers_ = 1 ∧ c = .dispatcher 0 ∧ cfg.policy_ = .Block ∧ s.running_ = true ∧
    ∃ m, calling (s.frames c) = some (.park m) ∨ calling (s.frames c) = some (.parked m)

def SelfWait (cfg : Config μ) (s : Nested Tid μ) (c : Thread Tid) : Prop :=
  LocksAgain s c ∨ WaitsForItself cfg s c

def Relocks (cfg : Config μ) (s : Nested Tid μ) (c : Thread Tid) : Prop :=
  cfg.policy_ = .DropOldest ∧ Frame.on_drop ∈ s.frames c

/-- The thread looks for room once more before it waits. -/
def trying : List (Frame μ) → Bool
  | .enqueueMessage (.tryWaiting _ _) :: _ => true
  | _ => false

/-- A publish by a handler of the only dispatcher that finds the queue full. -/
def Parks (cfg : Config μ) (capacity : ℕ) (s : Nested Tid μ) (c : Thread Tid) : Prop :=
  cfg.num_dispatchers_ = 1 ∧ c = .dispatcher 0 ∧ cfg.policy_ = .Block ∧ s.running_ = true ∧
    capacity ≤ s.queue_.length ∧ trying (s.frames c) = true

def Peaceful (cfg : Config μ) (capacity : ℕ) (s : Nested Tid μ) : NestedAction Tid μ → Prop
  | .publish c _ => ¬ Relocks cfg s c
  | .enqueueStep c => ¬ Parks cfg capacity s c
  | _ => True

/-- The points of `enqueueMessage` that a policy comes to. -/
def suits (policy : FullPolicy) : PubPc μ → Prop
  | .tryEnqueue _ => policy ≠ .DropOldest
  | .notifyDrop _ => policy = .DropNewest
  | .lockPublish _ | .tryDropping _ | .takeOldest _ | .dropOldest _ _ => policy = .DropOldest
  | .lockWait _ | .park _ | .parked _ | .unlockWait _ _ =>
    policy = .Block ∨ policy = .BlockTimeout
  | .checkRunning _ last | .tryWaiting _ last | .relock _ last =>
    policy = .BlockTimeout ∨ policy = .Block ∧ last = false
  | .wakeDispatcher _ | .returning _ _ => True
  | .idle => False

def locked (policy : FullPolicy) : PubPc μ → Bool
  | .tryDropping _ | .takeOldest _ | .dropOldest _ _ => true
  | .wakeDispatcher _ | .returning _ _ => policy = .DropOldest
  | _ => false

def Frame.locked (policy : FullPolicy) : Frame μ → Bool
  | .enqueueMessage pc => Reentrancy.locked policy pc
  | _ => false

def suspended (policy : FullPolicy) : PubPc μ → Prop
  | .tryDropping _ => policy = .DropOldest
  | .returning _ _ => policy = .DropNewest
  | _ => False

inductive Proper (policy : FullPolicy) (c : Thread Tid) : List (Frame μ) → Prop
  | nil : Proper policy c []
  | handler : Proper policy c [.handler]
  | call {pc : PubPc μ} {rest : List (Frame μ)} : userCode c rest = true → suits policy pc →
      Proper policy c rest → Proper policy c (.enqueueMessage pc :: rest)
  | on_drop {pc : PubPc μ} {rest : List (Frame μ)} : suspended policy pc →
      Proper policy c (.enqueueMessage pc :: rest) →
      Proper policy c (.on_drop :: .enqueueMessage pc :: rest)

section Calls

variable {policy : FullPolicy} {c : Thread Tid} {pc pc' : PubPc μ} {rest : List (Frame μ)}

theorem Proper.on_drop_mem (h : Proper policy c rest) (huser : userCode c rest = true)
    (hlocked : rest.countP (Frame.locked policy) ≠ 0) : Frame.on_drop ∈ rest := by
  cases h with
  | nil => simp at hlocked
  | handler => simp [Frame.locked] at hlocked
  | call => cases c <;> cases huser
  | on_drop => exact List.mem_cons_self

/-- Under `DropOldest` a callback runs while the mutex is held. -/
theorem Proper.locked_of_on_drop (h : Proper .DropOldest c rest) (hmem : Frame.on_drop ∈ rest) :
    rest.countP (Frame.locked .DropOldest) ≠ 0 := by
  induction h with
  | nil => cases hmem
  | handler => simp at hmem
  | @call pc rest _ _ _ ih =>
    have hmem : Frame.on_drop ∈ rest := by simpa using hmem
    rw [List.countP_cons]
    have := ih hmem
    omega
  | @on_drop pc rest hsuspended _ _ =>
    have hlocked : locked .DropOldest pc = true := by
      cases pc <;> first | rfl | exact hsuspended.elim
    simp [Frame.locked, hlocked]

theorem resume_suits {resp : Resp μ} (h : suits policy pc) (hr : pc.resume policy resp = some pc') :
    suits policy pc' ∧ locked policy pc' = locked policy pc ∧ (∀ m, pc' ≠ .lockPublish m) ∧
      (∀ m, pc' ≠ .parked m) ∧
        ∀ m, pc' = .park m → (∃ last, pc = .tryWaiting m last) ∧ resp = .enqueued false := by
  cases pc with
  | tryEnqueue m =>
    rcases resp with (_ | _) | _
    · cases policy <;> cases hr <;> simp [suits, locked] at h ⊢
    · cases hr
      cases policy <;> simp [suits, locked] at h ⊢
    · cases hr
  | tryDropping m =>
    have hpolicy : policy = .DropOldest := h
    rcases resp with (_ | _) | _ <;> cases hr <;> simp [suits, locked, hpolicy]
  | takeOldest m =>
    have hpolicy : policy = .DropOldest := h
    rcases resp with (_ | _) | (_ | _) <;> cases hr <;> simp [suits, locked, hpolicy]
  | tryWaiting m last =>
    have hpolicy : policy = .Block ∨ policy = .BlockTimeout := h.symm.imp_left And.left
    rcases resp with (_ | _) | _
    · cases last <;> cases hr <;> simp [suits, locked, hpolicy]
    · cases hr
      simp [suits, locked, hpolicy]
    · cases hr
  | _ => cases hr

end Calls

section Waiting

variable {cfg : Config μ} {s t : Nested Tid μ} {c : Thread Tid} {rest : List (Frame μ)}

def blocking : PubPc μ → Prop
  | .lockPublish _ | .park _ | .parked _ => True
  | _ => False

theorem not_selfWait (h : ∀ pc, calling (s.frames c) = some pc → ¬ blocking pc) :
    ¬ SelfWait cfg s c := by
  rintro (⟨⟨m, hm⟩, _⟩ | ⟨_, _, _, _, m, hm | hm⟩)
  all_goals exact h _ hm trivial

theorem not_selfWait_of_none (hcalling : calling (s.frames c) = none) : ¬ SelfWait cfg s c := by
  refine not_selfWait fun pc hpc ↦ ?_
  rw [hcalling] at hpc
  cases hpc

theorem not_selfWait_of_call [DecidableEq Tid] {pc : PubPc μ}
    (hframes : t.frames = update s.frames c (.enqueueMessage pc :: rest)) (hpc : ¬ blocking pc) :
    ¬ SelfWait cfg t c := by
  refine not_selfWait fun pc' hpc' ↦ ?_
  rw [hframes, update_self, calling, Option.some.injEq] at hpc'
  exact hpc' ▸ hpc

theorem calling_userCode (huser : userCode c rest = true) : calling rest = none := by
  cases rest with
  | nil => rfl
  | cons frame rest =>
    cases frame with
    | enqueueMessage => cases c <;> cases huser
    | _ => rfl

/-- The stacks and the mutex stay, and nobody begins to wait. -/
structure Rests (cfg : Config μ) (s t : Nested Tid μ) : Prop where
  frames : t.frames = s.frames
  mutex : t.publish_mutex_ = s.publish_mutex_
  running : t.running_ = true → s.running_ = true ∨
    ∀ i < cfg.num_dispatchers_, s.frames (.dispatcher i) = []

theorem Rests.selfWait (hr : Rests cfg s t) (hw : SelfWait cfg t c) : SelfWait cfg s c := by
  rcases hw with ⟨hlock, hmutex⟩ | ⟨hone, hdisp, hpolicy, hrunning, hwaits⟩
  · exact .inl ⟨hr.frames ▸ hlock, hr.mutex ▸ hmutex⟩
  · rw [hr.frames] at hwaits
    rcases hr.running hrunning with hrunning | hidle
    · exact .inr ⟨hone, hdisp, hpolicy, hrunning, hwaits⟩
    · rw [hdisp, hidle 0 (hone ▸ Nat.one_pos)] at hwaits
      obtain ⟨m, hm | hm⟩ := hwaits <;> cases hm

end Waiting

section Steps

variable [DecidableEq Tid] {cfg : Config μ} {s t : Nested Tid μ} {c : Thread Tid}
variable {pc : PubPc μ} {stack rest : List (Frame μ)}

structure Inv (cfg : Config μ) (s : Nested Tid μ) : Prop where
  proper : ∀ c, Proper cfg.policy_ c (s.frames c)
  held : ∀ c, (s.frames c).countP (Frame.locked cfg.policy_) =
    if s.publish_mutex_ = some c then 1 else 0

structure Moves (cfg : Config μ) (c : Thread Tid) (s t : Nested Tid μ) : Prop where
  frames : ∀ c' ≠ c, t.frames c' = s.frames c'
  running : t.running_ = s.running_
  mutex : ∀ c' ≠ c, t.publish_mutex_ = some c' ↔ s.publish_mutex_ = some c'
  proper : Proper cfg.policy_ c (t.frames c)
  held : (t.frames c).countP (Frame.locked cfg.policy_) =
    if t.publish_mutex_ = some c then 1 else 0

theorem inv_initial : Inv cfg ({} : Nested Tid μ) := ⟨fun _ ↦ .nil, fun _ ↦ rfl⟩

theorem Inv.move (h : Inv cfg s) (hm : Moves cfg c s t) : Inv cfg t where
  proper c' := by
    by_cases hc : c' = c
    · exact hc ▸ hm.proper
    · rw [hm.frames c' hc]
      exact h.proper c'
  held c' := by
    by_cases hc : c' = c
    · exact hc ▸ hm.held
    · simp only [hm.frames c' hc, h.held c', hm.mutex c' hc]

theorem Moves.selfWait (hm : Moves cfg c s t) {c' : Thread Tid} (hc : c' ≠ c)
    (hw : SelfWait cfg t c') : SelfWait cfg s c' := by
  rcases hw with ⟨hlock, hmutex⟩ | ⟨hone, hdisp, hpolicy, hrunning, hwaits⟩
  · exact .inl ⟨hm.frames c' hc ▸ hlock, (hm.mutex c' hc).mp hmutex⟩
  · exact .inr ⟨hone, hdisp, hpolicy, hm.running ▸ hrunning, hm.frames c' hc ▸ hwaits⟩

/-- User code of a thread runs in a callback of `DropOldest` exactly when the
thread holds the mutex. -/
theorem Inv.relocks_iff (h : Inv cfg s) (huser : userCode c (s.frames c) = true)
    (hpolicy : cfg.policy_ = .DropOldest) :
    Frame.on_drop ∈ s.frames c ↔ s.publish_mutex_ = some c := by
  have hheld := h.held c
  refine ⟨fun hmem ↦ ?_, fun hmutex ↦ ?_⟩
  · have hproper := h.proper c
    rw [hpolicy] at hproper hheld
    have hne := hproper.locked_of_on_drop hmem
    rw [hheld] at hne
    exact Decidable.of_not_not fun hmutex ↦ hne (if_neg hmutex)
  · refine (h.proper c).on_drop_mem huser ?_
    rw [hheld, if_pos hmutex]
    exact Nat.one_ne_zero

theorem Inv.goto (h : Inv cfg s) (hframes : t.frames = update s.frames c stack)
    (hrunning : t.running_ = s.running_) (hmutex : t.publish_mutex_ = s.publish_mutex_)
    (hproper : Proper cfg.policy_ c stack)
    (hcount : stack.countP (Frame.locked cfg.policy_) =
      (s.frames c).countP (Frame.locked cfg.policy_)) : Moves cfg c s t := by
  refine ⟨fun c' hc ↦ ?_, hrunning, fun _ _ ↦ by rw [hmutex], ?_, ?_⟩
  · rw [hframes, update_of_ne hc]
  · rw [hframes, update_self]
    exact hproper
  · rw [hframes, update_self, hmutex, hcount]
    exact h.held c

theorem Inv.leave (h : Inv cfg s) (hframes : t.frames = update s.frames c rest)
    (hrunning : t.running_ = s.running_)
    (hmutex : t.publish_mutex_ = if cfg.policy_ = .DropOldest then none else s.publish_mutex_)
    (hproper : Proper cfg.policy_ c rest)
    (hcount : (s.frames c).countP (Frame.locked cfg.policy_) =
      rest.countP (Frame.locked cfg.policy_) + if cfg.policy_ = .DropOldest then 1 else 0) :
    Moves cfg c s t := by
  by_cases hpolicy : cfg.policy_ = .DropOldest
  · have hheld := h.held c
    rw [hcount, if_pos hpolicy] at hheld
    have hmine : s.publish_mutex_ = some c := by
      refine Decidable.of_not_not fun hnot ↦ ?_
      rw [if_neg hnot] at hheld
      cases hheld
    rw [if_pos hmine] at hheld
    have hnone : t.publish_mutex_ = none := hmutex.trans (if_pos hpolicy)
    refine ⟨fun c' hc ↦ ?_, hrunning, fun c' hc ↦ ?_, ?_, ?_⟩
    · rw [hframes, update_of_ne hc]
    · rw [hnone, hmine]
      simpa using Ne.symm hc
    · rw [hframes, update_self]
      exact hproper
    · rw [hframes, update_self, hnone]
      simpa using hheld
  · rw [if_neg hpolicy] at hmutex hcount
    exact h.goto hframes hrunning hmutex hproper hcount.symm

theorem Inv.lock (h : Inv cfg s) {pc' : PubPc μ} (hc : s.frames c = .enqueueMessage pc :: rest)
    (hframes : t.frames = update s.frames c (.enqueueMessage pc' :: rest))
    (hrunning : t.running_ = s.running_) (hfree : s.publish_mutex_ = none)
    (hmutex : t.publish_mutex_ = some c)
    (hproper : Proper cfg.policy_ c (.enqueueMessage pc' :: rest))
    (hlocked : locked cfg.policy_ pc' = true) : Moves cfg c s t := by
  have hheld := h.held c
  rw [hfree, hc, List.countP_cons] at hheld
  refine ⟨fun c' hc ↦ ?_, hrunning, fun c' hc ↦ ?_, ?_, ?_⟩
  · rw [hframes, update_of_ne hc]
  · rw [hmutex, hfree]
    simpa using Ne.symm hc
  · rw [hframes, update_self]
    exact hproper
  · have hnone : rest.countP (Frame.locked cfg.policy_) = 0 := by
      simp only [reduceCtorEq, if_false] at hheld
      omega
    rw [hframes, update_self, hmutex, List.countP_cons, hnone]
    simp [Frame.locked, hlocked]

variable {capacity : ℕ}

theorem Inv.publish [DecidableEq μ] {m : μ} (h : Inv cfg s)
    (hs : s.publish cfg c m = some t) :
    Moves cfg c s t ∧ (SelfWait cfg t c ↔ Relocks cfg s c) := by
  rw [Nested.publish] at hs
  split at hs
  · rename_i huser
    cases hs
    by_cases hpolicy : cfg.policy_ = .DropOldest
    · simp only [hpolicy, if_true]
      refine ⟨h.goto rfl rfl rfl (.call huser hpolicy (h.proper c)) ?_, ?_⟩
      · simp [Frame.locked, locked]
      · rw [Relocks, h.relocks_iff huser hpolicy]
        simp [SelfWait, LocksAgain, WaitsForItself, Nested.setStack, calling, hpolicy]
    · simp only [hpolicy, if_false]
      refine ⟨h.goto rfl rfl rfl (.call huser hpolicy (h.proper c)) ?_, ?_⟩
      · simp [Frame.locked, locked]
      · simp [SelfWait, LocksAgain, WaitsForItself, Nested.setStack, calling, Relocks, hpolicy]
  · cases hs

theorem queueStep_some {req : Req μ} (hs : s.queueStep cfg capacity c pc rest req = some t) :
    ∃ resp pc', pc.resume cfg.policy_ resp = some pc' ∧
      t.frames = update s.frames c (.enqueueMessage pc' :: rest) ∧ t.running_ = s.running_ ∧
        t.publish_mutex_ = s.publish_mutex_ ∧
          ((∃ m, req = .tryEnqueue m) →
            (resp = .enqueued false ↔ capacity ≤ s.queue_.length)) := by
  cases req with
  | tryEnqueue m =>
    simp only [Nested.queueStep] at hs
    split at hs
    · rename_i hroom
      obtain ⟨pc', hr, rfl⟩ := Option.map_eq_some_iff.mp hs
      refine ⟨_, pc', hr, rfl, rfl, rfl, fun _ ↦ ?_⟩
      simpa using hroom
    · rename_i hroom
      obtain ⟨pc', hr, rfl⟩ := Option.map_eq_some_iff.mp hs
      refine ⟨_, pc', hr, rfl, rfl, rfl, fun _ ↦ ?_⟩
      simpa using hroom
  | tryDequeue =>
    obtain ⟨pc', hr, rfl⟩ := Option.map_eq_some_iff.mp hs
    exact ⟨_, pc', hr, rfl, rfl, rfl, fun ⟨_, hreq⟩ ↦ by cases hreq⟩

theorem Inv.queueStep (h : Inv cfg s) (hc : s.frames c = .enqueueMessage pc :: rest) {req : Req μ}
    (hreq : pc.request = some req) (hs : s.queueStep cfg capacity c pc rest req = some t) :
    Moves cfg c s t ∧ (SelfWait cfg t c ↔ Parks cfg capacity s c) := by
  obtain ⟨resp, pc', hr, hframes, hrunning, hmutex, hfull⟩ := queueStep_some hs
  have hproper := h.proper c
  rw [hc] at hproper
  cases hproper with
  | call huser hsuits hrest =>
    obtain ⟨hsuits', hlocked, hlock, hparked, hpark⟩ := resume_suits hsuits hr
    have hcalling : calling (t.frames c) = some pc' := by rw [hframes, update_self]; rfl
    refine ⟨h.goto hframes hrunning hmutex (.call huser hsuits' hrest) ?_, ⟨?_, ?_⟩⟩
    · rw [hc, List.countP_cons, List.countP_cons, Frame.locked, Frame.locked, hlocked]
    · rintro (⟨⟨m, hm⟩, _⟩ | ⟨hone, hdisp, hpolicy, hrun, m, hm | hm⟩)
      · rw [hcalling, Option.some.injEq] at hm
        exact absurd hm (hlock m)
      · rw [hcalling, Option.some.injEq] at hm
        obtain ⟨⟨last, rfl⟩, hresp⟩ := hpark m hm
        rw [PubPc.request, Option.some.injEq] at hreq
        refine ⟨hone, hdisp, hpolicy, hrunning ▸ hrun, (hfull ⟨m, hreq.symm⟩).mp hresp, ?_⟩
        rw [hc]
        rfl
      · rw [hcalling, Option.some.injEq] at hm
        exact absurd hm (hparked m)
    · rintro ⟨hone, hdisp, hpolicy, hrun, hlen, htrying⟩
      rw [hc] at htrying
      cases pc with
      | tryWaiting m last =>
        rw [PubPc.request, Option.some.injEq] at hreq
        rw [(hfull ⟨m, hreq.symm⟩).mpr hlen] at hr
        have hlast : last = false := by
          rcases hsuits with hother | ⟨_, hlast⟩
          · rw [hpolicy] at hother
            cases hother
          · exact hlast
        subst hlast
        cases hr
        exact .inr ⟨hone, hdisp, hpolicy, hrunning.trans hrun, m, .inl hcalling⟩
      | _ => cases htrying

theorem Inv.advance (h : Inv cfg s) (hc : s.frames c = .enqueueMessage pc :: rest) {pc' : PubPc μ}
    (hframes : t.frames = update s.frames c (.enqueueMessage pc' :: rest))
    (hrunning : t.running_ = s.running_) (hmutex : t.publish_mutex_ = s.publish_mutex_)
    (hsuits : suits cfg.policy_ pc') (hlocked : locked cfg.policy_ pc' = locked cfg.policy_ pc) :
    Moves cfg c s t := by
  have hproper := h.proper c
  rw [hc] at hproper
  cases hproper with
  | call huser _ hrest =>
    apply h.goto hframes hrunning hmutex (.call huser hsuits hrest)
    rw [hc, List.countP_cons, List.countP_cons, Frame.locked, Frame.locked, hlocked]

theorem Inv.notify_drop [DecidableEq μ] (h : Inv cfg s)
    (hc : s.frames c = .enqueueMessage pc :: rest) {pc' : PubPc μ} {m : μ}
    (hsuspended : suspended cfg.policy_ pc')
    (hlocked : locked cfg.policy_ pc' = locked cfg.policy_ pc) :
    Moves cfg c s (s.notify_drop c m pc' rest) ∧ ¬ SelfWait cfg (s.notify_drop c m pc' rest) c := by
  have hsuits : suits cfg.policy_ pc' := by
    cases pc' <;> first | exact hsuspended | trivial
  have hproper := h.proper c
  rw [hc] at hproper
  have hcall : Proper cfg.policy_ c (.enqueueMessage pc' :: rest) := by
    cases hproper with
    | call huser _ hrest => exact .call huser hsuits hrest
  rw [Nested.notify_drop]
  split
  · refine ⟨h.goto rfl rfl rfl (.on_drop hsuspended hcall) ?_, not_selfWait_of_none ?_⟩
    · rw [hc, List.countP_cons_of_neg (by simp [Frame.locked]), List.countP_cons, List.countP_cons,
        Frame.locked, Frame.locked, hlocked]
    · simp only [Nested.setStack, update_self]
      rfl
  · refine ⟨h.advance hc rfl rfl rfl hsuits hlocked, ?_⟩
    apply not_selfWait_of_call rfl
    cases pc' <;> first | exact hsuspended.elim | exact id

theorem Inv.localStep [DecidableEq μ] (h : Inv cfg s) (hc : s.frames c = .enqueueMessage pc :: rest)
    (hnone : ¬ SelfWait cfg s c) (hs : s.localStep cfg c pc rest = some t) :
    Moves cfg c s t ∧ ¬ SelfWait cfg t c := by
  have hproper := h.proper c
  rw [hc] at hproper
  obtain ⟨huser, hsuits, hrest⟩ : userCode c rest = true ∧ suits cfg.policy_ pc ∧
      Proper cfg.policy_ c rest := by
    cases hproper with
    | call huser hsuits hrest => exact ⟨huser, hsuits, hrest⟩
  cases pc with
  | notifyDrop m =>
    cases hs
    have hpolicy : cfg.policy_ = .DropNewest := hsuits
    exact h.notify_drop hc hpolicy (by simp [locked, hpolicy])
  | lockPublish m =>
    simp only [Nested.localStep] at hs
    split at hs
    · rename_i hmutex
      cases hs
      exact ⟨h.lock hc rfl rfl hmutex rfl (.call huser hsuits hrest) rfl,
        not_selfWait_of_call rfl id⟩
    · cases hs
  | dropOldest m oldest =>
    cases hs
    exact h.notify_drop hc hsuits rfl
  | lockWait m =>
    simp only [Nested.localStep] at hs
    split at hs
    · cases hs
      have hsuits' : suits cfg.policy_ (.checkRunning m false) :=
        hsuits.symm.imp_right fun h ↦ ⟨h, rfl⟩
      exact ⟨h.advance hc rfl rfl rfl hsuits' rfl, not_selfWait_of_call rfl id⟩
    · cases hs
  | checkRunning m last =>
    cases hs
    split
    · exact ⟨h.advance hc rfl rfl rfl hsuits rfl, not_selfWait_of_call rfl id⟩
    · have hsuits' : suits cfg.policy_ (.unlockWait m false) := hsuits.symm.imp_left And.left
      exact ⟨h.advance hc rfl rfl rfl hsuits' rfl, not_selfWait_of_call rfl id⟩
  | park m =>
    cases hs
    refine ⟨h.advance hc rfl rfl rfl hsuits rfl, ?_⟩
    -- it waited at `park` already
    rintro (⟨⟨m', hm'⟩, _⟩ | ⟨hone, hdisp, hpolicy, hrunning, _⟩)
    · simp [Nested.setStack, calling] at hm'
    · exact hnone (.inr ⟨hone, hdisp, hpolicy, hrunning, m, .inl (by rw [hc]; rfl)⟩)
  | relock m last =>
    simp only [Nested.localStep] at hs
    split at hs
    · cases hs
      exact ⟨h.advance hc rfl rfl rfl hsuits rfl, not_selfWait_of_call rfl id⟩
    · cases hs
  | unlockWait m enqueued =>
    cases hs
    have hnot : cfg.policy_ ≠ .DropOldest := by
      intro hpolicy
      rcases hsuits with hother | hother <;> rw [hpolicy] at hother <;> cases hother
    have hlocked : ∀ m', locked cfg.policy_ (.wakeDispatcher m' : PubPc μ) = false ∧
        locked cfg.policy_ (.returning m' false : PubPc μ) = false :=
      fun m' ↦ ⟨by simp [locked, hnot], by simp [locked, hnot]⟩
    cases enqueued with
    | true => exact ⟨h.advance hc rfl rfl rfl trivial (hlocked m).1, not_selfWait_of_call rfl id⟩
    | false => exact ⟨h.advance hc rfl rfl rfl trivial (hlocked m).2, not_selfWait_of_call rfl id⟩
  | wakeDispatcher m =>
    cases hs
    exact ⟨h.advance hc rfl rfl rfl trivial rfl, not_selfWait_of_call rfl id⟩
  | returning m result =>
    cases hs
    refine ⟨h.leave rfl rfl rfl hrest ?_, not_selfWait_of_none ?_⟩
    · rw [hc, List.countP_cons, Frame.locked, locked]
      simp
    · simp only [Nested.setStack, update_self]
      exact calling_userCode huser
  | idle | tryEnqueue | tryDropping | takeOldest | tryWaiting | parked => cases hs

theorem Inv.wake (h : Inv cfg s) {timeout : Bool} (hs : s.wake cfg c timeout = some t) :
    Moves cfg c s t ∧ ¬ SelfWait cfg t c := by
  rw [Nested.wake] at hs
  split at hs
  · rename_i m rest hc
    split at hs
    · cases hs
    · rename_i htimeout
      cases hs
      have hproper := h.proper c
      rw [hc] at hproper
      cases hproper with
      | call huser hsuits hrest =>
        refine ⟨h.advance hc rfl rfl rfl ?_ rfl, not_selfWait_of_call rfl id⟩
        rcases hsuits with hpolicy | hpolicy
        · refine .inr ⟨hpolicy, ?_⟩
          cases timeout with
          | false => rfl
          | true => exact absurd ⟨rfl, by simp [hpolicy]⟩ htimeout
        · exact .inl hpolicy
  · cases hs

theorem Inv.return_ (h : Inv cfg s) (hs : s.return_ c = some t) :
    Moves cfg c s t ∧ ¬ SelfWait cfg t c := by
  have hproper := h.proper c
  rw [Nested.return_] at hs
  split at hs
  · rename_i rest hc
    cases hs
    rw [hc] at hproper
    cases hproper
    refine ⟨h.goto rfl rfl rfl .nil (by simp [hc, Frame.locked]), not_selfWait_of_none ?_⟩
    simp only [Nested.setStack, update_self]
    rfl
  · rename_i rest hc
    cases hs
    rw [hc] at hproper
    cases hproper with
    | @on_drop pc _ hsuspended hcall =>
      refine ⟨h.goto rfl rfl rfl hcall (by simp [hc, Frame.locked]), not_selfWait_of_call rfl ?_⟩
      cases pc <;> first | exact hsuspended.elim | exact id
  · cases hs

theorem Inv.throw (h : Inv cfg s) (hs : s.throw cfg c = some t) :
    Moves cfg c s t ∧ ¬ SelfWait cfg t c := by
  have hproper := h.proper c
  rw [Nested.throw] at hs
  split at hs
  · rename_i rest hc
    cases hs
    rw [hc] at hproper
    cases hproper
    refine ⟨h.goto rfl rfl rfl .nil (by simp [hc, Frame.locked]), not_selfWait_of_none ?_⟩
    simp only [Nested.setStack, update_self]
    rfl
  · rename_i pc rest hc
    cases hs
    rw [hc] at hproper
    cases hproper with
    | on_drop hsuspended hcall =>
      cases hcall with
      | call huser _ hrest =>
        refine ⟨h.leave rfl rfl rfl hrest ?_, not_selfWait_of_none ?_⟩
        · have hlocked : locked cfg.policy_ pc = decide (cfg.policy_ = .DropOldest) := by
            cases pc with
            | tryDropping => simp [locked, show cfg.policy_ = .DropOldest from hsuspended]
            | returning => rfl
            | _ => exact hsuspended.elim
          rw [hc, List.countP_cons_of_neg (by simp [Frame.locked]), List.countP_cons, Frame.locked,
            hlocked]
          simp
        · simp only [Nested.setStack, update_self]
          exact calling_userCode huser
  · cases hs

theorem Inv.enqueueStep [DecidableEq μ] (h : Inv cfg s) (hnone : ¬ SelfWait cfg s c)
    (hs : s.enqueueStep cfg capacity c = some t) :
    Moves cfg c s t ∧ (SelfWait cfg t c ↔ Parks cfg capacity s c) := by
  rw [Nested.enqueueStep] at hs
  split at hs
  · rename_i pc rest hc
    cases hreq : pc.request with
    | some req =>
      simp only [hreq] at hs
      exact h.queueStep hc hreq hs
    | none =>
      simp only [hreq] at hs
      obtain ⟨hm, hnot⟩ := h.localStep hc hnone hs
      refine ⟨hm, fun hw ↦ absurd hw hnot, fun ⟨_, _, _, _, _, htrying⟩ ↦ ?_⟩
      rw [hc] at htrying
      cases pc with
      | tryWaiting => cases hreq
      | _ => cases htrying
  · cases hs

theorem Rests.inv (hr : Rests cfg s t) (h : Inv cfg s) : Inv cfg t where
  proper c := hr.frames ▸ h.proper c
  held c := by rw [hr.frames, hr.mutex, h.held c]

end Steps

section Runs

variable [DecidableEq Tid] [DecidableEq μ] {cfg : Config μ} {capacity : ℕ}
variable {s t : Nested Tid μ}

theorem step_rests {a : NestedAction Tid μ} (hs : step cfg capacity s a = some t) :
    match a with
    | .take | .route | .takeRouted _ | .finish _ | .start | .stop => Rests cfg s t
    | _ => True := by
  have hsame : ∀ {t : Nested Tid μ}, t.frames = s.frames → t.publish_mutex_ = s.publish_mutex_ →
      t.running_ = s.running_ → Rests cfg s t :=
    fun hframes hmutex hrunning ↦ ⟨hframes, hmutex, fun h ↦ .inl (hrunning ▸ h)⟩
  cases a with
  | take | route | takeRouted | finish =>
    simp only [step] at hs
    repeat' split at hs
    all_goals cases hs <;> exact hsame rfl rfl rfl
  | start =>
    simp only [step] at hs
    split at hs
    · rename_i hidle
      cases hs
      exact ⟨rfl, rfl, fun _ ↦ .inr hidle.2⟩
    · cases hs
  | stop =>
    cases hs
    exact ⟨rfl, rfl, fun h ↦ by cases h⟩
  | _ => trivial

/-- From a state where nobody waits for itself, exactly the peaceful steps lead
to another one. -/
theorem Inv.step (h : Inv cfg s) (hnone : ∀ c, ¬ SelfWait cfg s c) {a : NestedAction Tid μ}
    (hs : Reentrancy.step cfg capacity s a = some t) :
    Inv cfg t ∧ (Peaceful cfg capacity s a ↔ ∀ c, ¬ SelfWait cfg t c) := by
  have hmoves : ∀ {c} {P : Prop}, Moves cfg c s t → (SelfWait cfg t c ↔ P) →
      Inv cfg t ∧ (¬ P ↔ ∀ c, ¬ SelfWait cfg t c) := by
    intro c P hm hiff
    refine ⟨h.move hm, fun hP c' hw ↦ ?_, fun hnot hP ↦ hnot c (hiff.mpr hP)⟩
    by_cases hc : c' = c
    · subst hc
      exact hP (hiff.mp hw)
    · exact hnone c' (hm.selfWait hc hw)
  have hquiet : ∀ {c}, Moves cfg c s t → ¬ SelfWait cfg t c →
      Inv cfg t ∧ (True ↔ ∀ c, ¬ SelfWait cfg t c) := by
    intro c hm hnot
    obtain ⟨hinv, hiff⟩ := hmoves (P := False) hm (iff_false_intro hnot)
    exact ⟨hinv, fun _ ↦ hiff.mp id, fun _ ↦ trivial⟩
  have hrests : Rests cfg s t → Inv cfg t ∧ (True ↔ ∀ c, ¬ SelfWait cfg t c) :=
    fun hr ↦ ⟨hr.inv h, fun _ c hw ↦ hnone c (hr.selfWait hw), fun _ ↦ trivial⟩
  have hstep := step_rests hs
  cases a with
  | publish c m =>
    obtain ⟨hm, hiff⟩ := h.publish hs
    exact hmoves hm hiff
  | enqueueStep c =>
    obtain ⟨hm, hiff⟩ := h.enqueueStep (hnone c) hs
    exact hmoves hm hiff
  | wake c timeout =>
    obtain ⟨hm, hnot⟩ := h.wake hs
    exact hquiet hm hnot
  | return_ c =>
    obtain ⟨hm, hnot⟩ := h.return_ hs
    exact hquiet hm hnot
  | throw c =>
    obtain ⟨hm, hnot⟩ := h.throw hs
    exact hquiet hm hnot
  | handle i =>
    simp only [Reentrancy.step] at hs
    split at hs
    · rename_i hidle
      cases hs
      have hm : Moves cfg (.dispatcher i) s (s.setStack (.dispatcher i) [.handler]) :=
        h.goto rfl rfl rfl .handler (by simp [hidle.2, Frame.locked])
      refine hquiet hm (not_selfWait_of_none ?_)
      simp only [Nested.setStack, update_self]
      rfl
    · cases hs
  | take | route | takeRouted | finish | start | stop => exact hrests hstep

/-- As long as no callback of `DropOldest` publishes and no handler of the only
dispatcher publishes into a full queue under `Block`, no thread waits for itself;
and the first step that does one of these makes a thread do so. -/
theorem waits_for_itself_iff (hs : (machine Tid μ cfg capacity).Reaches (Peaceful cfg capacity) s) :
    (∀ c, ¬ SelfWait cfg s c) ∧ ∀ a t, step cfg capacity s a = some t →
      (Peaceful cfg capacity s a ↔ ∀ c, ¬ SelfWait cfg t c) := by
  have hinv : Inv cfg s ∧ ∀ c, ¬ SelfWait cfg s c := by
    refine Machine.Reaches.invariant (P := fun s ↦ Inv cfg s ∧ ∀ c, ¬ SelfWait cfg s c)
      (fun s hs ↦ ?_) (fun s a t _ h ha ht ↦ ?_) hs
    · rw [show s = {} from hs]
      exact ⟨inv_initial, fun c ↦ not_selfWait_of_none rfl⟩
    · obtain ⟨hinv, hiff⟩ := h.1.step h.2 ht
      exact ⟨hinv, hiff.mp ha⟩
  exact ⟨hinv.2, fun a t ht ↦ (hinv.1.step hinv.2 ht).2⟩

end Runs

instance [DecidableEq Tid] [DecidableEq μ] (cfg : Config μ) (capacity : ℕ) (s : Nested Tid μ)
    (a : NestedAction Tid μ) : Decidable (Peaceful cfg capacity s a) :=
  match a with
  | .publish c _ =>
    inferInstanceAs (Decidable (¬ (cfg.policy_ = .DropOldest ∧ Frame.on_drop ∈ s.frames c)))
  | .enqueueStep c => inferInstanceAs (Decidable (¬ (cfg.num_dispatchers_ = 1 ∧ c = .dispatcher 0 ∧
      cfg.policy_ = .Block ∧ s.running_ = true ∧ capacity ≤ s.queue_.length ∧
        trying (s.frames c) = true)))
  | .wake .. | .return_ _ | .throw _ | .take | .route | .takeRouted _ | .handle _ | .finish _
  | .start | .stop => .isTrue trivial

def single (policy_ : FullPolicy) : Config ℕ where
  policy_ := policy_
  num_dispatchers_ := 1
  num_dispatchers_pos := Nat.one_pos
  topic_id _ := 1
  hash n := n
  has_on_drop _ := true

def publisher : Thread Unit := .outside ()

def dropsNewest : List (NestedAction Unit ℕ) :=
  [.start, .publish publisher 0, .enqueueStep publisher, .enqueueStep publisher,
    .enqueueStep publisher, .publish publisher 1, .enqueueStep publisher, .enqueueStep publisher,
    .enqueueStep publisher, .publish publisher 2, .enqueueStep publisher, .enqueueStep publisher,
    .publish publisher 3]

theorem dropsNewest_run : ((machine Unit ℕ (single .DropNewest) 2).runIf
    (Peaceful (single .DropNewest) 2) {} dropsNewest).map (fun s ↦ s.frames publisher) =
      some [.enqueueMessage (.tryEnqueue 3), .on_drop, .enqueueMessage (.returning 2 true)] := by
  decide +kernel

theorem waits_for_itself_iff_dropsNewest : ∃ s : Nested Unit ℕ,
    s.frames publisher =
      [.enqueueMessage (.tryEnqueue 3), .on_drop, .enqueueMessage (.returning 2 true)] ∧
        ∀ c, ¬ SelfWait (single .DropNewest) s c := by
  obtain ⟨s, hrun, he⟩ := Option.map_eq_some_iff.mp dropsNewest_run
  have hs : (machine Unit ℕ (single .DropNewest) 2).Reaches (Peaceful (single .DropNewest) 2) s :=
    .of_runIf (.start rfl) dropsNewest hrun
  exact ⟨s, he, (waits_for_itself_iff hs).1⟩

def dropsOldest : List (NestedAction Unit ℕ) :=
  [.start, .publish publisher 0, .enqueueStep publisher, .enqueueStep publisher,
    .enqueueStep publisher, .enqueueStep publisher, .publish publisher 1, .enqueueStep publisher,
    .enqueueStep publisher, .enqueueStep publisher, .enqueueStep publisher, .publish publisher 2,
    .enqueueStep publisher, .enqueueStep publisher, .enqueueStep publisher, .enqueueStep publisher,
    .publish publisher 3]

def blocksDispatcher : List (NestedAction Unit ℕ) :=
  [.start, .publish publisher 0, .enqueueStep publisher, .enqueueStep publisher,
    .enqueueStep publisher, .take, .handle 0, .publish publisher 1, .enqueueStep publisher,
    .enqueueStep publisher, .enqueueStep publisher, .publish publisher 2, .enqueueStep publisher,
    .enqueueStep publisher, .enqueueStep publisher, .publish (.dispatcher 0) 3,
    .enqueueStep (.dispatcher 0), .enqueueStep (.dispatcher 0), .enqueueStep (.dispatcher 0),
    .enqueueStep (.dispatcher 0), .enqueueStep (.dispatcher 0)]

theorem dropsOldest_run : ((machine Unit ℕ (single .DropOldest) 2).run {} dropsOldest).map
    (fun s ↦ (calling (s.frames publisher), s.publish_mutex_, s.running_)) =
      some (some (.lockPublish 3), some publisher, true) := by
  decide +kernel

theorem blocksDispatcher_run : ((machine Unit ℕ (single .Block) 2).run {} blocksDispatcher).map
    (fun s ↦ (calling (s.frames (.dispatcher 0)), s.running_)) = some (some (.parked 3), true) := by
  decide +kernel

/-- A publisher locks the mutex that it holds, and the only dispatcher waits for
room in the queue that it should empty. -/
theorem waits_for_itself :
    (∃ s, (machine Unit ℕ (single .DropOldest) 2).Reachable s ∧ s.running_ = true ∧
      LocksAgain s publisher) ∧
    ∃ s, (machine Unit ℕ (single .Block) 2).Reachable s ∧
      WaitsForItself (single .Block) s (.dispatcher 0) := by
  constructor
  · obtain ⟨s, hrun, he⟩ := Option.map_eq_some_iff.mp dropsOldest_run
    simp only [Prod.mk.injEq] at he
    exact ⟨s, .of_run (M := machine Unit ℕ (single .DropOldest) 2) rfl dropsOldest hrun, he.2.2,
      ⟨3, he.1⟩, he.2.1⟩
  · obtain ⟨s, hrun, he⟩ := Option.map_eq_some_iff.mp blocksDispatcher_run
    simp only [Prod.mk.injEq] at he
    exact ⟨s, .of_run (M := machine Unit ℕ (single .Block) 2) rfl blocksDispatcher hrun,
      rfl, rfl, rfl, he.2, 3, .inr he.1⟩

end LivioArk.Msgbus.Reentrancy
