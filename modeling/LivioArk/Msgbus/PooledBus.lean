import LivioArk.Library.Holdings
import LivioArk.Library.Transition
import LivioArk.Msgbus.MessageBus
import LivioArk.Msgbus.PublishPaths

namespace LivioArk.Msgbus.PooledBus

open Function Levels TopicRegistry Message PublishPaths
open LivioArk.Library.Transition LivioArk.Library.Holdings
open MessageBus (FullPolicy)

/-- How messages are made, shared and given back: the part of the bus in which
the code and a bus without a pool differ. `S` is the memory, `ρ` a pointer to a
message and `η` a topic handle. -/
structure Implementation (τ κ δ S ρ η : Type) where
  publish : τ → Bool → Str → δ → Registry → S → ρ × S × Registry
  publishOnDrop : τ → Bool → Str → δ → Option κ → Registry → S → ρ × S × Registry
  topic : τ → Str → Registry → η × Registry
  topicOnDrop : τ → Str → Option κ → Registry → η × Registry
  handlePublish : η → Bool → δ → Registry → S → ρ × S × Registry
  copy : ρ → S → S
  reset : Bool → ρ → S → S
  notify_drop : ρ → S → Option (DropCall κ δ) × S
  content : S → ρ → Option (Content τ κ δ)

/-- The code: the objects are pooled and a handle keeps what it resolved. -/
def pooled (τ κ δ : Type) [DecidableEq τ] :
    Implementation τ κ δ (Heap τ κ δ) ℕ (TopicHandle τ κ) where
  publish := publish
  publishOnDrop := publishOnDrop
  topic := topic
  topicOnDrop := topicOnDrop
  handlePublish handle hit msg registry_ h :=
    ((handle.publish hit msg h).1, (handle.publish hit msg h).2, registry_)
  copy := MessagePtr.copy
  reset := MessagePtr.reset
  notify_drop := Heap.notify_drop
  content := Heap.content

namespace Reference

structure NamedTopic (τ κ : Type) where
  type : τ
  name : Str
  on_drop : Option κ := none

variable {τ κ δ : Type}

/-- Each publish makes one more message, which lives for ever, and looks its
topic up by name. -/
def publish (T : τ) (topic : Str) (msg : δ) (on_drop : Option κ) (registry_ : Registry)
    (messages : List (Content τ κ δ)) : ℕ × List (Content τ κ δ) × Registry :=
  let (tid, registry_) := resolve topic registry_
  (messages.length, messages ++ [⟨T, tid, to_string tid registry_, msg, on_drop⟩], registry_)

def topic (T : τ) (name : Str) (on_drop : Option κ) (registry_ : Registry) :
    NamedTopic τ κ × Registry :=
  ({ type := T, name, on_drop }, (resolve name registry_).2)

def notify_drop (message : ℕ) (messages : List (Content τ κ δ)) :
    Option (DropCall κ δ) × List (Content τ κ δ) :=
  match messages[message]? with
  | none => (none, messages)
  | some c =>
    (c.on_drop.map fun cb ↦ ⟨cb, c.topic_sv, c.data⟩,
      messages.set message { c with on_drop := none })

end Reference

def reference (τ κ δ : Type) :
    Implementation τ κ δ (List (Content τ κ δ)) ℕ (Reference.NamedTopic τ κ) where
  publish T _ topic msg := Reference.publish T topic msg none
  publishOnDrop T _ := Reference.publish T
  topic T name := Reference.topic T name none
  topicOnDrop := Reference.topic
  handlePublish handle _ msg := Reference.publish handle.type handle.name msg handle.on_drop
  copy _ messages := messages
  reset _ _ messages := messages
  notify_drop := Reference.notify_drop
  content messages message := messages[message]?

structure Config (B : Type) where
  policy_ : B → FullPolicy
  queue_capacity_ : B → ℕ
  num_dispatchers_ : B → ℕ
  hash : ℕ → ℕ

inductive Consumer (B : Type)
  | loop (b : B)
  | worker (b : B) (i : ℕ)
  deriving DecidableEq

/-- Where a `MessagePtr` is: in a queue, in a variable of a thread, or in the
parameter of `try_enqueue` when a publisher or a router calls it. -/
inductive Place (B P : Type)
  | queue_ (b : B)
  | worker_queues_ (b : B) (i : ℕ)
  | mptr (p : P)
  | oldest (p : P)
  | msg (c : Consumer B)
  | value (p : P)
  | routedValue (b : B)
  deriving DecidableEq

inductive PubPc (B : Type)
  | idle
  | tryEnqueue (b : B)
  | notifyNewest (b : B)
  | takeOldest (b : B)
  | notifyOldest (b : B)
  | waiting (b : B)
  | leaving (result : Bool)
  | returning (result : Bool)

inductive Event (τ κ δ B P : Type)
  | returned (p : P) (result : Bool)
  | dispatched (c : Consumer B) (type : τ) (topic_id : ℕ) (topic_sv : Str) (data : δ)
  | dropped (call : DropCall κ δ)
  deriving DecidableEq

/-- The buses and their threads without the messages. `busy` consumers have a
message that is not dispatched or routed yet. -/
structure Control (τ κ δ B P : Type) where
  registries : B → Registry := fun _ ↦ {}
  running_ : B → Bool := fun _ ↦ false
  publishers : P → PubPc B := fun _ ↦ .idle
  busy : Consumer B → Bool := fun _ ↦ false
  log : List (Event τ κ δ B P) := []

/-- All that the buses share. There are no mutexes in it: they rule schedules
out, and what holds of every schedule holds of those that are left. -/
structure System (τ κ δ B P H S ρ η : Type) where
  control : Control τ κ δ B P := {}
  handles : H → Option (B × η) := fun _ ↦ none
  ptrs : List (Place B P × ρ) := []
  store : S

/-- A scheduled step. `hit`, `contended` and `full` resolve what the lock-free
queues leave open: whether an acquire finds an object, whether another thread is
in the way, and whether a pool has no place. `discard` is a step of the
destructor of the queue that a consumer reads. -/
inductive Action (τ κ δ B P H : Type)
  | start (b : B)
  | stop (b : B)
  | publish (p : P) (b : B) (T : τ) (topic : Str) (msg : δ) (hit : Bool)
  | publishOnDrop (p : P) (b : B) (T : τ) (topic : Str) (msg : δ) (on_drop : Option κ) (hit : Bool)
  | topic (h : H) (b : B) (T : τ) (topic : Str)
  | topicOnDrop (h : H) (b : B) (T : τ) (topic : Str) (on_drop : Option κ)
  | handlePublish (p : P) (h : H) (msg : δ) (hit : Bool)
  | enqueue (p : P) (contended full : Bool)
  | retry (p : P) (last contended full : Bool)
  | takeOldest (p : P) (contended full : Bool)
  | notifyDrop (p : P)
  | leave (p : P) (full : Bool)
  | finish (p : P) (full : Bool)
  | take (c : Consumer B) (contended full : Bool)
  | dispatch (c : Consumer B)
  | route (b : B) (contended full : Bool)
  | release (c : Consumer B) (full : Bool)
  | discard (c : Consumer B) (full : Bool)

variable {τ κ δ B P H S ρ η : Type} [DecidableEq B] [DecidableEq P] [DecidableEq H]

namespace System

variable (s : System τ κ δ B P H S ρ η)

section Pointers

variable (I : Implementation τ κ δ S ρ η)

/-- `dst` is constructed as a copy of `src`. -/
def copyTo (src dst : Place B P) : System τ κ δ B P H S ρ η :=
  match first src s.ptrs with
  | some r => { s with ptrs := s.ptrs ++ [(dst, r)], store := I.copy r s.store }
  | none => s

def moveTo (src dst : Place B P) : System τ κ δ B P H S ρ η :=
  match first src s.ptrs with
  | some r => { s with ptrs := remove src s.ptrs ++ [(dst, r)] }
  | none => s

def reset (full : Bool) (place : Place B P) : System τ κ δ B P H S ρ η :=
  match first place s.ptrs with
  | some r => { s with ptrs := remove place s.ptrs, store := I.reset full r s.store }
  | none => s

def notify_drop (place : Place B P) : System τ κ δ B P H S ρ η :=
  match first place s.ptrs with
  | some r =>
    let (call, store) := I.notify_drop r s.store
    { s with
      store
      control := { s.control with log := s.control.log ++ (call.map .dropped).toList } }
  | none => s

def content (place : Place B P) : Option (Content τ κ δ) :=
  (first place s.ptrs).bind (I.content s.store)

/-- `mptr` is passed to `try_enqueue`: `ReturnFalse` needs it no more. -/
def passValue (policy : FullPolicy) (p : P) : System τ κ δ B P H S ρ η :=
  match policy with
  | .ReturnFalse => s.moveTo (.mptr p) (.value p)
  | _ => s.copyTo I (.mptr p) (.value p)

/-- The body of `try_enqueue` and the end of its parameter `value`. -/
def try_enqueue (capacity : ℕ) (queue value : Place B P) (contended full : Bool) :
    Bool × System τ κ δ B P H S ρ η :=
  if !contended ∧ held queue s.ptrs < capacity then (true, s.moveTo value queue)
  else (false, s.reset I full value)

def try_dequeue (queue value : Place B P) (contended full : Bool) :
    Bool × System τ κ δ B P H S ρ η :=
  if contended ∨ held queue s.ptrs = 0 then (false, s)
  else (true, (s.reset I full value).moveTo queue value)

end Pointers

def goto (p : P) (pc : PubPc B) : System τ κ δ B P H S ρ η :=
  { s with control := { s.control with publishers := update s.control.publishers p pc } }

def setBusy (c : Consumer B) (busy : Bool) : System τ κ δ B P H S ρ η :=
  { s with control := { s.control with busy := update s.control.busy c busy } }

def setRunning (b : B) (running : Bool) : System τ κ δ B P H S ρ η :=
  { s with control := { s.control with running_ := update s.control.running_ b running } }

def record (e : Event τ κ δ B P) : System τ κ δ B P H S ρ η :=
  { s with control := { s.control with log := s.control.log ++ [e] } }

def setRegistry (b : B) (r : Registry) : System τ κ δ B P H S ρ η :=
  { s with control := { s.control with registries := update s.control.registries b r } }

def enqueueMessage (p : P) (b : B) (built : ρ × S × Registry) : System τ κ δ B P H S ρ η :=
  ({ s with ptrs := s.ptrs ++ [(Place.mptr p, built.1)], store := built.2.1 }.setRegistry b
    built.2.2).goto p (.tryEnqueue b)

def setHandle (h : H) (b : B) (made : η × Registry) : System τ κ δ B P H S ρ η :=
  { s with handles := update s.handles h (some (b, made.1)) }.setRegistry b made.2

end System

/-- Where a publisher goes on when its first attempt has failed. Under
`DropOldest` the attempt and the retry loop run through the same points. -/
def PubPc.refused (policy : FullPolicy) (b : B) : PubPc B :=
  match policy with
  | .ReturnFalse => .leaving false
  | .DropNewest => .notifyNewest b
  | .DropOldest => .takeOldest b
  | .Block | .BlockTimeout => .waiting b

def Consumer.source : Consumer B → Place B P
  | .loop b => .queue_ b
  | .worker b i => .worker_queues_ b i

def Consumer.dispatches (cfg : Config B) : Consumer B → Bool
  | .loop b => cfg.num_dispatchers_ b = 1
  | .worker _ _ => true

section Step

variable (I : Implementation τ κ δ S ρ η) (cfg : Config B) (s : System τ κ δ B P H S ρ η)

def enqueueStep (p : P) (contended full : Bool) : Option (System τ κ δ B P H S ρ η) :=
  match s.control.publishers p with
  | .tryEnqueue b =>
    let (ok, s) := (s.passValue I (cfg.policy_ b) p).try_enqueue I (cfg.queue_capacity_ b)
      (.queue_ b) (.value p) contended full
    some (s.goto p (if ok then .leaving true else .refused (cfg.policy_ b) b))
  | _ => none

/-- The predicate of a waiting publisher. With `last` the deadline has passed. -/
def retryStep (p : P) (last contended full : Bool) : Option (System τ κ δ B P H S ρ η) :=
  match s.control.publishers p with
  | .waiting b =>
    if last ∧ cfg.policy_ b ≠ .BlockTimeout then none
    else if !s.control.running_ b then some (s.goto p (.leaving false))
    else
      let (ok, s) := (s.copyTo I (.mptr p) (.value p)).try_enqueue I (cfg.queue_capacity_ b)
        (.queue_ b) (.value p) contended full
      some (s.goto p (if ok then .leaving true else if last then .leaving false else .waiting b))
  | _ => none

def takeOldestStep (p : P) (contended full : Bool) : Option (System τ κ δ B P H S ρ η) :=
  match s.control.publishers p with
  | .takeOldest b =>
    let (ok, s) := s.try_dequeue I (.queue_ b) (.oldest p) contended full
    some (s.goto p (if ok then .notifyOldest b else .tryEnqueue b))
  | _ => none

def notifyDropStep (p : P) : Option (System τ κ δ B P H S ρ η) :=
  match s.control.publishers p with
  | .notifyNewest _ => some ((s.notify_drop I (.mptr p)).goto p (.leaving true))
  | .notifyOldest b => some ((s.notify_drop I (.oldest p)).goto p (.tryEnqueue b))
  | _ => none

/-- The scope of `oldest` ends. -/
def leaveStep (p : P) (full : Bool) : Option (System τ κ δ B P H S ρ η) :=
  match s.control.publishers p with
  | .leaving result => some ((s.reset I full (.oldest p)).goto p (.returning result))
  | _ => none

/-- `publish` returns, and its `MessagePtr` goes. -/
def finishStep (p : P) (full : Bool) : Option (System τ κ δ B P H S ρ η) :=
  match s.control.publishers p with
  | .returning result =>
    some (((s.reset I full (.mptr p)).goto p .idle).record (.returned p result))
  | _ => none

def takeStep (c : Consumer B) (contended full : Bool) : Option (System τ κ δ B P H S ρ η) :=
  if s.control.busy c then none
  else
    let (ok, s) := s.try_dequeue I c.source (.msg c) contended full
    some (s.setBusy c ok)

/-- `dispatchMessage`: the slots and the trie are asked with the id, the string
and the type of the message, and the handlers get its data. -/
def dispatchStep (c : Consumer B) : Option (System τ κ δ B P H S ρ η) :=
  if s.control.busy c ∧ c.dispatches cfg then
    (s.content I (.msg c)).map fun m ↦
      (s.setBusy c false).record (.dispatched c m.type m.topic_id m.topic_sv m.data)
  else none

/-- `routeToWorker`: one attempt of its loop. -/
def routeStep (b : B) (contended full : Bool) : Option (System τ κ δ B P H S ρ η) :=
  if s.control.busy (.loop b) ∧ !(Consumer.loop b).dispatches cfg then
    (s.content I (.msg (.loop b))).map fun m ↦
      let idx := cfg.hash m.topic_id % cfg.num_dispatchers_ b
      let (ok, s) := (s.copyTo I (.msg (.loop b)) (.routedValue b)).try_enqueue I
        (cfg.queue_capacity_ b) (.worker_queues_ b idx) (.routedValue b) contended full
      s.setBusy (.loop b) !ok
  else none

def step : Action τ κ δ B P H → Option (System τ κ δ B P H S ρ η)
  | .start b => some (s.setRunning b true)
  | .stop b => some (s.setRunning b false)
  | .publish p b T topic msg hit =>
    match s.control.publishers p with
    | .idle => some (s.enqueueMessage p b
      (I.publish T hit topic msg (s.control.registries b) s.store))
    | _ => none
  | .publishOnDrop p b T topic msg on_drop hit =>
    match s.control.publishers p with
    | .idle => some (s.enqueueMessage p b
      (I.publishOnDrop T hit topic msg on_drop (s.control.registries b) s.store))
    | _ => none
  | .topic h b T topic => some (s.setHandle h b (I.topic T topic (s.control.registries b)))
  | .topicOnDrop h b T topic on_drop =>
    some (s.setHandle h b (I.topicOnDrop T topic on_drop (s.control.registries b)))
  | .handlePublish p h msg hit =>
    match s.control.publishers p, s.handles h with
    | .idle, some (b, handle) => some (s.enqueueMessage p b
      (I.handlePublish handle hit msg (s.control.registries b) s.store))
    | _, _ => none
  | .enqueue p contended full => enqueueStep I cfg s p contended full
  | .retry p last contended full => retryStep I cfg s p last contended full
  | .takeOldest p contended full => takeOldestStep I s p contended full
  | .notifyDrop p => notifyDropStep I s p
  | .leave p full => leaveStep I s p full
  | .finish p full => finishStep I s p full
  | .take c contended full => takeStep I s c contended full
  | .dispatch c => dispatchStep I cfg s c
  | .route b contended full => routeStep I cfg s b contended full
  | .release c full => if s.control.busy c then none else some (s.reset I full (.msg c))
  | .discard c full => some (s.reset I full c.source)

def machine (I : Implementation τ κ δ S ρ η) (cfg : Config B) (store : S) :
    Machine (System τ κ δ B P H S ρ η) (Action τ κ δ B P H) where
  init s := s = { store }
  step := step I cfg

end Step

def System.contents (I : Implementation τ κ δ S ρ η) (s : System τ κ δ B P H S ρ η) :
    List (Place B P × Option (Content τ κ δ)) :=
  mapHeld (I.content s.store) s.ptrs

end LivioArk.Msgbus.PooledBus
