import LivioArk.Library.Transition
import LivioArk.Msgbus.Dispatching

namespace LivioArk.Msgbus.SubscriptionThreads

open Function LivioArk.Library.Transition LivioArk.Library.PrefixTree
open Levels TopicMatcher TopicRegistry WildcardTrie Subscriptions SubStore Dispatching

variable {Tid τ η ν : Type}

/-- Where a thread is in `subscribe`: each constructor names the section that is
next. The id, the type, the topic and the handler of the call are those of `x`. -/
inductive SubscribePc (τ η : Type) where
  | idle
  | lookup (x : Sub τ η)
  | resolve (x : Sub τ η)
  | findSlot (x : Sub τ η) (tid : ℕ)
  | createSlot (x : Sub τ η) (tid : ℕ)
  | addSubscriber (x : Sub τ η) (tid slot : ℕ)
  | insert (x : Sub τ η)
  | record (x : Sub τ η) (info : SubInfo)

inductive UnsubscribePc where
  | idle
  | take (id : ℕ)
  | findSlot (id tid : ℕ)
  | removeSubscriber (id slot : ℕ)
  | remove (id : ℕ)

/-- A call of `dispatchMessage`, perhaps inside a handler. For the statements it
knows which subscriptions were accepted when it began, which ids were gone when
it loaded the current list, and what it has invoked. -/
structure Dispatch (τ η ν : Type) where
  frame : Frame τ η ν
  handling : Bool := false
  due : List (Sub τ η)
  gone : List ℕ := []
  invoked : List (Invocation η ν) := []

structure Report (τ η ν : Type) where
  msg : Message τ ν
  due : List (Sub τ η)
  asked : List ℕ
  invoked : List (Invocation η ν)

inductive Status (Tid : Type) where
  | unused
  | pending (t : Tid)
  | added (t : Tid)
  | recorded
  | taken (t : Tid)
  | removed
  deriving DecidableEq

/-- The bus with its threads. From `calls` on, everything only keeps account of
what happened. -/
structure Subscribing (Tid τ η ν : Type) where
  bus : SubState τ η := {}
  subs : Tid → SubscribePc τ η := fun _ ↦ .idle
  unsubs : Tid → UnsubscribePc := fun _ ↦ .idle
  dispatches : Tid → Option (Dispatch τ η ν) := fun _ ↦ none
  published : List (Message τ ν) := []
  calls : ℕ := 0
  topics : List Str := []
  live : List (Sub τ η) := []
  status : ℕ → Status Tid := fun _ ↦ .unused
  returned : List (Sub τ η) := []
  thrown : List (Sub τ η) := []
  asked : List ℕ := []
  gone : List ℕ := []
  invocations : List (Invocation η ν × List ℕ) := []
  reports : List (Report τ η ν) := []

inductive SubAction (Tid τ η ν : Type) where
  | subscribe (t : Tid) (T : τ) (topic : Str) (handler : η)
  | subscribeStep (t : Tid)
  | unsubscribe (t : Tid) (id : ℕ)
  | unsubscribeStep (t : Tid)
  | publish (T : τ) (topic : Str) (data : ν)
  | rehash (way : List Bool)
  | dispatch (t : Tid) (n : ℕ)
  | load (t : Tid)
  | call (t : Tid)
  | return_ (t : Tid)
  | finish (t : Tid)

def SubscribePc.isIdle : SubscribePc τ η → Bool
  | .idle => true
  | _ => false

def UnsubscribePc.isIdle : UnsubscribePc → Bool
  | .idle => true
  | _ => false

def UnsubscribePc.removing : UnsubscribePc → Option ℕ
  | .findSlot id _ | .removeSubscriber id _ | .remove id => some id
  | _ => none

namespace Subscribing

variable (s : Subscribing Tid τ η ν) (t : Tid)

def quiet : Bool := (s.subs t).isIdle && (s.unsubs t).isIdle

def mayCall : Bool :=
  s.quiet t &&
    match s.dispatches t with
    | none => true
    | some d => d.handling

variable [DecidableEq Tid]

def goto (pc : SubscribePc τ η) : Subscribing Tid τ η ν := { s with subs := update s.subs t pc }

def goto' (pc : UnsubscribePc) : Subscribing Tid τ η ν := { s with unsubs := update s.unsubs t pc }

def mark (id : ℕ) (status : Status Tid) : Subscribing Tid τ η ν :=
  { s with status := update s.status id status }

def throw (x : Sub τ η) : Subscribing Tid τ η ν :=
  { (s.goto t .idle).mark x.id .removed with thrown := s.thrown ++ [x] }

variable [DecidableEq τ]

/-- Up to the validation of the pattern. -/
def subscribe (T : τ) (topic : Str) (handler : η) : Subscribing Tid τ η ν :=
  let (id, bus) := fetchId s.bus
  let x : Sub τ η := ⟨id, T, topic, handler⟩
  let s := { s with bus, calls := s.calls + 1 }
  if isWildcard topic then
    if hashMisplaced topic then s.throw t x else (s.goto t (.insert x)).mark id (.pending t)
  else
    { (s.goto t (.lookup x)).mark id (.pending t) with topics := s.topics ++ [topic] }

def subscribeStep : Option (Subscribing Tid τ η ν) :=
  match s.subs t with
  | .idle => none
  | .lookup x =>
    match find x.topic s.bus.registry_ with
    | some tid => some (s.goto t (.findSlot x tid))
    | none => some (s.goto t (.resolve x))
  | .resolve x =>
    let (tid, registry_) := resolveSlow x.topic s.bus.registry_
    some { s.goto t (.findSlot x tid) with bus := { s.bus with registry_ } }
  | .findSlot x tid =>
    match s.bus.slots_ tid with
    | some slot =>
      match checkedSlot s.bus x.type tid slot with
      | .ok slot => some (s.goto t (.addSubscriber x tid slot))
      | .error _ => some (s.throw t x)
    | none => some (s.goto t (.createSlot x tid))
  | .createSlot x tid =>
    match createSlot s.bus x.type tid with
    | (.ok slot, bus) => some { s.goto t (.addSubscriber x tid slot) with bus }
    | (.error _, bus) => some { s.throw t x with bus }
  | .addSubscriber x tid slot => some
    { (s.goto t (.record x ⟨tid, false⟩)).mark x.id (.added t) with
      bus := updateSlot s.bus slot (·.addSubscriber x.handler x.id)
      live := s.live ++ [x] }
  | .insert x => some
    { (s.goto t (.record x ⟨kInvalidTopicId, true⟩)).mark x.id (.added t) with
      bus := subscribeWildcard s.bus x.type x.topic x.handler x.id
      live := s.live ++ [x] }
  | .record x info => some
    { (s.goto t .idle).mark x.id .recorded with
      bus := recordSub s.bus x.id info
      returned := s.returned ++ [x] }

def unsubscribed (id : ℕ) : Subscribing Tid τ η ν :=
  { s.goto' t .idle with gone := s.gone ++ [id] }

def removed (id : ℕ) (bus : SubState τ η) : Subscribing Tid τ η ν :=
  { (s.unsubscribed t id).mark id .removed with bus, live := s.live.filter fun x ↦ x.id ≠ id }

def unsubscribeStep : Option (Subscribing Tid τ η ν) :=
  match s.unsubs t with
  | .idle => none
  | .take id =>
    match takeSub s.bus id with
    | (none, _) => some (s.unsubscribed t id)
    | (some info, bus) =>
      let pc := if info.is_wildcard then .remove id else .findSlot id info.tid
      some { (s.goto' t pc).mark id (.taken t) with bus }
  | .findSlot id tid =>
    match s.bus.slots_ tid with
    | some slot => some (s.goto' t (.removeSubscriber id slot))
    | none => some (s.unsubscribed t id)
  | .removeSubscriber id slot =>
    some (s.removed t id (updateSlot s.bus slot (·.removeSubscriber id)))
  | .remove id => some (s.removed t id (removeWildcard s.bus id))

def setDispatch (d : Option (Dispatch τ η ν)) : Subscribing Tid τ η ν :=
  { s with dispatches := update s.dispatches t d }

def call (d : Dispatch τ η ν) (sub : Subscriber η) (subs : List (Subscriber η)) :
    Subscribing Tid τ η ν :=
  let c : Invocation η ν := ⟨sub.id, sub.handler, d.frame.msg.data_⟩
  { s.setDispatch t (some { d with
      frame := { d.frame with subs }
      handling := true
      invoked := d.invoked ++ [c] }) with
    invocations := s.invocations ++ [(c, d.gone)] }

def dispatchStep (f : Dispatch τ η ν → Option (Subscribing Tid τ η ν)) :
    Option (Subscribing Tid τ η ν) :=
  match s.dispatches t with
  | some d => if d.handling then none else f d
  | none => none

end Subscribing

section Machine

variable [DecidableEq Tid] [DecidableEq τ]

def step (s : Subscribing Tid τ η ν) : SubAction Tid τ η ν → Option (Subscribing Tid τ η ν)
  | .subscribe t T topic handler =>
    if s.mayCall t then some (s.subscribe t T topic handler) else none
  | .subscribeStep t => s.subscribeStep t
  | .unsubscribe t id =>
    if s.mayCall t && s.returned.any (fun x ↦ x.id = id) then
      some { s.goto' t (.take id) with asked := s.asked ++ [id] }
    else none
  | .unsubscribeStep t => s.unsubscribeStep t
  | .publish T topic data =>
    let (msg, bus) := makeMessage s.bus T topic data
    some { s with bus, topics := s.topics ++ [topic], published := s.published ++ [msg] }
  | .rehash way =>
    let trie := s.bus.wildcard_trie_
    some { s with bus := { s.bus with wildcard_trie_ := { trie with root := trie.root.swap way } } }
  | .dispatch t n =>
    match s.published[n]? with
    | some msg =>
      if s.quiet t && (s.dispatches t).isNone then
        some (s.setDispatch t (some { frame := { msg }, due := s.returned }))
      else none
    | none => none
  | .load t => s.dispatchStep t fun d ↦
    (d.frame.load s.bus).map fun frame ↦ s.setDispatch t (some { d with frame, gone := s.gone })
  | .call t => s.dispatchStep t fun d ↦
    match d.frame.subs with
    | sub :: subs => some (s.call t d sub subs)
    | [] => none
  | .return_ t =>
    match s.dispatches t with
    | some d =>
      if d.handling && s.quiet t then some (s.setDispatch t (some { d with handling := false }))
      else none
    | none => none
  | .finish t => s.dispatchStep t fun d ↦
    if d.frame.finished then
      some { s.setDispatch t none with
        reports := s.reports ++ [⟨d.frame.msg, d.due, s.asked, d.invoked⟩] }
    else none

def machine (Tid τ η ν : Type) [DecidableEq Tid] [DecidableEq τ] :
    Machine (Subscribing Tid τ η ν) (SubAction Tid τ η ν) where
  init s := s = {}
  step := step

end Machine

end LivioArk.Msgbus.SubscriptionThreads
