import LivioArk.Msgbus.SubscriptionRaces
import LivioArk.Msgbus.TrieSnapshots

namespace LivioArk.Msgbus.FineSubscriptions

open Function LivioArk.Library.Transition LivioArk.Library.PrefixTree
open Levels TopicMatcher TopicRegistry WildcardTrie Subscriptions SubStore Dispatching
open SubscriptionThreads

variable {Tid τ η ν : Type}

inductive Mutex where
  | slots_write
  | trie_write
  | slot (n : ℕ)
  deriving DecidableEq

/-- How far a thread is between `lock` and `unlock`: what it has loaded or
cloned, and in `WildcardTrie::remove` the entry whose slot loses its subscriber
before the trie does. -/
inductive Section (τ η : Type) where
  | outside
  | locked
  | slots (old : ℕ → Option ℕ)
  | list (old : List (Subscriber η))
  | clone (snap : Snapshot τ ℕ)
  | found (entry : Entry τ ℕ) (snap : Snapshot τ ℕ)
  | nested (entry : Entry τ ℕ) (snap : Snapshot τ ℕ)
  | nestedList (entry : Entry τ ℕ) (snap : Snapshot τ ℕ) (old : List (Subscriber η))
  | emptied (entry : Entry τ ℕ) (snap : Snapshot τ ℕ)
  | erased (snap : Snapshot τ ℕ)
  | leaving (m : Mutex)

/-- A snapshot that a thread keeps alive. -/
inductive Guard (τ : Type) where
  | none
  | slots (snap : ℕ → Option ℕ)
  | trie (snap : Snapshot τ ℕ)

/-- The threads of `SubscriptionThreads` with the mutexes of the writers. The
bus in `threads` is what has been published. -/
structure FineSubs (Tid τ η ν : Type) where
  threads : Subscribing Tid τ η ν := {}
  sections : Tid → Section τ η := fun _ ↦ .outside
  locks : Mutex → Option Tid := fun _ ↦ none
  guards : Tid → Guard τ := fun _ ↦ .none
  snaps : Tid → Guard τ := fun _ ↦ .none

inductive FineAction (Tid τ η ν : Type) where
  | subscribe (t : Tid) (T : τ) (topic : Str) (handler : η)
  | unsubscribe (t : Tid) (id : ℕ)
  | work (t : Tid) (way : List Bool)
  | publish (T : τ) (topic : Str) (data : ν)
  | dispatch (t : Tid) (n : ℕ)
  | load (t : Tid)
  | call (t : Tid)
  | return_ (t : Tid)
  | finish (t : Tid)

section Source

def removeLoop (id : ℕ) : List (Subscriber η) → List (Subscriber η) → Bool →
    List (Subscriber η) × Bool
  | [], new_list, found => (new_list, found)
  | sub :: old, new_list, found =>
    if sub.id = id then removeLoop id old new_list true
    else removeLoop id old (new_list ++ [sub]) found

def publishSubscribers (b : SubState τ η) (slot : ℕ) (s : List (Subscriber η)) : SubState τ η :=
  { b with heap := update b.heap slot { b.heap slot with subscribers_ := s } }

/-- The part of `removeSubscriber` after the load. -/
def publishWithout (b : SubState τ η) (id slot : ℕ) (old : List (Subscriber η)) : SubState τ η :=
  match removeLoop id old [] false with
  | (new_list, true) => publishSubscribers b slot new_list
  | (_, false) => b

/-- The order of the children is that of the new hash maps. -/
def publishSnapshot (b : SubState τ η) (way : List Bool) (snap : Snapshot τ ℕ) : SubState τ η :=
  { b with wildcard_trie_ := { snap with root := snap.root.swap way } }

end Source

def subscribeMutex : SubscribePc τ η → Option Mutex
  | .createSlot _ _ => some .slots_write
  | .addSubscriber _ _ slot => some (.slot slot)
  | .insert _ => some .trie_write
  | .idle | .lookup _ | .resolve _ | .findSlot _ _ | .record _ _ => none

def unsubscribeMutex : UnsubscribePc → Option Mutex
  | .removeSubscriber _ slot => some (.slot slot)
  | .remove _ => some .trie_write
  | .idle | .take _ | .findSlot _ _ => none

namespace FineSubs

variable (f : FineSubs Tid τ η ν) (t : Tid) [DecidableEq Tid]

def enter (sec : Section τ η) : FineSubs Tid τ η ν :=
  { f with sections := update f.sections t sec }

def lock (m : Mutex) (sec : Section τ η) : Option (FineSubs Tid τ η ν) :=
  match f.locks m with
  | none => some { f.enter t sec with locks := update f.locks m (some t) }
  | some _ => none

def unlock (m : Mutex) (sec : Section τ η) : FineSubs Tid τ η ν :=
  { f.enter t sec with locks := update f.locks m none }

def leave (m : Mutex) (threads : Subscribing Tid τ η ν) : FineSubs Tid τ η ν :=
  { f.enter t (.leaving m) with threads }

variable [DecidableEq τ]

def createSlotWork (x : Sub τ η) (tid : ℕ) (old : ℕ → Option ℕ) : FineSubs Tid τ η ν :=
  let s := f.threads
  match old tid with
  | some slot =>
    match checkedSlot s.bus x.type tid slot with
    | .ok slot => f.leave t .slots_write (s.goto t (.addSubscriber x tid slot))
    | .error _ => f.leave t .slots_write (s.throw t x)
  | none =>
    let (slot, bus) := makeSlot s.bus x.type
    f.leave t .slots_write
      { s.goto t (.addSubscriber x tid slot) with
        bus := { bus with slots_ := update old tid (some slot) } }

def addSubscriberWork (x : Sub τ η) (tid slot : ℕ) (old : List (Subscriber η)) :
    FineSubs Tid τ η ν :=
  let s := f.threads
  f.leave t (.slot slot)
    { (s.goto t (.record x ⟨tid, false⟩)).mark x.id (.added t) with
      bus := publishSubscribers s.bus slot (old ++ [⟨x.id, x.handler⟩])
      live := s.live ++ [x] }

/-- `insert` of a slot that only this thread has yet, with the trie cloned. -/
def insertWork (way : List Bool) (x : Sub τ η) (snap : Snapshot τ ℕ) : FineSubs Tid τ η ν :=
  let s := f.threads
  let (slot, bus) := makeSlot s.bus x.type
  let bus := publishSubscribers bus slot [⟨x.id, x.handler⟩]
  f.leave t .trie_write
    { (s.goto t (.record x ⟨kInvalidTopicId, true⟩)).mark x.id (.added t) with
      bus := publishSnapshot bus way (insert x.topic ⟨x.type, slot, x.id⟩ snap)
      live := s.live ++ [x] }

def subscribeWork (way : List Bool) : Option (FineSubs Tid τ η ν) :=
  let s := f.threads
  match s.subs t, f.sections t with
  | .createSlot _ _, .locked => some (f.enter t (.slots s.bus.slots_))
  | .createSlot x tid, .slots old => some (f.createSlotWork t x tid old)
  | .addSubscriber _ _ slot, .locked => some (f.enter t (.list (s.bus.heap slot).subscribers_))
  | .addSubscriber x tid slot, .list old => some (f.addSubscriberWork t x tid slot old)
  | .insert _, .locked =>
    some (f.enter t (.clone (cloneSnapshot s.bus.wildcard_trie_)))
  | .insert x, .clone snap => some (f.insertWork t way x snap)
  | pc, .outside =>
    match subscribeMutex pc with
    | some m => f.lock t m .locked
    | none => (s.subscribeStep t).map fun threads ↦ { f with threads }
  | _, _ => none

def snapOf (b : SubState τ η) : UnsubscribePc → Guard τ
  | .removeSubscriber _ _ => .slots b.slots_
  | _ => .none

def takeWork : Option (FineSubs Tid τ η ν) :=
  (f.threads.unsubscribeStep t).map fun threads ↦
    { f with
      threads
      snaps := update f.snaps t (snapOf f.threads.bus (threads.unsubs t)) }

def removeSubscriberWork (id slot : ℕ) (old : List (Subscriber η)) : FineSubs Tid τ η ν :=
  f.leave t (.slot slot) (f.threads.removed t id (publishWithout f.threads.bus id slot old))

/-- `removeFrom` on the clone. -/
def removeFromWork (id : ℕ) (snap : Snapshot τ ℕ) : FineSubs Tid τ η ν :=
  match remove id snap with
  | some (entry, snap) => f.enter t (.found entry snap)
  | none => f.leave t .trie_write (f.threads.removed t id f.threads.bus)

def unsubscribeWork : Option (FineSubs Tid τ η ν) :=
  let s := f.threads
  match s.unsubs t, f.sections t with
  | .removeSubscriber _ slot, .locked => some (f.enter t (.list (s.bus.heap slot).subscribers_))
  | .removeSubscriber id slot, .list old => some (f.removeSubscriberWork t id slot old)
  | .remove _, .locked =>
    some (f.enter t (.clone (cloneSnapshot s.bus.wildcard_trie_)))
  | .remove id, .clone snap => some (f.removeFromWork t id snap)
  | .remove _, .found entry snap => f.lock t (.slot entry.slot) (.nested entry snap)
  | .remove _, .nested entry snap =>
    some (f.enter t (.nestedList entry snap (s.bus.heap entry.slot).subscribers_))
  | .remove id, .nestedList entry snap old =>
    some { f.enter t (.emptied entry snap) with
      threads := s.removed t id (publishWithout s.bus id entry.slot old) }
  | pc, .outside =>
    match unsubscribeMutex pc with
    | some m => f.lock t m .locked
    | none => f.takeWork t
  | _, _ => none

def work (way : List Bool) : Option (FineSubs Tid τ η ν) :=
  let s := f.threads
  match f.sections t with
  | .emptied entry snap => some (f.unlock t (.slot entry.slot) (.erased snap))
  | .erased snap =>
    some (f.leave t .trie_write { s with bus := publishSnapshot s.bus way snap })
  | .leaving m => some { f.unlock t m .outside with snaps := update f.snaps t .none }
  | _ => if (s.unsubs t).isIdle then f.subscribeWork t way else f.unsubscribeWork t

def isOutside : Bool :=
  match f.sections t with
  | .outside => true
  | _ => false

def guardOf (b : SubState τ η) (d : Dispatch τ η ν) (old : Guard τ) : Guard τ :=
  match d.frame.subs, d.frame.slots with
  | [], [] =>
    if d.frame.exact then .slots b.slots_
    else if b.wildcard_trie_.entry_count = 0 then .none else .trie b.wildcard_trie_
  | _, _ => old

def loadWork : Option (FineSubs Tid τ η ν) :=
  let s := f.threads
  (SubscriptionThreads.step s (.load t)).map fun threads ↦
    { f with
      threads
      guards :=
        match s.dispatches t with
        | some d => update f.guards t (guardOf s.bus d (f.guards t))
        | none => f.guards }

end FineSubs

section Machine

variable [DecidableEq Tid] [DecidableEq τ]

/-- A step that the mutexes have nothing to do with. -/
def lift (f : FineSubs Tid τ η ν) (a : SubAction Tid τ η ν) : Option (FineSubs Tid τ η ν) :=
  (SubscriptionThreads.step f.threads a).map fun threads ↦ { f with threads }

def step (f : FineSubs Tid τ η ν) : FineAction Tid τ η ν → Option (FineSubs Tid τ η ν)
  | .subscribe t T topic handler =>
    if f.isOutside t then lift f (.subscribe t T topic handler) else none
  | .unsubscribe t id => if f.isOutside t then lift f (.unsubscribe t id) else none
  | .work t way => f.work t way
  | .publish T topic data => lift f (.publish T topic data)
  | .dispatch t n => if f.isOutside t then lift f (.dispatch t n) else none
  | .load t => f.loadWork t
  | .call t => lift f (.call t)
  | .return_ t => if f.isOutside t then lift f (.return_ t) else none
  | .finish t =>
    (lift f (.finish t)).map fun f ↦ { f with guards := update f.guards t .none }

def machine (Tid τ η ν : Type) [DecidableEq Tid] [DecidableEq τ] :
    Machine (FineSubs Tid τ η ν) (FineAction Tid τ η ν) where
  init f := f = {}
  step := step

end Machine

end LivioArk.Msgbus.FineSubscriptions
