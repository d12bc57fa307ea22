import LivioArk.Msgbus.Shutdown
import LivioArk.Msgbus.SubscriptionRaces

namespace LivioArk.Msgbus.WholeBus

open Function LivioArk.Library.Transition LivioArk.Library.QueueLog
open Levels Subscriptions SubStore LockFreeQueue
open MessageBus (Bus Config Agent Local LoopPc WorkerPc)
open AtomicBus (BusAction)
open SubscriptionThreads (Subscribing SubAction Undisputed)

variable {Pid τ η ν : Type}

/-- A message on its way through the queues. Its number tells it from others
with the same content. -/
structure Parcel (τ ν : Type) where
  n : ℕ
  msg : Message τ ν
  deriving DecidableEq

/-- The router looks at the topic id that the message has from `publish`. -/
def routed (cfg : Config (Parcel τ ν)) : Config (Parcel τ ν) :=
  { cfg with topic_id := fun p ↦ p.msg.topic_id_ }

/-- A whole bus: its queues with the threads that serve them, and its
subscriptions. The threads are the same; a publisher is any thread outside of
the bus. `due` keeps account of the subscriptions that had been returned when a
message was published. -/
structure Whole (Pid τ η ν : Type) where
  bus : Bus (Fifo (Parcel τ ν)) Pid (Parcel τ ν) := .initial .empty
  subs : Subscribing (Agent Pid) τ η ν := {}
  due : ℕ → List (Sub τ η) := fun _ ↦ []

inductive WholeAction (Pid τ η ν : Type)
  | publish (p : Pid) (T : τ) (topic : Str) (data : ν)
  | bus (a : BusAction Pid (Parcel τ ν))
  | subs (a : SubAction (Agent Pid) τ η ν)
  | begin (ag : Agent Pid)
  | finish (ag : Agent Pid)

section Hands

variable {Q μ : Type}

def loopAhead : LoopPc μ → Option μ
  | .begin _ m => some m
  | _ => none

def workerAhead : WorkerPc μ → Option μ
  | .begin _ m => some m
  | _ => none

def loopInside : LoopPc μ → Option μ
  | .dispatching _ m => some m
  | _ => none

def workerInside : WorkerPc μ → Option μ
  | .dispatching _ m => some m
  | _ => none

def ahead (s : Bus Q Pid μ) : Agent Pid → Option μ
  | .publisher _ => none
  | .loop => loopAhead s.loop
  | .worker i => workerAhead (s.workers i)

def inside (s : Bus Q Pid μ) : Agent Pid → Option μ
  | .publisher _ => none
  | .loop => loopInside s.loop
  | .worker i => workerInside (s.workers i)

/-- The next step of a thread that is not a queue operation. -/
def own : Agent Pid → Local Pid μ
  | .publisher p => .publisher p
  | .loop => .loop none
  | .worker i => .worker i

def apart (s : Bus Q Pid μ) : BusAction Pid μ → Bool
  | .thread (.publish _ _) => false
  | .thread (.loop _) => (ahead s .loop).isNone && (inside s .loop).isNone
  | .thread (.worker i) => (ahead s (.worker i)).isNone && (inside s (.worker i)).isNone
  | .thread (.publisher _) | .thread (.timeout _) | .thread (.spurious _) | .thread .start
  | .thread .stop | .queue _ => true

end Hands

def alone : SubAction (Agent Pid) τ η ν → Bool
  | .publish _ _ _ | .dispatch _ _ | .finish _ => false
  | .subscribe .. | .subscribeStep _ | .unsubscribe .. | .unsubscribeStep _ | .rehash _ | .load _
  | .call _ | .return_ _ => true

section Machine

variable [DecidableEq Pid] [DecidableEq τ] [DecidableEq ν] (cfg : Config (Parcel τ ν)) (cap : ℕ)

def publish (s : Whole Pid τ η ν) (p : Pid) (T : τ) (topic : Str) (data : ν) :
    Option (Whole Pid τ η ν) :=
  let n := s.subs.published.length
  let msg := (makeMessage s.subs.bus T topic data).1
  (SubscriptionThreads.step s.subs (.publish T topic data)).bind fun subs ↦
    (AtomicBus.step (routed cfg) cap s.bus (.thread (.publish p ⟨n, msg⟩))).map fun bus ↦
      { bus, subs, due := update s.due n s.subs.returned }

def begin (s : Whole Pid τ η ν) (ag : Agent Pid) : Option (Whole Pid τ η ν) :=
  (ahead s.bus ag).bind fun parcel ↦
    (SubscriptionThreads.step s.subs (.dispatch ag parcel.n)).bind fun subs ↦
      (AtomicBus.step (routed cfg) cap s.bus (.thread (own ag))).map fun bus ↦
        { s with bus, subs }

def finish (s : Whole Pid τ η ν) (ag : Agent Pid) : Option (Whole Pid τ η ν) :=
  (inside s.bus ag).bind fun _ ↦
    (SubscriptionThreads.step s.subs (.finish ag)).bind fun subs ↦
      (AtomicBus.step (routed cfg) cap s.bus (.thread (own ag))).map fun bus ↦
        { s with bus, subs }

def step (s : Whole Pid τ η ν) : WholeAction Pid τ η ν → Option (Whole Pid τ η ν)
  | .publish p T topic data => publish cfg cap s p T topic data
  | .bus a =>
    if apart s.bus a then
      (AtomicBus.step (routed cfg) cap s.bus a).map fun bus ↦ { s with bus }
    else none
  | .subs a =>
    if alone a then (SubscriptionThreads.step s.subs a).map fun subs ↦ { s with subs } else none
  | .begin ag => begin cfg cap s ag
  | .finish ag => finish cfg cap s ag

def machine (Pid η : Type) [DecidableEq Pid] (cfg : Config (Parcel τ ν)) (capacity : ℕ) :
    Machine (Whole Pid τ η ν) (WholeAction Pid τ η ν) where
  init s := s = {}
  step := step cfg (storedCapacity capacity)

end Machine

/-- No `unsubscribe` misses an id that another one is still removing. -/
def Calm (s : Whole Pid τ η ν) : WholeAction Pid τ η ν → Prop
  | .subs a => Undisputed s.subs a
  | .publish .. | .bus _ | .begin _ | .finish _ => True

end LivioArk.Msgbus.WholeBus
