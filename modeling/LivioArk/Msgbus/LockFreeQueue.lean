import LivioArk.Library.Transition
import Mathlib.Logic.Function.Basic
import Mathlib.Data.Nat.Bitwise

namespace LivioArk.Msgbus.LockFreeQueue

open Function LivioArk.Library.Transition

/-- `static_cast<intptr_t>` of a `size_t`. -/
def toSigned (x : ℕ) : ℤ := if x < 2 ^ 63 then x else x - 2 ^ 64

/-- `v |= v >> n`. -/
def orShift (n v : ℕ) : ℕ := v ||| v >>> n

def fillBelow (v : ℕ) : ℕ :=
  orShift 32 (orShift 16 (orShift 8 (orShift 4 (orShift 2 (orShift 1 v)))))

def roundUpPowerOf2 (v : ℕ) : ℕ :=
  let v := (fillBelow ((v + (2 ^ 64 - 1)) % 2 ^ 64) + 1) % 2 ^ 64
  if v < 2 then 2 else v

def storedCapacity (capacity : ℕ) : ℕ :=
  roundUpPowerOf2 (if capacity < 2 then 2 else capacity)

variable {Tid α : Type}

/-- One queue slot. `data` is `none` before the first store and after the value
has been moved out. -/
structure Cell (α : Type) where
  sequence : ℕ
  data : Option α

structure Queue (α : Type) where
  capacity_ : ℕ
  mask_ : ℕ
  buffer_ : ℕ → Cell α
  enqueue_pos_ : ℕ
  dequeue_pos_ : ℕ

namespace Queue

def construct (capacity : ℕ) : Queue α where
  capacity_ := capacity
  mask_ := capacity - 1
  buffer_ i := ⟨i, none⟩
  enqueue_pos_ := 0
  dequeue_pos_ := 0

def cell (q : Queue α) (pos : ℕ) : Cell α := q.buffer_ (pos &&& q.mask_)

def storeData (q : Queue α) (pos : ℕ) (data : Option α) : Queue α :=
  { q with buffer_ := update q.buffer_ (pos &&& q.mask_) { q.cell pos with data } }

def storeSequence (q : Queue α) (pos sequence : ℕ) : Queue α :=
  { q with buffer_ := update q.buffer_ (pos &&& q.mask_) { q.cell pos with sequence } }

end Queue

inductive Req (α : Type)
  | tryEnqueue (value : α)
  | tryDequeue
  deriving DecidableEq

/-- A call in progress: the next atomic access of `try_enqueue` or
`try_dequeue`, with the local variables that are live there. -/
inductive Op (α : Type)
  | enqueueLoad (value : α)
  | enqueueSeq (value : α) (pos : ℕ)
  | enqueueCas (value : α) (pos : ℕ)
  | enqueueStore (value : α) (pos : ℕ)
  | enqueuePublish (pos : ℕ)
  | enqueueDone (ok : Bool)
  | dequeueLoad
  | dequeueSeq (pos : ℕ)
  | dequeueCas (pos : ℕ)
  | dequeueTake (pos : ℕ)
  | dequeueRelease (pos : ℕ) (value : Option α)
  | dequeueDone (ok : Bool) (value : Option α)
  deriving DecidableEq

def Req.start : Req α → Op α
  | .tryEnqueue value => .enqueueLoad value
  | .tryDequeue => .dequeueLoad

/-- One atomic access. `spurious` lets `compare_exchange_weak` fail although
the value matches; a failed exchange leaves the current position in `pos`. -/
def Op.step (q : Queue α) (spurious : Bool) : Op α → Option (Queue α × Op α)
  | .enqueueLoad value => some (q, .enqueueSeq value q.enqueue_pos_)
  | .enqueueSeq value pos =>
    let diff := toSigned (q.cell pos).sequence - toSigned pos
    if diff = 0 then some (q, .enqueueCas value pos)
    else if diff < 0 then some (q, .enqueueDone false)
    else some (q, .enqueueLoad value)
  | .enqueueCas value pos =>
    if q.enqueue_pos_ = pos ∧ spurious = false then
      some ({ q with enqueue_pos_ := (pos + 1) % 2 ^ 64 }, .enqueueStore value pos)
    else some (q, .enqueueSeq value q.enqueue_pos_)
  | .enqueueStore value pos => some (q.storeData pos (some value), .enqueuePublish pos)
  | .enqueuePublish pos => some (q.storeSequence pos ((pos + 1) % 2 ^ 64), .enqueueDone true)
  | .dequeueLoad => some (q, .dequeueSeq q.dequeue_pos_)
  | .dequeueSeq pos =>
    let diff := toSigned (q.cell pos).sequence - toSigned ((pos + 1) % 2 ^ 64)
    if diff = 0 then some (q, .dequeueCas pos)
    else if diff < 0 then some (q, .dequeueDone false none)
    else some (q, .dequeueLoad)
  | .dequeueCas pos =>
    if q.dequeue_pos_ = pos ∧ spurious = false then
      some ({ q with dequeue_pos_ := (pos + 1) % 2 ^ 64 }, .dequeueTake pos)
    else some (q, .dequeueSeq q.dequeue_pos_)
  | .dequeueTake pos => some (q.storeData pos none, .dequeueRelease pos (q.cell pos).data)
  | .dequeueRelease pos value =>
    some (q.storeSequence pos ((pos + q.mask_ + 1) % 2 ^ 64), .dequeueDone true value)
  | .enqueueDone _ | .dequeueDone _ _ => none

inductive Event (Tid α : Type)
  | call (t : Tid) (req : Req α)
  | enqueueClaim (t : Tid) (pos : ℕ) (value : α)
  | store (t : Tid) (pos : ℕ) (value : α)
  | publish (t : Tid) (pos : ℕ)
  | dequeueClaim (t : Tid) (pos : ℕ)
  | take (t : Tid) (pos : ℕ) (value : Option α)
  | release (t : Tid) (pos : ℕ) (value : Option α)
  deriving DecidableEq

def Op.event (t : Tid) : Op α → Op α → List (Event Tid α)
  | .enqueueCas value pos, .enqueueStore _ _ => [.enqueueClaim t pos value]
  | .enqueueStore value pos, _ => [.store t pos value]
  | .enqueuePublish pos, _ => [.publish t pos]
  | .dequeueCas pos, .dequeueTake _ => [.dequeueClaim t pos]
  | .dequeueTake pos, .dequeueRelease _ value => [.take t pos value]
  | .dequeueRelease pos value, _ => [.release t pos value]
  | _, _ => []

structure Sys (Tid α : Type) where
  queue : Queue α
  ops : Tid → Option (Op α)
  hist : List (Event Tid α)

inductive SysAction (Tid α : Type)
  | call (t : Tid) (req : Req α)
  | access (t : Tid) (spurious : Bool)
  | ret (t : Tid)

def Op.isDone : Op α → Bool
  | .enqueueDone _ | .dequeueDone _ _ => true
  | _ => false

def Event.enqueued : Event Tid α → Option α
  | .enqueueClaim _ _ value => some value
  | _ => none

def Event.dequeued : Event Tid α → Option ℕ
  | .dequeueClaim _ pos => some pos
  | _ => none

def Op.filling : Op α → Option ℕ
  | .enqueueStore _ pos | .enqueuePublish pos => some pos
  | _ => none

def Op.draining : Op α → Option ℕ
  | .dequeueTake pos | .dequeueRelease pos _ => some pos
  | _ => none

namespace Sys

def construct (capacity : ℕ) : Sys Tid α := ⟨.construct capacity, fun _ ↦ none, []⟩

variable [DecidableEq Tid]

def call (s : Sys Tid α) (t : Tid) (req : Req α) : Option (Sys Tid α) :=
  match s.ops t with
  | none => some { s with ops := update s.ops t (some req.start), hist := s.hist ++ [.call t req] }
  | some _ => none

def access (s : Sys Tid α) (t : Tid) (spurious : Bool) : Option (Sys Tid α) :=
  match s.ops t with
  | none => none
  | some op =>
    match op.step s.queue spurious with
    | none => none
    | some (queue, op') =>
      some ⟨queue, update s.ops t (some op'), s.hist ++ op.event t op'⟩

def ret (s : Sys Tid α) (t : Tid) : Option (Sys Tid α) :=
  match s.ops t with
  | none => none
  | some op => if op.isDone then some { s with ops := update s.ops t none } else none

def step (s : Sys Tid α) : SysAction Tid α → Option (Sys Tid α)
  | .call t req => s.call t req
  | .access t spurious => s.access t spurious
  | .ret t => s.ret t

/-- The values in the order in which producers claimed their positions. -/
def put (s : Sys Tid α) : List α := s.hist.filterMap Event.enqueued

def got (s : Sys Tid α) : ℕ := (s.hist.filterMap Event.dequeued).length

/-- Thread `t` has claimed `pos` in `try_enqueue` and not yet stored the
sequence that publishes it. -/
def Filling (s : Sys Tid α) (t : Tid) (pos : ℕ) : Prop := (s.ops t).bind Op.filling = some pos

/-- Thread `t` has claimed `pos` in `try_dequeue` and not yet stored the
sequence that frees the cell. -/
def Draining (s : Sys Tid α) (t : Tid) (pos : ℕ) : Prop := (s.ops t).bind Op.draining = some pos

end Sys

/-- The queue alone: any thread may call any operation at any time. -/
def machine (Tid α : Type) [DecidableEq Tid] (capacity : ℕ) :
    Machine (Sys Tid α) (SysAction Tid α) where
  init s := s = .construct capacity
  step := Sys.step

end LivioArk.Msgbus.LockFreeQueue
