import LivioArk.Library.Transition
import LivioArk.Msgbus.Message

namespace LivioArk.Msgbus.MessageHandles

open Function LivioArk.Library.Transition Levels Message

/-- What follows the `reset` at the beginning of an operation. -/
inductive Next (η : Type)
  | done
  | copyFrom (o : η)
  | moveFrom (o : η)
  | destroy
  deriving DecidableEq

/-- Where a thread stands in an operation on its handles. `h` is the handle
itself and `o` the argument. -/
inductive Pc (η : Type)
  | idle
  | acquired (raw : ℕ)
  | fresh (raw : ℕ)
  | adopting (h : η)
  | copying (h o : η)
  | release (h : η) (next : Next η)
  | recycle (h : η) (next : Next η)
  | clear (h : η) (next : Next η)
  | assign (h o : η)
  | take (h o : η)
  | clearSource (h o : η)
  deriving DecidableEq

/-- An element of `η` stands for one `MessagePtr` from its construction to its
destruction, and `owner` for the thread that uses it. The last two fields count
the lives of each object and record those that have ended. -/
structure State (θ η τ κ δ : Type) where
  heap : Heap τ κ δ := {}
  handles : List η := []
  ptr_ : η → Option ℕ := fun _ ↦ none
  owner : η → Option θ := fun _ ↦ none
  pcs : θ → Pc η := fun _ ↦ .idle
  life : ℕ → ℕ := fun _ ↦ 0
  ends : List (ℕ × ℕ) := []

inductive Action (θ η τ δ : Type)
  | create (t : θ) (T : τ) (topic_id : ℕ) (data : δ) (pooled : Bool)
  | acquire (t : θ) (T : τ) (hit : Bool)
  | prepare (t : θ) (topic_id : ℕ) (data : δ) (pooled : Bool)
  | adopt (t : θ) (h : η)
  | construct (t : θ) (h : η)
  | copyConstruct (t : θ) (h o : η)
  | copyAssign (t : θ) (h o : η)
  | moveConstruct (t : θ) (h o : η)
  | moveAssign (t : θ) (h o : η)
  | reset (t : θ) (h : η)
  | destroy (t : θ) (h : η)
  | hand (t : θ) (h : η) (heir : θ)
  | step (t : θ) (full : Bool)

variable {θ η τ κ δ : Type} [DecidableEq θ] [DecidableEq η]

namespace State

def goto (t : θ) (pc : Pc η) (s : State θ η τ κ δ) : State θ η τ κ δ :=
  { s with pcs := update s.pcs t pc }

def point (h : η) (p : Option ℕ) (s : State θ η τ κ δ) : State θ η τ κ δ :=
  { s with ptr_ := update s.ptr_ h p }

def born (t : θ) (h : η) (p : Option ℕ) (s : State θ η τ κ δ) : State θ η τ κ δ :=
  { s with
    handles := h :: s.handles
    ptr_ := update s.ptr_ h p
    owner := update s.owner h (some t) }

def own (h : η) (heir : Option θ) (s : State θ η τ κ δ) : State θ η τ κ δ :=
  { s with owner := update s.owner h heir }

def begin (t : θ) (next : Option (State θ η τ κ δ)) (s : State θ η τ κ δ) :
    Option (State θ η τ κ δ) :=
  if s.pcs t = .idle then next else none

def resume (t : θ) (h : η) (next : Next η) (s : State θ η τ κ δ) : State θ η τ κ δ :=
  match next with
  | .done => s.goto t .idle
  | .copyFrom o => s.goto t (.assign h o)
  | .moveFrom o => s.goto t (.take h o)
  | .destroy => (s.goto t .idle).own h none

def startReset (t : θ) (h : η) (next : Next η) (s : State θ η τ κ δ) : State θ η τ κ δ :=
  if s.ptr_ h = none then s.resume t h next else s.goto t (.release h next)

def create (t : θ) (T : τ) (topic_id : ℕ) (data : δ) (pooled : Bool) (s : State θ η τ κ δ) :
    State θ η τ κ δ :=
  let made := s.heap.create T topic_id data
  { s.goto t (.fresh made.1) with
    heap := made.2.access made.1 fun m ↦
      { m with recycler_ := if pooled then some m.type else none }
    life := update s.life made.1 (s.life made.1 + 1) }

/-- An object that the pool gave back begins another life. -/
def reuse (t : θ) (raw : ℕ) (heap : Heap τ κ δ) (s : State θ η τ κ δ) : State θ η τ κ δ :=
  { s.goto t (.acquired raw) with
    heap := heap
    life := update s.life raw (s.life raw + 1) }

/-- `TypedMessage::reset` on an object from the pool, and the recycler. -/
def prepare (t : θ) (raw topic_id : ℕ) (data : δ) (pooled : Bool) (s : State θ η τ κ δ) :
    State θ η τ κ δ :=
  { s.goto t (.fresh raw) with
    heap := s.heap.access raw fun m ↦
      { m.reset topic_id data with recycler_ := if pooled then some m.type else none } }

def addRef (t : θ) (raw : ℕ) (s : State θ η τ κ δ) : State θ η τ κ δ :=
  { s.goto t .idle with heap := s.heap.access raw .add_ref }

def releaseRef (t : θ) (h : η) (next : Next η) (raw : ℕ) (s : State θ η τ κ δ) :
    State θ η τ κ δ :=
  let zero := (s.heap.objects raw).any fun m ↦ m.release_ref.1
  { s.goto t (if zero then .recycle h next else .clear h next) with
    heap := s.heap.access raw fun m ↦ m.release_ref.2 }

variable [DecidableEq τ]

def acquire (t : θ) (T : τ) (hit : Bool) (s : State θ η τ κ δ) : State θ η τ κ δ :=
  match s.heap.acquire T hit with
  | (none, heap) => { s with heap := heap }
  | (some raw, heap) => s.reuse t raw heap

/-- `ptr_->recycler_(ptr_)` or `delete ptr_`. -/
def endLife (t : θ) (h : η) (next : Next η) (raw : ℕ) (full : Bool) (s : State θ η τ κ δ) :
    State θ η τ κ δ :=
  { s.goto t (.clear h next) with
    heap :=
      match (s.heap.objects raw).bind TypedMessage.recycler_ with
      | some T => s.heap.recycle T full raw
      | none => s.heap.delete raw
    ends := s.ends ++ [(raw, s.life raw)] }

def thread (t : θ) (full : Bool) (s : State θ η τ κ δ) : Option (State θ η τ κ δ) :=
  match s.pcs t with
  | .idle | .acquired _ | .fresh _ => none
  | .adopting h | .copying h _ => (s.ptr_ h).map fun raw ↦ s.addRef t raw
  | .release h next => (s.ptr_ h).map fun raw ↦ s.releaseRef t h next raw
  | .recycle h next => (s.ptr_ h).map fun raw ↦ s.endLife t h next raw full
  | .clear h next => some ((s.point h none).resume t h next)
  | .assign h o =>
    some ((s.point h (s.ptr_ o)).goto t (if s.ptr_ o = none then .idle else .copying h o))
  | .take h o => some ((s.point h (s.ptr_ o)).goto t (.clearSource h o))
  | .clearSource _ o => some ((s.point o none).goto t .idle)

def step (s : State θ η τ κ δ) : Action θ η τ δ → Option (State θ η τ κ δ)
  | .create t T topic_id data pooled => s.begin t (some (s.create t T topic_id data pooled))
  | .acquire t T hit => s.begin t (some (s.acquire t T hit))
  | .prepare t topic_id data pooled =>
    match s.pcs t with
    | .acquired raw => some (s.prepare t raw topic_id data pooled)
    | _ => none
  | .adopt t h =>
    match s.pcs t with
    | .acquired raw | .fresh raw =>
      if h ∈ s.handles then none else some ((s.born t h (some raw)).goto t (.adopting h))
    | _ => none
  | .construct t h => s.begin t (if h ∈ s.handles then none else some (s.born t h none))
  | .copyConstruct t h o =>
    s.begin t <|
      if h ∈ s.handles ∨ s.owner o ≠ some t then none
      else some ((s.born t h (s.ptr_ o)).goto t (if s.ptr_ o = none then .idle else .copying h o))
  | .copyAssign t h o =>
    s.begin t <|
      if s.owner h ≠ some t ∨ s.owner o ≠ some t then none
      else if s.ptr_ h = s.ptr_ o then some s
      else some (s.startReset t h (.copyFrom o))
  | .moveConstruct t h o =>
    s.begin t <|
      if h ∈ s.handles ∨ s.owner o ≠ some t then none
      else some ((s.born t h (s.ptr_ o)).goto t (.clearSource h o))
  | .moveAssign t h o =>
    s.begin t <|
      if s.owner h ≠ some t ∨ s.owner o ≠ some t then none
      else if h = o then some s
      else some (s.startReset t h (.moveFrom o))
  | .reset t h =>
    s.begin t (if s.owner h ≠ some t then none else some (s.startReset t h .done))
  | .destroy t h =>
    s.begin t (if s.owner h ≠ some t then none else some (s.startReset t h .destroy))
  | .hand t h heir =>
    s.begin t (if s.owner h ≠ some t then none else some (s.own h (some heir)))
  | .step t full => s.thread t full

end State

def machine (θ η τ κ δ : Type) [DecidableEq θ] [DecidableEq η] [DecidableEq τ] :
    Machine (State θ η τ κ δ) (Action θ η τ δ) where
  init s := s = {}
  step := State.step

end LivioArk.Msgbus.MessageHandles
