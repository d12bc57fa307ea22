import LivioArk.Msgbus.Levels
import Mathlib.Data.Int.Basic
import Mathlib.Data.List.Count
import Mathlib.Data.List.Nodup
import Mathlib.Logic.Function.Basic

namespace LivioArk.Msgbus.Message

open Function Levels

def kDefaultPoolCapacity : ℕ := 8192

/-- The closure around a callback of the user, which casts the message it is
given to `TypedMessage<T>`. -/
structure DropCallback (τ κ : Type) where
  type : τ
  cb : κ
  deriving DecidableEq

/-- A `TypedMessage<T>`, with `T` as the field `type`. The only recyclers are
the functions `TypedMessagePool<T>::recycle`, so `T` stands for one. -/
structure TypedMessage (τ κ δ : Type) where
  type : τ
  ref_count_ : ℤ := 0
  recycler_ : Option τ := none
  on_drop_ : Option (DropCallback τ κ) := none
  topic_sv_ : Str := []
  topic_id_ : ℕ
  data_ : δ
  deriving DecidableEq

structure Content (τ κ δ : Type) where
  type : τ
  topic_id : ℕ
  topic_sv : Str
  data : δ
  on_drop : Option κ
  deriving DecidableEq

structure DropCall (κ δ : Type) where
  cb : κ
  topic_sv : Str
  data : δ
  deriving DecidableEq

/-- The objects that exist, and the free list of each pool. `fault` says that
memory was used that held no object, or one of another type. -/
structure Heap (τ κ δ : Type) where
  objects : ℕ → Option (TypedMessage τ κ δ) := fun _ ↦ none
  next : ℕ := 0
  pools : τ → List ℕ := fun _ ↦ []
  fault : Bool := false

variable {τ κ δ : Type}

namespace TypedMessage

def add_ref (m : TypedMessage τ κ δ) : TypedMessage τ κ δ :=
  { m with ref_count_ := m.ref_count_ + 1 }

def release_ref (m : TypedMessage τ κ δ) : Bool × TypedMessage τ κ δ :=
  (m.ref_count_ = 1, { m with ref_count_ := m.ref_count_ - 1 })

def set_topic_sv (sv : Str) (m : TypedMessage τ κ δ) : TypedMessage τ κ δ :=
  { m with topic_sv_ := sv }

def reset (topic_id : ℕ) (data : δ) (m : TypedMessage τ κ δ) : TypedMessage τ κ δ :=
  { m with
    ref_count_ := 0
    recycler_ := none
    on_drop_ := none
    topic_id_ := topic_id
    data_ := data }

def content (m : TypedMessage τ κ δ) : Content τ κ δ where
  type := m.type
  topic_id := m.topic_id_
  topic_sv := m.topic_sv_
  data := m.data_
  on_drop := m.on_drop_.map DropCallback.cb

end TypedMessage

namespace Heap

/-- Use of the object that a raw pointer shows. -/
def access (raw : ℕ) (f : TypedMessage τ κ δ → TypedMessage τ κ δ) (h : Heap τ κ δ) :
    Heap τ κ δ :=
  match h.objects raw with
  | some m => { h with objects := update h.objects raw (some (f m)) }
  | none => { h with fault := true }

/-- `new TypedMessage<T>(topic_id, data)`. -/
def create (T : τ) (topic_id : ℕ) (data : δ) (h : Heap τ κ δ) : ℕ × Heap τ κ δ :=
  (h.next,
    { h with
      objects := update h.objects h.next
        (some { type := T, topic_id_ := topic_id, data_ := data })
      next := h.next + 1 })

def delete (raw : ℕ) (h : Heap τ κ δ) : Heap τ κ δ :=
  match h.objects raw with
  | some _ => { h with objects := update h.objects raw none }
  | none => { h with fault := true }

def content (h : Heap τ κ δ) (raw : ℕ) : Option (Content τ κ δ) :=
  (h.objects raw).map TypedMessage.content

variable [DecidableEq τ]

/-- `static_cast<TypedMessage<T>*>`. -/
def cast (T : τ) (raw : ℕ) (h : Heap τ κ δ) : Heap τ κ δ :=
  if (h.objects raw).any fun m ↦ m.type = T then h else { h with fault := true }

/-- `ObjectPool::acquire` on the pool of `T`. A miss is possible at any time,
for example while another thread is between the steps of its own call. -/
def acquire (T : τ) (hit : Bool) (h : Heap τ κ δ) : Option ℕ × Heap τ κ δ :=
  match hit, h.pools T with
  | true, raw :: rest => (some raw, { h with pools := update h.pools T rest })
  | _, _ => (none, h)

def release (T : τ) (full : Bool) (raw : ℕ) (h : Heap τ κ δ) : Heap τ κ δ :=
  if full ∨ kDefaultPoolCapacity ≤ (h.pools T).length then h.delete raw
  else { h with pools := update h.pools T (h.pools T ++ [raw]) }

def recycle (T : τ) (full : Bool) (raw : ℕ) (h : Heap τ κ δ) : Heap τ κ δ :=
  (h.cast T raw).release T full raw

def notify_drop (raw : ℕ) (h : Heap τ κ δ) : Option (DropCall κ δ) × Heap τ κ δ :=
  match h.objects raw with
  | none => (none, { h with fault := true })
  | some m =>
    match m.on_drop_ with
    | none => (none, h)
    | some on_drop =>
      (some ⟨on_drop.cb, m.topic_sv_, m.data_⟩,
        (h.access raw fun m ↦ { m with on_drop_ := none }).cast on_drop.type raw)

end Heap

namespace MessagePtr

def adopt (p : ℕ) (h : Heap τ κ δ) : Heap τ κ δ := h.access p .add_ref

/-- The copy constructor, on a pointer that is not null. -/
def copy (ptr_ : ℕ) (h : Heap τ κ δ) : Heap τ κ δ := h.access ptr_ .add_ref

def reset [DecidableEq τ] (full : Bool) (ptr_ : ℕ) (h : Heap τ κ δ) : Heap τ κ δ :=
  match h.objects ptr_ with
  | none => { h with fault := true }
  | some m =>
    let h := h.access ptr_ fun m ↦ m.release_ref.2
    if m.release_ref.1 then
      match m.recycler_ with
      | some T => h.recycle T full ptr_
      | none => h.delete ptr_
    else h

end MessagePtr

end LivioArk.Msgbus.Message
