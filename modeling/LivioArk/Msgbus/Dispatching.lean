import LivioArk.Msgbus.SubStore

namespace LivioArk.Msgbus.Dispatching

open LivioArk.Library.PrefixTree
open Levels TopicMatcher TopicRegistry WildcardTrie Subscriptions SubStore

variable {τ η ν ε : Type}

/-- A call of `dispatchMessage` on its way: the snapshots it has still to load,
the slots it has still to dispatch to, and what is left of the subscriber list
of the current slot. -/
structure Frame (τ η ν : Type) where
  msg : Message τ ν
  exact : Bool := true
  wildcards : Bool := true
  slots : List ℕ := []
  subs : List (Subscriber η) := []
  deriving Repr, DecidableEq

section Load

variable [DecidableEq τ]

def Frame.load (b : SubState τ η) (f : Frame τ η ν) : Option (Frame τ η ν) :=
  match f.subs, f.slots with
  | _ :: _, _ => none
  | [], slot :: slots => some { f with slots, subs := (b.heap slot).subscribers_ }
  | [], [] =>
    if f.exact then some { f with exact := false, slots := exactSlot b f.msg }
    else if f.wildcards then
      some { f with
        wildcards := false
        slots := match_ f.msg.topic_sv_ f.msg.type b.wildcard_trie_ }
    else none

def Frame.finished (f : Frame τ η ν) : Bool :=
  !f.exact && !f.wildcards && f.slots.isEmpty && f.subs.isEmpty

def Frame.rest (b : SubState τ η) (call : η → ν → Except ε Unit) (f : Frame τ η ν) :
    List (Invocation η ν) :=
  let dispatch := fun slot ↦ TopicSlot.dispatchList call f.msg.data_ (b.heap slot).subscribers_
  TopicSlot.dispatchList call f.msg.data_ f.subs ++ f.slots.flatMap dispatch ++
    (if f.exact then (exactSlot b f.msg).flatMap dispatch else []) ++
    if f.wildcards then (match_ f.msg.topic_sv_ f.msg.type b.wildcard_trie_).flatMap dispatch
    else []

variable {b : SubState τ η} {f f' : Frame τ η ν} {live : List (Sub τ η)} {x : Sub τ η}

/-- Undisturbed, the sections make up `dispatchMessage`. -/
theorem rest_start (b : SubState τ η) (call : η → ν → Except ε Unit) (msg : Message τ ν) :
    Frame.rest b call ({ msg } : Frame τ η ν) = dispatchMessage b call msg := by
  simp [Frame.rest, dispatchMessage, matchedSlots, TopicSlot.dispatchList]

theorem rest_load (h : f.load b = some f') (call : η → ν → Except ε Unit) :
    f'.rest b call = f.rest b call := by
  obtain ⟨msg, exact, wildcards, slots, subs⟩ := f
  cases subs with
  | cons sub subs => cases h
  | nil =>
    cases slots with
    | cons slot slots =>
      cases h
      simp [Frame.rest, TopicSlot.dispatchList]
    | nil =>
      cases exact <;> cases wildcards <;> cases h <;>
        simp [Frame.rest, TopicSlot.dispatchList]

theorem load_msg (h : f.load b = some f') : f'.msg = f.msg := by
  obtain ⟨msg, exact, wildcards, slots, subs⟩ := f
  cases subs with
  | cons sub subs => cases h
  | nil =>
    cases slots with
    | cons slot slots =>
      cases h
      rfl
    | nil => cases exact <;> cases wildcards <;> cases h <;> rfl

theorem load_subs (h : f.load b = some f') :
    f'.subs = [] ∨ ∃ slot, f'.subs = (b.heap slot).subscribers_ := by
  obtain ⟨msg, exact, wildcards, slots, subs⟩ := f
  cases subs with
  | cons sub subs => cases h
  | nil =>
    cases slots with
    | cons slot slots =>
      cases h
      exact .inr ⟨slot, rfl⟩
    | nil => cases exact <;> cases wildcards <;> cases h <;> exact .inl rfl

end Load

end LivioArk.Msgbus.Dispatching
