import Mathlib.Data.List.Basic
import Mathlib.Data.List.Sublists

namespace LivioArk.Library.QueueLog

variable {μ : Type}

/-- A first-in first-out queue with its history: everything ever put, and how
many of these have been taken. -/
structure Fifo (μ : Type) where
  put : List μ
  got : ℕ

namespace Fifo

def empty : Fifo μ := ⟨[], 0⟩

def items (q : Fifo μ) : List μ := q.put.drop q.got

def taken (q : Fifo μ) : List μ := q.put.take q.got

def enqueue (q : Fifo μ) (m : μ) : Fifo μ := { q with put := q.put ++ [m] }

def dequeue (q : Fifo μ) : Fifo μ × Option μ :=
  match q.items with
  | [] => (q, none)
  | m :: _ => ({ q with got := q.got + 1 }, some m)

variable {q : Fifo μ} {m : μ}

theorem taken_append_items (q : Fifo μ) : q.taken ++ q.items = q.put :=
  List.take_append_drop _ _

theorem items_eq_nil_iff : q.items = [] ↔ q.put.length ≤ q.got := List.drop_eq_nil_iff

theorem dequeue_cons {rest : List μ} (h : q.items = m :: rest) :
    q.dequeue = ({ q with got := q.got + 1 }, some m) := by
  simp only [dequeue, h]

theorem items_cons_iff {rest : List μ} :
    q.items = m :: rest ↔ q.put[q.got]? = some m ∧ q.put.drop (q.got + 1) = rest := by
  constructor
  · intro h
    have hlt : q.got < q.put.length := by
      by_contra hge
      rw [items_eq_nil_iff.mpr (by omega)] at h
      cases h
    have h' : q.put.drop q.got = m :: rest := h
    rw [List.drop_eq_getElem_cons hlt] at h'
    obtain ⟨rfl, rfl⟩ := List.cons.inj h'
    exact ⟨List.getElem?_eq_getElem hlt, rfl⟩
  · rintro ⟨hget, rfl⟩
    obtain ⟨hlt, rfl⟩ := List.getElem?_eq_some_iff.mp hget
    exact List.drop_eq_getElem_cons hlt

theorem dequeue_some {q' : Fifo μ} (h : q.dequeue = (q', some m)) :
    q' = { q with got := q.got + 1 } ∧ q.put[q.got]? = some m := by
  unfold dequeue at h
  split at h
  · simp at h
  · rename_i m' rest hitems
    simp only [Prod.mk.injEq, Option.some.injEq] at h
    obtain ⟨rfl, rfl⟩ := h
    exact ⟨rfl, (items_cons_iff.mp hitems).1⟩

theorem dequeue_none {q' : Fifo μ} (h : q.dequeue = (q', none)) : q' = q ∧ q.items = [] := by
  unfold dequeue at h
  split at h
  · rename_i hitems
    simp only [Prod.mk.injEq] at h
    exact ⟨h.1.symm, hitems⟩
  · simp at h

theorem taken_succ (h : q.put[q.got]? = some m) :
    Fifo.taken { q with got := q.got + 1 } = q.taken ++ [m] := by
  simp only [taken, List.take_add_one, h, Option.toList_some]

theorem dequeue_head {q' : Fifo μ} (h : q.dequeue = (q', some m)) :
    q.items = m :: q'.items ∧ q'.taken = q.taken ++ [m] ∧ q'.put = q.put ∧
      q'.got ≤ q'.put.length := by
  obtain ⟨rfl, hget⟩ := dequeue_some h
  refine ⟨items_cons_iff.mpr ⟨hget, rfl⟩, taken_succ hget, rfl, ?_⟩
  exact (List.getElem?_eq_some_iff.mp hget).1

theorem taken_enqueue (h : q.got ≤ q.put.length) : (q.enqueue m).taken = q.taken :=
  List.take_append_of_le_length h

theorem items_enqueue (h : q.got ≤ q.put.length) : (q.enqueue m).items = q.items ++ [m] :=
  List.drop_append_of_le_length h

end Fifo

end LivioArk.Library.QueueLog
