import LivioArk.Log.Logging
import Mathlib.Data.Set.Finite.Basic
import Mathlib.Data.Fintype.List

namespace LivioArk.Log.LogFiles

open Function LivioArk.Library.Transition Logging

structure World where
  reg : Registry := {}
  disk : Disk

/-- A call, with what the file system lets it do, or what happens to the files
between two calls: messages that are written, and other programs. -/
inductive Event
  | call (c : Call) (access : Disk → Access)
  | elsewhere (f : Disk → Disk)

def found (access : Access) (disk : Disk) : Files := { access with disk := disk }

def World.withModule (m : Str) (x : Option Logger) (w : World) : World :=
  { w with reg := w.reg.withModule m x }

variable (ndebug : Bool)

def World.next (w : World) : Event → World
  | .call c access =>
    let after := (execute ndebug (found (access w.disk) w.disk) w.reg c).2
    { reg := after.1, disk := after.2 }
  | .elsewhere f => { w with disk := f w.disk }

def World.shown (w : World) : Event → Option Outcome
  | .call c access => some (execute ndebug (found (access w.disk) w.disk) w.reg c).1
  | .elsewhere _ => none

def World.after (w : World) (es : List Event) : World := es.foldl (World.next ndebug) w

def World.outcomes (w : World) : List Event → List (Option Outcome)
  | [] => []
  | e :: es => w.shown ndebug e :: World.outcomes (w.next ndebug e) es

def World.machine : Machine World Event where
  init w := w.reg = {}
  step w e := some (w.next ndebug e)

variable {ndebug} {w : World}

theorem after_snoc (w : World) (es : List Event) (e : Event) :
    w.after ndebug (es ++ [e]) = (w.after ndebug es).next ndebug e :=
  List.foldl_concat _ _ _ _

theorem after_reachable (h : (World.machine ndebug).Reachable w) (es : List Event) :
    (World.machine ndebug).Reachable (w.after ndebug es) := by
  induction es generalizing w with
  | nil => exact h
  | cons e es ih => exact ih (.next h trivial rfl)

theorem finite_modules (h : (World.machine ndebug).Reachable w) :
    {m | w.reg.modules m ≠ none}.Finite := by
  refine Machine.Reaches.invariant (P := fun w ↦ {m | w.reg.modules m ≠ none}.Finite) ?_ ?_ h
  · intro w hw
    rw [show w.reg = {} from hw]
    simp
  · rintro w e w' - hfinite - ht
    obtain rfl := Option.some.inj ht
    cases e with
    | elsewhere f => exact hfinite
    | call c access =>
      cases hc : c.module? with
      | none =>
        have hsame : (w.next ndebug (.call c access)).reg.modules = w.reg.modules :=
          funext fun m ↦ perform_modules hc m
        rw [hsame]
        exact hfinite
      | some m =>
        cases hlogger : moduleLogger ndebug (found (access w.disk) w.disk) m w.reg with
        | none =>
          simp only [World.next, execute_threw hc hlogger]
          exact hfinite
        | some logger =>
          simp only [World.next, execute_logger hc hlogger]
          refine (hfinite.insert m).subset fun key hkey ↦ ?_
          by_cases he : key = m
          · exact .inl he
          · refine .inr ?_
            rw [Set.mem_ofPred_eq, modules_withModule_ne he] at hkey
            exact hkey

theorem exists_fresh (h : (World.machine ndebug).Reachable w) : ∃ m, w.reg.modules m = none := by
  obtain ⟨m, hm⟩ := (finite_modules h).exists_notMem
  exact ⟨m, not_not.mp hm⟩

end LivioArk.Log.LogFiles
