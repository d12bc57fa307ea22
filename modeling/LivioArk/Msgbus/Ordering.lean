import LivioArk.Msgbus.Backpressure
import LivioArk.Msgbus.Lanes

namespace LivioArk.Msgbus.Ordering

open Function LivioArk.Library.Transition LivioArk.Library.QueueLog
open LivioArk.Library.SerialTrace
open LockFreeQueue MessageBus BusSteps AtomicBus WeakBus Lanes

variable {Pid μ : Type} {cfg : Config μ}

section Pipeline

variable {s : Pipeline (View Pid μ) μ}

/-- Worker `w` works through a part of the messages in the order of the main
queue, and all of them are its own. -/
theorem lane_serves (h : InLanes cfg s) (w : ℕ) :
    ∃ input hand, Serves input hand (trace w s.events) ∧
      input.Sublist s.queue_.fifo.put ∧ ∀ m ∈ input, cfg.worker m = w := by
  have htaken : s.taken.Sublist s.queue_.fifo.put :=
    ((List.sublist_append_left _ _).trans h.fetched.ordered).trans (List.take_sublist _ _)
  by_cases hN : cfg.num_dispatchers_ = 1
  · obtain ⟨hserves, honly⟩ := h.alone hN
    by_cases hw : w = 0
    · subst hw
      refine ⟨_, _, hserves, htaken, fun m _ ↦ ?_⟩
      rw [Config.worker, hN, Nat.mod_one]
    · exact ⟨[], .free, honly w hw ▸ .start, List.nil_sublist _, by simp⟩
  · have hlane := (h.routed hN).complete w
    have hpart : (s.worker_queues_ w).fifo.taken.Sublist (lane cfg w s.taken) := by
      rw [← hlane]
      exact (List.take_sublist _ _).trans (List.sublist_append_left _ _)
    refine ⟨_, _, h.served hN w, (hpart.trans (List.filter_sublist)).trans htaken, fun m hm ↦ ?_⟩
    exact (mem_lane.mp (hpart.subset hm)).2

/-- A message whose topic hashes to the lane of an earlier one is begun only
after that one is finished. -/
theorem lane_ordered (h : InLanes cfg s) (hnodup : s.queue_.fifo.put.Nodup) {a b : μ} {v w : ℕ}
    {lhs rhs : List (Dispatch μ)} (hab : List.Sublist [a, b] s.queue_.fifo.put)
    (htopic : cfg.topic_id a = cfg.topic_id b) (ha : .begin v a ∈ s.events)
    (hb : s.events = lhs ++ .begin w b :: rhs) : .finish v a ∈ lhs := by
  obtain ⟨input, hand, hserves, hsub, hown⟩ := lane_serves h w
  have hbin : b ∈ input := by
    refine hserves.mem_input (mem_trace_begin.mpr ?_)
    rw [hb]
    exact List.mem_append_right _ List.mem_cons_self
  have hvw : v = w := by
    obtain ⟨input', hand', hserves', -, hown'⟩ := lane_serves h v
    have hain' := hserves'.mem_input (mem_trace_begin.mpr ha)
    rw [← hown' a hain', ← hown b hbin, Config.worker, Config.worker, htopic]
  subst hvw
  have hain : a ∈ input := hserves.mem_input (mem_trace_begin.mpr ha)
  have htrace : trace v s.events = trace v lhs ++ .begin b :: trace v rhs := by
    rw [hb]
    simp [trace, mark]
  have hbefore := hserves.before (hnodup.sublist hsub) (pair_sublist hsub hnodup hain hbin hab)
    htrace
  exact mem_trace_finish.mp hbefore

end Pipeline

variable [DecidableEq Pid] [DecidableEq μ] {capacity : ℕ} {s : Bus (Fifo μ) Pid μ}

theorem put_nodup (h : (AtomicBus.machine Pid cfg capacity).Reachable s) :
    s.queue_.put.Nodup := by
  obtain ⟨a, ha, hR⟩ := Backpressure.refines h
  exact hR.fifo ▸ (Accounts.inv_reachable ha).put_nodup

/-- Two messages of one topic are handled in the order in which they were put
into the main queue, and one after the other. -/
theorem topic_order (h : (AtomicBus.machine Pid cfg capacity).Reachable s) {a b : μ} {v w : ℕ}
    {lhs rhs : List (Dispatch μ)} (hab : List.Sublist [a, b] s.queue_.put)
    (htopic : cfg.topic_id a = cfg.topic_id b) (ha : .begin v a ∈ s.events)
    (hb : s.events = lhs ++ .begin w b :: rhs) : .finish v a ∈ lhs :=
  lane_ordered (inLanes_reachable (weaken_reachable h)) (put_nodup h) hab htopic ha hb

def twoWorkersConfig : Config ℕ where
  policy_ := .ReturnFalse
  num_dispatchers_ := 2
  num_dispatchers_pos := Nat.two_pos
  topic_id _ := 5
  hash := id
  has_on_drop _ := false

def sameTopic : List (BusAction Bool ℕ) :=
  let put (m : ℕ) : List (BusAction Bool ℕ) :=
    [.thread (.publish true m), .queue (.publisher true), .thread (.publisher true),
      .thread (.publisher true)]
  let route : List (BusAction Bool ℕ) :=
    [.thread (.loop none), .queue .loop, .thread (.loop none), .queue .loop, .thread (.loop none)]
  let handle : List (BusAction Bool ℕ) :=
    [.thread (.worker 1), .queue (.worker 1), .thread (.worker 1), .thread (.worker 1)]
  put 0 ++ put 1 ++ [.thread .start] ++ route ++ route ++ handle ++ handle

theorem topic_order_same_topic : ∃ s,
    (AtomicBus.machine Bool twoWorkersConfig 2).run (.initial .empty) sameTopic = some s ∧
      s.events = [.begin 1 0, .finish 1 0] ++ .begin 1 1 :: [.finish 1 1] ∧
      Dispatch.finish 1 0 ∈ [Dispatch.begin 1 0, .finish 1 0] := by
  refine ⟨_, rfl, rfl, ?_⟩
  exact topic_order (b := 1) (w := 1)
    (Machine.Reaches.of_run (M := AtomicBus.machine Bool twoWorkersConfig 2) rfl sameTopic rfl)
    (List.Sublist.refl _) rfl (by decide) rfl

end LivioArk.Msgbus.Ordering
