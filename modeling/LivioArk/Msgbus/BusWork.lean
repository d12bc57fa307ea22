import LivioArk.Msgbus.BusFlow
import Mathlib.Algebra.BigOperators.Group.Finset.Basic
import Mathlib.Algebra.Order.BigOperators.Group.Finset

namespace LivioArk.Msgbus.BusWork

open Function LivioArk.Library.Transition LivioArk.Library.QueueLog
open LockFreeQueue MessageBus BusSteps AtomicBus BusFlow

variable {μ : Type} {cfg : Config μ} {cap k : ℕ}

/-- How far a worker is from its end, or from going round in circles because its
queue is empty. `waiting` is how many messages there are in it. -/
def workerLeft (running_ router_drained_ : Bool) (waiting : ℕ) : WorkerPc μ → ℕ
  | .begin .running _ => 10
  | .dispatching .running _ => 9
  | .head .running => if running_ then if waiting = 0 then 7 else 8 else 6
  | .poll .running => 7
  | .begin .awaiting _ => 7
  | .dispatching .awaiting _ => 6
  | .head .awaiting => if router_drained_ then 3 else if waiting = 0 then 4 else 5
  | .poll .awaiting => 4
  | .begin .final _ => 3
  | .dispatching .final _ => 2
  | .poll .final => 1
  | .head .final | .unstarted | .finished => 0

def serveLeft (running_ router_drained_ : Bool) (k : ℕ) (q : Fifo μ) (pc : WorkerPc μ) : ℕ :=
  workerLeft running_ router_drained_ q.items.length pc + 4 * (k - q.got)

def nextLeft (drain : Bool) : ℕ := if drain then 1 else 4

def loopLeft (running_ : Bool) : LoopPc μ → ℕ
  | .notify drain _ => nextLeft drain + 8
  | .route drain _ => nextLeft drain + 7
  | .begin drain _ => nextLeft drain + 2
  | .dispatching drain _ | .wakeWorker drain => nextLeft drain + 1
  | .head => if running_ then 4 else 2
  | .poll drain => if drain then 1 else 3
  | .unstarted | .finished => 0

def work (cfg : Config μ) (k : ℕ) (s : Pipeline (Fifo μ) μ) : ℕ :=
  10 * (k - s.queue_.got) + loopLeft s.running_ s.loop +
    ∑ i ∈ Finset.range cfg.num_dispatchers_, serveLeft s.running_ s.router_drained_
      (s.worker_queues_ i).put.length (s.worker_queues_ i) (s.workers i)

section Parts

variable {running_ router_drained_ : Bool} {i : ℕ} {q q' : Fifo μ} {pc pc' : WorkerPc μ}
variable {events : List (Dispatch μ)}

theorem items_length (q : Fifo μ) : q.items.length = q.put.length - q.got := List.length_drop

theorem items_pos (h : q.items ≠ []) : 0 < q.items.length := List.length_pos_iff.mpr h

theorem dequeue_counts {m : μ} (h : q.dequeue = (q', some m)) :
    q'.put = q.put ∧ q'.got = q.got + 1 ∧ q.got < q.put.length := by
  obtain ⟨rfl, hget⟩ := Fifo.dequeue_some h
  exact ⟨rfl, rfl, (List.getElem?_eq_some_iff.mp hget).1⟩

theorem workerLeft_next (running_ router_drained_ : Bool) (phase : Phase) (waiting : ℕ) (m : μ) :
    workerLeft running_ router_drained_ waiting (.next phase : WorkerPc μ) <
      workerLeft running_ router_drained_ waiting (.dispatching phase m) := by
  cases phase with
  | running | awaiting =>
    simp only [WorkerPc.next, workerLeft]
    repeat' split
    all_goals omega
  | final => exact Nat.lt_add_one 1

theorem workerFlow_put (h : WorkerFlow running_ router_drained_ i q pc q' pc' events) :
    q'.put = q.put := by
  cases h with
  | take hd => exact (dequeue_counts hd).1
  | _ => rfl

/-- A step of a worker that has something to do brings it forward. If its queue is
empty and the router is not done it may go round. -/
theorem workerFlow_left (h : WorkerFlow running_ router_drained_ i q pc q' pc' events)
    (hk : ∀ m, q.dequeue = (q', some m) → q.got < k) :
    serveLeft running_ router_drained_ k q' pc' < serveLeft running_ router_drained_ k q pc ∨
      q' = q ∧ q.items = [] ∧ (router_drained_ = true → running_ = true) ∧
        serveLeft running_ router_drained_ k q' pc' = serveLeft running_ router_drained_ k q pc ∧
          pc ≠ .finished ∧ pc' ≠ .finished := by
  by_cases hless : serveLeft running_ router_drained_ k q' pc' <
      serveLeft running_ router_drained_ k q pc
  · exact .inl hless
  refine .inr ?_
  simp only [serveLeft] at hless
  cases h with
  | head =>
    cases running_ with
    | false =>
      exfalso
      simp only [Bool.false_eq_true, if_false, workerLeft] at hless
      repeat' split at hless
      all_goals omega
    | true =>
      simp only [if_true, workerLeft] at hless
      by_cases hitems : q.items = []
      · refine ⟨rfl, hitems, fun _ ↦ rfl, ?_, fun he ↦ (by cases he), fun he ↦ (by cases he)⟩
        simp only [serveLeft, if_true, workerLeft, hitems, List.length_nil]
      · exfalso
        rw [if_neg (Nat.ne_of_gt (items_pos hitems))] at hless
        omega
  | await =>
    cases router_drained_ with
    | true =>
      exfalso
      simp only [if_true, workerLeft] at hless
      omega
    | false =>
      simp only [Bool.false_eq_true, if_false, workerLeft] at hless
      by_cases hitems : q.items = []
      · refine ⟨rfl, hitems, fun hd ↦ (by cases hd), ?_, fun he ↦ (by cases he),
          fun he ↦ (by cases he)⟩
        simp only [serveLeft, Bool.false_eq_true, if_false, workerLeft, hitems, List.length_nil,
          if_true]
      · exfalso
        rw [if_neg (Nat.ne_of_gt (items_pos hitems))] at hless
        omega
  | @take phase _ m hd =>
    have hgot := hk m hd
    obtain ⟨hput, hgot', hlt⟩ := dequeue_counts hd
    cases phase <;> simp only [workerLeft] at hless <;> omega
  | @empty phase hitems =>
    rw [hitems, List.length_nil] at hless
    cases phase with
    | running =>
      cases running_ with
      | true =>
        refine ⟨rfl, hitems, fun _ ↦ rfl, ?_, fun he ↦ (by cases he), fun he ↦ (by cases he)⟩
        rw [serveLeft, serveLeft, hitems]
        rfl
      | false =>
        exfalso
        simp only [reduceCtorEq, Bool.false_eq_true, if_false, workerLeft] at hless
        omega
    | awaiting =>
      cases router_drained_ with
      | true =>
        exfalso
        simp only [reduceCtorEq, if_false, if_true, workerLeft] at hless
        omega
      | false =>
        refine ⟨rfl, hitems, fun hd ↦ (by cases hd), ?_, fun he ↦ (by cases he),
          fun he ↦ (by cases he)⟩
        rw [serveLeft, serveLeft, hitems]
        rfl
    | final =>
      exfalso
      simp only [if_true, workerLeft] at hless
      omega
  | @begin phase m =>
    cases phase <;> simp only [workerLeft] at hless <;> omega
  | @finish phase m =>
    have hnext := workerLeft_next running_ router_drained_ phase q.items.length m
    omega

theorem workerLeft_waiting (running_ router_drained_ : Bool) (waiting waiting' : ℕ)
    (pc : WorkerPc μ) :
    workerLeft running_ router_drained_ waiting' pc ≤
      workerLeft running_ router_drained_ waiting pc + 1 := by
  unfold workerLeft
  repeat' split
  all_goals omega

theorem workerLeft_pos {waiting waiting' : ℕ} (h : 0 < waiting) (h' : 0 < waiting')
    (pc : WorkerPc μ) : workerLeft running_ router_drained_ waiting' pc =
      workerLeft running_ router_drained_ waiting pc := by
  simp only [workerLeft.eq_def, Nat.ne_of_gt h, Nat.ne_of_gt h', if_false]

theorem workerLeft_running (waiting : ℕ) (pc : WorkerPc μ) :
    workerLeft false router_drained_ waiting pc ≤
      workerLeft running_ router_drained_ waiting pc := by
  unfold workerLeft
  repeat' split
  all_goals first | omega | simp_all

theorem workerLeft_drained (waiting : ℕ) (pc : WorkerPc μ) :
    workerLeft running_ true waiting pc ≤ workerLeft running_ router_drained_ waiting pc := by
  unfold workerLeft
  repeat' split
  all_goals first | omega | simp_all

theorem serveLeft_enqueue (q : Fifo μ) (m : μ) (pc : WorkerPc μ) :
    serveLeft running_ router_drained_ (q.enqueue m).put.length (q.enqueue m) pc ≤
      serveLeft running_ router_drained_ q.put.length q pc + 5 := by
  have hwaiting := workerLeft_waiting running_ router_drained_ q.items.length
    (q.enqueue m).items.length pc
  have hgot : (q.enqueue m).got = q.got := rfl
  have hput : (q.enqueue m).put.length = q.put.length + 1 := List.length_append
  simp only [serveLeft, hgot, hput]
  omega

theorem loopLeft_running (pc : LoopPc μ) : loopLeft false pc ≤ loopLeft running_ pc := by
  unfold loopLeft
  repeat' split
  all_goals first | omega | simp_all

theorem loopLeft_next (drain : Bool) :
    loopLeft running_ (.next drain : LoopPc μ) ≤ nextLeft drain := by
  cases drain <;> cases running_ <;> exact Nat.le_of_ble_eq_true rfl

/-- A step of the loop brings it forward, unless the bus runs and there is nothing
in its queue. -/
theorem loopFlow_left {pc pc' : LoopPc μ} {taken : List μ}
    (h : LoopFlow cfg running_ q pc q' pc' taken events)
    (hroom : ∀ drain, pc = .poll drain → q.items ≠ [] → q.got < k)
    (hpolled : pc = .poll false → running_ = false ∨ q.items ≠ []) :
    10 * (k - q'.got) + loopLeft running_ pc' < 10 * (k - q.got) + loopLeft running_ pc := by
  cases h with
  | head => cases running_ <;> simp [loopLeft]
  | @take drain _ m hd =>
    obtain ⟨-, hgot, hlt⟩ := dequeue_counts hd
    have hroom := hroom drain rfl fun hnil ↦ by
      rw [Fifo.items_eq_nil_iff] at hnil
      omega
    cases drain <;> simp only [loopLeft, nextLeft, Bool.false_eq_true, if_false, if_true] <;> omega
  | @empty drain hitems =>
    cases drain with
    | true => simp [loopLeft]
    | false =>
      obtain rfl := (hpolled rfl).resolve_right fun hne ↦ hne hitems
      simp [loopLeft]
  | @notified drain m =>
    split <;> simp only [loopLeft] <;> omega
  | @begin drain m =>
    simp only [loopLeft]
    omega
  | @finish drain m =>
    exact Nat.add_lt_add_left (Nat.lt_succ_of_le (loopLeft_next drain)) _
  | @woke drain =>
    exact Nat.add_lt_add_left (Nat.lt_succ_of_le (loopLeft_next drain)) _

theorem sum_exchange {f g : ℕ → ℕ} {s : Finset ℕ} {w c d : ℕ} (hw : w ∈ s)
    (hother : ∀ i ∈ s, i ≠ w → g i ≤ f i) (hle : g w + d ≤ f w + c) :
    ∑ i ∈ s, g i + d ≤ ∑ i ∈ s, f i + c := by
  have hrest : ∑ i ∈ s.erase w, g i ≤ ∑ i ∈ s.erase w, f i :=
    Finset.sum_le_sum fun i hi ↦ hother i (Finset.mem_of_mem_erase hi) (Finset.ne_of_mem_erase hi)
  rw [← Finset.add_sum_erase s f hw, ← Finset.add_sum_erase s g hw]
  omega

end Parts

section Flows

variable {s t : Pipeline (Fifo μ) μ} {who : Option Thread}

structure Busy (cfg : Config μ) (k : ℕ) (s : Pipeline (Fifo μ) μ) : Prop where
  started : s.loop ≠ .unstarted
  room : ∀ drain, s.loop = .poll drain → s.queue_.items ≠ [] → s.queue_.got < k
  polled : s.loop = .poll false → s.running_ = false ∨ s.queue_.items ≠ []
  rest : s.stopper = .clear → ∀ i < cfg.num_dispatchers_,
    s.workers i = .unstarted ∨ s.workers i = .finished

structure Idle (cfg : Config μ) (cap : ℕ) (s : Pipeline (Fifo μ) μ) (who : Option Thread)
    (t : Pipeline (Fifo μ) μ) : Prop where
  loop : t.loop = s.loop
  queues : t.worker_queues_ = s.worker_queues_
  full : who = some .loop → ∃ drain m, s.loop = .route drain m ∧
    cap ≤ (s.worker_queues_ (cfg.worker m)).items.length
  worker : ∀ i, who = some (.worker i) → (s.worker_queues_ i).items = [] ∧
    (s.router_drained_ = true → s.running_ = true)
  workers : ∀ i, t.workers i = .finished ↔ s.workers i = .finished
  stopper : who ≠ some .stop → t.stopper = s.stopper

theorem stopFlow_worker {running_ router_drained_ : Bool} {stopper : StopPc} {i : ℕ}
    (h : StopFlow cfg s running_ router_drained_ stopper) (waiting : ℕ)
    (hrest : s.stopper = .clear → s.workers i = .unstarted ∨ s.workers i = .finished) :
    workerLeft running_ router_drained_ waiting (s.workers i) ≤
      workerLeft s.running_ s.router_drained_ waiting (s.workers i) := by
  cases h with
  | call => exact workerLeft_running _ _
  | setDrained => exact workerLeft_drained _ _
  | clear hclear =>
    rcases hrest hclear with hw | hw
    all_goals
      simp only [hw, workerLeft]
      exact Nat.le_refl _
  | _ => exact Nat.le_refl _

theorem stopFlow_work {running_ router_drained_ : Bool} {stopper : StopPc} {accepted : List μ}
    (h : StopFlow cfg s running_ router_drained_ stopper) (hb : Busy cfg k s) :
    work cfg k { s with running_, router_drained_, stopper, accepted } ≤ work cfg k s := by
  have hloop : loopLeft running_ s.loop ≤ loopLeft s.running_ s.loop := by
    cases h with
    | call => exact loopLeft_running s.loop
    | _ => exact Nat.le_refl _
  refine Nat.add_le_add (Nat.add_le_add_left hloop _) (Finset.sum_le_sum fun i hi ↦ ?_)
  refine Nat.add_le_add_right (stopFlow_worker h _ fun hclear ↦ ?_) _
  exact hb.rest hclear i (Finset.mem_range.mp hi)

theorem flow_work (h : Flow cfg cap s who t) (hb : Busy cfg k s) :
    work cfg k t < work cfg k s ∨ work cfg k t ≤ work cfg k s ∧ Idle cfg cap s who t := by
  cases h with
  | @publisher q ht =>
    refine .inr ⟨?_, rfl, rfl, fun he ↦ (by cases he), fun i he ↦ (by cases he),
      fun _ ↦ Iff.rfl, fun _ ↦ rfl⟩
    have hgot : s.queue_.got ≤ q.got := by
      cases ht with
      | same | put m => exact Nat.le_refl _
      | take =>
        cases hd : s.queue_.dequeue with
        | mk q' value =>
          cases value with
          | none => rw [(Fifo.dequeue_none hd).1]
          | some m => exact Nat.le_of_lt (by rw [(dequeue_counts hd).2.1]; exact Nat.lt_succ_self _)
    refine Nat.add_le_add_right (Nat.add_le_add_right ?_ _) _
    exact Nat.mul_le_mul_left _ (Nat.sub_le_sub_left hgot k)
  | start hl => exact absurd hl hb.started
  | loop hflow =>
    refine .inl ?_
    exact Nat.add_lt_add_right (loopFlow_left hflow hb.room hb.polled) _
  | @route drain m hl hroom =>
    refine .inl ?_
    have hw : cfg.worker m ∈ Finset.range cfg.num_dispatchers_ :=
      Finset.mem_range.mpr (Shutdown.worker_lt cfg m)
    have hsum := sum_exchange (c := 5) (d := 0) hw
      (f := fun i ↦ serveLeft s.running_ s.router_drained_ (s.worker_queues_ i).put.length
        (s.worker_queues_ i) (s.workers i))
      (g := fun i ↦ serveLeft s.running_ s.router_drained_
        (update s.worker_queues_ (cfg.worker m)
          ((s.worker_queues_ (cfg.worker m)).enqueue m) i).put.length
        (update s.worker_queues_ (cfg.worker m)
          ((s.worker_queues_ (cfg.worker m)).enqueue m) i) (s.workers i))
      (fun i _ hi ↦ by
        simp only [update_of_ne hi]
        exact Nat.le_refl _)
      (by
        simp only [update_self]
        exact serveLeft_enqueue _ m _)
    have hloop : loopLeft s.running_ s.loop = nextLeft drain + 7 := by rw [hl]; rfl
    have hloop' : loopLeft s.running_ (.wakeWorker drain : LoopPc μ) = nextLeft drain + 1 := rfl
    simp only [work, hloop, hloop']
    omega
  | @full drain m hl hfull =>
    refine .inr ⟨Nat.le_refl _, rfl, rfl, fun _ ↦ ⟨drain, m, hl, hfull⟩, fun i he ↦ (by cases he),
      fun _ ↦ Iff.rfl, fun _ ↦ rfl⟩
  | @worker i q pc events hi hflow =>
    have hput : ∀ j, (update s.worker_queues_ i q j).put.length =
        (s.worker_queues_ j).put.length := by
      intro j
      by_cases hj : j = i
      · rw [hj, update_self, workerFlow_put hflow]
      · rw [update_of_ne hj]
    have hi' : i ∈ Finset.range cfg.num_dispatchers_ := Finset.mem_range.mpr hi
    have hsum : ∀ {d : ℕ}, serveLeft s.running_ s.router_drained_
          (s.worker_queues_ i).put.length q pc + d ≤
        serveLeft s.running_ s.router_drained_ (s.worker_queues_ i).put.length
          (s.worker_queues_ i) (s.workers i) + 0 →
        ∑ j ∈ Finset.range cfg.num_dispatchers_, serveLeft s.running_ s.router_drained_
          (update s.worker_queues_ i q j).put.length (update s.worker_queues_ i q j)
          (update s.workers i pc j) + d ≤
        ∑ j ∈ Finset.range cfg.num_dispatchers_, serveLeft s.running_ s.router_drained_
          (s.worker_queues_ j).put.length (s.worker_queues_ j) (s.workers j) + 0 := by
      intro d hd
      refine sum_exchange hi' (fun j _ hj ↦ ?_) ?_
      · simp only [update_of_ne hj]
        exact Nat.le_refl _
      · rw [hput]
        simp only [update_self]
        exact hd
    rcases workerFlow_left hflow fun m hd ↦ (dequeue_counts hd).2.2 with
      hless | ⟨rfl, hitems, hdrained, heq, hpc, hpc'⟩
    · have hsum := hsum (d := 1) hless
      simp only [work]
      omega
    · have hsum := hsum (d := 0) (Nat.le_of_eq heq)
      refine .inr ⟨?_, rfl, ?_, fun he ↦ (by cases he), fun j hj ↦ ?_, fun j ↦ ?_, fun _ ↦ rfl⟩
      · simp only [work]
        omega
      · exact update_eq_self i s.worker_queues_
      · obtain rfl : i = j := by simpa using hj
        exact ⟨hitems, hdrained⟩
      · by_cases hj : j = i
        · rw [hj]
          simp only [update_self, hpc, hpc']
        · simp only [update_of_ne hj]
  | stop hflow =>
    refine .inr ⟨stopFlow_work hflow hb, rfl, rfl, fun he ↦ (by cases he), fun i he ↦ (by cases he),
      fun _ ↦ Iff.rfl, fun hne ↦ absurd rfl hne⟩

end Flows

end LivioArk.Msgbus.BusWork
