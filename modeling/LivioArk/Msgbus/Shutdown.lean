import LivioArk.Msgbus.Ordering

namespace LivioArk.Msgbus.Shutdown

open Function LivioArk.Library.Transition LivioArk.Library.QueueLog
open LivioArk.Library.SerialTrace
open LockFreeQueue MessageBus BusSteps AtomicBus WeakBus Acceptance Pipeline Lanes

variable {Pid μ : Type} {cfg : Config μ}

/-- The loop has seen that the bus does not run any more. -/
def draining : LoopPc μ → Bool
  | .poll drain | .notify drain _ | .begin drain _ | .dispatching drain _ | .route drain _
  | .wakeWorker drain => drain
  | .finished => true
  | .unstarted | .head => false

/-- The worker has seen that the router is done. -/
def final : WorkerPc μ → Bool
  | .poll phase | .begin phase _ | .dispatching phase _ | .head phase => phase = .final
  | .finished => true
  | .unstarted => false

def joined : StopPc → Bool
  | .idle | .notifyAll | .joinLoop => false
  | .setDrained | .joinWorker _ | .clear | .returned => true

def passed (i : ℕ) : StopPc → Prop
  | .joinWorker j => i < j
  | .clear | .returned => True
  | _ => False

structure Phases (cfg : Config μ) (running_ router_drained_ : Bool) (loop : LoopPc μ)
    (workers : ℕ → WorkerPc μ) (stopper : StopPc) : Prop where
  running : running_ = true ↔ loop ≠ .unstarted ∧ stopper = .idle
  idle : loop = .unstarted → stopper = .idle
  draining : draining loop = true → stopper ≠ .idle
  joined : joined stopper = true → loop = .finished
  drained : router_drained_ = true → loop = .finished
  final : ∀ i, final (workers i) = true → loop = .finished
  workers : cfg.num_dispatchers_ ≠ 1 → ∀ i < cfg.num_dispatchers_, passed i stopper →
    workers i = .finished

theorem draining_next (drain : Bool) : draining (.next drain : LoopPc μ) = drain := by
  cases drain <;> rfl

theorem draining_polled (drain : Bool) :
    draining (if drain then .finished else .head : LoopPc μ) = drain := by
  cases drain <;> rfl

theorem draining_notified (n : ℕ) (drain : Bool) (m : μ) :
    draining (if n = 1 then .begin drain m else .route drain m) = drain := by
  split <;> rfl

theorem final_next (phase : Phase) :
    final (.next phase : WorkerPc μ) = true → phase = .final := by
  cases phase <;> simp [final, WorkerPc.next]

namespace Phases

variable {running_ router_drained_ : Bool} {loop loop' : LoopPc μ} {workers : ℕ → WorkerPc μ}
variable {stopper : StopPc} {i : ℕ} {pc : WorkerPc μ}

theorem initial : Phases cfg false false .unstarted (fun _ ↦ .unstarted) .idle where
  running := by simp
  idle _ := rfl
  draining h := by cases h
  joined h := by cases h
  drained h := by cases h
  final _ h := by cases h
  workers _ _ _ h := h.elim

variable (h : Phases cfg running_ router_drained_ loop workers stopper)

include h

theorem start (hl : loop = .unstarted) (workers' : ℕ → WorkerPc μ)
    (hw : ∀ i, Shutdown.final (workers' i) = true → Shutdown.final (workers i) = true) :
    Phases cfg true router_drained_ .head workers' stopper := by
  have hidle := h.idle hl
  refine ⟨by simp [hidle], fun hu ↦ (by cases hu), fun hd ↦ (by cases hd), fun hj ↦ ?_,
    fun hd ↦ ?_, fun i hf ↦ ?_, fun _ _ _ hp ↦ ?_⟩
  · rw [hidle] at hj
    cases hj
  · have hf := h.drained hd
    rw [hl] at hf
    cases hf
  · have hf := h.final i (hw i hf)
    rw [hl] at hf
    cases hf
  · rw [hidle] at hp
    exact hp.elim

theorem moveLoop (hl : loop ≠ .unstarted) (hf : loop ≠ .finished) (hu : loop' ≠ .unstarted)
    (hd : Shutdown.draining loop' = true → stopper ≠ .idle) :
    Phases cfg running_ router_drained_ loop' workers stopper := by
  refine ⟨?_, fun hu' ↦ absurd hu' hu, hd, fun hj ↦ absurd (h.joined hj) hf,
    fun hr ↦ absurd (h.drained hr) hf, fun i hi ↦ absurd (h.final i hi) hf, h.workers⟩
  rw [h.running]
  simp [hl, hu]

theorem stepLoop (hl : loop ≠ .unstarted) (hf : loop ≠ .finished) (hu : loop' ≠ .unstarted)
    (hd : Shutdown.draining loop' = Shutdown.draining loop) :
    Phases cfg running_ router_drained_ loop' workers stopper :=
  h.moveLoop hl hf hu fun hd' ↦ h.draining (hd ▸ hd')

theorem moveWorker (hw : workers i ≠ .finished)
    (hf : Shutdown.final pc = true → loop = .finished) :
    Phases cfg running_ router_drained_ loop (update workers i pc) stopper := by
  refine { h with final := fun j hj ↦ ?_, workers := fun hN j hlt hp ↦ ?_ }
  · by_cases hji : j = i
    · subst hji
      rw [update_self] at hj
      exact hf hj
    · rw [update_of_ne hji] at hj
      exact h.final j hj
  · by_cases hji : j = i
    · subst hji
      exact absurd (h.workers hN j hlt hp) hw
    · rw [update_of_ne hji]
      exact h.workers hN j hlt hp

theorem stop (hr : running_ = true) :
    Phases cfg false router_drained_ loop workers .notifyAll := by
  obtain ⟨hl, -⟩ := h.running.mp hr
  refine { h with
    running := by simp, idle := fun hu ↦ absurd hu hl, draining := fun _ ↦ by simp,
    joined := fun hj ↦ ?_, workers := fun _ _ _ hp ↦ hp.elim }
  cases hj

theorem moveStop {stopper' : StopPc} (hs : stopper ≠ .idle) (hs' : stopper' ≠ .idle)
    (hj : Shutdown.joined stopper' = true → loop = .finished)
    (hw : cfg.num_dispatchers_ ≠ 1 → ∀ i < cfg.num_dispatchers_, passed i stopper' →
      workers i = .finished) :
    Phases cfg running_ router_drained_ loop workers stopper' := by
  refine { h with
    running := ?_, idle := fun hu ↦ absurd (h.idle hu) hs, draining := fun _ ↦ hs',
    joined := hj, workers := hw }
  rw [h.running]
  simp [hs, hs']

end Phases

/-- A worker that has finished, or is about to, has left nothing in its queue. -/
def Emptied (worker_queues_ : ℕ → View Pid μ) (workers : ℕ → WorkerPc μ) : Prop :=
  ∀ i, workers i = .finished ∨
      workers i = .poll .final ∧ (worker_queues_ i).resp (.worker i) = some (.dequeued none) →
    (worker_queues_ i).fifo.items = []

namespace Emptied

variable {worker_queues_ : ℕ → View Pid μ} {workers : ℕ → WorkerPc μ} {i : ℕ} {v : View Pid μ}
variable {pc : WorkerPc μ} (h : Emptied worker_queues_ workers)

include h

theorem update_lane
    (hi : pc = .finished ∨ pc = .poll .final ∧ v.resp (.worker i) = some (.dequeued none) →
      v.fifo.items = []) :
    Emptied (update worker_queues_ i v) (update workers i pc) := by
  intro j
  by_cases hj : j = i
  · subst hj
    rw [update_self, update_self]
    exact hi
  · rw [update_of_ne hj, update_of_ne hj]
    exact h j

theorem moveWorker
    (hi : pc = .finished ∨ pc = .poll .final ∧
      (worker_queues_ i).resp (.worker i) = some (.dequeued none) →
        (worker_queues_ i).fifo.items = []) :
    Emptied worker_queues_ (update workers i pc) := by
  have hm := h.update_lane hi
  rwa [update_eq_self] at hm

theorem setQueue
    (hi : workers i = .finished ∨
      workers i = .poll .final ∧ v.resp (.worker i) = some (.dequeued none) → v.fifo.items = []) :
    Emptied (update worker_queues_ i v) workers := by
  have hm : Emptied (update worker_queues_ i v) (update workers i (workers i)) :=
    h.update_lane hi
  rwa [update_eq_self] at hm

end Emptied

/-- The loop leaves its drain only when it has taken whatever was accepted. -/
structure Collected (cfg : Config μ) (queue_ : View Pid μ) (loop : LoopPc μ)
    (taken accepted : List μ) : Prop where
  put : accepted ⊆ queue_.fifo.put
  taken : cfg.policy_ ≠ .DropOldest →
    loop = .finished ∨ loop = .poll true ∧ queue_.resp .loop = some (.dequeued none) →
      accepted ⊆ taken

theorem Collected.touch {v w : View Pid μ} {loop : LoopPc μ} {taken accepted : List μ}
    (h : Collected cfg v loop taken accepted) (ht : Touch cfg v w) :
    Collected cfg w loop taken accepted := by
  cases ht with
  | same hf hr =>
    refine ⟨?_, ?_⟩
    · rw [hf]
      exact h.put
    · rw [hr]
      exact h.taken
  | put m hf hr =>
    refine ⟨?_, ?_⟩
    · rw [hf]
      exact List.Subset.trans h.put (List.subset_append_left _ _)
    · rw [hr]
      exact h.taken
  | take m hp hd hr =>
    obtain ⟨-, -, hput, -⟩ := Fifo.dequeue_head hd
    refine ⟨?_, ?_⟩
    · rw [hput]
      exact h.put
    · rw [hr]
      exact h.taken

theorem Collected.proceed {v w : View Pid μ} {loop loop' : LoopPc μ}
    {taken taken' accepted : List μ} (h : Collected cfg v loop taken accepted)
    (hput : w.fifo.put = v.fifo.put)
    (hl : loop' ≠ .finished) (hr : w.resp .loop ≠ some (.dequeued none)) :
    Collected cfg w loop' taken' accepted := by
  refine ⟨hput ▸ h.put, fun _ hend ↦ ?_⟩
  rcases hend with hend | ⟨-, hend⟩
  · exact absurd hend hl
  · exact absurd hend hr

structure Closing (cfg : Config μ) (s : Pipeline (View Pid μ) μ) : Prop where
  lanes : InLanes cfg s
  phases : Phases cfg s.running_ s.router_drained_ s.loop s.workers s.stopper
  emptied : Emptied s.worker_queues_ s.workers
  collected : Collected cfg s.queue_ s.loop s.taken s.accepted

theorem Closing.initial : Closing cfg (pipeline (.initial .empty : Bus (View Pid μ) Pid μ)) where
  lanes := .initial
  phases := .initial
  emptied _ hi := by
    rcases hi with hi | ⟨hi, -⟩ <;> cases hi
  collected := ⟨List.Subset.refl _, fun _ _ ↦ List.Subset.refl _⟩

theorem worker_lt (cfg : Config μ) (m : μ) : cfg.worker m < cfg.num_dispatchers_ :=
  Nat.mod_lt _ cfg.num_dispatchers_pos

theorem lane_nothing {w : ℕ} (hw : cfg.num_dispatchers_ ≤ w) (l : List μ) : lane cfg w l = [] := by
  refine List.filter_eq_nil_iff.mpr fun m _ ↦ ?_
  have hlt := worker_lt cfg m
  simp only [decide_eq_true_eq]
  omega

section Returned

variable {s : Pipeline (View Pid μ) μ} (h : Closing cfg s) (hstop : s.stopper = .returned)

include h hstop

theorem Closing.finished : s.loop = .finished := h.phases.joined (by rw [hstop]; rfl)

theorem Closing.lane_complete (hN : cfg.num_dispatchers_ ≠ 1) (w : ℕ) :
    (s.worker_queues_ w).fifo.items = [] ∧
      (s.worker_queues_ w).fifo.taken = lane cfg w s.taken := by
  have hcomplete := (h.lanes.routed hN).complete w
  rw [h.finished hstop] at hcomplete
  have hput : (s.worker_queues_ w).fifo.put = lane cfg w s.taken := by
    rw [← hcomplete]
    simp [carried, lane]
  by_cases hw : w < cfg.num_dispatchers_
  · have hitems := h.emptied w (.inl (h.phases.workers hN w hw (by rw [hstop]; trivial)))
    refine ⟨hitems, ?_⟩
    rw [← hput, ← (s.worker_queues_ w).fifo.taken_append_items, hitems, List.append_nil]
  · rw [lane_nothing (by omega)] at hput ⊢
    simp [Fifo.items, Fifo.taken, hput]

theorem Closing.traces (w : ℕ) : trace w s.events = spans (lane cfg w s.taken) := by
  by_cases hN : cfg.num_dispatchers_ = 1
  · obtain ⟨hserves, honly⟩ := h.lanes.alone hN
    by_cases hw : w = 0
    · subst hw
      rw [h.finished hstop] at hserves
      have hlane : lane cfg 0 s.taken = s.taken := by
        refine List.filter_eq_self.mpr fun m _ ↦ ?_
        rw [decide_eq_true_eq, Config.worker, hN, Nat.mod_one]
      rw [hlane]
      exact hserves.drained
    · rw [honly w hw, lane_nothing (by omega)]
      rfl
  · have hserves := h.lanes.served hN w
    rw [(h.lane_complete hstop hN w).2] at hserves
    by_cases hw : w < cfg.num_dispatchers_
    · rw [h.phases.workers hN w hw (by rw [hstop]; trivial)] at hserves
      exact hserves.drained
    · rw [lane_nothing (by omega)] at hserves ⊢
      exact hserves.nothing

/-- What was accepted has been handled. -/
theorem Closing.accepted_finished (hp : cfg.policy_ ≠ .DropOldest) {m : μ} (hm : m ∈ s.accepted) :
    .finish (cfg.worker m) m ∈ s.events := by
  have htaken := h.collected.taken hp (.inl (h.finished hstop)) hm
  apply mem_trace_finish.mp
  rw [h.traces hstop]
  exact mem_spans_finish.mpr (mem_lane.mpr ⟨htaken, rfl⟩)

end Returned

theorem count_lane [DecidableEq μ] {l : List μ} (hl : l.Nodup) {m : μ} (hm : m ∈ l) (w : ℕ) :
    (lane cfg w l).count m = if w = cfg.worker m then 1 else 0 := by
  split
  · rename_i hw
    apply List.count_eq_one_of_mem (hl.filter _)
    exact mem_lane.mpr ⟨hm, hw.symm⟩
  · rename_i hw
    refine List.count_eq_zero_of_not_mem fun hin ↦ ?_
    exact hw (mem_lane.mp hin).2.symm

variable [DecidableEq Pid] {s t : Pipeline (View Pid μ) μ}

theorem Phases.step (h : Phases cfg s.running_ s.router_drained_ s.loop s.workers s.stopper)
    (hs : PipeStep cfg s t) :
    Phases cfg t.running_ t.router_drained_ t.loop t.workers t.stopper := by
  cases hs with
  | start hl =>
    refine h.start hl _ fun i hf ↦ ?_
    split at hf
    · exact hf
    · cases hf
  | loopHead hl =>
    refine h.moveLoop (by simp [hl]) (by simp [hl]) (by simp) fun hd hidle ↦ ?_
    have hr := h.running.mpr ⟨by simp [hl], hidle⟩
    simp only [hr] at hd
    cases hd
  | notified hl =>
    exact h.stepLoop (by simp [hl]) (by simp [hl]) (by split <;> simp)
      (by rw [draining_notified, hl]; rfl)
  | begin hl | loopGot hl | routed hl =>
    exact h.stepLoop (by simp [hl]) (by simp [hl]) (by simp) (by rw [hl]; rfl)
  | finish hl | wokeWorker hl =>
    exact h.stepLoop (by simp [hl]) (by simp [hl]) (next_ne_unstarted _)
      (by rw [draining_next, hl]; rfl)
  | loopNone hl =>
    exact h.stepLoop (by simp [hl]) (by simp [hl]) (by split <;> simp)
      (by rw [draining_polled, hl]; rfl)
  | workerHead _ hw =>
    refine h.moveWorker (by simp [hw]) fun hf ↦ ?_
    split at hf <;> cases hf
  | workerAwait _ hw =>
    refine h.moveWorker (by simp [hw]) fun hf ↦ ?_
    split at hf
    · rename_i hd
      exact h.drained hd
    · cases hf
  | @workerBegin i _ _ _ hw =>
    exact h.moveWorker (by simp [hw]) fun hf ↦ h.final i (by rw [hw]; exact hf)
  | @workerFinish i phase _ _ hw =>
    refine h.moveWorker (by simp [hw]) fun hf ↦ h.final i ?_
    rw [hw, final_next phase hf]
    rfl
  | @workerGot i _ _ _ hw =>
    exact h.moveWorker (by simp [hw]) fun hf ↦ h.final i (by rw [hw]; exact hf)
  | @workerNone i phase _ hw =>
    refine h.moveWorker (by simp [hw]) fun hf ↦ h.final i ?_
    rw [hw]
    split at hf
    · rename_i hp
      rw [hp]
      rfl
    · exact hf
  | stop _ hr => exact h.stop hr
  | notifyAll hst =>
    exact h.moveStop (by simp [hst]) (by simp) (fun hj ↦ by cases hj) fun _ _ _ hp ↦ hp.elim
  | joinLoop hst hl =>
    refine h.moveStop (by simp [hst]) (by split <;> simp) (fun _ ↦ hl) fun hN _ _ hp ↦ ?_
    rw [if_neg hN] at hp
    exact hp.elim
  | setDrained hst =>
    have hl := h.joined (by rw [hst]; rfl)
    have hm : Phases cfg s.running_ s.router_drained_ s.loop s.workers (.joinWorker 0) :=
      h.moveStop (by simp [hst]) (by simp) (fun _ ↦ hl)
        fun _ i _ hp ↦ absurd hp (Nat.not_lt_zero i)
    exact { hm with drained := fun _ ↦ hl }
  | @joinWorker j hst hj hw =>
    have hl := h.joined (by rw [hst]; rfl)
    refine h.moveStop (by simp [hst]) (by simp) (fun _ ↦ hl) fun hN i hi hp ↦ ?_
    rcases Nat.lt_succ_iff_lt_or_eq.mp hp with hlt | rfl
    · exact h.workers hN i hi (by rw [hst]; exact hlt)
    · exact hw
  | @joined j hst hj =>
    have hl := h.joined (by rw [hst]; rfl)
    refine h.moveStop (by simp [hst]) (by simp) (fun _ ↦ hl) fun hN i hi _ ↦ ?_
    exact h.workers hN i hi (by rw [hst]; exact Nat.lt_of_lt_of_le hi hj)
  | clear hst =>
    have hl := h.joined (by rw [hst]; rfl)
    have hm : Phases cfg s.running_ s.router_drained_ s.loop s.workers .returned :=
      h.moveStop (by simp [hst]) (by simp) (fun _ ↦ hl)
        fun hN i hi _ ↦ h.workers hN i hi (by rw [hst]; trivial)
    exact { hm with drained := fun hd ↦ by cases hd }
  | _ => exact h

theorem Emptied.step (hw : Wired cfg s.queue_ s.worker_queues_ s.loop s.workers)
    (hp : Phases cfg s.running_ s.router_drained_ s.loop s.workers s.stopper)
    (h : Emptied s.worker_queues_ s.workers) (hs : PipeStep cfg s t) :
    Emptied t.worker_queues_ t.workers := by
  -- While the router still routes, no worker is in its last loop.
  have early : ∀ {drain m}, s.loop = .route drain m → ∀ i (r : Option (Resp μ)),
      ¬ (s.workers i = .finished ∨ s.workers i = .poll .final ∧ r = some (.dequeued none)) := by
    intro drain m hl i r hc
    have hf : s.loop = .finished := by
      apply hp.final i
      rcases hc with hc | ⟨hc, -⟩ <;> rw [hc] <;> rfl
    rw [hl] at hf
    cases hf
  cases hs with
  | start hl =>
    intro i hi
    split at hi
    · exact h i hi
    · simp at hi
  | routePut hl | routeFail hl | routed hl | routeAgain hl =>
    exact h.setQueue fun hc ↦ absurd hc (early hl _ _)
  | @workerHead i _ hwk | @workerAwait i _ hwk =>
    have hnone := hw.no_worker (i := i) (by simp [hwk])
    refine h.moveWorker fun hc ↦ ?_
    rw [hnone] at hc
    split at hc <;> simp at hc
  | workerBegin => exact h.moveWorker fun hc ↦ by simp at hc
  | @workerFinish i phase _ _ hwk =>
    have hnone := hw.no_worker (i := i) (by simp [hwk])
    refine h.moveWorker fun hc ↦ ?_
    rw [hnone] at hc
    cases phase <;> simp [WorkerPc.next] at hc
  | workerTake _ hwk =>
    refine h.setQueue fun hc ↦ ?_
    rw [hwk, answer_resp_self] at hc
    simp at hc
  | workerFail _ hwk _ hexact =>
    refine h.setQueue fun hc ↦ ?_
    rw [hwk] at hc
    rcases hc with hc | ⟨hc, -⟩
    · cases hc
    · cases hc
      exact hexact rfl
  | workerGot => exact h.update_lane fun hc ↦ by simp at hc
  | @workerNone i phase _ hwk hresp =>
    refine h.update_lane fun hc ↦ ?_
    rw [clear_resp_self] at hc
    split at hc
    · rename_i hphase
      exact h i (.inr ⟨hphase ▸ hwk, hresp⟩)
    · simp at hc
  | _ => exact h

theorem Collected.step (hw : Wired cfg s.queue_ s.worker_queues_ s.loop s.workers)
    (hf : Fetched cfg s.queue_ s.taken)
    (hp : Phases cfg s.running_ s.router_drained_ s.loop s.workers s.stopper)
    (h : Collected cfg s.queue_ s.loop s.taken s.accepted) (hs : PipeStep cfg s t) :
    Collected cfg t.queue_ t.loop t.taken t.accepted := by
  have quiet : (∀ drain, s.loop ≠ .poll drain) → s.queue_.resp .loop ≠ some (.dequeued none) := by
    intro hl
    rw [hw.no_main hl]
    simp
  cases hs with
  | publisher htouch => exact h.touch htouch
  | start hl | loopHead hl | begin hl | routed hl =>
    exact h.proceed rfl (by simp) (quiet (by simp [hl]))
  | notified hl => exact h.proceed rfl (by split <;> simp) (quiet (by simp [hl]))
  | finish hl | wokeWorker hl =>
    refine h.proceed rfl ?_ (quiet (by simp [hl]))
    simp only [LoopPc.next]
    split <;> simp
  | loopTake hl hr hd =>
    obtain ⟨-, -, hput, -⟩ := Fifo.dequeue_head hd
    exact h.proceed hput (by simp [hl]) (by rw [answer_resp_self]; simp)
  | @loopFail drain hl hr hexact =>
    refine ⟨h.put, fun hpol hend ↦ ?_⟩
    have hdrain : drain = true := by
      rcases hend with hend | ⟨hend, -⟩
      · exact absurd (hl.symm.trans hend) (by simp)
      · exact (LoopPc.poll.inj (hl.symm.trans hend))
    -- The queue is empty, so everything ever put has been taken by the loop.
    have htaken : s.taken = s.queue_.fifo.put := by
      have hc := hf.complete hpol
      rw [hr, returned_none, List.append_nil] at hc
      rw [hc, ← s.queue_.fifo.taken_append_items, hexact hdrain, List.append_nil]
    exact htaken ▸ h.put
  | loopGot hl hr => exact h.proceed rfl (by simp) (by rw [clear_resp_self]; simp)
  | @loopNone drain hl hr =>
    refine ⟨h.put, fun hpol hend ↦ h.taken hpol (.inr ?_)⟩
    cases drain with
    | true => exact ⟨hl, hr⟩
    | false => simp at hend
  | stop hst hr hsub =>
    refine ⟨hsub, fun _ hend ↦ absurd hst (hp.draining ?_)⟩
    rcases hend with hend | ⟨hend, -⟩
    · exact congrArg Shutdown.draining hend
    · exact congrArg Shutdown.draining hend
  | _ => exact h

theorem Closing.step (h : Closing cfg s) (hs : PipeStep cfg s t) : Closing cfg t where
  lanes := h.lanes.step hs
  phases := h.phases.step hs
  emptied := h.emptied.step h.lanes.wired h.phases hs
  collected := h.collected.step h.lanes.wired h.lanes.fetched h.phases hs

/-- After `stop` has returned nothing is handled any more. -/
theorem Closing.quiet (h : Closing cfg s) (hstop : s.stopper = .returned) (hs : PipeStep cfg s t) :
    t.events = s.events ∧ t.stopper = .returned := by
  have hl := h.finished hstop
  have hworker : ∀ i < cfg.num_dispatchers_,
      s.workers i = .unstarted ∨ s.workers i = .finished := by
    intro i hi
    by_cases hN : cfg.num_dispatchers_ = 1
    · exact .inl (h.lanes.wired.single hN i)
    · exact .inr (h.phases.workers hN i hi (by rw [hstop]; trivial))
  cases hs with
  | begin hl' | finish hl' =>
    rw [hl] at hl'
    cases hl'
  | workerBegin hi hw | workerFinish hi hw =>
    rcases hworker _ hi with hw' | hw' <;> rw [hw'] at hw <;> cases hw
  | stop hst | notifyAll hst | joinLoop hst | setDrained hst | joinWorker hst | joined hst
  | clear hst =>
    rw [hstop] at hst
    cases hst
  | _ => exact ⟨rfl, hstop⟩

variable [DecidableEq μ]

theorem closing_reachable {s : Bus (View Pid μ) Pid μ}
    (h : (WeakBus.machine Pid cfg).Reaches Exact s) : Closing cfg (pipeline s) :=
  pipeline_invariant .initial (fun _ _ hp hs ↦ hp.step hs) h

theorem quiet_steps {s t : Bus (View Pid μ) Pid μ}
    (h : (WeakBus.machine Pid cfg).Reaches Exact s) (hstop : s.stopper = .returned)
    (hs : Machine.Steps (WeakBus.machine Pid cfg) Exact s t) :
    t.events = s.events ∧ t.stopper = .returned := by
  refine Machine.Steps.invariant (P := fun t ↦ t.events = s.events ∧ t.stopper = .returned) ?_ hs h
    ⟨rfl, hstop⟩
  intro x a y hx hP ha hy
  have hq := (closing_reachable hx).quiet hP.2 (pipeStep_of_step (sent_reachable hx) ha hy)
  exact ⟨hq.1.trans hP.1, hq.2⟩

section Atomic

variable {capacity : ℕ} {s : Bus (Fifo μ) Pid μ}

theorem quiet_run (h : (AtomicBus.machine Pid cfg capacity).Reachable s)
    (hstop : s.stopper = .returned) {as : List (BusAction Pid μ)} {t : Bus (Fifo μ) Pid μ}
    (hrun : (AtomicBus.machine Pid cfg capacity).run s as = some t) : t.events = s.events := by
  induction as generalizing s with
  | nil =>
    simp only [Machine.run, Option.some.injEq] at hrun
    rw [hrun]
  | cons a as ih =>
    simp only [Machine.run, Option.bind_eq_some_iff] at hrun
    obtain ⟨u, hu, hrun⟩ := hrun
    have hq := quiet_steps (weaken_reachable h) hstop (weaken_step hu)
    exact (ih (h.next trivial hu) hq.2 hrun).trans hq.1

/-- When `stop` has returned, each message that the router ever took has been
handled exactly once, by the worker of its topic; nothing is left behind and
nothing is handled afterwards. -/
theorem handoff_complete (h : (AtomicBus.machine Pid cfg capacity).Reachable s)
    (hN : 2 ≤ cfg.num_dispatchers_) (hstop : s.stopper = .returned) :
    (∀ m ∈ s.taken, ∀ w,
      s.events.count (.begin w m) = (if w = cfg.worker m then 1 else 0) ∧
        s.events.count (.finish w m) = if w = cfg.worker m then 1 else 0) ∧
      (∀ i, (s.worker_queues_ i).items = []) ∧
      ∀ as t, (AtomicBus.machine Pid cfg capacity).run s as = some t → t.events = s.events := by
  have hc : Closing cfg (pipeline (weaken s)) := closing_reachable (weaken_reachable h)
  have hnodup : s.taken.Nodup := by
    refine (Ordering.put_nodup h).sublist ?_
    exact ((List.sublist_append_left _ _).trans hc.lanes.fetched.ordered).trans
      (List.take_sublist _ _)
  have htraces : ∀ w, trace w s.events = spans (lane cfg w s.taken) := hc.traces hstop
  refine ⟨fun m hm w ↦ ⟨?_, ?_⟩, fun i ↦ (hc.lane_complete hstop (by omega) i).1,
    fun as t hrun ↦ quiet_run h hstop hrun⟩
  · rw [← count_trace fun _ ↦ mark_begin_iff, htraces w, count_spans_begin]
    exact count_lane hnodup hm w
  · rw [← count_trace fun _ ↦ mark_finish_iff, htraces w, count_spans_finish]
    exact count_lane hnodup hm w

end Atomic

def stopped : List (BusAction Bool ℕ) :=
  let stop : BusAction Bool ℕ := .thread .stop
  let leave (i : ℕ) : List (BusAction Bool ℕ) :=
    [.thread (.worker i), .thread (.worker i), .queue (.worker i)]
  Ordering.sameTopic ++ [stop, stop, .thread (.loop none), .queue .loop, stop, stop] ++
    leave 0 ++ leave 1 ++ [stop, stop, stop, stop]

theorem handoff_complete_stopped : ∃ s,
    (AtomicBus.machine Bool Ordering.twoWorkersConfig 2).run (.initial .empty) stopped = some s ∧
      s.taken = [0, 1] ∧ s.events.count (.finish 1 0) = 1 ∧ s.events.count (.finish 0 0) = 0 := by
  have h := handoff_complete
    (Machine.Reaches.of_run (M := AtomicBus.machine Bool Ordering.twoWorkersConfig 2) rfl stopped
      rfl) (by decide) rfl
  exact ⟨_, rfl, rfl, (h.1 0 (by decide) 1).2, (h.1 0 (by decide) 0).2⟩

end LivioArk.Msgbus.Shutdown
