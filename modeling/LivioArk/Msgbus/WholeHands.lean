import LivioArk.Msgbus.Requests
import LivioArk.Msgbus.WholeBus

namespace LivioArk.Msgbus.WholeBus

open Function LivioArk.Library.Transition LivioArk.Library.QueueLog LivioArk.Library.SerialTrace
open LockFreeQueue MessageBus BusSteps AtomicBus WeakBus Lanes Shutdown

variable {Pid μ : Type} {cfg : Config μ} {s t : Bus (Fifo μ) Pid μ} {ag : Agent Pid} {m : μ}

def finished (events : List (Dispatch μ)) : List μ :=
  events.filterMap fun
    | .finish _ m => some m
    | .begin _ _ => none

section Steps

theorem loopInside_next (drain : Bool) : loopInside (.next drain : LoopPc μ) = none := by
  cases drain <;> rfl

theorem workerInside_next (phase : Phase) : workerInside (.next phase : WorkerPc μ) = none := by
  cases phase <;> rfl

theorem inside_of_pc (hl : loopInside t.loop = loopInside s.loop)
    (hw : ∀ i, workerInside (t.workers i) = workerInside (s.workers i)) (ag : Agent Pid) :
    inside t ag = inside s ag := by
  cases ag with
  | publisher p => rfl
  | loop => exact hl
  | worker i => exact hw i

theorem inside_worker {i : ℕ} {pc : WorkerPc μ} (hl : t.loop = s.loop)
    (hw : t.workers = update s.workers i pc) (hi : workerInside pc = workerInside (s.workers i))
    (ag : Agent Pid) : inside t ag = inside s ag := by
  refine inside_of_pc (by rw [hl]) (fun j ↦ ?_) ag
  rw [hw]
  by_cases hj : j = i
  · rw [hj, update_self, hi]
  · rw [update_of_ne hj]

structure Quiet (s t : Bus (Fifo μ) Pid μ) : Prop where
  events : t.events = s.events
  offered : t.offered = s.offered
  inside : ∀ ag, inside t ag = inside s ag

theorem Quiet.of_pipeline (hoff : t.offered = s.offered) (hp : pipeline t = pipeline s) :
    Quiet s t := by
  refine ⟨congrArg Pipeline.events hp, hoff, inside_of_pc ?_ fun i ↦ ?_⟩
  · rw [show t.loop = s.loop from congrArg Pipeline.loop hp]
  · rw [show t.workers = s.workers from congrArg Pipeline.workers hp]

theorem finished_append (events events' : List (Dispatch μ)) :
    finished (events ++ events') = finished events ++ finished events' :=
  List.filterMap_append

structure Turns (s t : Bus (Fifo μ) Pid μ) (ag : Agent Pid) : Prop where
  offered : t.offered = s.offered
  others : ∀ u, u ≠ ag → inside t u = inside s u

theorem turns_loop (hoff : t.offered = s.offered) (hw : t.workers = s.workers) :
    Turns s t .loop := by
  refine ⟨hoff, fun u hu ↦ ?_⟩
  cases u with
  | publisher p => rfl
  | loop => exact absurd rfl hu
  | worker i => rw [inside, inside, hw]

theorem turns_worker {i : ℕ} {pc : WorkerPc μ} (hoff : t.offered = s.offered)
    (hl : t.loop = s.loop) (hw : t.workers = update s.workers i pc) : Turns s t (.worker i) := by
  refine ⟨hoff, fun u hu ↦ ?_⟩
  cases u with
  | publisher p => rfl
  | loop => rw [inside, inside, hl]
  | worker j =>
    have hj : j ≠ i := fun he ↦ hu (he ▸ rfl)
    rw [inside, inside, hw, update_of_ne hj]

theorem worker_quiet {i : ℕ} (hahead : ahead s (.worker i) = none)
    (hinside : inside s (.worker i) = none) (h : s.workerStep cfg i = some t) : Quiet s t := by
  have hoff : t.offered = s.offered := congrArg Ledger.offered (workerStep_woken h).ledger
  rw [Bus.workerStep] at h
  split at h
  · cases hw : s.workers i with
    | begin phase m =>
      rw [ahead, hw] at hahead
      cases hahead
    | dispatching phase m =>
      rw [inside, hw] at hinside
      cases hinside
    | head phase =>
      rw [hw] at h
      cases phase with
      | running | awaiting =>
        obtain rfl := Option.some.inj h
        refine ⟨rfl, hoff, inside_worker rfl rfl ?_⟩
        rw [hw]
        split <;> rfl
      | final => cases h
    | unstarted | poll | finished =>
      rw [hw] at h
      cases h
  · cases h

theorem start_quiet [DecidableEq Pid] [DecidableEq μ] (hu : Requests.Unstarted s)
    (h : s.start cfg = some t) : Quiet s t := by
  have hoff : t.offered = s.offered := congrArg Ledger.offered (start_woken h).ledger
  rw [Bus.start] at h
  split at h
  · rename_i hl
    obtain rfl := Option.some.inj h
    refine ⟨rfl, hoff, inside_of_pc (by rw [hl]; rfl) fun i ↦ ?_⟩
    rw [hu hl i]
    split <;> simp only [hu hl i, workerInside]
  · cases h

variable [DecidableEq Pid]

theorem queue_quiet {cap : ℕ} (h : queueStep cfg cap s ag = some t) : Quiet s t := by
  cases ag with
  | publisher p =>
    obtain ⟨pc, -, hl, hp, -⟩ := queueStep_publisher h
    refine ⟨congrArg Pipeline.events hp, congrArg Ledger.offered hl, inside_of_pc ?_ fun i ↦ ?_⟩
    · rw [show t.loop = s.loop from congrArg Pipeline.loop hp]
    · rw [show t.workers = s.workers from congrArg Pipeline.workers hp]
  | loop =>
    obtain ⟨hwoken, hcases⟩ := queueStep_loop h
    have hoff : t.offered = s.offered := congrArg Ledger.offered hwoken.ledger
    rcases hcases with ⟨drain, q, m, hl, -, rfl⟩ | ⟨drain, hl, -, rfl⟩ | ⟨drain, m, hl, -, rfl⟩ |
      ⟨drain, m, -, rfl⟩
    · exact ⟨rfl, hoff, inside_of_pc (by rw [hl]; rfl) fun _ ↦ rfl⟩
    · refine ⟨rfl, hoff, inside_of_pc ?_ fun _ ↦ rfl⟩
      rw [hl]
      cases drain <;> rfl
    · exact ⟨rfl, hoff, inside_of_pc (by rw [hl]; rfl) fun _ ↦ rfl⟩
    · exact ⟨rfl, rfl, fun _ ↦ rfl⟩
  | worker i =>
    obtain ⟨hwoken, -, phase, hw, hcases⟩ := queueStep_worker h
    have hoff : t.offered = s.offered := congrArg Ledger.offered hwoken.ledger
    rcases hcases with ⟨q, m, -, rfl⟩ | ⟨-, rfl⟩
    · exact ⟨rfl, hoff, inside_worker rfl rfl (by rw [hw]; rfl)⟩
    · refine ⟨rfl, hoff, inside_worker rfl rfl ?_⟩
      rw [hw]
      cases phase <;> rfl

theorem loop_quiet {waiter : Option Pid} (hahead : ahead s .loop = none)
    (hinside : inside s .loop = none) (h : s.loopStep cfg waiter = some t) : Quiet s t := by
  have hoff : t.offered = s.offered := congrArg Ledger.offered (loopStep_woken h).ledger
  rw [Bus.loopStep] at h
  cases hl : s.loop with
  | begin drain m =>
    rw [ahead, hl] at hahead
    cases hahead
  | dispatching drain m =>
    rw [inside, hl] at hinside
    cases hinside
  | notify drain m =>
    rw [hl] at h
    obtain ⟨u, hu, rfl⟩ := Option.map_eq_some_iff.mp h
    have hp := (notifyNotFull_frame hu).2
    refine ⟨congrArg Pipeline.events hp, hoff, inside_of_pc ?_ fun i ↦ ?_⟩
    · rw [hl]
      simp only
      split <;> rfl
    · rw [show u.workers = s.workers from congrArg Pipeline.workers hp]
  | head =>
    rw [hl] at h
    obtain rfl := Option.some.inj h
    exact ⟨rfl, hoff, inside_of_pc (by rw [hl]; rfl) fun _ ↦ rfl⟩
  | wakeWorker drain =>
    rw [hl] at h
    obtain rfl := Option.some.inj h
    exact ⟨rfl, hoff, inside_of_pc (by rw [hl]; exact loopInside_next drain) fun _ ↦ rfl⟩
  | unstarted | poll | route | finished =>
    rw [hl] at h
    cases h

variable [DecidableEq μ]

theorem stop_quiet (h : s.stopStep cfg = some t) : Quiet s t := by
  have hoff : t.offered = s.offered := congrArg Ledger.offered (stopStep_woken h).ledger
  obtain ⟨hl, hw⟩ := Requests.stopStep_threads h
  refine ⟨?_, hoff, inside_of_pc (by rw [hl]) fun i ↦ by rw [hw]⟩
  unfold Bus.stopStep at h
  split at h
  · split at h <;> cases h <;> rfl
  · cases h; rfl
  · split at h <;> cases h; rfl
  · cases h; rfl
  · split at h
    · split at h <;> cases h; rfl
    · cases h; rfl
  · cases h; rfl
  · cases h

theorem apart_quiet {cap : ℕ} {a : BusAction Pid μ} (hu : Requests.Unstarted s)
    (ha : apart s a = true) (h : AtomicBus.step cfg cap s a = some t) : Quiet s t := by
  cases a with
  | queue ag => exact queue_quiet h
  | thread a =>
    cases a with
    | publish p m => cases ha
    | publisher p =>
      obtain ⟨pc, -, hp, hturn⟩ := publisherStep_turn h
      refine .of_pipeline ?_ hp
      have hledger : (ledger t).offered = (ledger s).offered := by
        generalize ledger t = l at hturn
        cases hturn with
        | silent | reject | result => rfl
        | drop => exact offered_drop _
      exact hledger
    | timeout p =>
      obtain ⟨hwoken, hp⟩ := timeout_frame h
      exact .of_pipeline (congrArg Ledger.offered hwoken.ledger) hp
    | spurious p =>
      obtain ⟨hwoken, hp⟩ := spurious_frame h
      exact .of_pipeline (congrArg Ledger.offered hwoken.ledger) hp
    | start => exact start_quiet hu h
    | loop waiter =>
      simp only [apart, Bool.and_eq_true, Option.isNone_iff_eq_none] at ha
      exact loop_quiet ha.1 ha.2 h
    | worker i =>
      simp only [apart, Bool.and_eq_true, Option.isNone_iff_eq_none] at ha
      exact worker_quiet ha.1 ha.2 h
    | stop => exact stop_quiet h

theorem begin_turns {cap : ℕ} (ha : ahead s ag = some m)
    (h : AtomicBus.step cfg cap s (.thread (own ag)) = some t) :
    Turns s t ag ∧ inside t ag = some m ∧ finished t.events = finished s.events := by
  cases ag with
  | publisher p => cases ha
  | loop =>
    have hoff : t.offered = s.offered := congrArg Ledger.offered (loopStep_woken h).ledger
    have h : s.loopStep cfg none = some t := h
    rw [Bus.loopStep] at h
    cases hl : s.loop with
    | begin drain m' =>
      rw [hl] at h
      rw [ahead, hl] at ha
      obtain rfl : m' = m := Option.some.inj ha
      obtain rfl := Option.some.inj h
      refine ⟨turns_loop hoff rfl, rfl, ?_⟩
      rw [finished_append]
      exact List.append_nil _
    | _ =>
      rw [ahead, hl] at ha
      cases ha
  | worker i =>
    have hoff : t.offered = s.offered := congrArg Ledger.offered (workerStep_woken h).ledger
    have h : s.workerStep cfg i = some t := h
    rw [Bus.workerStep] at h
    split at h
    · cases hw : s.workers i with
      | begin phase m' =>
        rw [hw] at h
        rw [ahead, hw] at ha
        obtain rfl : m' = m := Option.some.inj ha
        obtain rfl := Option.some.inj h
        refine ⟨turns_worker hoff rfl rfl, ?_, ?_⟩
        · simp only [inside, update_self, workerInside]
        · rw [finished_append]
          exact List.append_nil _
      | _ =>
        rw [ahead, hw] at ha
        cases ha
    · cases h

theorem finish_turns {cap : ℕ} (ha : inside s ag = some m)
    (h : AtomicBus.step cfg cap s (.thread (own ag)) = some t) :
    Turns s t ag ∧ inside t ag = none ∧ finished t.events = finished s.events ++ [m] := by
  cases ag with
  | publisher p => cases ha
  | loop =>
    have hoff : t.offered = s.offered := congrArg Ledger.offered (loopStep_woken h).ledger
    have h : s.loopStep cfg none = some t := h
    rw [Bus.loopStep] at h
    cases hl : s.loop with
    | dispatching drain m' =>
      rw [hl] at h
      rw [inside, hl] at ha
      obtain rfl : m' = m := Option.some.inj ha
      obtain rfl := Option.some.inj h
      exact ⟨turns_loop hoff rfl, loopInside_next drain, finished_append _ _⟩
    | _ =>
      rw [inside, hl] at ha
      cases ha
  | worker i =>
    have hoff : t.offered = s.offered := congrArg Ledger.offered (workerStep_woken h).ledger
    have h : s.workerStep cfg i = some t := h
    rw [Bus.workerStep] at h
    split at h
    · cases hw : s.workers i with
      | dispatching phase m' =>
        rw [hw] at h
        rw [inside, hw] at ha
        obtain rfl : m' = m := Option.some.inj ha
        obtain rfl := Option.some.inj h
        refine ⟨turns_worker hoff rfl rfl, ?_, finished_append _ _⟩
        simp only [inside, update_self]
        exact workerInside_next phase
      | _ =>
        rw [inside, hw] at ha
        cases ha
    · cases h

end Steps

section Bus

variable {Pid μ : Type} [DecidableEq Pid] [DecidableEq μ] {cfg : Config μ} {capacity : ℕ}
  {s : Bus (Fifo μ) Pid μ} {ag : Agent Pid} {m : μ}

theorem inLanes (h : (AtomicBus.machine Pid cfg capacity).Reachable s) :
    InLanes cfg (pipeline (weaken s)) :=
  (closing_reachable (weaken_reachable h)).lanes

theorem unstarted (h : (AtomicBus.machine Pid cfg capacity).Reachable s) :
    Requests.Unstarted s :=
  (inLanes h).wired.unstarted

theorem put_offered (h : (AtomicBus.machine Pid cfg capacity).Reachable s) :
    s.queue_.put ⊆ s.offered := by
  intro m hm
  obtain ⟨a, ha, hR⟩ := Backpressure.refines h
  have hinv := Accounts.inv_reachable ha
  rw [← hR.fifo] at hm
  rw [← hR.offered, ← hinv.places_pos_iff]
  have hput := Accounts.count_put a.fifo m
  have hleft := hinv.left m
  have hpos := List.count_pos_iff.mpr hm
  simp only [Accounts.Book.places, Accounts.Book.queued] at *
  omega

theorem taken_put (h : (AtomicBus.machine Pid cfg capacity).Reachable s) :
    s.taken ⊆ s.queue_.put := by
  have hfetched := (inLanes h).fetched
  exact (((List.sublist_append_left _ _).trans hfetched.ordered).trans
    (List.take_sublist _ _)).subset

theorem hand_taken (h : (AtomicBus.machine Pid cfg capacity).Reachable s)
    (hm : ahead s ag = some m ∨ inside s ag = some m) : m ∈ s.taken := by
  have hlanes := inLanes h
  cases ag with
  | publisher p => rcases hm with hm | hm <;> cases hm
  | loop =>
    have hsuits := hlanes.wired.suits
    have hjobs : (loopHand s.loop).jobs = [m] ∧ cfg.num_dispatchers_ = 1 := by
      have hsuits : Lanes.suits cfg.num_dispatchers_ s.loop := hsuits
      cases hl : s.loop with
      | begin | dispatching =>
        rw [hl] at hsuits
        simp only [ahead, inside, hl, loopAhead, loopInside, Option.some.injEq, reduceCtorEq,
          or_false, false_or] at hm
        rw [← hm]
        exact ⟨rfl, hsuits⟩
      | _ => simp only [ahead, inside, hl, loopAhead, loopInside, reduceCtorEq, or_self] at hm
    obtain ⟨done, hdone, -⟩ := (hlanes.alone hjobs.2).serves
    have hdone : s.taken = done ++ (loopHand s.loop).jobs := hdone
    rw [hdone, hjobs.1]
    exact List.mem_append_right _ List.mem_cons_self
  | worker i =>
    have hjobs : (workerHand none (s.workers i)).jobs = [m] ∧ s.workers i ≠ .unstarted := by
      cases hw : s.workers i with
      | begin | dispatching =>
        simp only [ahead, inside, hw, workerAhead, workerInside, Option.some.injEq, reduceCtorEq,
          or_false, false_or] at hm
        rw [← hm]
        exact ⟨rfl, fun he ↦ by cases he⟩
      | _ => simp only [ahead, inside, hw, workerAhead, workerInside, reduceCtorEq, or_self] at hm
    have hN : cfg.num_dispatchers_ ≠ 1 := fun hone ↦ hjobs.2 (hlanes.wired.single hone i)
    obtain ⟨done, hdone, -⟩ := hlanes.served hN i
    have hdone : (s.worker_queues_ i).taken = done ++ (workerHand none (s.workers i)).jobs := hdone
    have hin : m ∈ (s.worker_queues_ i).taken := by
      rw [hdone, hjobs.1]
      exact List.mem_append_right _ List.mem_cons_self
    have hcomplete := (hlanes.routed hN).complete i
    have hlane : m ∈ lane cfg i s.taken := by
      have hput : m ∈ (s.worker_queues_ i).put := (List.take_sublist _ _).subset hin
      have hcomplete : (s.worker_queues_ i).put ++ _ = lane cfg i s.taken := hcomplete
      rw [← hcomplete]
      exact List.mem_append_left _ hput
    exact (mem_lane.mp hlane).1

end Bus

section Lanes

variable {Pid μ : Type} {cfg : Config μ} {capacity : ℕ} {s : Bus (Fifo μ) Pid μ}

def doneBy (w : ℕ) (events : List (Dispatch μ)) : List μ :=
  (trace w events).filterMap fun
    | .finish m => some m
    | .begin _ => none

theorem done_spans (l : List μ) (hand : Hand μ) :
    (spans l ++ hand.opened).filterMap (fun
      | .finish m => some m
      | .begin _ => none) = l := by
  induction l with
  | nil => cases hand <;> rfl
  | cons m l ih => exact congrArg (m :: ·) ih

/-- The messages of a topic are all with one worker. -/
theorem finished_topic {events : List (Dispatch μ)}
    (hown : ∀ w m, .finish w m ∈ events → w = cfg.worker m) (tid : ℕ) :
    (finished events).filter (fun m ↦ cfg.topic_id m = tid) =
      (doneBy (cfg.hash tid % cfg.num_dispatchers_) events).filter
        fun m ↦ cfg.topic_id m = tid := by
  induction events with
  | nil => rfl
  | cons e events ih =>
    have hrest := ih fun w m hm ↦ hown w m (List.mem_cons_of_mem e hm)
    cases e with
    | begin w m =>
      rw [show finished (.begin w m :: events) = finished events from rfl, hrest]
      simp only [doneBy, trace, List.filterMap_cons, mark]
      by_cases hw : w = cfg.hash tid % cfg.num_dispatchers_ <;> simp [hw]
    | finish w m =>
      have hworker := hown w m List.mem_cons_self
      rw [show finished (.finish w m :: events) = m :: finished events from rfl]
      simp only [doneBy, trace, List.filterMap_cons, mark] at hrest ⊢
      by_cases hm : cfg.topic_id m = tid
      · have hw : w = cfg.hash tid % cfg.num_dispatchers_ := by
          rw [hworker, Config.worker, hm]
        simp [hw, hm, hrest]
      · by_cases hw : w = cfg.hash tid % cfg.num_dispatchers_ <;> simp [hw, hm, hrest]

theorem lane_topic (tid : ℕ) (l : List μ) :
    (lane cfg (cfg.hash tid % cfg.num_dispatchers_) l).filter (fun m ↦ cfg.topic_id m = tid) =
      l.filter fun m ↦ cfg.topic_id m = tid := by
  rw [lane, List.filter_filter]
  refine List.filter_congr fun m _ ↦ ?_
  by_cases hm : cfg.topic_id m = tid
  · simp [hm, Config.worker]
  · simp [hm]

variable [DecidableEq Pid] [DecidableEq μ]

/-- What a worker is done with is the front of its lane. -/
theorem done_front (h : (AtomicBus.machine Pid cfg capacity).Reachable s) (w : ℕ) :
    doneBy w s.events <+: lane cfg w s.taken := by
  have hlanes := inLanes h
  have hserved : ∀ {input : List μ} {hand : Hand μ}, Serves input hand (trace w s.events) →
      doneBy w s.events <+: input := by
    rintro input hand ⟨done, rfl, htrace⟩
    rw [doneBy, htrace, done_spans]
    exact List.prefix_append _ _
  by_cases hN : cfg.num_dispatchers_ = 1
  · obtain ⟨hserves, honly⟩ := hlanes.alone hN
    by_cases hw : w = 0
    · have hlane : lane cfg w s.taken = s.taken := by
        refine List.filter_eq_self.mpr fun m _ ↦ ?_
        rw [decide_eq_true_eq, Config.worker, hN, Nat.mod_one, hw]
      rw [hlane]
      rw [hw] at hserved ⊢
      exact hserved hserves
    · have htrace : trace w s.events = [] := honly w hw
      rw [doneBy, htrace]
      exact List.nil_prefix
  · have hcomplete := (hlanes.routed hN).complete w
    have hcomplete : (s.worker_queues_ w).put ++ _ = lane cfg w s.taken := hcomplete
    rw [← hcomplete]
    refine (hserved (hlanes.served hN w)).trans ?_
    exact (List.take_prefix _ _).trans (List.prefix_append _ _)

theorem finish_worker (h : (AtomicBus.machine Pid cfg capacity).Reachable s) {w : ℕ} {m : μ}
    (hm : .finish w m ∈ s.events) : w = cfg.worker m := by
  have hdone : m ∈ doneBy w s.events := by
    refine List.mem_filterMap.mpr ⟨.finish m, mem_trace_finish.mpr hm, rfl⟩
  exact (mem_lane.mp ((done_front h w).subset hdone)).2.symm

/-- The messages of a topic are handled in the order in which they were taken,
and after `stop` all of them have been. -/
theorem topic_handled (h : (AtomicBus.machine Pid cfg capacity).Reachable s) (tid : ℕ) :
    (finished s.events).filter (fun m ↦ cfg.topic_id m = tid) <+:
        s.taken.filter (fun m ↦ cfg.topic_id m = tid) ∧
      (s.stopper = .returned → (finished s.events).filter (fun m ↦ cfg.topic_id m = tid) =
        s.taken.filter fun m ↦ cfg.topic_id m = tid) := by
  have hlane : _ = s.taken.filter fun m ↦ cfg.topic_id m = tid := lane_topic tid s.taken
  rw [finished_topic (fun _ _ hm ↦ finish_worker h hm) tid, ← hlane]
  refine ⟨(done_front h _).filter _, fun hstop ↦ ?_⟩
  have hclosing : Closing cfg (pipeline (weaken s)) := closing_reachable (weaken_reachable h)
  have htrace : trace (cfg.hash tid % cfg.num_dispatchers_) s.events = _ :=
    hclosing.traces hstop _
  rw [doneBy, htrace]
  have hdone := done_spans (lane cfg (cfg.hash tid % cfg.num_dispatchers_) s.taken) .free
  rw [show (Hand.free : Hand μ).opened = [] from rfl, List.append_nil] at hdone
  exact congrArg _ hdone

end Lanes

end LivioArk.Msgbus.WholeBus
