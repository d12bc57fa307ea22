import LivioArk.Library.SerialTrace
import LivioArk.Msgbus.Pipeline

namespace LivioArk.Msgbus.Lanes

open Function LivioArk.Library.Transition LivioArk.Library.QueueLog
open LivioArk.Library.SerialTrace
open LockFreeQueue MessageBus BusSteps WeakBus Acceptance Pipeline

variable {Pid μ : Type}

/-- Which loop comes to which point: only a bus with one dispatcher handles
messages in `dispatchLoop`, only one with several routes them. -/
def suits (n : ℕ) : LoopPc μ → Prop
  | .route _ _ | .wakeWorker _ => n ≠ 1
  | .begin _ _ | .dispatching _ _ => n = 1
  | _ => True

def calling : LoopPc μ → Bool
  | .poll _ | .route _ _ => true
  | _ => false

/-- An answer is outstanding only where a thread has called the operation. -/
structure Wired (cfg : Config μ) (queue_ : View Pid μ) (worker_queues_ : ℕ → View Pid μ)
    (loop : LoopPc μ) (workers : ℕ → WorkerPc μ) : Prop where
  suits : suits cfg.num_dispatchers_ loop
  single : cfg.num_dispatchers_ = 1 → ∀ i, workers i = .unstarted
  unstarted : loop = .unstarted → ∀ i, workers i = .unstarted
  main : queue_.resp .loop ≠ none → ∃ drain, loop = .poll drain
  route : ∀ i, (worker_queues_ i).resp .loop ≠ none →
    ∃ drain m, loop = .route drain m ∧ cfg.worker m = i
  worker : ∀ i, (worker_queues_ i).resp (.worker i) ≠ none → ∃ phase, workers i = .poll phase

namespace Wired

variable {cfg : Config μ} {queue_ v : View Pid μ} {worker_queues_ : ℕ → View Pid μ}
variable {loop loop' : LoopPc μ} {workers : ℕ → WorkerPc μ} {i : ℕ} {pc : WorkerPc μ}

theorem initial :
    Wired cfg (.empty : View Pid μ) (fun _ ↦ .empty) .unstarted fun _ ↦ .unstarted where
  suits := trivial
  single _ _ := rfl
  unstarted _ _ := rfl
  main h := absurd rfl h
  route _ h := absurd rfl h
  worker _ h := absurd rfl h

variable (h : Wired cfg queue_ worker_queues_ loop workers)

include h

theorem no_main (hl : ∀ drain, loop ≠ .poll drain) : queue_.resp .loop = none := by
  by_contra hne
  obtain ⟨drain, hd⟩ := h.main hne
  exact hl drain hd

theorem no_route (hl : ∀ drain m, loop ≠ .route drain m) (i : ℕ) :
    (worker_queues_ i).resp .loop = none := by
  by_contra hne
  obtain ⟨drain, m, hd, -⟩ := h.route i hne
  exact hl drain m hd

theorem no_worker (hw : ∀ phase, workers i ≠ .poll phase) :
    (worker_queues_ i).resp (.worker i) = none := by
  by_contra hne
  obtain ⟨phase, hp⟩ := h.worker i hne
  exact hw phase hp

theorem started (hw : workers i ≠ .unstarted) : loop ≠ .unstarted ∧ cfg.num_dispatchers_ ≠ 1 :=
  ⟨fun hl ↦ hw (h.unstarted hl i), fun hn ↦ hw (h.single hn i)⟩

theorem moveLoop (hcalm : calling loop = false) (hs : Lanes.suits cfg.num_dispatchers_ loop')
    (hne : loop' ≠ .unstarted) : Wired cfg queue_ worker_queues_ loop' workers := by
  have hm := h.no_main fun drain hd ↦ by rw [hd] at hcalm; cases hcalm
  have hr := h.no_route fun drain m hd ↦ by rw [hd] at hcalm; cases hcalm
  exact ⟨hs, h.single, fun hl ↦ absurd hl hne, fun hn ↦ absurd hm hn, fun i hn ↦ absurd (hr i) hn,
    h.worker⟩

theorem setMain (hv : v.resp .loop ≠ none → ∃ drain, loop = .poll drain) :
    Wired cfg v worker_queues_ loop workers :=
  { h with main := hv }

theorem polled {drain : Bool} (hl : loop = .poll drain) (hv : v.resp .loop = none)
    (hs : Lanes.suits cfg.num_dispatchers_ loop') (hne : loop' ≠ .unstarted) :
    Wired cfg v worker_queues_ loop' workers := by
  have hr := h.no_route fun drain m hd ↦ by rw [hl] at hd; cases hd
  exact ⟨hs, h.single, fun hl ↦ absurd hl hne, fun hn ↦ absurd hv hn, fun i hn ↦ absurd (hr i) hn,
    h.worker⟩

theorem setRoute {drain : Bool} {m : μ} (hl : loop = .route drain m)
    (hv : v.resp (.worker (cfg.worker m)) =
      (worker_queues_ (cfg.worker m)).resp (.worker (cfg.worker m))) :
    Wired cfg queue_ (update worker_queues_ (cfg.worker m) v) loop workers := by
  refine { h with route := fun i hn ↦ ?_, worker := fun i hn ↦ ?_ }
  · by_cases hi : i = cfg.worker m
    · exact ⟨drain, m, hl, hi.symm⟩
    · rw [update_of_ne hi] at hn
      exact h.route i hn
  · by_cases hi : i = cfg.worker m
    · subst hi
      rw [update_self, hv] at hn
      exact h.worker _ hn
    · rw [update_of_ne hi] at hn
      exact h.worker i hn

theorem routed {drain : Bool} {m : μ} (hl : loop = .route drain m) (hv : v.resp .loop = none)
    (hw : v.resp (.worker (cfg.worker m)) =
      (worker_queues_ (cfg.worker m)).resp (.worker (cfg.worker m)))
    (hs : Lanes.suits cfg.num_dispatchers_ loop') (hne : loop' ≠ .unstarted) :
    Wired cfg queue_ (update worker_queues_ (cfg.worker m) v) loop' workers := by
  have hm := h.no_main fun drain hd ↦ by rw [hl] at hd; cases hd
  refine ⟨hs, h.single, fun hl ↦ absurd hl hne, fun hn ↦ absurd hm hn, fun i hn ↦ ?_,
    (h.setRoute hl hw).worker⟩
  by_cases hi : i = cfg.worker m
  · subst hi
    rw [update_self] at hn
    exact absurd hv hn
  · rw [update_of_ne hi] at hn
    obtain ⟨drain', m', hl', hm'⟩ := h.route i hn
    rw [hl] at hl'
    cases hl'
    exact absurd hm'.symm hi

theorem moveWorker (hw : workers i ≠ .unstarted)
    (hl : v.resp .loop = (worker_queues_ i).resp .loop)
    (hv : v.resp (.worker i) ≠ none → ∃ phase, pc = .poll phase) :
    Wired cfg queue_ (update worker_queues_ i v) loop (update workers i pc) := by
  obtain ⟨hstarted, hn1⟩ := h.started hw
  refine ⟨h.suits, fun hn ↦ absurd hn hn1, fun hu ↦ absurd hu hstarted, h.main, fun j hn ↦ ?_,
    fun j hn ↦ ?_⟩
  · by_cases hj : j = i
    · subst hj
      rw [update_self, hl] at hn
      exact h.route j hn
    · rw [update_of_ne hj] at hn
      exact h.route j hn
  · by_cases hj : j = i
    · subst hj
      rw [update_self] at hn ⊢
      exact hv hn
    · rw [update_of_ne hj] at hn ⊢
      exact h.worker j hn

theorem stepWorker (hw : workers i ≠ .unstarted) (hp : ∀ phase, workers i ≠ .poll phase) :
    Wired cfg queue_ worker_queues_ loop (update workers i pc) := by
  have hm : Wired cfg queue_ (update worker_queues_ i (worker_queues_ i)) loop
      (update workers i pc) :=
    h.moveWorker hw rfl fun hn ↦ absurd (h.no_worker hp) hn
  rwa [update_eq_self] at hm

theorem setWorker {phase : Phase} (hp : workers i = .poll phase)
    (hl : v.resp .loop = (worker_queues_ i).resp .loop) :
    Wired cfg queue_ (update worker_queues_ i v) loop workers := by
  have hm : Wired cfg queue_ (update worker_queues_ i v) loop (update workers i (workers i)) :=
    h.moveWorker (by simp [hp]) hl fun _ ↦ ⟨phase, hp⟩
  rwa [update_eq_self] at hm

theorem start (hl : loop = .unstarted) {workers' : ℕ → WorkerPc μ}
    (hw : cfg.num_dispatchers_ = 1 → workers' = workers) :
    Wired cfg queue_ worker_queues_ .head workers' := by
  have hm := h.no_main fun drain hd ↦ by rw [hl] at hd; cases hd
  have hr := h.no_route fun drain m hd ↦ by rw [hl] at hd; cases hd
  refine ⟨trivial, fun hn ↦ hw hn ▸ h.single hn, fun hu ↦ (by cases hu), fun hn ↦ absurd hm hn,
    fun i hn ↦ absurd (hr i) hn, fun i hn ↦ ?_⟩
  have hno : (worker_queues_ i).resp (.worker i) = none := by
    refine h.no_worker fun phase hp ↦ ?_
    rw [h.unstarted hl i] at hp
    cases hp
  exact absurd hno hn

end Wired

variable {cfg : Config μ} {s t : Pipeline (View Pid μ) μ}

theorem suits_next (n : ℕ) (drain : Bool) : suits n (LoopPc.next drain : LoopPc μ) := by
  cases drain <;> trivial

theorem next_ne_unstarted (drain : Bool) : (LoopPc.next drain : LoopPc μ) ≠ .unstarted := by
  cases drain <;> simp [LoopPc.next]

theorem suits_notified (n : ℕ) (drain : Bool) (m : μ) :
    suits n (if n = 1 then .begin drain m else .route drain m) := by
  split
  · assumption
  · assumption

theorem suits_polled (n : ℕ) (drain : Bool) :
    suits n (if drain then .finished else .head : LoopPc μ) := by
  cases drain <;> trivial

theorem calling_of_eq {loop pc : LoopPc μ} (h : loop = pc) (hpc : calling pc = false) :
    calling loop = false := h ▸ hpc

def returned : Option (Resp μ) → List μ
  | some (.dequeued (some m)) => [m]
  | _ => []

@[simp] theorem returned_none : returned (none : Option (Resp μ)) = [] := rfl

@[simp] theorem returned_failed : returned (some (.dequeued none) : Option (Resp μ)) = [] := rfl

@[simp] theorem returned_some (m : μ) :
    returned (some (.dequeued (some m)) : Option (Resp μ)) = [m] := rfl

/-- What the loop has taken, with the message that its poll is about to
return, comes from the front of the main queue. -/
structure Fetched (cfg : Config μ) (queue_ : View Pid μ) (taken : List μ) : Prop where
  bounded : queue_.fifo.got ≤ queue_.fifo.put.length
  ordered : (taken ++ returned (queue_.resp .loop)).Sublist queue_.fifo.taken
  complete : cfg.policy_ ≠ .DropOldest →
    taken ++ returned (queue_.resp .loop) = queue_.fifo.taken

theorem Fetched.touch {v w : View Pid μ} {taken : List μ} (h : Fetched cfg v taken)
    (ht : Touch cfg v w) : Fetched cfg w taken := by
  cases ht with
  | same hf hr =>
    refine ⟨?_, ?_, ?_⟩
    · rw [hf]
      exact h.bounded
    · rw [hf, hr]
      exact h.ordered
    · rw [hf, hr]
      exact h.complete
  | put m hf hr =>
    refine ⟨?_, ?_, ?_⟩
    · rw [hf]
      exact h.bounded.trans (by simp [Fifo.enqueue])
    · rw [hf, hr, Fifo.taken_enqueue h.bounded]
      exact h.ordered
    · rw [hf, hr, Fifo.taken_enqueue h.bounded]
      exact h.complete
  | take m hp hd hr =>
    obtain ⟨-, htaken, -, hle⟩ := Fifo.dequeue_head hd
    refine ⟨hle, ?_, fun hne ↦ absurd hp hne⟩
    rw [hr, htaken]
    exact h.ordered.trans (List.sublist_append_left _ _)

section Routing

def carried (cfg : Config μ) (worker_queues_ : ℕ → View Pid μ) : LoopPc μ → List μ
  | .notify _ m => [m]
  | .route _ m =>
    match (worker_queues_ (cfg.worker m)).resp .loop with
    | some (.enqueued true) => []
    | _ => [m]
  | _ => []

def lane (cfg : Config μ) (i : ℕ) (l : List μ) : List μ := l.filter fun m ↦ cfg.worker m = i

theorem lane_append (i : ℕ) (l l' : List μ) :
    lane cfg i (l ++ l') = lane cfg i l ++ lane cfg i l' :=
  List.filter_append _ _

theorem mem_lane {i : ℕ} {l : List μ} {m : μ} : m ∈ lane cfg i l ↔ m ∈ l ∧ cfg.worker m = i := by
  simp [lane]

theorem lane_self (m : μ) : lane cfg (cfg.worker m) [m] = [m] := by simp [lane]

theorem lane_other {i : ℕ} {m : μ} (h : i ≠ cfg.worker m) : lane cfg i [m] = [] := by
  simp [lane, h.symm]

/-- Each worker queue gets the messages of its lane, in the order of the
taking, up to the one the router still carries. -/
structure Routed (cfg : Config μ) (worker_queues_ : ℕ → View Pid μ) (loop : LoopPc μ)
    (taken : List μ) : Prop where
  bounded : ∀ i, (worker_queues_ i).fifo.got ≤ (worker_queues_ i).fifo.put.length
  complete : ∀ i, (worker_queues_ i).fifo.put ++ lane cfg i (carried cfg worker_queues_ loop) =
    lane cfg i taken

variable {queue_ v : View Pid μ} {worker_queues_ : ℕ → View Pid μ} {loop loop' : LoopPc μ}
variable {workers : ℕ → WorkerPc μ} {taken : List μ} {i : ℕ}

theorem carried_next (drain : Bool) : carried cfg worker_queues_ (.next drain) = [] := by
  cases drain <;> rfl

theorem carried_route {drain : Bool} {m : μ}
    (h : (worker_queues_ (cfg.worker m)).resp .loop ≠ some (.enqueued true)) :
    carried cfg worker_queues_ (.route drain m) = [m] := by
  simp only [carried]

theorem carried_routed {drain : Bool} {m : μ}
    (h : (worker_queues_ (cfg.worker m)).resp .loop = some (.enqueued true)) :
    carried cfg worker_queues_ (.route drain m) = [] := by
  simp only [carried, h]

theorem carried_congr {worker_queues' : ℕ → View Pid μ}
    (h : ∀ i, (worker_queues' i).resp .loop = (worker_queues_ i).resp .loop) (loop : LoopPc μ) :
    carried cfg worker_queues' loop = carried cfg worker_queues_ loop := by
  cases loop with
  | route drain m => simp only [carried, h]
  | _ => rfl

theorem carried_of_eq {pc : LoopPc μ} {l : List μ} (hl : loop = pc)
    (hc : carried cfg worker_queues_ pc = l) :
    carried cfg worker_queues_ loop = l := hl ▸ hc

theorem carried_asking {drain : Bool} {m : μ}
    (hl : loop = .route drain m)
    (h : (worker_queues_ (cfg.worker m)).resp .loop ≠ some (.enqueued true)) :
    carried cfg worker_queues_ loop = [m] := carried_of_eq hl (carried_route h)

namespace Routed

variable (h : Routed cfg worker_queues_ loop taken)

include h

theorem moveLoop (hc : carried cfg worker_queues_ loop' = carried cfg worker_queues_ loop) :
    Routed cfg worker_queues_ loop' taken :=
  { h with complete := fun i ↦ by rw [hc]; exact h.complete i }

theorem take {m : μ} (hc : carried cfg worker_queues_ loop = [])
    (hc' : carried cfg worker_queues_ loop' = [m]) :
    Routed cfg worker_queues_ loop' (taken ++ [m]) := by
  refine { h with complete := fun i ↦ ?_ }
  have hi := h.complete i
  rw [hc] at hi
  rw [hc', lane_append, ← hi]
  simp [lane]

theorem setQueue (hput : v.fifo.put = (worker_queues_ i).fifo.put)
    (hb : v.fifo.got ≤ v.fifo.put.length) (hl : v.resp .loop = (worker_queues_ i).resp .loop) :
    Routed cfg (update worker_queues_ i v) loop taken := by
  refine ⟨fun j ↦ ?_, fun j ↦ ?_⟩
  · by_cases hj : j = i
    · subst hj
      rw [update_self]
      exact hb
    · rw [update_of_ne hj]
      exact h.bounded j
  · have hcarried : ∀ l,
        carried cfg (update worker_queues_ i v) l = carried cfg worker_queues_ l := by
      refine carried_congr fun j ↦ ?_
      by_cases hj : j = i
      · subst hj
        rw [update_self, hl]
      · rw [update_of_ne hj]
    rw [hcarried]
    by_cases hj : j = i
    · subst hj
      rw [update_self, hput]
      exact h.complete j
    · rw [update_of_ne hj]
      exact h.complete j

theorem reply (hf : v.fifo = (worker_queues_ i).fifo)
    (hc : carried cfg (update worker_queues_ i v) loop' = carried cfg worker_queues_ loop) :
    Routed cfg (update worker_queues_ i v) loop' taken := by
  refine ⟨fun j ↦ ?_, fun j ↦ ?_⟩
  · by_cases hj : j = i
    · subst hj
      rw [update_self, hf]
      exact h.bounded _
    · rw [update_of_ne hj]
      exact h.bounded j
  · rw [hc]
    by_cases hj : j = i
    · subst hj
      rw [update_self, hf]
      exact h.complete j
    · rw [update_of_ne hj]
      exact h.complete j

theorem put {m : μ} (hc : carried cfg worker_queues_ loop = [m])
    (hc' : carried cfg (update worker_queues_ (cfg.worker m) v) loop' = [])
    (hf : v.fifo = (worker_queues_ (cfg.worker m)).fifo.enqueue m) :
    Routed cfg (update worker_queues_ (cfg.worker m) v) loop' taken := by
  refine ⟨fun j ↦ ?_, fun j ↦ ?_⟩
  · by_cases hj : j = cfg.worker m
    · subst hj
      rw [update_self, hf]
      exact (h.bounded _).trans (by simp [Fifo.enqueue])
    · rw [update_of_ne hj]
      exact h.bounded j
  · have hcomplete := h.complete j
    rw [hc] at hcomplete
    rw [hc']
    by_cases hj : j = cfg.worker m
    · subst hj
      rw [lane_self] at hcomplete
      rw [update_self, hf, ← hcomplete]
      simp [Fifo.enqueue, lane]
    · rw [lane_other hj, List.append_nil] at hcomplete
      rw [update_of_ne hj, ← hcomplete]
      simp [lane]

end Routed

end Routing

def mark (i : ℕ) : Dispatch μ → Option (Mark μ)
  | .begin w m => if w = i then some (.begin m) else none
  | .finish w m => if w = i then some (.finish m) else none

def trace (i : ℕ) (events : List (Dispatch μ)) : List (Mark μ) := events.filterMap (mark i)

section Tracing

variable {i j : ℕ} {m : μ} {events : List (Dispatch μ)}

theorem trace_begin_self : trace i (events ++ [.begin i m]) = trace i events ++ [.begin m] := by
  simp [trace, mark]

theorem trace_finish_self : trace i (events ++ [.finish i m]) = trace i events ++ [.finish m] := by
  simp [trace, mark]

theorem trace_begin_other (h : i ≠ j) : trace j (events ++ [.begin i m]) = trace j events := by
  simp [trace, mark, h]

theorem trace_finish_other (h : i ≠ j) : trace j (events ++ [.finish i m]) = trace j events := by
  simp [trace, mark, h]

theorem mark_begin_iff {e : Dispatch μ} : mark i e = some (.begin m) ↔ e = .begin i m := by
  cases e <;> simp [mark]

theorem mark_finish_iff {e : Dispatch μ} : mark i e = some (.finish m) ↔ e = .finish i m := by
  cases e <;> simp [mark]

theorem mem_trace_begin : .begin m ∈ trace i events ↔ .begin i m ∈ events := by
  simp [trace, List.mem_filterMap, mark_begin_iff]

theorem mem_trace_finish : .finish m ∈ trace i events ↔ .finish i m ∈ events := by
  simp [trace, List.mem_filterMap, mark_finish_iff]

/-- An event that leaves a mark nothing else leaves occurs as often as the mark. -/
theorem count_trace [DecidableEq μ] {e : Dispatch μ} {k : Mark μ}
    (h : ∀ d, mark i d = some k ↔ d = e) (events : List (Dispatch μ)) :
    (trace i events).count k = events.count e := by
  induction events with
  | nil => rfl
  | cons d events ih =>
    by_cases hd : d = e
    · have hmark := (h d).mpr hd
      subst hd
      rw [trace, List.filterMap_cons_some hmark, List.count_cons_self, List.count_cons_self]
      exact congrArg (· + 1) ih
    · rw [List.count_cons_of_ne hd, ← ih]
      cases hmark : mark i d with
      | none => rw [trace, List.filterMap_cons_none hmark]; rfl
      | some k' =>
        have hk : k' ≠ k := fun hk ↦ hd ((h d).mp (hk ▸ hmark))
        rw [trace, List.filterMap_cons_some hmark, List.count_cons_of_ne hk]
        rfl

end Tracing

def loopHand : LoopPc μ → Hand μ
  | .notify _ m | .begin _ m => .holding m
  | .dispatching _ m => .running m
  | _ => .free

def workerHand (resp : Option (Resp μ)) : WorkerPc μ → Hand μ
  | .begin _ m => .holding m
  | .dispatching _ m => .running m
  | .poll _ =>
    match resp with
    | some (.dequeued (some m)) => .holding m
    | _ => .free
  | _ => .free

theorem loopHand_next (drain : Bool) : loopHand (.next drain : LoopPc μ) = .free := by
  cases drain <;> rfl

theorem loopHand_polled (drain : Bool) :
    loopHand (if drain then .finished else .head : LoopPc μ) = .free := by
  cases drain <;> rfl

theorem workerHand_next (resp : Option (Resp μ)) (phase : Phase) (hr : resp = none) :
    workerHand resp (.next phase) = .free := by
  subst hr
  cases phase <;> rfl

structure ServedAlone (loop : LoopPc μ) (taken : List μ) (events : List (Dispatch μ)) : Prop where
  serves : Serves taken (loopHand loop) (trace 0 events)
  only : ∀ i, i ≠ 0 → trace i events = []

theorem ServedAlone.moveLoop {loop loop' : LoopPc μ} {taken : List μ} {events : List (Dispatch μ)}
    (h : ServedAlone loop taken events) (hh : loopHand loop' = loopHand loop) :
    ServedAlone loop' taken events :=
  { h with serves := hh ▸ h.serves }

def ServedBy (worker_queues_ : ℕ → View Pid μ) (workers : ℕ → WorkerPc μ)
    (events : List (Dispatch μ)) : Prop :=
  ∀ i, Serves (worker_queues_ i).fifo.taken
    (workerHand ((worker_queues_ i).resp (.worker i)) (workers i)) (trace i events)

namespace ServedBy

variable {worker_queues_ : ℕ → View Pid μ} {workers : ℕ → WorkerPc μ}
variable {events events' : List (Dispatch μ)} {i : ℕ} {v : View Pid μ} {pc : WorkerPc μ}
variable (h : ServedBy worker_queues_ workers events)

include h

theorem update_lane
    (hi : Serves v.fifo.taken (workerHand (v.resp (.worker i)) pc) (trace i events'))
    (he : ∀ j, i ≠ j → trace j events' = trace j events) :
    ServedBy (update worker_queues_ i v) (update workers i pc) events' := by
  intro j
  by_cases hj : j = i
  · subst hj
    rw [update_self, update_self]
    exact hi
  · rw [update_of_ne hj, update_of_ne hj, he j fun heq ↦ hj heq.symm]
    exact h j

theorem moveWorker
    (hi : Serves (worker_queues_ i).fifo.taken
      (workerHand ((worker_queues_ i).resp (.worker i)) pc) (trace i events'))
    (he : ∀ j, i ≠ j → trace j events' = trace j events) :
    ServedBy worker_queues_ (update workers i pc) events' := by
  have hm := h.update_lane hi he
  rwa [update_eq_self] at hm

theorem setQueue
    (hi : Serves v.fifo.taken (workerHand (v.resp (.worker i)) (workers i)) (trace i events)) :
    ServedBy (update worker_queues_ i v) workers events := by
  have hm : ServedBy (update worker_queues_ i v) (update workers i (workers i)) events :=
    h.update_lane hi fun _ _ ↦ rfl
  rwa [update_eq_self] at hm

theorem router (hf : v.fifo.taken = (worker_queues_ i).fifo.taken)
    (hr : v.resp (.worker i) = (worker_queues_ i).resp (.worker i)) :
    ServedBy (update worker_queues_ i v) workers events := by
  apply h.setQueue
  rw [hf, hr]
  exact h i

end ServedBy

structure InLanes (cfg : Config μ) (s : Pipeline (View Pid μ) μ) : Prop where
  wired : Wired cfg s.queue_ s.worker_queues_ s.loop s.workers
  fetched : Fetched cfg s.queue_ s.taken
  routed : cfg.num_dispatchers_ ≠ 1 → Routed cfg s.worker_queues_ s.loop s.taken
  alone : cfg.num_dispatchers_ = 1 → ServedAlone s.loop s.taken s.events
  served : cfg.num_dispatchers_ ≠ 1 → ServedBy s.worker_queues_ s.workers s.events

theorem InLanes.initial : InLanes cfg (pipeline (.initial .empty : Bus (View Pid μ) Pid μ)) where
  wired := .initial
  fetched := ⟨Nat.le_refl 0, List.Sublist.refl [], fun _ ↦ rfl⟩
  routed _ := ⟨fun _ ↦ Nat.le_refl 0, fun _ ↦ rfl⟩
  alone _ := ⟨.start, fun _ _ ↦ rfl⟩
  served _ _ := .start

variable [DecidableEq Pid]

theorem Wired.step (h : Wired cfg s.queue_ s.worker_queues_ s.loop s.workers)
    (hs : PipeStep cfg s t) : Wired cfg t.queue_ t.worker_queues_ t.loop t.workers := by
  cases hs with
  | idle | stop _ _ | notifyAll | joinLoop | setDrained | joinWorker | joined | clear => exact h
  | publisher htouch =>
    refine h.setMain fun hn ↦ h.main ?_
    cases htouch with
    | same _ hr | put _ _ hr | take _ _ _ hr => rwa [← hr]
  | start hl => exact h.start hl fun hn ↦ if_pos hn
  | loopHead hl => exact h.moveLoop (calling_of_eq hl rfl) trivial (by simp)
  | notified hl =>
    exact h.moveLoop (calling_of_eq hl rfl) (suits_notified _ _ _) (by split <;> simp)
  | begin hl =>
    refine h.moveLoop (calling_of_eq hl rfl) ?_ (by simp)
    have hsuits := h.suits
    rw [hl] at hsuits
    exact hsuits
  | finish hl =>
    exact h.moveLoop (calling_of_eq hl rfl) (suits_next _ _) (next_ne_unstarted _)
  | wokeWorker hl =>
    exact h.moveLoop (calling_of_eq hl rfl) (suits_next _ _) (next_ne_unstarted _)
  | loopTake hl | loopFail hl => exact h.setMain fun _ ↦ ⟨_, hl⟩
  | loopGot hl => exact h.polled hl clear_resp_self trivial (by simp)
  | loopNone hl => exact h.polled hl clear_resp_self (suits_polled _ _) (by split <;> simp)
  | routePut hl | routeFail hl => exact h.setRoute hl (answer_resp_ne _ (by simp))
  | routed hl =>
    refine h.routed hl clear_resp_self (clear_resp_ne (by simp)) ?_ (by simp)
    have hsuits := h.suits
    rw [hl] at hsuits
    exact hsuits
  | routeAgain hl => exact h.setRoute hl (clear_resp_ne (by simp))
  | workerHead _ hw | workerAwait _ hw | workerBegin _ hw | workerFinish _ hw =>
    exact h.stepWorker (by simp [hw]) (by simp [hw])
  | workerTake _ hw | workerFail _ hw => exact h.setWorker hw (answer_resp_ne _ (by simp))
  | workerGot _ hw | workerNone _ hw =>
    exact h.moveWorker (by simp [hw]) (clear_resp_ne (by simp)) fun hn ↦ absurd clear_resp_self hn

theorem Fetched.step (h : Fetched cfg s.queue_ s.taken) (hs : PipeStep cfg s t) :
    Fetched cfg t.queue_ t.taken := by
  obtain ⟨hb, hsub, heq⟩ := h
  cases hs with
  | publisher htouch => exact Fetched.touch ⟨hb, hsub, heq⟩ htouch
  | @loopTake drain q m hl hr hd =>
    obtain ⟨-, htaken, -, hle⟩ := Fifo.dequeue_head hd
    rw [hr, returned_none, List.append_nil] at hsub heq
    refine ⟨hle, ?_, fun hp ↦ ?_⟩
    · rw [answer_resp_self, returned_some]
      change (s.taken ++ [m]).Sublist q.taken
      rw [htaken]
      exact hsub.append (List.Sublist.refl _)
    · rw [answer_resp_self, returned_some]
      change s.taken ++ [m] = q.taken
      rw [htaken, heq hp]
  | loopFail hl hr =>
    rw [hr, returned_none] at hsub heq
    refine ⟨hb, ?_, ?_⟩
    · rw [answer_resp_self, returned_failed]
      exact hsub
    · rw [answer_resp_self, returned_failed]
      exact heq
  | loopGot hl hr =>
    rw [hr, returned_some] at hsub heq
    refine ⟨hb, ?_, fun hp ↦ ?_⟩
    · rw [clear_resp_self, returned_none, List.append_nil]
      exact hsub
    · rw [clear_resp_self, returned_none, List.append_nil]
      exact heq hp
  | loopNone hl hr =>
    rw [hr, returned_failed] at hsub heq
    refine ⟨hb, ?_, fun hp ↦ ?_⟩
    · rw [clear_resp_self, returned_none]
      exact hsub
    · rw [clear_resp_self, returned_none]
      exact heq hp
  | _ => exact ⟨hb, hsub, heq⟩

theorem Routed.step (hN : cfg.num_dispatchers_ ≠ 1)
    (hw : Wired cfg s.queue_ s.worker_queues_ s.loop s.workers)
    (h : Routed cfg s.worker_queues_ s.loop s.taken) (hs : PipeStep cfg s t) :
    Routed cfg t.worker_queues_ t.loop t.taken := by
  cases hs with
  | start hl | loopHead hl | begin hl =>
    exact h.moveLoop (carried_of_eq hl rfl).symm
  | @notified drain m hl =>
    have hnone := hw.no_route (by simp [hl]) (cfg.worker m)
    have hroute : carried cfg s.worker_queues_ (.route drain m) = [m] :=
      carried_route (by simp [hnone])
    exact h.moveLoop ((carried_of_eq (if_neg hN) hroute).trans (carried_of_eq hl rfl).symm)
  | finish hl | wokeWorker hl =>
    exact h.moveLoop ((carried_next _).trans (carried_of_eq hl rfl).symm)
  | loopGot hl => exact h.take (carried_of_eq hl rfl) rfl
  | loopNone hl => exact h.moveLoop (Eq.trans (by split <;> rfl) (carried_of_eq hl rfl).symm)
  | routePut hl hr =>
    refine h.put (carried_asking hl (by simp [hr])) ?_ rfl
    refine carried_of_eq hl (carried_routed ?_)
    rw [update_self, answer_resp_self]
  | routeFail hl hr =>
    refine h.reply rfl (Eq.trans (carried_asking hl ?_) (carried_asking hl (by simp [hr])).symm)
    rw [update_self, answer_resp_self]
    simp
  | routed hl hr => exact h.reply rfl (carried_of_eq hl (carried_routed hr)).symm
  | routeAgain hl hr =>
    refine h.reply rfl (Eq.trans (carried_asking hl ?_) (carried_asking hl (by simp [hr])).symm)
    rw [update_self, clear_resp_self]
    simp
  | workerTake _ _ _ hd =>
    obtain ⟨-, -, hput, hle⟩ := Fifo.dequeue_head hd
    exact h.setQueue hput hle (answer_resp_ne _ (by simp))
  | workerFail => exact h.setQueue rfl (h.bounded _) (answer_resp_ne _ (by simp))
  | workerGot | workerNone => exact h.setQueue rfl (h.bounded _) (clear_resp_ne (by simp))
  | _ => exact h

theorem ServedAlone.step (hN : cfg.num_dispatchers_ = 1)
    (hw : Wired cfg s.queue_ s.worker_queues_ s.loop s.workers)
    (h : ServedAlone s.loop s.taken s.events) (hs : PipeStep cfg s t) :
    ServedAlone t.loop t.taken t.events := by
  cases hs with
  | start hl | loopHead hl => exact h.moveLoop (by simp [hl, loopHand])
  | notified hl => exact h.moveLoop (by simp [hl, hN, loopHand])
  | @begin drain m hl =>
    obtain ⟨hserves, honly⟩ := h
    rw [hl] at hserves
    refine ⟨?_, fun i hi ↦ ?_⟩
    · rw [trace_begin_self]
      exact hserves.begin
    · rw [trace_begin_other hi.symm]
      exact honly i hi
  | @finish drain m hl =>
    obtain ⟨hserves, honly⟩ := h
    rw [hl] at hserves
    refine ⟨?_, fun i hi ↦ ?_⟩
    · rw [trace_finish_self, loopHand_next]
      exact hserves.finish
    · rw [trace_finish_other hi.symm]
      exact honly i hi
  | wokeWorker hl => exact h.moveLoop (by rw [hl, loopHand_next]; rfl)
  | @loopGot drain m hl =>
    obtain ⟨hserves, honly⟩ := h
    rw [hl] at hserves
    exact ⟨hserves.take m, honly⟩
  | loopNone hl => exact h.moveLoop (by rw [hl, loopHand_polled]; rfl)
  | routed hl => exact h.moveLoop (by simp [hl, loopHand])
  | @workerBegin i _ _ _ hwk | @workerFinish i _ _ _ hwk =>
    rw [hw.single hN i] at hwk
    cases hwk
  | _ => exact h

theorem ServedBy.step (hN : cfg.num_dispatchers_ ≠ 1)
    (hw : Wired cfg s.queue_ s.worker_queues_ s.loop s.workers)
    (hr : Routed cfg s.worker_queues_ s.loop s.taken)
    (h : ServedBy s.worker_queues_ s.workers s.events) (hs : PipeStep cfg s t) :
    ServedBy t.worker_queues_ t.workers t.events := by
  cases hs with
  | start hl =>
    intro i
    have hi := h i
    rw [hw.unstarted hl i] at hi
    simp only [if_neg hN]
    exact hi
  | begin hl | finish hl =>
    have hsuits := hw.suits
    rw [hl] at hsuits
    exact absurd hsuits hN
  | routePut => exact h.router (Fifo.taken_enqueue (hr.bounded _)) (answer_resp_ne _ (by simp))
  | routeFail => exact h.router rfl (answer_resp_ne _ (by simp))
  | routed | routeAgain => exact h.router rfl (clear_resp_ne (by simp))
  | @workerHead i _ hwk | @workerAwait i _ hwk =>
    have hi := h i
    have hnone := hw.no_worker (i := i) (by simp [hwk])
    rw [hnone, hwk] at hi
    refine h.moveWorker ?_ fun _ _ ↦ rfl
    rw [hnone]
    split <;> exact hi
  | @workerBegin i phase m _ hwk =>
    have hi := h i
    rw [hwk] at hi
    refine h.moveWorker ?_ fun j hj ↦ trace_begin_other hj
    rw [trace_begin_self]
    exact hi.begin
  | @workerFinish i phase m _ hwk =>
    have hi := h i
    rw [hwk] at hi
    refine h.moveWorker ?_ fun j hj ↦ trace_finish_other hj
    rw [trace_finish_self, workerHand_next _ _ (hw.no_worker (by simp [hwk]))]
    exact hi.finish
  | @workerTake i phase q m _ hwk hnone hd =>
    have hi := h i
    obtain ⟨-, htaken, -, -⟩ := Fifo.dequeue_head hd
    rw [hwk, hnone] at hi
    apply h.setQueue
    rw [answer_resp_self, hwk]
    change Serves q.taken (.holding m) _
    rw [htaken]
    exact hi.take m
  | @workerFail i phase _ hwk hnone =>
    have hi := h i
    rw [hwk, hnone] at hi
    apply h.setQueue
    rw [answer_resp_self, hwk]
    exact hi
  | @workerGot i phase m _ hwk hresp =>
    have hi := h i
    rw [hwk, hresp] at hi
    exact h.update_lane hi fun _ _ ↦ rfl
  | @workerNone i phase _ hwk hresp =>
    have hi := h i
    rw [hwk, hresp] at hi
    refine h.update_lane ?_ fun _ _ ↦ rfl
    split <;> exact hi
  | _ => exact h

theorem InLanes.step (h : InLanes cfg s) (hs : PipeStep cfg s t) : InLanes cfg t where
  wired := h.wired.step hs
  fetched := h.fetched.step hs
  routed hN := (h.routed hN).step hN h.wired hs
  alone hN := (h.alone hN).step hN h.wired hs
  served hN := (h.served hN).step hN h.wired (h.routed hN) hs

variable [DecidableEq μ]

/-- An invariant of the pipeline holds of every reachable state. -/
theorem pipeline_invariant {P : Pipeline (View Pid μ) μ → Prop}
    (h0 : P (pipeline (.initial .empty : Bus (View Pid μ) Pid μ)))
    (hstep : ∀ s t, P s → PipeStep cfg s t → P t) {s : Bus (View Pid μ) Pid μ}
    (h : (WeakBus.machine Pid cfg).Reaches Exact s) : P (pipeline s) := by
  refine Machine.Reaches.invariant (P := fun s ↦ P (pipeline s)) ?_ ?_ h
  · intro s hs
    subst hs
    exact h0
  · intro s a t hr hp hok hs
    exact hstep _ _ hp (pipeStep_of_step (sent_reachable hr) hok hs)

theorem inLanes_reachable {s : Bus (View Pid μ) Pid μ}
    (h : (WeakBus.machine Pid cfg).Reaches Exact s) : InLanes cfg (pipeline s) :=
  pipeline_invariant .initial (fun _ _ hp hs ↦ hp.step hs) h

end LivioArk.Msgbus.Lanes
