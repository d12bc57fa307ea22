import LivioArk.Msgbus.StopReturns

namespace LivioArk.Msgbus.FairDelivery

open Function LivioArk.Library.Transition LivioArk.Library.QueueLog LivioArk.Library.SerialTrace
open LockFreeQueue MessageBus BusSteps AtomicBus WeakBus Lanes Shutdown BusFlow BusWork StopReturns

variable {Pid μ : Type} {cfg : Config μ} {cap capacity : ℕ}

def loopHolds (m : μ) : LoopPc μ → Prop
  | .notify _ m' | .begin _ m' | .dispatching _ m' | .route _ m' => m' = m
  | .unstarted | .head | .poll _ | .wakeWorker _ | .finished => False

def workerHolds (m : μ) : WorkerPc μ → Prop
  | .begin _ m' | .dispatching _ m' => m' = m
  | .unstarted | .head _ | .poll _ | .finished => False

def handLeft : WorkerPc μ → ℕ
  | .begin _ _ => 2
  | .dispatching _ _ => 1
  | .unstarted | .head _ | .poll _ | .finished => 0

section Queues

variable {q : Fifo μ} {m : μ} {j : ℕ}

theorem prefix_get {l l' : List μ} (h : l <+: l') (hj : l[j]? = some m) : l'[j]? = some m := by
  obtain ⟨rest, rfl⟩ := h
  rw [List.getElem?_append_left (List.getElem?_eq_some_iff.mp hj).1]
  exact hj

theorem items_ne_nil (hput : q.put[j]? = some m) (hj : q.got ≤ j) : q.items ≠ [] := by
  intro hnil
  have hlt := (List.getElem?_eq_some_iff.mp hput).1
  rw [Fifo.items_eq_nil_iff] at hnil
  omega

theorem enqueue_pos (h : q.items ≠ []) (m : μ) : 0 < (q.enqueue m).items.length := by
  have hpos := items_pos h
  have hput : (q.enqueue m).put.length = q.put.length + 1 := List.length_append
  have hgot : (q.enqueue m).got = q.got := rfl
  rw [items_length] at hpos ⊢
  omega

theorem mem_taken (hput : q.put[j]? = some m) (hj : j < q.got) : m ∈ q.taken :=
  List.mem_of_getElem? ((List.getElem?_take_of_lt hj).trans hput)

end Queues

theorem lagging_ne_stop (s : Pipeline (Fifo μ) μ) : lagging cfg cap s ≠ .stop := by
  rw [lagging]
  repeat' split
  all_goals exact fun he ↦ by cases he

section Flows

variable {u v : Pipeline (Fifo μ) μ} {who : Option Thread} {m : μ} {i : ℕ}

theorem dequeue_put (q : Fifo μ) : q.dequeue.1.put = q.put := by
  cases hd : q.dequeue with
  | mk q' value =>
    cases value with
    | none => rw [(Fifo.dequeue_none hd).1]
    | some m => exact (dequeue_counts hd).1

section Loop

variable {running_ : Bool} {q q' : Fifo μ} {pc pc' : LoopPc μ} {taken : List μ}
variable {events : List (Dispatch μ)}

theorem loopFlow_put (h : LoopFlow cfg running_ q pc q' pc' taken events) : q'.put = q.put := by
  cases h with
  | take hd => exact (dequeue_counts hd).1
  | _ => rfl

theorem loopFlow_pc (h : LoopFlow cfg running_ q pc q' pc' taken events) :
    pc' ≠ .unstarted ∧ (pc' = .finished → q'.items = []) := by
  cases h with
  | @empty drain hitems =>
    cases drain
    · exact ⟨fun he ↦ (by cases he), fun he ↦ (by cases he)⟩
    · exact ⟨fun he ↦ (by cases he), fun _ ↦ hitems⟩
  | notified => split <;> exact ⟨fun he ↦ (by cases he), fun he ↦ (by cases he)⟩
  | @finish drain | @woke drain =>
    cases drain <;> exact ⟨fun he ↦ (by cases he), fun he ↦ (by cases he)⟩
  | _ => exact ⟨fun he ↦ (by cases he), fun he ↦ (by cases he)⟩

end Loop

section Worker

variable {running_ router_drained_ : Bool} {q q' : Fifo μ} {pc pc' : WorkerPc μ}
variable {events : List (Dispatch μ)}

theorem workerFlow_got (h : WorkerFlow running_ router_drained_ i q pc q' pc' events) :
    q.got ≤ q'.got := by
  cases h with
  | take hd =>
    rw [(dequeue_counts hd).2.1]
    exact Nat.le_succ _
  | _ => exact Nat.le_refl _

theorem workerFlow_hand (h : WorkerFlow running_ router_drained_ i q pc q' pc' events)
    (hm : workerHolds m pc) : handLeft pc' < handLeft pc := by
  cases h with
  | begin => exact Nat.one_lt_two
  | @finish phase => cases phase <;> exact Nat.zero_lt_one
  | _ => exact hm.elim

end Worker

theorem flow_put (h : Flow cfg cap u who v) : u.queue_.put <+: v.queue_.put := by
  cases h with
  | publisher ht =>
    cases ht with
    | same => exact List.prefix_refl _
    | put m => exact List.prefix_append _ _
    | take => exact (dequeue_put u.queue_) ▸ List.prefix_refl _
  | loop hflow => exact (loopFlow_put hflow) ▸ List.prefix_refl _
  | _ => exact List.prefix_refl _

theorem flow_started (h : Flow cfg cap u who v) (hu : u.loop ≠ .unstarted) :
    v.loop ≠ .unstarted := by
  cases h with
  | loop hflow => exact (loopFlow_pc hflow).1
  | start | route => exact fun he ↦ by cases he
  | _ => exact hu

theorem flow_taken (h : Flow cfg cap u who v) : u.taken ⊆ v.taken := by
  cases h with
  | loop => exact List.subset_append_left _ _
  | _ => exact List.Subset.refl _

theorem flow_finished (h : Flow cfg cap u who v) (hv : v.loop = .finished) :
    u.loop = .finished ∨ v.queue_.items = [] := by
  cases h with
  | loop hflow => exact .inr ((loopFlow_pc hflow).2 hv)
  | start | route => cases hv
  | _ => exact .inl hv

theorem flow_lane (h : Flow cfg cap u who v) (i : ℕ) :
    (u.worker_queues_ i).put <+: (v.worker_queues_ i).put := by
  cases h with
  | @route drain m =>
    by_cases hi : i = cfg.worker m
    · simp only [hi, update_self]
      exact List.prefix_append _ _
    · simp only [update_of_ne hi]
      exact List.prefix_refl _
  | @worker w q pc events hw hflow =>
    by_cases hi : i = w
    · simp only [hi, update_self, workerFlow_put hflow]
      exact List.prefix_refl _
    · simp only [update_of_ne hi]
      exact List.prefix_refl _
  | _ => exact List.prefix_refl _

theorem flow_got (h : Flow cfg cap u who v) (i : ℕ) :
    (u.worker_queues_ i).got ≤ (v.worker_queues_ i).got := by
  cases h with
  | @route drain m =>
    by_cases hi : i = cfg.worker m
    · simp only [hi, update_self]
      exact Nat.le_refl _
    · simp only [update_of_ne hi]
      exact Nat.le_refl _
  | @worker w q pc events hw hflow =>
    by_cases hi : i = w
    · simp only [hi, update_self]
      exact workerFlow_got hflow
    · simp only [update_of_ne hi]
      exact Nat.le_refl _
  | _ => exact Nat.le_refl _

theorem flow_lt {i : ℕ} (h : Flow cfg cap u (some (.worker i)) v) : i < cfg.num_dispatchers_ := by
  cases h with
  | worker hi => exact hi

theorem flow_worker (h : Flow cfg cap u who v) (hu : u.loop ≠ .unstarted) (i : ℕ) :
    who ≠ some (.worker i) ∧ v.workers i = u.workers i ∨ who = some (.worker i) ∧
      ∃ events, WorkerFlow u.running_ u.router_drained_ i (u.worker_queues_ i) (u.workers i)
        (v.worker_queues_ i) (v.workers i) events := by
  cases h with
  | start hl => exact absurd hl hu
  | @worker w q pc events hw hflow =>
    by_cases hi : i = w
    · subst hi
      refine .inr ⟨rfl, events, ?_⟩
      simp only [update_self]
      exact hflow
    · refine .inl ⟨fun he ↦ hi (by simpa using he.symm), ?_⟩
      simp only [update_of_ne hi]
  | _ => exact .inl ⟨fun he ↦ (by cases he), rfl⟩

theorem flow_serve (h : Flow cfg cap u who v) (hu : u.loop ≠ .unstarted)
    (hrest : u.stopper = .clear → u.workers i = .unstarted ∨ u.workers i = .finished)
    (hitems : (u.worker_queues_ i).items ≠ []) (hk : (u.worker_queues_ i).got < k) :
    serveLeft v.running_ v.router_drained_ k (v.worker_queues_ i) (v.workers i) <
        serveLeft u.running_ u.router_drained_ k (u.worker_queues_ i) (u.workers i) ∨
      serveLeft v.running_ v.router_drained_ k (v.worker_queues_ i) (v.workers i) ≤
          serveLeft u.running_ u.router_drained_ k (u.worker_queues_ i) (u.workers i) ∧
        who ≠ some (.worker i) := by
  cases h with
  | publisher | loop | full => exact .inr ⟨Nat.le_refl _, fun he ↦ by cases he⟩
  | start hl => exact absurd hl hu
  | @route drain m hl hroom =>
    refine .inr ⟨?_, fun he ↦ by cases he⟩
    by_cases hi : i = cfg.worker m
    · subst hi
      simp only [update_self, serveLeft]
      rw [workerLeft_pos (items_pos hitems) (enqueue_pos hitems m)]
      exact Nat.le_refl _
    · simp only [update_of_ne hi]
      exact Nat.le_refl _
  | @worker w q pc events hw hflow =>
    by_cases hi : i = w
    · subst hi
      simp only [update_self]
      refine .inl ((workerFlow_left hflow fun _ _ ↦ hk).resolve_right fun he ↦ ?_)
      exact hitems he.2.1
    · simp only [update_of_ne hi]
      exact .inr ⟨Nat.le_refl _, fun he ↦ hi (by simpa using he.symm)⟩
  | stop hflow =>
    exact .inr ⟨Nat.add_le_add_right (stopFlow_worker hflow _ hrest) _, fun he ↦ by cases he⟩

end Flows

variable [DecidableEq Pid] [DecidableEq μ] {s t : Bus (Fifo μ) Pid μ} {m : μ} {i j n : ℕ}

section States

variable (h : (AtomicBus.machine Pid cfg capacity).Reachable s)

include h

/-- Without `DropOldest` only the loop takes messages. -/
theorem got_taken (hpolicy : cfg.policy_ ≠ .DropOldest) (hput : s.queue_.put[j]? = some m)
    (hj : j < s.queue_.got) : m ∈ s.taken := by
  have hcomplete := (closing h).lanes.fetched.complete hpolicy
  have hcomplete : s.taken ++ [] = s.queue_.taken := hcomplete
  rw [List.append_nil] at hcomplete
  rw [hcomplete]
  exact mem_taken hput hj

/-- What the loop has taken and no longer has in its hand is handled, or in the
queue of its worker. -/
theorem released (hm : m ∈ s.taken) (hfree : ¬ loopHolds m s.loop) :
    .finish (cfg.worker m) m ∈ s.events ∨
      cfg.num_dispatchers_ ≠ 1 ∧ m ∈ (s.worker_queues_ (cfg.worker m)).put := by
  have hlanes := (closing h).lanes
  by_cases hN : cfg.num_dispatchers_ = 1
  · refine .inl ?_
    obtain ⟨done, hdone, htrace⟩ := (hlanes.alone hN).serves
    have hdone : s.taken = done ++ (loopHand s.loop).jobs := hdone
    have hzero : cfg.worker m = 0 := by rw [Config.worker, hN, Nat.mod_one]
    rw [hdone] at hm
    rcases List.mem_append.mp hm with hm | hm
    · rw [hzero]
      apply mem_trace_finish.mp
      rw [show trace 0 s.events = _ from htrace]
      exact List.mem_append_left _ (mem_spans_finish.mpr hm)
    · exfalso
      cases hl : s.loop with
      | notify | begin | dispatching =>
        rw [hl] at hm hfree
        exact hfree (List.mem_singleton.mp hm).symm
      | _ =>
        rw [hl] at hm
        cases hm
  · refine .inr ⟨hN, ?_⟩
    have hcomplete := (hlanes.routed hN).complete (cfg.worker m)
    have hcomplete : (s.worker_queues_ (cfg.worker m)).put ++ lane cfg (cfg.worker m)
        (carried cfg (pipeline (weaken s)).worker_queues_ s.loop) =
          lane cfg (cfg.worker m) s.taken := hcomplete
    have hin : m ∈ lane cfg (cfg.worker m) s.taken := mem_lane.mpr ⟨hm, rfl⟩
    rw [← hcomplete] at hin
    rcases List.mem_append.mp hin with hin | hin
    · exact hin
    · exfalso
      have hin := (mem_lane.mp hin).1
      cases hl : s.loop with
      | notify | route =>
        rw [hl] at hin hfree
        exact hfree (List.mem_singleton.mp hin).symm
      | _ =>
        rw [hl] at hin
        cases hin

theorem served (hN : cfg.num_dispatchers_ ≠ 1) (hm : m ∈ (s.worker_queues_ i).taken)
    (hfree : ¬ workerHolds m (s.workers i)) : .finish i m ∈ s.events := by
  obtain ⟨done, hdone, htrace⟩ := (closing h).lanes.served hN i
  have hdone : (s.worker_queues_ i).taken = done ++ (workerHand none (s.workers i)).jobs := hdone
  rw [hdone] at hm
  rcases List.mem_append.mp hm with hm | hm
  · apply mem_trace_finish.mp
    rw [show trace i s.events = _ from htrace]
    exact List.mem_append_left _ (mem_spans_finish.mpr hm)
  · exfalso
    cases hw : s.workers i with
    | begin | dispatching =>
      rw [hw] at hm hfree
      exact hfree (List.mem_singleton.mp hm).symm
    | _ =>
      rw [hw] at hm
      cases hm

end States

section Runs

variable (b : Behaviour (AtomicBus.machine Pid cfg capacity))

/-- Where the loop has something to do it comes to the end of it, with the help of
the workers. -/
theorem loop_leads (hfair : ∀ th ≠ .stop, b.Fair fun a ↦ doer a = some th) {k : ℕ}
    {P Q : Bus (Fifo μ) Pid μ → Prop}
    (hbusy : ∀ s, (AtomicBus.machine Pid cfg capacity).Reachable s → P s → ¬ Q s →
      Busy cfg k (pipeline s) ∧ s.loop ≠ .finished)
    (hP : ∀ m ≥ n, P (b.state m)) : ∃ m ≥ n, Q (b.state m) := by
  have hcap := storedCapacity_pos capacity
  refine b.eventually (P := fun s ↦ (AtomicBus.machine Pid cfg capacity).Reachable s ∧ P s)
    (Q := Q) (fun th a ↦ doer a = some th)
    (fun s ↦ lagging cfg (storedCapacity capacity) (pipeline s))
    (fun s ↦ work cfg k (pipeline s)) (fun _ _ _ ↦ hfair _ (lagging_ne_stop _)) ?_ ?_
    fun m hm ↦ ⟨b.reachable m, hP m hm⟩
  · rintro s ⟨h, hP⟩ hQ
    obtain ⟨hbusy, hf⟩ := hbusy s h hP hQ
    exact lagging_enabled h hbusy.started hf
  · rintro s a t ⟨h, hP⟩ - hQ hst
    obtain ⟨hbusy, -⟩ := hbusy s h hP hQ
    rcases flow_work (step_flow hst) hbusy with hless | ⟨hle, hidle⟩
    · exact .inr (.inl hless)
    · rcases Nat.lt_or_eq_of_le hle with hless | heq
      · exact .inr (.inl hless)
      · exact .inr (.inr ⟨heq, lagging_idle hidle, lagging_works hidle hcap⟩)

theorem started_stable (hu : (b.state n).loop ≠ .unstarted) :
    ∀ l ≥ n, (b.state l).loop ≠ .unstarted :=
  b.stable (P := fun s ↦ s.loop ≠ .unstarted) (fun _ _ _ _ hu hst ↦
    flow_started (step_flow hst) hu) hu

theorem taken_stable (hm : m ∈ (b.state n).taken) : ∀ l ≥ n, m ∈ (b.state l).taken :=
  b.stable (P := fun s ↦ m ∈ s.taken) (fun _ _ _ _ hm hst ↦ flow_taken (step_flow hst) hm) hm

theorem lane_stable (hm : ((b.state n).worker_queues_ i).put[j]? = some m) :
    ∀ l ≥ n, ((b.state l).worker_queues_ i).put[j]? = some m :=
  b.stable (P := fun s ↦ (s.worker_queues_ i).put[j]? = some m)
    (fun _ _ _ _ hput hst ↦ prefix_get (flow_lane (step_flow hst) i) hput) hm

theorem got_mono (i : ℕ) :
    ∀ l ≥ n, ((b.state n).worker_queues_ i).got ≤ ((b.state l).worker_queues_ i).got :=
  b.stable (P := fun s ↦ ((b.state n).worker_queues_ i).got ≤ (s.worker_queues_ i).got)
    (fun _ _ _ _ hgot hst ↦ Nat.le_trans hgot (flow_got (step_flow hst) i)) (Nat.le_refl _)

/-- A message in the queue of a loop that is not over is taken. -/
theorem put_taken (hfair : ∀ th ≠ .stop, b.Fair fun a ↦ doer a = some th)
    (hpolicy : cfg.policy_ ≠ .DropOldest) (hu : (b.state n).loop ≠ .unstarted)
    (hf : (b.state n).loop ≠ .finished) (hm : m ∈ (b.state n).queue_.put) :
    ∃ l ≥ n, m ∈ (b.state l).taken := by
  obtain ⟨j, hj⟩ := List.mem_iff_getElem?.mp hm
  have hstable : ∀ l ≥ n, (b.state l).queue_.put[j]? = some m ∧
      ((b.state l).loop = .finished → m ∈ (b.state l).taken) := by
    refine b.stable (P := fun s ↦ s.queue_.put[j]? = some m ∧ (s.loop = .finished → m ∈ s.taken))
      ?_ ⟨hj, fun he ↦ absurd he hf⟩
    rintro s a t h ⟨hput, hfinished⟩ hst
    have hflow := step_flow hst
    have hput' : t.queue_.put[j]? = some m := prefix_get (flow_put hflow) hput
    refine ⟨hput', fun hl ↦ ?_⟩
    rcases flow_finished hflow hl with hl' | hitems
    · exact flow_taken hflow (hfinished hl')
    · refine got_taken (h.next trivial hst) hpolicy hput' (Nat.lt_of_not_le fun hle ↦ ?_)
      exact items_ne_nil hput' hle hitems
  refine loop_leads b hfair (k := j + 1)
    (P := fun s ↦ s.loop ≠ .unstarted ∧ s.queue_.put[j]? = some m ∧
      (s.loop = .finished → m ∈ s.taken)) (Q := fun s ↦ m ∈ s.taken) ?_
    fun l hl ↦ ⟨started_stable b hu l hl, hstable l hl⟩
  rintro s h ⟨hu, hput, hfinished⟩ hnot
  have hgot : s.queue_.got ≤ j :=
    Nat.le_of_not_lt fun hlt ↦ hnot (got_taken h hpolicy hput hlt)
  refine ⟨⟨hu, fun _ _ _ ↦ Nat.lt_succ_of_le hgot, fun _ ↦ .inr (items_ne_nil hput hgot),
    fun hclear i hi ↦ clear_rests h hi hclear⟩, fun hl ↦ hnot (hfinished hl)⟩

theorem loop_releases (hfair : ∀ th ≠ .stop, b.Fair fun a ↦ doer a = some th) (m : μ) (n : ℕ) :
    ∃ l ≥ n, ¬ loopHolds m (b.state l).loop := by
  refine loop_leads b hfair (k := 0) (P := fun _ ↦ True) (Q := fun s ↦ ¬ loopHolds m s.loop) ?_
    fun _ _ ↦ trivial
  rintro s h - hholds
  have hholds : loopHolds m s.loop := not_not.mp hholds
  have hne : ∀ pc : LoopPc μ, ¬ loopHolds m pc → s.loop ≠ pc :=
    fun pc hpc he ↦ hpc (he ▸ hholds)
  exact ⟨⟨hne _ id, fun drain hl ↦ absurd hl (hne (.poll drain) id),
    fun hl ↦ absurd hl (hne (.poll false) id), fun hclear i hi ↦ clear_rests h hi hclear⟩,
    hne .finished id⟩

theorem lane_taken (hfair : ∀ th ≠ .stop, b.Fair fun a ↦ doer a = some th)
    (hN : cfg.num_dispatchers_ ≠ 1) (hi : i < cfg.num_dispatchers_)
    (hu : (b.state n).loop ≠ .unstarted) (hm : ((b.state n).worker_queues_ i).put[j]? = some m) :
    ∃ l ≥ n, j < ((b.state l).worker_queues_ i).got := by
  refine b.eventually
    (P := fun s ↦ (AtomicBus.machine Pid cfg capacity).Reachable s ∧ s.loop ≠ .unstarted ∧
      (s.worker_queues_ i).put[j]? = some m)
    (Q := fun s ↦ j < (s.worker_queues_ i).got) (fun th a ↦ doer a = some th)
    (fun _ ↦ .worker i)
    (fun s ↦ serveLeft s.running_ s.router_drained_ (j + 1) (s.worker_queues_ i) (s.workers i))
    (fun _ _ _ ↦ hfair (.worker i) fun he ↦ by cases he) ?_ ?_
    fun l hl ↦ ⟨b.reachable l, started_stable b hu l hl, lane_stable b hm l hl⟩
  · rintro s ⟨h, hu, hput⟩ hnot
    have hitems := items_ne_nil hput (Nat.le_of_not_lt hnot)
    have halive := alive h
    refine worker_enabled hi (halive.awake hN hu i) (fun hw ↦ ?_) (halive.phase i)
    exact hitems ((closing h).emptied i (.inl hw))
  · rintro s a t ⟨h, hu, hput⟩ - hnot hst
    have hgot := Nat.le_of_not_lt hnot
    rcases flow_serve (step_flow hst) hu (fun hclear ↦ clear_rests h hi hclear)
      (items_ne_nil hput hgot) (Nat.lt_succ_of_le hgot) with hless | ⟨hle, hwho⟩
    · exact .inr (.inl hless)
    · rcases Nat.lt_or_eq_of_le hle with hless | heq
      · exact .inr (.inl hless)
      · exact .inr (.inr ⟨heq, rfl, hwho⟩)

theorem worker_releases (hfair : ∀ th ≠ .stop, b.Fair fun a ↦ doer a = some th)
    (hi : i < cfg.num_dispatchers_) (hu : (b.state n).loop ≠ .unstarted) (m : μ) :
    ∃ l ≥ n, ¬ workerHolds m ((b.state l).workers i) := by
  refine b.eventually
    (P := fun s ↦ (AtomicBus.machine Pid cfg capacity).Reachable s ∧ s.loop ≠ .unstarted)
    (Q := fun s ↦ ¬ workerHolds m (s.workers i)) (fun th a ↦ doer a = some th)
    (fun _ ↦ .worker i) (fun s ↦ handLeft (s.workers i))
    (fun _ _ _ ↦ hfair (.worker i) fun he ↦ by cases he) ?_ ?_
    fun l hl ↦ ⟨b.reachable l, started_stable b hu l hl⟩
  · rintro s ⟨h, hu⟩ hholds
    have hholds : workerHolds m (s.workers i) := not_not.mp hholds
    have hne : ∀ pc : WorkerPc μ, ¬ workerHolds m pc → s.workers i ≠ pc :=
      fun pc hpc he ↦ hpc (he ▸ hholds)
    exact worker_enabled hi (hne .unstarted id) (hne .finished id) (hne (.head .final) id)
  · rintro s a t ⟨h, hu⟩ - hholds hst
    have hholds : workerHolds m (s.workers i) := not_not.mp hholds
    rcases flow_worker (step_flow hst) hu i with ⟨hwho, hsame⟩ | ⟨-, events, hflow⟩
    · have hsame : t.workers i = s.workers i := hsame
      exact .inr (.inr ⟨by rw [hsame], rfl, hwho⟩)
    · exact .inr (.inl (workerFlow_hand hflow hholds))

/-- In every run in which the threads get their turns a message that is in the
queue of a running or draining bus is handled, by the worker of its topic. -/
theorem put_handled (hfair : ∀ th ≠ .stop, b.Fair fun a ↦ doer a = some th)
    (hpolicy : cfg.policy_ ≠ .DropOldest) (hu : (b.state n).loop ≠ .unstarted)
    (hf : (b.state n).loop ≠ .finished) (hm : m ∈ (b.state n).queue_.put) :
    ∃ l ≥ n, .finish (cfg.worker m) m ∈ (b.state l).events := by
  obtain ⟨l, hl, htaken⟩ := put_taken b hfair hpolicy hu hf hm
  obtain ⟨l', hl', hfree⟩ := loop_releases b hfair m l
  have hle := Nat.le_trans hl hl'
  rcases released (b.reachable l') (taken_stable b htaken l' hl') hfree with hdone | ⟨hN, hlane⟩
  · exact ⟨l', hle, hdone⟩
  · obtain ⟨j, hj⟩ := List.mem_iff_getElem?.mp hlane
    have hi := worker_lt cfg m
    have hu' := started_stable b hu l' hle
    obtain ⟨k, hk, hgot⟩ := lane_taken b hfair hN hi hu' hj
    obtain ⟨l'', hl'', hfree⟩ := worker_releases b hfair hi (started_stable b hu' k hk) m
    have hput := lane_stable b hj l'' (Nat.le_trans hk hl'')
    have htaken := mem_taken hput (Nat.lt_of_lt_of_le hgot (got_mono b _ l'' hl''))
    exact ⟨l'', Nat.le_trans (Nat.le_trans hle hk) hl'', served (b.reachable l'') hN htaken hfree⟩

end Runs

section Polling

variable {s : Bus (Fifo μ) Pid μ}

theorem loop_round (hl : s.loop = .head) (hrunning : s.running_ = true)
    (hq : s.queue_.items = []) :
    (AtomicBus.machine Pid cfg capacity).run s [.thread (.loop none), .queue .loop] = some s := by
  have hnone : s.queue_.dequeue = (s.queue_, none) := by rw [Fifo.dequeue, hq]
  simp only [Machine.run, AtomicBus.machine, AtomicBus.step, Bus.localStep, Bus.loopStep, hl,
    hrunning, AtomicBus.queueStep, Bus.request, Option.bind_some, AtomicBus.exec, Bus.queue, hnone,
    Bus.setQueue, Bus.resume, Bus.resumeLoop, Bool.not_true, Bool.false_eq_true, if_false]
  rw [← hl, ← hrunning]

theorem worker_round {i : ℕ} (hi : i < cfg.num_dispatchers_) (hw : s.workers i = .head .running)
    (hrunning : s.running_ = true) (hq : (s.worker_queues_ i).items = []) :
    (AtomicBus.machine Pid cfg capacity).run s [.thread (.worker i), .queue (.worker i)] =
      some s := by
  have hnone : (s.worker_queues_ i).dequeue = (s.worker_queues_ i, none) := by
    rw [Fifo.dequeue, hq]
  have hback : update s.workers i (.head .running) = s.workers := by rw [← hw, update_eq_self]
  simp only [Machine.run, AtomicBus.machine, AtomicBus.step, Bus.localStep, Bus.workerStep, hi, hw,
    hrunning, AtomicBus.queueStep, Bus.request, Option.bind_some, AtomicBus.exec, Bus.queue, hnone,
    Bus.setQueue, Bus.resume, Bus.resumeWorker, update_self, update_idem, update_eq_self, hback,
    if_true]
  rw [← hrunning]

/-- There is no such thread. -/
theorem worker_absent {i : ℕ} (hi : cfg.num_dispatchers_ ≤ i) {a : BusAction Pid μ}
    (ha : doer a = some (.worker i)) : AtomicBus.step cfg cap s a = none := by
  cases hst : AtomicBus.step cfg cap s a with
  | none => rfl
  | some t =>
    have hflow := step_flow hst
    rw [ha] at hflow
    exact absurd (flow_lt hflow) (Nat.not_lt.mpr hi)

end Polling

def polls : List (BusAction Bool ℕ) :=
  [.thread (.loop none), .queue .loop] ++ ([.thread (.worker 0), .queue (.worker 0)] ++
    [.thread (.worker 1), .queue (.worker 1)])

theorem polls_own {s : Bus (Fifo ℕ) Bool ℕ} {th : Thread} (hne : th ≠ .stop) :
    (∃ a ∈ polls, doer a = some th) ∨ ∀ a, doer a = some th →
      (AtomicBus.machine Bool Ordering.twoWorkersConfig 2).step s a = none := by
  cases th with
  | loop => exact .inl ⟨.queue .loop, by simp [polls], rfl⟩
  | worker i =>
    match i with
    | 0 => exact .inl ⟨.queue (.worker 0), by simp [polls], rfl⟩
    | 1 => exact .inl ⟨.queue (.worker 1), by simp [polls], rfl⟩
    | i + 2 => exact .inr fun a ha ↦ worker_absent (Nat.le_add_left 2 i) ha
  | stop => exact absurd rfl hne

/-- Two messages are in the queue when the router starts, and nobody ever calls
`stop`. -/
theorem put_handled_polling :
    ∃ b : Behaviour (AtomicBus.machine Bool Ordering.twoWorkersConfig 2),
      (∀ n, b.action n ≠ some (.thread .stop)) ∧ (b.state 9).queue_.put = [0, 1] ∧
        (b.state 9).events = [] ∧ ∃ l ≥ 9, .finish 1 1 ∈ (b.state l).events := by
  have hrun : ((AtomicBus.machine Bool Ordering.twoWorkersConfig 2).run (.initial .empty)
      Ordering.sameTopic).map (fun s ↦ (s.running_, s.loop, s.queue_.items,
        (s.workers 0, (s.worker_queues_ 0).items), s.workers 1, (s.worker_queues_ 1).items)) =
      some (true, .head, [], (.head .running, []), .head .running, []) := rfl
  obtain ⟨t, ht, he⟩ := Option.map_eq_some_iff.mp hrun
  simp only [Prod.mk.injEq] at he
  obtain ⟨hrunning, hl, hq, ⟨hw, hwq⟩, hw', hwq'⟩ := he
  have hstart : (AtomicBus.machine Bool Ordering.twoWorkersConfig 2).init (.initial .empty) := rfl
  have hround : (AtomicBus.machine Bool Ordering.twoWorkersConfig 2).run t polls = some t := by
    rw [polls, Machine.run_append, loop_round hl hrunning hq, Option.bind_some,
      Machine.run_append, worker_round Nat.two_pos hw hrunning hwq, Option.bind_some]
    exact worker_round Nat.one_lt_two hw' hrunning hwq'
  have hlength : 0 < polls.length := by decide
  refine ⟨.ofLasso hstart ht hround hlength, fun n hn ↦ ?_, rfl, rfl,
    put_handled _ (fun th hne ↦ Behaviour.fair_ofLasso hstart ht hround hlength (polls_own hne))
      (fun he ↦ by cases he) (n := 9) (fun he ↦ by cases he) (fun he ↦ by cases he)
      (List.mem_of_getElem? (i := 1) rfl)⟩
  have hmem := Behaviour.mem_of_ofLasso hstart ht hround hlength hn
  revert hmem
  simp [Ordering.sameTopic, polls]

end LivioArk.Msgbus.FairDelivery
