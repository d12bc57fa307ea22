import LivioArk.Msgbus.MessageBus

namespace LivioArk.Msgbus.BusSteps

open Function LockFreeQueue MessageBus

variable {Q Pid μ : Type}

inductive Stage
  | waiting
  | rejected
  | dropping
  | settled
  deriving DecidableEq

def stage : PubPc μ → Option (μ × Stage)
  | .idle => none
  | .tryEnqueue m | .lockPublish m | .tryDropping m | .takeOldest m | .dropOldest m _
  | .lockWait m | .checkRunning m _ | .tryWaiting m _ | .park m | .parked m | .relock m _ =>
    some (m, .waiting)
  | .notifyDrop m => some (m, .dropping)
  | .unlockWait m enqueued => some (m, if enqueued then .settled else .rejected)
  | .wakeDispatcher m => some (m, .settled)
  | .returning m result => some (m, if result then .settled else .rejected)

/-- The message that a publisher has taken in hand to discard it. -/
def dropping : PubPc μ → Option μ
  | .notifyDrop m => some m
  | .dropOldest _ oldest => some oldest
  | _ => none

/-- Between locking and unlocking `publish_mutex_`. -/
def critical : PubPc μ → Bool
  | .tryDropping _ | .takeOldest _ | .dropOldest _ _ | .wakeDispatcher _ | .returning _ _ => true
  | _ => false

/-- Which policy brings a publisher to which point. -/
def fits (policy : FullPolicy) : PubPc μ → Prop
  | .tryEnqueue _ => policy ≠ .DropOldest
  | .lockPublish _ | .tryDropping _ | .takeOldest _ | .dropOldest _ _ => policy = .DropOldest
  | .notifyDrop _ => policy = .DropNewest
  | .lockWait _ | .checkRunning _ _ | .tryWaiting _ _ | .park _ | .parked _ | .relock _ _
  | .unlockWait _ _ => policy = .Block ∨ policy = .BlockTimeout
  | .returning _ result => result = true ∨ policy ≠ .DropOldest
  | .idle | .wakeDispatcher _ => True

/-- What the loops and `stop` read and write. No step of a publisher but a
queue operation changes it. -/
structure Pipeline (Q μ : Type) where
  queue_ : Q
  worker_queues_ : ℕ → Q
  running_ : Bool
  router_drained_ : Bool
  loop : LoopPc μ
  workers : ℕ → WorkerPc μ
  stopper : StopPc
  taken : List μ
  events : List (Dispatch μ)
  accepted : List μ

def pipeline (s : Bus Q Pid μ) : Pipeline Q μ :=
  ⟨s.queue_, s.worker_queues_, s.running_, s.router_drained_, s.loop, s.workers, s.stopper,
    s.taken, s.events, s.accepted⟩

structure Ledger (μ : Type) where
  offered : List μ
  results : List (μ × Bool)
  dropped : List μ
  callbacks : List μ
  on_drop_ : μ → Bool

def ledger (s : Bus Q Pid μ) : Ledger μ :=
  ⟨s.offered, s.results, s.dropped, s.callbacks, s.on_drop_⟩

variable {cfg : Config μ} {policy : FullPolicy}

section Program

variable {pc pc' : PubPc μ}

theorem stage_woken (last : Bool) (pc : PubPc μ) : stage (pc.woken last) = stage pc := by
  cases pc <;> rfl

theorem dropping_woken (last : Bool) (pc : PubPc μ) : dropping (pc.woken last) = dropping pc := by
  cases pc <;> rfl

theorem request_woken (last : Bool) (pc : PubPc μ) : (pc.woken last).request = pc.request := by
  cases pc <;> rfl

theorem fits_woken {last : Bool} (h : fits policy pc) : fits policy (pc.woken last) := by
  cases pc <;> exact h

theorem fits_resume {resp : Resp μ} (h : fits policy pc) (hr : pc.resume policy resp = some pc') :
    fits policy pc' := by
  cases pc with
  | tryEnqueue m =>
    cases resp with
    | enqueued ok =>
      cases ok
      · cases policy <;> cases hr
        · exact .inr h
        · exact absurd rfl h
        · exact rfl
        · exact .inl rfl
        · exact .inr rfl
      · cases hr; trivial
    | dequeued value => cases hr
  | tryDropping m =>
    cases resp with
    | enqueued ok => cases ok <;> cases hr <;> first | exact h | trivial
    | dequeued value => cases hr
  | takeOldest m =>
    cases resp with
    | enqueued ok => cases ok <;> cases hr
    | dequeued value => cases value <;> cases hr <;> exact h
  | tryWaiting m last =>
    cases resp with
    | enqueued ok => cases ok <;> cases last <;> cases hr <;> exact h
    | dequeued value => cases hr
  | _ => cases hr

theorem resume_enqueued (h : pc.resume policy (.enqueued true) = some pc') :
    ∃ m, pc.request = some (.tryEnqueue m) ∧ stage pc = some (m, .waiting) ∧
      dropping pc = none ∧ stage pc' = some (m, .settled) ∧ dropping pc' = none := by
  cases pc with
  | tryEnqueue m => cases h; exact ⟨m, rfl, rfl, rfl, rfl, rfl⟩
  | tryDropping m => cases h; exact ⟨m, rfl, rfl, rfl, rfl, rfl⟩
  | tryWaiting m last => cases h; exact ⟨m, rfl, rfl, rfl, rfl, rfl⟩
  | _ => cases h

/-- After a failed `try_enqueue` the message still waits, is refused or is
about to be discarded. -/
theorem resume_full (h : pc.resume policy (.enqueued false) = some pc') :
    ∃ m, pc.request = some (.tryEnqueue m) ∧ stage pc = some (m, .waiting) ∧
      dropping pc = none ∧
      (stage pc' = some (m, .waiting) ∧ dropping pc' = none ∨
        stage pc' = some (m, .rejected) ∧ dropping pc' = none ∧
          (fits policy pc → policy ≠ .DropNewest ∧ policy ≠ .DropOldest) ∨
        pc' = .notifyDrop m ∧ policy = .DropNewest) := by
  cases pc with
  | tryEnqueue m =>
    refine ⟨m, rfl, rfl, rfl, ?_⟩
    cases policy <;> cases h
    · exact .inr (.inl ⟨rfl, rfl, fun _ ↦ ⟨by decide, by decide⟩⟩)
    · exact .inr (.inl ⟨rfl, rfl, fun h ↦ absurd rfl h⟩)
    · exact .inr (.inr ⟨rfl, rfl⟩)
    · exact .inl ⟨rfl, rfl⟩
    · exact .inl ⟨rfl, rfl⟩
  | tryDropping m =>
    cases h
    exact ⟨m, rfl, rfl, rfl, .inl ⟨rfl, rfl⟩⟩
  | tryWaiting m last =>
    refine ⟨m, rfl, rfl, rfl, ?_⟩
    cases last <;> cases h
    · exact .inl ⟨rfl, rfl⟩
    · refine .inr (.inl ⟨rfl, rfl, ?_⟩)
      rintro (rfl | rfl) <;> exact ⟨by decide, by decide⟩
  | _ => cases h

theorem resume_dequeued {value : Option μ} (h : pc.resume policy (.dequeued value) = some pc') :
    ∃ m, pc = .takeOldest m ∧ stage pc' = some (m, .waiting) ∧ dropping pc' = value := by
  cases pc with
  | takeOldest m => cases value <;> cases h <;> exact ⟨m, rfl, rfl, rfl⟩
  | _ => cases h

end Program

variable {s t : Bus Q Pid μ}

section Frame

variable [DecidableEq μ]

@[simp] theorem pipeline_notify_drop (m : μ) : pipeline (s.notify_drop m) = pipeline s := by
  unfold Bus.notify_drop
  split <;> rfl

@[simp] theorem pipeline_drop (m : μ) : pipeline (s.drop m) = pipeline s :=
  pipeline_notify_drop m

@[simp] theorem publishers_notify_drop (m : μ) : (s.notify_drop m).publishers = s.publishers := by
  unfold Bus.notify_drop
  split <;> rfl

@[simp] theorem publishers_drop (m : μ) : (s.drop m).publishers = s.publishers :=
  publishers_notify_drop m

@[simp] theorem offered_drop (m : μ) : (s.drop m).offered = s.offered := by
  unfold Bus.drop Bus.notify_drop
  split <;> rfl

@[simp] theorem results_drop (m : μ) : (s.drop m).results = s.results := by
  unfold Bus.drop Bus.notify_drop
  split <;> rfl

@[simp] theorem dropped_drop (m : μ) : (s.drop m).dropped = s.dropped ++ [m] := by
  unfold Bus.drop Bus.notify_drop
  split <;> rfl

end Frame

/-- Between `s` and `t` some parked publishers may have been woken up, and
nothing else has happened to the publishers. -/
structure Woken (s t : Bus Q Pid μ) : Prop where
  ledger : ledger t = ledger s
  mutex : t.publish_mutex_ = s.publish_mutex_
  discarded : t.discarded = s.discarded
  publishers : ∀ p, t.publishers p = s.publishers p ∨
    ∃ last, t.publishers p = (s.publishers p).woken last

theorem Woken.stage_eq (h : Woken s t) (p : Pid) :
    stage (t.publishers p) = stage (s.publishers p) := by
  rcases h.publishers p with h | ⟨last, h⟩
  · rw [h]
  · rw [h, stage_woken]

theorem Woken.fits (h : Woken s t) {p : Pid} (hf : fits policy (s.publishers p)) :
    fits policy (t.publishers p) := by
  rcases h.publishers p with h | ⟨last, h⟩
  · rw [h]
    exact hf
  · rw [h]
    exact fits_woken hf

theorem Woken.dropping_eq (h : Woken s t) (p : Pid) :
    dropping (t.publishers p) = dropping (s.publishers p) := by
  rcases h.publishers p with h | ⟨last, h⟩
  · rw [h]
  · rw [h, dropping_woken]

theorem Woken.request_eq (h : Woken s t) (p : Pid) :
    (t.publishers p).request = (s.publishers p).request := by
  rcases h.publishers p with h | ⟨last, h⟩
  · rw [h]
  · rw [h, request_woken]

theorem woken_of_eq (hl : ledger t = ledger s) (hm : t.publish_mutex_ = s.publish_mutex_)
    (hd : t.discarded = s.discarded) (hp : t.publishers = s.publishers) : Woken s t :=
  ⟨hl, hm, hd, fun p ↦ .inl (congrFun hp p)⟩

/-- Under `DropOldest` nobody waits, so nobody is woken up. -/
theorem publishers_of_woken (hw : Woken s t) (hf : ∀ p, fits .DropOldest (s.publishers p)) :
    t.publishers = s.publishers := by
  funext p
  rcases hw.publishers p with h | ⟨last, h⟩
  · exact h
  · rw [h]
    have hfp := hf p
    cases hpc : s.publishers p with
    | parked m =>
      rw [hpc] at hfp
      rcases hfp with hfp | hfp <;> cases hfp
    | _ => rfl

theorem resumeLoop_woken {resp : Resp μ} (h : s.resumeLoop resp = some t) : Woken s t := by
  unfold Bus.resumeLoop at h
  split at h
  · cases h; exact woken_of_eq rfl rfl rfl rfl
  · cases h; exact woken_of_eq rfl rfl rfl rfl
  · cases h; exact woken_of_eq rfl rfl rfl rfl
  · cases h; exact woken_of_eq rfl rfl rfl rfl
  · cases h

theorem resumeWorker_woken {i : ℕ} {resp : Resp μ} (h : s.resumeWorker i resp = some t) :
    Woken s t := by
  unfold Bus.resumeWorker at h
  split at h
  · cases h; exact woken_of_eq rfl rfl rfl rfl
  · cases h; exact woken_of_eq rfl rfl rfl rfl
  · cases h; exact woken_of_eq rfl rfl rfl rfl
  · cases h

theorem start_woken [DecidableEq μ] (h : s.start cfg = some t) : Woken s t := by
  unfold Bus.start at h
  split at h
  · cases h
    exact woken_of_eq rfl rfl rfl rfl
  · cases h

theorem workerStep_woken {i : ℕ} (h : s.workerStep cfg i = some t) : Woken s t := by
  unfold Bus.workerStep at h
  split at h
  · split at h
    · cases h; exact woken_of_eq rfl rfl rfl rfl
    · cases h; exact woken_of_eq rfl rfl rfl rfl
    · cases h; exact woken_of_eq rfl rfl rfl rfl
    · cases h; exact woken_of_eq rfl rfl rfl rfl
    all_goals cases h
  · cases h

section Waking

variable [DecidableEq Pid] {p : Pid}

@[simp] theorem pipeline_goto (p : Pid) (pc : PubPc μ) : pipeline (s.goto p pc) = pipeline s := rfl

@[simp] theorem pipeline_unpark (p : Pid) (last : Bool) :
    pipeline (s.unpark p last) = pipeline s := rfl

@[simp] theorem ledger_goto (p : Pid) (pc : PubPc μ) : ledger (s.goto p pc) = ledger s := rfl

theorem woken_unpark (p : Pid) (last : Bool) : Woken s (s.unpark p last) := by
  refine ⟨rfl, rfl, rfl, fun q ↦ ?_⟩
  by_cases hq : q = p
  · subst hq
    exact .inr ⟨last, update_self _ _ _⟩
  · exact .inl (update_of_ne hq _ _)

theorem woken_notify_all : Woken s s.notify_all := by
  refine ⟨rfl, rfl, rfl, fun q ↦ ?_⟩
  simp only [Bus.notify_all]
  split
  · exact .inr ⟨false, rfl⟩
  · exact .inl rfl

theorem notifyNotFull_frame {waiter : Option Pid} (h : s.notifyNotFull cfg waiter = some t) :
    Woken s t ∧ pipeline t = pipeline s := by
  have hone : ∀ w, s.notify_one w = some t → Woken s t ∧ pipeline t = pipeline s := by
    intro w hw
    unfold Bus.notify_one at hw
    split at hw
    · split at hw
      · cases hw
        exact ⟨woken_of_eq rfl rfl rfl rfl, rfl⟩
      · cases hw
    · split at hw
      · cases hw
        exact ⟨woken_unpark _ _, rfl⟩
      · cases hw
  unfold Bus.notifyNotFull at h
  split at h
  · exact hone _ h
  · exact hone _ h
  · split at h
    · cases h
      exact ⟨woken_of_eq rfl rfl rfl rfl, rfl⟩
    · cases h

theorem timeout_frame (h : s.timeout cfg p = some t) : Woken s t ∧ pipeline t = pipeline s := by
  unfold Bus.timeout at h
  split at h
  · cases h
    exact ⟨woken_unpark _ _, rfl⟩
  · cases h

theorem spurious_frame (h : s.spurious p = some t) : Woken s t ∧ pipeline t = pipeline s := by
  unfold Bus.spurious at h
  split at h
  · cases h
    exact ⟨woken_unpark _ _, rfl⟩
  · cases h

theorem loopStep_woken {waiter : Option Pid} (h : s.loopStep cfg waiter = some t) : Woken s t := by
  unfold Bus.loopStep at h
  split at h
  · cases h; exact woken_of_eq rfl rfl rfl rfl
  · simp only [Option.map_eq_some_iff] at h
    obtain ⟨u, hu, rfl⟩ := h
    have hw := (notifyNotFull_frame hu).1
    exact ⟨hw.ledger, hw.mutex, hw.discarded, hw.publishers⟩
  · cases h; exact woken_of_eq rfl rfl rfl rfl
  · cases h; exact woken_of_eq rfl rfl rfl rfl
  · cases h; exact woken_of_eq rfl rfl rfl rfl
  all_goals cases h

theorem resumePublisher_cases {resp : Resp μ} (h : s.resumePublisher cfg p resp = some t) :
    ∃ pc, (s.publishers p).resume cfg.policy_ resp = some pc ∧
      t.publishers = update s.publishers p pc ∧ ledger t = ledger s ∧ pipeline t = pipeline s ∧
      t.publish_mutex_ = s.publish_mutex_ ∧ t.cv_not_full_ = s.cv_not_full_ := by
  simp only [Bus.resumePublisher, Option.map_eq_some_iff] at h
  obtain ⟨pc, hpc, rfl⟩ := h
  exact ⟨pc, hpc, rfl, rfl, rfl, rfl, rfl⟩

end Waking

section Publisher

variable [DecidableEq Pid] [DecidableEq μ] {p : Pid}

inductive Turn (s : Bus Q Pid μ) (p : Pid) (pc : PubPc μ) : Ledger μ → Prop
  | silent : stage pc = stage (s.publishers p) → dropping pc = dropping (s.publishers p) →
      Turn s p pc (ledger s)
  | reject {m : μ} {last : Bool} : s.publishers p = .checkRunning m last →
      pc = .unlockWait m false → s.running_ = false → Turn s p pc (ledger s)
  | drop {m : μ} : dropping (s.publishers p) = some m → dropping pc = none →
      (stage pc = stage (s.publishers p) ∨
        stage (s.publishers p) = some (m, .dropping) ∧ stage pc = some (m, .settled)) →
      Turn s p pc (ledger (s.drop m))
  | result {m : μ} {r : Bool} : s.publishers p = .returning m r → pc = .idle →
      Turn s p pc { ledger s with results := s.results ++ [(m, r)] }

theorem publisherStep_turn (h : s.publisherStep cfg p = some t) :
    ∃ pc, t.publishers = update s.publishers p pc ∧ pipeline t = pipeline s ∧
      Turn s p pc (ledger t) := by
  unfold Bus.publisherStep at h
  cases hpc : s.publishers p with
  | notifyDrop m =>
    simp only [hpc, Option.some.injEq] at h
    subst h
    refine ⟨.returning m true, ?_, ?_, .drop (m := m) ?_ rfl (.inr ⟨?_, rfl⟩)⟩
    · simp [Bus.goto]
    · simp
    · simp [hpc, dropping]
    · simp [hpc, stage]
  | lockPublish m =>
    simp only [hpc] at h
    split at h
    · cases h
      exact ⟨_, rfl, rfl, .silent (by simp [hpc, stage]) (by simp [hpc, dropping])⟩
    · cases h
  | dropOldest m oldest =>
    simp only [hpc, Option.some.injEq] at h
    subst h
    refine ⟨.tryDropping m, ?_, ?_, .drop (m := oldest) ?_ rfl (.inl ?_)⟩
    · simp [Bus.goto]
    · simp
    · simp [hpc, dropping]
    · simp [hpc, stage]
  | lockWait m =>
    simp only [hpc] at h
    split at h
    · cases h
      exact ⟨_, rfl, rfl, .silent (by simp [hpc, stage]) (by simp [hpc, dropping])⟩
    · cases h
  | checkRunning m last =>
    simp only [hpc, Option.some.injEq] at h
    subst h
    cases hr : s.running_ with
    | true => exact ⟨_, rfl, rfl, .silent (by simp [hpc, stage]) (by simp [hpc, dropping])⟩
    | false =>
      exact ⟨_, rfl, rfl, .reject hpc rfl hr⟩
  | park m =>
    simp only [hpc, Option.some.injEq] at h
    subst h
    exact ⟨_, rfl, rfl, .silent (by simp [hpc, stage]) (by simp [hpc, dropping])⟩
  | relock m last =>
    simp only [hpc] at h
    split at h
    · cases h
      exact ⟨_, rfl, rfl, .silent (by simp [hpc, stage]) (by simp [hpc, dropping])⟩
    · cases h
  | unlockWait m enqueued =>
    simp only [hpc, Option.some.injEq] at h
    subst h
    cases enqueued <;>
      exact ⟨_, rfl, rfl, .silent (by simp [hpc, stage]) (by simp [hpc, dropping])⟩
  | wakeDispatcher m =>
    simp only [hpc, Option.some.injEq] at h
    subst h
    exact ⟨_, rfl, rfl, .silent (by simp [hpc, stage]) (by simp [hpc, dropping])⟩
  | returning m result =>
    simp only [hpc, Option.some.injEq] at h
    subst h
    exact ⟨.idle, rfl, rfl, .result hpc rfl⟩
  | _ => simp only [hpc] at h; cases h

theorem publisherStep_request (h : s.publisherStep cfg p = some t) :
    (s.publishers p).request = none := by
  unfold Bus.publisherStep at h
  cases hpc : s.publishers p with
  | tryEnqueue m | tryDropping m | takeOldest m | tryWaiting m last =>
    simp only [hpc] at h
    cases h
  | _ => rfl

theorem publisherStep_fits {q : Pid} (hf : fits policy (s.publishers q))
    (h : s.publisherStep cfg p = some t) : fits policy (t.publishers q) := by
  by_cases hq : q = p
  · subst hq
    unfold Bus.publisherStep at h
    cases hpc : s.publishers q with
    | notifyDrop m => simp only [hpc, Option.some.injEq] at h; subst h; simp [Bus.goto, fits]
    | lockPublish m =>
      simp only [hpc] at h hf
      split at h <;> cases h
      simpa [Bus.goto, fits] using hf
    | dropOldest m oldest =>
      simp only [hpc, Option.some.injEq] at h hf
      subst h
      simpa [Bus.goto, fits] using hf
    | lockWait m =>
      simp only [hpc] at h hf
      split at h <;> cases h
      simpa [Bus.goto, fits] using hf
    | checkRunning m last =>
      simp only [hpc, Option.some.injEq] at h hf
      subst h
      cases s.running_ <;> simpa [Bus.goto, fits] using hf
    | park m => simp only [hpc, Option.some.injEq] at h hf; subst h; simpa [Bus.goto, fits] using hf
    | relock m last =>
      simp only [hpc] at h hf
      split at h <;> cases h
      simpa [Bus.goto, fits] using hf
    | unlockWait m enqueued =>
      simp only [hpc, Option.some.injEq] at h hf
      subst h
      cases enqueued
      · rcases hf with rfl | rfl <;> simp [Bus.goto, fits]
      · simp [Bus.goto, fits]
    | wakeDispatcher m => simp only [hpc, Option.some.injEq] at h; subst h; simp [Bus.goto, fits]
    | returning m result => simp only [hpc, Option.some.injEq] at h; subst h; simp [Bus.goto, fits]
    | _ => simp only [hpc] at h; cases h
  · obtain ⟨pc, hpub, -, -⟩ := publisherStep_turn h
    rw [hpub, update_of_ne hq]
    exact hf

theorem stopStep_woken (h : s.stopStep cfg = some t) : Woken s t := by
  unfold Bus.stopStep at h
  split at h
  · split at h
    · cases h; exact woken_of_eq rfl rfl rfl rfl
    · cases h; exact woken_of_eq rfl rfl rfl rfl
  · cases h; exact ⟨rfl, rfl, rfl, (woken_notify_all (s := s)).publishers⟩
  · split at h
    · cases h; exact woken_of_eq rfl rfl rfl rfl
    · cases h
  · cases h; exact woken_of_eq rfl rfl rfl rfl
  · split at h
    · split at h
      · cases h; exact woken_of_eq rfl rfl rfl rfl
      · cases h
    · cases h; exact woken_of_eq rfl rfl rfl rfl
  · cases h; exact woken_of_eq rfl rfl rfl rfl
  · cases h

theorem publish_cases {mptr : μ} (h : s.publish cfg p mptr = some t) :
    s.publishers p = .idle ∧ mptr ∉ s.offered ∧ pipeline t = pipeline s ∧
      (∃ pc, t.publishers = update s.publishers p pc ∧ stage pc = some (mptr, .waiting) ∧
        dropping pc = none ∧ fits cfg.policy_ pc ∧
        (cfg.policy_ = .DropOldest → pc = .lockPublish mptr)) ∧
      t.publish_mutex_ = s.publish_mutex_ ∧ t.cv_not_full_ = s.cv_not_full_ ∧
      ledger t = { ledger s with
        offered := s.offered ++ [mptr]
        on_drop_ := update s.on_drop_ mptr (cfg.has_on_drop mptr) } := by
  unfold Bus.publish at h
  split at h
  · rename_i hi
    cases h
    refine ⟨hi.1, hi.2, rfl, ⟨_, rfl, ?_, ?_, ?_, ?_⟩, rfl, rfl, rfl⟩
    · cases cfg.policy_ <;> rfl
    · cases cfg.policy_ <;> rfl
    · cases cfg.policy_ <;> simp [fits]
    · intro hp
      rw [hp]
  · cases h

theorem localStep_queues {a : Local Pid μ} (h : s.localStep cfg a = some t) :
    t.queue_ = s.queue_ ∧ t.worker_queues_ = s.worker_queues_ ∧ t.taken = s.taken := by
  have of_pipeline : pipeline t = pipeline s →
      t.queue_ = s.queue_ ∧ t.worker_queues_ = s.worker_queues_ ∧ t.taken = s.taken :=
    fun hp ↦ ⟨congrArg Pipeline.queue_ hp, congrArg Pipeline.worker_queues_ hp,
      congrArg Pipeline.taken hp⟩
  cases a with
  | publish p mptr => exact of_pipeline (publish_cases h).2.2.1
  | publisher p =>
    obtain ⟨pc, -, hp, -⟩ := publisherStep_turn h
    exact of_pipeline hp
  | timeout p => exact of_pipeline (timeout_frame h).2
  | spurious p => exact of_pipeline (spurious_frame h).2
  | start =>
    simp only [Bus.localStep, Bus.start] at h
    split at h <;> cases h
    exact ⟨rfl, rfl, rfl⟩
  | loop waiter =>
    simp only [Bus.localStep, Bus.loopStep] at h
    split at h
    · cases h; exact ⟨rfl, rfl, rfl⟩
    · simp only [Option.map_eq_some_iff] at h
      obtain ⟨u, hu, rfl⟩ := h
      have hp := (notifyNotFull_frame hu).2
      exact ⟨congrArg Pipeline.queue_ hp, congrArg Pipeline.worker_queues_ hp,
        congrArg Pipeline.taken hp⟩
    all_goals cases h
    all_goals exact ⟨rfl, rfl, rfl⟩
  | worker i =>
    simp only [Bus.localStep, Bus.workerStep] at h
    split at h
    · split at h <;> cases h <;> exact ⟨rfl, rfl, rfl⟩
    · cases h
  | stop =>
    simp only [Bus.localStep, Bus.stopStep] at h
    split at h
    · split at h <;> cases h <;> exact ⟨rfl, rfl, rfl⟩
    · cases h; exact ⟨rfl, rfl, rfl⟩
    · split at h <;> cases h; exact ⟨rfl, rfl, rfl⟩
    · cases h; exact ⟨rfl, rfl, rfl⟩
    · split at h
      · split at h <;> cases h; exact ⟨rfl, rfl, rfl⟩
      · cases h; exact ⟨rfl, rfl, rfl⟩
    · cases h; exact ⟨rfl, rfl, rfl⟩
    · cases h

theorem localStep_cases {a : Local Pid μ} (h : s.localStep cfg a = some t) :
    (∃ p mptr, s.publish cfg p mptr = some t) ∨ (∃ p, s.publisherStep cfg p = some t) ∨
      Woken s t := by
  cases a with
  | publish p mptr => exact .inl ⟨p, mptr, h⟩
  | publisher p => exact .inr (.inl ⟨p, h⟩)
  | timeout p => exact .inr (.inr (timeout_frame h).1)
  | spurious p => exact .inr (.inr (spurious_frame h).1)
  | start => exact .inr (.inr (start_woken h))
  | loop waiter => exact .inr (.inr (loopStep_woken h))
  | worker i => exact .inr (.inr (workerStep_woken h))
  | stop => exact .inr (.inr (stopStep_woken h))

end Publisher

end LivioArk.Msgbus.BusSteps
