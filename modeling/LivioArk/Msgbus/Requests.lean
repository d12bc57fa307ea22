import LivioArk.Msgbus.BusSteps

namespace LivioArk.Msgbus.Requests

open Function LockFreeQueue MessageBus BusSteps

variable {Q Pid μ : Type}
variable {cfg : Config μ} {s t : Bus Q Pid μ} {a : Local Pid μ} {r : QueueId × Req μ} {i : ℕ}

def Unstarted (s : Bus Q Pid μ) : Prop := s.loop = .unstarted → ∀ i, s.workers i = .unstarted

theorem request_loop (h : s.request cfg .loop = some r) :
    (∃ drain, s.loop = .poll drain) ∨ ∃ drain m, s.loop = .route drain m := by
  cases hl : s.loop with
  | poll drain => exact .inl ⟨drain, rfl⟩
  | route drain m => exact .inr ⟨drain, m, rfl⟩
  | _ => simp only [Bus.request, hl] at h; cases h

theorem request_worker (h : s.request cfg (.worker i) = some r) :
    i < cfg.num_dispatchers_ ∧ ∃ phase, s.workers i = .poll phase := by
  simp only [Bus.request] at h
  split at h
  · rename_i hi
    cases hw : s.workers i with
    | poll phase => exact ⟨hi, phase, rfl⟩
    | _ => simp only [hw] at h; cases h
  · cases h

theorem workerStep_loop (h : s.workerStep cfg i = some t) :
    t.loop = s.loop ∧ s.workers i ≠ .unstarted ∧ (∀ phase, s.workers i ≠ .poll phase) ∧
      ∀ j, j ≠ i → t.workers j = s.workers j := by
  unfold Bus.workerStep at h
  split at h
  · cases hw : s.workers i with
    | head phase =>
      cases phase with
      | final => simp only [hw] at h; cases h
      | _ =>
        simp only [hw, Option.some.injEq] at h
        subst h
        exact ⟨rfl, by simp, by simp, fun j hj ↦ update_of_ne hj _ _⟩
    | begin phase m | dispatching phase m =>
      simp only [hw, Option.some.injEq] at h
      subst h
      exact ⟨rfl, by simp, by simp, fun j hj ↦ update_of_ne hj _ _⟩
    | _ => simp only [hw] at h; cases h
  · cases h

theorem start_loop [DecidableEq μ] (h : s.start cfg = some t) :
    s.loop = .unstarted ∧ t.loop = .head := by
  unfold Bus.start at h
  split at h
  · rename_i hl
    cases h
    exact ⟨hl, rfl⟩
  · cases h

variable [DecidableEq Pid]

theorem loopStep_workers {waiter : Option Pid} (h : s.loopStep cfg waiter = some t) :
    t.workers = s.workers ∧ s.loop ≠ .unstarted ∧ t.loop ≠ .unstarted ∧
      (∀ drain, s.loop ≠ .poll drain) ∧ ∀ drain m, s.loop ≠ .route drain m := by
  unfold Bus.loopStep at h
  cases hl : s.loop with
  | notify drain m =>
    simp only [hl, Option.map_eq_some_iff] at h
    obtain ⟨u, hu, rfl⟩ := h
    refine ⟨congrArg Pipeline.workers (notifyNotFull_frame hu).2, by simp, ?_, by simp, by simp⟩
    simp only
    split <;> simp
  | dispatching drain m | wakeWorker drain =>
    simp only [hl, Option.some.injEq] at h
    subst h
    refine ⟨rfl, by simp, ?_, by simp, by simp⟩
    cases drain <;> simp [LoopPc.next]
  | head | begin drain m =>
    simp only [hl, Option.some.injEq] at h
    subst h
    exact ⟨rfl, by simp, by simp, by simp, by simp⟩
  | _ => simp only [hl] at h; cases h

section Resume

variable {ag bg : Agent Pid} {resp : Resp μ}

/-- A thread that goes on with an answer touches no queue and no other thread. -/
theorem resume_frame (h : s.resume cfg ag resp = some t) :
    t.queue_ = s.queue_ ∧ t.worker_queues_ = s.worker_queues_ ∧
      ∀ bg, bg ≠ ag → t.request cfg bg = s.request cfg bg := by
  cases ag with
  | publisher p =>
    obtain ⟨pc, -, hpub, -, hp, -⟩ := resumePublisher_cases h
    refine ⟨congrArg Pipeline.queue_ hp, congrArg Pipeline.worker_queues_ hp, fun bg hne ↦ ?_⟩
    cases bg with
    | publisher p' =>
      have hne : p' ≠ p := by simpa using hne
      simp only [Bus.request, hpub, update_of_ne hne]
    | loop => simp only [Bus.request, show t.loop = s.loop from congrArg Pipeline.loop hp]
    | worker i =>
      simp only [Bus.request, show t.workers = s.workers from congrArg Pipeline.workers hp]
  | loop =>
    simp only [Bus.resume, Bus.resumeLoop] at h
    split at h <;> cases h <;>
      exact ⟨rfl, rfl, fun bg hne ↦ by cases bg <;> first | rfl | exact absurd rfl hne⟩
  | worker i =>
    have hkeep : t.queue_ = s.queue_ ∧ t.worker_queues_ = s.worker_queues_ ∧
        t.publishers = s.publishers ∧ t.loop = s.loop ∧ ∀ j, j ≠ i → t.workers j = s.workers j := by
      simp only [Bus.resume, Bus.resumeWorker] at h
      split at h <;> cases h <;>
        exact ⟨rfl, rfl, rfl, rfl, fun j hj ↦ update_of_ne hj _ _⟩
    obtain ⟨hq, hwq, hpub, hloop, hworkers⟩ := hkeep
    refine ⟨hq, hwq, fun bg hne ↦ ?_⟩
    cases bg with
    | publisher p => simp only [Bus.request, hpub]
    | loop => simp only [Bus.request, hloop]
    | worker j =>
      have hj : j ≠ i := by simpa using hne
      simp only [Bus.request, hworkers j hj]

theorem resume_unstarted (hu : Unstarted s) (h : s.resume cfg ag resp = some t) :
    Unstarted t := by
  intro hl i
  cases ag with
  | publisher p =>
    obtain ⟨pc, -, -, -, hp, -⟩ := resumePublisher_cases h
    rw [show t.workers = s.workers from congrArg Pipeline.workers hp]
    exact hu ((congrArg Pipeline.loop hp).symm.trans hl) i
  | loop =>
    simp only [Bus.resume, Bus.resumeLoop] at h
    split at h
    · cases h; cases hl
    · cases h
      simp only at hl
      split at hl <;> cases hl
    · cases h; cases hl
    · cases h; exact hu hl i
    · cases h
  | worker j =>
    have hkeep : t.loop = s.loop ∧ s.workers j ≠ .unstarted := by
      simp only [Bus.resume, Bus.resumeWorker] at h
      split at h
      · rename_i hw
        cases h
        exact ⟨rfl, by simp [hw]⟩
      · rename_i hw
        cases h
        exact ⟨rfl, by simp [hw]⟩
      · rename_i hw
        cases h
        exact ⟨rfl, by simp [hw]⟩
      · cases h
    exact absurd (hu (hkeep.1.symm.trans hl) j) hkeep.2

end Resume

variable [DecidableEq μ]

/-- Loop and workers are not in the way of the publishers' steps. -/
theorem localStep_pipeline (h : s.localStep cfg a = some t) :
    pipeline t = pipeline s ∨ a = .start ∨ (∃ waiter, a = .loop waiter) ∨ (∃ i, a = .worker i) ∨
      a = .stop := by
  cases a with
  | publish p mptr => exact .inl (publish_cases h).2.2.1
  | publisher p =>
    obtain ⟨pc, -, hp, -⟩ := publisherStep_turn h
    exact .inl hp
  | timeout p => exact .inl (timeout_frame h).2
  | spurious p => exact .inl (spurious_frame h).2
  | start => exact .inr (.inl rfl)
  | loop waiter => exact .inr (.inr (.inl ⟨waiter, rfl⟩))
  | worker i => exact .inr (.inr (.inr (.inl ⟨i, rfl⟩)))
  | stop => exact .inr (.inr (.inr (.inr rfl)))

theorem stopStep_threads (h : s.stopStep cfg = some t) :
    t.loop = s.loop ∧ t.workers = s.workers := by
  unfold Bus.stopStep at h
  split at h
  · split at h <;> cases h <;> exact ⟨rfl, rfl⟩
  · cases h; exact ⟨rfl, rfl⟩
  · split at h <;> cases h; exact ⟨rfl, rfl⟩
  · cases h; exact ⟨rfl, rfl⟩
  · split at h
    · split at h <;> cases h; exact ⟨rfl, rfl⟩
    · cases h; exact ⟨rfl, rfl⟩
  · cases h; exact ⟨rfl, rfl⟩
  · cases h

theorem localStep_unstarted (hu : Unstarted s) (h : s.localStep cfg a = some t) :
    Unstarted t := by
  intro hl i
  obtain hp | rfl | ⟨waiter, rfl⟩ | ⟨j, rfl⟩ | rfl := localStep_pipeline h
  · rw [show t.workers = s.workers from congrArg Pipeline.workers hp]
    exact hu ((congrArg Pipeline.loop hp).symm.trans hl) i
  · rw [(start_loop h).2] at hl
    cases hl
  · exact absurd hl (loopStep_workers h).2.2.1
  · obtain ⟨hloop, hne, -, -⟩ := workerStep_loop h
    exact absurd (hu (hloop.symm.trans hl) j) hne
  · obtain ⟨hloop, hworkers⟩ := stopStep_threads h
    rw [hworkers]
    exact hu (hloop.symm.trans hl) i

/-- A thread in the middle of a queue operation takes no other step, and no
other thread takes it away from there. -/
theorem localStep_request (hu : Unstarted s) {ag : Agent Pid} (h : s.localStep cfg a = some t)
    (hr : s.request cfg ag = some r) : t.request cfg ag = some r := by
  cases ag with
  | publisher p =>
    have hkeep : (t.publishers p).request = (s.publishers p).request := by
      simp only [Bus.request, Option.map_eq_some_iff] at hr
      obtain ⟨req, hreq, -⟩ := hr
      obtain ⟨p', mptr, hp⟩ | ⟨p', hp⟩ | hw := localStep_cases h
      · obtain ⟨hidle, -, -, ⟨pc, hpub, -⟩, -⟩ := publish_cases hp
        have hne : p ≠ p' := by
          rintro rfl
          rw [hidle] at hreq
          cases hreq
        rw [hpub, update_of_ne hne]
      · obtain ⟨pc, hpub, -, -⟩ := publisherStep_turn hp
        have hne : p ≠ p' := by
          rintro rfl
          rw [publisherStep_request hp] at hreq
          cases hreq
        rw [hpub, update_of_ne hne]
      · exact hw.request_eq p
    rw [← hr]
    simp only [Bus.request, hkeep]
  | loop =>
    have hkeep : t.loop = s.loop := by
      have hcalls := request_loop hr
      obtain hp | rfl | ⟨waiter, rfl⟩ | ⟨j, rfl⟩ | rfl := localStep_pipeline h
      · exact congrArg Pipeline.loop hp
      · rw [(start_loop h).1] at hcalls
        simp at hcalls
      · obtain ⟨-, -, -, hpoll, hroute⟩ := loopStep_workers h
        rcases hcalls with ⟨drain, hl⟩ | ⟨drain, m, hl⟩
        · exact absurd hl (hpoll drain)
        · exact absurd hl (hroute drain m)
      · exact (workerStep_loop h).1
      · exact (stopStep_threads h).1
    rw [← hr]
    simp only [Bus.request, hkeep]
  | worker i =>
    have hkeep : t.workers i = s.workers i := by
      obtain ⟨-, phase, hw⟩ := request_worker hr
      obtain hp | rfl | ⟨waiter, rfl⟩ | ⟨j, rfl⟩ | rfl := localStep_pipeline h
      · exact congrFun (congrArg Pipeline.workers hp) i
      · rw [hu (start_loop h).1 i] at hw
        cases hw
      · exact congrFun (loopStep_workers h).1 i
      · obtain ⟨-, -, hpoll, hother⟩ := workerStep_loop h
        apply hother i
        rintro rfl
        exact hpoll phase hw
      · exact congrFun (stopStep_threads h).2 i
    rw [← hr]
    simp only [Bus.request, hkeep]

end LivioArk.Msgbus.Requests
