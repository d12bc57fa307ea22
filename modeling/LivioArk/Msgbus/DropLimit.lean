import LivioArk.Msgbus.FineBus
import Mathlib.Data.Fintype.Basic

namespace LivioArk.Msgbus.DropLimit

open Function LivioArk.Library.Transition
open LockFreeQueue QueueInvariant FailedAccess MessageBus BusSteps Requests FineBus

variable {Pid μ : Type} {cfg : Config μ} {s t : Bus (Sys (Agent Pid) μ) Pid μ} {k : ℕ}

/-- The queue has a place left, claimed and unreleased cells not counted. -/
def Room (k : ℕ) (q : Sys (Agent Pid) μ) : Prop := q.put.length < q.got + 2 ^ k

def placed : Option (Op μ) → Bool
  | some (.enqueueStore _ _) | some (.enqueuePublish _) | some (.enqueueDone true) => true
  | _ => false

def removed : Option (Op μ) → Bool
  | some (.dequeueTake _) | some (.dequeueRelease _ _) | some (.dequeueDone true _) => true
  | _ => false

/-- One publisher with the number of messages that its call has discarded:
once it has removed one there is room until its own message is in. -/
def Limited (room : Prop) (discarded : ℕ) (op : Option (Op μ)) : PubPc μ → Prop
  | .lockPublish _ => discarded = 0
  | .tryDropping _ => discarded = 0 ∨
    discarded = 1 ∧ op ≠ some (.enqueueDone false) ∧ (placed op = true ∨ room)
  | .takeOldest _ => discarded = 0 ∧ (removed op = true → room)
  | .dropOldest _ _ => discarded = 1 ∧ room
  | _ => discarded ≤ 1

theorem Limited.le_one {room : Prop} {d : ℕ} {op : Option (Op μ)} {pc : PubPc μ}
    (h : Limited room d op pc) : d ≤ 1 := by
  cases pc with
  | lockPublish m => exact le_of_eq_of_le h (Nat.zero_le 1)
  | tryDropping m => rcases h with h | ⟨h, -⟩ <;> omega
  | takeOldest m => exact le_of_eq_of_le h.1 (Nat.zero_le 1)
  | dropOldest m o => exact h.1.le
  | _ => exact h

theorem Limited.mono {room room' : Prop} {d : ℕ} {op : Option (Op μ)} {pc : PubPc μ}
    (h : Limited room d op pc) (hr : room → room') : Limited room' d op pc := by
  cases pc with
  | tryDropping m => exact h.imp_right fun h ↦ ⟨h.1, h.2.1, h.2.2.imp_right hr⟩
  | takeOldest m => exact ⟨h.1, fun hop ↦ hr (h.2 hop)⟩
  | dropOldest m o => exact ⟨h.1, hr h.2⟩
  | _ => exact h

theorem Limited.outside {room room' : Prop} {d : ℕ} {op op' : Option (Op μ)} {pc : PubPc μ}
    (h : Limited room d op pc) (hc : critical pc = false) : Limited room' d op' pc := by
  cases pc with
  | tryDropping m | takeOldest m | dropOldest m o => cases hc
  | _ => exact h

/-- All publishers of a bus under `DropOldest`. -/
structure Polite (k : ℕ) (s : Bus (Sys (Agent Pid) μ) Pid μ) : Prop where
  points : ∀ p, fits .DropOldest (s.publishers p)
  holder : ∀ p, critical (s.publishers p) = true → s.publish_mutex_ = some p
  limited : ∀ p, Limited (Room k s.queue_) (s.discarded p) (s.queue_.ops (.publisher p))
    (s.publishers p)

theorem polite_initial (q : Sys (Agent Pid) μ) : Polite k (.initial q) where
  points _ := trivial
  holder _ h := by cases h
  limited _ := Nat.zero_le 1

namespace Polite

variable {p : Pid} {pc : PubPc μ} {d : ℕ}

theorem alone (h : Polite k s) (hm : s.publish_mutex_ = some p ∨ s.publish_mutex_ = none) (q : Pid)
    (hq : q ≠ p) : critical (s.publishers q) = false := by
  by_contra hc
  rw [Bool.not_eq_false] at hc
  have hholder := h.holder q hc
  rcases hm with hm | hm
  · rw [hm] at hholder
    exact hq (Option.some.inj hholder).symm
  · rw [hm] at hholder
    cases hholder

theorem same (h : Polite k s) (hpub : t.publishers = s.publishers)
    (hm : t.publish_mutex_ = s.publish_mutex_) (hd : t.discarded = s.discarded)
    (hops : ∀ p, t.queue_.ops (.publisher p) = s.queue_.ops (.publisher p))
    (hr : Room k s.queue_ → Room k t.queue_) : Polite k t := by
  refine ⟨?_, ?_, fun p ↦ ?_⟩
  · rw [hpub]
    exact h.points
  · rw [hpub, hm]
    exact h.holder
  · rw [hpub, hd, hops]
    exact (h.limited p).mono hr

variable [DecidableEq Pid]

/-- A step of the publisher in the critical section, or of one that nobody
else keeps from entering it: only its own state matters. -/
theorem turn (h : Polite k s) (hout : ∀ q, q ≠ p → critical (s.publishers q) = false)
    (hpub : t.publishers = update s.publishers p pc) (hd : t.discarded = update s.discarded p d)
    (hf : fits .DropOldest pc) (hm : critical pc = true → t.publish_mutex_ = some p)
    (hl : Limited (Room k t.queue_) d (t.queue_.ops (.publisher p)) pc) : Polite k t := by
  refine ⟨fun q ↦ ?_, fun q hc ↦ ?_, fun q ↦ ?_⟩
  · by_cases hq : q = p
    · subst hq
      rw [hpub, update_self]
      exact hf
    · rw [hpub, update_of_ne hq]
      exact h.points q
  · by_cases hq : q = p
    · subst hq
      rw [hpub, update_self] at hc
      exact hm hc
    · rw [hpub, update_of_ne hq, hout q hq] at hc
      cases hc
  · by_cases hq : q = p
    · subst hq
      rw [hpub, hd, update_self, update_self]
      exact hl
    · rw [hpub, hd, update_of_ne hq, update_of_ne hq]
      exact (h.limited q).outside (hout q hq)

theorem enter (h : Polite k s) (hpub : t.publishers = update s.publishers p pc)
    (hd : t.discarded = update s.discarded p d) (hm : t.publish_mutex_ = s.publish_mutex_)
    (hq : t.queue_ = s.queue_) (hf : fits .DropOldest pc) (hc : critical pc = false)
    (hl : Limited (Room k s.queue_) d (s.queue_.ops (.publisher p)) pc) : Polite k t := by
  refine ⟨fun q ↦ ?_, fun q hcq ↦ ?_, fun q ↦ ?_⟩
  · by_cases hqp : q = p
    · subst hqp
      rw [hpub, update_self]
      exact hf
    · rw [hpub, update_of_ne hqp]
      exact h.points q
  · by_cases hqp : q = p
    · subst hqp
      rw [hpub, update_self, hc] at hcq
      cases hcq
    · rw [hpub, update_of_ne hqp] at hcq
      rw [hm]
      exact h.holder q hcq
  · rw [hq]
    by_cases hqp : q = p
    · subst hqp
      rw [hpub, hd, update_self, update_self]
      exact hl
    · rw [hpub, hd, update_of_ne hqp, update_of_ne hqp]
      exact h.limited q

end Polite

section Access

variable [DecidableEq Pid] {q q' : Sys (Agent Pid) μ} {ag : Agent Pid} {op : Op μ}
variable {spurious : Bool}

omit [DecidableEq Pid] in
theorem room_append (queue : Queue μ) (ops : Agent Pid → Option (Op μ))
    (es : List (Event (Agent Pid) μ)) :
    Room k ⟨queue, ops, q.hist ++ es⟩ ↔
      q.put.length + (es.filterMap Event.enqueued).length <
        q.got + (es.filterMap Event.dequeued).length + 2 ^ k := by
  simp only [Room, Sys.put, Sys.got, List.filterMap_append, List.length_append]

theorem dequeue_access (h : Inv k q) (hop : q.ops ag = some op) (hbel : belongs .tryDequeue op)
    (hacc : q.access ag spurious = some q') :
    (Room k q → Room k q') ∧
      (removed (q'.ops ag) = true → removed (q.ops ag) = true ∨ Room k q') := by
  obtain ⟨_, queue, op', hop', hstep, rfl⟩ := access_cases hacc
  rw [hop] at hop'
  cases hop'
  simp only [update_self, hop, room_append]
  have hroom := h.room
  cases op with
  | dequeueLoad =>
    cases hstep
    exact ⟨id, fun hr ↦ by cases hr⟩
  | dequeueSeq pos =>
    simp only [Op.step] at hstep
    split at hstep
    · cases hstep
      exact ⟨id, fun hr ↦ by cases hr⟩
    · split at hstep <;> cases hstep <;> exact ⟨id, fun hr ↦ by cases hr⟩
  | dequeueCas pos =>
    simp only [Op.step] at hstep
    split at hstep
    · cases hstep
      simp only [Room, Op.event, List.filterMap_cons, List.filterMap_nil, Event.enqueued,
        Event.dequeued, List.length_nil, List.length_singleton]
      exact ⟨fun _ ↦ by omega, fun _ ↦ .inr (by omega)⟩
    · cases hstep
      exact ⟨id, fun hr ↦ by cases hr⟩
  | dequeueTake pos | dequeueRelease pos value =>
    cases hstep
    exact ⟨id, fun _ ↦ .inl rfl⟩
  | dequeueDone ok value => cases hstep
  | _ => exact hbel.elim

/-- An access of `try_enqueue` that finds room leaves it or claims a position,
unless a consumer has not released the cell yet. -/
theorem enqueue_access (h : Inv k q) (hk : k ≤ 62) (hB : q.put.length < 2 ^ 62) {m : μ}
    (hop : q.ops ag = some op) (hbel : belongs (.tryEnqueue m) op)
    (hacc : q.access ag spurious = some q') (hr : placed (q.ops ag) = true ∨ Room k q)
    (hreleased : ∀ pos ∈ looksAt op, 2 ^ k ≤ pos → ∀ u, ¬ q.Draining u (pos - 2 ^ k)) :
    q'.ops ag ≠ some (.enqueueDone false) ∧ (placed (q'.ops ag) = true ∨ Room k q') := by
  obtain ⟨_, queue, op', hop', hstep, rfl⟩ := access_cases hacc
  rw [hop] at hop'
  cases hop'
  simp only [hop] at hr
  simp only [update_self, room_append]
  cases op with
  | enqueueLoad value =>
    cases hstep
    exact ⟨by simp, hr⟩
  | enqueueSeq value pos =>
    have hstep' := hstep
    simp only [Op.step] at hstep
    split at hstep
    · cases hstep
      exact ⟨by simp, hr⟩
    · split at hstep
      · cases hstep
        obtain ⟨-, hfull | ⟨u, hle, hu⟩⟩ := enqueue_fails h hk hB hop hstep'
        · rcases hr with hr | hr
          · cases hr
          · simp only [Room] at hr
            omega
        · exact absurd hu (hreleased pos rfl hle u)
      · cases hstep
        exact ⟨by simp, hr⟩
  | enqueueCas value pos =>
    simp only [Op.step] at hstep
    split at hstep
    · cases hstep
      exact ⟨by simp, .inl rfl⟩
    · cases hstep
      exact ⟨by simp, hr⟩
  | enqueueStore value pos | enqueuePublish pos =>
    cases hstep
    exact ⟨by simp, .inl rfl⟩
  | enqueueDone ok => cases hstep
  | _ => exact hbel.elim

end Access

section Steps

variable {p : Pid}

theorem Polite.asking (h : Polite k s) {qid : QueueId} {req : Req μ}
    (hreq : s.request cfg (.publisher p) = some (qid, req)) :
    qid = .main ∧ critical (s.publishers p) = true ∧
      ((∃ m, s.publishers p = .tryDropping m ∧ req = .tryEnqueue m) ∨
        ∃ m, s.publishers p = .takeOldest m ∧ req = .tryDequeue) := by
  have hf := h.points p
  simp only [Bus.request, Option.map_eq_some_iff, Prod.mk.injEq] at hreq
  obtain ⟨r, hr, rfl, rfl⟩ := hreq
  cases hpc : s.publishers p with
  | tryDropping m =>
    rw [hpc] at hr
    cases hr
    exact ⟨rfl, rfl, .inl ⟨m, rfl, rfl⟩⟩
  | takeOldest m =>
    rw [hpc] at hr
    cases hr
    exact ⟨rfl, rfl, .inr ⟨m, rfl, rfl⟩⟩
  | tryEnqueue m => rw [hpc] at hf; exact absurd rfl hf
  | tryWaiting m last =>
    rw [hpc] at hf
    rcases hf with hf | hf <;> cases hf
  | _ => rw [hpc] at hr; cases hr

theorem Polite.setQueue (h : Polite k s) {qid : QueueId} {q : Sys (Agent Pid) μ}
    (hops : ∀ p, q.ops (.publisher p) = (s.queue qid).ops (.publisher p))
    (hr : qid = .main → Room k s.queue_ → Room k q) : Polite k (s.setQueue q qid) := by
  cases qid with
  | main => exact h.same rfl rfl rfl hops (hr rfl)
  | worker i => exact h.same rfl rfl rfl (fun _ ↦ rfl) id

theorem Polite.woken (h : Polite k s) (hw : Woken s t) (hq : t.queue_ = s.queue_) : Polite k t :=
  h.same (publishers_of_woken hw h.points) hw.mutex hw.discarded (fun _ ↦ by rw [hq])
    (by rw [hq]; exact id)

theorem Polite.drained_by_loop (h : Polite k s) (hsound : Sound cfg k s) {m : μ} {op : Op μ}
    (hc : critical (s.publishers p) = true) (hop : s.queue_.ops (.publisher p) = some op)
    (hbel : belongs (.tryEnqueue m) op) {u : Agent Pid} {pos : ℕ}
    (hu : s.queue_.Draining u pos) : u = .loop := by
  cases hopu : s.queue_.ops u with
  | none => simp [Sys.Draining, hopu] at hu
  | some opu =>
    obtain ⟨req, hreq, hbelu⟩ := hsound.engaged .main u opu hopu
    have hdrain : opu.draining = some pos := (draining_of_op hopu).mp hu
    cases u with
    | loop => rfl
    | publisher v =>
      obtain ⟨-, hcv, -⟩ := h.asking hreq
      have hv : v = p := by
        have hm := h.holder p hc
        rw [h.holder v hcv] at hm
        exact Option.some.inj hm
      subst hv
      rw [hop] at hopu
      cases hopu
      cases op <;> first | exact hbel.elim | cases hdrain
    | worker i =>
      obtain ⟨hi, phase, hw⟩ := request_worker hreq
      simp [Bus.request, hi, hw] at hreq

variable [DecidableEq Pid]

theorem Polite.setMain (h : Polite k s) {q : Sys (Agent Pid) μ}
    (hc : critical (s.publishers p) = true)
    (hl : Limited (Room k q) (s.discarded p) (q.ops (.publisher p)) (s.publishers p)) :
    Polite k (s.setQueue q .main) :=
  h.turn (fun u hu ↦ h.alone (.inl (h.holder p hc)) u hu) (update_eq_self p s.publishers).symm
    (update_eq_self p s.discarded).symm (h.points p) (fun hc ↦ h.holder p hc) hl

theorem Polite.resumePublisher (hp : cfg.policy_ = .DropOldest) (h : Polite k s) {req : Req μ}
    (hreq : s.request cfg (.publisher p) = some (.main, req)) {op : Op μ}
    (hop : s.queue_.ops (.publisher p) = some op) {resp : Resp μ}
    (hanswer : answerOf op = some resp)
    (hres : (s.setQueue ⟨s.queue_.queue, update s.queue_.ops (.publisher p) none, s.queue_.hist⟩
      .main).resume cfg (.publisher p) resp = some t) : Polite k t := by
  obtain ⟨-, hc, hcase⟩ := h.asking hreq
  have hl := h.limited p
  have hout : ∀ u, u ≠ p → critical (s.publishers u) = false :=
    fun u hu ↦ h.alone (.inl (h.holder p hc)) u hu
  have hholder := h.holder p hc
  rw [hop] at hl
  simp only [Bus.resume, Bus.resumePublisher, Bus.setQueue, hp] at hres
  rcases hcase with ⟨m, hpc, -⟩ | ⟨m, hpc, -⟩
  · rw [hpc] at hl
    simp only [hpc] at hres
    cases op with
    | enqueueDone ok =>
      cases hanswer
      cases ok with
      | true =>
        simp only [PubPc.resume, Option.map_some, Option.some.injEq] at hres
        subst hres
        refine h.turn hout rfl (update_eq_self p s.discarded).symm trivial (fun _ ↦ hholder) ?_
        have hle : s.discarded p ≤ 1 := hl.le_one
        exact hle
      | false =>
        simp only [PubPc.resume, Option.map_some, Option.some.injEq] at hres
        subst hres
        refine h.turn hout rfl (update_eq_self p s.discarded).symm rfl (fun _ ↦ hholder) ?_
        refine ⟨hl.resolve_right fun hl ↦ hl.2.1 rfl, fun hr ↦ ?_⟩
        simp [Bus.goto, removed] at hr
    | dequeueDone ok value =>
      cases ok <;> cases value <;> cases hanswer <;> simp [PubPc.resume] at hres
    | _ => cases hanswer
  · rw [hpc] at hl
    simp only [hpc] at hres
    cases op with
    | enqueueDone ok =>
      cases hanswer
      cases ok <;> simp [PubPc.resume] at hres
    | dequeueDone ok value =>
      cases ok with
      | true =>
        cases value with
        | none => cases hanswer
        | some oldest =>
          cases hanswer
          simp only [PubPc.resume, Option.map_some, Option.some.injEq] at hres
          subst hres
          refine h.turn hout rfl rfl rfl (fun _ ↦ hholder) ⟨?_, hl.2 rfl⟩
          exact congrArg (· + 1) hl.1
      | false =>
        cases hanswer
        simp only [PubPc.resume, Option.map_some, Option.some.injEq] at hres
        subst hres
        exact h.turn hout rfl (update_eq_self p s.discarded).symm rfl (fun _ ↦ hholder) (.inl hl.1)
    | _ => cases hanswer

variable [DecidableEq μ]

/-- The retry of a publisher that has discarded a message never looks at a
cell that the dispatcher has claimed and not yet released. -/
def Released (cap : ℕ) (s : Bus (Sys (Agent Pid) μ) Pid μ) : FineAction Pid μ → Prop
  | .access (.publisher p) _ => 0 < s.discarded p →
    ∀ pos ∈ (s.queue_.ops (.publisher p)).bind looksAt, cap ≤ pos →
      ¬ s.queue_.Draining .loop (pos - cap)
  | _ => True

theorem Polite.publishStep (hp : cfg.policy_ = .DropOldest) (h : Polite k s) {mptr : μ}
    (hs : s.publish cfg p mptr = some t) : Polite k t := by
  have hd : t.discarded = update s.discarded p 0 := by
    unfold Bus.publish at hs
    split at hs <;> cases hs
    rfl
  obtain ⟨-, -, hpipe, ⟨pc, hpub, -, -, hf, hlock⟩, hm, -, -⟩ := publish_cases hs
  obtain rfl := hlock hp
  rw [hp] at hf
  exact h.enter hpub hd hm (congrArg Pipeline.queue_ hpipe) hf rfl rfl

theorem Polite.publisherStep (hp : cfg.policy_ = .DropOldest) (hsound : Sound cfg k s)
    (h : Polite k s) (hs : s.publisherStep cfg p = some t) : Polite k t := by
  have hf := h.points p
  have hl := h.limited p
  have hidle : s.queue_.ops (.publisher p) = none := by
    cases hop : s.queue_.ops (.publisher p) with
    | none => rfl
    | some op =>
      obtain ⟨req, hreq, -⟩ := hsound.engaged .main (.publisher p) op hop
      rw [Bus.request, publisherStep_request hs] at hreq
      cases hreq
  have hin : critical (s.publishers p) = true → ∀ q, q ≠ p → critical (s.publishers q) = false :=
    fun hc q hq ↦ h.alone (.inl (h.holder p hc)) q hq
  unfold Bus.publisherStep at hs
  cases hpc : s.publishers p with
  | lockPublish m =>
    rw [hpc] at hl
    simp only [hpc] at hs
    split at hs
    · rename_i hmutex
      cases hs
      exact h.turn (h.alone (.inr hmutex)) rfl (update_eq_self p s.discarded).symm rfl
        (fun _ ↦ rfl) (.inl hl)
    · cases hs
  | dropOldest m oldest =>
    rw [hpc] at hl
    simp only [hpc, Option.some.injEq] at hs
    subst hs
    have hq : (s.drop oldest).queue_ = s.queue_ := congrArg Pipeline.queue_ (pipeline_drop oldest)
    have hmd : (s.drop oldest).publish_mutex_ = s.publish_mutex_ ∧
        (s.drop oldest).discarded = s.discarded := by
      unfold Bus.drop Bus.notify_drop
      split <;> exact ⟨rfl, rfl⟩
    have hpub : ((s.drop oldest).goto p (.tryDropping m)).publishers =
        update s.publishers p (.tryDropping m) := by simp [Bus.goto]
    refine h.turn (hin (by rw [hpc]; rfl)) hpub (d := s.discarded p) ?_ rfl (fun _ ↦ ?_) ?_
    · rw [update_eq_self]
      exact hmd.2
    · exact hmd.1.trans (h.holder p (by rw [hpc]; rfl))
    · change Limited (Room k (s.drop oldest).queue_) _ ((s.drop oldest).queue_.ops _) _
      rw [hq, hidle]
      exact .inr ⟨hl.1, by simp, .inr hl.2⟩
  | wakeDispatcher m =>
    rw [hpc] at hl
    simp only [hpc, Option.some.injEq] at hs
    subst hs
    exact h.turn (hin (by rw [hpc]; rfl)) rfl (update_eq_self p s.discarded).symm (.inl rfl)
      (fun _ ↦ h.holder p (by rw [hpc]; rfl)) hl
  | returning m result =>
    rw [hpc] at hl
    simp only [hpc, Option.some.injEq, hp, if_pos] at hs
    subst hs
    exact h.turn (hin (by rw [hpc]; rfl)) rfl (update_eq_self p s.discarded).symm trivial
      (fun hc ↦ by cases hc) hl
  | notifyDrop m => rw [hpc] at hf; cases hf
  | lockWait m | checkRunning m last | park m | relock m last | unlockWait m enqueued =>
    rw [hpc] at hf
    rcases hf with hf | hf <;> cases hf
  | _ => simp only [hpc] at hs; cases hs

theorem Polite.threadStep (hp : cfg.policy_ = .DropOldest) (hsound : Sound cfg k s)
    (h : Polite k s) {a : Local Pid μ} (hs : s.localStep cfg a = some t) : Polite k t := by
  obtain ⟨p, mptr, hpub⟩ | ⟨p, hpub⟩ | hw := localStep_cases hs
  · exact h.publishStep hp hpub
  · exact h.publisherStep hp hsound hpub
  · exact h.woken hw (localStep_queues hs).1

theorem Polite.callStep (h : Polite k s) {ag : Agent Pid}
    (hs : step cfg s (.call ag) = some t) : Polite k t := by
  simp only [step, Option.bind_eq_some_iff, Option.map_eq_some_iff, Prod.exists] at hs
  obtain ⟨qid, req, hreq, q, hq, rfl⟩ := hs
  obtain ⟨hnone, rfl⟩ := call_cases hq
  have hroom : Room k (s.queue qid) ↔ Room k ⟨(s.queue qid).queue,
      update (s.queue qid).ops ag (some req.start), (s.queue qid).hist ++ [.call ag req]⟩ := by
    rw [room_append]
    exact Iff.rfl
  have hother : ∀ bg, bg ≠ ag → update (s.queue qid).ops ag (some req.start) bg =
      (s.queue qid).ops bg := fun bg hne ↦ update_of_ne hne _ _
  cases ag with
  | publisher p =>
    obtain ⟨rfl, hc, hcase⟩ := h.asking hreq
    have hl := h.limited p
    have hnone : s.queue_.ops (.publisher p) = none := hnone
    apply h.setMain hc
    simp only [update_self]
    rcases hcase with ⟨m, hpc, rfl⟩ | ⟨m, hpc, rfl⟩
    · rw [hpc, hnone] at hl
      rw [hpc]
      refine hl.imp_right fun hl ↦ ⟨hl.1, by simp [Req.start], .inr (hroom.mp ?_)⟩
      exact hl.2.2.resolve_left (by simp [placed])
    · rw [hpc] at hl
      rw [hpc]
      exact ⟨hl.1, fun hr ↦ by cases hr⟩
  | loop | worker i =>
    exact h.setQueue (fun p ↦ hother (.publisher p) (by simp)) fun hqid ↦ by
      subst hqid
      exact hroom.mp

theorem Polite.accessStep (hk : k ≤ 62) (hroomy : Roomy s) (hsound : Sound cfg k s)
    (h : Polite k s) {ag : Agent Pid} {spurious : Bool}
    (hok : Released (2 ^ k) s (.access ag spurious))
    (hs : step cfg s (.access ag spurious) = some t) : Polite k t := by
  simp only [step, Option.bind_eq_some_iff, Option.map_eq_some_iff, Prod.exists] at hs
  obtain ⟨qid, req, hreq, q, hq, rfl⟩ := hs
  obtain ⟨op, queue, op', hop, -, hqeq⟩ := access_cases hq
  obtain ⟨req', hreq', hbel⟩ := hsound.engaged qid ag op hop
  rw [hreq] at hreq'
  cases hreq'
  have hroom := hroomy qid
  have hother : ∀ bg, bg ≠ ag → q.ops bg = (s.queue qid).ops bg := by
    intro bg hne
    rw [hqeq]
    exact update_of_ne hne _ _
  cases ag with
  | publisher p =>
    obtain ⟨rfl, hc, hcase⟩ := h.asking hreq
    have hop : s.queue_.ops (.publisher p) = some op := hop
    have hl := h.limited p
    apply h.setMain hc
    rcases hcase with ⟨m, hpc, rfl⟩ | ⟨m, hpc, rfl⟩
    · rw [hpc] at hl ⊢
      refine hl.imp_right fun hl ↦ ⟨hl.1, ?_⟩
      apply enqueue_access (hsound.inv .main) hk (by omega) hop hbel hq hl.2.2
      intro pos hpos hle u hu
      obtain rfl := h.drained_by_loop hsound hc hop hbel hu
      refine hok (by omega) pos ?_ hle hu
      rw [hop]
      exact hpos
    · rw [hpc] at hl ⊢
      obtain ⟨hkeep, hmake⟩ := dequeue_access (hsound.inv .main) hop hbel hq
      refine ⟨hl.1, fun hr ↦ ?_⟩
      rcases hmake hr with hold | hnew
      · exact hkeep (hl.2 hold)
      · exact hnew
  | loop =>
    refine h.setQueue (fun p ↦ hother _ (by simp)) fun hqid ↦ ?_
    subst hqid
    rcases request_loop hreq with ⟨drain, hl⟩ | ⟨drain, m, hl⟩
    · simp only [Bus.request, hl, Option.some.injEq, Prod.mk.injEq, true_and] at hreq
      subst hreq
      exact (dequeue_access (hsound.inv .main) hop hbel hq).1
    · simp [Bus.request, hl] at hreq
  | worker i =>
    refine h.setQueue (fun p ↦ hother _ (by simp)) fun hqid ↦ ?_
    obtain ⟨hi, phase, hw⟩ := request_worker hreq
    subst hqid
    simp [Bus.request, hi, hw] at hreq

theorem Polite.retStep (hp : cfg.policy_ = .DropOldest) (h : Polite k s) {ag : Agent Pid}
    (hs : step cfg s (.ret ag) = some t) : Polite k t := by
  simp only [step, Option.bind_eq_some_iff, Prod.exists] at hs
  obtain ⟨qid, req, hreq, resp, ⟨op, hop, hanswer⟩, q, hq, hres⟩ := hs
  obtain ⟨-, -, -, rfl⟩ := ret_cases hq
  have hother : ∀ bg, bg ≠ ag → update (s.queue qid).ops ag none bg = (s.queue qid).ops bg :=
    fun bg hne ↦ update_of_ne hne _ _
  cases ag with
  | publisher p =>
    obtain ⟨rfl, -, -⟩ := h.asking hreq
    exact h.resumePublisher hp hreq hop hanswer hres
  | loop =>
    have hmid : Polite k (s.setQueue ⟨(s.queue qid).queue, update (s.queue qid).ops .loop none,
        (s.queue qid).hist⟩ qid) := by
      refine h.setQueue (fun p ↦ hother (.publisher p) (by simp)) fun hqid ↦ ?_
      subst hqid
      exact id
    exact hmid.woken (resumeLoop_woken hres) (resume_frame hres).1
  | worker i =>
    have hmid : Polite k (s.setQueue ⟨(s.queue qid).queue,
        update (s.queue qid).ops (.worker i) none, (s.queue qid).hist⟩ qid) := by
      refine h.setQueue (fun p ↦ hother (.publisher p) (by simp)) fun hqid ↦ ?_
      subst hqid
      exact id
    exact hmid.woken (resumeWorker_woken hres) (resume_frame hres).1

theorem Polite.step (hp : cfg.policy_ = .DropOldest) (hk : k ≤ 62) (hroomy : Roomy s)
    (hsound : Sound cfg k s) (h : Polite k s) {a : FineAction Pid μ} (hok : Released (2 ^ k) s a)
    (hs : FineBus.step cfg s a = some t) : Polite k t := by
  cases a with
  | thread a => exact h.threadStep hp hsound hs
  | call ag => exact h.callStep hs
  | access ag spurious => exact h.accessStep hk hroomy hsound hok hs
  | ret ag => exact h.retStep hp hs

/-- No call of `publish` discards more than one message. -/
theorem discards_at_most_one {capacity : ℕ} (hcap : capacity ≤ 2 ^ 62)
    (hp : cfg.policy_ = .DropOldest)
    (h : (FineBus.machine Pid cfg capacity).Reaches
      (fun s a ↦ Roomy s ∧ Released (storedCapacity capacity) s a) s) (p : Pid) :
    s.discarded p ≤ 1 := by
  obtain ⟨k, hk1, hk, hstored, -⟩ := Capacity.storedCapacity_eq hcap
  have hpolite : Polite k s := by
    refine Machine.Reaches.invariant ?_ ?_ h
    · rintro s rfl
      exact polite_initial _
    · intro s a t hr hi hok hs
      rw [hstored] at hok
      exact hi.step hp hk hok.1 (sound_reachable hk1 hk hstored (fun _ _ ha ↦ ha.1) hr) hok.2 hs
  exact (hpolite.limited p).le_one

instance [Fintype Pid] (cap : ℕ) (s : Bus (Sys (Agent Pid) μ) Pid μ) (a : FineAction Pid μ) :
    Decidable (Released cap s a) :=
  match a with
  | .access (.publisher p) _ => inferInstanceAs (Decidable
      (0 < s.discarded p → ∀ pos ∈ (s.queue_.ops (.publisher p)).bind looksAt, cap ≤ pos →
        ¬ (s.queue_.ops .loop).bind Op.draining = some (pos - cap)))
  | .access .loop _ | .access (.worker _) _ | .thread _ | .call _ | .ret _ => .isTrue trivial

end Steps

section Runs

def dropConfig : Config ℕ where
  policy_ := .DropOldest
  num_dispatchers_ := 1
  num_dispatchers_pos := Nat.one_pos
  topic_id _ := 0
  hash := id
  has_on_drop _ := false

def operation (n : ℕ) : List (FineAction Unit ℕ) :=
  .call (.publisher ()) ::
    (List.replicate n (.access (.publisher ()) false) ++ [.ret (.publisher ())])

def enter (m : ℕ) : List (FineAction Unit ℕ) :=
  [.thread (.publish () m), .thread (.publisher ())]

def leave : List (FineAction Unit ℕ) := [.thread (.publisher ()), .thread (.publisher ())]

def removeOldest : List (FineAction Unit ℕ) := operation 2 ++ operation 5

/-- The queue of four is full. The dispatcher has claimed the oldest message
and goes no further; the publisher looks at the cell of that message twice. -/
def claimedCell : List (FineAction Unit ℕ) :=
  let access : FineAction Unit ℕ := .access .loop false
  let put (m : ℕ) := enter m ++ operation 5 ++ leave
  put 0 ++ put 1 ++ put 2 ++ put 3 ++ [.thread .start, .thread (.loop none), .call .loop, access,
    access, access] ++ enter 4 ++ removeOldest ++ [.thread (.publisher ())] ++ removeOldest

/-- One call of `publish` has discarded two messages, and its own is not in. -/
theorem two_discarded : ∃ s : Bus (Sys (Agent Unit) ℕ) Unit ℕ,
    (FineBus.machine Unit dropConfig 4).Reachable s ∧ ¬ s.discarded () ≤ 1 ∧ 4 ∉ s.queue_.put :=
  ⟨_, .of_run (M := FineBus.machine Unit dropConfig 4) rfl claimedCell rfl, by decide, by decide⟩

def fullQueue : List (FineAction Unit ℕ) :=
  let put (m : ℕ) := enter m ++ operation 5 ++ leave
  put 0 ++ put 1 ++ enter 2 ++ removeOldest ++ [.thread (.publisher ())] ++ operation 5 ++ leave

theorem discards_at_most_one_full : ∃ s : Bus (Sys (Agent Unit) ℕ) Unit ℕ,
    (FineBus.machine Unit dropConfig 2).runIf (Released 2) (.initial (.construct 2)) fullQueue =
      some s ∧ s.dropped = [0] ∧ s.queue_.put = [0, 1, 2] ∧ s.discarded () ≤ 1 := by
  have h : (FineBus.machine Unit dropConfig 2).Reaches
      (fun s a ↦ Roomy s ∧ Released (storedCapacity 2) s a) _ :=
    reaches_of_short (n := 0) (.start rfl) (fun qid ↦ by cases qid <;> exact Nat.le_refl 0)
      fullQueue (by decide) rfl
  exact ⟨_, rfl, rfl, rfl, discards_at_most_one (by decide) rfl h ()⟩

end Runs

end LivioArk.Msgbus.DropLimit
