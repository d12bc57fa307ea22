import LivioArk.Msgbus.WeakBus

namespace LivioArk.Msgbus.Acceptance

open Function LivioArk.Library.Transition LivioArk.Library.QueueLog
open LockFreeQueue MessageBus BusSteps WeakBus

variable {Pid μ : Type} {cfg : Config μ} {s t : Bus (View Pid μ) Pid μ}
variable {ag : Agent Pid} {qid : QueueId} {req : Req μ} {p : Pid}

inductive Calls (cfg : Config μ) (s : Bus (View Pid μ) Pid μ) :
    Agent Pid → QueueId → Req μ → Prop
  | publisher {p : Pid} {req : Req μ} : (s.publishers p).request = some req →
    Calls cfg s (.publisher p) .main req
  | poll {drain : Bool} : s.loop = .poll drain → Calls cfg s .loop .main .tryDequeue
  | route {drain : Bool} {m : μ} : s.loop = .route drain m →
    Calls cfg s .loop (.worker (cfg.worker m)) (.tryEnqueue m)
  | worker {i : ℕ} {phase : Phase} : i < cfg.num_dispatchers_ → s.workers i = .poll phase →
    Calls cfg s (.worker i) (.worker i) .tryDequeue

theorem calls_of_request (h : s.request cfg ag = some (qid, req)) : Calls cfg s ag qid req := by
  cases ag with
  | publisher p =>
    simp only [Bus.request, Option.map_eq_some_iff, Prod.mk.injEq] at h
    obtain ⟨r, hr, rfl, rfl⟩ := h
    exact .publisher hr
  | loop =>
    cases hl : s.loop with
    | poll drain =>
      simp only [Bus.request, hl, Option.some.injEq, Prod.mk.injEq] at h
      obtain ⟨rfl, rfl⟩ := h
      exact .poll hl
    | route drain m =>
      simp only [Bus.request, hl, Option.some.injEq, Prod.mk.injEq] at h
      obtain ⟨rfl, rfl⟩ := h
      exact .route hl
    | _ => simp only [Bus.request, hl] at h; cases h
  | worker i =>
    simp only [Bus.request] at h
    split at h
    · rename_i hi
      cases hw : s.workers i with
      | poll phase =>
        simp only [hw, Option.some.injEq, Prod.mk.injEq] at h
        obtain ⟨rfl, rfl⟩ := h
        exact .worker hi hw
      | _ => simp only [hw] at h; cases h
    · cases h

section Answers

variable [DecidableEq Pid] {v w : View Pid μ} {bg : Agent Pid}

theorem answer_resp_self (r : Resp μ) : (v.answer ag r).resp ag = some r := update_self _ _ _

theorem answer_resp_ne (r : Resp μ) (h : bg ≠ ag) : (v.answer ag r).resp bg = v.resp bg :=
  update_of_ne h _ _

theorem clear_resp_self : (v.clear ag).resp ag = none := update_self _ _ _

theorem clear_resp_ne (h : bg ≠ ag) : (v.clear ag).resp bg = v.resp bg := update_of_ne h _ _

theorem exec_cases (h : v.exec ag req = some w) :
    v.resp ag = none ∧
      ((∃ m, req = .tryEnqueue m ∧
          w = { v with fifo := v.fifo.enqueue m }.answer ag (.enqueued true)) ∨
        ∃ q m, req = .tryDequeue ∧ v.fifo.dequeue = (q, some m) ∧
          w = { v with fifo := q }.answer ag (.dequeued (some m))) := by
  unfold View.exec at h
  split at h
  · rename_i hr
    refine ⟨hr, ?_⟩
    cases req with
    | tryEnqueue m =>
      simp only [Option.some.injEq] at h
      exact .inl ⟨m, rfl, h.symm⟩
    | tryDequeue =>
      simp only at h
      split at h
      · rename_i q m hq
        cases h
        exact .inr ⟨q, m, rfl, hq, rfl⟩
      · cases h
  · cases h

theorem fail_cases (h : v.fail ag req = some w) :
    v.resp ag = none ∧ w = v.answer ag (failed req) := by
  unfold View.fail at h
  split at h
  · rename_i hr
    cases h
    exact ⟨hr, rfl⟩
  · cases h

/-- An operation that takes effect never takes a message off the log. -/
theorem exec_put_subset (h : v.exec ag req = some w) : v.fifo.put ⊆ w.fifo.put := by
  obtain ⟨-, ⟨m, -, rfl⟩ | ⟨q, m, -, hq, rfl⟩⟩ := exec_cases h
  · exact List.subset_append_left _ _
  · have hput := (Fifo.dequeue_head hq).2.2.1
    exact fun a ha ↦ hput ▸ ha

end Answers

/-- What the publishers know: a message whose `publish` is going to return
true is in the queue's log, or has been discarded. -/
structure Sent (cfg : Config μ) (s : Bus (View Pid μ) Pid μ) : Prop where
  fits : ∀ p, fits cfg.policy_ (s.publishers p)
  answered : ∀ p, s.queue_.resp (.publisher p) = some (.enqueued true) →
    ∃ m, (s.publishers p).request = some (.tryEnqueue m) ∧ m ∈ s.queue_.fifo.put
  settled : ∀ p m, stage (s.publishers p) = some (m, .settled) →
    m ∈ s.queue_.fifo.put ∨ m ∈ s.dropped
  results : ∀ m, (m, true) ∈ s.results → m ∈ s.queue_.fifo.put ∨ m ∈ s.dropped

theorem Sent.initial : Sent cfg (.initial .empty : Bus (View Pid μ) Pid μ) where
  fits _ := trivial
  answered _ h := by cases h
  settled _ _ h := by cases h
  results _ h := by cases h

/-- Steps that leave the main queue and what is recorded about messages alone. -/
theorem Sent.woken (h : Sent cfg s) (hw : Woken s t) (hq : t.queue_ = s.queue_) : Sent cfg t where
  fits p := hw.fits (h.fits p)
  answered p hp := by
    rw [hq] at hp ⊢
    rw [hw.request_eq]
    exact h.answered p hp
  settled p m hp := by
    rw [hw.stage_eq] at hp
    rw [hq, show t.dropped = s.dropped from congrArg Ledger.dropped hw.ledger]
    exact h.settled p m hp
  results m hm := by
    rw [show t.results = s.results from congrArg Ledger.results hw.ledger] at hm
    rw [hq, show t.dropped = s.dropped from congrArg Ledger.dropped hw.ledger]
    exact h.results m hm

theorem Sent.setQueue (h : Sent cfg s) {v : View Pid μ}
    (hput : (s.queue qid).fifo.put ⊆ v.fifo.put)
    (hresp : ∀ u, v.resp (.publisher u) = some (.enqueued true) →
      (s.queue qid).resp (.publisher u) = some (.enqueued true) ∨
        ∃ m, (s.publishers u).request = some (.tryEnqueue m) ∧ m ∈ v.fifo.put) :
    Sent cfg (s.setQueue v qid) := by
  cases qid with
  | worker i => exact ⟨h.fits, h.answered, h.settled, h.results⟩
  | main =>
    refine ⟨h.fits, fun u hu ↦ ?_, fun u m hu ↦ ?_, fun m hm ↦ ?_⟩
    · rcases hresp u hu with hold | hnew
      · obtain ⟨m, hm, hin⟩ := h.answered u hold
        exact ⟨m, hm, hput hin⟩
      · exact hnew
    · exact (h.settled u m hu).imp_left fun hin ↦ hput hin
    · exact (h.results m hm).imp_left fun hin ↦ hput hin

theorem Sent.accepted_subset [DecidableEq μ] (h : Sent cfg s) :
    s.acceptedNow ⊆ s.queue_.fifo.put := by
  intro m hm
  simp only [Bus.acceptedNow, List.mem_filterMap] at hm
  obtain ⟨⟨m', r⟩, hmem, hr⟩ := hm
  split at hr
  · rename_i hcond
    obtain ⟨hrt, hd⟩ := hcond
    simp only [Option.some.injEq] at hr
    subst hr
    have hr : r = true := hrt
    subst hr
    exact (h.results m' hmem).resolve_right hd
  · cases hr

/-- A step of a publisher settles a message only by discarding it, and
forgets no message that is settled. -/
theorem Turn.keeps [DecidableEq μ] {pc : PubPc μ} {l : Ledger μ} (h : Turn s p pc l) :
    s.dropped ⊆ l.dropped ∧
      (∀ m, stage pc = some (m, .settled) →
        stage (s.publishers p) = some (m, .settled) ∨ m ∈ l.dropped) ∧
      ∀ m, (m, true) ∈ l.results →
        (m, true) ∈ s.results ∨ stage (s.publishers p) = some (m, .settled) := by
  cases h with
  | silent hstage _ =>
    rw [hstage]
    exact ⟨List.Subset.refl _, fun m hm ↦ .inl hm, fun m hm ↦ .inl hm⟩
  | reject hpc hpc' _ =>
    subst hpc'
    refine ⟨List.Subset.refl _, fun m hm ↦ ?_, fun m hm ↦ .inl hm⟩
    cases hm
  | @drop d _ _ hcase =>
    refine ⟨?_, fun m hm ↦ ?_, fun m hm ↦ .inl ?_⟩
    · simp [ledger]
    · rcases hcase with hsame | ⟨-, hset⟩
      · exact .inl (hsame ▸ hm)
      · rw [hset] at hm
        cases hm
        exact .inr (by simp [ledger])
    · simpa [ledger] using hm
  | @result m' r hpc hidle =>
    subst hidle
    refine ⟨List.Subset.refl _, fun m hm ↦ (by cases hm), fun m hm ↦ ?_⟩
    rcases List.mem_append.mp hm with hm | hm
    · exact .inl hm
    · cases List.mem_singleton.mp hm
      exact .inr (by rw [hpc]; rfl)

variable [DecidableEq Pid]

theorem Sent.answered_update (h : Sent cfg s) {pc : PubPc μ}
    (hreq : (s.publishers p).request = none) (hq : t.queue_ = s.queue_)
    (hpub : t.publishers = update s.publishers p pc) (u : Pid)
    (hu : t.queue_.resp (.publisher u) = some (.enqueued true)) :
    ∃ m, (t.publishers u).request = some (.tryEnqueue m) ∧ m ∈ t.queue_.fifo.put := by
  rw [hq] at hu ⊢
  obtain ⟨m, hm, hput⟩ := h.answered u hu
  have hne : u ≠ p := by
    rintro rfl
    rw [hreq] at hm
    cases hm
  exact ⟨m, by rw [hpub, update_of_ne hne]; exact hm, hput⟩

theorem Sent.resumePublisher (h : Sent cfg s) {resp : Resp μ}
    (hresp : s.queue_.resp (.publisher p) = some resp)
    (hs : (s.setQueue (s.queue_.clear (.publisher p)) .main).resume cfg (.publisher p) resp =
      some t) : Sent cfg t := by
  obtain ⟨pc, hpc, hpub, hledger, hpipe, -, -⟩ := resumePublisher_cases hs
  have hq : t.queue_ = s.queue_.clear (.publisher p) := congrArg Pipeline.queue_ hpipe
  have hd : t.dropped = s.dropped := congrArg Ledger.dropped hledger
  have hr : t.results = s.results := congrArg Ledger.results hledger
  have hpc : (s.publishers p).resume cfg.policy_ resp = some pc := hpc
  have hpub : t.publishers = update s.publishers p pc := hpub
  refine ⟨fun u ↦ ?_, fun u hu ↦ ?_, fun u m hu ↦ ?_, ?_⟩
  · by_cases hup : u = p
    · subst hup
      rw [hpub, update_self]
      exact fits_resume (h.fits u) hpc
    · rw [hpub, update_of_ne hup]
      exact h.fits u
  · rw [hq] at hu ⊢
    have hne : u ≠ p := by
      rintro rfl
      rw [clear_resp_self] at hu
      cases hu
    rw [clear_resp_ne (by simpa using hne)] at hu
    rw [hpub, update_of_ne hne]
    exact h.answered u hu
  · rw [hq, hd]
    by_cases hup : u = p
    · subst hup
      rw [hpub, update_self] at hu
      cases resp with
      | enqueued ok =>
        cases ok with
        | true =>
          obtain ⟨m', hm', hput⟩ := h.answered u hresp
          obtain ⟨m'', hm'', -, -, hst, -⟩ := resume_enqueued hpc
          rw [hst] at hu
          cases hu
          rw [hm'] at hm''
          cases hm''
          exact .inl hput
        | false =>
          obtain ⟨m', -, -, -, hcase⟩ := resume_full hpc
          rcases hcase with ⟨hst, -⟩ | ⟨hst, -, -⟩ | ⟨rfl, -⟩
          · rw [hst] at hu
            cases hu
          · rw [hst] at hu
            cases hu
          · cases hu
      | dequeued value =>
        obtain ⟨m', -, hst, -⟩ := resume_dequeued hpc
        rw [hst] at hu
        cases hu
    · rw [hpub, update_of_ne hup] at hu
      exact h.settled u m hu
  · rw [hq, hd, hr]
    exact h.results

variable [DecidableEq μ]

theorem Sent.publish (h : Sent cfg s) {mptr : μ} (hs : s.publish cfg p mptr = some t) :
    Sent cfg t := by
  obtain ⟨hidle, -, hpipe, ⟨pc, hpub, hstage, -, hfits, -⟩, -, -, hledger⟩ := publish_cases hs
  have hq : t.queue_ = s.queue_ := congrArg Pipeline.queue_ hpipe
  have hd : t.dropped = s.dropped := congrArg Ledger.dropped hledger
  have hr : t.results = s.results := congrArg Ledger.results hledger
  refine ⟨fun u ↦ ?_, h.answered_update (by rw [hidle]; rfl) hq hpub, fun u m hu ↦ ?_, ?_⟩
  · by_cases hup : u = p
    · subst hup
      rw [hpub, update_self]
      exact hfits
    · rw [hpub, update_of_ne hup]
      exact h.fits u
  · rw [hq, hd]
    by_cases hup : u = p
    · subst hup
      rw [hpub, update_self, hstage] at hu
      cases hu
    · rw [hpub, update_of_ne hup] at hu
      exact h.settled u m hu
  · rw [hq, hd, hr]
    exact h.results

theorem Sent.publisherStep (h : Sent cfg s) (hs : s.publisherStep cfg p = some t) :
    Sent cfg t := by
  obtain ⟨pc, hpub, hpipe, hturn⟩ := publisherStep_turn hs
  have hq : t.queue_ = s.queue_ := congrArg Pipeline.queue_ hpipe
  obtain ⟨hdropped, hstage, hresults⟩ := Turn.keeps hturn
  have keep : ∀ m, m ∈ s.queue_.fifo.put ∨ m ∈ s.dropped →
      m ∈ s.queue_.fifo.put ∨ m ∈ t.dropped := fun m hm ↦ hm.imp_right fun hd ↦ hdropped hd
  refine ⟨fun u ↦ publisherStep_fits (h.fits u) hs,
    h.answered_update (publisherStep_request hs) hq hpub, fun u m hu ↦ ?_, fun m hm ↦ ?_⟩
  · rw [hq]
    by_cases hup : u = p
    · subst hup
      rw [hpub, update_self] at hu
      rcases hstage m hu with hm | hm
      · exact keep m (h.settled u m hm)
      · exact .inr hm
    · rw [hpub, update_of_ne hup] at hu
      exact keep m (h.settled u m hu)
  · rw [hq]
    rcases hresults m hm with hm | hm
    · exact keep m (h.results m hm)
    · exact keep m (h.settled p m hm)

theorem Sent.localStep (h : Sent cfg s) {a : Local Pid μ} (hs : s.localStep cfg a = some t) :
    Sent cfg t := by
  obtain ⟨p, mptr, hp⟩ | ⟨p, hp⟩ | hw := localStep_cases hs
  · exact h.publish hp
  · exact h.publisherStep hp
  · exact h.woken hw (localStep_queues hs).1

theorem Sent.exec (h : Sent cfg s) (hs : step cfg s (.exec ag) = some t) : Sent cfg t := by
  simp only [step, Option.bind_eq_some_iff, Option.map_eq_some_iff, Prod.exists] at hs
  obtain ⟨qid, req, hreq, v, hv, rfl⟩ := hs
  refine h.setQueue (exec_put_subset hv) fun u hu ↦ ?_
  obtain ⟨-, hcase⟩ := exec_cases hv
  by_cases hag : ag = .publisher u
  · subst hag
    right
    rcases hcase with ⟨m, rfl, rfl⟩ | ⟨q, m, rfl, -, rfl⟩
    · cases calls_of_request hreq with
      | publisher hp => exact ⟨m, hp, by simp [View.answer, Fifo.enqueue]⟩
    · rw [answer_resp_self] at hu
      cases hu
  · left
    have hne : Agent.publisher u ≠ ag := fun he ↦ hag he.symm
    rcases hcase with ⟨m, -, rfl⟩ | ⟨q, m, -, -, rfl⟩
    · rwa [answer_resp_ne _ hne] at hu
    · rwa [answer_resp_ne _ hne] at hu

theorem Sent.fail (h : Sent cfg s) (hs : step cfg s (.fail ag) = some t) : Sent cfg t := by
  simp only [step, Option.bind_eq_some_iff, Option.map_eq_some_iff, Prod.exists] at hs
  obtain ⟨qid, req, hreq, v, hv, rfl⟩ := hs
  obtain ⟨-, rfl⟩ := fail_cases hv
  refine h.setQueue (List.Subset.refl _) fun u hu ↦ ?_
  left
  by_cases hag : ag = .publisher u
  · subst hag
    rw [answer_resp_self] at hu
    cases req <;> cases hu
  · have hne : Agent.publisher u ≠ ag := fun he ↦ hag he.symm
    rwa [answer_resp_ne _ hne] at hu

theorem Sent.ret (h : Sent cfg s) (hs : step cfg s (.ret ag) = some t) : Sent cfg t := by
  simp only [step, Option.bind_eq_some_iff, Prod.exists] at hs
  obtain ⟨qid, req, hreq, resp, hresp, hs⟩ := hs
  have hcleared : ag = .loop ∨ (∃ i, ag = .worker i) →
      Sent cfg (s.setQueue ((s.queue qid).clear ag) qid) := by
    intro hag
    refine h.setQueue (List.Subset.refl _) fun u hu ↦ .inl ?_
    have hne : Agent.publisher u ≠ ag := by
      rcases hag with rfl | ⟨i, rfl⟩ <;> simp
    rwa [clear_resp_ne hne] at hu
  cases ag with
  | publisher p =>
    cases calls_of_request hreq with
    | publisher hp => exact h.resumePublisher hresp hs
  | loop =>
    have hw := resumeLoop_woken hs
    refine (hcleared (.inl rfl)).woken hw ?_
    simp only [Bus.resume, Bus.resumeLoop] at hs
    split at hs <;> cases hs <;> rfl
  | worker i =>
    have hw := resumeWorker_woken hs
    refine (hcleared (.inr ⟨i, rfl⟩)).woken hw ?_
    simp only [Bus.resume, Bus.resumeWorker] at hs
    split at hs <;> cases hs <;> rfl

theorem sent_reachable {ok : Bus (View Pid μ) Pid μ → ViewAction Pid μ → Prop}
    (h : (machine Pid cfg).Reaches ok s) : Sent cfg s := by
  refine Machine.Reaches.invariant ?_ ?_ h
  · intro s hs
    subst hs
    exact .initial
  · intro s a t _ hsent _ hs
    cases a with
    | thread a => exact hsent.localStep hs
    | exec ag => exact hsent.exec hs
    | fail ag => exact hsent.fail hs
    | ret ag => exact hsent.ret hs

end LivioArk.Msgbus.Acceptance
