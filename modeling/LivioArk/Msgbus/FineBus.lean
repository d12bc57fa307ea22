import LivioArk.Msgbus.Capacity
import LivioArk.Msgbus.FailedAccess
import LivioArk.Msgbus.Requests
import LivioArk.Msgbus.WeakBus

namespace LivioArk.Msgbus.FineBus

open Function LivioArk.Library.Transition LivioArk.Library.QueueLog
open LockFreeQueue QueueInvariant FailedAccess MessageBus BusSteps Requests WeakBus

variable {Q Pid μ : Type}

def answerOf : Op μ → Option (Resp μ)
  | .enqueueDone ok => some (.enqueued ok)
  | .dequeueDone true (some value) => some (.dequeued (some value))
  | .dequeueDone false _ => some (.dequeued none)
  | _ => none

inductive FineAction (Pid μ : Type)
  | thread (a : Local Pid μ)
  | call (ag : Agent Pid)
  | access (ag : Agent Pid) (spurious : Bool)
  | ret (ag : Agent Pid)

/-- The position whose cell an operation is about to look at. -/
def looksAt : Op μ → Option ℕ
  | .enqueueSeq _ pos | .dequeueSeq pos => some pos
  | _ => none

def belongs : Req μ → Op μ → Prop
  | .tryEnqueue m, .enqueueLoad value | .tryEnqueue m, .enqueueSeq value _
  | .tryEnqueue m, .enqueueCas value _ | .tryEnqueue m, .enqueueStore value _ => value = m
  | .tryEnqueue _, .enqueuePublish _ | .tryEnqueue _, .enqueueDone _ => True
  | .tryDequeue, .dequeueLoad | .tryDequeue, .dequeueSeq _ | .tryDequeue, .dequeueCas _
  | .tryDequeue, .dequeueTake _ | .tryDequeue, .dequeueRelease _ _
  | .tryDequeue, .dequeueDone _ _ => True
  | _, _ => False

theorem belongs_start (req : Req μ) : belongs req req.start := by
  cases req with
  | tryEnqueue m => exact rfl
  | tryDequeue => trivial

theorem belongs_step {req : Req μ} {op op' : Op μ} {q q' : Queue μ} {spurious : Bool}
    (h : belongs req op) (hs : op.step q spurious = some (q', op')) : belongs req op' := by
  cases op with
  | enqueueLoad value | enqueueStore value pos | enqueuePublish pos =>
    cases hs
    cases req <;> first | exact h | trivial
  | enqueueSeq value pos =>
    simp only [Op.step] at hs
    split at hs
    · cases hs; cases req <;> exact h
    · split at hs <;> cases hs <;> cases req <;> first | exact h | trivial
  | enqueueCas value pos =>
    simp only [Op.step] at hs
    split at hs <;> cases hs <;> cases req <;> exact h
  | dequeueLoad | dequeueTake pos | dequeueRelease pos value =>
    cases hs
    cases req <;> exact h
  | dequeueSeq pos =>
    simp only [Op.step] at hs
    split at hs
    · cases hs; cases req <;> exact h
    · split at hs <;> cases hs <;> cases req <;> exact h
  | dequeueCas pos =>
    simp only [Op.step] at hs
    split at hs <;> cases hs <;> cases req <;> exact h
  | enqueueDone ok | dequeueDone ok value => cases hs

section View

def pending (put : List μ) : Op μ → Option (Resp μ)
  | .enqueueStore _ _ | .enqueuePublish _ => some (.enqueued true)
  | .enqueueDone ok => some (.enqueued ok)
  | .dequeueTake pos | .dequeueRelease pos _ => some (.dequeued put[pos]?)
  | .dequeueDone true value => some (.dequeued value)
  | .dequeueDone false _ => some (.dequeued none)
  | _ => none

def view (q : Sys (Agent Pid) μ) : View Pid μ :=
  ⟨⟨q.put, q.got⟩, fun ag ↦ (q.ops ag).bind (pending q.put)⟩

theorem pending_of_answer {op : Op μ} {resp : Resp μ} (put : List μ)
    (h : answerOf op = some resp) : pending put op = some resp := by
  cases op with
  | enqueueDone ok => exact h
  | dequeueDone ok value =>
    cases ok with
    | true =>
      cases value with
      | some value => exact h
      | none => cases h
    | false => exact h
  | _ => cases h

theorem pending_append {put : List μ} {op : Op μ} (m : μ)
    (hlt : ∀ p, op.filling = some p ∨ op.draining = some p → p < put.length) :
    pending (put ++ [m]) op = pending put op := by
  cases op with
  | dequeueTake pos | dequeueRelease pos value =>
    have hp : pos < put.length := hlt pos (.inr rfl)
    simp only [pending, List.getElem?_append_left hp]
  | dequeueDone ok value => cases ok <;> rfl
  | _ => rfl

variable {q q' : Sys (Agent Pid) μ} {ag : Agent Pid}

theorem resp_none {op : Op μ} (hop : q.ops ag = some op) (hp : pending q.put op = none) :
    (view q).resp ag = none := by
  simp only [view, hop, Option.bind_some, hp]

variable [DecidableEq Pid]

theorem view_update {queue : Queue μ} {op : Option (Op μ)} {hist : List (Event (Agent Pid) μ)}
    (hput : Sys.put ⟨queue, update q.ops ag op, hist⟩ = q.put)
    (hgot : Sys.got ⟨queue, update q.ops ag op, hist⟩ = q.got) :
    view ⟨queue, update q.ops ag op, hist⟩ =
      { view q with resp := update (view q).resp ag (op.bind (pending q.put)) } := by
  simp only [view, hput, hgot, View.mk.injEq, true_and]
  funext bg
  by_cases hb : bg = ag
  · subst hb
    simp
  · simp [hb]

theorem view_silent {queue : Queue μ} {op op' : Op μ} (hop : q.ops ag = some op)
    (hput : Sys.put ⟨queue, update q.ops ag (some op'), q.hist ++ op.event ag op'⟩ = q.put)
    (hgot : Sys.got ⟨queue, update q.ops ag (some op'), q.hist ++ op.event ag op'⟩ = q.got)
    (hp : pending q.put op' = pending q.put op) :
    view ⟨queue, update q.ops ag (some op'), q.hist ++ op.event ag op'⟩ = view q := by
  rw [view_update hput hgot]
  have hresp : (view q).resp ag = pending q.put op := by simp only [view, hop, Option.bind_some]
  rw [Option.bind_some, hp, ← hresp, update_eq_self]

theorem view_call {req : Req μ} (h : q.call ag req = some q') : view q' = view q := by
  obtain ⟨hop, rfl⟩ := call_cases h
  rw [view_update (by simp [Sys.put, Event.enqueued]) (by simp [Sys.got, Event.dequeued])]
  have hresp : (view q).resp ag = none := by simp only [view, hop, Option.bind_none]
  have hstart : (some req.start).bind (pending q.put) = none := by cases req <;> rfl
  rw [hstart, ← hresp, update_eq_self]

theorem view_ret (h : q.ret ag = some q') : view q' = (view q).clear ag := by
  obtain ⟨op, -, -, rfl⟩ := ret_cases h
  exact view_update rfl rfl

inductive Visible (q q' : Sys (Agent Pid) μ) (ag : Agent Pid) (req : Req μ) : Prop
  | silent : view q' = view q → Visible q q' ag req
  | exec : (view q).exec ag req = some (view q') → Visible q q' ag req
  | fail : (view q).fail ag req = some (view q') →
    (req = .tryDequeue → (view q).fifo.items = [] ∨
      ∃ pos u, q.ops ag = some (.dequeueSeq pos) ∧ q.Filling u pos) → Visible q q' ag req

variable {k : ℕ} {req : Req μ}

/-- A claimed position makes the enqueue take effect. -/
theorem view_enqueueClaim (h : Inv k q) {value : μ} {pos : ℕ} {queue : Queue μ}
    (hop : q.ops ag = some (.enqueueCas value pos)) :
    (view q).exec ag (.tryEnqueue value) =
      some (view ⟨queue, update q.ops ag (some (.enqueueStore value pos)),
        q.hist ++ [.enqueueClaim ag pos value]⟩) := by
  have hnone := resp_none hop rfl
  have hput : Sys.put ⟨queue, update q.ops ag (some (.enqueueStore value pos)),
      q.hist ++ [.enqueueClaim ag pos value]⟩ = q.put ++ [value] := by
    simp [put_snoc, Event.enqueued]
  have hgot : Sys.got ⟨queue, update q.ops ag (some (.enqueueStore value pos)),
      q.hist ++ [.enqueueClaim ag pos value]⟩ = q.got := by
    simp [got_snoc, Event.dequeued]
  simp only [View.exec, if_pos hnone, Option.some.injEq]
  simp only [view, hput, hgot, View.answer, Fifo.enqueue, View.mk.injEq, true_and]
  funext bg
  by_cases hb : bg = ag
  · subst hb
    simp [pending]
  · rw [update_of_ne hb, update_of_ne hb]
    cases hbop : q.ops bg with
    | none => rfl
    | some op => exact (pending_append value fun p hp ↦ h.op_window hbop hp).symm

theorem view_dequeueClaim (h : Inv k q) {pos : ℕ} {queue : Queue μ}
    (hop : q.ops ag = some (.dequeueCas pos)) (hpos : q.queue.dequeue_pos_ = pos) :
    (view q).exec ag .tryDequeue =
      some (view ⟨queue, update q.ops ag (some (.dequeueTake pos)),
        q.hist ++ [.dequeueClaim ag pos]⟩) := by
  have hn : pos = q.got := hpos.symm.trans h.dequeue_pos
  subst hn
  obtain ⟨hlt, -, -, -⟩ := h.published_at_dequeue (h.ops ag _ hop).2
  have hnone := resp_none hop rfl
  have hput : Sys.put ⟨queue, update q.ops ag (some (.dequeueTake q.got)),
      q.hist ++ [.dequeueClaim ag q.got]⟩ = q.put := by
    simp [put_snoc, Event.enqueued]
  have hgot : Sys.got ⟨queue, update q.ops ag (some (.dequeueTake q.got)),
      q.hist ++ [.dequeueClaim ag q.got]⟩ = q.got + 1 := by
    simp [got_snoc, Event.dequeued]
  have hget : q.put[q.got]? = some q.put[q.got] := List.getElem?_eq_getElem hlt
  have hdeq : (view q).fifo.dequeue = (⟨q.put, q.got + 1⟩, some q.put[q.got]) :=
    Fifo.dequeue_cons (Fifo.items_cons_iff.mpr ⟨hget, rfl⟩)
  simp only [View.exec, if_pos hnone, hdeq, Option.some.injEq]
  simp only [view, hput, hgot, View.answer, View.mk.injEq, true_and]
  funext bg
  by_cases hb : bg = ag
  · subst hb
    simp [pending, hget]
  · simp [hb]

theorem view_fail {queue : Queue μ} {op op' : Op μ} (hop : q.ops ag = some op)
    (hev : op.event ag op' = []) (hp : pending q.put op = none)
    (hp' : pending q.put op' = some (failed req)) :
    (view q).fail ag req =
      some (view ⟨queue, update q.ops ag (some op'), q.hist ++ op.event ag op'⟩) := by
  rw [hev, List.append_nil, view_update rfl rfl]
  simp only [View.fail, if_pos (resp_none hop hp), View.answer, Option.bind_some, hp']

theorem access_visible (h : Inv k q) (hk : k ≤ 62) (hB : q.put.length < 2 ^ 62)
    {op : Op μ} (hop : q.ops ag = some op) (hbel : belongs req op) {spurious : Bool}
    (hacc : q.access ag spurious = some q') : Visible q q' ag req := by
  obtain ⟨op', queue, op'', hop', hstep, rfl⟩ := access_cases hacc
  rw [hop] at hop'
  cases hop'
  -- Most accesses neither claim a position nor change the answer.
  have quiet : op.event ag op'' = [] → pending q.put op'' = pending q.put op →
      Visible q ⟨queue, update q.ops ag (some op''), q.hist ++ op.event ag op''⟩ ag req := by
    intro hev hp
    refine .silent (view_silent hop ?_ ?_ hp)
    · rw [hev, List.append_nil]
      rfl
    · rw [hev, List.append_nil]
      rfl
  cases op with
  | enqueueLoad value | dequeueLoad =>
    cases hstep
    exact quiet rfl rfl
  | enqueueSeq value pos =>
    have hstep' := hstep
    simp only [Op.step] at hstep
    split at hstep
    · cases hstep
      exact quiet rfl rfl
    · split at hstep
      · cases hstep
        cases req with
        | tryEnqueue m => exact .fail (view_fail hop rfl rfl rfl) fun hr ↦ by cases hr
        | tryDequeue => exact hbel.elim
      · cases hstep
        exact quiet rfl rfl
  | enqueueCas value pos =>
    simp only [Op.step] at hstep
    split at hstep
    · cases hstep
      cases req with
      | tryEnqueue m =>
        cases hbel
        exact .exec (view_enqueueClaim h hop)
      | tryDequeue => exact hbel.elim
    · cases hstep
      exact quiet rfl rfl
  | enqueueStore value pos =>
    cases hstep
    exact .silent (view_silent hop (by simp [Op.event, Sys.put, Event.enqueued])
      (by simp [Op.event, Sys.got, Event.dequeued]) rfl)
  | enqueuePublish pos =>
    cases hstep
    exact .silent (view_silent hop (by simp [Op.event, Sys.put, Event.enqueued])
      (by simp [Op.event, Sys.got, Event.dequeued]) rfl)
  | dequeueSeq pos =>
    have hstep' := hstep
    simp only [Op.step] at hstep
    split at hstep
    · cases hstep
      exact quiet rfl rfl
    · split at hstep
      · cases hstep
        cases req with
        | tryEnqueue m => exact hbel.elim
        | tryDequeue =>
          refine .fail (view_fail hop rfl rfl rfl) fun _ ↦ ?_
          rcases dequeue_fails h hk hB hop hstep' with ⟨u, hu⟩ | hempty
          · exact .inr ⟨pos, u, hop, hu⟩
          · exact .inl (Fifo.items_eq_nil_iff.mpr hempty)
      · cases hstep
        exact quiet rfl rfl
  | dequeueCas pos =>
    simp only [Op.step] at hstep
    split at hstep
    · rename_i hcas
      cases hstep
      cases req with
      | tryEnqueue m => exact hbel.elim
      | tryDequeue => exact .exec (view_dequeueClaim h hop hcas.1)
    · cases hstep
      exact quiet rfl rfl
  | dequeueTake pos =>
    cases hstep
    exact .silent (view_silent hop (by simp [Op.event, Sys.put, Event.enqueued])
      (by simp [Op.event, Sys.got, Event.dequeued]) rfl)
  | dequeueRelease pos value =>
    cases hstep
    have hvalue : value = q.put[pos]? := h.ops ag _ hop
    exact .silent (view_silent hop (by simp [Op.event, Sys.put, Event.enqueued])
      (by simp [Op.event, Sys.got, Event.dequeued]) (by rw [hvalue]; rfl))
  | enqueueDone ok | dequeueDone ok value => cases hstep

end View

theorem queue_setQueue_ne (s : Bus Q Pid μ) (q : Q) {qid qid' : QueueId} (h : qid' ≠ qid) :
    (s.setQueue q qid).queue qid' = s.queue qid' := by
  cases qid with
  | main =>
    cases qid' with
    | main => exact absurd rfl h
    | worker j => rfl
  | worker i =>
    cases qid' with
    | main => rfl
    | worker j => exact update_of_ne (by simpa using h) _ _

theorem queue_congr {s t : Bus Q Pid μ} (hq : t.queue_ = s.queue_)
    (hwq : t.worker_queues_ = s.worker_queues_) (qid : QueueId) : t.queue qid = s.queue qid := by
  cases qid with
  | main => exact hq
  | worker i => exact congrFun hwq i

theorem event_length_le {Tid α : Type} (t : Tid) (op op' : Op α) : (op.event t op').length ≤ 1 := by
  unfold Op.event
  split <;> simp

theorem put_length_succ {Tid α : Type} [DecidableEq Tid] {q q' : Sys Tid α} {a : SysAction Tid α}
    (h : q.step a = some q') : q'.put.length ≤ q.put.length + 1 := by
  have happ : ∀ (queue : Queue α) (ops : Tid → Option (Op α)) (es : List (Event Tid α)),
      es.length ≤ 1 → (Sys.put ⟨queue, ops, q.hist ++ es⟩).length ≤ q.put.length + 1 := by
    intro queue ops es hes
    have hle := List.length_filterMap_le Event.enqueued es
    simp only [Sys.put, List.filterMap_append, List.length_append]
    omega
  cases a with
  | call t req =>
    obtain ⟨-, rfl⟩ := call_cases h
    exact happ _ _ _ (by simp)
  | access t spurious =>
    obtain ⟨_, _, _, -, -, rfl⟩ := access_cases h
    exact happ _ _ _ (event_length_le _ _ _)
  | ret t =>
    obtain ⟨_, -, -, rfl⟩ := ret_cases h
    exact Nat.le_succ _

variable {cfg : Config μ} {s t : Bus (Sys (Agent Pid) μ) Pid μ} {k : ℕ} {ag : Agent Pid}
variable {qid : QueueId} {q : Sys (Agent Pid) μ}

structure Sound (cfg : Config μ) (k : ℕ) (s : Bus (Sys (Agent Pid) μ) Pid μ) : Prop where
  inv : ∀ qid, Inv k (s.queue qid)
  engaged : ∀ qid ag op, (s.queue qid).ops ag = some op →
    ∃ req, s.request cfg ag = some (qid, req) ∧ belongs req op
  unstarted : Unstarted s

/-- Far fewer positions than a `size_t` can count have been claimed. -/
def Roomy (s : Bus (Sys (Agent Pid) μ) Pid μ) : Prop :=
  ∀ qid, (s.queue qid).put.length + 1 < 2 ^ 62

theorem sound_initial : Sound cfg k (.initial (.construct (2 ^ k)) : Bus (Sys (Agent Pid) μ) Pid μ)
    where
  inv qid := by
    cases qid <;> exact inv_construct k
  engaged qid ag op hop := by
    cases qid <;> cases hop
  unstarted _ _ := rfl

variable [DecidableEq Pid]

theorem Sound.setQueue (h : Sound cfg k s) {req : Req μ} (hinv : Inv k q)
    (hreq : s.request cfg ag = some (qid, req)) (hag : ∀ op, q.ops ag = some op → belongs req op)
    (hother : ∀ bg, bg ≠ ag → q.ops bg = (s.queue qid).ops bg) :
    Sound cfg k (s.setQueue q qid) := by
  refine ⟨fun qid' ↦ ?_, fun qid' bg op hop ↦ ?_, ?_⟩
  · by_cases hq : qid' = qid
    · subst hq
      rw [queue_setQueue]
      exact hinv
    · rw [queue_setQueue_ne s q hq]
      exact h.inv qid'
  · rw [request_setQueue]
    by_cases hq : qid' = qid
    · subst hq
      rw [queue_setQueue] at hop
      by_cases hbg : bg = ag
      · subst hbg
        exact ⟨req, hreq, hag op hop⟩
      · rw [hother bg hbg] at hop
        exact h.engaged qid' bg op hop
    · rw [queue_setQueue_ne s q hq] at hop
      exact h.engaged qid' bg op hop
  · cases qid <;> exact h.unstarted

variable [DecidableEq μ]

def step (cfg : Config μ) (s : Bus (Sys (Agent Pid) μ) Pid μ) :
    FineAction Pid μ → Option (Bus (Sys (Agent Pid) μ) Pid μ)
  | .thread a => s.localStep cfg a
  | .call ag =>
    (s.request cfg ag).bind fun (qid, req) ↦
      ((s.queue qid).call ag req).map fun q ↦ s.setQueue q qid
  | .access ag spurious =>
    (s.request cfg ag).bind fun (qid, _) ↦
      ((s.queue qid).access ag spurious).map fun q ↦ s.setQueue q qid
  | .ret ag =>
    (s.request cfg ag).bind fun (qid, _) ↦
      (((s.queue qid).ops ag).bind answerOf).bind fun resp ↦
        ((s.queue qid).ret ag).bind fun q ↦ (s.setQueue q qid).resume cfg ag resp

/-- The bus over its lock-free queues. Each atomic access of an operation is a
step of its own. -/
def machine (Pid : Type) [DecidableEq Pid] (cfg : Config μ) (capacity : ℕ) :
    Machine (Bus (Sys (Agent Pid) μ) Pid μ) (FineAction Pid μ) where
  init s := s = .initial (.construct (storedCapacity capacity))
  step := step cfg

theorem Sound.threadStep (h : Sound cfg k s) {a : Local Pid μ} (hs : s.localStep cfg a = some t) :
    Sound cfg k t := by
  obtain ⟨hq, hwq, -⟩ := localStep_queues hs
  refine ⟨fun qid ↦ ?_, fun qid ag op hop ↦ ?_, localStep_unstarted h.unstarted hs⟩
  · rw [queue_congr hq hwq]
    exact h.inv qid
  · rw [queue_congr hq hwq] at hop
    obtain ⟨req, hreq, hbel⟩ := h.engaged qid ag op hop
    exact ⟨req, localStep_request h.unstarted hs hreq, hbel⟩

theorem Sound.callStep (h : Sound cfg k s) (hk1 : 1 ≤ k) (hk : k ≤ 62) (hroom : Roomy s)
    (hs : step cfg s (.call ag) = some t) : Sound cfg k t := by
  simp only [step, Option.bind_eq_some_iff, Option.map_eq_some_iff, Prod.exists] at hs
  obtain ⟨qid, req, hreq, q, hq, rfl⟩ := hs
  have hstep : (s.queue qid).step (.call ag req) = some q := hq
  have hroom := hroom qid
  have hlen := put_length_succ hstep
  refine h.setQueue ((h.inv qid).step hk1 hk hstep (by omega)) hreq (fun op hop ↦ ?_)
    fun bg hne ↦ ?_
  · obtain ⟨-, rfl⟩ := call_cases hq
    simp only [update_self, Option.some.injEq] at hop
    subst hop
    exact belongs_start req
  · obtain ⟨-, rfl⟩ := call_cases hq
    exact update_of_ne hne _ _

theorem Sound.accessStep (h : Sound cfg k s) (hk1 : 1 ≤ k) (hk : k ≤ 62) (hroom : Roomy s)
    {spurious : Bool} (hs : step cfg s (.access ag spurious) = some t) : Sound cfg k t := by
  simp only [step, Option.bind_eq_some_iff, Option.map_eq_some_iff, Prod.exists] at hs
  obtain ⟨qid, req, hreq, q, hq, rfl⟩ := hs
  have hstep : (s.queue qid).step (.access ag spurious) = some q := hq
  have hroom := hroom qid
  have hlen := put_length_succ hstep
  obtain ⟨op, queue, op', hop, hopstep, rfl⟩ := access_cases hq
  refine h.setQueue ((h.inv qid).step hk1 hk hstep (by omega)) hreq (fun o ho ↦ ?_)
    fun bg hne ↦ update_of_ne hne _ _
  obtain ⟨req', hreq', hbel⟩ := h.engaged qid ag op hop
  rw [hreq] at hreq'
  cases hreq'
  simp only [update_self, Option.some.injEq] at ho
  subst ho
  exact belongs_step hbel hopstep

theorem Sound.retStep (h : Sound cfg k s) (hk1 : 1 ≤ k) (hk : k ≤ 62) (hroom : Roomy s)
    (hs : step cfg s (.ret ag) = some t) : Sound cfg k t := by
  simp only [step, Option.bind_eq_some_iff, Prod.exists] at hs
  obtain ⟨qid, req, hreq, resp, -, q, hq, hres⟩ := hs
  have hstep : (s.queue qid).step (.ret ag) = some q := hq
  have hroom := hroom qid
  have hlen := put_length_succ hstep
  obtain ⟨op, hop, -, rfl⟩ := ret_cases hq
  have hmid := h.setQueue ((h.inv qid).step hk1 hk hstep (by omega)) hreq
    (fun o ho ↦ by simp at ho) fun bg hne ↦ update_of_ne hne _ _
  obtain ⟨hqs, hwqs, hother⟩ := resume_frame hres
  refine ⟨fun qid' ↦ ?_, fun qid' bg o ho ↦ ?_, resume_unstarted hmid.unstarted hres⟩
  · rw [queue_congr hqs hwqs]
    exact hmid.inv qid'
  · rw [queue_congr hqs hwqs] at ho
    obtain ⟨req', hreq', hbel⟩ := hmid.engaged qid' bg o ho
    have hne : bg ≠ ag := by
      -- The returning thread has no operation left, on this queue or on another.
      rintro rfl
      rw [request_setQueue, hreq] at hreq'
      cases hreq'
      rw [queue_setQueue] at ho
      simp at ho
    exact ⟨req', (hother bg hne).trans hreq', hbel⟩

theorem Sound.step (h : Sound cfg k s) (hk1 : 1 ≤ k) (hk : k ≤ 62) (hroom : Roomy s)
    {a : FineAction Pid μ} (hs : FineBus.step cfg s a = some t) : Sound cfg k t := by
  cases a with
  | thread a => exact h.threadStep hs
  | call ag => exact h.callStep hk1 hk hroom hs
  | access ag spurious => exact h.accessStep hk1 hk hroom hs
  | ret ag => exact h.retStep hk1 hk hroom hs

theorem sound_reachable {ok : Bus (Sys (Agent Pid) μ) Pid μ → FineAction Pid μ → Prop}
    {capacity : ℕ} (hk1 : 1 ≤ k) (hk : k ≤ 62) (hcap : storedCapacity capacity = 2 ^ k)
    (hok : ∀ s a, ok s a → Roomy s) (h : (machine Pid cfg capacity).Reaches ok s) :
    Sound cfg k s := by
  refine Machine.Reaches.invariant ?_ (fun s a t _ hi ha ht ↦ hi.step hk1 hk (hok s a ha) ht) h
  intro s hs
  rw [show s = .initial (.construct (storedCapacity capacity)) from hs, hcap]
  exact sound_initial

theorem step_put_length {a : FineAction Pid μ} (hs : FineBus.step cfg s a = some t)
    (qid : QueueId) : (t.queue qid).put.length ≤ (s.queue qid).put.length + 1 := by
  have hset : ∀ {qid' q} {b : SysAction (Agent Pid) μ}, (s.queue qid').step b = some q →
      ((s.setQueue q qid').queue qid).put.length ≤ (s.queue qid).put.length + 1 := by
    intro qid' q b hb
    by_cases hq : qid = qid'
    · subst hq
      rw [queue_setQueue]
      exact put_length_succ hb
    · rw [queue_setQueue_ne s q hq]
      exact Nat.le_succ _
  cases a with
  | thread a =>
    obtain ⟨hq, hwq, -⟩ := localStep_queues hs
    rw [queue_congr hq hwq]
    exact Nat.le_succ _
  | call ag =>
    simp only [FineBus.step, Option.bind_eq_some_iff, Option.map_eq_some_iff, Prod.exists] at hs
    obtain ⟨qid', req, -, q, hq, rfl⟩ := hs
    exact hset (b := .call ag req) hq
  | access ag spurious =>
    simp only [FineBus.step, Option.bind_eq_some_iff, Option.map_eq_some_iff, Prod.exists] at hs
    obtain ⟨qid', req, -, q, hq, rfl⟩ := hs
    exact hset (b := .access ag spurious) hq
  | ret ag =>
    simp only [FineBus.step, Option.bind_eq_some_iff, Prod.exists] at hs
    obtain ⟨qid', req, -, resp, -, q, hq, hres⟩ := hs
    obtain ⟨hqs, hwqs, -⟩ := resume_frame hres
    rw [queue_congr hqs hwqs]
    exact hset (b := .ret ag) hq

theorem reaches_of_short {ok : Bus (Sys (Agent Pid) μ) Pid μ → FineAction Pid μ → Prop}
    [∀ s a, Decidable (ok s a)] {capacity n : ℕ}
    (hs : (machine Pid cfg capacity).Reaches (fun s a ↦ Roomy s ∧ ok s a) s)
    (hn : ∀ qid, (s.queue qid).put.length ≤ n) (as : List (FineAction Pid μ))
    (hlen : n + as.length < 2 ^ 62) (hrun : (machine Pid cfg capacity).runIf ok s as = some t) :
    (machine Pid cfg capacity).Reaches (fun s a ↦ Roomy s ∧ ok s a) t := by
  induction as generalizing s n with
  | nil =>
    simp only [Machine.runIf, Option.some.injEq] at hrun
    exact hrun ▸ hs
  | cons a as ih =>
    simp only [Machine.runIf] at hrun
    split at hrun
    · rename_i ha
      obtain ⟨u, hu, hrun⟩ := Option.bind_eq_some_iff.mp hrun
      simp only [List.length_cons] at hlen
      have hroom : Roomy s := fun qid ↦ Nat.lt_of_le_of_lt (Nat.succ_le_succ (hn qid)) (by omega)
      refine ih (n := n + 1) (hs.next ⟨hroom, ha⟩ hu) (fun qid ↦ ?_) (by omega) hrun
      exact (step_put_length hu qid).trans (Nat.succ_le_succ (hn qid))
    · cases hrun

end LivioArk.Msgbus.FineBus
