import LivioArk.Msgbus.FineBus
import LivioArk.Msgbus.Shutdown
import Mathlib.Data.Fintype.Basic

namespace LivioArk.Msgbus.Draining

open Function LivioArk.Library.Transition LivioArk.Library.QueueLog
open LockFreeQueue MessageBus BusSteps WeakBus FineBus Shutdown

variable {Q Pid μ : Type} {cfg : Config μ} {s t : Bus (Sys (Agent Pid) μ) Pid μ} {k : ℕ}

/-- The drain of the loop never looks at a cell that a publisher has claimed
and not yet published. -/
def Clear (s : Bus (Sys (Agent Pid) μ) Pid μ) : FineAction Pid μ → Prop
  | .access .loop _ => s.loop = .poll true → ∀ pos ∈ (s.queue_.ops .loop).bind looksAt,
    ∀ p, ¬ s.queue_.Filling (.publisher p) pos
  | _ => True

theorem setQueue_self (s : Bus Q Pid μ) (qid : QueueId) : s.setQueue (s.queue qid) qid = s := by
  cases qid with
  | main => rfl
  | worker i => simp only [Bus.setQueue, Bus.queue, update_eq_self]

/-- A change that does not show leaves the bus as it was seen. -/
theorem mapQ_setQueue_same {Q R : Type} (f : Q → R) (s : Bus Q Pid μ) {q : Q} {qid : QueueId}
    (h : f q = f (s.queue qid)) : mapQ f (s.setQueue q qid) = mapQ f s := by
  rw [← mapQ_setQueue, h, ← mapQ_queue f s, setQueue_self]

theorem filling_request (h : Sound cfg k s) {qid : QueueId} {pos : ℕ} {u : Agent Pid}
    (hu : (s.queue qid).Filling u pos) : ∃ m, s.request cfg u = some (qid, .tryEnqueue m) := by
  cases hop : (s.queue qid).ops u with
  | none => simp [Sys.Filling, hop] at hu
  | some op =>
    obtain ⟨req, hreq, hbel⟩ := h.engaged _ u op hop
    have hfill : op.filling = some pos := (QueueInvariant.filling_of_op hop).mp hu
    cases req with
    | tryEnqueue m => exact ⟨m, hreq⟩
    | tryDequeue => cases op <;> first | exact hbel.elim | cases hfill

/-- Only the router puts messages into a worker queue. -/
theorem router_fills (h : Sound cfg k s) {i pos : ℕ} {u : Agent Pid}
    (hu : (s.queue (.worker i)).Filling u pos) : ∃ drain m, s.loop = .route drain m := by
  obtain ⟨m, hreq⟩ := filling_request h hu
  cases u with
  | publisher p => simp [Bus.request] at hreq
  | loop =>
    rcases Requests.request_loop hreq with ⟨drain, hl⟩ | hroute
    · simp [Bus.request, hl] at hreq
    · exact hroute
  | worker j =>
    obtain ⟨hj, phase, hw⟩ := Requests.request_worker hreq
    simp [Bus.request, hj, hw] at hreq

theorem publisher_fills (h : Sound cfg k s) {pos : ℕ} {u : Agent Pid}
    (hu : (s.queue .main).Filling u pos) : ∃ p, u = .publisher p := by
  obtain ⟨m, hreq⟩ := filling_request h hu
  cases u with
  | publisher p => exact ⟨p, rfl⟩
  | loop =>
    rcases Requests.request_loop hreq with ⟨drain, hl⟩ | ⟨drain, m', hl⟩
    · simp [Bus.request, hl] at hreq
    · simp [Bus.request, hl] at hreq
  | worker j =>
    obtain ⟨hj, phase, hw⟩ := Requests.request_worker hreq
    simp [Bus.request, hj, hw] at hreq

variable [DecidableEq Pid] [DecidableEq μ]

theorem simulate_access (h : Sound cfg k s) (hk : k ≤ 62) (hroom : Roomy s)
    (hw : (WeakBus.machine Pid cfg).Reaches Exact (mapQ view s)) {ag : Agent Pid} {spurious : Bool}
    (hok : Clear s (.access ag spurious))
    (hs : FineBus.step cfg s (.access ag spurious) = some t) :
    Machine.Steps (WeakBus.machine Pid cfg) Exact (mapQ view s) (mapQ view t) := by
  simp only [FineBus.step, Option.bind_eq_some_iff, Option.map_eq_some_iff, Prod.exists] at hs
  obtain ⟨qid, req, hreq, q, hq, rfl⟩ := hs
  obtain ⟨op, -, -, hop, -⟩ := QueueInvariant.access_cases hq
  obtain ⟨req', hreq', hbel⟩ := h.engaged qid ag op hop
  rw [hreq] at hreq'
  cases hreq'
  have hroom := hroom qid
  have hweak : (mapQ view s).request cfg ag = some (qid, req) := (mapQ_request _ _ _).trans hreq
  cases access_visible (h.inv qid) hk (by omega) hop hbel hq with
  | silent hsame =>
    rw [mapQ_setQueue_same view s hsame]
    exact .refl _
  | exec hexec =>
    have hstep : WeakBus.step cfg (mapQ view s) (.exec ag) =
        some (mapQ view (s.setQueue q qid)) := by
      simp only [WeakBus.step, hweak, Option.bind_some, mapQ_queue, hexec, Option.map_some,
        mapQ_setQueue]
    exact .one (b := .exec ag) trivial hstep
  | fail hfail hwhy =>
    have hstep : WeakBus.step cfg (mapQ view s) (.fail ag) =
        some (mapQ view (s.setQueue q qid)) := by
      simp only [WeakBus.step, hweak, Option.bind_some, mapQ_queue, hfail, Option.map_some,
        mapQ_setQueue]
    refine .one (b := .fail ag) ?_ hstep
    cases ag with
    | publisher p => trivial
    | loop =>
      intro hl
      have hl : s.loop = .poll true := hl
      simp only [Bus.request, hl, Option.some.injEq, Prod.mk.injEq] at hreq
      obtain ⟨rfl, rfl⟩ := hreq
      rcases hwhy rfl with hempty | ⟨pos, u, hseq, hu⟩
      · exact hempty
      · obtain ⟨p, rfl⟩ := publisher_fills h hu
        have hlook : pos ∈ (s.queue_.ops .loop).bind looksAt := by
          rw [show s.queue_.ops .loop = some (.dequeueSeq pos) from hseq]
          rfl
        exact absurd hu (hok hl pos hlook p)
    | worker i =>
      intro hp
      have hp : s.workers i = .poll .final := hp
      obtain ⟨hi, -⟩ := Requests.request_worker hreq
      simp only [Bus.request, if_pos hi, hp, Option.some.injEq, Prod.mk.injEq] at hreq
      obtain ⟨rfl, rfl⟩ := hreq
      rcases hwhy rfl with hempty | ⟨pos, u, -, hu⟩
      · exact hempty
      · -- The router has finished before the last loop of a worker begins.
        obtain ⟨drain, m, hroute⟩ := router_fills h hu
        have hl : s.loop = .finished := (closing_reachable hw).phases.final i (by
          rw [show (pipeline (mapQ view s)).workers i = .poll .final from hp]
          rfl)
        rw [hroute] at hl
        cases hl

theorem simulate_ret {ag : Agent Pid} (hs : FineBus.step cfg s (.ret ag) = some t) :
    Machine.Steps (WeakBus.machine Pid cfg) Exact (mapQ view s) (mapQ view t) := by
  simp only [FineBus.step, Option.bind_eq_some_iff, Prod.exists] at hs
  obtain ⟨qid, req, hreq, resp, ⟨op, hop, hanswer⟩, q, hq, hres⟩ := hs
  have hweak : (mapQ view s).request cfg ag = some (qid, req) := (mapQ_request _ _ _).trans hreq
  have hresp : (view (s.queue qid)).resp ag = some resp := by
    simp only [view, hop, Option.bind_some, pending_of_answer _ hanswer]
  have hstep : WeakBus.step cfg (mapQ view s) (.ret ag) = some (mapQ view t) := by
    simp only [WeakBus.step, hweak, Option.bind_some, mapQ_queue, hresp]
    rw [← view_ret hq, mapQ_setQueue, mapQ_resume, hres]
    rfl
  exact .one (b := .ret ag) trivial hstep

/-- As long as the drain does not look at a message on its way into the queue,
the bus behaves as over queues that operations enter and leave at once. -/
theorem simulate {capacity : ℕ} (hcap : capacity ≤ 2 ^ 62)
    (h : (FineBus.machine Pid cfg capacity).Reaches (fun s a ↦ Roomy s ∧ Clear s a) s) :
    (WeakBus.machine Pid cfg).Reaches Exact (mapQ view s) := by
  obtain ⟨k, hk1, hk, hstored, -⟩ := Capacity.storedCapacity_eq hcap
  refine Machine.Reaches.simulate (f := mapQ view) ?_ ?_ h
  · rintro s rfl
    rfl
  · intro s a t hr hw hok hs
    have hsound := sound_reachable hk1 hk hstored (fun _ _ ha ↦ ha.1) hr
    cases a with
    | thread a =>
      refine .one (b := .thread a) trivial ?_
      have hm : (mapQ view s).localStep cfg a = (s.localStep cfg a).map (mapQ view) :=
        mapQ_localStep _ _ _
      rw [show s.localStep cfg a = some t from hs] at hm
      exact hm
    | call ag =>
      have hs : FineBus.step cfg s (.call ag) = some t := hs
      simp only [FineBus.step, Option.bind_eq_some_iff, Option.map_eq_some_iff,
        Prod.exists] at hs
      obtain ⟨qid, req, -, q, hq, rfl⟩ := hs
      rw [mapQ_setQueue_same view s (view_call hq)]
      exact .refl _
    | access ag spurious => exact simulate_access hsound hk hok.1 hw hok.2 hs
    | ret ag => exact simulate_ret hs

/-- What was accepted before `stop` has been handled when `stop` returns. -/
theorem accepted_handled {capacity : ℕ} (hcap : capacity ≤ 2 ^ 62) (hp : cfg.policy_ ≠ .DropOldest)
    (h : (FineBus.machine Pid cfg capacity).Reaches (fun s a ↦ Roomy s ∧ Clear s a) s)
    (hstop : s.stopper = .returned) {m : μ} (hm : m ∈ s.accepted) :
    .finish (cfg.worker m) m ∈ s.events :=
  (closing_reachable (simulate hcap h)).accepted_finished hstop hp hm

instance [Fintype Pid] (s : Bus (Sys (Agent Pid) μ) Pid μ) (a : FineAction Pid μ) :
    Decidable (Clear s a) :=
  match a with
  | .access .loop _ => inferInstanceAs (Decidable
      (s.loop = .poll true → ∀ pos ∈ (s.queue_.ops .loop).bind looksAt,
        ∀ p, ¬ (s.queue_.ops (.publisher p)).bind Op.filling = some pos))
  | .access (.publisher _) _ | .access (.worker _) _ | .thread _ | .call _ | .ret _ =>
    .isTrue trivial

section Runs

def singleConfig : Config ℕ where
  policy_ := .ReturnFalse
  num_dispatchers_ := 1
  num_dispatchers_pos := Nat.one_pos
  topic_id _ := 0
  hash := id
  has_on_drop _ := false

def published (p : Bool) (m : ℕ) : List (FineAction Bool ℕ) :=
  let access : FineAction Bool ℕ := .access (.publisher p) false
  [.thread (.publish p m), .call (.publisher p), access, access, access, access, access,
    .ret (.publisher p), .thread (.publisher p), .thread (.publisher p)]

def emptyPoll : List (FineAction Bool ℕ) :=
  [.thread (.loop none), .call .loop, .access .loop false, .access .loop false, .ret .loop]

def fullPoll : List (FineAction Bool ℕ) :=
  let access : FineAction Bool ℕ := .access .loop false
  [.thread (.loop none), .call .loop, access, access, access, access, access, .ret .loop,
    .thread (.loop none), .thread (.loop none), .thread (.loop none)]

/-- One publisher stops between its claim and its store. Another one puts a
message behind it, and then the bus is stopped. -/
def stalledPublisher : List (FineAction Bool ℕ) :=
  let access : FineAction Bool ℕ := .access (.publisher false) false
  [.thread (.publish false 0), .call (.publisher false), access, access, access] ++
    published true 1 ++ [.thread .start, .thread .stop, .thread .stop] ++ emptyPoll ++
    [.thread .stop, .thread .stop]

/-- `publish` of message 1 has returned true before `stop`, and `stop` has
returned; nobody has handled the message. -/
theorem accepted_lost : ∃ s : Bus (Sys (Agent Bool) ℕ) Bool ℕ,
    (FineBus.machine Bool singleConfig 2).Reachable s ∧ s.stopper = .returned ∧ 1 ∈ s.accepted ∧
      ∀ w, .finish w 1 ∉ s.events :=
  ⟨_, .of_run (M := FineBus.machine Bool singleConfig 2) rfl stalledPublisher rfl, rfl, by decide,
    fun _ h ↦ by cases h⟩

def quietShutdown : List (FineAction Bool ℕ) :=
  published true 1 ++ [.thread .start, .thread .stop, .thread .stop] ++ fullPoll ++
    emptyPoll.tail ++ [.thread .stop, .thread .stop]

theorem accepted_handled_quiet : ∃ s : Bus (Sys (Agent Bool) ℕ) Bool ℕ,
    (FineBus.machine Bool singleConfig 2).runIf Clear (.initial (.construct 2)) quietShutdown =
      some s ∧ s.stopper = .returned ∧ s.accepted = [1] ∧ .finish 0 1 ∈ s.events := by
  have h : (FineBus.machine Bool singleConfig 2).Reaches (fun s a ↦ Roomy s ∧ Clear s a) _ :=
    reaches_of_short (n := 0) (.start rfl) (fun qid ↦ by cases qid <;> exact Nat.le_refl 0)
      quietShutdown (by decide) rfl
  exact ⟨_, rfl, rfl, rfl, accepted_handled (by decide) (by decide) h rfl List.mem_cons_self⟩

end Runs

end LivioArk.Msgbus.Draining
