import LivioArk.Library.Transition
import Mathlib.Data.Fintype.Basic

namespace LivioArk.Msgbus.Lifecycle

open Function LivioArk.Library.Transition

variable {Tid : Type}

/-- A thread that calls the bus. A dispatcher does so from a handler. -/
inductive Caller (Tid : Type) where
  | outside (t : Tid)
  | dispatcher (k : ℕ)
  deriving DecidableEq

inductive Role where
  | dispatchLoop
  | routerLoop
  | workerLoop (worker_id : ℕ)
  deriving DecidableEq

/-- The loops on `running_` and on `router_drained_`, and the last one, which ends
when its queue is empty. -/
inductive Stage where
  | running
  | awaiting
  | draining
  | exited
  deriving DecidableEq

structure Dispatcher where
  role : Role
  stage : Stage := .running
  handling : Bool := false
  deriving DecidableEq

inductive CallPc where
  | idle
  | create (roles : List Role)
  | notifyAll
  | size
  | joinFirst
  | setDrained
  | join (i : ℕ)
  | clear
  | reset
  deriving DecidableEq

/-- The bus and all dispatchers it ever created. A handle in `dispatchers_` is the
number of its thread, joinable until the thread is among the joined ones. The
queues are left out: whether a loop finds a message is up to the schedule.
`stopped` says that a call of `stop` has returned and no `start` began since. -/
structure Life (Tid : Type) where
  running_ : Bool := false
  router_drained_ : Bool := false
  dispatchers_ : List ℕ := []
  threads : List Dispatcher := []
  joined : List ℕ := []
  calls : Caller Tid → CallPc := fun _ ↦ .idle
  destroying : Option Tid := none
  terminated : Bool := false
  stopped : Bool := false

inductive LifeAction (Tid : Type) where
  | start (c : Caller Tid)
  | stop (c : Caller Tid)
  | destroy (t : Tid)
  | callStep (c : Caller Tid)
  | turn (k : ℕ)
  | dispatch (k : ℕ)
  | return_ (k : ℕ)

/-- The threads that `start` creates, in this order. -/
def roles (num_dispatchers_ : ℕ) : List Role :=
  if num_dispatchers_ = 1 then [.dispatchLoop]
  else .routerLoop :: (List.range num_dispatchers_).map .workerLoop

namespace Life

variable (s : Life Tid)

/-- Destroying a joinable handle ends the program. -/
def anyJoinable : Bool := s.dispatchers_.any fun k ↦ k ∉ s.joined

def setThread (k : ℕ) (d : Dispatcher) : Life Tid := { s with threads := s.threads.set k d }

/-- The condition of the loop is looked at. -/
def turn (k : ℕ) : Option (Life Tid) :=
  match s.threads[k]? with
  | none => none
  | some d =>
    if d.handling then none
    else
      match d.stage, d.role with
      | .running, .workerLoop _ =>
        some (if s.running_ then s else s.setThread k { d with stage := .awaiting })
      | .running, _ =>
        some (if s.running_ then s else s.setThread k { d with stage := .draining })
      | .awaiting, _ =>
        some (if s.router_drained_ then s.setThread k { d with stage := .draining } else s)
      | .draining, _ => some (s.setThread k { d with stage := .exited })
      | .exited, _ => none

/-- A message is found and a handler called. The router only passes messages on. -/
def dispatch (k : ℕ) : Option (Life Tid) :=
  match s.threads[k]? with
  | none => none
  | some d =>
    if d.handling ∨ d.stage = .exited ∨ d.role = .routerLoop then none
    else some (s.setThread k { d with handling := true })

variable (c : Caller Tid)

def mayCall : Bool :=
  s.calls c = .idle && !s.terminated &&
    match c with
    | .outside _ => s.destroying.isNone
    | .dispatcher k => s.threads[k]?.any Dispatcher.handling

variable [DecidableEq Tid]

def goto (pc : CallPc) : Life Tid := { s with calls := update s.calls c pc }

def start (num_dispatchers_ : ℕ) : Life Tid :=
  if s.running_ then { s with stopped := false }
  else { s.goto c (.create (roles num_dispatchers_)) with running_ := true, stopped := false }

/-- `stop` returns. When the destructor has called it, the handles go next. -/
def returns : Life Tid :=
  { s.goto c .idle with
    stopped := true
    terminated := s.terminated || (s.destroying.any (fun t ↦ c = .outside t) && s.anyJoinable) }

def stop : Life Tid :=
  if s.running_ then { s.goto c .notifyAll with running_ := false } else s.returns c

/-- `dispatchers_[i]` is joined if it is joinable. Joining the calling thread
throws, and the exception leaves `stop`. -/
def joinAt (i : ℕ) (next : CallPc) : Option (Life Tid) :=
  match s.dispatchers_[i]? with
  | none => none
  | some k =>
    if k ∈ s.joined then some (s.goto c next)
    else if c = .dispatcher k then some (s.goto c .idle)
    else if s.threads[k]?.any fun d ↦ d.stage = .exited then
      some { s.goto c next with joined := s.joined ++ [k] }
    else none

def callStep : Option (Life Tid) :=
  match s.calls c with
  | .idle => none
  | .create [] => some (s.goto c .idle)
  | .create (role :: roles) => some
    { s.goto c (.create roles) with
      threads := s.threads ++ [{ role }]
      dispatchers_ := s.dispatchers_ ++ [s.threads.length] }
  | .notifyAll => some (s.goto c .size)
  | .size => some (s.goto c (if 1 < s.dispatchers_.length then .joinFirst else .join 0))
  | .joinFirst => s.joinAt c 0 .setDrained
  | .setDrained => some { s.goto c (.join 1) with router_drained_ := true }
  | .join i =>
    if i < s.dispatchers_.length then s.joinAt c i (.join (i + 1)) else some (s.goto c .clear)
  | .clear => some
    { s.goto c .reset with dispatchers_ := [], terminated := s.terminated || s.anyJoinable }
  | .reset => some ({ s with router_drained_ := false }.returns c)

/-- A handler returns, or what it throws is swallowed. -/
def return_ (k : ℕ) : Option (Life Tid) :=
  match s.threads[k]? with
  | none => none
  | some d =>
    if d.handling ∧ s.calls (.dispatcher k) = .idle then
      some (s.setThread k { d with handling := false })
    else none

end Life

section Machine

variable [DecidableEq Tid] (num_dispatchers_ : ℕ)

def step (s : Life Tid) : LifeAction Tid → Option (Life Tid)
  | .start c => if s.mayCall c then some (s.start c num_dispatchers_) else none
  | .stop c => if s.mayCall c then some (s.stop c) else none
  | .destroy t =>
    if s.mayCall (.outside t) then some ({ s with destroying := some t }.stop (.outside t))
    else none
  | .callStep c => s.callStep c
  | .turn k => s.turn k
  | .dispatch k => s.dispatch k
  | .return_ k => s.return_ k

def machine (Tid : Type) [DecidableEq Tid] (num_dispatchers_ : ℕ) :
    Machine (Life Tid) (LifeAction Tid) where
  init s := s = {}
  step := step num_dispatchers_

end Machine

def Calm (s : Life Tid) : Prop :=
  (∀ t, s.calls (.outside t) = .idle) ∧ ∀ k < s.threads.length, s.calls (.dispatcher k) = .idle

/-- Calls of `start` and `stop` do not overlap, and `stop` finds the bus running or
without dispatchers. -/
def Orderly (s : Life Tid) : LifeAction Tid → Prop
  | .start _ => s.running_ = false → Calm s
  | .stop _ | .destroy _ => Calm s ∧ (s.running_ = false → s.dispatchers_ = [])
  | _ => True

def PcFits (s : Life Tid) : CallPc → Prop
  | .idle => True
  | .create _ => s.running_ = true
  | .notifyAll | .size | .joinFirst => s.running_ = false
  | .setDrained => s.running_ = false ∧ ∀ k, s.dispatchers_[0]? = some k → k ∈ s.joined
  | .join i => s.running_ = false ∧ ∀ j < i, ∀ k, s.dispatchers_[j]? = some k → k ∈ s.joined
  | .clear => s.running_ = false ∧ ∀ k ∈ s.dispatchers_, k ∈ s.joined
  | .reset => s.running_ = false ∧ s.dispatchers_ = []

structure Fits (s : Life Tid) : Prop where
  kept : ∀ k < s.threads.length, k ∈ s.joined ∨ k ∈ s.dispatchers_
  joined : ∀ k ∈ s.joined, ∃ d, s.threads[k]? = some d ∧ d.stage = .exited
  exited : ∀ d ∈ s.threads, d.stage = .exited → d.handling = false
  caller : ∀ k, s.calls (.dispatcher k) ≠ .idle → k < s.threads.length
  single : ∀ c c', s.calls c ≠ .idle → s.calls c' ≠ .idle → c = c'
  pcs : ∀ c, PcFits s (s.calls c)
  stopped : s.stopped = true →
    s.running_ = false ∧ s.dispatchers_ = [] ∧ ∀ c, s.calls c = .idle
  terminated : s.terminated = false

section Preservation

variable {s s' : Life Tid} {c : Caller Tid} {pc : CallPc} {k : ℕ}

theorem fits_initial : Fits ({} : Life Tid) where
  kept _ h := absurd h (Nat.not_lt_zero _)
  joined _ h := (by cases h)
  exited _ h := (by cases h)
  caller _ h := absurd rfl h
  single _ _ h := absurd rfl h
  pcs _ := trivial
  stopped h := (by cases h)
  terminated := rfl

theorem Fits.calm (h : Fits s) : Calm s ↔ ∀ c, s.calls c = .idle := by
  refine ⟨fun hcalm c ↦ ?_, fun hidle ↦ ⟨fun t ↦ hidle _, fun k _ ↦ hidle _⟩⟩
  cases c with
  | outside t => exact hcalm.1 t
  | dispatcher k =>
    refine Decidable.of_not_not fun hne ↦ ?_
    exact hne (hcalm.2 k (h.caller k hne))

theorem caller_of_mayCall (hmay : s.mayCall c = true) (hc : c = .dispatcher k) :
    k < s.threads.length := by
  subst hc
  simp only [Life.mayCall, Bool.and_eq_true] at hmay
  obtain ⟨d, hd, _⟩ := (Option.any_eq_true _ _).mp hmay.2
  exact (List.getElem?_eq_some_iff.mp hd).1

theorem PcFits.congr (h : PcFits s pc) (hrunning : s'.running_ = s.running_)
    (hdispatchers : s'.dispatchers_ = s.dispatchers_) (hjoined : s'.joined = s.joined) :
    PcFits s' pc := by
  cases pc <;> simp only [PcFits, hrunning, hdispatchers, hjoined] at h ⊢ <;> exact h

theorem Fits.destroying (h : Fits s) (t : Option Tid) : Fits { s with destroying := t } :=
  { h with pcs := fun c ↦ (h.pcs c).congr rfl rfl rfl }

theorem anyJoinable_false (h : ∀ k ∈ s.dispatchers_, k ∈ s.joined) : s.anyJoinable = false := by
  simpa [Life.anyJoinable] using h

theorem Fits.others (h : Fits s) (hc : s.calls c ≠ .idle) : ∀ c' ≠ c, s.calls c' = .idle := by
  intro c' hne
  refine Decidable.of_not_not fun hbusy ↦ ?_
  exact hne (h.single c' c hbusy hc)

theorem Fits.setThread (h : Fits s) {d d' : Dispatcher} (hd : s.threads[k]? = some d)
    (hstage : d.stage ≠ .exited) (hd' : d'.stage = .exited → d'.handling = false) :
    Fits (s.setThread k d') := by
  refine ⟨?_, fun j hj ↦ ?_, fun e he hst ↦ ?_, ?_, h.single, fun c ↦ ?_, h.stopped, h.terminated⟩
  · simp only [Life.setThread, List.length_set]
    exact h.kept
  · obtain ⟨e, he, hst⟩ := h.joined j hj
    have hne : k ≠ j := by
      rintro rfl
      rw [hd, Option.some.injEq] at he
      exact hstage (he ▸ hst)
    refine ⟨e, ?_, hst⟩
    rw [Life.setThread, List.getElem?_set_ne hne]
    exact he
  · rcases List.mem_or_eq_of_mem_set he with he | rfl
    · exact h.exited e he hst
    · exact hd' hst
  · simp only [Life.setThread, List.length_set]
    exact h.caller
  · exact (h.pcs c).congr rfl rfl rfl

theorem Fits.turn (h : Fits s) (hs : s.turn k = some s') : Fits s' := by
  rw [Life.turn] at hs
  cases hd : s.threads[k]? with
  | none => simp [hd] at hs
  | some d =>
    simp only [hd] at hs
    split at hs
    · cases hs
    · rename_i hhandling
      have hset : ∀ stage, d.stage ≠ .exited → Fits (s.setThread k { d with stage }) :=
        fun stage hstage ↦ h.setThread hd hstage fun _ ↦ by simpa using hhandling
      have hstay : ∀ (b : Bool) stage, d.stage ≠ .exited →
          Fits (if b then s else s.setThread k { d with stage }) := by
        intro b stage hstage
        cases b with
        | true => exact h
        | false => exact hset stage hstage
      cases hstage : d.stage with
      | running =>
        have hne : d.stage ≠ .exited := by simp [hstage]
        cases hrole : d.role <;> simp only [hstage, hrole, Option.some.injEq] at hs <;> subst hs
        · exact hrole ▸ hstay s.running_ .draining hne
        · exact hrole ▸ hstay s.running_ .draining hne
        · exact hrole ▸ hstay s.running_ .awaiting hne
      | awaiting =>
        simp only [hstage, Option.some.injEq] at hs
        subst hs
        split
        · exact hset .draining (by simp [hstage])
        · exact h
      | draining =>
        simp only [hstage, Option.some.injEq] at hs
        exact hs ▸ hset .exited (by simp [hstage])
      | exited => simp [hstage] at hs

theorem Fits.dispatch (h : Fits s) (hs : s.dispatch k = some s') : Fits s' := by
  rw [Life.dispatch] at hs
  cases hd : s.threads[k]? with
  | none => simp [hd] at hs
  | some d =>
    simp only [hd] at hs
    split at hs
    · cases hs
    · rename_i hnot
      rw [not_or, not_or] at hnot
      cases hs
      exact h.setThread hd hnot.2.1 fun hst ↦ absurd hst hnot.2.1

theorem Fits.return_ (h : Fits s) (hs : s.return_ k = some s') : Fits s' := by
  rw [Life.return_] at hs
  cases hd : s.threads[k]? with
  | none => simp [hd] at hs
  | some d =>
    simp only [hd] at hs
    split at hs
    · rename_i hhandling
      cases hs
      refine h.setThread hd (fun hst ↦ ?_) fun _ ↦ rfl
      have hnot := h.exited d (List.mem_of_getElem? hd) hst
      rw [hhandling.1] at hnot
      cases hnot
    · cases hs

variable [DecidableEq Tid]

theorem fits_advance (hothers : ∀ c' ≠ c, s.calls c' = .idle)
    (hcalls : s'.calls = update s.calls c pc)
    (hkept : ∀ k < s'.threads.length, k ∈ s'.joined ∨ k ∈ s'.dispatchers_)
    (hjoined : ∀ k ∈ s'.joined, ∃ d, s'.threads[k]? = some d ∧ d.stage = .exited)
    (hexited : ∀ d ∈ s'.threads, d.stage = .exited → d.handling = false)
    (hcaller : ∀ k, c = .dispatcher k → k < s'.threads.length) (hpc : PcFits s' pc)
    (hstopped : s'.stopped = true →
      s'.running_ = false ∧ s'.dispatchers_ = [] ∧ pc = .idle)
    (hterminated : s'.terminated = false) : Fits s' := by
  have hidle : ∀ c' ≠ c, s'.calls c' = .idle := by
    intro c' hne
    rw [hcalls, update_of_ne hne]
    exact hothers c' hne
  have hbusy : ∀ c', s'.calls c' ≠ .idle → c' = c :=
    fun c' hc' ↦ Decidable.of_not_not fun hne ↦ hc' (hidle c' hne)
  refine ⟨hkept, hjoined, hexited, fun k hk ↦ hcaller k (hbusy _ hk).symm,
    fun c₁ c₂ h₁ h₂ ↦ (hbusy c₁ h₁).trans (hbusy c₂ h₂).symm, fun c' ↦ ?_, fun hs ↦ ?_,
    hterminated⟩
  · by_cases hc : c' = c
    · rw [hc, hcalls, update_self]
      exact hpc
    · rw [hidle c' hc]
      trivial
  · obtain ⟨hrunning, hnil, rfl⟩ := hstopped hs
    refine ⟨hrunning, hnil, fun c' ↦ ?_⟩
    by_cases hc : c' = c
    · rw [hc, hcalls, update_self]
    · exact hidle c' hc

theorem Fits.goto (h : Fits s) (hothers : ∀ c' ≠ c, s.calls c' = .idle)
    (hbusy : s.calls c ≠ .idle) (hpc : PcFits s pc) : Fits (s.goto c pc) := by
  refine fits_advance hothers rfl h.kept h.joined h.exited (fun k hc ↦ ?_) (hpc.congr rfl rfl rfl)
    (fun hs ↦ absurd ((h.stopped hs).2.2 c) hbusy) h.terminated
  exact h.caller k (hc ▸ hbusy)

theorem Fits.returns (h : Fits s) (hothers : ∀ c' ≠ c, s.calls c' = .idle)
    (hcaller : ∀ k, c = .dispatcher k → k < s.threads.length) (hrunning : s.running_ = false)
    (hnil : s.dispatchers_ = []) : Fits (s.returns c) := by
  refine fits_advance (s := s) hothers rfl h.kept h.joined h.exited hcaller trivial
    (fun _ ↦ ⟨hrunning, hnil, rfl⟩) ?_
  simp [Life.returns, Life.anyJoinable, hnil, h.terminated]

theorem Fits.joinAt (h : Fits s) {i : ℕ} {next : CallPc} (hbusy : s.calls c ≠ .idle)
    (hs : s.joinAt c i next = some s')
    (hnext : ∀ joined : List ℕ, s.joined ⊆ joined →
      (∀ k, s.dispatchers_[i]? = some k → k ∈ joined) → PcFits { s with joined } next) :
    Fits s' := by
  have hothers := h.others hbusy
  have hcaller : ∀ k, c = .dispatcher k → k < s.threads.length :=
    fun k hc ↦ h.caller k (hc ▸ hbusy)
  rw [Life.joinAt] at hs
  cases hk : s.dispatchers_[i]? with
  | none => simp [hk] at hs
  | some k =>
    simp only [hk] at hs
    split at hs
    · rename_i hjoined
      cases hs
      refine h.goto hothers hbusy (hnext s.joined (fun _ h ↦ h) fun k' hk' ↦ ?_)
      rw [hk, Option.some.injEq] at hk'
      exact hk' ▸ hjoined
    · split at hs
      · cases hs
        exact h.goto hothers hbusy trivial
      · split at hs
        · rename_i hexited
          cases hs
          have hfits := hnext (s.joined ++ [k]) (List.subset_append_left _ _) fun k' hk' ↦ by
            rw [hk, Option.some.injEq] at hk'
            exact hk' ▸ List.mem_append_right _ (List.mem_singleton_self _)
          refine fits_advance hothers rfl (fun j hj ↦ ?_) (fun j hj ↦ ?_) h.exited hcaller ?_
            (fun hst ↦ absurd ((h.stopped hst).2.2 c) hbusy) h.terminated
          · exact (h.kept j hj).imp_left fun hj ↦ List.mem_append_left _ hj
          · rcases List.mem_append.mp hj with hj | hj
            · exact h.joined j hj
            · rw [List.mem_singleton.mp hj]
              obtain ⟨d, hd, hst⟩ := (Option.any_eq_true _ _).mp hexited
              exact ⟨d, hd, by simpa using hst⟩
          · exact hfits.congr rfl rfl rfl
        · cases hs

theorem Fits.start (h : Fits s) {n : ℕ} (hmay : s.mayCall c = true)
    (hcalm : s.running_ = false → Calm s) : Fits (s.start c n) := by
  have hcaller : ∀ k, c = .dispatcher k → k < s.threads.length := fun k ↦ caller_of_mayCall hmay
  rw [Life.start]
  split
  · exact { h with
      pcs := fun c ↦ (h.pcs c).congr rfl rfl rfl
      stopped := fun hs ↦ by cases hs }
  · rename_i hrunning
    have hidle := h.calm.mp (hcalm (by simpa using hrunning))
    exact fits_advance (fun c' _ ↦ hidle c') rfl h.kept h.joined h.exited hcaller rfl
      (fun hs ↦ by cases hs) h.terminated

theorem Fits.stop (h : Fits s) (hcaller : ∀ k, c = .dispatcher k → k < s.threads.length)
    (hcalm : Calm s) (hnil : s.running_ = false → s.dispatchers_ = []) : Fits (s.stop c) := by
  have hidle := h.calm.mp hcalm
  rw [Life.stop]
  split
  · rename_i hrunning
    refine fits_advance (fun c' _ ↦ hidle c') rfl h.kept h.joined h.exited hcaller rfl
      (fun hs ↦ ?_) h.terminated
    have hstopped := (h.stopped hs).1
    rw [hrunning] at hstopped
    cases hstopped
  · rename_i hrunning
    have hrunning : s.running_ = false := by simpa using hrunning
    exact h.returns (fun c' _ ↦ hidle c') hcaller hrunning (hnil hrunning)

theorem Fits.callStep (h : Fits s) (hs : s.callStep c = some s') : Fits s' := by
  have hfits := h.pcs c
  rw [Life.callStep] at hs
  by_cases hbusy : s.calls c = .idle
  · simp [hbusy] at hs
  have hothers := h.others hbusy
  have hnot : s.stopped = true → False := fun hst ↦ hbusy ((h.stopped hst).2.2 c)
  have hcaller : ∀ k, c = .dispatcher k → k < s.threads.length :=
    fun k hc ↦ h.caller k (hc ▸ hbusy)
  cases hpc : s.calls c with
  | idle => exact absurd hpc hbusy
  | create roles =>
    rw [hpc] at hfits
    cases roles with
    | nil =>
      simp only [hpc, Option.some.injEq] at hs
      exact hs ▸ h.goto hothers hbusy trivial
    | cons role roles =>
      simp only [hpc, Option.some.injEq] at hs
      subst hs
      refine fits_advance hothers rfl (fun k hk ↦ ?_) (fun k hk ↦ ?_) (fun d hd hst ↦ ?_)
        (fun k hc ↦ ?_) hfits (fun hst ↦ (hnot hst).elim) h.terminated
      · rw [List.length_append, List.length_singleton] at hk
        rcases Nat.lt_succ_iff_lt_or_eq.mp hk with hk | rfl
        · exact (h.kept k hk).imp_right fun hk ↦ List.mem_append_left _ hk
        · exact .inr (List.mem_append_right _ (List.mem_singleton_self _))
      · obtain ⟨d, hd, hst⟩ := h.joined k hk
        refine ⟨d, ?_, hst⟩
        rw [List.getElem?_append_left (List.getElem?_eq_some_iff.mp hd).1]
        exact hd
      · rcases List.mem_append.mp hd with hd | hd
        · exact h.exited d hd hst
        · rw [List.mem_singleton.mp hd]
      · rw [List.length_append]
        exact Nat.lt_add_right _ (hcaller k hc)
  | notifyAll =>
    rw [hpc] at hfits
    simp only [hpc, Option.some.injEq] at hs
    exact hs ▸ h.goto hothers hbusy hfits
  | size =>
    rw [hpc] at hfits
    simp only [hpc, Option.some.injEq] at hs
    subst hs
    apply h.goto hothers hbusy
    split
    · exact hfits
    · exact ⟨hfits, fun j hj ↦ absurd hj (Nat.not_lt_zero j)⟩
  | joinFirst =>
    rw [hpc] at hfits
    simp only [hpc] at hs
    exact h.joinAt hbusy hs fun joined _ hjoined ↦ ⟨hfits, hjoined⟩
  | setDrained =>
    rw [hpc] at hfits
    simp only [hpc, Option.some.injEq] at hs
    subst hs
    refine fits_advance hothers rfl h.kept h.joined h.exited hcaller ⟨hfits.1, fun j hj ↦ ?_⟩
      (fun hst ↦ (hnot hst).elim) h.terminated
    rw [Nat.lt_one_iff.mp hj]
    exact hfits.2
  | join i =>
    rw [hpc] at hfits
    simp only [hpc] at hs
    split at hs
    · refine h.joinAt hbusy hs fun joined hsub hjoined ↦ ⟨hfits.1, fun j hj k hk ↦ ?_⟩
      rcases Nat.lt_succ_iff_lt_or_eq.mp hj with hj | rfl
      · exact hsub (hfits.2 j hj k hk)
      · exact hjoined k hk
    · rename_i hlen
      cases hs
      refine h.goto hothers hbusy ⟨hfits.1, fun k hk ↦ ?_⟩
      -- every index of the list has been passed
      obtain ⟨j, hj, hk⟩ := List.mem_iff_getElem.mp hk
      apply hfits.2 j (Nat.lt_of_lt_of_le hj (Nat.le_of_not_lt hlen)) k
      rw [List.getElem?_eq_getElem hj, hk]
  | clear =>
    rw [hpc] at hfits
    simp only [hpc, Option.some.injEq] at hs
    subst hs
    refine fits_advance hothers rfl (fun k hk ↦ .inl ?_) h.joined h.exited hcaller ⟨hfits.1, rfl⟩
      (fun hst ↦ (hnot hst).elim) ?_
    · exact (h.kept k hk).elim (fun hk ↦ hk) (hfits.2 k)
    · simp [h.terminated, anyJoinable_false hfits.2]
  | reset =>
    rw [hpc] at hfits
    simp only [hpc, Option.some.injEq] at hs
    subst hs
    refine fits_advance (s := s) hothers rfl h.kept h.joined h.exited hcaller trivial
      (fun _ ↦ ⟨hfits.1, hfits.2, rfl⟩) ?_
    simp [Life.returns, Life.anyJoinable, hfits.2, h.terminated]

end Preservation

section Runs

variable [DecidableEq Tid] {s s' : Life Tid} {n : ℕ}

theorem Fits.step (h : Fits s) {a : LifeAction Tid} (ha : Orderly s a)
    (hs : Lifecycle.step n s a = some s') : Fits s' := by
  cases a with
  | start c =>
    simp only [Lifecycle.step] at hs
    split at hs
    · rename_i hmay
      cases hs
      exact h.start hmay ha
    · cases hs
  | stop c =>
    simp only [Lifecycle.step] at hs
    split at hs
    · rename_i hmay
      cases hs
      exact h.stop (fun k ↦ caller_of_mayCall hmay) ha.1 ha.2
    · cases hs
  | destroy t =>
    simp only [Lifecycle.step] at hs
    split at hs
    · cases hs
      exact (h.destroying (some t)).stop (fun k hc ↦ by cases hc) ha.1 ha.2
    · cases hs
  | callStep c => exact h.callStep hs
  | turn k => exact h.turn hs
  | dispatch k => exact h.dispatch hs
  | return_ k => exact h.return_ hs

theorem fits_reaches (hs : (machine Tid n).Reaches Orderly s) : Fits s := by
  refine Machine.Reaches.invariant (fun s hs ↦ ?_) (fun s a t _ h ha ht ↦ h.step ha ht) hs
  rw [show s = {} from hs]
  exact fits_initial

/-- After `stop` no dispatcher is left, none of them runs a handler, and every
handle has been joined. -/
theorem lifecycle_safe (hs : (machine Tid n).Reaches Orderly s) :
    s.terminated = false ∧ (s.stopped = true →
      s.dispatchers_ = [] ∧ ∀ (k : ℕ) (d : Dispatcher), s.threads[k]? = some d →
        k ∈ s.joined ∧ d.stage = .exited ∧ d.handling = false) := by
  have h := fits_reaches hs
  refine ⟨h.terminated, fun hstopped ↦ ⟨(h.stopped hstopped).2.1, fun k d hd ↦ ?_⟩⟩
  have hkept := h.kept k (List.getElem?_eq_some_iff.mp hd).1
  rw [(h.stopped hstopped).2.1] at hkept
  have hjoined : k ∈ s.joined := hkept.resolve_right List.not_mem_nil
  obtain ⟨d', hd', hexited⟩ := h.joined k hjoined
  obtain rfl : d = d' := Option.some.inj (hd.symm.trans hd')
  exact ⟨hjoined, hexited, h.exited d (List.mem_of_getElem? hd) hexited⟩

end Runs

instance [Fintype Tid] (s : Life Tid) : Decidable (Calm s) :=
  inferInstanceAs (Decidable ((∀ t, s.calls (.outside t) = .idle) ∧
    ∀ k < s.threads.length, s.calls (.dispatcher k) = .idle))

instance [Fintype Tid] (s : Life Tid) (a : LifeAction Tid) : Decidable (Orderly s a) :=
  match a with
  | .start _ => inferInstanceAs (Decidable (s.running_ = false → Calm s))
  | .stop _ | .destroy _ =>
    inferInstanceAs (Decidable (Calm s ∧ (s.running_ = false → s.dispatchers_ = [])))
  | .callStep _ | .turn _ | .dispatch _ | .return_ _ => .isTrue trivial

def owner : Caller Unit := .outside ()

def twoWorkers : List (LifeAction Unit) :=
  [.start owner, .callStep owner, .callStep owner, .callStep owner, .callStep owner, .dispatch 1,
    .stop owner, .callStep owner, .callStep owner, .turn 0, .turn 0, .callStep owner,
    .callStep owner, .return_ 1, .turn 1, .turn 1, .dispatch 1, .return_ 1, .turn 1,
    .callStep owner, .turn 2, .turn 2, .turn 2, .callStep owner, .callStep owner, .callStep owner,
    .callStep owner, .destroy ()]

theorem twoWorkers_run : ((machine Unit 2).runIf Orderly {} twoWorkers).map (fun s ↦
    (s.stopped, s.terminated, s.threads.length)) = some (true, false, 3) := by
  decide +kernel

theorem lifecycle_safe_twoWorkers : ∃ s : Life Unit, (machine Unit 2).Reaches Orderly s ∧
    s.threads.length = 3 ∧ s.dispatchers_ = [] ∧ ∀ (k : ℕ) (d : Dispatcher),
      s.threads[k]? = some d → k ∈ s.joined ∧ d.stage = .exited ∧ d.handling = false := by
  obtain ⟨s, hrun, he⟩ := Option.map_eq_some_iff.mp twoWorkers_run
  simp only [Prod.mk.injEq] at he
  have hs : (machine Unit 2).Reaches Orderly s := .of_runIf (.start rfl) twoWorkers hrun
  exact ⟨s, hs, he.2.2, (lifecycle_safe hs).2 he.1⟩

/-- A handler calls `stop`, which throws when it joins its own thread. The
destructor then finds the bus stopped. -/
def stopInHandler : List (LifeAction Unit) :=
  [.start owner, .callStep owner, .callStep owner, .dispatch 0, .stop (.dispatcher 0),
    .callStep (.dispatcher 0), .callStep (.dispatcher 0), .callStep (.dispatcher 0), .return_ 0,
    .destroy ()]

theorem stopInHandler_run : ((machine Unit 1).run {} stopInHandler).map (fun s ↦
    (s.stopped, s.dispatchers_, s.joined, s.terminated)) = some (true, [0], [], true) := by
  decide +kernel

/-- `stop` has returned, and a joinable handle is destroyed. -/
theorem left_joinable : ∃ s : Life Unit, (machine Unit 1).Reachable s ∧ s.stopped = true ∧
    s.dispatchers_ = [0] ∧ s.joined = [] ∧ s.terminated = true := by
  obtain ⟨s, hrun, he⟩ := Option.map_eq_some_iff.mp stopInHandler_run
  simp only [Prod.mk.injEq] at he
  exact ⟨s, .of_run (M := machine Unit 1) rfl stopInHandler hrun, he⟩

end LivioArk.Msgbus.Lifecycle
