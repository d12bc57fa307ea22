import LivioArk.Msgbus.Backpressure
import Mathlib.Data.List.DropRight

namespace LivioArk.Msgbus.Accounting

open Function LivioArk.Library.Transition LivioArk.Library.QueueLog
open LockFreeQueue MessageBus BusSteps AtomicBus Backpressure

variable {Pid μ : Type} {cfg : Config μ} {s t : Bus (Fifo μ) Pid μ} {cap : ℕ}

/-- What the critical section of `DropOldest` keeps up as long as nobody else
takes from the queue: it discards only from a full queue, and refills it. -/
structure KeepsLast (cap : ℕ) (s : Bus (Fifo μ) Pid μ) : Prop where
  points : ∀ p, fits .DropOldest (s.publishers p)
  holder : ∀ p, critical (s.publishers p) = true → s.publish_mutex_ = some p
  placed : (∃ p m, stage (s.publishers p) = some (m, .settled) ∧
      s.queue_.put = s.results.map Prod.fst ++ [m]) ∨
    (∀ p m, stage (s.publishers p) ≠ some (m, .settled)) ∧
      s.queue_.put = s.results.map Prod.fst
  full : s.taken = [] → ∀ p m, s.publishers p = .takeOldest m → s.queue_.items.length = cap
  level : s.taken = [] → s.queue_.got = 0 ∨ s.queue_.items.length = cap ∨
    s.queue_.items.length + 1 = cap ∧
      ∃ p m, s.publishers p = .tryDropping m ∨ ∃ oldest, s.publishers p = .dropOldest m oldest

theorem keepsLast_initial (cap : ℕ) : KeepsLast cap (.initial .empty : Bus (Fifo μ) Pid μ) where
  points _ := trivial
  holder _ h := by cases h
  placed := .inr ⟨by simp [Bus.initial, stage], rfl⟩
  full _ _ _ h := by cases h
  level _ := .inl rfl

theorem critical_of_settled {pc : PubPc μ} {m : μ} (h : stage pc = some (m, .settled))
    (hf : fits .DropOldest pc) : critical pc = true := by
  cases pc with
  | unlockWait m' enqueued => rcases hf with hf | hf <;> cases hf
  | wakeDispatcher m' => rfl
  | returning m' result => rfl
  | _ => cases h

theorem KeepsLast.same (h : KeepsLast cap s) (hw : Woken s t) (hput : t.queue_.put = s.queue_.put)
    (hq : t.taken = [] → t.queue_ = s.queue_ ∧ s.taken = []) : KeepsLast cap t := by
  have hpub := publishers_of_woken hw h.points
  have hres : t.results = s.results := congrArg Ledger.results hw.ledger
  refine ⟨?_, ?_, ?_, fun ht ↦ ?_, fun ht ↦ ?_⟩
  · rw [hpub]; exact h.points
  · rw [hpub, hw.mutex]; exact h.holder
  · rw [hpub, hput, hres]; exact h.placed
  · rw [hpub, (hq ht).1]; exact h.full (hq ht).2
  · rw [hpub, (hq ht).1]; exact h.level (hq ht).2

theorem KeepsLast.alone {p : Pid} (h : KeepsLast cap s) (hm : s.publish_mutex_ = some p ∨
    s.publish_mutex_ = none) (q : Pid) (hq : q ≠ p) : critical (s.publishers q) = false := by
  by_contra hc
  rw [Bool.not_eq_false] at hc
  have := h.holder q hc
  rcases hm with hm | hm
  · rw [hm] at this
    exact hq (Option.some.inj this).symm
  · rw [hm] at this
    cases this

theorem count_eq_ite [DecidableEq μ] {l : List μ} {m : μ} (h : l.count m ≤ 1) :
    l.count m = if m ∈ l then 1 else 0 := by
  split
  · rename_i hm
    have := List.count_pos_iff.mpr hm
    omega
  · rename_i hm
    exact List.count_eq_zero.mpr hm

theorem at_rest_of [DecidableEq μ] {policy : FullPolicy} {a : Accounts.Book μ}
    (hR : Represents cfg s a) (hi : Accounts.Inv policy cap a)
    (hidle : ∀ p, s.publishers p = .idle) {m : μ}
    (hm : m ∈ s.offered) :
    s.queue_.items.count m + s.taken.count m + (if (m, false) ∈ s.results then 1 else 0) +
      (if m ∈ s.dropped then 1 else 0) = 1 := by
  have hle := hi.places_le_one m
  have hpos := hi.places_pos_iff.mpr (hR.offered ▸ hm)
  have hw : a.waiting.count m = 0 := by
    refine List.count_eq_zero.mpr fun hw ↦ ?_
    obtain ⟨p, hp⟩ := (hR.waiting m).mp hw
    rw [hidle p] at hp
    cases hp
  have hr : a.rejected.count m = if (m, false) ∈ s.results then 1 else 0 := by
    rw [count_eq_ite (by simp only [Accounts.Book.places] at hle; omega)]
    refine if_congr ?_ rfl rfl
    rw [hR.rejected]
    apply or_iff_left
    rintro ⟨p, hp⟩
    rw [hidle p] at hp
    cases hp
  have hd : a.dropped.count m = if m ∈ s.dropped then 1 else 0 := by
    rw [count_eq_ite (by simp only [Accounts.Book.places] at hle; omega)]
    refine if_congr ?_ rfl rfl
    rw [hR.dropped]
    apply or_iff_left
    rintro ⟨p, hp⟩
    rw [hidle p] at hp
    cases hp
  simp only [Accounts.Book.places, Accounts.Book.queued, hR.fifo, hR.dequeued, hw, hr, hd]
    at hle hpos
  omega

variable [DecidableEq Pid] {p : Pid} {pc : PubPc μ}

/-- A step of the publisher in the critical section, or of the one that enters
it: the others are outside, so all depends on where it goes. -/
theorem KeepsLast.turn (h : KeepsLast cap s) (hpub : t.publishers = update s.publishers p pc)
    (hout : ∀ q, q ≠ p → critical (s.publishers q) = false) (hf : fits .DropOldest pc)
    (hm : critical pc = true → t.publish_mutex_ = some p)
    (hplaced : (∃ m, stage pc = some (m, .settled) ∧
        t.queue_.put = t.results.map Prod.fst ++ [m]) ∨
      (∀ m, stage pc ≠ some (m, .settled)) ∧ t.queue_.put = t.results.map Prod.fst)
    (hfull : t.taken = [] → ∀ m, pc = .takeOldest m → t.queue_.items.length = cap)
    (hlevel : t.taken = [] → t.queue_.got = 0 ∨ t.queue_.items.length = cap ∨
      t.queue_.items.length + 1 = cap ∧
        ∃ m, pc = .tryDropping m ∨ ∃ oldest, pc = .dropOldest m oldest) :
    KeepsLast cap t := by
  have hself : t.publishers p = pc := by rw [hpub, update_self]
  have hne : ∀ q, q ≠ p → t.publishers q = s.publishers q :=
    fun q hq ↦ by rw [hpub, update_of_ne hq]
  refine ⟨?_, fun q hq ↦ ?_, ?_, fun ht q m hq ↦ ?_, fun ht ↦ ?_⟩
  · rw [hpub]; exact fits_update h.points hf
  · by_cases hqp : q = p
    · subst hqp
      exact hm (hself ▸ hq)
    · rw [hne q hqp, hout q hqp] at hq
      cases hq
  · rcases hplaced with ⟨m, hs, hput⟩ | ⟨hs, hput⟩
    · exact .inl ⟨p, m, by rw [hself, hs], hput⟩
    · refine .inr ⟨fun q m hq ↦ ?_, hput⟩
      by_cases hqp : q = p
      · subst hqp
        exact hs m (hself ▸ hq)
      · rw [hne q hqp] at hq
        have := critical_of_settled hq (h.points q)
        rw [hout q hqp] at this
        cases this
  · by_cases hqp : q = p
    · subst hqp
      exact hfull ht m (hself ▸ hq)
    · have := hout q hqp
      rw [← hne q hqp, hq] at this
      cases this
  · rcases hlevel ht with hl | hl | ⟨hl, m, hpc⟩
    · exact .inl hl
    · exact .inr (.inl hl)
    · exact .inr (.inr ⟨hl, p, m, hself ▸ hpc⟩)

theorem KeepsLast.outside (h : KeepsLast cap s) (hpub : t.publishers = update s.publishers p pc)
    (hold : critical (s.publishers p) = false) (hnew : critical pc = false)
    (hf : fits .DropOldest pc) (hm : t.publish_mutex_ = s.publish_mutex_)
    (hq : t.queue_ = s.queue_) (hr : t.results = s.results) (ht : t.taken = s.taken) :
    KeepsLast cap t := by
  have hself : t.publishers p = pc := by rw [hpub, update_self]
  have hne : ∀ q, q ≠ p → t.publishers q = s.publishers q :=
    fun q hq ↦ by rw [hpub, update_of_ne hq]
  have hiff : ∀ q, critical (s.publishers q) = true → t.publishers q = s.publishers q := by
    intro q hc
    apply hne q
    rintro rfl
    rw [hold] at hc
    cases hc
  have hback : ∀ q, critical (t.publishers q) = true → t.publishers q = s.publishers q := by
    intro q hc
    apply hne q
    rintro rfl
    rw [hself, hnew] at hc
    cases hc
  have hfits : ∀ q, fits .DropOldest (t.publishers q) := by
    rw [hpub]
    exact fits_update h.points hf
  refine ⟨hfits, fun q hc ↦ ?_, ?_, fun hte q m hqm ↦ ?_, fun hte ↦ ?_⟩
  · rw [hm]
    exact h.holder q (hback q hc ▸ hc)
  · rw [hq, hr]
    apply h.placed.imp
    · rintro ⟨q, m, hs, hput⟩
      exact ⟨q, m, by rw [hiff q (critical_of_settled hs (h.points q)), hs], hput⟩
    · rintro ⟨hs, hput⟩
      refine ⟨fun q m hqm ↦ hs q m ?_, hput⟩
      rwa [hback q (critical_of_settled hqm (hfits q))] at hqm
  · rw [hq]
    apply h.full (ht ▸ hte) q m
    rw [← hback q (by rw [hqm]; rfl), hqm]
  · rw [hq]
    refine (h.level (ht ▸ hte)).imp_right (Or.imp_right (And.imp_right ?_))
    rintro ⟨q, m, hqm⟩
    have hc : critical (s.publishers q) = true := by
      rcases hqm with hqm | ⟨o, hqm⟩ <;> rw [hqm] <;> rfl
    exact ⟨q, m, by rwa [hiff q hc]⟩

/-- Nobody else is in the critical section, so what has been put is what has
been returned, but for the message of the publisher that is in it. -/
theorem KeepsLast.placed_here (h : KeepsLast cap s)
    (hout : ∀ q, q ≠ p → critical (s.publishers q) = false)
    (hs : ∀ m, stage (s.publishers p) ≠ some (m, .settled)) :
    s.queue_.put = s.results.map Prod.fst := by
  rcases h.placed with ⟨q, m, hq, -⟩ | ⟨-, hput⟩
  · by_cases hqp : q = p
    · subst hqp
      exact absurd hq (hs m)
    · have := critical_of_settled hq (h.points q)
      rw [hout q hqp] at this
      cases this
  · exact hput

theorem KeepsLast.placed_settled {m : μ} (h : KeepsLast cap s)
    (hout : ∀ q, q ≠ p → critical (s.publishers q) = false)
    (hs : stage (s.publishers p) = some (m, .settled)) :
    s.queue_.put = s.results.map Prod.fst ++ [m] := by
  rcases h.placed with ⟨q, m', hq, hput⟩ | ⟨hno, -⟩
  · by_cases hqp : q = p
    · subst hqp
      rw [hs] at hq
      cases hq
      exact hput
    · have := critical_of_settled hq (h.points q)
      rw [hout q hqp] at this
      cases this
  · exact absurd hs (hno p m)

theorem KeepsLast.level_here (h : KeepsLast cap s)
    (hout : ∀ q, q ≠ p → critical (s.publishers q) = false) (ht : s.taken = []) :
    s.queue_.got = 0 ∨ s.queue_.items.length = cap ∨ s.queue_.items.length + 1 = cap ∧
      ∃ m, s.publishers p = .tryDropping m ∨ ∃ oldest, s.publishers p = .dropOldest m oldest := by
  refine (h.level ht).imp_right (Or.imp_right (And.imp_right ?_))
  rintro ⟨q, m, hq⟩
  by_cases hqp : q = p
  · subst hqp
    exact ⟨m, hq⟩
  · have hc : critical (s.publishers q) = true := by
      rcases hq with hq | ⟨o, hq⟩ <;> rw [hq] <;> rfl
    rw [hout q hqp] at hc
    cases hc

theorem KeepsLast.publisherQueue (h : KeepsLast cap s)
    (hgot : s.queue_.got ≤ s.queue_.put.length) (hb : s.queue_.items.length ≤ cap)
    (hs : queueStep cfg cap s (.publisher p) = some t) : KeepsLast cap t := by
  obtain ⟨pc, hpub, hl, hpipe, hm, -, hcase⟩ := queueStep_publisher hs
  have ht : t.taken = s.taken := congrArg Pipeline.taken hpipe
  have hr : t.results = s.results := congrArg Ledger.results hl
  have hf := h.points p
  rcases hcase with ⟨m, hreq, hroom, hq, hres⟩ | ⟨hfull, hq, hres⟩ | ⟨hreq, hq, hres⟩
  · cases hpc : s.publishers p with
    | tryDropping m' =>
      rw [hpc] at hreq hres
      cases hreq
      cases hres
      have hc : critical (s.publishers p) = true := by rw [hpc]; rfl
      have hout := h.alone (.inl (h.holder p hc))
      refine h.turn hpub hout trivial (fun _ ↦ hm.trans (h.holder p hc)) (.inl ⟨m, rfl, ?_⟩)
        (by simp) fun hte ↦ ?_
      · rw [hq, hr, ← h.placed_here hout (by simp [hpc, stage])]
        rfl
      · rw [hq, Fifo.items_enqueue hgot, List.length_append, List.length_singleton]
        rcases h.level_here hout (ht ▸ hte) with hl | hl | ⟨hl, -⟩
        · exact .inl hl
        · omega
        · exact .inr (.inl hl)
    | tryEnqueue m' => rw [hpc] at hf; exact absurd rfl hf
    | tryWaiting m' last =>
      rw [hpc] at hf
      rcases hf with hf | hf <;> cases hf
    | _ => rw [hpc] at hreq; cases hreq
  · cases hpc : s.publishers p with
    | tryDropping m =>
      rw [hpc] at hres
      cases hres
      have hc : critical (s.publishers p) = true := by rw [hpc]; rfl
      have hout := h.alone (.inl (h.holder p hc))
      have hlen : t.queue_.items.length = cap := by rw [hq]; omega
      refine h.turn hpub hout rfl (fun _ ↦ hm.trans (h.holder p hc)) (.inr ⟨by simp [stage], ?_⟩)
        (fun _ _ _ ↦ hlen) fun _ ↦ .inr (.inl hlen)
      rw [hq, hr, h.placed_here hout (by simp [hpc, stage])]
    | tryEnqueue m' => rw [hpc] at hf; exact absurd rfl hf
    | tryWaiting m' last =>
      rw [hpc] at hf
      rcases hf with hf | hf <;> cases hf
    | _ => rw [hpc] at hres; cases hres
  · obtain ⟨m, hpc, -, -⟩ := resume_dequeued hres
    have hc : critical (s.publishers p) = true := by rw [hpc]; rfl
    have hout := h.alone (.inl (h.holder p hc))
    have hput := h.placed_here hout (by simp [hpc, stage])
    rw [hpc] at hres
    cases hdeq : s.queue_.dequeue with
    | mk q value =>
      rw [hdeq] at hres hq
      cases value with
      | none =>
        obtain ⟨rfl, hempty⟩ := Fifo.dequeue_none hdeq
        cases hres
        refine h.turn hpub hout rfl (fun _ ↦ hm.trans (h.holder p hc)) (.inr ⟨by simp [stage], ?_⟩)
          (by simp) fun hte ↦ ?_
        · rw [hq, hr, hput]
        · rw [hq]
          exact .inr (.inl (h.full (ht ▸ hte) p m hpc))
      | some oldest =>
        obtain ⟨hitems, -, hput', -⟩ := Fifo.dequeue_head hdeq
        cases hres
        refine h.turn hpub hout rfl (fun _ ↦ hm.trans (h.holder p hc)) (.inr ⟨by simp [stage], ?_⟩)
          (by simp) fun hte ↦ ?_
        · rw [hq, hr, ← hput]
          exact hput'
        · have hlen := h.full (ht ▸ hte) p m hpc
          rw [hitems, List.length_cons] at hlen
          exact .inr (.inr ⟨hq ▸ hlen, m, .inr ⟨oldest, rfl⟩⟩)

variable [DecidableEq μ]

theorem KeepsLast.publisherStep (hp : cfg.policy_ = .DropOldest) (h : KeepsLast cap s)
    (hs : s.publisherStep cfg p = some t) : KeepsLast cap t := by
  have hf := h.points p
  have hin : critical (s.publishers p) = true → ∀ q, q ≠ p → critical (s.publishers q) = false :=
    fun hc q hq ↦ h.alone (.inl (h.holder p hc)) q hq
  unfold Bus.publisherStep at hs
  cases hpc : s.publishers p with
  | lockPublish m =>
    have hc : critical (s.publishers p) = false := by rw [hpc]; rfl
    simp only [hpc] at hs
    split at hs
    · rename_i hmutex
      cases hs
      have hout : ∀ q, q ≠ p → critical (s.publishers q) = false := h.alone (.inr hmutex)
      refine h.turn rfl hout rfl (fun _ ↦ rfl) (.inr ⟨by simp [stage], ?_⟩) (by simp) fun ht ↦ ?_
      · exact h.placed_here hout (by simp [hpc, stage])
      · refine (h.level_here hout ht).imp_right (Or.imp_right fun hl ↦ ?_)
        obtain ⟨-, m', hl⟩ := hl
        rw [hpc] at hl
        rcases hl with hl | ⟨o, hl⟩ <;> cases hl
    · cases hs
  | dropOldest m oldest =>
    simp only [hpc, Option.some.injEq] at hs
    subst hs
    have hout := hin (by rw [hpc]; rfl)
    have hm := h.holder p (by rw [hpc]; rfl)
    have hmutex : (s.drop oldest).publish_mutex_ = s.publish_mutex_ := by
      unfold Bus.drop Bus.notify_drop
      split <;> rfl
    have hq : (s.drop oldest).queue_ = s.queue_ := congrArg Pipeline.queue_ (pipeline_drop oldest)
    have ht : (s.drop oldest).taken = s.taken := congrArg Pipeline.taken (pipeline_drop oldest)
    have hpub : ((s.drop oldest).goto p (.tryDropping m)).publishers =
        update s.publishers p (.tryDropping m) := by simp [Bus.goto]
    refine h.turn hpub hout rfl
      (fun _ ↦ hmutex.trans hm) (.inr ⟨by simp [stage], ?_⟩) (by simp) fun hte ↦ ?_
    · simp only [Bus.goto, hq, results_drop]
      exact h.placed_here hout (by simp [hpc, stage])
    · simp only [Bus.goto, hq]
      refine (h.level_here hout (ht ▸ hte)).imp_right (Or.imp_right fun hl ↦ ?_)
      exact ⟨hl.1, m, .inl rfl⟩
  | wakeDispatcher m =>
    simp only [hpc, Option.some.injEq] at hs
    subst hs
    have hout := hin (by rw [hpc]; rfl)
    refine h.turn rfl hout (.inl rfl) (fun _ ↦ h.holder p (by rw [hpc]; rfl))
      (.inl ⟨m, rfl, ?_⟩) (by simp) fun ht ↦ ?_
    · exact h.placed_settled hout (by rw [hpc]; rfl)
    · refine (h.level_here hout ht).imp_right (Or.imp_right fun hl ↦ ?_)
      obtain ⟨-, m', hl⟩ := hl
      rw [hpc] at hl
      rcases hl with hl | ⟨o, hl⟩ <;> cases hl
  | returning m result =>
    simp only [hpc, Option.some.injEq, hp, if_pos] at hs
    subst hs
    have hout := hin (by rw [hpc]; rfl)
    refine h.turn rfl hout trivial (by simp [critical]) (.inr ⟨by simp [stage], ?_⟩) (by simp)
      fun ht ↦ ?_
    · rw [hpc] at hf
      obtain rfl : result = true := hf.resolve_right fun hne ↦ hne rfl
      simpa [Bus.goto] using h.placed_settled hout (by rw [hpc]; rfl)
    · refine (h.level_here hout ht).imp_right (Or.imp_right fun hl ↦ ?_)
      obtain ⟨-, m', hl⟩ := hl
      rw [hpc] at hl
      rcases hl with hl | ⟨o, hl⟩ <;> cases hl
  | notifyDrop m => rw [hpc] at hf; cases hf
  | lockWait m | checkRunning m last | park m | relock m last | unlockWait m enqueued =>
    rw [hpc] at hf
    rcases hf with hf | hf <;> cases hf
  | _ => simp only [hpc] at hs; cases hs

theorem KeepsLast.step {act : BusAction Pid μ} (hp : cfg.policy_ = .DropOldest)
    (h : KeepsLast cap s) (hgot : s.queue_.got ≤ s.queue_.put.length)
    (hb : s.queue_.items.length ≤ cap)
    (hs : AtomicBus.step cfg cap s act = some t) : KeepsLast cap t := by
  cases act with
  | thread act =>
    obtain ⟨hq, -, ht⟩ := localStep_queues hs
    rcases localStep_cases hs with ⟨p, mptr, hpub⟩ | ⟨p, hpub⟩ | hw
    · obtain ⟨hidle, -, -, ⟨pc, hpub', -, -, hf, hpc⟩, hm, -, hl⟩ := publish_cases hpub
      obtain rfl := hpc hp
      exact h.outside hpub' (by rw [hidle]; rfl) rfl rfl hm hq (congrArg Ledger.results hl) ht
    · exact h.publisherStep hp hpub
    · exact h.same hw (by rw [hq]) fun hte ↦ ⟨hq, ht ▸ hte⟩
  | queue ag =>
    cases ag with
    | publisher p => exact h.publisherQueue hgot hb hs
    | loop =>
      obtain ⟨hw, hcase⟩ := queueStep_loop hs
      rcases hcase with ⟨drain, q, m, -, hdeq, rfl⟩ | ⟨drain, -, -, rfl⟩ |
        ⟨drain, m, -, -, rfl⟩ | ⟨drain, m, -, rfl⟩
      · exact h.same hw (Fifo.dequeue_head hdeq).2.2.1 fun hte ↦ by simp at hte
      · exact h.same hw rfl fun hte ↦ ⟨rfl, hte⟩
      · exact h.same hw rfl fun hte ↦ ⟨rfl, hte⟩
      · exact h
    | worker i =>
      obtain ⟨hw, -, phase, -, hcase⟩ := queueStep_worker hs
      rcases hcase with ⟨q, m, -, rfl⟩ | ⟨-, rfl⟩
      · exact h.same hw rfl fun hte ↦ ⟨rfl, hte⟩
      · exact h.same hw rfl fun hte ↦ ⟨rfl, hte⟩

theorem keepsLast_reachable {capacity : ℕ} (hp : cfg.policy_ = .DropOldest)
    (h : (AtomicBus.machine Pid cfg capacity).Reachable s) :
    KeepsLast (storedCapacity capacity) s := by
  refine Machine.Reaches.invariant ?_ ?_ h
  · rintro s rfl
    exact keepsLast_initial _
  · intro s act t hs hk _ ht
    obtain ⟨a, ha, hR⟩ := refines hs
    have hi := Accounts.inv_reachable ha
    refine hk.step hp ?_ ?_ ht
    · rw [← hR.fifo]; exact hi.got_le
    · rw [← hR.fifo]; exact hi.bounded

/-- Under `DropOldest` a queue nobody else takes from holds the last messages
published, as many as there is room for. -/
theorem holds_last {capacity : ℕ} (hp : cfg.policy_ = .DropOldest)
    (h : (AtomicBus.machine Pid cfg capacity).Reachable s) (ht : s.taken = [])
    (hidle : ∀ p, s.publishers p = .idle) :
    s.queue_.items =
      (s.results.map Prod.fst).rtake (min s.results.length (storedCapacity capacity)) := by
  have hk := keepsLast_reachable hp h
  obtain ⟨a, ha, hR⟩ := refines h
  have hb : s.queue_.items.length ≤ storedCapacity capacity := by
    rw [← hR.fifo]; exact (Accounts.inv_reachable ha).bounded
  have hput : s.queue_.put = s.results.map Prod.fst := by
    rcases hk.placed with ⟨p, m, hs, -⟩ | ⟨-, hput⟩
    · rw [hidle p] at hs
      cases hs
    · exact hput
  have hn : s.results.length = s.queue_.put.length := by rw [hput, List.length_map]
  have hlen : s.queue_.items.length = s.queue_.put.length - s.queue_.got := List.length_drop
  have hgot : s.queue_.got ≤ s.queue_.put.length := by
    rw [← hR.fifo]; exact (Accounts.inv_reachable ha).got_le
  rw [← hput, List.rtake, hn]
  have hlevel : s.queue_.got = 0 ∨ s.queue_.items.length = storedCapacity capacity := by
    rcases hk.level ht with hl | hl | ⟨-, p, m, hl⟩
    · exact .inl hl
    · exact .inr hl
    · rw [hidle p] at hl
      rcases hl with hl | ⟨o, hl⟩ <;> cases hl
  have hgot' : s.queue_.got =
      s.queue_.put.length - min s.queue_.put.length (storedCapacity capacity) := by
    rcases hlevel with hl | hl <;> omega
  rw [← hgot']
  rfl

structure Accounted (cfg : Config μ) (capacity : ℕ) (s : Bus (Fifo μ) Pid μ) (a : Accounts.Book μ) :
    Prop where
  represents : Represents cfg s a
  once : ∀ m ∈ s.offered, a.places m = 1
  /-- When no `publish` is going on, the four fates are seen from outside. -/
  at_rest : (∀ p, s.publishers p = .idle) → ∀ m ∈ s.offered,
    s.queue_.items.count m + s.taken.count m + (if (m, false) ∈ s.results then 1 else 0) +
      (if m ∈ s.dropped then 1 else 0) = 1
  returned_true : ∀ m, (m, true) ∈ s.results → m ∉ a.rejected ∧ m ∉ a.waiting
  returned_false : ∀ m, (m, false) ∈ s.results → m ∈ a.rejected ∧ Accounts.Rejects cfg.policy_
  dropped : ∀ m ∈ a.dropped, (m, false) ∉ s.results ∧
    (cfg.policy_ = .DropNewest ∧ m ∉ s.queue_.put ∨
      cfg.policy_ = .DropOldest ∧ m ∈ s.queue_.taken)
  callback : ∀ m, s.callbacks.count m = if m ∈ s.dropped ∧ cfg.has_on_drop m = true then 1 else 0
  bounded : s.queue_.items.length ≤ storedCapacity capacity
  order : List.Sublist s.taken s.queue_.put
  all : cfg.policy_ ≠ .DropOldest → s.taken ++ s.queue_.items = s.queue_.put
  last : cfg.policy_ = .DropOldest → s.taken = [] → (∀ p, s.publishers p = .idle) →
    s.queue_.items =
      (s.results.map Prod.fst).rtake (min s.results.length (storedCapacity capacity))

/-- Every message offered is in exactly one place, whatever the policy, the
capacity and the interleaving of the publishers with the consumer. -/
theorem message_accounting {capacity : ℕ} (h : (AtomicBus.machine Pid cfg capacity).Reachable s) :
    ∃ a, (Accounts.machine μ cfg.policy_ (storedCapacity capacity)).Reachable a ∧
      Accounted cfg capacity s a := by
  obtain ⟨a, ha, hR⟩ := refines h
  have hi := Accounts.inv_reachable ha
  refine ⟨a, ha, hR, fun m hm ↦ ?_, fun hidle m hm ↦ at_rest_of hR hi hidle hm, fun m hm ↦ ?_,
    fun m hm ↦ ?_, fun m hm ↦ ?_, fun m ↦ ?_, ?_, ?_, fun hp ↦ ?_,
    fun hp ht hidle ↦ holds_last hp h ht hidle⟩
  · have hle := hi.places_le_one m
    have hpos := hi.places_pos_iff.mpr (hR.offered ▸ hm)
    omega
  · have hplace := hR.settled m (.inl hm)
    have hno : m ∈ a.fifo.put ∨ m ∈ a.dropped :=
      hplace.imp (fun hp ↦ hR.fifo ▸ hp) fun hd ↦ (hR.dropped m).mpr (.inl hd)
    exact ⟨fun hr ↦ hi.rejected_alone hr hno, fun hw ↦
      hno.elim (hi.waiting_alone hw).1 (hi.waiting_alone hw).2.2⟩
  · have hr : m ∈ a.rejected := (hR.rejected m).mpr (.inl hm)
    exact ⟨hr, hi.rejected (List.ne_nil_of_mem hr)⟩
  · refine ⟨fun hf ↦ ?_, ?_⟩
    · exact hi.rejected_alone ((hR.rejected m).mpr (.inl hf)) (.inr hm)
    · rcases hi.dropped (List.ne_nil_of_mem hm) with hp | hp
      · exact .inl ⟨hp, hR.fifo ▸ hi.newest hp m hm⟩
      · exact .inr ⟨hp, hR.fifo ▸ hi.oldest hp m hm⟩
  · have hle : s.callbacks.count m ≤ 1 := by
      rw [hR.callbacks]
      exact List.nodup_iff_count_le_one.mp (hR.nodup.filter _) m
    rw [count_eq_ite hle, hR.callbacks]
    simp only [List.mem_filter]
  · rw [← hR.fifo]; exact hi.bounded
  · rw [← hR.dequeued, ← hR.fifo]
    exact hi.order.trans (List.take_sublist _ _)
  · rw [← hR.dequeued, ← hR.fifo, hi.all hp]
    exact a.fifo.taken_append_items

def dropOldestConfig : Config ℕ where
  policy_ := .DropOldest
  num_dispatchers_ := 1
  num_dispatchers_pos := Nat.one_pos
  topic_id _ := 0
  hash := id
  has_on_drop _ := true

def overflow : List (BusAction Bool ℕ) :=
  let put (m : ℕ) : List (BusAction Bool ℕ) :=
    [.thread (.publish true m), .thread (.publisher true), .queue (.publisher true)]
  let done : List (BusAction Bool ℕ) := [.thread (.publisher true), .thread (.publisher true)]
  put 0 ++ done ++ put 1 ++ done ++ put 2 ++
    [.queue (.publisher true), .thread (.publisher true), .queue (.publisher true)] ++ done

theorem message_accounting_overflow : ∃ s a,
    (AtomicBus.machine Bool dropOldestConfig 2).run (.initial .empty) overflow = some s ∧
      s.queue_.items = [1, 2] ∧ s.callbacks = [0] ∧ Accounted dropOldestConfig 2 s a := by
  obtain ⟨a, -, ha⟩ := message_accounting
    (Machine.Reaches.of_run (M := AtomicBus.machine Bool dropOldestConfig 2) rfl overflow rfl)
  exact ⟨_, a, rfl, rfl, rfl, ha⟩

end LivioArk.Msgbus.Accounting
