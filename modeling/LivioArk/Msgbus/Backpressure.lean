import LivioArk.Msgbus.Accounts
import LivioArk.Msgbus.AtomicBus

namespace LivioArk.Msgbus.Backpressure

open Function LivioArk.Library.Transition LivioArk.Library.QueueLog
open LockFreeQueue MessageBus BusSteps AtomicBus Accounts

variable {Pid μ : Type} {cfg : Config μ} {s t : Bus (Fifo μ) Pid μ} {a : Book μ}

/-- The book that a bus keeps. A publisher that has found its message refused
or has taken a message in hand to discard it has already decided its fate. -/
structure Represents (cfg : Config μ) (s : Bus (Fifo μ) Pid μ) (a : Book μ) : Prop where
  fifo : a.fifo = s.queue_
  dequeued : a.dequeued = s.taken
  offered : a.offered = s.offered
  waiting : ∀ m, m ∈ a.waiting ↔ ∃ p, stage (s.publishers p) = some (m, .waiting)
  rejected : ∀ m, m ∈ a.rejected ↔
    (m, false) ∈ s.results ∨ ∃ p, stage (s.publishers p) = some (m, .rejected)
  dropped : ∀ m, m ∈ a.dropped ↔ m ∈ s.dropped ∨ ∃ p, dropping (s.publishers p) = some m
  settled : ∀ m, (m, true) ∈ s.results ∨ (∃ p, stage (s.publishers p) = some (m, .settled)) →
    m ∈ s.queue_.put ∨ m ∈ s.dropped
  single : ∀ p q m x y, stage (s.publishers p) = some (m, x) →
    stage (s.publishers q) = some (m, y) → p = q
  offering : ∀ p m x, stage (s.publishers p) = some (m, x) → m ∈ s.offered
  undone : ∀ p m, dropping (s.publishers p) = some m → m ∉ s.dropped
  dropper : ∀ p q m, dropping (s.publishers p) = some m → dropping (s.publishers q) = some m →
    p = q
  nodup : s.dropped.Nodup
  callbacks : s.callbacks = s.dropped.filter cfg.has_on_drop
  on_drop : ∀ m, s.on_drop_ m = true ↔ m ∈ s.offered ∧ m ∉ s.dropped ∧ cfg.has_on_drop m = true
  fits : ∀ p, fits cfg.policy_ (s.publishers p)

theorem represents_initial (cfg : Config μ) :
    Represents cfg (.initial .empty : Bus (Fifo μ) Pid μ) .initial := by
  constructor <;> simp [Bus.initial, Book.initial, stage, dropping, BusSteps.fits]

theorem Represents.same (h : Represents cfg s a) (hl : ledger t = ledger s)
    (hs : ∀ p, stage (t.publishers p) = stage (s.publishers p))
    (hd : ∀ p, dropping (t.publishers p) = dropping (s.publishers p))
    (hf : ∀ p, BusSteps.fits cfg.policy_ (t.publishers p))
    (hq : t.queue_ = s.queue_) (ht : t.taken = s.taken) : Represents cfg t a := by
  have hoff : t.offered = s.offered := congrArg Ledger.offered hl
  have hres : t.results = s.results := congrArg Ledger.results hl
  have hdrop : t.dropped = s.dropped := congrArg Ledger.dropped hl
  have hcb : t.callbacks = s.callbacks := congrArg Ledger.callbacks hl
  have hon : t.on_drop_ = s.on_drop_ := congrArg Ledger.on_drop_ hl
  constructor
  · rw [hq]; exact h.fifo
  · rw [ht]; exact h.dequeued
  · rw [hoff]; exact h.offered
  · simp only [hs]; exact h.waiting
  · simp only [hs, hres]; exact h.rejected
  · simp only [hd, hdrop]; exact h.dropped
  · simp only [hs, hres, hq, hdrop]; exact h.settled
  · simp only [hs]; exact h.single
  · simp only [hs, hoff]; exact h.offering
  · simp only [hd, hdrop]; exact h.undone
  · simp only [hd]; exact h.dropper
  · rw [hdrop]; exact h.nodup
  · rw [hcb, hdrop]; exact h.callbacks
  · simp only [hon, hoff, hdrop]; exact h.on_drop
  · exact hf

theorem Represents.woken (h : Represents cfg s a) (hw : Woken s t) (hq : t.queue_ = s.queue_)
    (ht : t.taken = s.taken) : Represents cfg t a :=
  h.same hw.ledger hw.stage_eq hw.dropping_eq (fun p ↦ hw.fits (h.fits p)) hq ht

def Follows [DecidableEq μ] (cfg : Config μ) (cap : ℕ) (t : Bus (Fifo μ) Pid μ) (a : Book μ) :
    Prop :=
  ∃ b, Machine.Steps (Accounts.machine μ cfg.policy_ cap) (fun _ _ ↦ True) a b ∧
    Represents cfg t b

theorem Represents.follows [DecidableEq μ] {cap : ℕ} (h : Represents cfg t a) :
    Follows cfg cap t a := ⟨a, .refl a, h⟩

theorem Represents.follows_entry [DecidableEq μ] {cap : ℕ} {b : Book μ} {e : Entry μ}
    (h : Represents cfg t b)
    (he : a.step cfg.policy_ cap e = some b) : Follows cfg cap t a := ⟨b, .one trivial he, h⟩

theorem Represents.dequeue {q : Fifo μ} (h : Represents cfg s a)
    (hdeq : s.queue_.dequeue = (q, some m)) (hw : Woken s t) (hq : t.queue_ = q)
    (ht : t.taken = s.taken ++ [m]) :
    Represents cfg t { a with fifo := q, dequeued := a.dequeued ++ [m] } := by
  have hput : q.put = s.queue_.put := (Fifo.dequeue_head hdeq).2.2.1
  have hsame : Represents cfg { t with queue_ := s.queue_, taken := s.taken } a :=
    h.same hw.ledger hw.stage_eq hw.dropping_eq (fun p ↦ hw.fits (h.fits p)) rfl rfl
  exact { hsame with
    fifo := hq.symm
    dequeued := by rw [ht]; exact congrArg (· ++ [m]) h.dequeued
    settled := by rw [hq, hput]; exact hsame.settled }

variable [DecidableEq Pid]

theorem update_same {β : Type*} {f : Pid → PubPc μ} {p : Pid} {pc : PubPc μ} (g : PubPc μ → β)
    (h : g pc = g (f p)) (q : Pid) : g (update f p pc q) = g (f q) := by
  by_cases hq : q = p
  · subst hq
    rw [update_self, h]
  · rw [update_of_ne hq]

theorem fits_update {policy : FullPolicy} {f : Pid → PubPc μ} {p : Pid} {pc : PubPc μ}
    (h : ∀ q, BusSteps.fits policy (f q)) (hpc : BusSteps.fits policy pc) (q : Pid) :
    BusSteps.fits policy (update f p pc q) := by
  by_cases hq : q = p
  · subst hq
    rwa [update_self]
  · rw [update_of_ne hq]
    exact h q

variable {p : Pid} {pc : PubPc μ} {m : μ}

theorem Represents.silent (h : Represents cfg s a) (hpub : t.publishers = update s.publishers p pc)
    (hs : stage pc = stage (s.publishers p)) (hd : dropping pc = dropping (s.publishers p))
    (hf : BusSteps.fits cfg.policy_ pc) (hl : ledger t = ledger s) (hq : t.queue_ = s.queue_)
    (ht : t.taken = s.taken) : Represents cfg t a := by
  refine h.same hl ?_ ?_ ?_ hq ht
  · rw [hpub]; exact update_same stage hs
  · rw [hpub]; exact update_same dropping hd
  · rw [hpub]; exact fits_update h.fits hf

theorem Represents.result {r : Bool} (h : Represents cfg s a)
    (hpub : t.publishers = update s.publishers p .idle)
    (hs : stage (s.publishers p) = some (m, if r then .settled else .rejected))
    (hd : dropping (s.publishers p) = none)
    (hl : ledger t = { ledger s with results := s.results ++ [(m, r)] })
    (hq : t.queue_ = s.queue_) (ht : t.taken = s.taken) : Represents cfg t a := by
  have hoff : t.offered = s.offered := congrArg Ledger.offered hl
  have hres : t.results = s.results ++ [(m, r)] := congrArg Ledger.results hl
  have hdrop : t.dropped = s.dropped := congrArg Ledger.dropped hl
  have hcb : t.callbacks = s.callbacks := congrArg Ledger.callbacks hl
  have hon : t.on_drop_ = s.on_drop_ := congrArg Ledger.on_drop_ hl
  have hself : t.publishers p = .idle := by rw [hpub, update_self]
  have hne : ∀ q, q ≠ p → t.publishers q = s.publishers q :=
    fun q hq ↦ by rw [hpub, update_of_ne hq]
  have hstage : ∀ q n y, stage (t.publishers q) = some (n, y) →
      q ≠ p ∧ stage (s.publishers q) = some (n, y) := by
    intro q n y hqn
    by_cases hqp : q = p
    · subst hqp
      rw [hself] at hqn
      cases hqn
    · exact ⟨hqp, by rwa [hne q hqp] at hqn⟩
  have hkeep : ∀ q n y, stage (s.publishers q) = some (n, y) →
      stage (t.publishers q) = some (n, y) ∨ n = m ∧ y = if r then .settled else .rejected := by
    intro q n y hqn
    by_cases hqp : q = p
    · subst hqp
      rw [hs] at hqn
      cases hqn
      exact .inr ⟨rfl, rfl⟩
    · exact .inl (by rw [hne q hqp, hqn])
  have hdr : ∀ q, dropping (t.publishers q) = dropping (s.publishers q) := by
    rw [hpub]
    exact update_same dropping hd.symm
  constructor
  · rw [hq]; exact h.fifo
  · rw [ht]; exact h.dequeued
  · rw [hoff]; exact h.offered
  · intro n
    rw [h.waiting]
    constructor
    · rintro ⟨q, hqn⟩
      rcases hkeep q n _ hqn with hqn | ⟨-, hy⟩
      · exact ⟨q, hqn⟩
      · cases r <;> cases hy
    · rintro ⟨q, hqn⟩
      exact ⟨q, (hstage q n _ hqn).2⟩
  · intro n
    simp only [h.rejected, hres, List.mem_append, List.mem_singleton, Prod.mk.injEq]
    constructor
    · rintro (hn | ⟨q, hqn⟩)
      · exact .inl (.inl hn)
      · rcases hkeep q n _ hqn with hqn | ⟨rfl, hy⟩
        · exact .inr ⟨q, hqn⟩
        · cases r with
          | true => cases hy
          | false => exact .inl (.inr ⟨rfl, rfl⟩)
    · rintro ((hn | ⟨rfl, rfl⟩) | ⟨q, hqn⟩)
      · exact .inl hn
      · exact .inr ⟨p, hs⟩
      · exact .inr ⟨q, (hstage q n _ hqn).2⟩
  · simp only [hdr, hdrop]; exact h.dropped
  · intro n hn
    rw [hq, hdrop]
    simp only [hres, List.mem_append, List.mem_singleton, Prod.mk.injEq] at hn
    rcases hn with (hn | ⟨rfl, rfl⟩) | ⟨q, hqn⟩
    · exact h.settled n (.inl hn)
    · exact h.settled n (.inr ⟨p, hs⟩)
    · exact h.settled n (.inr ⟨q, (hstage q n _ hqn).2⟩)
  · intro q u n y z hqn hun
    exact h.single q u n y z (hstage q n y hqn).2 (hstage u n z hun).2
  · intro q n y hqn
    rw [hoff]
    exact h.offering q n y (hstage q n y hqn).2
  · simp only [hdr, hdrop]; exact h.undone
  · simp only [hdr]; exact h.dropper
  · rw [hdrop]; exact h.nodup
  · rw [hcb, hdrop]; exact h.callbacks
  · simp only [hon, hoff, hdrop]; exact h.on_drop
  · rw [hpub]; exact fits_update h.fits trivial

structure Decided [DecidableEq μ] (a b : Book μ) (m : μ) (x : Stage) : Prop where
  dequeued : b.dequeued = a.dequeued
  offered : b.offered = a.offered
  waiting : b.waiting = a.waiting.erase m
  rejected : ∀ n, n ∈ b.rejected ↔ n ∈ a.rejected ∨ n = m ∧ x = .rejected
  dropped : ∀ n, n ∈ b.dropped ↔ n ∈ a.dropped ∨ n = m ∧ x = .dropping

variable [DecidableEq μ]

theorem Represents.decide {b : Book μ} {x : Stage} {policy : FullPolicy} {cap : ℕ}
    (h : Represents cfg s a) (hi : Accounts.Inv policy cap a) (hb : Decided a b m x)
    (hpub : t.publishers = update s.publishers p pc)
    (hs : stage (s.publishers p) = some (m, .waiting)) (hd : dropping (s.publishers p) = none)
    (hx : x ≠ .waiting) (hs' : stage pc = some (m, x))
    (hd' : dropping pc = if x = .dropping then some m else none)
    (hf : BusSteps.fits cfg.policy_ pc) (hl : ledger t = ledger s) (ht : t.taken = s.taken)
    (hq : b.fifo = t.queue_) (hput : s.queue_.put ⊆ t.queue_.put)
    (hm : x = .settled → m ∈ t.queue_.put) : Represents cfg t b := by
  have hoff : t.offered = s.offered := congrArg Ledger.offered hl
  have hres : t.results = s.results := congrArg Ledger.results hl
  have hdrop : t.dropped = s.dropped := congrArg Ledger.dropped hl
  have hcb : t.callbacks = s.callbacks := congrArg Ledger.callbacks hl
  have hon : t.on_drop_ = s.on_drop_ := congrArg Ledger.on_drop_ hl
  have hself : t.publishers p = pc := by rw [hpub, update_self]
  have hne : ∀ q, q ≠ p → t.publishers q = s.publishers q :=
    fun q hq ↦ by rw [hpub, update_of_ne hq]
  have hmw : m ∈ a.waiting := (h.waiting m).mpr ⟨p, hs⟩
  have halone := hi.waiting_alone hmw
  have hother : ∀ q n y, stage (t.publishers q) = some (n, y) →
      q = p ∧ n = m ∧ y = x ∨ q ≠ p ∧ n ≠ m ∧ stage (s.publishers q) = some (n, y) := by
    intro q n y hqy
    by_cases hqp : q = p
    · subst hqp
      rw [hself, hs'] at hqy
      cases hqy
      exact .inl ⟨rfl, rfl, rfl⟩
    · rw [hne q hqp] at hqy
      refine .inr ⟨hqp, ?_, hqy⟩
      rintro rfl
      exact hqp (h.single q p n y _ hqy hs)
  have hkeep : ∀ q n y, stage (s.publishers q) = some (n, y) → y ≠ .waiting →
      stage (t.publishers q) = some (n, y) := by
    intro q n y hqy hy
    rw [hne q, hqy]
    rintro rfl
    rw [hs] at hqy
    cases hqy
    exact hy rfl
  have hkeepd : ∀ q n, dropping (s.publishers q) = some n → dropping (t.publishers q) = some n := by
    intro q n hqn
    rw [hne q, hqn]
    rintro rfl
    rw [hd] at hqn
    cases hqn
  have hotherd : ∀ q n, dropping (t.publishers q) = some n →
      q = p ∧ n = m ∧ x = .dropping ∨ q ≠ p ∧ dropping (s.publishers q) = some n := by
    intro q n hqn
    by_cases hqp : q = p
    · subst hqp
      rw [hself, hd'] at hqn
      split at hqn
      · rename_i hxd
        cases hqn
        exact .inl ⟨rfl, rfl, hxd⟩
      · cases hqn
    · rw [hne q hqp] at hqn
      exact .inr ⟨hqp, hqn⟩
  have hnodup : a.waiting.Nodup := List.nodup_iff_count_le_one.mpr fun n ↦ by
    have := hi.places_le_one n
    simp only [Book.places] at this
    omega
  constructor
  · exact hq
  · rw [hb.dequeued, ht]; exact h.dequeued
  · rw [hb.offered, hoff]; exact h.offered
  · intro n
    rw [hb.waiting, hnodup.mem_erase_iff, h.waiting]
    constructor
    · rintro ⟨hn, q, hqn⟩
      refine ⟨q, ?_⟩
      rw [hne q, hqn]
      rintro rfl
      rw [hs] at hqn
      cases hqn
      exact hn rfl
    · rintro ⟨q, hqn⟩
      rcases hother q n _ hqn with ⟨-, -, hxw⟩ | ⟨-, hn, hqn⟩
      · exact absurd hxw.symm hx
      · exact ⟨hn, q, hqn⟩
  · intro n
    rw [hb.rejected, h.rejected, hres]
    constructor
    · rintro ((hr | ⟨q, hqn⟩) | ⟨rfl, rfl⟩)
      · exact .inl hr
      · exact .inr ⟨q, hkeep q n _ hqn (by decide)⟩
      · exact .inr ⟨p, by rw [hself, hs']⟩
    · rintro (hr | ⟨q, hqn⟩)
      · exact .inl (.inl hr)
      · rcases hother q n _ hqn with ⟨-, rfl, hxr⟩ | ⟨-, -, hqn⟩
        · exact .inr ⟨rfl, hxr.symm⟩
        · exact .inl (.inr ⟨q, hqn⟩)
  · intro n
    rw [hb.dropped, h.dropped, hdrop]
    constructor
    · rintro ((hr | ⟨q, hqn⟩) | ⟨rfl, rfl⟩)
      · exact .inl hr
      · exact .inr ⟨q, hkeepd q n hqn⟩
      · exact .inr ⟨p, by rw [hself, hd', if_pos rfl]⟩
    · rintro (hr | ⟨q, hqn⟩)
      · exact .inl (.inl hr)
      · rcases hotherd q n hqn with ⟨-, rfl, hxr⟩ | ⟨-, hqn⟩
        · exact .inr ⟨rfl, hxr⟩
        · exact .inl (.inr ⟨q, hqn⟩)
  · rw [hres, hdrop]
    rintro n (hr | ⟨q, hqn⟩)
    · exact (h.settled n (.inl hr)).imp_left fun hn ↦ hput hn
    · rcases hother q n _ hqn with ⟨-, rfl, hxr⟩ | ⟨-, -, hqn⟩
      · exact .inl (hm hxr.symm)
      · exact (h.settled n (.inr ⟨q, hqn⟩)).imp_left fun hn ↦ hput hn
  · intro q r n y z hqn hrn
    rcases hother q n y hqn with ⟨rfl, rfl, -⟩ | ⟨-, hn, hqn⟩
    · rcases hother r _ z hrn with ⟨rfl, -, -⟩ | ⟨-, hn', -⟩
      · rfl
      · exact absurd rfl hn'
    · rcases hother r n z hrn with ⟨-, hn', -⟩ | ⟨-, -, hrn⟩
      · exact absurd hn' hn
      · exact h.single q r n y z hqn hrn
  · intro q n y hqn
    rw [hoff]
    rcases hother q n y hqn with ⟨-, rfl, -⟩ | ⟨-, -, hqn⟩
    · exact h.offering p n _ hs
    · exact h.offering q n y hqn
  · intro q n hqn
    rw [hdrop]
    rcases hotherd q n hqn with ⟨-, rfl, -⟩ | ⟨-, hqn⟩
    · exact fun hn ↦ halone.2.2 ((h.dropped n).mpr (.inl hn))
    · exact h.undone q n hqn
  · intro q r n hqn hrn
    rcases hotherd q n hqn with ⟨rfl, rfl, -⟩ | ⟨hqp, hqn⟩
    · rcases hotherd r _ hrn with ⟨rfl, -, -⟩ | ⟨-, hrn⟩
      · rfl
      · exact absurd ((h.dropped n).mpr (.inr ⟨r, hrn⟩)) halone.2.2
    · rcases hotherd r n hrn with ⟨-, rfl, -⟩ | ⟨-, hrn⟩
      · exact absurd ((h.dropped n).mpr (.inr ⟨q, hqn⟩)) halone.2.2
      · exact h.dropper q r n hqn hrn
  · rw [hdrop]; exact h.nodup
  · rw [hcb, hdrop]; exact h.callbacks
  · simp only [hon, hoff, hdrop]; exact h.on_drop
  · rw [hpub]; exact fits_update h.fits hf

theorem Represents.drop {policy : FullPolicy} {cap : ℕ} (h : Represents cfg s a)
    (hi : Accounts.Inv policy cap a) (hpub : t.publishers = update s.publishers p pc)
    (hd : dropping (s.publishers p) = some m) (hd' : dropping pc = none)
    (hs : stage pc = stage (s.publishers p) ∨
      stage (s.publishers p) = some (m, .dropping) ∧ stage pc = some (m, .settled))
    (hf : BusSteps.fits cfg.policy_ pc) (hl : ledger t = ledger (s.drop m))
    (hq : t.queue_ = s.queue_) (ht : t.taken = s.taken) : Represents cfg t a := by
  have hoff : t.offered = s.offered := by
    rw [show t.offered = (s.drop m).offered from congrArg Ledger.offered hl, offered_drop]
  have hres : t.results = s.results := by
    rw [show t.results = (s.drop m).results from congrArg Ledger.results hl, results_drop]
  have hdrop : t.dropped = s.dropped ++ [m] := by
    rw [show t.dropped = (s.drop m).dropped from congrArg Ledger.dropped hl, dropped_drop]
  have hself : t.publishers p = pc := by rw [hpub, update_self]
  have hne : ∀ q, q ≠ p → t.publishers q = s.publishers q :=
    fun q hq ↦ by rw [hpub, update_of_ne hq]
  have hm : m ∉ s.dropped := h.undone p m hd
  have hmo : m ∈ s.offered := by
    rw [← h.offered]
    exact hi.offered_of_dropped ((h.dropped m).mpr (.inr ⟨p, hd⟩))
  have hstage : ∀ q n y, stage (t.publishers q) = some (n, y) →
      stage (s.publishers q) = some (n, y) ∨
        q = p ∧ n = m ∧ y = .settled ∧ stage (s.publishers q) = some (n, .dropping) := by
    intro q n y hqn
    by_cases hqp : q = p
    · subst hqp
      rw [hself] at hqn
      rcases hs with hs | ⟨hs, hs'⟩
      · exact .inl (hs ▸ hqn)
      · rw [hs'] at hqn
        cases hqn
        exact .inr ⟨rfl, rfl, rfl, hs⟩
    · rw [hne q hqp] at hqn
      exact .inl hqn
  have hkeep : ∀ q n y, stage (s.publishers q) = some (n, y) → y ≠ .dropping →
      stage (t.publishers q) = some (n, y) := by
    intro q n y hqn hy
    by_cases hqp : q = p
    · subst hqp
      rw [hself]
      rcases hs with hs | ⟨hs, -⟩
      · rw [hs, hqn]
      · rw [hs] at hqn
        cases hqn
        exact absurd rfl hy
    · rw [hne q hqp, hqn]
  have hstage' : ∀ q n y, stage (t.publishers q) = some (n, y) →
      ∃ y', stage (s.publishers q) = some (n, y') := by
    intro q n y hqn
    rcases hstage q n y hqn with hqn | ⟨-, -, -, hqn⟩ <;> exact ⟨_, hqn⟩
  have hdropping : ∀ q n, dropping (t.publishers q) = some n →
      q ≠ p ∧ dropping (s.publishers q) = some n := by
    intro q n hqn
    by_cases hqp : q = p
    · subst hqp
      rw [hself, hd'] at hqn
      cases hqn
    · exact ⟨hqp, by rwa [hne q hqp] at hqn⟩
  constructor
  · rw [hq]; exact h.fifo
  · rw [ht]; exact h.dequeued
  · rw [hoff]; exact h.offered
  · intro n
    rw [h.waiting]
    constructor
    · rintro ⟨q, hqn⟩
      exact ⟨q, hkeep q n _ hqn (by decide)⟩
    · rintro ⟨q, hqn⟩
      rcases hstage q n _ hqn with hqn | ⟨-, -, hy, -⟩
      · exact ⟨q, hqn⟩
      · cases hy
  · intro n
    rw [h.rejected, hres]
    refine or_congr_right ⟨?_, ?_⟩
    · rintro ⟨q, hqn⟩
      exact ⟨q, hkeep q n _ hqn (by decide)⟩
    · rintro ⟨q, hqn⟩
      rcases hstage q n _ hqn with hqn | ⟨-, -, hy, -⟩
      · exact ⟨q, hqn⟩
      · cases hy
  · intro n
    rw [h.dropped, hdrop, List.mem_append, List.mem_singleton]
    constructor
    · rintro (hn | ⟨q, hqn⟩)
      · exact .inl (.inl hn)
      · by_cases hqp : q = p
        · subst hqp
          rw [hd] at hqn
          cases hqn
          exact .inl (.inr rfl)
        · exact .inr ⟨q, by rw [hne q hqp, hqn]⟩
    · rintro ((hn | rfl) | ⟨q, hqn⟩)
      · exact .inl hn
      · exact .inr ⟨p, hd⟩
      · exact .inr ⟨q, (hdropping q n hqn).2⟩
  · intro n hn
    rw [hq, hdrop, List.mem_append, List.mem_singleton]
    rcases hn with hn | ⟨q, hqn⟩
    · rw [hres] at hn
      exact (h.settled n (.inl hn)).imp_right .inl
    · rcases hstage q n _ hqn with hqn | ⟨-, rfl, -, -⟩
      · exact (h.settled n (.inr ⟨q, hqn⟩)).imp_right .inl
      · exact .inr (.inr rfl)
  · intro q r n y z hqn hrn
    obtain ⟨y', hqn⟩ := hstage' q n y hqn
    obtain ⟨z', hrn⟩ := hstage' r n z hrn
    exact h.single q r n _ _ hqn hrn
  · intro q n y hqn
    obtain ⟨y', hqn⟩ := hstage' q n y hqn
    rw [hoff]
    exact h.offering q n _ hqn
  · intro q n hqn
    obtain ⟨hqp, hqn⟩ := hdropping q n hqn
    rw [hdrop, List.mem_append, List.mem_singleton, not_or]
    refine ⟨h.undone q n hqn, ?_⟩
    rintro rfl
    exact hqp (h.dropper q p n hqn hd)
  · intro q r n hqn hrn
    exact h.dropper q r n (hdropping q n hqn).2 (hdropping r n hrn).2
  · rw [hdrop]
    exact List.nodup_append_comm.mp (List.nodup_cons.mpr ⟨hm, h.nodup⟩)
  · have hcb : t.callbacks = (s.drop m).callbacks := congrArg Ledger.callbacks hl
    have hon : s.on_drop_ m = cfg.has_on_drop m := by
      have := h.on_drop m
      cases hb : cfg.has_on_drop m <;> simp_all
    rw [hcb, hdrop, List.filter_append, ← h.callbacks]
    cases hb : cfg.has_on_drop m <;>
      simp [Bus.drop, Bus.notify_drop, hon, hb]
  · intro n
    have hon : t.on_drop_ = (s.drop m).on_drop_ := congrArg Ledger.on_drop_ hl
    have hn := h.on_drop n
    rw [hon, hoff, hdrop, List.mem_append, List.mem_singleton]
    unfold Bus.drop Bus.notify_drop
    by_cases hnm : n = m
    · subst hnm
      split <;> simp_all
    · split <;> simp [hnm, update_of_ne, hn]
  · rw [hpub]; exact fits_update h.fits hf

theorem Represents.evict {policy : FullPolicy} {cap : ℕ} {q : Fifo μ} (h : Represents cfg s a)
    (hi : Accounts.Inv policy cap a) (hdeq : s.queue_.dequeue = (q, some m))
    (hpub : t.publishers = update s.publishers p pc)
    (hs : stage pc = stage (s.publishers p)) (hd : dropping (s.publishers p) = none)
    (hd' : dropping pc = some m) (hf : BusSteps.fits cfg.policy_ pc) (hl : ledger t = ledger s)
    (hq : t.queue_ = q) (ht : t.taken = s.taken) :
    Represents cfg t { a with fifo := q, dropped := a.dropped ++ [m] } := by
  have hoff : t.offered = s.offered := congrArg Ledger.offered hl
  have hres : t.results = s.results := congrArg Ledger.results hl
  have hdrop : t.dropped = s.dropped := congrArg Ledger.dropped hl
  have hcb : t.callbacks = s.callbacks := congrArg Ledger.callbacks hl
  have hon : t.on_drop_ = s.on_drop_ := congrArg Ledger.on_drop_ hl
  obtain ⟨hitems, -, hput, -⟩ := Fifo.dequeue_head hdeq
  have hfresh : m ∉ a.dropped := by
    apply hi.queued_not_dropped
    rw [Book.queued, h.fifo, hitems]
    exact List.mem_cons_self
  have hstage : ∀ u, stage (t.publishers u) = stage (s.publishers u) := by
    rw [hpub]
    exact update_same stage hs
  have hdr : ∀ u n, dropping (t.publishers u) = some n ↔
      u = p ∧ n = m ∨ u ≠ p ∧ dropping (s.publishers u) = some n := by
    intro u n
    rw [hpub]
    by_cases hu : u = p
    · subst hu
      simp [hd', eq_comm]
    · simp [hu]
  have hnone : ∀ u, dropping (s.publishers u) = some m → False :=
    fun u hu ↦ hfresh ((h.dropped m).mpr (.inr ⟨u, hu⟩))
  constructor
  · exact hq.symm
  · rw [ht]; exact h.dequeued
  · rw [hoff]; exact h.offered
  · simp only [hstage]; exact h.waiting
  · simp only [hstage, hres]; exact h.rejected
  · intro n
    simp only [List.mem_append, List.mem_singleton, h.dropped, hdrop]
    constructor
    · rintro ((hn | ⟨u, hun⟩) | rfl)
      · exact .inl hn
      · refine .inr ⟨u, (hdr u n).mpr (.inr ⟨?_, hun⟩)⟩
        rintro rfl
        rw [hd] at hun
        cases hun
      · exact .inr ⟨p, (hdr p n).mpr (.inl ⟨rfl, rfl⟩)⟩
    · rintro (hn | ⟨u, hun⟩)
      · exact .inl (.inl hn)
      · rcases (hdr u n).mp hun with ⟨-, rfl⟩ | ⟨-, hun⟩
        · exact .inr rfl
        · exact .inl (.inr ⟨u, hun⟩)
  · simp only [hstage, hres, hdrop, hq, hput]; exact h.settled
  · simp only [hstage]; exact h.single
  · simp only [hstage, hoff]; exact h.offering
  · intro u n hun
    rw [hdrop]
    rcases (hdr u n).mp hun with ⟨-, rfl⟩ | ⟨-, hun⟩
    · exact fun hn ↦ hfresh ((h.dropped n).mpr (.inl hn))
    · exact h.undone u n hun
  · intro u v n hun hvn
    rcases (hdr u n).mp hun with ⟨rfl, rfl⟩ | ⟨-, hun⟩
    · rcases (hdr v n).mp hvn with ⟨rfl, -⟩ | ⟨-, hvn⟩
      · rfl
      · exact (hnone v hvn).elim
    · rcases (hdr v n).mp hvn with ⟨-, rfl⟩ | ⟨-, hvn⟩
      · exact (hnone u hun).elim
      · exact h.dropper u v n hun hvn
  · rw [hdrop]; exact h.nodup
  · rw [hcb, hdrop]; exact h.callbacks
  · simp only [hon, hoff, hdrop]; exact h.on_drop
  · rw [hpub]; exact fits_update h.fits hf

theorem Represents.offer {policy : FullPolicy} {cap : ℕ} (h : Represents cfg s a)
    (hi : Accounts.Inv policy cap a) (hidle : s.publishers p = .idle) (hm : m ∉ s.offered)
    (hpub : t.publishers = update s.publishers p pc) (hs : stage pc = some (m, .waiting))
    (hd : dropping pc = none) (hf : BusSteps.fits cfg.policy_ pc)
    (hl : ledger t = { ledger s with
      offered := s.offered ++ [m], on_drop_ := update s.on_drop_ m (cfg.has_on_drop m) })
    (hq : t.queue_ = s.queue_) (ht : t.taken = s.taken) :
    Represents cfg t { a with offered := a.offered ++ [m], waiting := a.waiting ++ [m] } := by
  have hoff : t.offered = s.offered ++ [m] := congrArg Ledger.offered hl
  have hres : t.results = s.results := congrArg Ledger.results hl
  have hdrop : t.dropped = s.dropped := congrArg Ledger.dropped hl
  have hcb : t.callbacks = s.callbacks := congrArg Ledger.callbacks hl
  have hon : t.on_drop_ = update s.on_drop_ m (cfg.has_on_drop m) := congrArg Ledger.on_drop_ hl
  have hstage : ∀ u n y, stage (t.publishers u) = some (n, y) ↔
      u = p ∧ n = m ∧ y = .waiting ∨ stage (s.publishers u) = some (n, y) := by
    intro u n y
    rw [hpub]
    by_cases hu : u = p
    · subst hu
      have hn : stage (s.publishers u) = none := by rw [hidle]; rfl
      rw [update_self, hs, hn]
      simp [eq_comm]
    · simp [hu]
  have hdr : ∀ u, dropping (t.publishers u) = dropping (s.publishers u) := by
    rw [hpub]
    apply update_same dropping
    rw [hd, hidle]
    rfl
  have hnew : ∀ u y, stage (s.publishers u) = some (m, y) → False :=
    fun u y hu ↦ hm (h.offering u m y hu)
  constructor
  · rw [hq]; exact h.fifo
  · rw [ht]; exact h.dequeued
  · rw [hoff, ← h.offered]
  · intro n
    simp only [List.mem_append, List.mem_singleton, h.waiting, hstage, exists_or]
    rw [or_comm]
    simp
  · simp only [hstage, hres, exists_or, h.rejected]
    simp
  · simp only [hdr, hdrop]; exact h.dropped
  · intro n hn
    rw [hq, hdrop]
    simp only [hstage, hres] at hn
    rcases hn with hn | ⟨u, ⟨-, -, hy⟩ | hun⟩
    · exact h.settled n (.inl hn)
    · cases hy
    · exact h.settled n (.inr ⟨u, hun⟩)
  · intro u v n y z hun hvn
    rcases (hstage u n y).mp hun with ⟨rfl, rfl, -⟩ | hun
    · rcases (hstage v n z).mp hvn with ⟨rfl, -, -⟩ | hvn
      · rfl
      · exact (hnew v z hvn).elim
    · rcases (hstage v n z).mp hvn with ⟨-, rfl, -⟩ | hvn
      · exact (hnew u y hun).elim
      · exact h.single u v n y z hun hvn
  · intro u n y hun
    rw [hoff, List.mem_append, List.mem_singleton]
    rcases (hstage u n y).mp hun with ⟨-, rfl, -⟩ | hun
    · exact .inr rfl
    · exact .inl (h.offering u n y hun)
  · simp only [hdr, hdrop]; exact h.undone
  · simp only [hdr]; exact h.dropper
  · rw [hdrop]; exact h.nodup
  · rw [hcb, hdrop]; exact h.callbacks
  · intro n
    have hmd : m ∉ s.dropped := fun hn ↦
      hm (h.offered ▸ hi.offered_of_dropped ((h.dropped m).mpr (.inl hn)))
    rw [hon, hoff, hdrop, List.mem_append, List.mem_singleton]
    by_cases hn : n = m
    · subst hn
      simp [hmd]
    · simp [hn, h.on_drop n]
  · rw [hpub]; exact fits_update h.fits hf

section Simulation

variable {cap : ℕ}

theorem Represents.publisherStep (h : Represents cfg s a) (hi : Accounts.Inv cfg.policy_ cap a)
    (hs : s.publisherStep cfg p = some t) : Follows cfg cap t a := by
  obtain ⟨pc, hpub, hpipe, hturn⟩ := publisherStep_turn hs
  have hq : t.queue_ = s.queue_ := congrArg Pipeline.queue_ hpipe
  have ht : t.taken = s.taken := congrArg Pipeline.taken hpipe
  have hf : BusSteps.fits cfg.policy_ pc := by
    have := publisherStep_fits (h.fits p) hs
    rwa [hpub, update_self] at this
  generalize hl : ledger t = l at hturn
  cases hturn with
  | silent hstage hdrop => exact (h.silent hpub hstage hdrop hf hl hq ht).follows
  | @reject m last hpc hpc' hrun =>
    subst hpc'
    have hblock : cfg.policy_ = .Block ∨ cfg.policy_ = .BlockTimeout := hf
    have hstage : stage (s.publishers p) = some (m, .waiting) := by rw [hpc]; rfl
    have hmw : m ∈ a.waiting := (h.waiting m).mpr ⟨p, hstage⟩
    refine (h.decide (b := { a with waiting := a.waiting.erase m, rejected := a.rejected ++ [m] })
      (x := .rejected) hi ⟨rfl, rfl, rfl, ?_, ?_⟩ hpub hstage (by rw [hpc]; rfl) (by simp) rfl rfl
      hf hl ht (hq ▸ h.fifo) (hq ▸ List.Subset.refl _) (by simp)).follows_entry (e := .reject m) ?_
    · simp
    · simp
    · refine if_pos ⟨hmw, .inr hblock, fun hr ↦ ?_⟩
      rw [hr] at hblock
      rcases hblock with hb | hb <;> cases hb
  | drop hd hd' hstage => exact (h.drop hi hpub hd hd' hstage hf hl hq ht).follows
  | @result m r hpc hpc' =>
    subst hpc'
    exact (h.result hpub (by rw [hpc]; rfl) (by rw [hpc]; rfl) hl hq ht).follows

theorem Represents.publish {mptr : μ} (h : Represents cfg s a)
    (hi : Accounts.Inv cfg.policy_ cap a) (hs : s.publish cfg p mptr = some t) :
    Follows cfg cap t a := by
  obtain ⟨hidle, hm, hpipe, ⟨pc, hpub, hstage, hd, hf, -⟩, -, -, hl⟩ := publish_cases hs
  have hq : t.queue_ = s.queue_ := congrArg Pipeline.queue_ hpipe
  have ht : t.taken = s.taken := congrArg Pipeline.taken hpipe
  refine (h.offer hi hidle hm hpub hstage hd hf hl hq ht).follows_entry (e := .offer mptr) ?_
  exact if_neg (h.offered ▸ hm)

theorem Represents.publisherQueue (h : Represents cfg s a) (hi : Accounts.Inv cfg.policy_ cap a)
    (hs : queueStep cfg cap s (.publisher p) = some t) : Follows cfg cap t a := by
  obtain ⟨pc, hpub, hl, hpipe, -, -, hcase⟩ := queueStep_publisher hs
  have ht : t.taken = s.taken := congrArg Pipeline.taken hpipe
  rcases hcase with ⟨m, hreq, hcap, hq, hres⟩ | ⟨hcap, hq, hres⟩ | ⟨hreq, hq, hres⟩
  · have hf := fits_resume (h.fits p) hres
    obtain ⟨m', hreq', hstage, hd, hstage', hd'⟩ := resume_enqueued hres
    rw [hreq] at hreq'
    cases hreq'
    have hmw : m ∈ a.waiting := (h.waiting m).mpr ⟨p, hstage⟩
    have hput : t.queue_.put = s.queue_.put ++ [m] := congrArg Fifo.put hq
    refine (h.decide (b := { a with waiting := a.waiting.erase m, fifo := a.fifo.enqueue m })
      (x := .settled) hi ⟨rfl, rfl, rfl, ?_, ?_⟩ hpub hstage hd (by simp) hstage' hd' hf hl ht ?_ ?_
      ?_).follows_entry (e := .enqueue m) ?_
    · simp
    · simp
    · rw [hq, ← h.fifo]
    · rw [hput]
      exact List.subset_append_left _ _
    · simp [hput]
    · refine if_pos ⟨hmw, ?_⟩
      rwa [Book.queued, h.fifo]
  · have hf := fits_resume (h.fits p) hres
    obtain ⟨m, -, hstage, hd, hcase⟩ := resume_full hres
    have hmw : m ∈ a.waiting := (h.waiting m).mpr ⟨p, hstage⟩
    have hfull : cap ≤ a.queued.length := by rwa [Book.queued, h.fifo]
    rcases hcase with ⟨hstage', hd'⟩ | ⟨hstage', hd', hpol⟩ | ⟨rfl, hpol⟩
    · exact (h.silent hpub (hstage'.trans hstage.symm) (hd'.trans hd.symm) hf hl hq ht).follows
    · obtain ⟨hp1, hp2⟩ := hpol (h.fits p)
      refine (h.decide
        (b := { a with waiting := a.waiting.erase m, rejected := a.rejected ++ [m] })
        (x := .rejected) hi ⟨rfl, rfl, rfl, ?_, ?_⟩ hpub hstage hd (by simp) hstage' hd' hf
        hl ht (hq ▸ h.fifo) (hq ▸ List.Subset.refl _) (by simp)).follows_entry (e := .reject m) ?_
      · simp
      · simp
      · refine if_pos ⟨hmw, ?_, fun _ ↦ hfull⟩
        unfold Rejects
        cases hpc : cfg.policy_ <;> simp_all
    · refine (h.decide
        (b := { a with waiting := a.waiting.erase m, dropped := a.dropped ++ [m] })
        (x := .dropping) hi ⟨rfl, rfl, rfl, ?_, ?_⟩ hpub hstage hd (by simp) rfl rfl hf
        hl ht (hq ▸ h.fifo) (hq ▸ List.Subset.refl _) (by simp)).follows_entry
          (e := .dropNewest m) ?_
      · simp
      · simp
      · exact if_pos ⟨hmw, hpol, hfull⟩
  · have hf := fits_resume (h.fits p) hres
    obtain ⟨m, hpc, hstage', hd'⟩ := resume_dequeued hres
    have hd : dropping (s.publishers p) = none := by rw [hpc]; rfl
    have hwait : stage (s.publishers p) = some (m, .waiting) := by rw [hpc]; rfl
    have hstage := hstage'.trans hwait.symm
    have hpol : cfg.policy_ = .DropOldest := by
      have hfit := h.fits p
      rwa [hpc] at hfit
    cases hdeq : s.queue_.dequeue with
    | mk q value =>
      rw [hdeq] at hd' hq
      cases value with
      | none =>
        obtain ⟨rfl, -⟩ := Fifo.dequeue_none hdeq
        exact (h.silent hpub hstage (hd'.trans hd.symm) hf hl hq ht).follows
      | some o =>
        refine (h.evict hi hdeq hpub hstage hd hd' hf hl hq ht).follows_entry
          (e := .dropOldest) ?_
        have hne : a.waiting ≠ [] := List.ne_nil_of_mem ((h.waiting m).mpr ⟨p, hwait⟩)
        simp only [Book.step, h.fifo, hdeq]
        exact if_pos ⟨hpol, hne⟩

theorem Represents.step {act : BusAction Pid μ} (h : Represents cfg s a)
    (hi : Accounts.Inv cfg.policy_ cap a) (hs : AtomicBus.step cfg cap s act = some t) :
    Follows cfg cap t a := by
  cases act with
  | thread act =>
    obtain ⟨hq, -, ht⟩ := localStep_queues hs
    rcases localStep_cases hs with ⟨p, mptr, hp⟩ | ⟨p, hp⟩ | hw
    · exact h.publish hi hp
    · exact h.publisherStep hi hp
    · exact (h.woken hw hq ht).follows
  | queue ag =>
    cases ag with
    | publisher p => exact h.publisherQueue hi hs
    | loop =>
      obtain ⟨hw, hcase⟩ := queueStep_loop hs
      rcases hcase with ⟨drain, q, m, -, hdeq, rfl⟩ | ⟨drain, -, -, rfl⟩ |
        ⟨drain, m, -, -, rfl⟩ | ⟨drain, m, -, rfl⟩
      · refine (h.dequeue hdeq hw rfl rfl).follows_entry (e := .dequeue) ?_
        simp only [Book.step, h.fifo, hdeq]
      · exact (h.woken hw rfl rfl).follows
      · exact (h.woken hw rfl rfl).follows
      · exact h.follows
    | worker i =>
      obtain ⟨hw, -, phase, -, hcase⟩ := queueStep_worker hs
      rcases hcase with ⟨q, m, -, rfl⟩ | ⟨-, rfl⟩
      · exact (h.woken hw rfl rfl).follows
      · exact (h.woken hw rfl rfl).follows

/-- The bus refines the bounded queue with its book. -/
theorem refines {capacity : ℕ} (h : (AtomicBus.machine Pid cfg capacity).Reachable s) :
    ∃ a, (Accounts.machine μ cfg.policy_ (storedCapacity capacity)).Reachable a ∧
      Represents cfg s a := by
  refine Machine.Reaches.simulate_rel (R := Represents cfg) ?_ ?_ h
  · rintro s rfl
    exact ⟨.initial, rfl, represents_initial cfg⟩
  · intro s act t a _ ha hR _ ht
    exact hR.step (Accounts.inv_reachable ha) ht

end Simulation

end LivioArk.Msgbus.Backpressure
