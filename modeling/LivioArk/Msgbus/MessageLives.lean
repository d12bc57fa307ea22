import LivioArk.Msgbus.MessageOwnership

namespace LivioArk.Msgbus.MessageLives

open Function LivioArk.Library.Transition
open LivioArk.Library.Holdings (countP_change)
open Message MessageHandles ObjectPlaces MessageOwnership

variable {θ η τ κ δ : Type} {s s' : State θ η τ κ δ} {t : θ} {h k : η} {pc : Pc η} {a : ℕ}

/-- No operation on a handle to the object is half-way. -/
def Settled (s : State θ η τ κ δ) (a : ℕ) : Prop :=
  ∀ t, ∀ k ∈ involved (s.pcs t), s.ptr_ k ≠ some a

def Released (s : State θ η τ κ δ) (k : η) : Prop := ∃ t next, s.pcs t = .clear k next

theorem uncounted_involved (hun : uncounted pc = some h) : h ∈ involved pc := by
  cases pc with
  | adopting k | copying k o | clearSource k o =>
    cases hun
    exact List.mem_cons_self
  | recycle k next | clear k next =>
    cases hun
    cases next with
    | done | destroy | copyFrom | moveFrom => exact List.mem_cons_self
  | idle | acquired | fresh | release | assign | take => cases hun

variable [DecidableEq η]

theorem counts_settled (hs : Tidy s) (ha : Settled s a) : counts s a = pointing s a := by
  apply List.countP_congr
  intro k hk
  rw [decide_eq_true_eq, decide_eq_true_eq]
  cases ho : s.owner k with
  | none =>
    have hnull := hs.dead k hk ho
    rw [ref_null hnull, hnull]
  | some t =>
    rw [ref_own ho]
    by_cases hun : uncounted (s.pcs t) = some k
    · have hne := ha t k (uncounted_involved hun)
      rw [if_pos hun]
      exact ⟨fun hnone ↦ (by cases hnone), fun hp ↦ absurd hp hne⟩
    · rw [if_neg hun]

theorem pointer_cases (hs : Tidy s) (hk : k ∈ s.handles) (hp : s.ptr_ k = some a) :
    ref s k = some a ∨ Released s k ∨
      ∃ u, uncounted (s.pcs u) = some k ∧
        (held s u = some a ∨ ∃ o, s.owner o = some u ∧ ref s o = some a) := by
  cases ho : s.owner k with
  | none =>
    rw [hs.dead k hk ho] at hp
    cases hp
  | some u =>
    by_cases hun : uncounted (s.pcs u) = some k
    · right
      have hfits := hs.fits u
      cases hpc : s.pcs u with
      | idle | acquired | fresh | release | assign | take =>
        rw [hpc] at hun
        cases hun
      | adopting | recycle =>
        right
        refine ⟨u, hun, .inl ?_⟩
        rw [hpc] at hun
        cases hun
        rw [held, hpc]
        exact hp
      | clear =>
        left
        rw [hpc] at hun
        cases hun
        exact ⟨u, _, hpc⟩
      | copying h o =>
        right
        refine ⟨u, hun, .inr ⟨o, ?_⟩⟩
        rw [hpc] at hun hfits
        cases hun
        obtain ⟨-, ho', hne, -, heq⟩ := hfits
        refine ⟨ho', ?_⟩
        rw [ref_own ho', hpc, if_neg, ← heq, hp]
        simpa [uncounted] using hne
      | clearSource h o =>
        right
        refine ⟨u, hun, .inr ⟨o, ?_⟩⟩
        rw [hpc] at hun hfits
        cases hun
        obtain ⟨-, ho', hne, heq⟩ := hfits
        refine ⟨ho', ?_⟩
        rw [ref_own ho', hpc, if_neg, ← heq, hp]
        simpa [uncounted] using hne
    · left
      rw [ref_own ho, if_neg hun, hp]

theorem counts_one_iff (hs : Tidy s) (hh : h ∈ s.handles) (href : ref s h = some a) :
    counts s a = 1 ↔ ∀ k ∈ s.handles, k ≠ h → ref s k ≠ some a := by
  have hchange := countP_change (p := fun k ↦ ref s k = some a)
    (q := fun k ↦ k ≠ h ∧ ref s k = some a) hs.nodup hh fun k _ hne ↦ by simp [hne]
  simp only [href, decide_eq_true_eq, ne_eq, not_true_eq_false, false_and, if_false,
    if_true, Nat.add_zero] at hchange
  rw [counts, ← hchange, Nat.add_eq_right, List.countP_eq_zero]
  simp only [decide_eq_true_eq, not_and]

theorem release_last_iff (hs : Inv s) {next : Next η} {m : TypedMessage τ κ δ}
    (hpc : s.pcs t = .release h next) (hp : s.ptr_ h = some a)
    (hm : s.heap.objects a = some m) :
    m.release_ref.1 = true ↔ ∀ k ∈ s.handles, k ≠ h → s.ptr_ k = some a → Released s k := by
  obtain ⟨place, hplace⟩ := hs.kept
  obtain ⟨m', hm', hzero⟩ := hs.releases hpc hp
  have hsame : m = m' := Option.some.inj (hm.symm.trans hm')
  have ho := (hs.tidy.fits_at hpc).1
  have href : ref s h = some a := by rw [ref_own ho, hpc, if_neg (by simp [uncounted]), hp]
  have hshared := (hplace.each a).shared.mpr (counts_pos hs.tidy ho href)
  rw [hsame, hzero, counts_one_iff hs.tidy (hs.tidy.mem ho) href]
  constructor
  · intro hothers k hk hkh hptr
    obtain hcounted | hreleased | ⟨u, hun, hheld | ⟨o, hou, hsource⟩⟩ :=
      pointer_cases hs.tidy hk hptr
    · exact absurd hcounted (hothers k hk hkh)
    · exact hreleased
    · have hplace' := hplace.held_iff.mp hheld
      rw [hshared] at hplace'
      cases hplace'
    · refine absurd hsource (hothers o (hs.tidy.mem hou) ?_)
      intro heq
      -- The thread that resets `h` would be in two operations.
      have hut : u = t := Option.some.inj (hou.symm.trans (heq ▸ ho))
      rw [hut, hpc] at hun
      cases hun
  · intro hothers k hk hkh hcounted
    have hptr : s.ptr_ k = some a := by
      rw [ref] at hcounted
      split at hcounted
      · cases hcounted
      · exact hcounted
    obtain ⟨u, next', hclear⟩ := hothers k hk hkh hptr
    have hun : uncounted (s.pcs u) = some k := by
      rw [hclear]
      rfl
    rw [ref_own (hs.tidy.uncounted hun), if_pos hun] at hcounted
    cases hcounted

theorem stale_released (hs : Inv s) {place : ℕ → Place θ τ}
    (hplace : Placed place s.heap (counts s) (held s) s.life s.ends) (hne : place a ≠ .shared)
    (hheld : ∀ u, held s u = some a → uncounted (s.pcs u) ≠ some k) (hk : k ∈ s.handles)
    (hptr : s.ptr_ k = some a) : Released s k := by
  have hzero := hplace.counts_zero hne
  have hnone : ∀ o ∈ s.handles, ref s o ≠ some a := by
    rw [counts, List.countP_eq_zero] at hzero
    intro o ho heq
    exact hzero o ho (decide_eq_true heq)
  obtain hcounted | hreleased | ⟨u, hun, hholds | ⟨o, hou, hsource⟩⟩ :=
    pointer_cases hs.tidy hk hptr
  · exact absurd hcounted (hnone k hk)
  · exact hreleased
  · exact absurd hun (hheld u hholds)
  · exact absurd hsource (hnone o (hs.tidy.mem hou))

theorem recycle_alone (hs : Inv s) {next : Next η} (hpc : s.pcs t = .recycle h next)
    (hp : s.ptr_ h = some a) :
    (a, s.life a) ∉ s.ends ∧ ∀ k ∈ s.handles, k ≠ h → s.ptr_ k = some a → Released s k := by
  obtain ⟨place, hplace⟩ := hs.kept
  have hheld : held s t = some a := (held_at hpc).trans hp
  have hraw := hplace.held_iff.mp hheld
  constructor
  · rw [(hplace.each a).finished (hplace.allocated (by simp [hraw])), hraw]
    simp
  · intro k hk hkh hptr
    apply stale_released hs hplace (by simp [hraw]) ?_ hk hptr
    intro u hu hun
    have hsame := hplace.held_iff.mp hu
    rw [hraw] at hsame
    cases hsame
    rw [hpc] at hun
    cases hun
    exact hkh rfl

theorem ended_iff (hs : Inv s) (ha : a < s.heap.next) (hsettled : Settled s a)
    (hidle : ∀ t, s.pcs t ≠ .acquired a ∧ s.pcs t ≠ .fresh a) :
    (a, s.life a) ∈ s.ends ↔ pointing s a = 0 := by
  obtain ⟨place, hplace⟩ := hs.kept
  have hshared := (hplace.each a).shared
  rw [(hplace.each a).finished ha, ← counts_settled hs.tidy hsettled]
  have hnot : ∀ t, place a ≠ .held t := by
    intro t ht
    have hheld := hplace.held_iff.mpr ht
    rw [held] at hheld
    cases hpc : s.pcs t with
    | acquired raw =>
      rw [hpc] at hheld
      cases hheld
      exact (hidle t).1 hpc
    | fresh raw =>
      rw [hpc] at hheld
      cases hheld
      exact (hidle t).2 hpc
    | adopting k | recycle k next =>
      rw [hpc] at hheld
      refine hsettled t k (uncounted_involved ?_) hheld
      rw [hpc]
      rfl
    | idle | copying | release | clear | assign | take | clearSource =>
      rw [hpc] at hheld
      cases hheld
  cases hat : place a with
  | held t => exact absurd hat (hnot t)
  | gone | shared | pooled =>
    rw [hat] at hshared
    simp only [reduceCtorEq, false_iff, true_iff] at hshared
    simp
    omega

section Moment

variable [DecidableEq θ]

theorem resume_ends {next : Next η} : (s.resume t h next).ends = s.ends := by
  cases next with
  | done | copyFrom | moveFrom | destroy => rfl

theorem startReset_ends {next : Next η} : (s.startReset t h next).ends = s.ends := by
  unfold State.startReset
  split
  · exact resume_ends
  · rfl

variable [DecidableEq τ]

theorem thread_ends {full : Bool} (hstep : s.thread t full = some s') : s'.ends = s.ends ∨
    ∃ h next raw, s.pcs t = .recycle h next ∧ s.ptr_ h = some raw ∧
      s' = s.endLife t h next raw full := by
  unfold State.thread at hstep
  cases hpc : s.pcs t with
  | idle | acquired | fresh =>
    rw [hpc] at hstep
    cases hstep
  | adopting k | copying k o | release k next =>
    rw [hpc] at hstep
    obtain ⟨raw, -, rfl⟩ := Option.map_eq_some_iff.mp hstep
    exact .inl rfl
  | recycle k next =>
    rw [hpc] at hstep
    obtain ⟨raw, hp, rfl⟩ := Option.map_eq_some_iff.mp hstep
    exact .inr ⟨k, next, raw, rfl, hp, rfl⟩
  | clear k next =>
    rw [hpc] at hstep
    cases hstep
    exact .inl resume_ends
  | assign k o | take k o | clearSource k o =>
    rw [hpc] at hstep
    cases hstep
    exact .inl rfl

/-- Only one step of the program ends a life. -/
theorem step_ends {act : Action θ η τ δ} (hstep : s.step act = some s') : s'.ends = s.ends ∨
    ∃ t full h next raw, act = .step t full ∧ s.pcs t = .recycle h next ∧
      s.ptr_ h = some raw ∧ s' = s.endLife t h next raw full := by
  cases act with
  | create t T topic_id data pooled =>
    obtain ⟨-, hx⟩ := begin_some hstep
    cases hx
    exact .inl rfl
  | acquire t T hit =>
    obtain ⟨-, hx⟩ := begin_some hstep
    cases hx
    left
    unfold State.acquire
    split
    · rfl
    · rfl
  | prepare t topic_id data pooled =>
    simp only [State.step] at hstep
    split at hstep
    · cases hstep
      exact .inl rfl
    · cases hstep
  | adopt t k =>
    left
    simp only [State.step] at hstep
    split at hstep
    · split at hstep
      · cases hstep
      · cases hstep
        rfl
    · split at hstep
      · cases hstep
      · cases hstep
        rfl
    · cases hstep
  | construct t k | copyConstruct t k o | moveConstruct t k o | hand t k heir =>
    obtain ⟨-, hx⟩ := begin_some hstep
    split at hx
    · cases hx
    · cases hx
      exact .inl rfl
  | copyAssign t k o | moveAssign t k o =>
    obtain ⟨-, hx⟩ := begin_some hstep
    split at hx
    · cases hx
    · split at hx
      · cases hx
        exact .inl rfl
      · cases hx
        exact .inl startReset_ends
  | reset t k | destroy t k =>
    obtain ⟨-, hx⟩ := begin_some hstep
    split at hx
    · cases hx
    · cases hx
      exact .inl startReset_ends
  | step t full =>
    obtain hsame | ⟨k, next, raw, hpc, hp, hs'⟩ := thread_ends hstep
    · exact .inl hsame
    · exact .inr ⟨t, full, k, next, raw, rfl, hpc, hp, hs'⟩

end Moment

variable [DecidableEq θ] [DecidableEq τ]

/-- A life starts with `new` or with an object from a pool, and ends with the
step of `ends`, after which the object is deleted or in a free list. The thread
that ends it is the one whose `release_ref` was the last: by then every other
handle that still shows the object has been released. -/
structure OwnershipKept (s : State θ η τ κ δ) : Prop where
  count : ∀ a m, Settled s a → s.heap.objects a = some m → m.ref_count_ = pointing s a
  alive : ∀ a, Settled s a → 0 < pointing s a → s.heap.objects a ≠ none
  once : s.ends.Nodup
  lives : ∀ a n, (a, n) ∈ s.ends → 1 ≤ n ∧ n ≤ s.life a
  past : ∀ a n, 1 ≤ n → n < s.life a → (a, n) ∈ s.ends
  finished : ∀ a, a < s.heap.next →
    ((a, s.life a) ∈ s.ends ↔ s.heap.objects a = none ∨ ∃ T, a ∈ s.heap.pools T)
  ended : ∀ a, a < s.heap.next → Settled s a →
    (∀ t, s.pcs t ≠ .acquired a ∧ s.pcs t ≠ .fresh a) →
    ((a, s.life a) ∈ s.ends ↔ pointing s a = 0)
  last : ∀ t h next a m, s.pcs t = .release h next → s.ptr_ h = some a →
    s.heap.objects a = some m →
    (m.release_ref.1 = true ↔ ∀ k ∈ s.handles, k ≠ h → s.ptr_ k = some a → Released s k)
  alone : ∀ t h next a, s.pcs t = .recycle h next → s.ptr_ h = some a →
    (a, s.life a) ∉ s.ends ∧ ∀ k ∈ s.handles, k ≠ h → s.ptr_ k = some a → Released s k
  moment : ∀ a s', s.step a = some s' → s'.ends = s.ends ∨
    ∃ t full h next raw, a = .step t full ∧ s.pcs t = .recycle h next ∧
      s.ptr_ h = some raw ∧ s' = s.endLife t h next raw full
  free : ∀ T, (s.heap.pools T).Nodup
  one_pool : ∀ a T T', a ∈ s.heap.pools T → a ∈ s.heap.pools T' → T = T'
  unused : ∀ a T, a ∈ s.heap.pools T → ∀ k ∈ s.handles, s.ptr_ k = some a → Released s k
  no_fault : s.heap.fault = false

/-- Two threads share a message. The last handle gives the object back to its
pool, and a second life begins with it. -/
def twoLives : List (Action Bool ℕ Unit Unit) :=
  [.create true () 0 () true, .adopt true 0, .step true false, .copyConstruct true 1 0,
    .step true false, .hand true 1 false, .reset true 0, .step true false, .destroy false 1,
    .step false false, .step true false, .step false false, .step false false,
    .acquire true () true, .prepare true 1 () true, .adopt true 2, .step true false,
    .moveConstruct true 3 2, .step true false]

end LivioArk.Msgbus.MessageLives
