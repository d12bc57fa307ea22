import LivioArk.Library.Holdings
import LivioArk.Msgbus.MessageHandles
import LivioArk.Msgbus.ObjectPlaces

namespace LivioArk.Msgbus.MessageOwnership

open Function LivioArk.Library.Transition LivioArk.Library.Holdings
open Message MessageHandles ObjectPlaces

variable {θ η τ κ δ : Type} {s s' : State θ η τ κ δ} {t u : θ} {h k o : η} {pc : Pc η}
  {next : Next η} {raw : ℕ}

def uncounted : Pc η → Option η
  | .adopting h | .copying h _ | .recycle h _ | .clear h _ | .clearSource h _ => some h
  | .idle | .acquired _ | .fresh _ | .release _ _ | .assign _ _ | .take _ _ => none

def involved : Pc η → List η
  | .idle | .acquired _ | .fresh _ => []
  | .adopting h => [h]
  | .copying h o | .assign h o | .take h o | .clearSource h o => [h, o]
  | .release h next | .recycle h next | .clear h next =>
    match next with
    | .done | .destroy => [h]
    | .copyFrom o | .moveFrom o => [h, o]

def heldAt (s : State θ η τ κ δ) : Pc η → Option ℕ
  | .acquired raw | .fresh raw => some raw
  | .adopting h | .recycle h _ => s.ptr_ h
  | .idle | .copying _ _ | .release _ _ | .clear _ _ | .assign _ _ | .take _ _ | .clearSource _ _ =>
    none

def held (s : State θ η τ κ δ) (t : θ) : Option ℕ := heldAt s (s.pcs t)

def FitsNext (s : State θ η τ κ δ) (t : θ) (h : η) : Next η → Prop
  | .done | .destroy => True
  | .copyFrom o | .moveFrom o => s.owner o = some t ∧ h ≠ o

/-- A thread works on its own handles, and what they point to is as the
operation has left it. -/
def Fits (s : State θ η τ κ δ) (t : θ) : Pc η → Prop
  | .idle | .acquired _ | .fresh _ => True
  | .adopting h => s.owner h = some t ∧ s.ptr_ h ≠ none
  | .copying h o =>
    s.owner h = some t ∧ s.owner o = some t ∧ h ≠ o ∧ s.ptr_ h ≠ none ∧ s.ptr_ h = s.ptr_ o
  | .release h next | .recycle h next | .clear h next =>
    s.owner h = some t ∧ s.ptr_ h ≠ none ∧ FitsNext s t h next
  | .assign h o | .take h o =>
    s.owner h = some t ∧ s.owner o = some t ∧ h ≠ o ∧ s.ptr_ h = none
  | .clearSource h o =>
    s.owner h = some t ∧ s.owner o = some t ∧ h ≠ o ∧ s.ptr_ h = s.ptr_ o

structure Tidy (s : State θ η τ κ δ) : Prop where
  nodup : s.handles.Nodup
  known : ∀ k, s.owner k ≠ none → k ∈ s.handles
  dead : ∀ k ∈ s.handles, s.owner k = none → s.ptr_ k = none
  fits : ∀ t, Fits s t (s.pcs t)

structure Aside (t : θ) (s s' : State θ η τ κ δ) : Prop where
  pcs : ∀ u, u ≠ t → s'.pcs u = s.pcs u
  owner : ∀ k ∈ s.handles, s.owner k ≠ some t → s'.owner k = s.owner k
  ptr : ∀ k ∈ s.handles, s.owner k ≠ some t → s'.ptr_ k = s.ptr_ k

theorem Tidy.fits_at (hs : Tidy s) (hpc : s.pcs t = pc) : Fits s t pc := hpc ▸ hs.fits t

theorem held_at (hpc : s.pcs t = pc) : held s t = heldAt s pc := congrArg (heldAt s) hpc

theorem Tidy.mem (hs : Tidy s) (ho : s.owner h = some t) : h ∈ s.handles := by
  apply hs.known
  rw [ho]
  simp

theorem Tidy.uncounted (hs : Tidy s) (hun : uncounted (s.pcs t) = some h) :
    s.owner h = some t := by
  have hfits := hs.fits t
  cases hpc : s.pcs t with
  | adopting | copying | recycle | clear | clearSource =>
    rw [hpc] at hfits hun
    cases hun
    exact hfits.1
  | idle | acquired | fresh | release | assign | take =>
    rw [hpc] at hun
    cases hun

theorem Aside.of_owner (ha : Aside t s s') (hs : Tidy s) (hu : u ≠ t) (ho : s.owner k = some u) :
    s'.owner k = some u ∧ s'.ptr_ k = s.ptr_ k := by
  have hmem := hs.mem ho
  have hne : s.owner k ≠ some t := by
    rw [ho]
    simpa using hu
  exact ⟨(ha.owner k hmem hne).trans ho, ha.ptr k hmem hne⟩

theorem Aside.fits (ha : Aside t s s') (hs : Tidy s) (hu : u ≠ t) : Fits s' u (s'.pcs u) := by
  rw [ha.pcs u hu]
  have hown := fun k ho ↦ ha.of_owner hs (k := k) hu ho
  have hnext : ∀ k next, FitsNext s u k next → FitsNext s' u k next := by
    intro k next hnext
    cases next with
    | done | destroy => trivial
    | copyFrom o | moveFrom o => exact ⟨(hown o hnext.1).1, hnext.2⟩
  cases hpc : s.pcs u with
  | idle | acquired | fresh => trivial
  | adopting h =>
    obtain ⟨ho, hp⟩ := hs.fits_at hpc
    exact ⟨(hown h ho).1, (hown h ho).2 ▸ hp⟩
  | copying h o =>
    obtain ⟨ho, ho', hne, hp, heq⟩ := hs.fits_at hpc
    refine ⟨(hown h ho).1, (hown o ho').1, hne, (hown h ho).2 ▸ hp, ?_⟩
    rw [(hown h ho).2, (hown o ho').2, heq]
  | release h next | recycle h next | clear h next =>
    obtain ⟨ho, hp, hn⟩ := hs.fits_at hpc
    exact ⟨(hown h ho).1, (hown h ho).2 ▸ hp, hnext h next hn⟩
  | assign h o | take h o =>
    obtain ⟨ho, ho', hne, hp⟩ := hs.fits_at hpc
    exact ⟨(hown h ho).1, (hown o ho').1, hne, (hown h ho).2 ▸ hp⟩
  | clearSource h o =>
    obtain ⟨ho, ho', hne, heq⟩ := hs.fits_at hpc
    refine ⟨(hown h ho).1, (hown o ho').1, hne, ?_⟩
    rw [(hown h ho).2, (hown o ho').2, heq]

theorem Aside.held_eq (ha : Aside t s s') (hs : Tidy s) (hu : u ≠ t) : held s' u = held s u := by
  rw [held, held, ha.pcs u hu]
  cases hpc : s.pcs u with
  | adopting h | recycle h =>
    exact (ha.of_owner hs hu (hs.fits_at hpc).1).2
  | idle | acquired | fresh | copying | release | clear | assign | take | clearSource => rfl

theorem Tidy.aside (hs : Tidy s) (ha : Aside t s s') (hnodup : s'.handles.Nodup)
    (hknown : ∀ k, s'.owner k ≠ none → k ∈ s'.handles)
    (hdead : ∀ k ∈ s'.handles, s'.owner k = none → s'.ptr_ k = none)
    (hfits : Fits s' t (s'.pcs t)) : Tidy s' where
  nodup := hnodup
  known := hknown
  dead := hdead
  fits u := by
    by_cases hu : u = t
    · rw [hu]
      exact hfits
    · exact ha.fits hs hu

section Moves

variable [DecidableEq θ]

theorem goto_same (hpc : s.pcs t = pc) : s.goto t pc = s := by
  rw [State.goto, ← hpc, update_eq_self]

structure Moves (t : θ) (pc : Pc η) (s s' : State θ η τ κ δ) : Prop where
  pcs : s'.pcs = update s.pcs t pc
  owner : s'.owner = s.owner
  handles : s'.handles = s.handles
  ptr : ∀ k, s.owner k ≠ some t → s'.ptr_ k = s.ptr_ k

theorem Moves.at_pc (hm : Moves t pc s s') : s'.pcs t = pc := by
  rw [hm.pcs, update_self]

theorem Moves.aside (hm : Moves t pc s s') : Aside t s s' where
  pcs u hu := by rw [hm.pcs, update_of_ne hu]
  owner k _ _ := by rw [hm.owner]
  ptr k _ hk := hm.ptr k hk

theorem Moves.tidy (hm : Moves t pc s s') (hs : Tidy s) (hfits : Fits s' t pc) : Tidy s' := by
  apply hs.aside hm.aside
  · rw [hm.handles]
    exact hs.nodup
  · rw [hm.owner, hm.handles]
    exact hs.known
  · rw [hm.owner, hm.handles]
    intro k hk ho
    rw [hm.ptr k (by simp [ho])]
    exact hs.dead k hk ho
  · rw [hm.at_pc]
    exact hfits

theorem Moves.held_eq (hm : Moves t pc s s') (hs : Tidy s) :
    held s' = update (held s) t (heldAt s' pc) := by
  funext u
  by_cases hu : u = t
  · rw [hu, update_self, held, hm.at_pc]
  · rw [update_of_ne hu]
    exact hm.aside.held_eq hs hu

end Moves

variable [DecidableEq η]

def ref (s : State θ η τ κ δ) (h : η) : Option ℕ :=
  if (s.owner h).any fun t ↦ uncounted (s.pcs t) = some h then none else s.ptr_ h

def counts (s : State θ η τ κ δ) (a : ℕ) : ℕ := s.handles.countP fun h ↦ ref s h = some a

def pointing (s : State θ η τ κ δ) (a : ℕ) : ℕ := s.handles.countP fun h ↦ s.ptr_ h = some a

def Kept (s : State θ η τ κ δ) : Prop :=
  ∃ place, Placed place s.heap (counts s) (held s) s.life s.ends

structure Inv (s : State θ η τ κ δ) : Prop where
  tidy : Tidy s
  kept : Kept s

theorem ref_own (ho : s.owner h = some t) :
    ref s h = if uncounted (s.pcs t) = some h then none else s.ptr_ h := by
  simp only [ref, ho, Option.any_some, decide_eq_true_eq]

theorem ref_null (hp : s.ptr_ h = none) : ref s h = none := by
  rw [ref, hp, ite_self]

theorem Aside.ref_eq (ha : Aside t s s') (hs : Tidy s) (hk : k ∈ s.handles)
    (hne : s.owner k ≠ some t) : ref s' k = ref s k := by
  cases ho : s.owner k with
  | none =>
    have hnull := hs.dead k hk ho
    rw [ref_null hnull, ref_null ((ha.ptr k hk hne).trans hnull)]
  | some u =>
    have hu : u ≠ t := by
      intro heq
      exact hne (heq ▸ ho)
    rw [ref_own ho, ref_own ((ha.owner k hk hne).trans ho), ha.pcs u hu, ha.ptr k hk hne]

theorem counts_congr (hhandles : s'.handles = s.handles)
    (href : ∀ k ∈ s.handles, ref s' k = ref s k) (a : ℕ) : counts s' a = counts s a := by
  rw [counts, counts, hhandles]
  apply List.countP_congr
  intro k hk
  rw [href k hk]

theorem counts_change (hs : Tidy s) (hh : h ∈ s.handles) (hhandles : s'.handles = s.handles)
    (hsame : ∀ k ∈ s.handles, k ≠ h → ref s' k = ref s k) (a : ℕ) :
    counts s' a + (if ref s h = some a then 1 else 0) =
      counts s a + (if ref s' h = some a then 1 else 0) := by
  have hchange := countP_change (p := fun k ↦ ref s k = some a)
    (q := fun k ↦ ref s' k = some a) hs.nodup hh fun k hk hne ↦ by rw [hsame k hk hne]
  rw [counts, counts, hhandles]
  simpa only [decide_eq_true_eq] using hchange

theorem counts_pos (hs : Tidy s) (ho : s.owner h = some t) (href : ref s h = some raw) :
    0 < counts s raw :=
  List.countP_pos_iff.mpr ⟨h, hs.mem ho, decide_eq_true href⟩

theorem Inv.still (hs : Inv s) (ht : Tidy s') (hcounts : ∀ a, counts s' a = counts s a)
    (hheld : ∀ u, held s' u = held s u) (hheap : s'.heap = s.heap) (hlife : s'.life = s.life)
    (hends : s'.ends = s.ends) : Inv s' := by
  obtain ⟨place, hplace⟩ := hs.kept
  refine ⟨ht, place, ?_⟩
  rw [hheap, hlife, hends]
  exact hplace.congr hcounts hheld

theorem Inv.releases (hs : Inv s) (hpc : s.pcs t = .release h next)
    (hp : s.ptr_ h = some raw) :
    ∃ m, s.heap.objects raw = some m ∧ (m.release_ref.1 = true ↔ counts s raw = 1) := by
  obtain ⟨place, hplace⟩ := hs.kept
  have ho := (hs.tidy.fits_at hpc).1
  have href : ref s h = some raw := by rw [ref_own ho, hpc, if_neg (by simp [uncounted]), hp]
  have hshared := (hplace.each raw).shared.mpr (counts_pos hs.tidy ho href)
  obtain ⟨m, hm⟩ : ∃ m, s.heap.objects raw = some m := hplace.object (by simp [hshared])
  have hcount := (hplace.each raw).count m hm
  refine ⟨m, hm, ?_⟩
  simp only [TypedMessage.release_ref, decide_eq_true_eq]
  omega

theorem begin_some {x : Option (State θ η τ κ δ)} (h : s.begin t x = some s') :
    s.pcs t = .idle ∧ x = some s' := by
  unfold State.begin at h
  split at h
  · rename_i hpc
    exact ⟨hpc, h⟩
  · cases h

theorem Inv.initial : Inv ({} : State θ η τ κ δ) where
  tidy := ⟨List.nodup_nil, fun _ hk ↦ absurd rfl hk, fun _ hk ↦ absurd hk List.not_mem_nil,
    fun _ ↦ trivial⟩
  kept := ⟨_, placed_empty⟩

variable [DecidableEq θ]

theorem Moves.ref_eq (hm : Moves t pc s s') (ho : s.owner k = some t) :
    ref s' k = if uncounted pc = some k then none else s'.ptr_ k := by
  rw [ref_own (hm.owner ▸ ho), hm.at_pc]

theorem Moves.ref_same (hm : Moves t pc s s') (hs : Tidy s)
    (hown : ∀ k, s.owner k = some t → k ≠ h → ref s' k = ref s k) :
    ∀ k ∈ s.handles, k ≠ h → ref s' k = ref s k := by
  intro k hk hne
  by_cases ho : s.owner k = some t
  · exact hown k ho hne
  · exact hm.aside.ref_eq hs hk ho

theorem Moves.still (hm : Moves t pc s s') (hs : Inv s) (hfits : Fits s' t pc)
    (href : ∀ k, s.owner k = some t → ref s' k = ref s k) (hheld : heldAt s' pc = held s t)
    (hheap : s'.heap = s.heap) (hlife : s'.life = s.life) (hends : s'.ends = s.ends) : Inv s' := by
  apply hs.still (hm.tidy hs.tidy hfits) ?_ ?_ hheap hlife hends
  · apply counts_congr hm.handles
    intro k hk
    by_cases ho : s.owner k = some t
    · exact href k ho
    · exact hm.aside.ref_eq hs.tidy hk ho
  · rw [hm.held_eq hs.tidy, hheld, update_eq_self]
    exact fun _ ↦ rfl

theorem Inv.goto (hs : Inv s) (hfits : Fits s t pc) (hun : uncounted pc = uncounted (s.pcs t))
    (hheld : heldAt s pc = held s t) : Inv (s.goto t pc) := by
  have hm : Moves t pc s (s.goto t pc) := ⟨rfl, rfl, rfl, fun _ _ ↦ rfl⟩
  refine hm.still hs hfits ?_ hheld rfl rfl rfl
  intro k ho
  rw [hm.ref_eq ho, ref_own ho, hun]
  rfl

theorem moves_point {p : Option ℕ} (ho : s.owner h = some t) :
    Moves t pc s ((s.point h p).goto t pc) := by
  refine ⟨rfl, rfl, rfl, ?_⟩
  intro k hk
  have hne : k ≠ h := by
    intro heq
    exact hk (heq ▸ ho)
  exact update_of_ne hne ..

theorem Inv.point {p : Option ℕ} (hs : Inv s) (ho : s.owner h = some t)
    (hfits : Fits ((s.point h p).goto t pc) t pc) (hbefore : ref s h = none)
    (hafter : uncounted pc = some h ∨ p = none ∧ uncounted pc = none)
    (hothers : ∀ k, uncounted (s.pcs t) = some k → k = h)
    (hheld : heldAt ((s.point h p).goto t pc) pc = held s t) :
    Inv ((s.point h p).goto t pc) := by
  have hm : Moves t pc s ((s.point h p).goto t pc) := moves_point ho
  refine hm.still hs hfits ?_ hheld rfl rfl rfl
  intro k hk
  rw [hm.ref_eq hk]
  by_cases hkh : k = h
  · rw [hkh, hbefore]
    cases hafter with
    | inl hun => rw [if_pos hun]
    | inr hnone =>
      rw [ite_eq_left_iff]
      exact fun _ ↦ (update_self ..).trans hnone.1
  · have hptr : ((s.point h p).goto t pc).ptr_ k = s.ptr_ k := update_of_ne hkh ..
    rw [ref_own hk, hptr, if_neg, if_neg]
    · intro hun
      exact hkh (hothers k hun)
    · intro hun
      cases hafter with
      | inl hun' => exact hkh (Option.some.inj (hun.symm.trans hun'))
      | inr hnone =>
        rw [hnone.2] at hun
        cases hun

theorem Inv.born {p : Option ℕ} (hs : Inv s) (hnew : h ∉ s.handles)
    (hfits : Fits ((s.born t h p).goto t pc) t pc) (hbefore : uncounted (s.pcs t) = none)
    (hafter : uncounted pc = some h ∨ p = none ∧ uncounted pc = none)
    (hheld : heldAt ((s.born t h p).goto t pc) pc = held s t) :
    Inv ((s.born t h p).goto t pc) := by
  have hne : ∀ k ∈ s.handles, k ≠ h := by
    intro k hk heq
    exact hnew (heq ▸ hk)
  have hown : ∀ k, k ≠ h → ((s.born t h p).goto t pc).owner k = s.owner k := fun k hk ↦
    update_of_ne hk ..
  have hptr : ∀ k, k ≠ h → ((s.born t h p).goto t pc).ptr_ k = s.ptr_ k := fun k hk ↦
    update_of_ne hk ..
  have ha : Aside t s ((s.born t h p).goto t pc) := by
    refine ⟨fun u hu ↦ update_of_ne hu .., ?_, ?_⟩
    · intro k hk _
      exact hown k (hne k hk)
    · intro k hk _
      exact hptr k (hne k hk)
  have howner : ((s.born t h p).goto t pc).owner h = some t := update_self ..
  have hpc : ((s.born t h p).goto t pc).pcs t = pc := update_self ..
  have htidy : Tidy ((s.born t h p).goto t pc) := by
    apply hs.tidy.aside ha
    · exact List.nodup_cons.mpr ⟨hnew, hs.tidy.nodup⟩
    · intro k hk
      by_cases hkh : k = h
      · rw [hkh]
        exact List.mem_cons_self
      · rw [hown k hkh] at hk
        exact List.mem_cons_of_mem h (hs.tidy.known k hk)
    · intro k hk ho
      by_cases hkh : k = h
      · rw [hkh, howner] at ho
        cases ho
      · rw [hown k hkh] at ho
        rw [hptr k hkh]
        exact hs.tidy.dead k ((List.mem_cons.mp hk).resolve_left hkh) ho
    · rw [hpc]
      exact hfits
  apply hs.still htidy ?_ ?_ rfl rfl rfl
  · intro a
    have hnone : ref ((s.born t h p).goto t pc) h = none := by
      rw [ref_own howner, hpc, ite_eq_left_iff]
      cases hafter with
      | inl hun => exact fun hne ↦ absurd hun hne
      | inr hnone => exact fun _ ↦ (update_self ..).trans hnone.1
    have hhandles : ((s.born t h p).goto t pc).handles = h :: s.handles := rfl
    rw [counts, counts, hhandles, List.countP_cons, hnone]
    simp only [reduceCtorEq, decide_false, Bool.false_eq_true, if_false, Nat.add_zero]
    apply List.countP_congr
    intro k hk
    have hkh := hne k hk
    have href : ref ((s.born t h p).goto t pc) k = ref s k := by
      by_cases ho : s.owner k = some t
      · rw [ref_own ((hown k hkh).trans ho), ref_own ho, hpc, hptr k hkh, hbefore]
        rw [if_neg, if_neg (by simp)]
        intro hun
        cases hafter with
        | inl hun' => exact hkh (Option.some.inj (hun.symm.trans hun'))
        | inr hnone =>
          rw [hnone.2] at hun
          cases hun
      · exact ha.ref_eq hs.tidy hk ho
    rw [href]
  · intro u
    by_cases hu : u = t
    · rw [hu, held, hpc, hheld]
    · exact ha.held_eq hs.tidy hu

theorem Inv.owned {heir : Option θ} (hs : Inv s) (hpc : s.pcs t = .idle) (ho : s.owner h = some t)
    (hnull : heir = none → s.ptr_ h = none) :
    Inv (s.own h heir) := by
  have hown : ∀ k, k ≠ h → (s.own h heir).owner k = s.owner k := fun k hk ↦ update_of_ne hk ..
  have hheir : (s.own h heir).owner h = heir := update_self ..
  have hidle : (s.own h heir).pcs t = .idle := hpc
  have ha : Aside t s (s.own h heir) := by
    refine ⟨fun _ _ ↦ rfl, ?_, fun _ _ _ ↦ rfl⟩
    intro k _ hk
    apply hown
    intro heq
    exact hk (heq ▸ ho)
  have htidy : Tidy (s.own h heir) := by
    apply hs.tidy.aside ha hs.tidy.nodup
    · intro k hk
      by_cases hkh : k = h
      · rw [hkh]
        exact hs.tidy.mem ho
      · exact hs.tidy.known k (hown k hkh ▸ hk)
    · intro k hk hnone
      by_cases hkh : k = h
      · rw [hkh] at hnone ⊢
        exact hnull (hheir.symm.trans hnone)
      · exact hs.tidy.dead k hk (hown k hkh ▸ hnone)
    · rw [hidle]
      trivial
  apply hs.still htidy ?_ ?_ rfl rfl rfl
  · refine counts_congr rfl ?_
    intro k hk
    by_cases hkt : s.owner k = some t
    · by_cases hkh : k = h
      · subst hkh
        have hbefore : ref s k = s.ptr_ k := by
          rw [ref_own ho, hpc]
          rfl
        cases heir with
        | none =>
          have hnull' := hnull rfl
          rw [ref_null hnull', ref_null (s := s.own k none) hnull']
        | some u =>
          rw [hbefore, ref_own hheir]
          refine if_neg fun hun ↦ ?_
          have hu := ho.symm.trans (hs.tidy.uncounted hun)
          cases hu
          rw [hidle] at hun
          cases hun
      · simp only [ref, hown k hkh]
        rfl
    · exact ha.ref_eq hs.tidy hk hkt
  · intro u
    by_cases hu : u = t
    · rw [hu, held, held, hidle, hpc]
      rfl
    · exact ha.held_eq hs.tidy hu

section Operations

theorem resume_goto : (s.goto t pc).resume t h next = s.resume t h next := by
  cases next with
  | done | copyFrom | moveFrom | destroy =>
    simp only [State.resume, State.goto, State.own, update_idem]

theorem Inv.resume (hs : Inv s) (hpc : s.pcs t = .idle) (ho : s.owner h = some t)
    (hp : s.ptr_ h = none) (hn : FitsNext s t h next) : Inv (s.resume t h next) := by
  have hun : uncounted (s.pcs t) = none := congrArg uncounted hpc
  have hheld : held s t = none := held_at hpc
  have hidle : Inv (s.goto t .idle) := hs.goto trivial hun.symm hheld.symm
  cases next with
  | done => exact hidle
  | copyFrom o | moveFrom o => exact hs.goto ⟨ho, hn.1, hn.2, hp⟩ hun.symm hheld.symm
  | destroy => exact hidle.owned (update_self ..) ho fun _ ↦ hp

theorem Inv.startReset (hs : Inv s) (hpc : s.pcs t = .idle) (ho : s.owner h = some t)
    (hn : FitsNext s t h next) : Inv (s.startReset t h next) := by
  unfold State.startReset
  split
  · rename_i hp
    exact hs.resume hpc ho hp hn
  · rename_i hp
    have hfits : Fits s t (.release h next) := ⟨ho, hp, hn⟩
    apply hs.goto hfits
    · rw [hpc]
      rfl
    · rw [held, hpc]
      rfl

theorem Inv.cleared (hs : Inv s) (hpc : s.pcs t = .clear h next) :
    Inv ((s.point h none).resume t h next) := by
  obtain ⟨ho, -, hn⟩ := hs.tidy.fits_at hpc
  have hnull : Inv ((s.point h none).goto t .idle) := by
    have hfits : Fits ((s.point h none).goto t .idle) t .idle := trivial
    apply hs.point ho hfits
    · rw [ref_own ho, hpc]
      exact if_pos rfl
    · exact .inr ⟨rfl, rfl⟩
    · intro k hk
      rw [hpc] at hk
      exact (Option.some.inj hk).symm
    · rw [held, hpc]
      rfl
  have hresume : ((s.point h none).goto t .idle).resume t h next =
      (s.point h none).resume t h next := resume_goto
  rw [← hresume]
  apply hnull.resume (update_self ..) ho (update_self ..)
  cases next with
  | done | copyFrom | moveFrom | destroy => exact hn

theorem Inv.assigned (hs : Inv s) (hpc : s.pcs t = .assign h o) :
    Inv ((s.point h (s.ptr_ o)).goto t (if s.ptr_ o = none then .idle else .copying h o)) := by
  obtain ⟨ho, ho', hne, hp⟩ := hs.tidy.fits_at hpc
  have hothers : ∀ k, uncounted (s.pcs t) = some k → k = h := by
    intro k hk
    rw [hpc] at hk
    cases hk
  have hheld : held s t = none := held_at hpc
  have hself : update s.ptr_ h (s.ptr_ o) h = s.ptr_ o := update_self ..
  have hsource : update s.ptr_ h (s.ptr_ o) o = s.ptr_ o := update_of_ne hne.symm ..
  by_cases hnull : s.ptr_ o = none
  · rw [if_pos hnull]
    exact hs.point ho trivial (ref_null hp) (.inr ⟨hnull, rfl⟩) hothers hheld.symm
  · rw [if_neg hnull]
    refine hs.point ho ⟨ho, ho', hne, ?_, ?_⟩ (ref_null hp) (.inl rfl) hothers hheld.symm
    · exact hself.trans_ne hnull
    · exact hself.trans hsource.symm

theorem Inv.taken (hs : Inv s) (hpc : s.pcs t = .take h o) :
    Inv ((s.point h (s.ptr_ o)).goto t (.clearSource h o)) := by
  obtain ⟨ho, ho', hne, hp⟩ := hs.tidy.fits_at hpc
  have hself : update s.ptr_ h (s.ptr_ o) h = s.ptr_ o := update_self ..
  have hsource : update s.ptr_ h (s.ptr_ o) o = s.ptr_ o := update_of_ne hne.symm ..
  refine hs.point ho ⟨ho, ho', hne, hself.trans hsource.symm⟩ (ref_null hp) (.inl rfl) ?_ ?_
  · intro k hk
    rw [hpc] at hk
    cases hk
  · rw [held, hpc]
    rfl

theorem Inv.sourceCleared (hs : Inv s) (hpc : s.pcs t = .clearSource h o) :
    Inv ((s.point o none).goto t .idle) := by
  obtain ⟨ho, ho', hne, heq⟩ := hs.tidy.fits_at hpc
  have hm : Moves t .idle s ((s.point o none).goto t .idle) := moves_point ho'
  have hafter : ∀ k, s.owner k = some t → k ≠ o →
      ref ((s.point o none).goto t .idle) k = s.ptr_ k := by
    intro k hk hko
    rw [hm.ref_eq hk]
    exact update_of_ne hko ..
  apply hs.still (hm.tidy hs.tidy trivial) ?_ ?_ rfl rfl rfl
  · intro a
    have hmem := hs.tidy.mem ho
    have hmem' := hs.tidy.mem ho'
    apply countP_exchange hs.tidy.nodup hmem hmem'
    · rw [hafter h ho hne, heq, ref_own ho', hpc, if_neg]
      simpa [uncounted] using hne
    · rw [ref_null (update_self ..), ref_own ho, hpc, uncounted, if_pos rfl]
    · intro k hk hkh hko
      by_cases hkt : s.owner k = some t
      · rw [hafter k hkt hko, ref_own hkt, hpc, if_neg]
        simpa [uncounted] using hkh.symm
      · rw [hm.aside.ref_eq hs.tidy hk hkt]
  · intro u
    rw [hm.held_eq hs.tidy]
    by_cases hu : u = t
    · rw [hu, update_self, held, hpc]
      rfl
    · rw [update_of_ne hu]

theorem Inv.adopts (hs : Inv s) (hnew : h ∉ s.handles) (hheld : held s t = some raw)
    (hun : uncounted (s.pcs t) = none) :
    Inv ((s.born t h (some raw)).goto t (.adopting h)) := by
  have hp : update s.ptr_ h (some raw) h = some raw := update_self ..
  refine hs.born hnew ⟨update_self .., ?_⟩ hun (.inl rfl) (hp.trans hheld.symm)
  exact hp.trans_ne (by simp)

theorem Inv.copies (hs : Inv s) (hpc : s.pcs t = .idle) (hnew : h ∉ s.handles)
    (ho : s.owner o = some t) :
    Inv ((s.born t h (s.ptr_ o)).goto t (if s.ptr_ o = none then .idle else .copying h o)) := by
  have hne : h ≠ o := by
    intro heq
    exact hnew (heq ▸ hs.tidy.mem ho)
  have hun : uncounted (s.pcs t) = none := congrArg uncounted hpc
  have hheld : held s t = none := held_at hpc
  have hself : update s.ptr_ h (s.ptr_ o) h = s.ptr_ o := update_self ..
  have hsource : update s.ptr_ h (s.ptr_ o) o = s.ptr_ o := update_of_ne hne.symm ..
  have howner : update s.owner h (some t) o = some t := (update_of_ne hne.symm ..).trans ho
  by_cases hnull : s.ptr_ o = none
  · rw [if_pos hnull]
    exact hs.born hnew trivial hun (.inr ⟨hnull, rfl⟩) hheld.symm
  · rw [if_neg hnull]
    refine hs.born hnew ⟨update_self .., howner, hne, ?_, ?_⟩ hun (.inl rfl) hheld.symm
    · exact hself.trans_ne hnull
    · exact hself.trans hsource.symm

theorem Inv.moves (hs : Inv s) (hpc : s.pcs t = .idle) (hnew : h ∉ s.handles)
    (ho : s.owner o = some t) :
    Inv ((s.born t h (s.ptr_ o)).goto t (.clearSource h o)) := by
  have hne : h ≠ o := by
    intro heq
    exact hnew (heq ▸ hs.tidy.mem ho)
  have hself : update s.ptr_ h (s.ptr_ o) h = s.ptr_ o := update_self ..
  have hsource : update s.ptr_ h (s.ptr_ o) o = s.ptr_ o := update_of_ne hne.symm ..
  have howner : update s.owner h (some t) o = some t := (update_of_ne hne.symm ..).trans ho
  refine hs.born hnew ⟨update_self .., howner, hne, hself.trans hsource.symm⟩ ?_ (.inl rfl) ?_
  · rw [hpc]
    rfl
  · rw [held, hpc]
    rfl

end Operations

section Objects

theorem Moves.counts_same (hm : Moves t pc s s') (hs : Tidy s)
    (hun : uncounted pc = uncounted (s.pcs t)) (hptr : s'.ptr_ = s.ptr_) :
    counts s' = counts s := by
  funext a
  refine counts_congr hm.handles ?_ a
  intro k hk
  by_cases ho : s.owner k = some t
  · rw [hm.ref_eq ho, ref_own ho, hun, hptr]
  · exact hm.aside.ref_eq hs hk ho

theorem one_at {x y a : ℕ} (hxy : x + (if raw = a then 1 else 0) = y) :
    y = if a = raw then x + 1 else x := by
  rw [← hxy]
  by_cases ha : a = raw
  · rw [if_pos ha.symm, if_pos ha]
  · rw [if_neg (Ne.symm ha), if_neg ha, Nat.add_zero]

theorem Moves.gain (hm : Moves t pc s s') (hs : Tidy s) (ho : s.owner h = some t)
    (hbefore : ref s h = none) (hafter : ref s' h = some raw)
    (hown : ∀ k, s.owner k = some t → k ≠ h → ref s' k = ref s k) (a : ℕ) :
    counts s' a = if a = raw then counts s a + 1 else counts s a := by
  have hchange := counts_change hs (hs.mem ho) hm.handles (hm.ref_same hs hown) a
  rw [hbefore, hafter] at hchange
  simp only [reduceCtorEq, if_false, Option.some.injEq] at hchange
  exact one_at hchange.symm

theorem Moves.loss (hm : Moves t pc s s') (hs : Tidy s) (ho : s.owner h = some t)
    (hbefore : ref s h = some raw) (hafter : ref s' h = none)
    (hown : ∀ k, s.owner k = some t → k ≠ h → ref s' k = ref s k) (a : ℕ) :
    counts s a = if a = raw then counts s' a + 1 else counts s' a := by
  have hchange := counts_change hs (hs.mem ho) hm.handles (hm.ref_same hs hown) a
  rw [hbefore, hafter] at hchange
  simp only [reduceCtorEq, if_false, Option.some.injEq] at hchange
  exact one_at hchange

theorem Inv.created {T : τ} {topic_id : ℕ} {data : δ} {pooled : Bool} (hs : Inv s)
    (hpc : s.pcs t = .idle) : Inv (s.create t T topic_id data pooled) := by
  obtain ⟨place, hplace⟩ := hs.kept
  have hheld : held s t = none := held_at hpc
  have hm : Moves t (.fresh s.heap.next) s (s.create t T topic_id data pooled) :=
    ⟨rfl, rfl, rfl, fun _ _ ↦ rfl⟩
  refine ⟨hm.tidy hs.tidy trivial, update place s.heap.next (.held t), ?_⟩
  rw [hm.held_eq hs.tidy, hm.counts_same hs.tidy (by rw [hpc]; rfl) rfl]
  apply (hplace.create hheld).prepare (update_self ..)
  · exact fun _ hzero ↦ hzero
  · intro m
    cases pooled with
    | false => exact .inl rfl
    | true => exact .inr rfl

theorem Inv.prepared {topic_id : ℕ} {data : δ} {pooled : Bool} (hs : Inv s)
    (hpc : s.pcs t = .acquired raw) : Inv (s.prepare t raw topic_id data pooled) := by
  obtain ⟨place, hplace⟩ := hs.kept
  have hheld : held s t = some raw := held_at hpc
  have hm : Moves t (.fresh raw) s (s.prepare t raw topic_id data pooled) :=
    ⟨rfl, rfl, rfl, fun _ _ ↦ rfl⟩
  have hsame : update (held s) t (some raw) = held s := by rw [← hheld, update_eq_self]
  refine ⟨hm.tidy hs.tidy trivial, place, ?_⟩
  rw [hm.held_eq hs.tidy, hm.counts_same hs.tidy (by rw [hpc]; rfl) rfl]
  change Placed place _ _ (update (held s) t (some raw)) _ _
  rw [hsame]
  apply hplace.prepare hheld
  · exact fun _ _ ↦ rfl
  · intro m
    cases pooled with
    | false => exact .inl rfl
    | true => exact .inr rfl

theorem addRef_counts (hs : Tidy s) (hun : uncounted (s.pcs t) = some h)
    (hp : s.ptr_ h = some raw) (a : ℕ) :
    counts (s.addRef t raw) a = if a = raw then counts s a + 1 else counts s a := by
  have ho := hs.uncounted hun
  have hm : Moves t .idle s (s.addRef t raw) := ⟨rfl, rfl, rfl, fun _ _ ↦ rfl⟩
  apply hm.gain hs ho
  · rw [ref_own ho, if_pos hun]
  · rw [hm.ref_eq ho]
    exact hp
  · intro k hk hkh
    rw [hm.ref_eq hk, ref_own hk, hun, if_neg (by simp [uncounted]), if_neg]
    · rfl
    · simpa using hkh.symm

theorem Inv.adopted (hs : Inv s) (hpc : s.pcs t = .adopting h) (hp : s.ptr_ h = some raw) :
    Inv (s.addRef t raw) := by
  obtain ⟨place, hplace⟩ := hs.kept
  have ho := (hs.tidy.fits_at hpc).1
  have hheld : held s t = some raw := (held_at hpc).trans hp
  have hm : Moves t .idle s (s.addRef t raw) := ⟨rfl, rfl, rfl, fun _ _ ↦ rfl⟩
  refine ⟨hm.tidy hs.tidy trivial, update place raw .shared, ?_⟩
  rw [hm.held_eq hs.tidy]
  apply hplace.adopt hheld
  exact addRef_counts hs.tidy (by rw [hpc]; rfl) hp

theorem Inv.copied (hs : Inv s) (hpc : s.pcs t = .copying h o) (hp : s.ptr_ h = some raw) :
    Inv (s.addRef t raw) := by
  obtain ⟨place, hplace⟩ := hs.kept
  obtain ⟨ho, ho', hne, -, heq⟩ := hs.tidy.fits_at hpc
  have hm : Moves t .idle s (s.addRef t raw) := ⟨rfl, rfl, rfl, fun _ _ ↦ rfl⟩
  have hsource : ref s o = some raw := by
    rw [ref_own ho', hpc, if_neg, ← heq, hp]
    simpa [uncounted] using hne
  have hshared := (hplace.each raw).shared.mpr (counts_pos hs.tidy ho' hsource)
  refine ⟨hm.tidy hs.tidy trivial, place, ?_⟩
  have hheld : held (s.addRef t raw) = held s := by
    rw [hm.held_eq hs.tidy, update_eq_self_iff, held, hpc]
    rfl
  rw [hheld]
  apply hplace.copy hshared
  exact addRef_counts hs.tidy (by rw [hpc]; rfl) hp

theorem release_counts (hs : Tidy s) (hpc : s.pcs t = .release h next)
    (hp : s.ptr_ h = some raw) (hm : Moves t pc s s') (hun : uncounted pc = some h)
    (hptr : s'.ptr_ = s.ptr_) (a : ℕ) :
    counts s a = if a = raw then counts s' a + 1 else counts s' a := by
  have ho := (hs.fits_at hpc).1
  apply hm.loss hs ho
  · rw [ref_own ho, hpc, if_neg (by simp [uncounted]), hp]
  · rw [hm.ref_eq ho, if_pos hun]
  · intro k hk hkh
    rw [hm.ref_eq hk, ref_own hk, hpc, if_neg, if_neg (by simp [uncounted]), hptr]
    simpa [hun] using hkh.symm

theorem Inv.released (hs : Inv s) (hpc : s.pcs t = .release h next)
    (hp : s.ptr_ h = some raw) : Inv (s.releaseRef t h next raw) := by
  obtain ⟨m, hm, hzero⟩ := hs.releases hpc hp
  obtain ⟨place, hplace⟩ := hs.kept
  have hfits := hs.tidy.fits_at hpc
  have hidle : held s t = none := held_at hpc
  by_cases hlast : counts s raw = 1
  · have hmoves : Moves t (.recycle h next) s (s.releaseRef t h next raw) := by
      refine ⟨?_, rfl, rfl, fun _ _ ↦ rfl⟩
      simp only [State.releaseRef, State.goto, hm, Option.any_some, hzero.mpr hlast, if_true]
    have hcounts := release_counts hs.tidy hpc hp hmoves rfl rfl
    have hraw := hcounts raw
    rw [if_pos rfl] at hraw
    refine ⟨hmoves.tidy hs.tidy hfits, update place raw (.held t), ?_⟩
    have hheld : held (s.releaseRef t h next raw) = update (held s) t (some raw) := by
      rw [hmoves.held_eq hs.tidy, ← hp]
      rfl
    rw [hheld]
    exact hplace.release_last hidle hcounts (by omega)
  · have hmoves : Moves t (.clear h next) s (s.releaseRef t h next raw) := by
      refine ⟨?_, rfl, rfl, fun _ _ ↦ rfl⟩
      simp only [State.releaseRef, State.goto, hm, Option.any_some, mt hzero.mp hlast,
        Bool.false_eq_true, if_false]
    have hcounts := release_counts hs.tidy hpc hp hmoves rfl rfl
    have hraw := hcounts raw
    rw [if_pos rfl] at hraw
    refine ⟨hmoves.tidy hs.tidy hfits, place, ?_⟩
    have hheld : held (s.releaseRef t h next raw) = held s := by
      rw [hmoves.held_eq hs.tidy, update_eq_self_iff, hidle]
      rfl
    rw [hheld]
    exact hplace.release_shared hcounts (by omega)

variable [DecidableEq τ]

theorem Inv.reused {T : τ} {rest : List ℕ} (hs : Inv s) (hpc : s.pcs t = .idle)
    (hpool : s.heap.pools T = raw :: rest) :
    Inv (s.reuse t raw { s.heap with pools := update s.heap.pools T rest }) := by
  obtain ⟨place, hplace⟩ := hs.kept
  have hheld : held s t = none := held_at hpc
  have hm : Moves t (.acquired raw) s
      (s.reuse t raw { s.heap with pools := update s.heap.pools T rest }) :=
    ⟨rfl, rfl, rfl, fun _ _ ↦ rfl⟩
  refine ⟨hm.tidy hs.tidy trivial, update place raw (.held t), ?_⟩
  rw [hm.held_eq hs.tidy, hm.counts_same hs.tidy (by rw [hpc]; rfl) rfl]
  exact hplace.unpool hheld hpool

theorem Inv.acquired {T : τ} {hit : Bool} (hs : Inv s) (hpc : s.pcs t = .idle) :
    Inv (s.acquire t T hit) := by
  cases hit with
  | false => exact hs
  | true =>
    cases hpool : s.heap.pools T with
    | nil =>
      simp only [State.acquire, Heap.acquire, hpool]
      exact hs
    | cons raw rest =>
      simp only [State.acquire, Heap.acquire, hpool]
      exact hs.reused hpc hpool

theorem Inv.endedLife {full : Bool} (hs : Inv s) (hpc : s.pcs t = .recycle h next)
    (hp : s.ptr_ h = some raw) : Inv (s.endLife t h next raw full) := by
  obtain ⟨place, hplace⟩ := hs.kept
  have hfits := hs.tidy.fits_at hpc
  have hheld : held s t = some raw := (held_at hpc).trans hp
  have hm : Moves t (.clear h next) s (s.endLife t h next raw full) :=
    ⟨rfl, rfl, rfl, fun _ _ ↦ rfl⟩
  obtain ⟨p, hended⟩ := hplace.ended hheld full
  refine ⟨hm.tidy hs.tidy hfits, update place raw p, ?_⟩
  rw [hm.held_eq hs.tidy, hm.counts_same hs.tidy (by rw [hpc]; rfl) rfl]
  exact hended

end Objects

section Steps

variable [DecidableEq τ]

theorem Inv.thread {full : Bool} (hs : Inv s) (h : s.thread t full = some s') : Inv s' := by
  unfold State.thread at h
  cases hpc : s.pcs t with
  | idle | acquired | fresh =>
    rw [hpc] at h
    cases h
  | adopting k =>
    rw [hpc] at h
    obtain ⟨raw, hp, rfl⟩ := Option.map_eq_some_iff.mp h
    exact hs.adopted hpc hp
  | copying k o =>
    rw [hpc] at h
    obtain ⟨raw, hp, rfl⟩ := Option.map_eq_some_iff.mp h
    exact hs.copied hpc hp
  | release k next =>
    rw [hpc] at h
    obtain ⟨raw, hp, rfl⟩ := Option.map_eq_some_iff.mp h
    exact hs.released hpc hp
  | recycle k next =>
    rw [hpc] at h
    obtain ⟨raw, hp, rfl⟩ := Option.map_eq_some_iff.mp h
    exact hs.endedLife hpc hp
  | clear k next =>
    rw [hpc] at h
    cases h
    exact hs.cleared hpc
  | assign k o =>
    rw [hpc] at h
    cases h
    exact hs.assigned hpc
  | take k o =>
    rw [hpc] at h
    cases h
    exact hs.taken hpc
  | clearSource k o =>
    rw [hpc] at h
    cases h
    exact hs.sourceCleared hpc

theorem Inv.step {a : Action θ η τ δ} (hs : Inv s) (h : s.step a = some s') : Inv s' := by
  cases a with
  | create t T topic_id data pooled =>
    obtain ⟨hpc, hx⟩ := begin_some h
    cases hx
    exact hs.created hpc
  | acquire t T hit =>
    obtain ⟨hpc, hx⟩ := begin_some h
    cases hx
    exact hs.acquired hpc
  | prepare t topic_id data pooled =>
    simp only [State.step] at h
    split at h
    · rename_i raw hpc
      cases h
      exact hs.prepared hpc
    · cases h
  | adopt t k =>
    simp only [State.step] at h
    split at h
    · rename_i raw hpc
      split at h
      · cases h
      · rename_i hnew
        cases h
        exact hs.adopts hnew (by rw [held, hpc]; rfl) (by rw [hpc]; rfl)
    · rename_i raw hpc
      split at h
      · cases h
      · rename_i hnew
        cases h
        exact hs.adopts hnew (by rw [held, hpc]; rfl) (by rw [hpc]; rfl)
    · cases h
  | construct t k =>
    obtain ⟨hpc, hx⟩ := begin_some h
    split at hx
    · cases hx
    · rename_i hnew
      cases hx
      have hborn : (s.born t k none).pcs t = .idle := hpc
      rw [← goto_same hborn]
      refine hs.born hnew trivial ?_ (.inr ⟨rfl, rfl⟩) ?_
      · rw [hpc]
        rfl
      · rw [held, hpc]
        rfl
  | copyConstruct t k o =>
    obtain ⟨hpc, hx⟩ := begin_some h
    split at hx
    · cases hx
    · rename_i hguard
      cases hx
      rw [not_or, not_not] at hguard
      exact hs.copies hpc hguard.1 hguard.2
  | copyAssign t k o =>
    obtain ⟨hpc, hx⟩ := begin_some h
    split at hx
    · cases hx
    · rename_i hguard
      rw [not_or, not_not, not_not] at hguard
      split at hx
      · cases hx
        exact hs
      · rename_i hptr
        cases hx
        refine hs.startReset hpc hguard.1 ⟨hguard.2, ?_⟩
        intro heq
        exact hptr (heq ▸ rfl)
  | moveConstruct t k o =>
    obtain ⟨hpc, hx⟩ := begin_some h
    split at hx
    · cases hx
    · rename_i hguard
      cases hx
      rw [not_or, not_not] at hguard
      exact hs.moves hpc hguard.1 hguard.2
  | moveAssign t k o =>
    obtain ⟨hpc, hx⟩ := begin_some h
    split at hx
    · cases hx
    · rename_i hguard
      rw [not_or, not_not, not_not] at hguard
      split at hx
      · cases hx
        exact hs
      · rename_i hne
        cases hx
        exact hs.startReset hpc hguard.1 ⟨hguard.2, hne⟩
  | reset t k =>
    obtain ⟨hpc, hx⟩ := begin_some h
    split at hx
    · cases hx
    · rename_i hguard
      cases hx
      exact hs.startReset hpc (not_not.mp hguard) trivial
  | destroy t k =>
    obtain ⟨hpc, hx⟩ := begin_some h
    split at hx
    · cases hx
    · rename_i hguard
      cases hx
      exact hs.startReset hpc (not_not.mp hguard) trivial
  | hand t k heir =>
    obtain ⟨hpc, hx⟩ := begin_some h
    split at hx
    · cases hx
    · rename_i hguard
      cases hx
      exact hs.owned hpc (not_not.mp hguard) fun hnone ↦ by cases hnone
  | step t full => exact hs.thread h

theorem reachable_inv (h : (machine θ η τ κ δ).Reachable s) : Inv s := by
  apply h.invariant (P := Inv)
  · intro s hs
    cases hs
    exact .initial
  · intro s a s' _ hs _ hstep
    exact hs.step hstep

end Steps

end LivioArk.Msgbus.MessageOwnership
