import LivioArk.Msgbus.FineProgress
import LivioArk.Msgbus.FineRefinement

namespace LivioArk.Msgbus.FineSubscriptions

open Function LivioArk.Library.Transition LivioArk.Library.PrefixTree
open Levels TopicMatcher TopicRegistry WildcardTrie Subscriptions SubStore Dispatching
open SubscriptionThreads

variable {Tid τ η ν : Type}

def Mapped (slots : ℕ → Option ℕ) (n : ℕ) : Prop := ∃ tid, slots tid = some n

def Entered (snap : Snapshot τ ℕ) (n : ℕ) : Prop := ∃ y ∈ snap.root.contents, y.2.slot = n

def Guard.Keeps (n : ℕ) : Guard τ → Prop
  | .none => False
  | .slots snap => Mapped snap n
  | .trie snap => Entered snap n

def Section.Keeps (n : ℕ) : Section τ η → Prop
  | .slots old => Mapped old n
  | .clone snap | .erased snap => Entered snap n
  | .found entry snap | .nested entry snap | .nestedList entry snap _ | .emptied entry snap =>
    entry.slot = n ∨ Entered snap n
  | .outside | .locked | .list _ | .leaving _ => False

def Section.entry : Section τ η → Option (Entry τ ℕ)
  | .found entry _ | .nested entry _ | .nestedList entry _ _ | .emptied entry _ => some entry
  | _ => none

inductive FineSubs.Held (f : FineSubs Tid τ η ν) (n : ℕ) : Prop
  | slots : Mapped f.threads.bus.slots_ n → f.Held n
  | trie : Entered f.threads.bus.wildcard_trie_ n → f.Held n
  | guard (t : Tid) : (f.guards t).Keeps n → f.Held n
  | snap (t : Tid) : (f.snaps t).Keeps n → f.Held n
  | within (t : Tid) : (f.sections t).Keeps n → f.Held n

/-- The thread has a plain pointer to the slot that it is going to use. -/
inductive FineSubs.Uses (f : FineSubs Tid τ η ν) (t : Tid) (n : ℕ) : Prop
  | walk {d : Dispatch τ η ν} : f.threads.dispatches t = some d → n ∈ d.frame.slots → f.Uses t n
  | check {x : Sub τ η} {tid : ℕ} {old : ℕ → Option ℕ} : f.threads.subs t = .createSlot x tid →
      f.sections t = .slots old → old tid = some n → f.Uses t n
  | add {x : Sub τ η} {tid : ℕ} : f.threads.subs t = .addSubscriber x tid n → f.Uses t n
  | remove {id : ℕ} : f.threads.unsubs t = .removeSubscriber id n → f.Uses t n
  | empty {entry : Entry τ ℕ} : (f.sections t).entry = some entry → entry.slot = n → f.Uses t n
  | unlock : f.sections t = .leaving (.slot n) → f.Uses t n

section Entries

variable {snap snap' : Snapshot τ ℕ} {entry : Entry τ ℕ} {id n : ℕ}

theorem entered_removed (h : remove id snap = some (entry, snap')) :
    Entered snap entry.slot ∧ (Entered snap' n → Entered snap n) := by
  obtain ⟨⟨entry, root⟩, hroot, he⟩ := Option.map_eq_some_iff.mp h
  cases he
  obtain ⟨-, path, hmore⟩ := Node.removeFrom_some hroot
  constructor
  · exact ⟨(path, entry), hmore.perm.mem_iff.mpr List.mem_cons_self, rfl⟩
  · rintro ⟨y, hy, hn⟩
    exact ⟨y, hmore.perm.mem_iff.mpr (List.mem_cons_of_mem _ hy), hn⟩

theorem entered_insert {pattern : Str} (h : Entered (insert pattern entry snap) n) :
    n = entry.slot ∨ Entered snap n := by
  obtain ⟨y, hy, rfl⟩ := h
  cases List.mem_cons.mp ((Node.insertAt_contents _ _ _).perm.mem_iff.mp hy) with
  | inl hnew => exact .inl (by rw [hnew])
  | inr hold => exact .inr ⟨y, hold, rfl⟩

theorem entered_swap {way : List Bool}
    (h : Entered { snap with root := snap.root.swap way } n) : Entered snap n := by
  obtain ⟨y, hy, hn⟩ := h
  exact ⟨y, (Node.swap_contents way snap.root).mem_iff.mp hy, hn⟩

theorem entered_match [DecidableEq τ] (hv : snap.root.Valid) {topic : Str} {T : τ}
    (h : n ∈ match_ topic T snap) : Entered snap n := by
  rw [match_] at h
  split at h
  · cases h
  · obtain ⟨y, hy, hhits⟩ := List.mem_flatMap.mp ((matchNode_perm hv _).mem_iff.mp h)
    rw [hits] at hhits
    split at hhits
    · exact ⟨y, hy, (List.eq_of_mem_replicate hhits).symm⟩
    · cases hhits

theorem mapped_exact [DecidableEq τ] {b : SubState τ η} {msg : Message τ ν}
    (h : n ∈ exactSlot b msg) : Mapped b.slots_ n := by
  rw [exactSlot] at h
  split at h
  · rename_i slot hslot
    split at h
    · obtain rfl := List.mem_singleton.mp h
      exact ⟨_, hslot⟩
    · cases h
  · cases h

end Entries

section Sections

variable {f f' : FineSubs Tid τ η ν} {D : Tid → Option (Dispatch τ η ν)} {t : Tid} {n : ℕ}

theorem Current.published {sec : Section τ η} (hc : Current f t sec) (h : sec.Keeps n) :
    Mapped f.threads.bus.slots_ n ∨ Entered f.threads.bus.wildcard_trie_ n := by
  have hremoved : ∀ {entry : Entry τ ℕ} {snap : Snapshot τ ℕ} {id : ℕ},
      remove id f.threads.bus.wildcard_trie_ = some (entry, snap) →
        entry.slot = n ∨ Entered snap n → Entered f.threads.bus.wildcard_trie_ n := by
    intro entry snap id hr hkeeps
    cases hkeeps with
    | inl hslot => exact hslot ▸ (entered_removed (n := n) hr).1
    | inr hrest => exact (entered_removed hr).2 hrest
  cases sec with
  | outside | locked | list | leaving => exact h.elim
  | slots old =>
    obtain ⟨-, rfl⟩ := hc
    exact .inl h
  | clone snap =>
    obtain ⟨-, rfl⟩ := hc
    exact .inr h
  | found entry snap | nested entry snap =>
    obtain ⟨id, -, hr⟩ := hc
    exact .inr (hremoved hr h)
  | nestedList entry snap old =>
    obtain ⟨⟨id, -, hr⟩, -⟩ := hc
    exact .inr (hremoved hr h)
  | emptied entry snap =>
    obtain ⟨⟨id, hr⟩, -⟩ := hc
    exact .inr (hremoved hr h)
  | erased snap =>
    obtain ⟨entry, ⟨id, hr⟩, -⟩ := hc
    exact .inr (hremoved hr (.inr h))

/-- The trie that is published is valid, although the account is already of the
one that a removal is going to publish. -/
theorem Simulates.valid [DecidableEq τ] (h : Simulates f D) (htracks : Tracks (f.coarse D)) :
    f.threads.bus.wildcard_trie_.root.Valid := by
  by_cases hnone : ∀ u, (f.sections u).pending = none
  · have hvisible : f.visible.root.Valid := htracks.stored.trie.valid
    rwa [visible_free hnone] at hvisible
  · push Not at hnone
    obtain ⟨u, hu⟩ := hnone
    have hcurrent := h.current u
    cases hsec : f.sections u with
    | emptied =>
      rw [hsec] at hcurrent
      exact hcurrent.2.2.valid
    | erased =>
      rw [hsec] at hcurrent
      obtain ⟨-, -, -, hcount⟩ := hcurrent
      exact hcount.valid
    | _ =>
      rw [hsec] at hu
      exact absurd rfl hu

end Sections

section Publications

variable {f f' : FineSubs Tid τ η ν} {D : Tid → Option (Dispatch τ η ν)} {t : Tid}

/-- Nothing that has no pointer to it comes back, unless it is new. -/
structure Publishes (f f' : FineSubs Tid τ η ν) : Prop where
  kept : ∀ tid n, f.threads.bus.slots_ tid = some n → f'.threads.bus.slots_ tid = some n
  mapped : ∀ n, Mapped f'.threads.bus.slots_ n →
    Mapped f.threads.bus.slots_ n ∨ f.threads.bus.allocated ≤ n
  entered : ∀ n, Entered f'.threads.bus.wildcard_trie_ n →
    Entered f.threads.bus.wildcard_trie_ n ∨ f.threads.bus.allocated ≤ n
  allocated : f.threads.bus.allocated ≤ f'.threads.bus.allocated
  guards : ∀ t n, (f'.guards t).Keeps n → f.Held n
  snaps : ∀ t n, (f'.snaps t).Keeps n → f.Held n

theorem Publishes.of_eq (hslots : f'.threads.bus.slots_ = f.threads.bus.slots_)
    (htrie : f'.threads.bus.wildcard_trie_ = f.threads.bus.wildcard_trie_)
    (hallocated : f'.threads.bus.allocated = f.threads.bus.allocated)
    (hguards : ∀ t n, (f'.guards t).Keeps n → f.Held n)
    (hsnaps : ∀ t n, (f'.snaps t).Keeps n → f.Held n) : Publishes f f' where
  kept _ _ h := hslots ▸ h
  mapped _ h := .inl (hslots ▸ h)
  entered _ h := .inl (htrie ▸ h)
  allocated := Nat.le_of_eq hallocated.symm
  guards := hguards
  snaps := hsnaps

theorem held_guard (f : FineSubs Tid τ η ν) (t : Tid) (n : ℕ) : (f.guards t).Keeps n → f.Held n :=
  fun h ↦ .guard t h

theorem held_snap (f : FineSubs Tid τ η ν) (t : Tid) (n : ℕ) : (f.snaps t).Keeps n → f.Held n :=
  fun h ↦ .snap t h

theorem publishWithout_frame (b : SubState τ η) (id slot : ℕ) (old : List (Subscriber η)) :
    (publishWithout b id slot old).slots_ = b.slots_ ∧
      (publishWithout b id slot old).wildcard_trie_ = b.wildcard_trie_ ∧
        (publishWithout b id slot old).allocated = b.allocated := by
  rw [publishWithout]
  split
  · exact ⟨rfl, rfl, rfl⟩
  · exact ⟨rfl, rfl, rfl⟩

theorem held_guardOf {d : Dispatch τ η ν} {old : Guard τ} {n : ℕ} (hold : old.Keeps n → f.Held n)
    (h : (FineSubs.guardOf f.threads.bus d old).Keeps n) : f.Held n := by
  rw [FineSubs.guardOf] at h
  split at h
  · split at h
    · exact .slots h
    · split at h
      · exact h.elim
      · exact .trie h
  · exact hold h

theorem Publishes.map {tid : ℕ} (hnone : f.threads.bus.slots_ tid = none)
    (hslots : f'.threads.bus.slots_ =
      update f.threads.bus.slots_ tid (some f.threads.bus.allocated))
    (htrie : f'.threads.bus.wildcard_trie_ = f.threads.bus.wildcard_trie_)
    (hallocated : f'.threads.bus.allocated = f.threads.bus.allocated + 1)
    (hguards : f'.guards = f.guards) (hsnaps : f'.snaps = f.snaps) : Publishes f f' where
  kept tid' n h := by
    have hne : tid' ≠ tid := by
      intro he
      rw [he, hnone] at h
      cases h
    rw [hslots, update_of_ne hne]
    exact h
  mapped n h := by
    obtain ⟨tid', h⟩ := h
    rw [hslots] at h
    by_cases he : tid' = tid
    · subst he
      rw [update_self, Option.some.injEq] at h
      exact .inr h.le
    · rw [update_of_ne he] at h
      exact .inl ⟨tid', h⟩
  entered _ h := .inl (htrie ▸ h)
  allocated := hallocated ▸ Nat.le_succ _
  guards t n h := held_guard f t n (hguards ▸ h)
  snaps t n h := held_snap f t n (hsnaps ▸ h)

variable [DecidableEq Tid]

theorem leave_section (f : FineSubs Tid τ η ν) (t : Tid) (m : Mutex) (s : Subscribing Tid τ η ν) :
    (f.leave t m s).sections t = .leaving m := update_self ..

theorem update_keeps {G : Tid → Guard τ} {g : Guard τ} {P : ℕ → Prop}
    (hG : ∀ u n, (G u).Keeps n → P n) (hg : ∀ n, g.Keeps n → P n) (u : Tid) (n : ℕ)
    (h : (update G t g u).Keeps n) : P n := by
  by_cases hu : u = t
  · subst hu
    rw [update_self] at h
    exact hg n h
  · rw [update_of_ne hu] at h
    exact hG u n h

variable [DecidableEq τ]

theorem createSlotWork_publishes {x : Sub τ η} {tid : ℕ} :
    Publishes f (f.createSlotWork t x tid f.threads.bus.slots_) := by
  rw [FineSubs.createSlotWork]
  split
  · split
    · exact .of_eq rfl rfl rfl (held_guard f) (held_snap f)
    · exact .of_eq rfl rfl rfl (held_guard f) (held_snap f)
  · rename_i hnone
    exact .map hnone rfl rfl rfl rfl rfl

theorem Works.publishes (hw : Works t f f') (h : Simulates f D) : Publishes f f' := by
  have hcurrent := h.current t
  have hnone : ∀ n, (Guard.none : Guard τ).Keeps n → f.Held n := fun _ h ↦ h.elim
  cases hw with
  | subscribe _ _ hm hs =>
    obtain ⟨hplain, -⟩ := subscribeStep_plain hm hs
    exact .of_eq hplain.slots hplain.trie hplain.allocated (held_guard f) (held_snap f)
  | @unsubscribe s _ hm hs =>
    obtain ⟨hplain, -⟩ := unsubscribeStep_plain hm hs
    refine .of_eq hplain.slots hplain.trie hplain.allocated (held_guard f)
      (update_keeps (held_snap f) ?_)
    intro n hn
    cases hpc : s.unsubs t with
    | removeSubscriber =>
      rw [hpc] at hn
      exact .slots hn
    | _ =>
      rw [hpc] at hn
      exact hn.elim
  | createSlot hsec =>
    rw [hsec] at hcurrent
    obtain ⟨-, rfl⟩ := hcurrent
    exact createSlotWork_publishes
  | @insert x snap way hsec =>
    rw [hsec] at hcurrent
    obtain ⟨-, rfl⟩ := hcurrent
    refine ⟨fun _ _ h ↦ h, fun _ h ↦ .inl h, fun n h ↦ ?_, Nat.le_succ _, held_guard f, held_snap f⟩
    cases entered_insert (entered_swap h) with
    | inl hnew => exact .inr (Nat.le_of_eq hnew.symm)
    | inr hold => exact .inl hold
  | @removeSubscriber id slot old =>
    obtain ⟨hslots, htrie, hallocated⟩ := publishWithout_frame f.threads.bus id slot old
    exact .of_eq hslots htrie hallocated (held_guard f) (held_snap f)
  | removeFrom =>
    rw [FineSubs.removeFromWork]
    split
    · exact .of_eq rfl rfl rfl (held_guard f) (held_snap f)
    · exact .of_eq rfl rfl rfl (held_guard f) (held_snap f)
  | @empty id entry snap old =>
    obtain ⟨hslots, htrie, hallocated⟩ := publishWithout_frame f.threads.bus id entry.slot old
    exact .of_eq hslots htrie hallocated (held_guard f) (held_snap f)
  | erased way hsec =>
    rw [hsec] at hcurrent
    obtain ⟨entry, ⟨id, hr⟩, -⟩ := hcurrent
    refine ⟨fun _ _ h ↦ h, fun _ h ↦ .inl h, fun n h ↦ ?_, le_rfl, held_guard f, held_snap f⟩
    exact .inl ((entered_removed hr).2 (entered_swap h))
  | leaving => exact .of_eq rfl rfl rfl (held_guard f) (update_keeps (held_snap f) hnone)
  | lock | load | addSubscriber | nest | nestLoad | emptied =>
    exact .of_eq rfl rfl rfl (held_guard f) (held_snap f)

theorem Works.readers (hw : Works t f f') : f'.guards = f.guards ∧
    f'.threads.dispatches = f.threads.dispatches := by
  cases hw with
  | subscribe _ _ hm hs => exact ⟨rfl, (subscribeStep_plain hm hs).1.dispatches⟩
  | unsubscribe _ hm hs => exact ⟨rfl, (unsubscribeStep_plain hm hs).1.dispatches⟩
  | createSlot =>
    rw [FineSubs.createSlotWork]
    repeat' split
    all_goals exact ⟨rfl, rfl⟩
  | removeFrom =>
    rw [FineSubs.removeFromWork]
    split
    · exact ⟨rfl, rfl⟩
    · exact ⟨rfl, rfl⟩
  | _ => exact ⟨rfl, rfl⟩

end Publications

/-- What keeps the slots alive that a thread has plain pointers to, and that
nothing is kept any longer. -/
structure Owned (f : FineSubs Tid τ η ν) : Prop where
  leaves : ∀ t n, f.sections t = .leaving (.slot n) → Mapped f.threads.bus.slots_ n
  ended : ∀ t, (f.sections t).Ends → f.threads.unsubs t = .idle
  guards : ∀ t d, f.threads.dispatches t = some d → ∀ n ∈ d.frame.slots, (f.guards t).Keeps n
  readers : ∀ t, f.threads.dispatches t = none → f.guards t = .none
  writers : ∀ t, f.sections t = .outside →
    (∀ id n, f.threads.unsubs t ≠ .removeSubscriber id n) → f.snaps t = .none

section Owners

variable [DecidableEq Tid] {f f' : FineSubs Tid τ η ν} {t : Tid}
variable {D : Tid → Option (Dispatch τ η ν)}

theorem Owned.begins {a : FineAction Tid τ η ν} (h : Owned f) (hb : Begins a f f')
    (hslots : f'.threads.bus.slots_ = f.threads.bus.slots_) (hsnaps : f'.snaps = f.snaps)
    (hunsubs : ∀ u, f'.threads.unsubs u = f.threads.unsubs u ∨ f.threads.unsubs u = .idle)
    (hguards : ∀ u d, f'.threads.dispatches u = some d → ∀ n ∈ d.frame.slots, (f'.guards u).Keeps n)
    (hreaders : ∀ u, f'.threads.dispatches u = none → f'.guards u = .none) : Owned f' := by
  refine ⟨fun u n hu ↦ ?_, fun u hu ↦ ?_, hguards, hreaders, fun u hout hpc ↦ ?_⟩
  · rw [hb.sections] at hu
    rw [hslots]
    exact h.leaves u n hu
  · rw [hb.sections] at hu
    have hsec : f.sections u ≠ .outside := by
      intro he
      rw [he] at hu
      exact hu
    rw [(hb.inside u hsec).2]
    exact h.ended u hu
  · rw [hb.sections] at hout
    rw [hsnaps]
    refine h.writers u hout fun id n he ↦ ?_
    cases hunsubs u with
    | inl hsame => exact hpc id n (hsame.trans he)
    | inr hidle =>
      rw [hidle] at he
      cases he

theorem Owned.dispatching {a : FineAction Tid τ η ν} {d : Option (Dispatch τ η ν)} {g : Guard τ}
    (h : Owned f) (hb : Begins a f f') (hslots : f'.threads.bus.slots_ = f.threads.bus.slots_)
    (hsnaps : f'.snaps = f.snaps) (hunsubs : f'.threads.unsubs = f.threads.unsubs)
    (hdispatches : f'.threads.dispatches = update f.threads.dispatches t d)
    (hguards : f'.guards = update f.guards t g)
    (hd : ∀ e, d = some e → ∀ n ∈ e.frame.slots, g.Keeps n) (hnone : d = none → g = .none) :
    Owned f' := by
  refine h.begins hb hslots hsnaps (fun u ↦ .inl (congrFun hunsubs u)) (fun u e he ↦ ?_)
    fun u he ↦ ?_
  · rw [hdispatches] at he
    rw [hguards]
    by_cases hu : u = t
    · subst hu
      rw [update_self] at he ⊢
      exact hd e he
    · rw [update_of_ne hu] at he ⊢
      exact h.guards u e he
  · rw [hdispatches] at he
    rw [hguards]
    by_cases hu : u = t
    · subst hu
      rw [update_self] at he ⊢
      exact hnone he
    · rw [update_of_ne hu] at he ⊢
      exact h.readers u he

theorem Owned.dispatches {a : FineAction Tid τ η ν} {e : Dispatch τ η ν} {g : Guard τ}
    (h : Owned f) (hb : Begins a f f') (hslots : f'.threads.bus.slots_ = f.threads.bus.slots_)
    (hsnaps : f'.snaps = f.snaps) (hunsubs : f'.threads.unsubs = f.threads.unsubs)
    (hdispatches : f'.threads.dispatches = update f.threads.dispatches t (some e))
    (hguards : f'.guards = update f.guards t g) (hg : ∀ n ∈ e.frame.slots, g.Keeps n) :
    Owned f' := by
  refine h.dispatching hb hslots hsnaps hunsubs hdispatches hguards (fun e' he ↦ ?_) fun he ↦ ?_
  · exact Option.some.inj he ▸ hg
  · cases he

variable [DecidableEq τ]

theorem Owned.move (h : Owned f) (hw : Works t f f') (hpublishes : Publishes f f')
    (hsnaps : ∀ u ≠ t, f'.snaps u = f.snaps u)
    (hleaves : ∀ n, f'.sections t = .leaving (.slot n) → Mapped f'.threads.bus.slots_ n)
    (hended : (f'.sections t).Ends → f'.threads.unsubs t = .idle)
    (hwriters : f'.sections t = .outside →
      (∀ id n, f'.threads.unsubs t ≠ .removeSubscriber id n) → f'.snaps t = .none) : Owned f' := by
  have helse := hw.elsewhere
  obtain ⟨hguards, hdispatches⟩ := hw.readers
  refine ⟨fun u n hu ↦ ?_, fun u hu ↦ ?_, ?_, ?_, fun u hout hpc ↦ ?_⟩
  · by_cases he : u = t
    · exact hleaves n (he ▸ hu)
    · rw [helse.sections u he] at hu
      obtain ⟨tid, htid⟩ := h.leaves u n hu
      exact ⟨tid, hpublishes.kept tid n htid⟩
  · by_cases he : u = t
    · subst he
      exact hended hu
    · rw [helse.sections u he] at hu
      rw [helse.unsubs u he]
      exact h.ended u hu
  · rw [hguards, hdispatches]
    exact h.guards
  · rw [hguards, hdispatches]
    exact h.readers
  · by_cases he : u = t
    · subst he
      exact hwriters hout hpc
    · rw [helse.sections u he] at hout
      rw [helse.unsubs u he] at hpc
      rw [hsnaps u he]
      exact h.writers u hout hpc

theorem Owned.leave {m : Mutex} {s : Subscribing Tid τ η ν} (h : Owned f)
    (hw : Works t f (f.leave t m s)) (hpublishes : Publishes f (f.leave t m s))
    (hm : ∀ n, m = .slot n → Mapped s.bus.slots_ n) (hidle : s.unsubs t = .idle) :
    Owned (f.leave t m s) := by
  refine h.move hw hpublishes (fun _ _ ↦ rfl) (fun n hn ↦ ?_) (fun _ ↦ hidle) fun hout ↦ ?_
  · rw [leave_section] at hn
    exact hm n (by cases hn; rfl)
  · rw [leave_section] at hout
    cases hout

theorem Owned.inside {sec : Section τ η} (h : Owned f) (hw : Works t f f')
    (hpublishes : Publishes f f') (hsnaps : f'.snaps = f.snaps) (hsec : f'.sections t = sec)
    (hends : sec.Ends → f'.threads.unsubs t = .idle ∧ ∀ m, sec ≠ .leaving m)
    (hout : sec ≠ .outside) : Owned f' := by
  subst hsec
  refine h.move hw hpublishes (fun u _ ↦ congrFun hsnaps u) (fun n hn ↦ ?_)
    (fun he ↦ (hends he).1) fun he ↦ absurd he hout
  have hleaving : (f'.sections t).Ends := by
    rw [hn]
    trivial
  exact absurd hn ((hends hleaving).2 _)

theorem Works.owned (hw : Works t f f') (hsim : Simulates f D) (htracks : Tracks (f.coarse D))
    (h : Owned f) : Owned f' := by
  have hpublishes := hw.publishes hsim
  cases hw with
  | @subscribe s hsec hidle hm hs =>
    have hunsubs := (subscribeStep_pcs hs).2
    have hsame : ({ f with threads := s } : FineSubs Tid τ η ν).sections t = .outside := hsec
    refine h.move (.subscribe hsec hidle hm hs) hpublishes (fun _ _ ↦ rfl) ?_ ?_ fun _ _ ↦ ?_
    · rw [hsame]
      exact fun n hn ↦ (by cases hn)
    · rw [hsame]
      exact False.elim
    · refine h.writers t hsec fun id n hpc ↦ ?_
      rw [hidle] at hpc
      cases hpc
  | @unsubscribe s hsec hm hs =>
    refine h.move (.unsubscribe hsec hm hs) hpublishes (fun u hu ↦ update_of_ne hu _ _) ?_ ?_
      fun _ hpc ↦ ?_
    · exact fun n hn ↦ (by rw [hsec] at hn; cases hn)
    · rw [hsec]
      exact False.elim
    · simp only [update_self]
      cases hs' : s.unsubs t with
      | removeSubscriber id n => exact absurd hs' (hpc id n)
      | _ => rfl
  | lock hsec hm hfree =>
    exact h.inside (.lock hsec hm hfree) hpublishes rfl (update_self ..) (fun he ↦ he.elim)
      fun he ↦ (by cases he)
  | @load m hsec hm =>
    refine h.inside (.load hsec hm) hpublishes rfl (enter_section ..) ?_ ?_
    · cases m <;> exact fun he ↦ he.elim
    · cases m <;> exact fun he ↦ (by cases he)
  | @createSlot x tid old hsec hidle hpc =>
    have hw : Works t f (f.createSlotWork t x tid old) := .createSlot hsec hidle hpc
    have hshape : ∃ s, f.createSlotWork t x tid old = f.leave t .slots_write s ∧
        s.unsubs t = .idle := by
      rw [FineSubs.createSlotWork]
      repeat' split
      all_goals exact ⟨_, rfl, hidle⟩
    obtain ⟨s, hs, hs'⟩ := hshape
    rw [hs] at hw hpublishes ⊢
    exact h.leave hw hpublishes (fun n hn ↦ by cases hn) hs'
  | @addSubscriber x tid slot old hsec hidle hpc =>
    refine h.leave (.addSubscriber hsec hidle hpc) hpublishes (fun n hn ↦ ?_) hidle
    obtain rfl : slot = n := by
      cases hn
      rfl
    have hfits : SubscribeFits (f.coarse D) t (f.threads.subs t) := htracks.subs t
    rw [hpc] at hfits
    obtain ⟨-, -, -, hslot, -⟩ := hfits
    exact ⟨tid, hslot⟩
  | insert way hsec hidle hpc =>
    exact h.leave (.insert way hsec hidle hpc) hpublishes (fun n hn ↦ by cases hn) hidle
  | @removeSubscriber id slot old hsec hpc =>
    refine h.leave (.removeSubscriber hsec hpc) hpublishes (fun n hn ↦ ?_) (removed_left ..).2
    obtain rfl : slot = n := by
      cases hn
      rfl
    have hfits : UnsubscribeFits (f.coarse D) t (f.threads.unsubs t) := htracks.unsubs t
    rw [hpc] at hfits
    obtain ⟨-, -, -, -, -, -, tid, -, hslot⟩ := hfits
    have hframe := (publishWithout_frame f.threads.bus id slot old).1
    exact ⟨tid, (congrFun hframe tid).trans hslot⟩
  | @removeFrom id snap hsec hpc =>
    have hw : Works t f (f.removeFromWork t id snap) := .removeFrom hsec hpc
    revert hw hpublishes
    rw [FineSubs.removeFromWork]
    split
    all_goals intro hpublishes hw
    · exact h.inside hw hpublishes rfl (enter_section ..) (fun he ↦ he.elim)
        fun he ↦ (by cases he)
    · exact h.leave hw hpublishes (fun n hn ↦ by cases hn) (removed_left ..).2
  | nest hsec hpc hfree =>
    exact h.inside (.nest hsec hpc hfree) hpublishes rfl (update_self ..) (fun he ↦ he.elim)
      fun he ↦ (by cases he)
  | nestLoad hsec hpc =>
    exact h.inside (.nestLoad hsec hpc) hpublishes rfl (enter_section ..) (fun he ↦ he.elim)
      fun he ↦ (by cases he)
  | empty hsec hpc =>
    exact h.inside (.empty hsec hpc) hpublishes rfl (update_self ..)
      (fun _ ↦ ⟨(removed_left ..).2, fun m he ↦ by cases he⟩) fun he ↦ (by cases he)
  | emptied hsec =>
    have hidle : f.threads.unsubs t = .idle := h.ended t (by rw [hsec]; trivial)
    exact h.inside (.emptied hsec) hpublishes rfl (update_self ..)
      (fun _ ↦ ⟨hidle, fun m he ↦ by cases he⟩) fun he ↦ (by cases he)
  | erased way hsec =>
    have hidle : f.threads.unsubs t = .idle := h.ended t (by rw [hsec]; trivial)
    exact h.leave (.erased way hsec) hpublishes (fun n hn ↦ by cases hn) hidle
  | @leaving m hsec =>
    have hout : (f.unlock t m .outside).sections t = .outside := update_self ..
    refine h.move (.leaving hsec) hpublishes (fun u hu ↦ update_of_ne hu _ _) (fun n hn ↦ ?_)
      (fun he ↦ ?_) fun _ _ ↦ update_self ..
    · rw [show _ = Section.outside from hout] at hn
      cases hn
    · rw [show _ = Section.outside from hout] at he
      exact he.elim

theorem load_guard {b : SubState τ η} {d : Dispatch τ η ν} {frame : Frame τ η ν} {old : Guard τ}
    (hv : b.wildcard_trie_.root.Valid) (hload : d.frame.load b = some frame)
    (hold : ∀ n ∈ d.frame.slots, old.Keeps n) :
    ∀ n ∈ frame.slots, (FineSubs.guardOf b d old).Keeps n := by
  obtain ⟨⟨msg, exact, wildcards, slots, subs⟩, handling, due, gone, invoked⟩ := d
  intro n hn
  cases subs with
  | cons sub subs => cases hload
  | nil =>
    cases slots with
    | cons slot slots =>
      cases hload
      exact hold n (List.mem_cons_of_mem _ hn)
    | nil =>
      cases exact with
      | true =>
        cases hload
        exact mapped_exact hn
      | false =>
        cases wildcards with
        | true =>
          cases hload
          by_cases hzero : b.wildcard_trie_.entry_count = 0
          · simp [match_, hzero] at hn
          · simp only [FineSubs.guardOf, Bool.false_eq_true, if_false, hzero]
            exact entered_match hv hn
        | false => cases hload

theorem begins_owned {a : FineAction Tid τ η ν} (hv : f.threads.bus.wildcard_trie_.root.Valid)
    (h : Owned f) (hb : Begins a f f') (ha : ∀ t way, a ≠ .work t way)
    (hs : FineSubscriptions.step f a = some f') : Owned f' ∧ Publishes f f' := by
  have hsame : ∀ u, f.threads.unsubs u = f.threads.unsubs u ∨ f.threads.unsubs u = .idle :=
    fun _ ↦ .inl rfl
  cases a with
  | work t way => exact absurd rfl (ha t way)
  | subscribe t T topic handler =>
    simp only [FineSubscriptions.step] at hs
    split at hs
    · obtain ⟨s, hrun, rfl⟩ := lift_some hs
      simp only [SubscriptionThreads.step] at hrun
      split at hrun
      · cases hrun
        obtain ⟨hplain, -, hunsubs⟩ := subscribe_plain f.threads t T topic handler
        refine ⟨h.begins hb hplain.slots rfl (fun u ↦ .inl (congrFun hunsubs u)) ?_ ?_,
          .of_eq hplain.slots hplain.trie hplain.allocated (held_guard f) (held_snap f)⟩
        · rw [hplain.dispatches]
          exact h.guards
        · rw [hplain.dispatches]
          exact h.readers
      · cases hrun
    · cases hs
  | unsubscribe t id =>
    simp only [FineSubscriptions.step] at hs
    split at hs
    · obtain ⟨s, hrun, rfl⟩ := lift_some hs
      simp only [SubscriptionThreads.step] at hrun
      split at hrun
      · rename_i hmay
        cases hrun
        have hquiet : f.threads.quiet t = true := mayCall_quiet (Bool.and_eq_true_iff.mp hmay).1
        refine ⟨h.begins hb rfl rfl (fun u ↦ ?_) h.guards h.readers,
          .of_eq rfl rfl rfl (held_guard f) (held_snap f)⟩
        by_cases hu : u = t
        · exact .inr (hu ▸ (quiet_iff.mp hquiet).2)
        · exact .inl (update_of_ne hu _ _)
      · cases hrun
    · cases hs
  | publish T topic data =>
    obtain ⟨s, hrun, rfl⟩ := lift_some hs
    cases hrun
    exact ⟨h.begins hb rfl rfl hsame h.guards h.readers,
      .of_eq rfl rfl rfl (held_guard f) (held_snap f)⟩
  | dispatch t n =>
    simp only [FineSubscriptions.step] at hs
    split at hs
    · obtain ⟨s, hrun, rfl⟩ := lift_some hs
      simp only [SubscriptionThreads.step] at hrun
      repeat' split at hrun
      all_goals cases hrun
      exact ⟨h.dispatches hb rfl rfl rfl rfl (update_eq_self t f.guards).symm
        (fun n hn ↦ absurd hn List.not_mem_nil), .of_eq rfl rfl rfl (held_guard f) (held_snap f)⟩
    · cases hs
  | load t =>
    obtain ⟨s, hrun, hf'⟩ := Option.map_eq_some_iff.mp hs
    obtain ⟨d, hd, -, hrun⟩ := dispatchStep_eq hrun
    obtain ⟨frame, hframe, rfl⟩ := Option.map_eq_some_iff.mp hrun
    rw [hd] at hf'
    subst hf'
    refine ⟨h.dispatches hb rfl rfl rfl rfl rfl (load_guard hv hframe (h.guards t d hd)),
      .of_eq rfl rfl rfl (fun u n hn ↦ ?_) (held_snap f)⟩
    exact update_keeps (held_guard f) (fun n hn ↦ held_guardOf (held_guard f t n) hn) u n hn
  | call t =>
    obtain ⟨s, hrun, rfl⟩ := lift_some hs
    obtain ⟨d, hd, -, hrun⟩ := dispatchStep_eq hrun
    split at hrun
    · cases hrun
      exact ⟨h.dispatches hb rfl rfl rfl rfl (update_eq_self t f.guards).symm (h.guards t d hd),
        .of_eq rfl rfl rfl (held_guard f) (held_snap f)⟩
    · cases hrun
  | return_ t =>
    simp only [FineSubscriptions.step] at hs
    split at hs
    · obtain ⟨s, hrun, rfl⟩ := lift_some hs
      simp only [SubscriptionThreads.step] at hrun
      split at hrun
      · rename_i d hd
        split at hrun
        · cases hrun
          exact ⟨h.dispatches hb rfl rfl rfl rfl (update_eq_self t f.guards).symm (h.guards t d hd),
            .of_eq rfl rfl rfl (held_guard f) (held_snap f)⟩
        · cases hrun
      · cases hrun
    · cases hs
  | finish t =>
    obtain ⟨g, hlift, rfl⟩ := Option.map_eq_some_iff.mp hs
    obtain ⟨s, hrun, rfl⟩ := lift_some hlift
    obtain ⟨d, -, -, hrun⟩ := dispatchStep_eq hrun
    split at hrun
    · cases hrun
      refine ⟨h.dispatching hb rfl rfl rfl rfl rfl (fun e he ↦ by cases he) fun _ ↦ rfl,
        .of_eq rfl rfl rfl (fun u n hn ↦ ?_) (held_snap f)⟩
      have hnone : ∀ n, (Guard.none : Guard τ).Keeps n → f.Held n := fun _ hn ↦ hn.elim
      exact update_keeps (held_guard f) hnone u n hn
    · cases hrun

end Owners

section Runs

variable {f f' g : FineSubs Tid τ η ν} {t : Tid} {n : ℕ} {D : Tid → Option (Dispatch τ η ν)}

theorem owned_initial : Owned ({} : FineSubs Tid τ η ν) where
  leaves _ _ h := by cases h
  ended _ _ := rfl
  guards _ _ h := by cases h
  readers _ _ := rfl
  writers _ _ _ := rfl

theorem Publishes.held (hp : Publishes f f') (hsim : Simulates f' D) (h : f'.Held n) :
    f.Held n ∨ f.threads.bus.allocated ≤ n := by
  have hmapped : Mapped f'.threads.bus.slots_ n → f.Held n ∨ f.threads.bus.allocated ≤ n :=
    fun hm ↦ (hp.mapped n hm).imp_left .slots
  have hentered : Entered f'.threads.bus.wildcard_trie_ n →
      f.Held n ∨ f.threads.bus.allocated ≤ n := fun hm ↦ (hp.entered n hm).imp_left .trie
  cases h with
  | slots hm => exact hmapped hm
  | trie hm => exact hentered hm
  | guard t hm => exact .inl (hp.guards t n hm)
  | snap t hm => exact .inl (hp.snaps t n hm)
  | within t hm => exact ((hsim.current t).published hm).elim hmapped hentered

theorem Owned.held (h : Owned f) (htracks : Tracks (f.coarse D)) (hu : f.Uses t n) : f.Held n := by
  cases hu with
  | walk hd hn => exact .guard t (h.guards t _ hd n hn)
  | check _ hsec hn => exact .within t (by rw [hsec]; exact ⟨_, hn⟩)
  | @add x tid hpc =>
    have hfits : SubscribeFits (f.coarse D) t (f.threads.subs t) := htracks.subs t
    rw [hpc] at hfits
    exact .slots ⟨tid, hfits.2.2.2.1⟩
  | remove hpc =>
    have hfits : UnsubscribeFits (f.coarse D) t (f.threads.unsubs t) := htracks.unsubs t
    rw [hpc] at hfits
    obtain ⟨-, -, -, -, -, -, tid, -, hslot⟩ := hfits
    exact .slots ⟨tid, hslot⟩
  | empty hentry hn =>
    refine .within t ?_
    cases hsec : f.sections t with
    | found | nested | nestedList | emptied =>
      rw [hsec] at hentry
      obtain rfl := Option.some.inj hentry
      exact .inl hn
    | _ =>
      rw [hsec] at hentry
      cases hentry
  | unlock hsec => exact .slots (h.leaves t n hsec)

/-- With all calls returned and no message being dispatched, only the published
snapshots hold slots, and the trie only those of live subscriptions. -/
theorem Owned.quiescent (h : Owned f) (htracks : Tracks (f.coarse D))
    (hreturned : Returned f) (hdispatched : ∀ t, f.threads.dispatches t = none) (hheld : f.Held n) :
    Mapped f.threads.bus.slots_ n ∨ ∃ x ∈ f.threads.live, ∃ y ∈
      f.threads.bus.wildcard_trie_.root.contents, y.2.sub_id = x.id ∧ y.2.slot = n := by
  cases hheld with
  | slots hm => exact .inl hm
  | trie hm =>
    obtain ⟨y, hy, hn⟩ := hm
    have hvisible : f.visible = f.threads.bus.wildcard_trie_ :=
      visible_free fun u ↦ by rw [hreturned.outside u]; rfl
    have hy' : y ∈ (f.coarse D).bus.wildcard_trie_.root.contents := by
      rw [← hvisible] at hy
      exact hy
    obtain ⟨x, hx, hshown⟩ := htracks.stored.trie.entry hy'
    have hid : x.id = y.2.sub_id := congrArg (fun z ↦ z.2.2.1) hshown
    exact .inr ⟨x, (List.mem_filter.mp hx).1, y, hy, hid.symm, hn⟩
  | guard t hm =>
    rw [h.readers t (hdispatched t)] at hm
    exact hm.elim
  | snap t hm =>
    have hidle := (quiet_iff.mp (hreturned.quiet t)).2
    rw [h.writers t (hreturned.outside t) fun id n hpc ↦ by rw [hidle] at hpc; cases hpc] at hm
    exact hm.elim
  | within t hm =>
    rw [hreturned.outside t] at hm
    exact hm.elim

variable [DecidableEq Tid] [DecidableEq τ]

theorem step_owned {a : FineAction Tid τ η ν} (hsim : Simulates f D) (htracks : Tracks (f.coarse D))
    (h : Owned f) (hs : FineSubscriptions.step f a = some f') : Owned f' ∧ Publishes f f' := by
  have hv := hsim.valid htracks
  cases step_begins hs with
  | inl hwork =>
    obtain ⟨t, way, -, hw⟩ := hwork
    exact ⟨hw.owned hsim htracks h, hw.publishes hsim⟩
  | inr hbegins =>
    by_cases ha : ∃ t way, a = .work t way
    · obtain ⟨t, way, rfl⟩ := ha
      have hw := work_works hs
      exact ⟨hw.owned hsim htracks h, hw.publishes hsim⟩
    · exact begins_owned hv h hbegins.2 (fun t way he ↦ ha ⟨t, way, he⟩) hs

theorem reached (hf : (machine Tid τ η ν).Reachable f)
    (hsmall : SubscriptionThreads.Small f.threads) : ∃ D, Simulates f D ∧ Tracks (f.coarse D) := by
  have hf' : (machine Tid τ η ν).Reaches (fun f a ↦ false = true → Calm f a) f :=
    hf.mono fun _ _ _ h ↦ by cases h
  obtain ⟨D, hx, hsim⟩ := simulates_reaches hf' hsmall
  exact ⟨D, hsim, tracks_reachable hx.reachable ⟨hsmall.calls, hsmall.topics⟩⟩

theorem owned_reachable (hf : (machine Tid τ η ν).Reachable f)
    (hsmall : SubscriptionThreads.Small f.threads) : Owned f := by
  induction hf with
  | @start f hf =>
    obtain rfl : f = {} := hf
    exact owned_initial
  | next hf _ hs ih =>
    have hsmall' := small_of_step hsmall hs
    obtain ⟨D, hsim, htracks⟩ := reached hf hsmall'
    exact (step_owned hsim htracks (ih hsmall') hs).1

theorem small_of_run {as : List (FineAction Tid τ η ν)}
    (hrun : (machine Tid τ η ν).run f as = some g) (hsmall : SubscriptionThreads.Small g.threads) :
    SubscriptionThreads.Small f.threads := by
  induction as generalizing f with
  | nil =>
    obtain rfl : f = g := Option.some.inj hrun
    exact hsmall
  | cons a as ih =>
    obtain ⟨u, hu, hrest⟩ := Option.bind_eq_some_iff.mp hrun
    exact small_of_step (ih hrest) hu

theorem unheld_run {as : List (FineAction Tid τ η ν)} (hf : (machine Tid τ η ν).Reachable f)
    (hrun : (machine Tid τ η ν).run f as = some g) (hsmall : SubscriptionThreads.Small g.threads)
    (hn : n < f.threads.bus.allocated) (h : ¬ f.Held n) : ¬ g.Held n := by
  induction as generalizing f with
  | nil =>
    obtain rfl : f = g := Option.some.inj hrun
    exact h
  | cons a as ih =>
    obtain ⟨u, hu, hrest⟩ := Option.bind_eq_some_iff.mp hrun
    have hsmall' := small_of_run hrest hsmall
    have hu' : (machine Tid τ η ν).Reachable u := .next hf trivial hu
    obtain ⟨D, hsim, htracks⟩ := reached hf (small_of_step hsmall' hu)
    obtain ⟨D', hsim', -⟩ := reached hu' hsmall'
    have howned := owned_reachable hf (small_of_step hsmall' hu)
    obtain ⟨-, hp⟩ := step_owned hsim htracks howned hu
    refine ih hu' hrest (hn.trans_le hp.allocated) fun hheld ↦ ?_
    cases hp.held hsim' hheld with
    | inl hbefore => exact h hbefore
    | inr hnew => exact absurd hn (Nat.not_lt.mpr hnew)

end Runs

/-- The guards keep the plain pointers valid: whoever uses a slot can rely on a
`shared_ptr` to it, a slot that has lost its last one is never used again, and
what readers and writers kept is given back once they are done. -/
theorem slots_outlive_readers [DecidableEq Tid] [DecidableEq τ] {f : FineSubs Tid τ η ν}
    (hf : (machine Tid τ η ν).Reachable f) (hsmall : SubscriptionThreads.Small f.threads) :
    (∀ t n, f.Uses t n → f.Held n) ∧
      (∀ as g n, (machine Tid τ η ν).run f as = some g → SubscriptionThreads.Small g.threads →
        n < f.threads.bus.allocated → ¬ f.Held n → ¬ g.Held n ∧ ∀ t, ¬ g.Uses t n) ∧
      (Returned f → (∀ t, f.threads.dispatches t = none) → ∀ n, f.Held n →
        Mapped f.threads.bus.slots_ n ∨ ∃ x ∈ f.threads.live, ∃ y ∈
          f.threads.bus.wildcard_trie_.root.contents, y.2.sub_id = x.id ∧ y.2.slot = n) := by
  have huses : ∀ {g : FineSubs Tid τ η ν}, (machine Tid τ η ν).Reachable g →
      SubscriptionThreads.Small g.threads → ∀ t n, g.Uses t n → g.Held n := by
    intro g hg hsmall t n hu
    obtain ⟨D, -, htracks⟩ := reached hg hsmall
    exact (owned_reachable hg hsmall).held htracks hu
  refine ⟨huses hf hsmall, fun as g n hrun hsmall' hn h ↦ ?_,
    fun hreturned hdispatched n hheld ↦ ?_⟩
  · have hunheld : ¬ g.Held n := unheld_run hf hrun hsmall' hn h
    have hg : (machine Tid τ η ν).Reachable g := hf.run_next as hrun
    exact ⟨hunheld, fun t hu ↦ hunheld (huses hg hsmall' t n hu)⟩
  · obtain ⟨D, -, htracks⟩ := reached hf hsmall
    exact (owned_reachable hf hsmall).quiescent htracks hreturned hdispatched hheld

def lastReader : List (FineAction Bool Unit ℕ ℕ) :=
  .subscribe true () ['*'] 10 :: works true 5 ++
    [.publish () ['a'] 7, .dispatch false 0, .load false, .load false, .unsubscribe true 1] ++
      works true 10

theorem lastReader_run : ((machine Bool Unit ℕ ℕ).run {} lastReader).map (fun f ↦
    (f.threads.gone, f.threads.bus.wildcard_trie_.root.contents.length,
      (f.threads.dispatches false).map fun d ↦ d.frame.slots, f.threads.calls,
      f.threads.topics.length)) = some ([1], 0, some [0], 1, 1) := by
  decide +kernel

theorem slots_outlive_readers_lastReader : ∃ f : FineSubs Bool Unit ℕ ℕ,
    f.threads.bus.wildcard_trie_.root.contents = [] ∧ f.threads.gone = [1] ∧ f.Uses false 0 ∧
      f.Held 0 := by
  obtain ⟨f, hrun, he⟩ := Option.map_eq_some_iff.mp lastReader_run
  simp only [Prod.mk.injEq] at he
  obtain ⟨hgone, hempty, hslots, hcalls, htopics⟩ := he
  have hf : (machine Bool Unit ℕ ℕ).Reachable f :=
    .of_run (M := machine Bool Unit ℕ ℕ) rfl lastReader hrun
  have hsmall : SubscriptionThreads.Small f.threads := by
    refine ⟨by rw [hcalls]; decide, Nat.lt_of_le_of_lt (List.toFinset_card_le _) ?_⟩
    rw [htopics]
    decide
  obtain ⟨d, hd, hd'⟩ := Option.map_eq_some_iff.mp hslots
  have huses : f.Uses false 0 := .walk hd (hd' ▸ List.mem_singleton_self 0)
  exact ⟨f, List.length_eq_zero_iff.mp hempty, hgone, huses,
    (slots_outlive_readers hf hsmall).1 false 0 huses⟩

end LivioArk.Msgbus.FineSubscriptions
