import LivioArk.Msgbus.FineSubscriptions

namespace LivioArk.Msgbus.FineSubscriptions

open Function LivioArk.Library.Transition LivioArk.Library.PrefixTree
open Levels TopicMatcher TopicRegistry WildcardTrie Subscriptions SubStore Dispatching
open SubscriptionThreads

variable {Tid τ η ν : Type}

section Held

variable (f : FineSubs Tid τ η ν) (t : Tid)

def FineSubs.mutex : Option Mutex :=
  match f.threads.unsubs t with
  | .idle => subscribeMutex (f.threads.subs t)
  | pc => unsubscribeMutex pc

def Section.held (m : Option Mutex) : Section τ η → List Mutex
  | .outside => []
  | .locked | .slots _ | .list _ | .clone _ => m.toList
  | .found _ _ | .erased _ => [.trie_write]
  | .nested entry _ | .nestedList entry _ _ | .emptied entry _ => [.slot entry.slot, .trie_write]
  | .leaving m => [m]

def FineSubs.held : List Mutex := (f.sections t).held (f.mutex t)

/-- What a section reads before it goes on. -/
def FineSubs.loaded (f : FineSubs Tid τ η ν) : Mutex → Section τ η
  | .slots_write => .slots f.threads.bus.slots_
  | .trie_write => .clone (cloneSnapshot f.threads.bus.wildcard_trie_)
  | .slot n => .list (f.threads.bus.heap n).subscribers_

end Held

section Pcs

variable {f f' : FineSubs Tid τ η ν} {s s' : Subscribing Tid τ η ν} {t : Tid} {m : Mutex}

theorem mutex_subscribe (hidle : f.threads.unsubs t = .idle) :
    f.mutex t = subscribeMutex (f.threads.subs t) := by
  rw [FineSubs.mutex, hidle]

theorem mutex_unsubscribe (hbusy : f.threads.unsubs t ≠ .idle) :
    f.mutex t = unsubscribeMutex (f.threads.unsubs t) := by
  rw [FineSubs.mutex]
  split
  · rename_i hidle
    exact absurd hidle hbusy
  · rfl

theorem held_eq {sec : Section τ η} (hsec : f.sections t = sec) :
    f.held t = sec.held (f.mutex t) := by
  rw [FineSubs.held, hsec]

structure Elsewhere (t : Tid) (f f' : FineSubs Tid τ η ν) : Prop where
  subs : ∀ u ≠ t, f'.threads.subs u = f.threads.subs u
  unsubs : ∀ u ≠ t, f'.threads.unsubs u = f.threads.unsubs u
  sections : ∀ u ≠ t, f'.sections u = f.sections u

theorem Elsewhere.mutex (h : Elsewhere t f f') {u : Tid} (hu : u ≠ t) : f'.mutex u = f.mutex u := by
  rw [FineSubs.mutex, FineSubs.mutex, h.subs u hu, h.unsubs u hu]

theorem Elsewhere.held (h : Elsewhere t f f') {u : Tid} (hu : u ≠ t) : f'.held u = f.held u := by
  rw [FineSubs.held, FineSubs.held, h.mutex hu, h.sections u hu]

/-- A mutex is locked by the thread whose section needs it. -/
def Locked (f : FineSubs Tid τ η ν) : Prop := ∀ t m, m ∈ f.held t ↔ f.locks m = some t

theorem Locked.excluded (h : Locked f) {u : Tid} (hm : m ∈ f.held t) (hu : m ∈ f.held u) :
    u = t := by
  rw [h] at hm hu
  exact Option.some.inj (hu.symm.trans hm)

theorem outside_of (h : f.isOutside t = true) : f.sections t = .outside := by
  rw [FineSubs.isOutside] at h
  cases hsec : f.sections t with
  | outside => rfl
  | _ =>
    rw [hsec] at h
    cases h

variable [DecidableEq Tid]

theorem lock_some {sec : Section τ η} (h : f.lock t m sec = some f') :
    f.locks m = none ∧ f' = { f.enter t sec with locks := update f.locks m (some t) } := by
  rw [FineSubs.lock] at h
  split at h
  · rename_i hfree
    exact ⟨hfree, (Option.some.inj h).symm⟩
  · cases h

theorem Elsewhere.enter (f : FineSubs Tid τ η ν) (t : Tid) (sec : Section τ η) :
    Elsewhere t f (f.enter t sec) :=
  ⟨fun _ _ ↦ rfl, fun _ _ ↦ rfl, fun _ hu ↦ update_of_ne hu _ _⟩

theorem Elsewhere.leave (hsubs : ∀ u ≠ t, s.subs u = f.threads.subs u)
    (hunsubs : ∀ u ≠ t, s.unsubs u = f.threads.unsubs u) : Elsewhere t f (f.leave t m s) :=
  ⟨hsubs, hunsubs, fun _ hu ↦ update_of_ne hu _ _⟩

theorem unsubscribeStep_pcs (h : s.unsubscribeStep t = some s') :
    s'.subs = s.subs ∧ ∀ u ≠ t, s'.unsubs u = s.unsubs u := by
  rw [Subscribing.unsubscribeStep] at h
  repeat' split at h
  all_goals cases h
  all_goals exact ⟨rfl, fun u hu ↦ update_of_ne hu _ _⟩

theorem lift_some [DecidableEq τ] {a : SubAction Tid τ η ν} (hs : lift f a = some f') :
    ∃ s, SubscriptionThreads.step f.threads a = some s ∧ f' = { f with threads := s } := by
  obtain ⟨s, hrun, rfl⟩ := Option.map_eq_some_iff.mp hs
  exact ⟨s, hrun, rfl⟩

theorem held_enter (f : FineSubs Tid τ η ν) (t : Tid) (sec : Section τ η) :
    (f.enter t sec).held t = sec.held (f.mutex t) := by
  simp only [FineSubs.held, FineSubs.enter, update_self]
  rfl

theorem held_leave (f : FineSubs Tid τ η ν) (t : Tid) (s : Subscribing Tid τ η ν) :
    (f.leave t m s).held t = [m] := by
  simp only [FineSubs.held, FineSubs.leave, FineSubs.enter, update_self]
  rfl

theorem Locked.keep (h : Locked f) (helse : Elsewhere t f f') (hlocks : f'.locks = f.locks)
    (hheld : f'.held t = f.held t) : Locked f' := by
  intro u m
  rw [hlocks, ← h u m]
  by_cases hu : u = t
  · rw [hu, hheld]
  · rw [helse.held hu]

theorem Locked.acquire (h : Locked f) (helse : Elsewhere t f f') (hfree : f.locks m = none)
    (hlocks : f'.locks = update f.locks m (some t)) (hheld : f'.held t = m :: f.held t) :
    Locked f' := by
  intro u m'
  have hnot : m ∉ f.held u := fun hm ↦ by
    rw [h, hfree] at hm
    cases hm
  by_cases hm : m' = m
  · subst hm
    rw [hlocks, update_self, Option.some.injEq]
    by_cases hu : u = t
    · subst hu
      simp [hheld]
    · rw [helse.held hu]
      exact ⟨fun hin ↦ absurd hin hnot, fun he ↦ absurd he.symm hu⟩
  · rw [hlocks, update_of_ne hm, ← h u m']
    by_cases hu : u = t
    · subst hu
      simp [hheld, hm]
    · rw [helse.held hu]

theorem Locked.release (h : Locked f) (helse : Elsewhere t f f')
    (hlocks : f'.locks = update f.locks m none) (hheld : f.held t = m :: f'.held t)
    (hnot : m ∉ f'.held t) : Locked f' := by
  have hm : m ∈ f.held t := hheld ▸ List.mem_cons_self
  intro u m'
  by_cases hm' : m' = m
  · subst hm'
    rw [hlocks, update_self]
    refine ⟨fun hin ↦ ?_, fun he ↦ by cases he⟩
    by_cases hu : u = t
    · exact absurd (hu ▸ hin) hnot
    · rw [helse.held hu] at hin
      exact absurd (h.excluded hm hin) hu
  · rw [hlocks, update_of_ne hm', ← h u m']
    by_cases hu : u = t
    · subst hu
      simp [hheld, hm']
    · rw [helse.held hu]

end Pcs

variable [DecidableEq Tid] [DecidableEq τ]

inductive Works (t : Tid) (f : FineSubs Tid τ η ν) : FineSubs Tid τ η ν → Prop
  | subscribe {s : Subscribing Tid τ η ν} : f.sections t = .outside →
      f.threads.unsubs t = .idle → subscribeMutex (f.threads.subs t) = none →
      f.threads.subscribeStep t = some s → Works t f { f with threads := s }
  | unsubscribe {s : Subscribing Tid τ η ν} : f.sections t = .outside →
      unsubscribeMutex (f.threads.unsubs t) = none → f.threads.unsubscribeStep t = some s →
      Works t f { f with
        threads := s
        snaps := update f.snaps t (FineSubs.snapOf f.threads.bus (s.unsubs t)) }
  | lock {m : Mutex} : f.sections t = .outside → f.mutex t = some m → f.locks m = none →
      Works t f { f.enter t .locked with locks := update f.locks m (some t) }
  | load {m : Mutex} : f.sections t = .locked → f.mutex t = some m →
      Works t f (f.enter t (f.loaded m))
  | createSlot {x : Sub τ η} {tid : ℕ} {old : ℕ → Option ℕ} : f.sections t = .slots old →
      f.threads.unsubs t = .idle → f.threads.subs t = .createSlot x tid →
      Works t f (f.createSlotWork t x tid old)
  | addSubscriber {x : Sub τ η} {tid slot : ℕ} {old : List (Subscriber η)} :
      f.sections t = .list old → f.threads.unsubs t = .idle →
      f.threads.subs t = .addSubscriber x tid slot →
      Works t f (f.addSubscriberWork t x tid slot old)
  | insert {x : Sub τ η} {snap : Snapshot τ ℕ} (way : List Bool) : f.sections t = .clone snap →
      f.threads.unsubs t = .idle → f.threads.subs t = .insert x →
      Works t f (f.insertWork t way x snap)
  | removeSubscriber {id slot : ℕ} {old : List (Subscriber η)} : f.sections t = .list old →
      f.threads.unsubs t = .removeSubscriber id slot →
      Works t f (f.removeSubscriberWork t id slot old)
  | removeFrom {id : ℕ} {snap : Snapshot τ ℕ} : f.sections t = .clone snap →
      f.threads.unsubs t = .remove id → Works t f (f.removeFromWork t id snap)
  | nest {id : ℕ} {entry : Entry τ ℕ} {snap : Snapshot τ ℕ} : f.sections t = .found entry snap →
      f.threads.unsubs t = .remove id → f.locks (.slot entry.slot) = none →
      Works t f { f.enter t (.nested entry snap) with
        locks := update f.locks (.slot entry.slot) (some t) }
  | nestLoad {id : ℕ} {entry : Entry τ ℕ} {snap : Snapshot τ ℕ} :
      f.sections t = .nested entry snap → f.threads.unsubs t = .remove id →
      Works t f (f.enter t
        (.nestedList entry snap (f.threads.bus.heap entry.slot).subscribers_))
  | empty {id : ℕ} {entry : Entry τ ℕ} {snap : Snapshot τ ℕ} {old : List (Subscriber η)} :
      f.sections t = .nestedList entry snap old → f.threads.unsubs t = .remove id →
      Works t f { f.enter t (.emptied entry snap) with
        threads := f.threads.removed t id (publishWithout f.threads.bus id entry.slot old) }
  | emptied {entry : Entry τ ℕ} {snap : Snapshot τ ℕ} : f.sections t = .emptied entry snap →
      Works t f (f.unlock t (.slot entry.slot) (.erased snap))
  | erased {snap : Snapshot τ ℕ} (way : List Bool) : f.sections t = .erased snap →
      Works t f (f.leave t .trie_write
        { f.threads with bus := publishSnapshot f.threads.bus way snap })
  | leaving {m : Mutex} : f.sections t = .leaving m →
      Works t f { f.unlock t m .outside with snaps := update f.snaps t .none }

section Inversion

variable {f f' : FineSubs Tid τ η ν} {t : Tid} {way : List Bool}

theorem subscribeWork_works (hidle : f.threads.unsubs t = .idle)
    (h : f.subscribeWork t way = some f') : Works t f f' := by
  have hmutex := mutex_subscribe hidle
  rw [FineSubs.subscribeWork] at h
  split at h
  all_goals rename_i hpc hsec
  · rw [hpc] at hmutex
    cases h
    exact .load hsec hmutex
  · cases h
    exact .createSlot hsec hidle hpc
  · rw [hpc] at hmutex
    cases h
    exact .load hsec hmutex
  · cases h
    exact .addSubscriber hsec hidle hpc
  · rw [hpc] at hmutex
    cases h
    exact .load hsec hmutex
  · cases h
    exact .insert way hsec hidle hpc
  · split at h
    · rename_i m hm
      obtain ⟨hfree, rfl⟩ := lock_some h
      exact .lock hsec (hmutex.trans hm) hfree
    · rename_i hm
      obtain ⟨s, hs, rfl⟩ := Option.map_eq_some_iff.mp h
      exact .subscribe hsec hidle hm hs
  · cases h

theorem unsubscribeWork_works (hbusy : f.threads.unsubs t ≠ .idle)
    (h : f.unsubscribeWork t = some f') : Works t f f' := by
  have hmutex := mutex_unsubscribe hbusy
  rw [FineSubs.unsubscribeWork] at h
  split at h
  all_goals rename_i hpc hsec
  · rw [hpc] at hmutex
    cases h
    exact .load hsec hmutex
  · cases h
    exact .removeSubscriber hsec hpc
  · rw [hpc] at hmutex
    cases h
    exact .load hsec hmutex
  · cases h
    exact .removeFrom hsec hpc
  · obtain ⟨hfree, rfl⟩ := lock_some h
    exact .nest hsec hpc hfree
  · cases h
    exact .nestLoad hsec hpc
  · cases h
    exact .empty hsec hpc
  · split at h
    · rename_i m hm
      obtain ⟨hfree, rfl⟩ := lock_some h
      exact .lock hsec (hmutex.trans hm) hfree
    · rename_i hm
      obtain ⟨s, hs, rfl⟩ := Option.map_eq_some_iff.mp h
      exact .unsubscribe hsec hm hs
  · cases h

theorem work_works (h : f.work t way = some f') : Works t f f' := by
  rw [FineSubs.work] at h
  split at h
  · rename_i hsec
    cases h
    exact .emptied hsec
  · rename_i hsec
    cases h
    exact .erased way hsec
  · rename_i hsec
    cases h
    exact .leaving hsec
  · split at h
    · rename_i hidle
      refine subscribeWork_works ?_ h
      cases hpc : f.threads.unsubs t with
      | idle => rfl
      | _ =>
        rw [hpc] at hidle
        cases hidle
    · rename_i hbusy
      refine unsubscribeWork_works (fun hpc ↦ hbusy ?_) h
      rw [hpc]
      rfl

end Inversion

section Locks

variable {f f' : FineSubs Tid τ η ν} {s s' : Subscribing Tid τ η ν} {t : Tid}

theorem subscribeStep_pcs (h : s.subscribeStep t = some s') :
    (∀ u ≠ t, s'.subs u = s.subs u) ∧ s'.unsubs = s.unsubs := by
  rw [Subscribing.subscribeStep] at h
  repeat' split at h
  all_goals cases h
  all_goals exact ⟨fun u hu ↦ update_of_ne hu _ _, rfl⟩

theorem createSlotWork_leave (f : FineSubs Tid τ η ν) (t : Tid) (x : Sub τ η) (tid : ℕ)
    (old : ℕ → Option ℕ) : ∃ s, f.createSlotWork t x tid old = f.leave t .slots_write s := by
  rw [FineSubs.createSlotWork]
  split
  · split
    · exact ⟨_, rfl⟩
    · exact ⟨_, rfl⟩
  · exact ⟨_, rfl⟩

theorem Works.elsewhere (h : Works t f f') : Elsewhere t f f' := by
  have hmoved : ∀ {β : Type} (g : Tid → β) (b : β) (u : Tid), u ≠ t → update g t b u = g u :=
    fun _ _ _ hu ↦ update_of_ne hu _ _
  cases h with
  | subscribe _ _ _ hs =>
    obtain ⟨hsubs, hunsubs⟩ := subscribeStep_pcs hs
    exact ⟨hsubs, fun u _ ↦ congrFun hunsubs u, fun _ _ ↦ rfl⟩
  | unsubscribe _ _ hs =>
    obtain ⟨hsubs, hunsubs⟩ := unsubscribeStep_pcs hs
    exact ⟨fun u _ ↦ congrFun hsubs u, hunsubs, fun _ _ ↦ rfl⟩
  | createSlot =>
    rw [FineSubs.createSlotWork]
    split
    · split
      · exact .leave (hmoved _ _) fun _ _ ↦ rfl
      · exact .leave (hmoved _ _) fun _ _ ↦ rfl
    · exact .leave (hmoved _ _) fun _ _ ↦ rfl
  | addSubscriber => exact .leave (hmoved _ _) fun _ _ ↦ rfl
  | insert => exact .leave (hmoved _ _) fun _ _ ↦ rfl
  | removeSubscriber => exact .leave (fun _ _ ↦ rfl) (hmoved _ _)
  | removeFrom =>
    rw [FineSubs.removeFromWork]
    split
    · exact .enter f t _
    · exact .leave (fun _ _ ↦ rfl) (hmoved _ _)
  | lock | load | nest | nestLoad | emptied | leaving =>
    exact ⟨fun _ _ ↦ rfl, fun _ _ ↦ rfl, hmoved _ _⟩
  | empty => exact ⟨fun _ _ ↦ rfl, hmoved _ _, hmoved _ _⟩
  | erased => exact .leave (fun _ _ ↦ rfl) fun _ _ ↦ rfl

theorem Works.locked (hw : Works t f f') (h : Locked f) : Locked f' := by
  have helse := hw.elsewhere
  have hleave : ∀ {m : Mutex} {s : Subscribing Tid τ η ν}, f' = f.leave t m s → f.held t = [m] →
      Locked f' := by
    intro m s hf' hheld
    subst hf'
    exact h.keep helse rfl ((held_leave f t s).trans hheld.symm)
  cases hw with
  | subscribe hsec | unsubscribe hsec =>
    refine h.keep helse rfl ?_
    rw [FineSubs.held, FineSubs.held, hsec]
    rfl
  | lock hsec hm hfree =>
    refine h.acquire helse hfree rfl ?_
    rw [held_eq hsec]
    exact (held_enter f t .locked).trans (by rw [hm]; rfl)
  | @load m hsec hm =>
    refine h.keep helse rfl ?_
    rw [held_enter, held_eq hsec, hm]
    cases m <;> rfl
  | createSlot hsec hidle hpc =>
    have hheld : f.held t = [.slots_write] := by
      rw [held_eq hsec, mutex_subscribe hidle, hpc]
      rfl
    obtain ⟨s, hs⟩ := createSlotWork_leave f t _ _ _
    exact hleave hs hheld
  | addSubscriber hsec hidle hpc =>
    refine hleave rfl ?_
    rw [held_eq hsec, mutex_subscribe hidle, hpc]
    rfl
  | insert way hsec hidle hpc =>
    refine hleave rfl ?_
    rw [held_eq hsec, mutex_subscribe hidle, hpc]
    rfl
  | removeSubscriber hsec hpc =>
    refine hleave rfl ?_
    rw [held_eq hsec, mutex_unsubscribe (by rw [hpc]; exact fun h ↦ by cases h), hpc]
    rfl
  | @removeFrom id snap hsec hpc =>
    have hheld : f.held t = [.trie_write] := by
      rw [held_eq hsec, mutex_unsubscribe (by rw [hpc]; exact fun h ↦ by cases h), hpc]
      rfl
    cases hr : remove id snap with
    | none =>
      have hmissing : f.removeFromWork t id snap =
          f.leave t .trie_write (f.threads.removed t id f.threads.bus) := by
        simp only [FineSubs.removeFromWork, hr]
      exact hleave hmissing hheld
    | some found =>
      have hfound : f.removeFromWork t id snap = f.enter t (.found found.1 found.2) := by
        simp only [FineSubs.removeFromWork, hr]
      rw [hfound] at helse ⊢
      refine h.keep helse rfl ?_
      rw [held_enter, hheld]
      rfl
  | nest hsec hpc hfree =>
    refine h.acquire helse hfree rfl ?_
    rw [held_eq hsec]
    exact held_enter f t _
  | nestLoad hsec =>
    refine h.keep helse rfl ?_
    rw [held_enter, held_eq hsec]
    rfl
  | empty hsec =>
    refine h.keep helse rfl ?_
    rw [held_eq hsec]
    simp only [FineSubs.held, FineSubs.enter, update_self]
    rfl
  | emptied hsec =>
    refine h.release helse rfl ?_ ?_
    · rw [held_eq hsec]
      simp only [FineSubs.held, FineSubs.unlock, FineSubs.enter, update_self]
      rfl
    · simp only [FineSubs.held, FineSubs.unlock, FineSubs.enter, update_self, Section.held]
      simp
  | erased way hsec =>
    refine hleave rfl ?_
    rw [held_eq hsec]
    rfl
  | leaving hsec =>
    refine h.release helse rfl ?_ ?_
    · rw [held_eq hsec]
      simp only [FineSubs.held, FineSubs.unlock, FineSubs.enter, update_self]
      rfl
    · simp only [FineSubs.held, FineSubs.unlock, FineSubs.enter, update_self, Section.held]
      simp

end Locks

end LivioArk.Msgbus.FineSubscriptions
