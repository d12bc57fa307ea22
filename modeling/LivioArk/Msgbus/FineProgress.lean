import LivioArk.Library.Progress
import LivioArk.Msgbus.FineSections
import Mathlib.Algebra.Order.BigOperators.Group.Finset

namespace LivioArk.Msgbus.FineSubscriptions

open Function LivioArk.Library.Transition LivioArk.Library.PrefixTree
open Levels TopicMatcher TopicRegistry WildcardTrie Subscriptions SubStore Dispatching
open SubscriptionThreads

variable {Tid τ η ν : Type}

section Left

def subscribeLeft : SubscribePc τ η → ℕ
  | .idle => 0
  | .lookup _ => 12
  | .resolve _ => 11
  | .findSlot _ _ => 10
  | .createSlot _ _ => 9
  | .addSubscriber _ _ _ => 5
  | .insert _ => 5
  | .record _ _ => 1

def unsubscribeLeft : UnsubscribePc → ℕ
  | .idle => 0
  | .take _ => 10
  | .findSlot _ _ => 5
  | .removeSubscriber _ _ => 4
  | .remove _ => 9

def Section.left (steps : ℕ) : Section τ η → ℕ
  | .outside => steps
  | .locked => steps - 1
  | .slots _ | .list _ | .clone _ => steps - 2
  | .found _ _ => steps - 3
  | .nested _ _ => steps - 4
  | .nestedList _ _ _ => steps - 5
  | .emptied _ _ => steps + 3
  | .erased _ => steps + 2
  | .leaving _ => steps + 1

variable (f : FineSubs Tid τ η ν) (t : Tid)

def FineSubs.calling : ℕ := subscribeLeft (f.threads.subs t) + unsubscribeLeft (f.threads.unsubs t)

def FineSubs.left : ℕ := (f.sections t).left (f.calling t)

def Section.Fits (m : Option Mutex) (pc : UnsubscribePc) : Section τ η → Prop
  | .outside | .emptied _ _ | .erased _ | .leaving _ => True
  | .locked => ∃ x, m = some x
  | .slots _ => m = some .slots_write
  | .list _ => ∃ n, m = some (.slot n)
  | .clone _ => m = some .trie_write
  | .found _ _ | .nested _ _ | .nestedList _ _ _ => ∃ id, pc = .remove id

def Section.Ends : Section τ η → Prop
  | .emptied _ _ | .erased _ | .leaving _ => True
  | _ => False

def Shaped (f : FineSubs Tid τ η ν) : Prop :=
  ∀ t, (f.sections t).Fits (f.mutex t) (f.threads.unsubs t)

structure Returned (f : FineSubs Tid τ η ν) : Prop where
  quiet : ∀ t, f.threads.quiet t = true
  outside : ∀ t, f.sections t = .outside
  free : ∀ m, f.locks m = none

end Left

section Pcs

variable {f f' : FineSubs Tid τ η ν} {s s' : Subscribing Tid τ η ν} {t : Tid} {m : Mutex}

theorem mutex_left (h : f.mutex t = some m) : 4 ≤ f.calling t := by
  rw [FineSubs.mutex] at h
  rw [FineSubs.calling]
  cases hun : f.threads.unsubs t with
  | idle =>
    rw [hun] at h
    cases hsub : f.threads.subs t with
    | createSlot | addSubscriber | insert =>
      simp only [subscribeLeft]
      omega
    | _ =>
      rw [hsub] at h
      cases h
  | removeSubscriber | remove =>
    simp only [unsubscribeLeft]
    omega
  | _ =>
    rw [hun] at h
    cases h

theorem left_eq (h : f.sections t = .outside) : f.left t = f.calling t := by
  rw [FineSubs.left, h]
  rfl

theorem quiet_iff : f.threads.quiet t = true ↔
    f.threads.subs t = .idle ∧ f.threads.unsubs t = .idle := by
  rw [Subscribing.quiet, Bool.and_eq_true]
  constructor
  · rintro ⟨hsub, hun⟩
    constructor
    · cases hpc : f.threads.subs t with
      | idle => rfl
      | _ =>
        rw [hpc] at hsub
        cases hsub
    · cases hpc : f.threads.unsubs t with
      | idle => rfl
      | _ =>
        rw [hpc] at hun
        cases hun
  · rintro ⟨hsub, hun⟩
    rw [hsub, hun]
    exact ⟨rfl, rfl⟩

theorem left_eq_zero (hshaped : Shaped f) (h : f.left t = 0) :
    f.threads.quiet t = true ∧ f.sections t = .outside := by
  have hfits := hshaped t
  have hremove : ∀ {id : ℕ}, f.threads.unsubs t = .remove id → 9 ≤ f.calling t := by
    intro id hpc
    rw [FineSubs.calling, hpc]
    exact Nat.le_add_left _ _
  rw [FineSubs.left] at h
  cases hsec : f.sections t with
  | outside =>
    rw [hsec] at h
    have hcalling : subscribeLeft (f.threads.subs t) + unsubscribeLeft (f.threads.unsubs t) = 0 := h
    refine ⟨quiet_iff.mpr ⟨?_, ?_⟩, rfl⟩
    · cases hpc : f.threads.subs t with
      | idle => rfl
      | _ =>
        rw [hpc, subscribeLeft] at hcalling
        omega
    · cases hpc : f.threads.unsubs t with
      | idle => rfl
      | _ =>
        rw [hpc] at hcalling
        simp only [unsubscribeLeft] at hcalling
        omega
  | locked =>
    rw [hsec] at h hfits
    obtain ⟨m, hm⟩ := hfits
    have hcalling := mutex_left hm
    simp only [Section.left] at h
    omega
  | slots | clone =>
    rw [hsec] at h hfits
    have hcalling := mutex_left hfits
    simp only [Section.left] at h
    omega
  | list =>
    rw [hsec] at h hfits
    obtain ⟨n, hm⟩ := hfits
    have hcalling := mutex_left hm
    simp only [Section.left] at h
    omega
  | found | nested | nestedList =>
    rw [hsec] at h hfits
    obtain ⟨id, hpc⟩ := hfits
    have hcalling := hremove hpc
    simp only [Section.left] at h
    omega
  | _ =>
    rw [hsec] at h
    cases h

variable [DecidableEq Tid]

theorem unsubscribeStep_left (hm : unsubscribeMutex (s.unsubs t) = none)
    (h : s.unsubscribeStep t = some s') :
    unsubscribeLeft (s'.unsubs t) < unsubscribeLeft (s.unsubs t) := by
  cases hpc : s.unsubs t with
  | idle => simp [Subscribing.unsubscribeStep, hpc] at h
  | take id =>
    rw [Subscribing.unsubscribeStep, hpc] at h
    simp only at h
    split at h
    · cases h
      simp [Subscribing.unsubscribed, Subscribing.goto', unsubscribeLeft]
    · cases h
      simp only [Subscribing.goto', Subscribing.mark, update_self]
      split
      · simp [unsubscribeLeft]
      · simp [unsubscribeLeft]
  | findSlot id tid =>
    rw [Subscribing.unsubscribeStep, hpc] at h
    simp only at h
    split at h
    · cases h
      simp [Subscribing.goto', unsubscribeLeft]
    · cases h
      simp [Subscribing.unsubscribed, Subscribing.goto', unsubscribeLeft]
  | removeSubscriber | remove =>
    rw [hpc] at hm
    cases hm

theorem removed_left (s : Subscribing Tid τ η ν) (id : ℕ) (b : SubState τ η) :
    (s.removed t id b).subs = s.subs ∧ (s.removed t id b).unsubs t = .idle :=
  ⟨rfl, update_self _ _ _⟩

theorem left_enter (f : FineSubs Tid τ η ν) (t : Tid) (sec : Section τ η) :
    (f.enter t sec).left t = sec.left (f.calling t) := by
  simp only [FineSubs.left, FineSubs.enter, update_self]
  rfl

theorem left_leave (f : FineSubs Tid τ η ν) (t : Tid) (m : Mutex) (s : Subscribing Tid τ η ν) :
    (f.leave t m s).left t = subscribeLeft (s.subs t) + unsubscribeLeft (s.unsubs t) + 1 := by
  simp only [FineSubs.left, FineSubs.leave, FineSubs.enter, update_self]
  rfl

variable [DecidableEq τ]

theorem subscribeStep_left (hm : subscribeMutex (s.subs t) = none)
    (h : s.subscribeStep t = some s') :
    subscribeLeft (s'.subs t) < subscribeLeft (s.subs t) := by
  cases hpc : s.subs t with
  | idle => simp [Subscribing.subscribeStep, hpc] at h
  | lookup x | findSlot x tid =>
    rw [Subscribing.subscribeStep, hpc] at h
    simp only at h
    repeat' split at h
    all_goals cases h
    all_goals simp [Subscribing.goto, Subscribing.throw, Subscribing.mark, subscribeLeft]
  | resolve x | record x info =>
    rw [Subscribing.subscribeStep, hpc] at h
    cases h
    simp [Subscribing.goto, Subscribing.mark, subscribeLeft]
  | createSlot | addSubscriber | insert =>
    rw [hpc] at hm
    cases hm

end Pcs

section Steps

variable [DecidableEq Tid] [DecidableEq τ] {f f' : FineSubs Tid τ η ν} {t : Tid}

theorem createSlotWork_left {x : Sub τ η} {tid : ℕ} (old : ℕ → Option ℕ)
    (hidle : f.threads.unsubs t = .idle) : (f.createSlotWork t x tid old).left t ≤ 6 := by
  rw [FineSubs.createSlotWork]
  split
  · split
    · simp [left_leave, Subscribing.goto, hidle, subscribeLeft, unsubscribeLeft]
    · simp [left_leave, Subscribing.throw, Subscribing.goto, Subscribing.mark, hidle,
        subscribeLeft, unsubscribeLeft]
  · simp [left_leave, Subscribing.goto, hidle, subscribeLeft, unsubscribeLeft]

theorem Works.left (hw : Works t f f') (h : Shaped f) : f'.left t < f.left t := by
  have hfits := h t
  have hold : ∀ {sec : Section τ η}, f.sections t = sec → f.left t = sec.left (f.calling t) := by
    intro sec hsec
    rw [FineSubs.left, hsec]
  cases hw with
  | @subscribe s hsec hidle hm hs =>
    have hlt := subscribeStep_left hm hs
    have hunsubs := (subscribeStep_pcs hs).2
    have hnew : FineSubs.left { f with threads := s } t =
        subscribeLeft (s.subs t) + unsubscribeLeft (s.unsubs t) := by
      rw [FineSubs.left]
      simp only [hsec]
      rfl
    rw [hnew, left_eq hsec, FineSubs.calling, hunsubs]
    omega
  | @unsubscribe s hsec hm hs =>
    have hlt := unsubscribeStep_left hm hs
    have hsubs := (unsubscribeStep_pcs hs).1
    rw [left_eq hsec, FineSubs.left]
    simp only [hsec]
    simp only [Section.left, FineSubs.calling, hsubs]
    omega
  | lock hsec hm =>
    have hcalling := mutex_left hm
    have hnew := left_enter f t .locked
    rw [left_eq hsec]
    rw [FineSubs.left] at hnew ⊢
    refine hnew.trans_lt ?_
    simp only [Section.left]
    omega
  | @load m hsec hm =>
    have hcalling := mutex_left hm
    rw [left_enter, hold hsec]
    cases m with
    | _ =>
      simp only [FineSubs.loaded, Section.left]
      omega
  | @createSlot x tid old hsec hidle hpc =>
    have hnew : (f.createSlotWork t x tid old).left t ≤ 6 := createSlotWork_left old hidle
    rw [hold hsec, FineSubs.calling, hpc, hidle]
    simp only [Section.left, subscribeLeft, unsubscribeLeft]
    omega
  | addSubscriber hsec hidle hpc =>
    rw [hold hsec, FineSubs.calling, hpc, hidle, FineSubs.addSubscriberWork, left_leave]
    simp [Subscribing.goto, Subscribing.mark, hidle, Section.left, subscribeLeft, unsubscribeLeft]
  | insert way hsec hidle hpc =>
    rw [hold hsec, FineSubs.calling, hpc, hidle, FineSubs.insertWork, left_leave]
    simp [Subscribing.goto, Subscribing.mark, hidle, Section.left, subscribeLeft, unsubscribeLeft]
  | @removeSubscriber id slot old hsec hpc =>
    obtain ⟨hsubs, hunsubs⟩ := removed_left (t := t) f.threads id
      (publishWithout f.threads.bus id slot old)
    rw [hold hsec, FineSubs.calling, hpc, FineSubs.removeSubscriberWork, left_leave, hsubs, hunsubs]
    simp only [Section.left, unsubscribeLeft]
    omega
  | @removeFrom id snap hsec hpc =>
    rw [hold hsec, FineSubs.calling, hpc, FineSubs.removeFromWork]
    split
    · rw [left_enter, FineSubs.calling, hpc]
      simp only [Section.left, unsubscribeLeft]
      omega
    · obtain ⟨hsubs, hunsubs⟩ := removed_left (t := t) f.threads id f.threads.bus
      rw [left_leave, hsubs, hunsubs]
      simp only [Section.left, unsubscribeLeft]
      omega
  | @nest id entry snap hsec hpc =>
    have hnew := left_enter f t (.nested entry snap)
    rw [hold hsec]
    rw [FineSubs.left] at hnew ⊢
    refine hnew.trans_lt ?_
    rw [FineSubs.calling, hpc]
    simp only [Section.left, unsubscribeLeft]
    omega
  | nestLoad hsec hpc =>
    rw [hold hsec, left_enter, FineSubs.calling, hpc]
    simp only [Section.left, unsubscribeLeft]
    omega
  | @empty id entry snap old hsec hpc =>
    obtain ⟨hsubs, hunsubs⟩ := removed_left (t := t) f.threads id
      (publishWithout f.threads.bus id entry.slot old)
    rw [hold hsec, FineSubs.left]
    simp only [FineSubs.enter, update_self, FineSubs.calling, hsubs, hunsubs, hpc, Section.left,
      unsubscribeLeft]
    omega
  | emptied hsec | erased _ hsec | leaving hsec =>
    rw [hold hsec, FineSubs.left]
    simp only [FineSubs.unlock, FineSubs.leave, FineSubs.enter, update_self, FineSubs.calling,
      Section.left]
    omega

theorem Works.shaped (hw : Works t f f') (h : Shaped f) : Shaped f' := by
  have helse := hw.elsewhere
  intro u
  by_cases hu : u = t
  · subst hu
    have hfits := h u
    cases hw with
    | subscribe hsec | unsubscribe hsec =>
      simp only [hsec]
      trivial
    | lock _ hm =>
      simp only [FineSubs.enter, update_self]
      exact ⟨_, hm⟩
    | @load m _ hm =>
      simp only [FineSubs.enter, update_self]
      cases m with
      | slots_write => exact hm
      | trie_write => exact hm
      | slot n => exact ⟨n, hm⟩
    | createSlot =>
      obtain ⟨s, hs⟩ := createSlotWork_leave f u _ _ _
      rw [hs]
      simp only [FineSubs.leave, FineSubs.enter, update_self]
      trivial
    | removeFrom hsec hpc =>
      rw [FineSubs.removeFromWork]
      split
      · simp only [FineSubs.enter, update_self]
        exact ⟨_, hpc⟩
      · simp only [FineSubs.leave, FineSubs.enter, update_self]
        trivial
    | nest _ hpc | nestLoad _ hpc =>
      simp only [FineSubs.enter, update_self]
      exact ⟨_, hpc⟩
    | addSubscriber | insert | removeSubscriber | empty | emptied | erased | leaving =>
      simp only [FineSubs.addSubscriberWork, FineSubs.insertWork, FineSubs.removeSubscriberWork,
        FineSubs.leave, FineSubs.unlock, FineSubs.enter, update_self]
      trivial
  · rw [helse.sections u hu, helse.mutex hu, helse.unsubs u hu]
    exact h u

end Steps

section Enabled

variable [DecidableEq Tid] {f : FineSubs Tid τ η ν} {s : Subscribing Tid τ η ν} {t : Tid}

/-- A thread that cannot go on waits for a mutex, and it has none or only that of
the trie, with which it waits for that of a slot. -/
def Waits (f : FineSubs Tid τ η ν) (t : Tid) : Prop :=
  ∃ m u, f.locks m = some u ∧ (f.held t = [] ∨ f.held t = [.trie_write] ∧ ∃ n, m = .slot n)

theorem lock_enabled {m : Mutex} (sec : Section τ η)
    (h : f.held t = [] ∨ f.held t = [.trie_write] ∧ ∃ n, m = .slot n) :
    (∃ f', f.lock t m sec = some f') ∨ Waits f t := by
  rw [FineSubs.lock]
  cases hm : f.locks m with
  | none => exact .inl ⟨_, rfl⟩
  | some u => exact .inr ⟨m, u, hm, h⟩

theorem unsubscribeStep_enabled (h : s.unsubs t ≠ .idle) : ∃ s', s.unsubscribeStep t = some s' := by
  rw [Subscribing.unsubscribeStep]
  cases hpc : s.unsubs t with
  | idle => exact absurd hpc h
  | take id =>
    simp only
    split
    · exact ⟨_, rfl⟩
    · exact ⟨_, rfl⟩
  | findSlot id tid =>
    simp only
    split
    · exact ⟨_, rfl⟩
    · exact ⟨_, rfl⟩
  | removeSubscriber | remove => exact ⟨_, rfl⟩

variable [DecidableEq τ]

theorem subscribeStep_enabled (h : s.subs t ≠ .idle) : ∃ s', s.subscribeStep t = some s' := by
  rw [Subscribing.subscribeStep]
  cases hpc : s.subs t with
  | idle => exact absurd hpc h
  | lookup x =>
    simp only
    split
    · exact ⟨_, rfl⟩
    · exact ⟨_, rfl⟩
  | findSlot x tid =>
    simp only
    repeat' split
    all_goals exact ⟨_, rfl⟩
  | createSlot x tid =>
    simp only
    split
    · exact ⟨_, rfl⟩
    · exact ⟨_, rfl⟩
  | resolve | addSubscriber | insert | record => exact ⟨_, rfl⟩

theorem work_subscribe (hidle : f.threads.unsubs t = .idle)
    (hends : ¬ (f.sections t).Ends) (way : List Bool) :
    f.work t way = f.subscribeWork t way := by
  have hquiet : (f.threads.unsubs t).isIdle = true := by
    rw [hidle]
    rfl
  rw [FineSubs.work]
  cases hsec : f.sections t with
  | emptied | erased | leaving =>
    rw [hsec] at hends
    exact absurd trivial hends
  | _ => simp only [hquiet, if_true]

theorem work_unsubscribe (hbusy : f.threads.unsubs t ≠ .idle)
    (hends : ¬ (f.sections t).Ends) (way : List Bool) :
    f.work t way = f.unsubscribeWork t := by
  have hquiet : (f.threads.unsubs t).isIdle = false := by
    cases hpc : f.threads.unsubs t with
    | idle => exact absurd hpc hbusy
    | _ => rfl
  rw [FineSubs.work]
  cases hsec : f.sections t with
  | emptied | erased | leaving =>
    rw [hsec] at hends
    exact absurd trivial hends
  | _ => simp only [hquiet, Bool.false_eq_true, if_false]

theorem ends_enabled (h : (f.sections t).Ends) : ∃ f', f.work t [] = some f' := by
  rw [FineSubs.work]
  cases hsec : f.sections t with
  | emptied | erased | leaving => exact ⟨_, rfl⟩
  | _ =>
    rw [hsec] at h
    exact h.elim

theorem outside_enabled (hsec : f.sections t = .outside) (h : f.calling t ≠ 0) :
    (∃ f', f.work t [] = some f') ∨ Waits f t := by
  have hends : ¬ (f.sections t).Ends := by
    rw [hsec]
    exact id
  have hheld : f.held t = [] := held_eq hsec
  by_cases hidle : f.threads.unsubs t = .idle
  · rw [work_subscribe hidle hends]
    have hbusy : f.threads.subs t ≠ .idle := by
      intro hpc
      rw [FineSubs.calling, hpc, hidle] at h
      exact h rfl
    obtain ⟨s, hs⟩ := subscribeStep_enabled hbusy
    cases hm : subscribeMutex (f.threads.subs t) with
    | none =>
      refine .inl ⟨{ f with threads := s }, ?_⟩
      rw [FineSubs.subscribeWork, hsec]
      cases hpc : f.threads.subs t with
      | createSlot | addSubscriber | insert =>
        rw [hpc] at hm
        cases hm
      | _ => simp only [hs, subscribeMutex, Option.map_some]
    | some m =>
      have hlock : f.subscribeWork t [] = f.lock t m .locked := by
        rw [FineSubs.subscribeWork, hsec]
        cases hpc : f.threads.subs t with
        | createSlot | addSubscriber | insert =>
          rw [hpc] at hm
          obtain rfl := Option.some.inj hm
          rfl
        | _ =>
          rw [hpc] at hm
          cases hm
      rw [hlock]
      exact lock_enabled .locked (.inl hheld)
  · rw [work_unsubscribe hidle hends]
    obtain ⟨s, hs⟩ := unsubscribeStep_enabled hidle
    cases hm : unsubscribeMutex (f.threads.unsubs t) with
    | none =>
      left
      have htake : ∃ f', f.takeWork t = some f' :=
        ⟨_, by rw [FineSubs.takeWork, hs, Option.map_some]⟩
      rw [FineSubs.unsubscribeWork, hsec]
      cases hpc : f.threads.unsubs t with
      | removeSubscriber | remove =>
        rw [hpc] at hm
        cases hm
      | _ => exact htake
    | some m =>
      have hlock : f.unsubscribeWork t = f.lock t m .locked := by
        rw [FineSubs.unsubscribeWork, hsec]
        cases hpc : f.threads.unsubs t with
        | removeSubscriber | remove =>
          rw [hpc] at hm
          obtain rfl := Option.some.inj hm
          rfl
        | _ =>
          rw [hpc] at hm
          cases hm
      rw [hlock]
      exact lock_enabled .locked (.inl hheld)

theorem section_enabled (hshaped : Shaped f) (hsec : f.sections t ≠ .outside) :
    (∃ f', f.work t [] = some f') ∨ Waits f t := by
  by_cases hends : (f.sections t).Ends
  · exact .inl (ends_enabled hends)
  · have hfits := hshaped t
    by_cases hidle : f.threads.unsubs t = .idle
    · left
      rw [work_subscribe hidle hends, FineSubs.subscribeWork]
      have hmutex := mutex_subscribe hidle
      cases hs : f.sections t with
      | outside => exact absurd hs hsec
      | locked =>
        rw [hs] at hfits
        obtain ⟨m, hm⟩ := hfits
        cases hpc : f.threads.subs t with
        | createSlot | addSubscriber | insert => exact ⟨_, rfl⟩
        | _ =>
          rw [hm, hpc] at hmutex
          cases hmutex
      | slots old =>
        rw [hs] at hfits
        cases hpc : f.threads.subs t with
        | createSlot => exact ⟨_, rfl⟩
        | _ =>
          rw [show f.mutex t = _ from hfits, hpc] at hmutex
          cases hmutex
      | list old =>
        rw [hs] at hfits
        obtain ⟨n, hm⟩ := hfits
        cases hpc : f.threads.subs t with
        | addSubscriber => exact ⟨_, rfl⟩
        | _ =>
          rw [hm, hpc] at hmutex
          cases hmutex
      | clone snap =>
        rw [hs] at hfits
        cases hpc : f.threads.subs t with
        | insert => exact ⟨_, rfl⟩
        | _ =>
          rw [show f.mutex t = _ from hfits, hpc] at hmutex
          cases hmutex
      | found | nested | nestedList =>
        rw [hs] at hfits
        obtain ⟨id, hpc⟩ := hfits
        rw [hidle] at hpc
        cases hpc
      | emptied | erased | leaving =>
        rw [hs] at hends
        exact absurd trivial hends
    · rw [work_unsubscribe hidle hends, FineSubs.unsubscribeWork]
      have hmutex := mutex_unsubscribe hidle
      cases hs : f.sections t with
      | outside => exact absurd hs hsec
      | locked =>
        rw [hs] at hfits
        obtain ⟨m, hm⟩ := hfits
        cases hpc : f.threads.unsubs t with
        | removeSubscriber | remove => exact .inl ⟨_, rfl⟩
        | _ =>
          rw [hm, hpc] at hmutex
          cases hmutex
      | slots old =>
        rw [hs] at hfits
        rw [show f.mutex t = _ from hfits] at hmutex
        cases hpc : f.threads.unsubs t with
        | _ =>
          rw [hpc] at hmutex
          cases hmutex
      | list old =>
        rw [hs] at hfits
        obtain ⟨n, hm⟩ := hfits
        cases hpc : f.threads.unsubs t with
        | removeSubscriber => exact .inl ⟨_, rfl⟩
        | _ =>
          rw [hm, hpc] at hmutex
          cases hmutex
      | clone snap =>
        rw [hs] at hfits
        cases hpc : f.threads.unsubs t with
        | remove => exact .inl ⟨_, rfl⟩
        | _ =>
          rw [show f.mutex t = _ from hfits, hpc] at hmutex
          cases hmutex
      | found entry snap =>
        rw [hs] at hfits
        obtain ⟨id, hpc⟩ := hfits
        rw [hpc]
        have hheld : f.held t = [.trie_write] := held_eq hs
        exact lock_enabled (.nested entry snap) (.inr ⟨hheld, _, rfl⟩)
      | nested | nestedList =>
        rw [hs] at hfits
        obtain ⟨id, hpc⟩ := hfits
        rw [hpc]
        exact .inl ⟨_, rfl⟩
      | emptied | erased | leaving =>
        rw [hs] at hends
        exact absurd trivial hends

theorem work_enabled (hshaped : Shaped f) (h : f.left t ≠ 0) :
    (∃ f', f.work t [] = some f') ∨ Waits f t := by
  by_cases hsec : f.sections t = .outside
  · rw [left_eq hsec] at h
    exact outside_enabled hsec h
  · exact section_enabled hshaped hsec

/-- Who holds the mutex of a slot waits for nothing, and who holds another one
waits at most for that of a slot. -/
theorem somebody_works (hshaped : Shaped f) (hlocked : Locked f) (h : f.left t ≠ 0) :
    ∃ u f', f.work u [] = some f' := by
  have howner : ∀ {u : Tid}, f.held u ≠ [] → f.left u ≠ 0 := by
    intro u hheld hleft
    obtain ⟨-, hout⟩ := left_eq_zero hshaped hleft
    exact hheld (held_eq hout)
  have hslot : ∀ {u : Tid} {n : ℕ}, f.locks (.slot n) = some u → ∃ f', f.work u [] = some f' := by
    intro u n hu
    have hmem : Mutex.slot n ∈ f.held u := (hlocked u _).mpr hu
    cases work_enabled hshaped (howner (List.ne_nil_of_mem hmem)) with
    | inl hgo => exact hgo
    | inr hwaits =>
      obtain ⟨m, v, -, hheld⟩ := hwaits
      cases hheld with
      | inl hnone =>
        rw [hnone] at hmem
        cases hmem
      | inr htrie =>
        rw [htrie.1] at hmem
        simp at hmem
  cases work_enabled hshaped h with
  | inl hgo => exact ⟨t, hgo⟩
  | inr hwaits =>
    obtain ⟨m, u, hu, -⟩ := hwaits
    have hmem : m ∈ f.held u := (hlocked u m).mpr hu
    cases work_enabled hshaped (howner (List.ne_nil_of_mem hmem)) with
    | inl hgo => exact ⟨u, hgo⟩
    | inr hwaits =>
      obtain ⟨m', v, hv, hheld⟩ := hwaits
      cases hheld with
      | inl hnone =>
        rw [hnone] at hmem
        cases hmem
      | inr htrie =>
        obtain ⟨-, n, rfl⟩ := htrie
        exact ⟨v, hslot hv⟩

end Enabled

section Runs

variable [DecidableEq Tid] {f f' : FineSubs Tid τ η ν} {a : FineAction Tid τ η ν}

/-- The steps of a thread within `subscribe` and `unsubscribe`. -/
def FineAction.cost (t : Tid) : FineAction Tid τ η ν → ℕ
  | .work u _ => if u = t then 1 else 0
  | _ => 0

def FineAction.budget (t : Tid) : FineAction Tid τ η ν → ℕ
  | .subscribe u _ _ _ => if u = t then 12 else 0
  | .unsubscribe u _ => if u = t then 10 else 0
  | _ => 0

structure Begins (a : FineAction Tid τ η ν) (f f' : FineSubs Tid τ η ν) : Prop where
  sections : f'.sections = f.sections
  locks : f'.locks = f.locks
  inside : ∀ u, f.sections u ≠ .outside → f'.mutex u = f.mutex u ∧
    f'.threads.unsubs u = f.threads.unsubs u
  calling : ∀ u, f'.calling u ≤ f.calling u + a.budget u
  within : ∀ u, f.sections u ≠ .outside → f'.calling u = f.calling u

theorem Begins.of_eq (hsections : f'.sections = f.sections) (hlocks : f'.locks = f.locks)
    (hsubs : f'.threads.subs = f.threads.subs) (hunsubs : f'.threads.unsubs = f.threads.unsubs) :
    Begins a f f' := by
  have hcalling : ∀ u, f'.calling u = f.calling u := by
    intro u
    rw [FineSubs.calling, FineSubs.calling, hsubs, hunsubs]
  refine ⟨hsections, hlocks, fun u _ ↦ ⟨?_, congrFun hunsubs u⟩, fun u ↦ ?_, fun u _ ↦ hcalling u⟩
  · rw [FineSubs.mutex, FineSubs.mutex, hsubs, hunsubs]
  · rw [hcalling]
    exact Nat.le_add_right _ _

theorem Begins.of_call {t : Tid} (hout : f.sections t = .outside)
    (hsections : f'.sections = f.sections) (hlocks : f'.locks = f.locks)
    (hsubs : ∀ u ≠ t, f'.threads.subs u = f.threads.subs u)
    (hunsubs : ∀ u ≠ t, f'.threads.unsubs u = f.threads.unsubs u)
    (hbudget : f'.calling t ≤ a.budget t) : Begins a f f' := by
  have hsame : ∀ u ≠ t, f'.calling u = f.calling u := by
    intro u hu
    rw [FineSubs.calling, FineSubs.calling, hsubs u hu, hunsubs u hu]
  have hne : ∀ u, f.sections u ≠ .outside → u ≠ t := fun u hu he ↦ hu (he ▸ hout)
  refine ⟨hsections, hlocks, fun u hu ↦ ⟨?_, hunsubs u (hne u hu)⟩, fun u ↦ ?_,
    fun u hu ↦ hsame u (hne u hu)⟩
  · rw [FineSubs.mutex, FineSubs.mutex, hsubs u (hne u hu), hunsubs u (hne u hu)]
  · by_cases hu : u = t
    · subst hu
      exact hbudget.trans (Nat.le_add_left _ _)
    · rw [hsame u hu]
      exact Nat.le_add_right _ _

theorem Begins.left (h : Begins a f f') (t : Tid) : f'.left t ≤ f.left t + a.budget t := by
  rw [FineSubs.left, FineSubs.left, h.sections]
  by_cases hsec : f.sections t = .outside
  · rw [hsec]
    exact h.calling t
  · rw [h.within t hsec]
    exact Nat.le_add_right _ _

theorem Begins.shaped (h : Begins a f f') (hshaped : Shaped f) : Shaped f' := by
  intro u
  rw [h.sections]
  by_cases hsec : f.sections u = .outside
  · rw [hsec]
    trivial
  · rw [(h.inside u hsec).1, (h.inside u hsec).2]
    exact hshaped u

theorem Begins.locked (h : Begins a f f') (hlocked : Locked f) : Locked f' := by
  intro u m
  rw [h.locks, ← hlocked u m, FineSubs.held, FineSubs.held, h.sections]
  by_cases hsec : f.sections u = .outside
  · rw [hsec]
    exact .rfl
  · rw [(h.inside u hsec).1]

end Runs

section Machine

variable {f f' : FineSubs Tid τ η ν} {a : FineAction Tid τ η ν}

structure Working (f : FineSubs Tid τ η ν) : Prop where
  shaped : Shaped f
  locked : Locked f
  active : ∃ ts : Finset Tid, ∀ t ∉ ts, f.left t = 0

theorem working_initial : Working ({} : FineSubs Tid τ η ν) := by
  refine ⟨fun _ ↦ trivial, ?_, ∅, fun _ _ ↦ rfl⟩
  intro t m
  constructor
  · intro hheld
    exact absurd hheld List.not_mem_nil
  · intro hlocked
    cases hlocked

theorem returned_of_left (h : Working f) (hleft : ∀ t, f.left t = 0) : Returned f := by
  refine ⟨fun t ↦ (left_eq_zero h.shaped (hleft t)).1, fun t ↦ (left_eq_zero h.shaped (hleft t)).2,
    fun m ↦ ?_⟩
  cases hlock : f.locks m with
  | none => rfl
  | some u =>
    have hmem : m ∈ f.held u := (h.locked u m).mpr hlock
    rw [held_eq (left_eq_zero h.shaped (hleft u)).2] at hmem
    cases hmem

theorem mayCall_quiet {s : Subscribing Tid τ η ν} {t : Tid} (h : s.mayCall t = true) :
    s.quiet t = true := by
  rw [Subscribing.mayCall, Bool.and_eq_true] at h
  exact h.1

variable [DecidableEq Tid]

theorem subscribe_left (s : Subscribing Tid τ η ν) (t : Tid) (T : τ) (topic : Str) (handler : η) :
    (∀ u ≠ t, (s.subscribe t T topic handler).subs u = s.subs u) ∧
      (s.subscribe t T topic handler).unsubs = s.unsubs ∧
        subscribeLeft ((s.subscribe t T topic handler).subs t) ≤ 12 := by
  have hother : ∀ (pc : SubscribePc τ η) (u : Tid), u ≠ t → update s.subs t pc u = s.subs u :=
    fun _ _ hu ↦ update_of_ne hu _ _
  simp only [Subscribing.subscribe]
  split
  · split
    · refine ⟨hother _, rfl, ?_⟩
      simp [Subscribing.throw, Subscribing.goto, Subscribing.mark, subscribeLeft]
    · exact ⟨hother _, rfl, by simp [Subscribing.goto, Subscribing.mark, subscribeLeft]⟩
  · exact ⟨hother _, rfl, by simp [Subscribing.goto, Subscribing.mark, subscribeLeft]⟩

theorem budget_finite (a : FineAction Tid τ η ν) : ∃ ts : Finset Tid, ∀ t ∉ ts, a.budget t = 0 := by
  have hone : ∀ (u : Tid) (n : ℕ), ∀ t ∉ ({u} : Finset Tid), (if u = t then n else 0) = 0 := by
    intro u n t ht
    exact if_neg fun he ↦ ht (Finset.mem_singleton.mpr he.symm)
  cases a with
  | subscribe u => exact ⟨{u}, hone u 12⟩
  | unsubscribe u => exact ⟨{u}, hone u 10⟩
  | _ => exact ⟨∅, fun _ _ ↦ rfl⟩

variable [DecidableEq τ]

theorem dispatchStep_pcs {s s' : Subscribing Tid τ η ν} {a : SubAction Tid τ η ν} {t : Tid}
    (ha : a = .load t ∨ a = .call t ∨ a = .return_ t ∨ a = .finish t)
    (hs : SubscriptionThreads.step s a = some s') : s'.subs = s.subs ∧ s'.unsubs = s.unsubs := by
  obtain rfl | rfl | rfl | rfl := ha
  · obtain ⟨d, -, hs⟩ := dispatchStep_some hs
    obtain ⟨frame, -, rfl⟩ := Option.map_eq_some_iff.mp hs
    exact ⟨rfl, rfl⟩
  · obtain ⟨d, -, hs⟩ := dispatchStep_some hs
    split at hs
    · cases hs
      exact ⟨rfl, rfl⟩
    · cases hs
  · simp only [SubscriptionThreads.step] at hs
    repeat' split at hs
    all_goals cases hs
    exact ⟨rfl, rfl⟩
  · obtain ⟨d, -, hs⟩ := dispatchStep_some hs
    split at hs
    · cases hs
      exact ⟨rfl, rfl⟩
    · cases hs

theorem step_begins (hs : FineSubscriptions.step f a = some f') :
    (∃ t way, a = .work t way ∧ Works t f f') ∨ (∀ t, a.cost t = 0) ∧ Begins a f f' := by
  cases a with
  | work t way => exact .inl ⟨t, way, rfl, work_works hs⟩
  | subscribe t T topic handler =>
    refine .inr ⟨fun _ ↦ rfl, ?_⟩
    simp only [FineSubscriptions.step] at hs
    split at hs
    · rename_i hout
      obtain ⟨s, hrun, rfl⟩ := lift_some hs
      simp only [SubscriptionThreads.step] at hrun
      split at hrun
      · rename_i hmay
        cases hrun
        have hquiet := mayCall_quiet hmay
        obtain ⟨hsubs, hunsubs, hleft⟩ := subscribe_left f.threads t T topic handler
        refine .of_call (outside_of hout) rfl rfl hsubs (fun u _ ↦ congrFun hunsubs u) ?_
        simp only [FineSubs.calling, hunsubs, (quiet_iff.mp hquiet).2, FineAction.budget, if_true]
        exact hleft
      · cases hrun
    · cases hs
  | unsubscribe t id =>
    refine .inr ⟨fun _ ↦ rfl, ?_⟩
    simp only [FineSubscriptions.step] at hs
    split at hs
    · rename_i hout
      obtain ⟨s, hrun, rfl⟩ := lift_some hs
      simp only [SubscriptionThreads.step] at hrun
      split at hrun
      · rename_i hmay
        cases hrun
        have hquiet : f.threads.quiet t = true := mayCall_quiet (Bool.and_eq_true_iff.mp hmay).1
        refine .of_call (outside_of hout) rfl rfl (fun _ _ ↦ rfl)
          (fun u hu ↦ update_of_ne hu _ _) ?_
        simp [FineSubs.calling, Subscribing.goto', (quiet_iff.mp hquiet).1, subscribeLeft,
          unsubscribeLeft, FineAction.budget]
      · cases hrun
    · cases hs
  | publish T topic data =>
    obtain ⟨s, hrun, rfl⟩ := lift_some hs
    cases hrun
    exact .inr ⟨fun _ ↦ rfl, .of_eq rfl rfl rfl rfl⟩
  | dispatch t n =>
    refine .inr ⟨fun _ ↦ rfl, ?_⟩
    simp only [FineSubscriptions.step] at hs
    split at hs
    · obtain ⟨s, hrun, rfl⟩ := lift_some hs
      simp only [SubscriptionThreads.step] at hrun
      repeat' split at hrun
      all_goals cases hrun
      exact .of_eq rfl rfl rfl rfl
    · cases hs
  | load t =>
    obtain ⟨s, hrun, rfl⟩ := Option.map_eq_some_iff.mp hs
    obtain ⟨hsubs, hunsubs⟩ := dispatchStep_pcs (.inl rfl) hrun
    exact .inr ⟨fun _ ↦ rfl, .of_eq rfl rfl hsubs hunsubs⟩
  | call t =>
    obtain ⟨s, hrun, rfl⟩ := lift_some hs
    obtain ⟨hsubs, hunsubs⟩ := dispatchStep_pcs (.inr (.inl rfl)) hrun
    exact .inr ⟨fun _ ↦ rfl, .of_eq rfl rfl hsubs hunsubs⟩
  | return_ t =>
    refine .inr ⟨fun _ ↦ rfl, ?_⟩
    simp only [FineSubscriptions.step] at hs
    split at hs
    · obtain ⟨s, hrun, rfl⟩ := lift_some hs
      obtain ⟨hsubs, hunsubs⟩ := dispatchStep_pcs (.inr (.inr (.inl rfl))) hrun
      exact .of_eq rfl rfl hsubs hunsubs
    · cases hs
  | finish t =>
    obtain ⟨g, hlift, rfl⟩ := Option.map_eq_some_iff.mp hs
    obtain ⟨s, hrun, rfl⟩ := lift_some hlift
    obtain ⟨hsubs, hunsubs⟩ := dispatchStep_pcs (.inr (.inr (.inr rfl))) hrun
    exact .inr ⟨fun _ ↦ rfl, .of_eq rfl rfl hsubs hunsubs⟩

theorem Works.left_of_ne {t u : Tid} (hw : Works t f f') (hu : u ≠ t) : f'.left u = f.left u := by
  have helse := hw.elsewhere
  rw [FineSubs.left, FineSubs.left, helse.sections u hu, FineSubs.calling, FineSubs.calling,
    helse.subs u hu, helse.unsubs u hu]

theorem step_budget (hshaped : Shaped f) (hs : FineSubscriptions.step f a = some f') (t : Tid) :
    a.cost t + f'.left t ≤ f.left t + a.budget t := by
  cases step_begins hs with
  | inl hwork =>
    obtain ⟨u, way, rfl, hw⟩ := hwork
    by_cases hu : u = t
    · subst hu
      have hlt := hw.left hshaped
      simp only [FineAction.cost, FineAction.budget, if_true]
      omega
    · rw [hw.left_of_ne fun he ↦ hu he.symm]
      simp [FineAction.cost, hu]
  | inr hbegins =>
    rw [hbegins.1 t, Nat.zero_add]
    exact hbegins.2.left t

theorem step_shaped (hs : FineSubscriptions.step f a = some f') (hshaped : Shaped f) :
    Shaped f' := by
  cases step_begins hs with
  | inl hwork =>
    obtain ⟨u, way, -, hw⟩ := hwork
    exact hw.shaped hshaped
  | inr hbegins => exact hbegins.2.shaped hshaped

theorem step_locked (hs : FineSubscriptions.step f a = some f') (hlocked : Locked f) :
    Locked f' := by
  cases step_begins hs with
  | inl hwork =>
    obtain ⟨u, way, -, hw⟩ := hwork
    exact hw.locked hlocked
  | inr hbegins => exact hbegins.2.locked hlocked

theorem working_step (h : Working f) (hs : FineSubscriptions.step f a = some f') : Working f' := by
  refine ⟨step_shaped hs h.shaped, step_locked hs h.locked, ?_⟩
  obtain ⟨ts, hts⟩ := h.active
  obtain ⟨us, hus⟩ := budget_finite a
  refine ⟨ts ∪ us, fun t ht ↦ ?_⟩
  rw [Finset.mem_union, not_or] at ht
  have hbudget := step_budget h.shaped hs t
  rw [hts t ht.1, hus t ht.2] at hbudget
  omega

/-- The threads that are in a call take their steps until all calls have returned. -/
theorem work_returns (h : Working f) : ∃ as g, (∀ a ∈ as, ∃ t way, a = FineAction.work t way) ∧
    (machine Tid τ η ν).run f as = some g ∧ Returned g := by
  obtain ⟨ts, hts⟩ := h.active
  have hstep : ∀ f : FineSubs Tid τ η ν, Working f ∧ (∀ t ∉ ts, f.left t = 0) →
      (¬ ∀ t, f.left t = 0) → ∃ a g, (∃ t way, a = FineAction.work t way) ∧
        (machine Tid τ η ν).step f a = some g ∧ (Working g ∧ ∀ t ∉ ts, g.left t = 0) ∧
          ∑ t ∈ ts, g.left t < ∑ t ∈ ts, f.left t := by
    intro f ⟨hf, hout⟩ hnot
    obtain ⟨t, ht⟩ := not_forall.mp hnot
    obtain ⟨u, g, hg⟩ := somebody_works hf.shaped hf.locked ht
    have hw := work_works hg
    have hlt := hw.left hf.shaped
    have hmem : u ∈ ts := by
      by_contra hu
      rw [hout u hu] at hlt
      cases hlt
    have hle : ∀ t, g.left t ≤ f.left t := by
      intro t
      by_cases he : t = u
      · exact he ▸ hlt.le
      · exact (hw.left_of_ne he).le
    refine ⟨.work u [], g, ⟨u, [], rfl⟩, hg, ⟨working_step hf (a := .work u []) hg, fun t ht ↦ ?_⟩,
      Finset.sum_lt_sum (fun t _ ↦ hle t) ⟨u, hmem, hlt⟩⟩
    have hzero := hle t
    rw [hout t ht] at hzero
    exact Nat.le_zero.mp hzero
  obtain ⟨as, g, has, -, hrun, ⟨hg, -⟩, hdone⟩ := Machine.run_until _ _ hstep ⟨h, hts⟩
  exact ⟨as, g, has, hrun, returned_of_left hg hdone⟩

end Machine

/-- The mutexes never make the writers wait for each other in a circle: in every
run a call takes at most 12 or 10 steps, somebody can go on unless all calls have
returned, and then nothing is locked. -/
theorem calls_return [DecidableEq Tid] [DecidableEq τ] {as : List (FineAction Tid τ η ν)}
    {f : FineSubs Tid τ η ν} (hrun : (machine Tid τ η ν).run {} as = some f) :
    (∀ t, (as.map (FineAction.cost t)).sum ≤ (as.map (FineAction.budget t)).sum) ∧
      ((∀ t way, f.work t way = none) → Returned f) ∧
      ∃ bs g, (∀ b ∈ bs, ∃ t way, b = FineAction.work t way) ∧
        (machine Tid τ η ν).run f bs = some g ∧ Returned g := by
  have hworking : Working f :=
    Machine.run_invariant (P := Working) (fun _ _ _ h hs ↦ working_step h hs) working_initial as
      hrun
  refine ⟨fun t ↦ ?_, fun hstuck ↦ ?_, work_returns hworking⟩
  · have hinit : Shaped ({} : FineSubs Tid τ η ν) := fun _ ↦ trivial
    have hbudget := Machine.run_budget (M := machine Tid τ η ν) (P := Shaped) (Q := fun _ ↦ True)
      (p := fun _ ↦ 0) (fun _ _ _ _ _ ↦ trivial)
      (fun _ _ _ h _ hs ↦ ⟨step_shaped hs h, step_budget h hs t⟩) hinit trivial as hrun
    have hzero : ({} : FineSubs Tid τ η ν).left t = 0 := rfl
    omega
  · refine returned_of_left hworking fun t ↦ ?_
    by_contra ht
    obtain ⟨u, g, hg⟩ := somebody_works hworking.shaped hworking.locked ht
    rw [hstuck u []] at hg
    cases hg

def lockedTwice : List (FineAction Bool Unit ℕ ℕ) :=
  .subscribe true () ['#'] 10 :: List.replicate 5 (.work true []) ++ [.unsubscribe true 1] ++
    List.replicate 5 (.work true []) ++ .subscribe false () ['*'] 20 :: []

theorem lockedTwice_run : ((machine Bool Unit ℕ ℕ).run {} lockedTwice).map (fun f ↦
    (f.locks .trie_write, f.locks (.slot 0), (f.work false []).isNone)) =
      some (some true, some true, true) := by
  decide +kernel

theorem calls_return_lockedTwice : ∃ f : FineSubs Bool Unit ℕ ℕ,
    f.locks .trie_write = some true ∧ f.work false [] = none ∧
      ∃ bs g, (∀ b ∈ bs, ∃ t way, b = FineAction.work t way) ∧
        (machine Bool Unit ℕ ℕ).run f bs = some g ∧ Returned g := by
  obtain ⟨f, hrun, he⟩ := Option.map_eq_some_iff.mp lockedTwice_run
  simp only [Prod.mk.injEq] at he
  exact ⟨f, he.1, Option.isNone_iff_eq_none.mp he.2.2, (calls_return hrun).2.2⟩

end LivioArk.Msgbus.FineSubscriptions
