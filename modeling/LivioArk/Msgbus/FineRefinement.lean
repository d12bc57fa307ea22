import LivioArk.Msgbus.FineSteps

namespace LivioArk.Msgbus.FineSubscriptions

open Function LivioArk.Library.Transition LivioArk.Library.PrefixTree LivioArk.Library.Thinning
open Levels TopicMatcher TopicRegistry WildcardTrie Subscriptions SubStore Dispatching
open SubscriptionThreads Delivery

variable {Tid τ η ν : Type}

section Loads

variable [DecidableEq τ] {f : FineSubs Tid τ η ν} {D : Tid → Option (Dispatch τ η ν)}
variable {d d' : Dispatch τ η ν} {frame : Frame τ η ν} {t : Tid}

/-- Until a removal has published its trie, a walk still finds the slot that has
nobody left. -/
theorem Simulates.match_ (h : Simulates f D) (topic : Str) (T : τ) :
    Thinned (Orphan f.view) (match_ topic T f.threads.bus.wildcard_trie_)
      (match_ topic T f.visible) := by
  by_cases hnone : ∀ u, (f.sections u).pending = none
  · rw [visible_free hnone]
    exact Thinned.refl _
  · push Not at hnone
    obtain ⟨u, hu⟩ := hnone
    obtain ⟨snap, hsnap⟩ := Option.ne_none_iff_exists'.mp hu
    have hgone : ∃ entry id, remove id f.threads.bus.wildcard_trie_ = some (entry, snap) ∧
        Orphan f.view entry.slot ∧ Counted f.threads.bus.wildcard_trie_ := by
      have hcurrent := h.current u
      cases hsec : f.sections u with
      | emptied entry snap' =>
        rw [hsec] at hsnap hcurrent
        cases hsnap
        obtain ⟨⟨id, hr⟩, ho, hcount⟩ := hcurrent
        exact ⟨entry, id, hr, ho, hcount⟩
      | erased snap' =>
        rw [hsec] at hsnap hcurrent
        cases hsnap
        obtain ⟨entry, ⟨id, hr⟩, ho, hcount⟩ := hcurrent
        exact ⟨entry, id, hr, ho, hcount⟩
      | _ =>
        rw [hsec] at hsnap
        cases hsnap
    obtain ⟨entry, id, hr, ho, hcount⟩ := hgone
    rw [visible_pending h.locked hsnap]
    have hthin : Without entry (WildcardTrie.match_ topic T f.threads.bus.wildcard_trie_)
        (WildcardTrie.match_ topic T snap) := match_removed hcount.valid hcount.count hr topic T
    refine hthin.mono fun n hn ↦ ?_
    rw [hn]
    exact ho

/-- A load is matched by a load, or it comes to a slot that has nobody left. -/
theorem Simulates.loads (h : Simulates f D) (htracks : Tracks (f.coarse D))
    (hlags : Lags f.view d d') (hload : d.frame.load f.threads.bus = some frame) (gone : List ℕ) :
    (∃ frame', d'.frame.load f.view = some frame' ∧
      Lags f.view { d with frame, gone } { d' with frame := frame', gone }) ∨
        Lags f.view { d with frame, gone } d' := by
  obtain ⟨⟨msg, exact, wildcards, slots, subs⟩, handling, due, gone₀, invoked⟩ := d
  obtain ⟨⟨msg', exact', wildcards', slots', subs'⟩, handling', due', gone', invoked'⟩ := d'
  obtain ⟨hmsg, hexact, hwildcards, hslots, hsubs, hhandling, hdue, hinvoked, -⟩ := hlags
  simp only at hmsg hexact hwildcards hslots hsubs hhandling hdue hinvoked
  subst hmsg hexact hwildcards hsubs hhandling hdue hinvoked
  cases subs' with
  | cons sub subs => cases hload
  | nil =>
    cases slots with
    | cons n slots =>
      cases hload
      cases hslots.cons_cases with
      | inl hkept =>
        obtain ⟨rest, rfl, hrest⟩ := hkept
        exact .inl ⟨_, rfl, ⟨rfl, rfl, rfl, hrest, rfl, rfl, rfl, rfl, fun _ ↦ rfl⟩⟩
      | inr hskipped =>
        -- the list of the slot is empty
        obtain ⟨ho, hrest⟩ := hskipped
        have hnil : (f.threads.bus.heap n).subscribers_ = [] :=
          htracks.stored.orphans n ho.slots ho.entries
        refine .inr ⟨rfl, rfl, rfl, hrest, hnil.symm, rfl, rfl, rfl, fun hne ↦ absurd hnil hne⟩
    | nil =>
      obtain rfl := hslots.eq_nil
      cases exact' with
      | true =>
        cases hload
        exact .inl ⟨_, rfl, ⟨rfl, rfl, rfl, Thinned.refl _, rfl, rfl, rfl, rfl, fun _ ↦ rfl⟩⟩
      | false =>
        cases wildcards' with
        | true =>
          cases hload
          exact .inl ⟨_, rfl, ⟨rfl, rfl, rfl, h.match_ _ _, rfl, rfl, rfl, rfl, fun _ ↦ rfl⟩⟩
        | false => cases hload

end Loads

section Actions

variable {f f' : FineSubs Tid τ η ν} {D D' : Tid → Option (Dispatch τ η ν)} {t : Tid}

theorem simulates_initial :
    Simulates ({} : FineSubs Tid τ η ν) (fun _ ↦ none) where
  locked := by
    intro t m
    constructor
    · intro hheld
      exact absurd hheld List.not_mem_nil
    · intro hlocked
      cases hlocked
  current _ := trivial
  lags _ := .none

theorem Simulates.mayCall (h : Simulates f D) (t : Tid) :
    (f.coarse D).mayCall t = f.threads.mayCall t := by
  have hlags := h.lags t
  have hquiet : (f.coarse D).quiet t = f.threads.quiet t := rfl
  have hsame : (f.coarse D).dispatches t = D t := rfl
  rw [Subscribing.mayCall, Subscribing.mayCall, hquiet, hsame]
  revert hlags
  generalize f.threads.dispatches t = d, D t = d'
  intro hlags
  cases hlags with
  | none => rfl
  | some hlags => simp only [hlags.handling]

theorem Simulates.around (h : Simulates f D) (hsections : f'.sections = f.sections)
    (hlocks : f'.locks = f.locks)
    (hplain : Plain { f.threads with dispatches := f'.threads.dispatches } f'.threads)
    (hpcs : ∀ u, f.sections u ≠ .outside →
      f'.threads.subs u = f.threads.subs u ∧ f'.threads.unsubs u = f.threads.unsubs u)
    (hlags : ∀ u, Option.Rel (Lags f.view) (f'.threads.dispatches u) (D' u)) :
    f'.visible = f.visible ∧ Simulates f' D' := by
  have hvisible : f'.visible = f.visible := by
    rw [FineSubs.visible, FineSubs.visible, hlocks, hsections, hplain.trie]
  have horphan : ∀ n, Orphan f.view n → Orphan f'.view n := by
    intro n hn
    refine hn.of_eq hplain.allocated hplain.slots fun y hy ↦ ?_
    rw [FineSubs.view, hvisible] at hy
    exact hy
  have hmutex : ∀ u, f.sections u ≠ .outside → f'.mutex u = f.mutex u := by
    intro u hu
    rw [FineSubs.mutex, FineSubs.mutex, (hpcs u hu).1, (hpcs u hu).2]
  refine ⟨hvisible, fun u m ↦ ?_, fun u ↦ ?_, fun u ↦ ?_⟩
  · rw [hlocks, ← h.locked u m, FineSubs.held, FineSubs.held, hsections]
    by_cases hu : f.sections u = .outside
    · rw [hu]
      exact .rfl
    · rw [hmutex u hu]
  · rw [hsections]
    by_cases hu : f.sections u = .outside
    · rw [hu]
      trivial
    · exact (h.current u).spared rfl (hmutex u hu) (hpcs u hu).2 (fun m _ ↦ hplain.same m)
        (Nat.le_of_eq hplain.allocated.symm) horphan
  · have hu := hlags u
    revert hu
    generalize f'.threads.dispatches u = d, D' u = d'
    intro hu
    cases hu with
    | none => exact .none
    | some hu => exact .some (hu.mono horphan)

theorem Simulates.lags_update [DecidableEq Tid] (h : Simulates f D) {d e : Option (Dispatch τ η ν)}
    (hd : Option.Rel (Lags f.view) d e) (u : Tid) :
    Option.Rel (Lags f.view) (update f.threads.dispatches t d u) (update D t e u) := by
  by_cases hu : u = t
  · subst hu
    rw [update_self, update_self]
    exact hd
  · rw [update_of_ne hu, update_of_ne hu]
    exact h.lags u

theorem Simulates.dispatch_some (h : Simulates f D) {d : Dispatch τ η ν}
    (hd : f.threads.dispatches t = some d) : ∃ d', D t = some d' ∧ Lags f.view d d' := by
  have hlags := h.lags t
  rw [hd] at hlags
  generalize D t = d' at hlags ⊢
  cases hlags with
  | some hlags => exact ⟨_, rfl, hlags⟩

theorem subscribe_viewed [DecidableEq Tid] [DecidableEq τ] (s : Subscribing Tid τ η ν)
    (trie : Snapshot τ ℕ) (D : Tid → Option (Dispatch τ η ν)) (t : Tid) (T : τ) (topic : Str)
    (handler : η) :
    (viewed s trie D).subscribe t T topic handler =
      viewed (s.subscribe t T topic handler) trie D := by
  simp only [Subscribing.subscribe]
  split
  · split <;> rfl
  · rfl

theorem subscribe_plain [DecidableEq Tid] [DecidableEq τ] (s : Subscribing Tid τ η ν)
    (t : Tid) (T : τ) (topic : Str) (handler : η) : Plain s (s.subscribe t T topic handler) ∧
      (∀ u ≠ t, (s.subscribe t T topic handler).subs u = s.subs u) ∧
        (s.subscribe t T topic handler).unsubs = s.unsubs := by
  simp only [Subscribing.subscribe]
  split
  · split <;>
      exact ⟨⟨rfl, rfl, rfl, rfl, rfl⟩, fun u hu ↦ update_of_ne hu _ _, rfl⟩
  · exact ⟨⟨rfl, rfl, rfl, rfl, rfl⟩, fun u hu ↦ update_of_ne hu _ _, rfl⟩

end Actions

section Machine

variable [DecidableEq Tid] [DecidableEq τ] {f f' : FineSubs Tid τ η ν}
variable {D D' : Tid → Option (Dispatch τ η ν)} {t : Tid} {strict : Bool}

theorem Simulates.step {s : Subscribing Tid τ η ν} {guards : Tid → Guard τ} (h : Simulates f D)
    {a : SubAction Tid τ η ν} (hf' : f' = { f with threads := s, guards })
    (hplain : Plain { f.threads with dispatches := s.dispatches } s)
    (hpcs : ∀ u, f.sections u ≠ .outside →
      s.subs u = f.threads.subs u ∧ s.unsubs u = f.threads.unsubs u)
    (hlags : ∀ u, Option.Rel (Lags f.view) (s.dispatches u) (D' u))
    (hok : strict = true → Undisputed (f.coarse D) a)
    (hstep : SubscriptionThreads.step (f.coarse D) a = some (viewed s f.visible D')) :
    ∃ D', Coarsely strict (f.coarse D) (f'.coarse D') ∧ Simulates f' D' := by
  have hsections : f'.sections = f.sections := by rw [hf']
  have hthreads : f'.threads = s := by rw [hf']
  subst hthreads
  obtain ⟨hvisible, hsim⟩ := h.around hsections (by rw [hf']) hplain hpcs hlags
  refine ⟨D', ?_, hsim⟩
  rw [← hvisible] at hstep
  exact .one (b := a) hok hstep

omit [DecidableEq Tid] [DecidableEq τ] in
theorem dispatchStep_eq {s s' : Subscribing Tid τ η ν}
    {g : Dispatch τ η ν → Option (Subscribing Tid τ η ν)} (hs : s.dispatchStep t g = some s') :
    ∃ d, s.dispatches t = some d ∧ d.handling = false ∧ g d = some s' := by
  rw [Subscribing.dispatchStep] at hs
  cases hd : s.dispatches t with
  | none => simp [hd] at hs
  | some d =>
    simp only [hd] at hs
    split at hs
    · cases hs
    · rename_i hhandling
      exact ⟨d, rfl, by simpa using hhandling, hs⟩

omit [DecidableEq Tid] [DecidableEq τ] in
theorem dispatchStep_of {s : Subscribing Tid τ η ν} {d : Dispatch τ η ν}
    (g : Dispatch τ η ν → Option (Subscribing Tid τ η ν)) (hd : s.dispatches t = some d)
    (hhandling : d.handling = false) : s.dispatchStep t g = g d := by
  rw [Subscribing.dispatchStep, hd]
  simp only [hhandling, Bool.false_eq_true, if_false]

theorem Simulates.subscribe {T : τ} {topic : Str} {handler : η} (h : Simulates f D)
    (hs : FineSubscriptions.step f (.subscribe t T topic handler) = some f') :
    ∃ D', Coarsely strict (f.coarse D) (f'.coarse D') ∧ Simulates f' D' := by
  simp only [FineSubscriptions.step] at hs
  split at hs
  · rename_i hout
    obtain ⟨s, hrun, rfl⟩ := lift_some hs
    simp only [SubscriptionThreads.step] at hrun
    split at hrun
    · rename_i hmay
      cases hrun
      obtain ⟨hplain, hsubs, hunsubs⟩ := subscribe_plain f.threads t T topic handler
      have hlags : ∀ u, Option.Rel (Lags f.view)
          ((f.threads.subscribe t T topic handler).dispatches u) (D u) := by
        rw [hplain.dispatches]
        exact h.lags
      have hsub : (f.coarse D).subscribe t T topic handler =
          viewed (f.threads.subscribe t T topic handler) f.visible D := subscribe_viewed ..
      refine h.step (a := .subscribe t T topic handler) rfl ?_ (fun u hu ↦ ?_) hlags
        (fun _ ↦ trivial) ?_
      · exact ⟨rfl, hplain.slots, hplain.heap, hplain.trie, hplain.allocated⟩
      · have hne : u ≠ t := fun he ↦ hu (he ▸ outside_of hout)
        exact ⟨hsubs u hne, congrFun hunsubs u⟩
      · simp only [SubscriptionThreads.step, h.mayCall, hmay, if_true, hsub]
    · cases hrun
  · cases hs

theorem Simulates.unsubscribe {id : ℕ} (h : Simulates f D)
    (hs : FineSubscriptions.step f (.unsubscribe t id) = some f') :
    ∃ D', Coarsely strict (f.coarse D) (f'.coarse D') ∧ Simulates f' D' := by
  simp only [FineSubscriptions.step] at hs
  split at hs
  · rename_i hout
    obtain ⟨s, hrun, rfl⟩ := lift_some hs
    simp only [SubscriptionThreads.step] at hrun
    split at hrun
    · rename_i hmay
      cases hrun
      have hsame : (f.coarse D).returned = f.threads.returned := rfl
      refine h.step (a := .unsubscribe t id) rfl ⟨rfl, rfl, rfl, rfl, rfl⟩ (fun u hu ↦ ?_) h.lags
        (fun _ ↦ trivial) ?_
      · have hne : u ≠ t := fun he ↦ hu (he ▸ outside_of hout)
        exact ⟨rfl, update_of_ne hne _ _⟩
      · simp only [SubscriptionThreads.step, h.mayCall, hsame, hmay, if_true]
        rfl
    · cases hrun
  · cases hs

theorem Simulates.publishes {T : τ} {topic : Str} {data : ν} (h : Simulates f D)
    (hs : FineSubscriptions.step f (.publish T topic data) = some f') :
    ∃ D', Coarsely strict (f.coarse D) (f'.coarse D') ∧ Simulates f' D' := by
  obtain ⟨s, hrun, rfl⟩ := lift_some hs
  cases hrun
  exact h.step (a := .publish T topic data) rfl ⟨rfl, rfl, rfl, rfl, rfl⟩ (fun _ _ ↦ ⟨rfl, rfl⟩)
    h.lags (fun _ ↦ trivial) rfl

theorem Simulates.dispatch {n : ℕ} (h : Simulates f D)
    (hs : FineSubscriptions.step f (.dispatch t n) = some f') :
    ∃ D', Coarsely strict (f.coarse D) (f'.coarse D') ∧ Simulates f' D' := by
  simp only [FineSubscriptions.step] at hs
  split at hs
  · obtain ⟨s, hrun, rfl⟩ := lift_some hs
    simp only [SubscriptionThreads.step] at hrun
    split at hrun
    · rename_i msg hmsg
      split at hrun
      · rename_i hfree
        cases hrun
        have hquiet : (f.coarse D).quiet t = f.threads.quiet t := rfl
        have hpublished : (f.coarse D).published = f.threads.published := rfl
        have hnone : (D t).isNone = (f.threads.dispatches t).isNone := by
          have hlags := h.lags t
          revert hlags
          generalize f.threads.dispatches t = d, D t = d'
          intro hlags
          cases hlags <;> rfl
        have hsame : (f.coarse D).dispatches t = D t := rfl
        refine h.step (a := .dispatch t n) rfl ⟨rfl, rfl, rfl, rfl, rfl⟩ (fun _ _ ↦ ⟨rfl, rfl⟩)
          (h.lags_update (t := t) (e := some { frame := { msg }, due := f.threads.returned }) ?_)
          (fun _ ↦ trivial) ?_
        · exact .some ⟨rfl, rfl, rfl, Thinned.refl _, rfl, rfl, rfl, rfl, fun _ ↦ rfl⟩
        · simp only [SubscriptionThreads.step, hpublished, hmsg, hquiet, hsame, hnone, hfree,
            if_true]
          rfl
      · cases hrun
    · cases hrun
  · cases hs

theorem Simulates.loadStep (h : Simulates f D) (htracks : Tracks (f.coarse D))
    (hs : FineSubscriptions.step f (.load t) = some f') :
    ∃ D', Coarsely strict (f.coarse D) (f'.coarse D') ∧ Simulates f' D' := by
  obtain ⟨s, hs, hf'⟩ := Option.map_eq_some_iff.mp hs
  obtain ⟨d, hd, hhandling, hs⟩ := dispatchStep_eq hs
  obtain ⟨frame, hframe, rfl⟩ := Option.map_eq_some_iff.mp hs
  obtain ⟨d', hd', hlags⟩ := h.dispatch_some hd
  cases h.loads htracks hlags hframe f.threads.gone with
  | inl hload =>
    obtain ⟨frame', hframe', hlags'⟩ := hload
    refine h.step (a := .load t) hf'.symm ⟨rfl, rfl, rfl, rfl, rfl⟩ (fun _ _ ↦ ⟨rfl, rfl⟩)
      (h.lags_update (t := t) (.some hlags')) (fun _ ↦ trivial) ?_
    have hdcoarse : (f.coarse D).dispatches t = some d' := hd'
    have hbus : (f.coarse D).bus = f.view := rfl
    rw [SubscriptionThreads.step, dispatchStep_of _ hdcoarse (hlags.handling.trans hhandling), hbus,
      hframe']
    rfl
  | inr hskip =>
    have hlags' : ∀ u, Option.Rel (Lags f.view) (f'.threads.dispatches u) (D u) := by
      intro u
      have hafter := h.lags_update (t := t) (.some hskip) u
      rw [← hd', update_eq_self] at hafter
      rw [← hf']
      exact hafter
    have hsections : f'.sections = f.sections := by rw [← hf']
    obtain ⟨hvisible, hsim⟩ := h.around hsections (by rw [← hf'])
      (by rw [← hf']; exact ⟨rfl, rfl, rfl, rfl, rfl⟩)
      (fun _ _ ↦ by rw [← hf']; exact ⟨rfl, rfl⟩) hlags'
    have hcoarse : f'.coarse D = f.coarse D := by
      rw [FineSubs.coarse, FineSubs.coarse, hvisible, ← hf']
      rfl
    exact ⟨D, hcoarse ▸ .refl _, hsim⟩

theorem Simulates.call (h : Simulates f D)
    (hs : FineSubscriptions.step f (.call t) = some f') :
    ∃ D', Coarsely strict (f.coarse D) (f'.coarse D') ∧ Simulates f' D' := by
  obtain ⟨s, hrun, rfl⟩ := lift_some hs
  obtain ⟨d, hd, hhandling, hrun⟩ := dispatchStep_eq hrun
  obtain ⟨d', hd', hlags⟩ := h.dispatch_some hd
  split at hrun
  · rename_i sub subs hsubs
    cases hrun
    have hsubs' : d'.frame.subs = sub :: subs := hlags.subs.trans hsubs
    have hgone : d'.gone = d.gone := hlags.gone (by rw [hsubs]; exact List.cons_ne_nil _ _)
    have hdcoarse : (f.coarse D).dispatches t = some d' := hd'
    have hcall : Lags f.view
        { d with
          frame := { d.frame with subs }
          handling := true
          invoked := d.invoked ++ [⟨sub.id, sub.handler, d.frame.msg.data_⟩] }
        { d' with
          frame := { d'.frame with subs }
          handling := true
          invoked := d'.invoked ++ [⟨sub.id, sub.handler, d'.frame.msg.data_⟩] } := {
      msg := hlags.msg
      exact := hlags.exact
      wildcards := hlags.wildcards
      slots := hlags.slots
      subs := rfl
      handling := rfl
      due := hlags.due
      invoked := by rw [hlags.invoked, hlags.msg]
      gone := fun _ ↦ hgone }
    refine h.step (a := .call t) rfl ⟨rfl, rfl, rfl, rfl, rfl⟩ (fun _ _ ↦ ⟨rfl, rfl⟩)
      (h.lags_update (t := t) (.some hcall)) (fun _ ↦ trivial) ?_
    rw [SubscriptionThreads.step, dispatchStep_of _ hdcoarse (hlags.handling.trans hhandling)]
    simp only [hsubs', Subscribing.call, hgone, hlags.msg]
    rfl
  · cases hrun

theorem Simulates.return_ (h : Simulates f D)
    (hs : FineSubscriptions.step f (.return_ t) = some f') :
    ∃ D', Coarsely strict (f.coarse D) (f'.coarse D') ∧ Simulates f' D' := by
  simp only [FineSubscriptions.step] at hs
  split at hs
  · obtain ⟨s, hrun, rfl⟩ := lift_some hs
    simp only [SubscriptionThreads.step] at hrun
    split at hrun
    · rename_i d hd
      split at hrun
      · rename_i hhandling
        cases hrun
        obtain ⟨d', hd', hlags⟩ := h.dispatch_some hd
        have hdcoarse : (f.coarse D).dispatches t = some d' := hd'
        have hquiet : (f.coarse D).quiet t = f.threads.quiet t := rfl
        refine h.step (a := .return_ t) rfl ⟨rfl, rfl, rfl, rfl, rfl⟩ (fun _ _ ↦ ⟨rfl, rfl⟩)
          (h.lags_update (t := t) (e := some { d' with handling := false }) (.some ?_))
          (fun _ ↦ trivial) ?_
        · exact { hlags with handling := rfl }
        · simp only [SubscriptionThreads.step, hdcoarse, hlags.handling, hquiet, hhandling, if_true]
          rfl
      · cases hrun
    · cases hrun
  · cases hs

theorem Simulates.finish (h : Simulates f D)
    (hs : FineSubscriptions.step f (.finish t) = some f') :
    ∃ D', Coarsely strict (f.coarse D) (f'.coarse D') ∧ Simulates f' D' := by
  obtain ⟨g, hlift, rfl⟩ := Option.map_eq_some_iff.mp hs
  obtain ⟨s, hrun, rfl⟩ := lift_some hlift
  obtain ⟨d, hd, hhandling, hrun⟩ := dispatchStep_eq hrun
  obtain ⟨d', hd', hlags⟩ := h.dispatch_some hd
  split at hrun
  · rename_i hfinished
    cases hrun
    have hdcoarse : (f.coarse D).dispatches t = some d' := hd'
    have hfinished' : d'.frame.finished = true := by
      obtain ⟨hexact, hwildcards, hslots, hsubs⟩ := finished_eq hfinished
      have hnil := hslots ▸ hlags.slots
      rw [Frame.finished, hlags.exact, hlags.wildcards, hlags.subs, hnil.eq_nil, hexact, hwildcards,
        hsubs]
      rfl
    have hnone : Option.Rel (Lags f.view) (none : Option (Dispatch τ η ν)) none := .none
    refine h.step (a := .finish t) rfl ⟨rfl, rfl, rfl, rfl, rfl⟩ (fun _ _ ↦ ⟨rfl, rfl⟩)
      (h.lags_update (t := t) hnone) (fun _ ↦ trivial) ?_
    rw [SubscriptionThreads.step, dispatchStep_of _ hdcoarse (hlags.handling.trans hhandling)]
    simp only [hfinished', if_true, hlags.msg, hlags.due, hlags.invoked]
    rfl
  · cases hrun

theorem step_simulates {a : FineAction Tid τ η ν} (h : Simulates f D)
    (htracks : Tracks (f.coarse D)) (hcalm : strict = true → Calm f a)
    (hs : FineSubscriptions.step f a = some f') :
    ∃ D', Coarsely strict (f.coarse D) (f'.coarse D') ∧ Simulates f' D' := by
  cases a with
  | subscribe => exact h.subscribe hs
  | unsubscribe => exact h.unsubscribe hs
  | work => exact ⟨D, (work_works hs).simulates h htracks hcalm⟩
  | publish => exact h.publishes hs
  | dispatch => exact h.dispatch hs
  | load => exact h.loadStep htracks hs
  | call => exact h.call hs
  | return_ => exact h.return_ hs
  | finish => exact h.finish hs

theorem Works.calls (hw : Works t f f') :
    f'.threads.calls = f.threads.calls ∧ f'.threads.topics = f.threads.topics := by
  cases hw with
  | subscribe _ _ _ hs => exact (subscribeStep_calls hs).2
  | unsubscribe _ _ hs => exact unsubscribeStep_calls hs
  | createSlot =>
    rw [FineSubs.createSlotWork]
    repeat' split
    all_goals exact ⟨rfl, rfl⟩
  | removeFrom =>
    rw [FineSubs.removeFromWork]
    split
    · exact ⟨rfl, rfl⟩
    · exact ⟨rfl, rfl⟩
  | _ => exact ⟨rfl, rfl⟩

theorem small_of_step {a : FineAction Tid τ η ν} (hsmall : SubscriptionThreads.Small f'.threads)
    (hs : FineSubscriptions.step f a = some f') : SubscriptionThreads.Small f.threads := by
  have hlift : ∀ {a : SubAction Tid τ η ν} {s : Subscribing Tid τ η ν},
      SubscriptionThreads.step f.threads a = some s → s = f'.threads →
        SubscriptionThreads.Small f.threads := by
    intro a s hrun he
    exact (he ▸ hsmall).of_step hrun
  have hguarded : ∀ {a : SubAction Tid τ η ν}, lift f a = some f' →
      SubscriptionThreads.Small f.threads := by
    intro a hlifted
    obtain ⟨s, hrun, he⟩ := lift_some hlifted
    exact hlift hrun (by rw [he])
  cases a with
  | work t way =>
    obtain ⟨hcalls, htopics⟩ := (work_works hs).calls
    exact ⟨hcalls ▸ hsmall.calls, htopics ▸ hsmall.topics⟩
  | publish | call => exact hguarded hs
  | load t =>
    obtain ⟨s, hrun, he⟩ := Option.map_eq_some_iff.mp hs
    exact hlift hrun (by rw [← he])
  | finish t =>
    obtain ⟨g, hlifted, he⟩ := Option.map_eq_some_iff.mp hs
    obtain ⟨s, hrun, rfl⟩ := lift_some hlifted
    exact hlift hrun (by rw [← he])
  | subscribe | unsubscribe | dispatch | return_ =>
    simp only [FineSubscriptions.step] at hs
    split at hs
    · exact hguarded hs
    · cases hs

/-- The run of the threads that the sections are in step with. -/
theorem simulates_reaches
    (hf : (machine Tid τ η ν).Reaches (fun f a ↦ strict = true → Calm f a) f)
    (hsmall : SubscriptionThreads.Small f.threads) :
    ∃ D, (SubscriptionThreads.machine Tid τ η ν).Reaches
      (fun s a ↦ strict = true → Undisputed s a) (f.coarse D) ∧ Simulates f D := by
  induction hf with
  | @start f hf =>
    obtain rfl : f = {} := hf
    exact ⟨_, .start rfl, simulates_initial⟩
  | next _ hcalm hs ih =>
    obtain ⟨D, hx, hsim⟩ := ih (small_of_step hsmall hs)
    have hsmall' := small_of_step hsmall hs
    have htracks : Tracks (FineSubs.coarse _ D) :=
      tracks_reachable hx.reachable ⟨hsmall'.calls, hsmall'.topics⟩
    obtain ⟨D', hsteps, hsim'⟩ := step_simulates hsim htracks hcalm hs
    exact ⟨D', hsteps.reaches hx, hsim'⟩

end Machine

/-- Two levels agree on what has been called, delivered and published. A walk of
the published trie may come to more slots, all of them without subscribers. -/
structure Refines [DecidableEq τ] (f : FineSubs Tid τ η ν) (x : Subscribing Tid τ η ν) : Prop where
  published : x.published = f.threads.published
  returned : x.returned = f.threads.returned
  thrown : x.thrown = f.threads.thrown
  asked : x.asked = f.threads.asked
  gone : x.gone = f.threads.gone
  invocations : x.invocations = f.threads.invocations
  reports : x.reports = f.threads.reports
  registry : x.bus.registry_ = f.threads.bus.registry_
  slots : x.bus.slots_ = f.threads.bus.slots_
  heap : x.bus.heap = f.threads.bus.heap
  records : x.bus.sub_to_topic_ = f.threads.bus.sub_to_topic_
  walks : ∀ topic T, Thinned (fun n ↦ (f.threads.bus.heap n).subscribers_ = [])
    (match_ topic T f.threads.bus.wildcard_trie_) (match_ topic T x.bus.wildcard_trie_)

/-- The sections of `subscribe` and `unsubscribe` are as good as atomic, although
a reader may come between any two of their loads and stores. With `strict` no
`unsubscribe` is disputed, neither here nor there. -/
theorem sections_refine [DecidableEq Tid] [DecidableEq τ] {f : FineSubs Tid τ η ν} {strict : Bool}
    (hf : (machine Tid τ η ν).Reaches (fun f a ↦ strict = true → Calm f a) f)
    (hsmall : SubscriptionThreads.Small f.threads) :
    ∃ x, (SubscriptionThreads.machine Tid τ η ν).Reaches
      (fun s a ↦ strict = true → Undisputed s a) x ∧ Refines f x := by
  obtain ⟨D, hx, hsim⟩ := simulates_reaches hf hsmall
  have htracks : Tracks (f.coarse D) :=
    tracks_reachable hx.reachable ⟨hsmall.calls, hsmall.topics⟩
  refine ⟨f.coarse D, hx, ⟨rfl, rfl, rfl, rfl, rfl, rfl, rfl, rfl, rfl, rfl, rfl, ?_⟩⟩
  intro topic T
  refine (hsim.match_ topic T).mono fun n hn ↦ ?_
  exact htracks.stored.orphans n hn.slots hn.entries

/-- A dispatch that overlaps a section of `subscribe` or `unsubscribe` calls every
handler that it began with and that nobody takes back, and no handler whose removal
was over when it loaded the list. -/
theorem sections_keep_handlers [DecidableEq Tid] [DecidableEq τ] {f : FineSubs Tid τ η ν}
    (hf : (machine Tid τ η ν).Reaches Calm f) (hsmall : SubscriptionThreads.Small f.threads) :
    (∀ r ∈ f.threads.reports, ∀ x ∈ r.due, x.id ∉ r.asked → x.type = r.msg.type →
        Sub.asksFor x r.msg.topic_sv_ = true → ⟨x.id, x.handler, r.msg.data_⟩ ∈ r.invoked) ∧
      (∀ c gone, (c, gone) ∈ f.threads.invocations → c.id ∉ gone) ∧
      (∀ x ∈ f.threads.returned, isWildcard x.topic = false → x.id ∉ f.threads.asked →
        ∃ slot, slotOf f.threads.bus x.topic = some slot ∧
          x.subscriber ∈ (f.threads.bus.heap slot).subscribers_) := by
  have hcalm : (machine Tid τ η ν).Reaches (fun f a ↦ true = true → Calm f a) f :=
    hf.mono fun _ _ hcalm _ ↦ hcalm
  obtain ⟨D, hx, -⟩ := simulates_reaches hcalm hsmall
  have hserved : Served (f.coarse D) :=
    served_reaches (hx.mono fun _ _ hun ↦ hun rfl) ⟨hsmall.calls, hsmall.topics⟩
  refine ⟨fun r hr x hx hnot hty hasks ↦ hserved.reports r hr x hx ⟨hty, hasks⟩ hnot,
    fun c gone hc ↦ hserved.invocations (c, gone) hc, fun x hx hw hnot ↦ ?_⟩
  have hslot := Stored.slotOf_mem hserved.tracks.stored (hserved.tracks.kept hx hnot) hw
  exact hslot

instance [Fintype Tid] (f : FineSubs Tid τ η ν) (a : FineAction Tid τ η ν) :
    Decidable (Calm f a) :=
  match a with
  | .work t _ => inferInstanceAs (Decidable (Settles f.threads (f.threads.unsubs t)))
  | .subscribe .. | .unsubscribe .. | .publish .. | .dispatch .. | .load _ | .call _ | .return_ _
  | .finish _ => .isTrue trivial

def works (t : Tid) (n : ℕ) : List (FineAction Tid τ η ν) := List.replicate n (.work t [])

def removalWindow : List (FineAction Bool Unit ℕ ℕ) :=
  .subscribe true () ['*'] 10 :: works true 5 ++ .subscribe false () ['a'] 20 :: works false 12 ++
    [.publish () ['a'] 7, .unsubscribe true 1] ++ works true 7 ++
    [.dispatch false 0, .load false, .load false, .call false, .return_ false, .load false,
      .load false, .finish false]

theorem removalWindow_run : ((machine Bool Unit ℕ ℕ).runIf Calm {} removalWindow).map
    (fun f ↦ (f.threads.gone, f.threads.reports.length, f.threads.invocations.map fun c ↦ c.1.id,
      match_ ['a'] () f.threads.bus.wildcard_trie_, f.threads.calls, f.threads.topics.length)) =
        some ([1], 1, [2], [0], 2, 2) := by
  decide +kernel

theorem removalWindow_reaches : ∃ f : FineSubs Bool Unit ℕ ℕ,
    (machine Bool Unit ℕ ℕ).Reaches Calm f ∧ SubscriptionThreads.Small f.threads ∧
      f.threads.gone = [1] ∧ f.threads.reports.length = 1 ∧
        f.threads.invocations.map (fun c ↦ c.1.id) = [2] ∧
          match_ ['a'] () f.threads.bus.wildcard_trie_ = [0] := by
  obtain ⟨f, hrun, he⟩ := Option.map_eq_some_iff.mp removalWindow_run
  simp only [Prod.mk.injEq] at he
  obtain ⟨hgone, hreports, hinvocations, hwalk, hcalls, htopics⟩ := he
  refine ⟨f, .of_runIf (.start rfl) removalWindow hrun, ?_, hgone, hreports, hinvocations, hwalk⟩
  refine ⟨by rw [hcalls]; decide, Nat.lt_of_le_of_lt (List.toFinset_card_le _) ?_⟩
  rw [htopics]
  decide

theorem sections_refine_removalWindow : ∃ (f : FineSubs Bool Unit ℕ ℕ) (x : _),
    f.threads.reports.length = 1 ∧ match_ ['a'] () f.threads.bus.wildcard_trie_ = [0] ∧
      (SubscriptionThreads.machine Bool Unit ℕ ℕ).Reaches
        (fun s a ↦ true = true → Undisputed s a) x ∧ Refines f x ∧ x.gone = [1] ∧
          x.invocations.map (fun c ↦ c.1.id) = [2] := by
  obtain ⟨f, hf, hsmall, hgone, hreports, hinvocations, hwalk⟩ := removalWindow_reaches
  obtain ⟨x, hx, hrefines⟩ := sections_refine (hf.mono fun _ _ hcalm _ ↦ hcalm) hsmall
  exact ⟨f, x, hreports, hwalk, hx, hrefines, hrefines.gone.trans hgone,
    (congrArg _ hrefines.invocations).trans hinvocations⟩

theorem sections_keep_handlers_removalWindow : ∃ f : FineSubs Bool Unit ℕ ℕ,
    f.threads.reports.length = 1 ∧ f.threads.invocations.map (fun c ↦ c.1.id) = [2] ∧
      ∀ c gone, (c, gone) ∈ f.threads.invocations → c.id ∉ gone := by
  obtain ⟨f, hf, hsmall, -, hreports, hinvocations, -⟩ := removalWindow_reaches
  exact ⟨f, hreports, hinvocations, (sections_keep_handlers hf hsmall).2.1⟩

end LivioArk.Msgbus.FineSubscriptions
