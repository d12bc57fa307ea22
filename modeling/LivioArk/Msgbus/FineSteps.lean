import LivioArk.Msgbus.FineViews

namespace LivioArk.Msgbus.FineSubscriptions

open Function LivioArk.Library.Transition LivioArk.Library.PrefixTree LivioArk.Library.Thinning
open Levels TopicMatcher TopicRegistry WildcardTrie Subscriptions SubStore Dispatching
open SubscriptionThreads

variable {Tid τ η ν : Type} [DecidableEq Tid] [DecidableEq τ]

/-- No `unsubscribe` misses an id that another one is still removing. -/
def Calm (f : FineSubs Tid τ η ν) : FineAction Tid τ η ν → Prop
  | .work t _ => Settles f.threads (f.threads.unsubs t)
  | _ => True

section Steps

variable {f f' : FineSubs Tid τ η ν} {D : Tid → Option (Dispatch τ η ν)} {t : Tid}
variable {strict : Bool}

abbrev Coarsely (strict : Bool) (x y : Subscribing Tid τ η ν) : Prop :=
  Machine.Steps (SubscriptionThreads.machine Tid τ η ν)
    (fun s a ↦ strict = true → Undisputed s a) x y

def Steps (t : Tid) (x y : Subscribing Tid τ η ν) : Prop :=
  x.subscribeStep t = some y ∨ x.unsubscribeStep t = some y ∧ ∀ id, x.unsubs t ≠ .take id

theorem Steps.coarsely {x y : Subscribing Tid τ η ν} (h : Steps t x y) : Coarsely strict x y := by
  cases h with
  | inl h => exact .one (b := .subscribeStep t) (fun _ ↦ trivial) h
  | inr h =>
    refine .one (b := .unsubscribeStep t) (fun _ ↦ ?_) h.1
    rw [Undisputed]
    cases hpc : x.unsubs t with
    | take id => exact absurd hpc (h.2 id)
    | _ => trivial

theorem Orphan.steps {x y : Subscribing Tid τ η ν} {n : ℕ} (hn : Orphan x.bus n)
    (h : Steps t x y) : Orphan y.bus n :=
  h.elim hn.subscribeStep fun h ↦ hn.unsubscribeStep h.1

theorem Simulates.move (h : Simulates f D) (hw : Works t f f')
    (hdispatches : f'.threads.dispatches = f.threads.dispatches)
    (hcells : ∀ m ∉ f.held t, Same f.threads.bus f'.threads.bus m)
    (hallocated : f.threads.bus.allocated ≤ f'.threads.bus.allocated)
    (horphan : ∀ n, Orphan f.view n → Orphan f'.view n)
    (hcurrent : Current f' t (f'.sections t)) : Simulates f' D where
  locked := hw.locked h.locked
  current u := by
    by_cases hu : u = t
    · exact hu ▸ hcurrent
    · have helse := hw.elsewhere
      rw [helse.sections u hu]
      refine (h.current u).spared rfl (helse.mutex hu) (helse.unsubs u hu) (fun m hm ↦ ?_)
        hallocated horphan
      exact hcells m fun hmt ↦ hu (h.locked.excluded hmt hm)
  lags u := by
    rw [hdispatches]
    have hlags := h.lags u
    revert hlags
    generalize f.threads.dispatches u = d, D u = d'
    intro hlags
    cases hlags with
    | none => exact .none
    | some hlags => exact .some (hlags.mono horphan)

theorem Simulates.silent (h : Simulates f D) (hw : Works t f f') (hthreads : f'.threads = f.threads)
    (hpending : (f'.sections t).pending = (f.sections t).pending)
    (hcurrent : f'.view = f.view → Current f' t (f'.sections t)) :
    f'.coarse D = f.coarse D ∧ Simulates f' D := by
  have hall : ∀ u, (f'.sections u).pending = (f.sections u).pending := by
    intro u
    by_cases hu : u = t
    · exact hu ▸ hpending
    · rw [hw.elsewhere.sections u hu]
  have hvisible : f'.visible = f.visible :=
    visible_congr h.locked (hw.locked h.locked) hall (by rw [hthreads])
  have hview : f'.view = f.view := by rw [FineSubs.view, FineSubs.view, hthreads, hvisible]
  refine ⟨by rw [FineSubs.coarse, FineSubs.coarse, hthreads, hvisible], ?_⟩
  refine h.move hw (by rw [hthreads]) (fun m _ ↦ hthreads ▸ Same.refl _ m) (by rw [hthreads])
    (fun n hn ↦ hview ▸ hn) (hcurrent hview)

theorem Simulates.visible (h : Simulates f D) (hw : Works t f f')
    (hpending : (f'.sections t).pending = (f.sections t).pending)
    (ht : f'.threads.bus.wildcard_trie_ = f.threads.bus.wildcard_trie_) :
    f'.visible = f.visible := by
  refine visible_congr h.locked (hw.locked h.locked) (fun u ↦ ?_) ht
  by_cases hu : u = t
  · exact hu ▸ hpending
  · rw [hw.elsewhere.sections u hu]

omit [DecidableEq τ] in
theorem pending_leave (f : FineSubs Tid τ η ν) (t : Tid) (m : Mutex) (s : Subscribing Tid τ η ν) :
    ((f.leave t m s).sections t).pending = none := by
  simp only [FineSubs.leave, FineSubs.enter, update_self]
  rfl

theorem Simulates.publish {s : Subscribing Tid τ η ν} {m : Mutex} (h : Simulates f D)
    (hw : Works t f f') (hf' : f' = f.leave t m s) (hpending : (f.sections t).pending = none)
    (ht : s.bus.wildcard_trie_ = f.threads.bus.wildcard_trie_)
    (hstep : Steps t (f.coarse D) (viewed s f.visible D))
    (hdispatches : s.dispatches = f.threads.dispatches)
    (hcells : ∀ m ∉ f.held t, Same f.threads.bus s.bus m)
    (hallocated : f.threads.bus.allocated ≤ s.bus.allocated) :
    Coarsely strict (f.coarse D) (f'.coarse D) ∧ Simulates f' D := by
  subst hf'
  have hvisible : (f.leave t m s).visible = f.visible :=
    h.visible hw ((pending_leave f t m s).trans hpending.symm) ht
  have hcoarse : (f.leave t m s).coarse D = viewed s f.visible D := by
    rw [FineSubs.coarse, hvisible]
    rfl
  refine ⟨hcoarse ▸ hstep.coarsely, h.move hw hdispatches hcells hallocated (fun n hn ↦ ?_) ?_⟩
  · have hn' : Orphan (f.coarse D).bus n := hn
    have hafter := hn'.steps hstep
    rw [← hcoarse] at hafter
    exact hafter
  · simp only [FineSubs.leave, FineSubs.enter, update_self]
    trivial

theorem Simulates.createSlot {x : Sub τ η} {tid : ℕ} {old : ℕ → Option ℕ} (h : Simulates f D)
    (hsec : f.sections t = .slots old) (hidle : f.threads.unsubs t = .idle)
    (hpc : f.threads.subs t = .createSlot x tid) :
    Coarsely strict (f.coarse D) ((f.createSlotWork t x tid old).coarse D) ∧
      Simulates (f.createSlotWork t x tid old) D := by
  have hw : Works t f (f.createSlotWork t x tid old) := .createSlot hsec hidle hpc
  have hpending : (f.sections t).pending = none := by rw [hsec]; rfl
  have hheld : Mutex.slots_write ∈ f.held t := by
    rw [held_eq hsec, mutex_subscribe hidle, hpc]
    exact List.mem_singleton_self _
  have hcurrent := h.current t
  rw [hsec] at hcurrent
  obtain ⟨-, rfl⟩ := hcurrent
  cases hslot : f.threads.bus.slots_ tid with
  | some slot =>
    cases hcheck : checkedSlot f.threads.bus x.type tid slot with
    | ok slot' =>
      have hwork : f.createSlotWork t x tid f.threads.bus.slots_ =
          f.leave t .slots_write (f.threads.goto t (.addSubscriber x tid slot')) := by
        simp only [FineSubs.createSlotWork, hslot, hcheck]
      refine h.publish hw hwork hpending rfl (.inl ?_) rfl (fun m _ ↦ Same.refl _ m)
        (Nat.le_refl _)
      simp only [FineSubs.coarse, Subscribing.subscribeStep, viewed, hpc, Subscriptions.createSlot,
        hslot, checkedSlot_viewed, hcheck]
      rfl
    | error e =>
      have hwork : f.createSlotWork t x tid f.threads.bus.slots_ =
          f.leave t .slots_write (f.threads.throw t x) := by
        simp only [FineSubs.createSlotWork, hslot, hcheck]
      refine h.publish hw hwork hpending rfl (.inl ?_) rfl (fun m _ ↦ Same.refl _ m)
        (Nat.le_refl _)
      simp only [FineSubs.coarse, Subscribing.subscribeStep, viewed, hpc, Subscriptions.createSlot,
        hslot, checkedSlot_viewed, hcheck]
      rfl
  | none =>
    have hwork : f.createSlotWork t x tid f.threads.bus.slots_ = f.leave t .slots_write
        { f.threads.goto t (.addSubscriber x tid f.threads.bus.allocated) with
          bus := { (makeSlot f.threads.bus x.type).2 with
            slots_ := update f.threads.bus.slots_ tid (some f.threads.bus.allocated) } } := by
      simp only [FineSubs.createSlotWork, hslot]
      rfl
    refine h.publish hw hwork hpending rfl (.inl ?_) rfl (fun m hm ↦ ?_) (Nat.le_succ _)
    · simp only [FineSubs.coarse, Subscribing.subscribeStep, viewed, hpc, Subscriptions.createSlot,
        hslot]
      rfl
    · cases m with
      | slots_write => exact absurd hheld hm
      | trie_write => rfl
      | slot n => exact fun hn ↦ by simp only [makeSlot, update_of_ne (Nat.ne_of_lt hn)]

omit [DecidableEq τ] in
/-- A list is published for one slot only. -/
theorem same_publish (b : SubState τ η) (slot : ℕ) (g : TopicSlot τ η → TopicSlot τ η) {m : Mutex}
    (hm : m ≠ .slot slot) : Same b (updateSlot b slot g) m := by
  cases m with
  | slot n =>
    intro hn
    have hne : n ≠ slot := fun he ↦ hm (by rw [he])
    simp only [updateSlot, update_of_ne hne]
  | _ => rfl

theorem Simulates.addSubscriber {x : Sub τ η} {tid slot : ℕ} {old : List (Subscriber η)}
    (h : Simulates f D) (hsec : f.sections t = .list old) (hidle : f.threads.unsubs t = .idle)
    (hpc : f.threads.subs t = .addSubscriber x tid slot) :
    Coarsely strict (f.coarse D) ((f.addSubscriberWork t x tid slot old).coarse D) ∧
      Simulates (f.addSubscriberWork t x tid slot old) D := by
  have hw : Works t f (f.addSubscriberWork t x tid slot old) := .addSubscriber hsec hidle hpc
  have hmutex : f.mutex t = some (.slot slot) := by
    rw [mutex_subscribe hidle, hpc]
    rfl
  have hheld : Mutex.slot slot ∈ f.held t := by
    rw [held_eq hsec, hmutex]
    exact List.mem_singleton_self _
  have hcurrent := h.current t
  rw [hsec] at hcurrent
  obtain ⟨n, hn, -, rfl⟩ := hcurrent
  obtain rfl : slot = n := by
    rw [hmutex] at hn
    cases hn
    rfl
  refine h.publish hw rfl (by rw [hsec]; rfl) rfl (.inl ?_) rfl (fun m hm ↦ ?_)
    (Nat.le_refl _)
  · simp only [FineSubs.coarse, Subscribing.subscribeStep, viewed, hpc]
    rfl
  · have hne : m ≠ .slot slot := fun he ↦ hm (he ▸ hheld)
    exact same_publish _ slot (·.addSubscriber x.handler x.id) hne

theorem Simulates.removeSubscriber {id slot : ℕ} {old : List (Subscriber η)}
    (h : Simulates f D) (hsec : f.sections t = .list old)
    (hpc : f.threads.unsubs t = .removeSubscriber id slot) :
    Coarsely strict (f.coarse D) ((f.removeSubscriberWork t id slot old).coarse D) ∧
      Simulates (f.removeSubscriberWork t id slot old) D := by
  have hw : Works t f (f.removeSubscriberWork t id slot old) := .removeSubscriber hsec hpc
  have hmutex : f.mutex t = some (.slot slot) := by
    rw [mutex_unsubscribe (by rw [hpc]; exact fun h ↦ by cases h), hpc]
    rfl
  have hheld : Mutex.slot slot ∈ f.held t := by
    rw [held_eq hsec, hmutex]
    exact List.mem_singleton_self _
  have hcurrent := h.current t
  rw [hsec] at hcurrent
  obtain ⟨n, hn, -, rfl⟩ := hcurrent
  obtain rfl : slot = n := by
    rw [hmutex] at hn
    cases hn
    rfl
  have hwork : f.removeSubscriberWork t id slot (f.threads.bus.heap slot).subscribers_ =
      f.leave t (.slot slot)
        (f.threads.removed t id (updateSlot f.threads.bus slot (·.removeSubscriber id))) := by
    rw [FineSubs.removeSubscriberWork, publishWithout_eq]
  refine h.publish hw hwork (by rw [hsec]; rfl) rfl (.inr ⟨?_, fun id he ↦ ?_⟩) rfl
    (fun m hm ↦ ?_) (Nat.le_refl _)
  · simp only [FineSubs.coarse, Subscribing.unsubscribeStep, viewed, hpc]
    rfl
  · rw [FineSubs.coarse, viewed, hpc] at he
    cases he
  · have hne : m ≠ .slot slot := fun he ↦ hm (he ▸ hheld)
    exact same_publish _ slot (·.removeSubscriber id) hne

omit [DecidableEq Tid] [DecidableEq τ] in
theorem Simulates.trie (h : Simulates f D) (hm : Mutex.trie_write ∈ f.held t)
    (hp : (f.sections t).pending = none) : f.view = f.threads.bus := by
  rw [FineSubs.view, visible_held h.locked hm hp]

omit [DecidableEq Tid] [DecidableEq τ] in
theorem removing_held {id : ℕ} (hpc : f.threads.unsubs t = .remove id) :
    f.mutex t = some .trie_write := by
  rw [mutex_unsubscribe (by rw [hpc]; exact fun h ↦ by cases h), hpc]
  rfl

theorem Simulates.missing {id : ℕ} {snap : Snapshot τ ℕ} (h : Simulates f D)
    (hsec : f.sections t = .clone snap) (hpc : f.threads.unsubs t = .remove id)
    (hr : remove id snap = none) :
    Coarsely strict (f.coarse D) ((f.removeFromWork t id snap).coarse D) ∧
      Simulates (f.removeFromWork t id snap) D := by
  have hw : Works t f (f.removeFromWork t id snap) := .removeFrom hsec hpc
  have hheld : Mutex.trie_write ∈ f.held t := by
    rw [held_eq hsec, removing_held hpc]
    exact List.mem_singleton_self _
  have hpending : (f.sections t).pending = none := by rw [hsec]; rfl
  have hcurrent := h.current t
  rw [hsec] at hcurrent
  obtain ⟨-, rfl⟩ := hcurrent
  have hvisible := visible_held h.locked hheld hpending
  have hwork : f.removeFromWork t id f.threads.bus.wildcard_trie_ =
      f.leave t .trie_write (f.threads.removed t id f.threads.bus) := by
    simp only [FineSubs.removeFromWork, hr]
  refine h.publish hw hwork hpending rfl (.inr ⟨?_, fun id he ↦ ?_⟩) rfl
    (fun m _ ↦ Same.refl _ m) (Nat.le_refl _)
  · simp only [FineSubs.coarse, Subscribing.unsubscribeStep, viewed, hpc, hvisible, removeWildcard,
      hr]
    rfl
  · rw [FineSubs.coarse, viewed, hpc] at he
    cases he

omit [DecidableEq τ] in
theorem publish_made (b : SubState τ η) (T : τ) (handler : η) (id : ℕ) :
    publishSubscribers (makeSlot b T).2 (makeSlot b T).1 [⟨id, handler⟩] =
      updateSlot (makeSlot b T).2 (makeSlot b T).1 (·.addSubscriber handler id) := by
  have hnew : ((makeSlot b T).2.heap (makeSlot b T).1).subscribers_ = [] := by
    simp only [makeSlot, update_self]
  rw [publishSubscribers, updateSlot, TopicSlot.addSubscriber, hnew]
  rfl

theorem Simulates.insert {x : Sub τ η} {snap : Snapshot τ ℕ} (way : List Bool)
    (h : Simulates f D) (hsec : f.sections t = .clone snap) (hidle : f.threads.unsubs t = .idle)
    (hpc : f.threads.subs t = .insert x) :
    Coarsely strict (f.coarse D) ((f.insertWork t way x snap).coarse D) ∧
      Simulates (f.insertWork t way x snap) D := by
  have hw : Works t f (f.insertWork t way x snap) := .insert way hsec hidle hpc
  have hheld : Mutex.trie_write ∈ f.held t := by
    rw [held_eq hsec, mutex_subscribe hidle, hpc]
    exact List.mem_singleton_self _
  have hpending : (f.sections t).pending = none := by rw [hsec]; rfl
  have hcurrent := h.current t
  rw [hsec] at hcurrent
  obtain ⟨-, rfl⟩ := hcurrent
  have hvisible := visible_held h.locked hheld hpending
  have hafter : (f.insertWork t way x f.threads.bus.wildcard_trie_).visible =
      (f.insertWork t way x f.threads.bus.wildcard_trie_).threads.bus.wildcard_trie_ := by
    refine visible_held (t := t) (hw.locked h.locked) ?_ (pending_leave f t _ _)
    rw [FineSubs.insertWork, held_leave]
    exact List.mem_singleton_self _
  let y : Subscribing Tid τ η ν :=
    { ((f.coarse D).goto t (.record x ⟨kInvalidTopicId, true⟩)).mark x.id (.added t) with
      bus := subscribeWildcard (f.coarse D).bus x.type x.topic x.handler x.id
      live := f.threads.live ++ [x] }
  have hstep : (f.coarse D).subscribeStep t = some y := by
    simp only [FineSubs.coarse, Subscribing.subscribeStep, viewed, hpc]
    rfl
  have hrehash : SubscriptionThreads.step y (.rehash way) =
      some ((f.insertWork t way x f.threads.bus.wildcard_trie_).coarse D) := by
    rw [FineSubs.coarse, hafter]
    simp only [FineSubs.insertWork, publish_made, y, FineSubs.coarse, viewed, hvisible]
    rfl
  have horphan : ∀ n, Orphan f.view n →
      Orphan (f.insertWork t way x f.threads.bus.wildcard_trie_).view n := by
    intro n hn
    have hn' : Orphan (f.coarse D).bus n := hn
    have hy : Orphan y.bus n := hn'.subscribeStep hstep
    have hz : Orphan ((f.insertWork t way x f.threads.bus.wildcard_trie_).coarse D).bus n := by
      have heq := Option.some.inj hrehash
      rw [← heq]
      exact hy.of_eq rfl rfl fun z hz ↦ (Node.swap_contents way _).mem_iff.mp hz
    exact hz
  refine ⟨.cons (b := .subscribeStep t) (fun _ ↦ trivial) hstep
    (.one (b := .rehash way) (fun _ ↦ trivial) hrehash), h.move hw rfl (fun m hm ↦ ?_)
    (Nat.le_succ _) horphan ?_⟩
  · cases m with
    | trie_write => exact absurd hheld hm
    | slots_write => rfl
    | slot n =>
      intro hn
      have hne : n ≠ f.threads.bus.allocated := Nat.ne_of_lt hn
      simp only [FineSubs.insertWork, FineSubs.leave, publishSnapshot, publishSubscribers, makeSlot,
        update_of_ne hne]
  · simp only [FineSubs.insertWork, FineSubs.leave, FineSubs.enter, update_self]
    trivial

omit [DecidableEq τ] in
theorem remove_below {b : SubState τ η} {id : ℕ} {entry : Entry τ ℕ} {snap : Snapshot τ ℕ}
    (hb : Apart b) (hr : remove id b.wildcard_trie_ = some (entry, snap)) :
    entry.slot < b.allocated ∧ (∀ tid, b.slots_ tid ≠ some entry.slot) ∧
      ∀ y ∈ snap.root.contents, y.2.slot ≠ entry.slot := by
  obtain ⟨⟨found, root⟩, hroot, he⟩ := Option.map_eq_some_iff.mp hr
  obtain ⟨rfl, rfl⟩ := Prod.mk.inj he
  obtain ⟨-, path, hmore⟩ := Node.removeFrom_some hroot
  have hmem : (path, found) ∈ b.wildcard_trie_.root.contents :=
    hmore.perm.mem_iff.mpr List.mem_cons_self
  have hdistinct := (hmore.perm.map fun y ↦ y.2.slot).nodup_iff.mp hb.distinct
  rw [List.map_cons, List.nodup_cons, List.mem_map] at hdistinct
  exact ⟨hb.below _ hmem, fun tid hslot ↦ hb.apart tid _ hslot _ hmem rfl,
    fun y hy hslot ↦ hdistinct.1 ⟨y, hy, hslot⟩⟩

theorem Simulates.empty {id : ℕ} {entry : Entry τ ℕ} {snap : Snapshot τ ℕ}
    {old : List (Subscriber η)} (h : Simulates f D) (hb : Apart f.view)
    (hcount : Counted f.view.wildcard_trie_)
    (hsec : f.sections t = .nestedList entry snap old) (hpc : f.threads.unsubs t = .remove id)
    (hf' : f' = { f.enter t (.emptied entry snap) with
      threads := f.threads.removed t id (publishWithout f.threads.bus id entry.slot old) }) :
    Coarsely strict (f.coarse D) (f'.coarse D) ∧ Simulates f' D := by
  have hw : Works t f f' := hf' ▸ .empty hsec hpc
  have hheld : Mutex.trie_write ∈ f.held t ∧ Mutex.slot entry.slot ∈ f.held t := by
    rw [held_eq hsec]
    simp [Section.held]
  have hpending : (f.sections t).pending = none := by rw [hsec]; rfl
  have hcurrent := h.current t
  rw [hsec] at hcurrent
  obtain ⟨⟨id', hpc', hr⟩, hn, rfl⟩ := hcurrent
  obtain rfl : id' = id := by
    rw [hpc] at hpc'
    cases hpc'
    rfl
  rw [publishWithout_eq] at hf'
  have hvisible := visible_held h.locked hheld.1 hpending
  have hafter : f'.visible = snap := by
    refine visible_pending (t := t) (hw.locked h.locked) ?_
    simp only [hf', FineSubs.enter, update_self]
    rfl
  rw [h.trie hheld.1 hpending] at hb hcount
  obtain ⟨hbelow, hslots, hentries⟩ := remove_below hb hr
  have hcoarse : f'.coarse D = viewed (f.threads.removed t id'
      (updateSlot f.threads.bus entry.slot (·.removeSubscriber id'))) snap D := by
    rw [FineSubs.coarse, hafter, hf']
  have hstep : Steps t (f.coarse D) (f'.coarse D) := by
    refine .inr ⟨?_, fun id he ↦ ?_⟩
    · rw [hcoarse]
      simp only [FineSubs.coarse, Subscribing.unsubscribeStep, viewed, hpc, hvisible,
        removeWildcard, hr]
      rfl
    · rw [FineSubs.coarse, viewed, hpc] at he
      cases he
  refine ⟨hstep.coarsely, h.move hw (by rw [hf']; rfl) (fun m hm ↦ ?_) ?_ (fun n hn ↦ ?_) ?_⟩
  · have hne : m ≠ .slot entry.slot := fun he ↦ hm (he ▸ hheld.2)
    rw [hf']
    exact same_publish _ entry.slot (·.removeSubscriber id') hne
  · rw [hf']
    exact Nat.le_refl _
  · have hn' : Orphan (f.coarse D).bus n := hn
    exact hn'.steps hstep
  · have hsec' : f'.sections t = .emptied entry snap := by
      rw [hf']
      exact update_self ..
    have hbus : f'.threads.bus.wildcard_trie_ = f.threads.bus.wildcard_trie_ := by rw [hf']; rfl
    rw [hsec']
    refine ⟨⟨id', hbus ▸ hr⟩, ⟨?_, ?_, ?_⟩, hbus ▸ hcount⟩
    · rw [hf']
      exact hbelow
    · rw [hf']
      exact hslots
    · rw [FineSubs.view, hafter]
      exact hentries

theorem Simulates.erased {snap : Snapshot τ ℕ} (way : List Bool) (h : Simulates f D)
    (hsec : f.sections t = .erased snap)
    (hf' : f' = f.leave t .trie_write
      { f.threads with bus := publishSnapshot f.threads.bus way snap }) :
    Coarsely strict (f.coarse D) (f'.coarse D) ∧ Simulates f' D := by
  have hw : Works t f f' := hf' ▸ .erased way hsec
  have hheld : Mutex.trie_write ∈ f.held t := by
    rw [held_eq hsec]
    exact List.mem_singleton_self _
  have hvisible : f.visible = snap := visible_pending (t := t) h.locked (by rw [hsec]; rfl)
  have hafter : f'.visible = f'.threads.bus.wildcard_trie_ := by
    refine visible_held (t := t) (hw.locked h.locked) ?_ (by rw [hf']; exact pending_leave f t _ _)
    rw [hf', held_leave]
    exact List.mem_singleton_self _
  have hrehash : SubscriptionThreads.step (f.coarse D) (.rehash way) = some (f'.coarse D) := by
    rw [FineSubs.coarse, FineSubs.coarse, hafter, hvisible, hf']
    rfl
  refine ⟨.one (b := .rehash way) (fun _ ↦ trivial) hrehash, h.move hw (by rw [hf']; rfl)
    (fun m hm ↦ ?_) (by rw [hf']; exact Nat.le_refl _) (fun n hn ↦ ?_) ?_⟩
  · rw [hf']
    cases m with
    | trie_write => exact absurd hheld hm
    | slots_write => rfl
    | slot n => exact fun _ ↦ rfl
  · have hn' : Orphan (f.coarse D).bus n := hn
    have hz : Orphan (f'.coarse D).bus n := by
      rw [← Option.some.inj hrehash]
      exact hn'.of_eq rfl rfl fun z hz ↦ (Node.swap_contents way _).mem_iff.mp hz
    exact hz
  · rw [hf']
    simp only [FineSubs.leave, FineSubs.enter, update_self]
    trivial

omit [DecidableEq Tid] [DecidableEq τ] in
theorem slot_below {n : ℕ} (htracks : Tracks (f.coarse D)) (hm : f.mutex t = some (.slot n)) :
    n < f.threads.bus.allocated := by
  have hbelow : ∀ tid, f.threads.bus.slots_ tid = some n → n < f.threads.bus.allocated :=
    fun tid ↦ htracks.stored.apart.slots_below tid n
  by_cases hidle : f.threads.unsubs t = .idle
  · rw [mutex_subscribe hidle] at hm
    have hfits := htracks.subs t
    have hsame : (f.coarse D).subs t = f.threads.subs t := rfl
    rw [hsame] at hfits
    cases hpc : f.threads.subs t with
    | addSubscriber x tid slot =>
      rw [hpc] at hm hfits
      cases hm
      exact hbelow tid hfits.2.2.2.1
    | _ =>
      rw [hpc] at hm
      cases hm
  · rw [mutex_unsubscribe hidle] at hm
    have hfits := htracks.unsubs t
    have hsame : (f.coarse D).unsubs t = f.threads.unsubs t := rfl
    rw [hsame] at hfits
    cases hpc : f.threads.unsubs t with
    | removeSubscriber id slot =>
      rw [hpc] at hm hfits
      cases hm
      obtain ⟨-, -, x, -, -, -, tid, -, hslot⟩ := hfits
      exact hbelow tid hslot
    | _ =>
      rw [hpc] at hm
      cases hm

omit [DecidableEq τ] in
theorem enter_section (f : FineSubs Tid τ η ν) (t : Tid) (sec : Section τ η) :
    (f.enter t sec).sections t = sec := update_self ..

theorem Simulates.load {m : Mutex} (h : Simulates f D) (htracks : Tracks (f.coarse D))
    (hsec : f.sections t = .locked) (hm : f.mutex t = some m) :
    (f.enter t (f.loaded m)).coarse D = f.coarse D ∧ Simulates (f.enter t (f.loaded m)) D := by
  have hw : Works t f (f.enter t (f.loaded m)) := .load hsec hm
  have hpending : (f.loaded m).pending = (f.sections t).pending := by
    rw [hsec]
    cases m <;> rfl
  refine h.silent hw rfl (by rw [enter_section, hpending]) fun _ ↦ ?_
  rw [enter_section]
  cases m with
  | slots_write => exact ⟨hm, rfl⟩
  | slot n =>
    have hbelow : n < f.threads.bus.allocated := slot_below htracks hm
    exact ⟨n, hm, hbelow, rfl⟩
  | trie_write =>
    have hheld : Mutex.trie_write ∈ f.held t := by
      rw [held_eq hsec, hm]
      exact List.mem_singleton_self _
    have hview := h.trie hheld (by rw [hsec]; rfl)
    have hvalid : f.threads.bus.wildcard_trie_.root.Valid := hview ▸ htracks.stored.trie.valid
    exact ⟨hm, cloneSnapshot_eq hvalid⟩

/-- A step of a section is matched by steps of the threads. -/
theorem Works.simulates (hw : Works t f f') (h : Simulates f D) (htracks : Tracks (f.coarse D))
    (hcalm : strict = true → Settles f.threads (f.threads.unsubs t)) :
    Coarsely strict (f.coarse D) (f'.coarse D) ∧ Simulates f' D := by
  have hsilent : f'.coarse D = f.coarse D ∧ Simulates f' D →
      Coarsely strict (f.coarse D) (f'.coarse D) ∧ Simulates f' D := by
    intro hs
    exact ⟨hs.1 ▸ .refl _, hs.2⟩
  have hcurrent := h.current t
  have hplain : f.sections t = .outside → f'.sections = f.sections →
      Current f' t (f'.sections t) := by
    intro hsec hsections
    rw [hsections, hsec]
    trivial
  cases hw with
  | @subscribe s hsec hidle hm hs =>
    obtain ⟨hkept, hview⟩ := subscribeStep_plain hm hs
    have hw : Works t f { f with threads := s } := .subscribe hsec hidle hm hs
    have hvisible := h.visible hw rfl hkept.trie
    have hstep : Steps t (f.coarse D) (FineSubs.coarse { f with threads := s } D) := by
      rw [FineSubs.coarse, FineSubs.coarse, hvisible]
      exact .inl (hview _ _)
    refine ⟨hstep.coarsely, h.move hw hkept.dispatches (fun m _ ↦ hkept.same m)
      (Nat.le_of_eq hkept.allocated.symm) (fun n hn ↦ ?_) (hplain hsec rfl)⟩
    have hn' : Orphan (f.coarse D).bus n := hn
    exact hn'.steps hstep
  | @unsubscribe s hsec hm hs =>
    obtain ⟨hkept, hview⟩ := unsubscribeStep_plain hm hs
    have hw : Works t f { f with
      threads := s
      snaps := update f.snaps t (FineSubs.snapOf f.threads.bus (s.unsubs t)) } :=
      .unsubscribe hsec hm hs
    have hvisible := h.visible hw rfl hkept.trie
    have hstep : (f.coarse D).unsubscribeStep t = some (FineSubs.coarse { f with
        threads := s
        snaps := update f.snaps t (FineSubs.snapOf f.threads.bus (s.unsubs t)) } D) := by
      rw [FineSubs.coarse, FineSubs.coarse, hvisible]
      exact hview _ _
    refine ⟨.one (b := .unsubscribeStep t) (fun hstrict ↦ ?_) hstep,
      h.move hw hkept.dispatches (fun m _ ↦ hkept.same m)
        (Nat.le_of_eq hkept.allocated.symm) (fun n hn ↦ ?_) (hplain hsec rfl)⟩
    · have hsettles := hcalm hstrict
      have hsame : (f.coarse D).unsubs t = f.threads.unsubs t := rfl
      rw [Undisputed, hsame]
      cases hpc : f.threads.unsubs t with
      | take id =>
        rw [hpc] at hsettles
        exact hsettles
      | _ => trivial
    · have hn' : Orphan (f.coarse D).bus n := hn
      exact hn'.unsubscribeStep hstep
  | lock hsec hm hfree =>
    refine hsilent (h.silent (.lock hsec hm hfree) rfl ?_ fun _ ↦ ?_)
    · simp only [FineSubs.enter, update_self, hsec]
      rfl
    · simp only [FineSubs.enter, update_self]
      trivial
  | load hsec hm => exact hsilent (h.load htracks hsec hm)
  | createSlot hsec hidle hpc => exact h.createSlot hsec hidle hpc
  | addSubscriber hsec hidle hpc => exact h.addSubscriber hsec hidle hpc
  | insert way hsec hidle hpc => exact h.insert way hsec hidle hpc
  | removeSubscriber hsec hpc => exact h.removeSubscriber hsec hpc
  | @removeFrom id snap hsec hpc =>
    cases hr : remove id snap with
    | none => exact h.missing hsec hpc hr
    | some found =>
      have hw : Works t f (f.removeFromWork t id snap) := .removeFrom hsec hpc
      have hfound : f.removeFromWork t id snap = f.enter t (.found found.1 found.2) := by
        simp only [FineSubs.removeFromWork, hr]
      rw [hsec] at hcurrent
      rw [hfound] at hw hsilent ⊢
      refine hsilent (h.silent hw rfl ?_ fun _ ↦ ?_)
      · rw [enter_section, hsec]
        rfl
      · rw [enter_section]
        exact ⟨id, hpc, hcurrent.2 ▸ hr⟩
  | nest hsec hpc hfree =>
    rw [hsec] at hcurrent
    refine hsilent (h.silent (.nest hsec hpc hfree) rfl ?_ fun _ ↦ ?_)
    · simp only [FineSubs.enter, update_self, hsec]
      rfl
    · simp only [FineSubs.enter, update_self]
      exact hcurrent
  | nestLoad hsec hpc =>
    rw [hsec] at hcurrent
    refine hsilent (h.silent (.nestLoad hsec hpc) rfl ?_ fun _ ↦ ?_)
    · rw [enter_section, hsec]
      rfl
    · rw [enter_section]
      obtain ⟨id, hpc, hr⟩ := hcurrent
      have hheld : Mutex.trie_write ∈ f.held t := by
        rw [held_eq hsec]
        simp [Section.held]
      have hb : Apart f.view := htracks.stored.apart
      rw [h.trie hheld (by rw [hsec]; rfl)] at hb
      exact ⟨⟨id, hpc, hr⟩, (remove_below hb hr).1, rfl⟩
  | empty hsec hpc =>
    exact h.empty htracks.stored.apart (counted_of_holds htracks.stored.trie) hsec hpc rfl
  | emptied hsec =>
    rw [hsec] at hcurrent
    refine hsilent (h.silent (.emptied hsec) rfl ?_ fun hview ↦ ?_)
    · simp only [FineSubs.unlock, FineSubs.enter, update_self, hsec]
      rfl
    · simp only [FineSubs.unlock, FineSubs.enter, update_self] at hview ⊢
      exact ⟨_, hcurrent.1, hview ▸ hcurrent.2.1, hcurrent.2.2⟩
  | erased way hsec => exact h.erased way hsec rfl
  | leaving hsec =>
    refine hsilent (h.silent (.leaving hsec) rfl ?_ fun _ ↦ ?_)
    · simp only [FineSubs.unlock, FineSubs.enter, update_self, hsec]
      rfl
    · simp only [FineSubs.unlock, FineSubs.enter, update_self]
      trivial

end Steps

end LivioArk.Msgbus.FineSubscriptions
