import LivioArk.Msgbus.FineSections

namespace LivioArk.Msgbus.FineSubscriptions

open Function LivioArk.Library.Transition LivioArk.Library.PrefixTree LivioArk.Library.Thinning
open Levels TopicMatcher TopicRegistry WildcardTrie Subscriptions SubStore Dispatching
open SubscriptionThreads

variable {Tid τ η ν : Type}

section Orphans

variable {b b' : SubState τ η} {n : ℕ}

/-- A slot of a wildcard subscription that has been taken back. -/
structure Orphan (b : SubState τ η) (n : ℕ) : Prop where
  allocated : n < b.allocated
  slots : ∀ tid, b.slots_ tid ≠ some n
  entries : ∀ y ∈ b.wildcard_trie_.root.contents, y.2.slot ≠ n

theorem Orphan.of_eq (h : Orphan b n) (ha : b'.allocated = b.allocated) (hs : b'.slots_ = b.slots_)
    (ht : b'.wildcard_trie_.root.contents ⊆ b.wildcard_trie_.root.contents) : Orphan b' n :=
  ⟨ha ▸ h.allocated, hs ▸ h.slots, fun y hy ↦ h.entries y (ht hy)⟩

theorem Orphan.createSlot [DecidableEq τ] {T : τ} {tid slot : ℕ} (h : Orphan b n)
    (hc : createSlot b T tid = (.ok slot, b')) : Orphan b' n := by
  cases createSlot_ok hc with
  | inl hold =>
    obtain ⟨rfl, -⟩ := hold
    exact h
  | inr hnew =>
    obtain ⟨-, -, rfl⟩ := hnew
    refine ⟨Nat.lt_succ_of_lt h.allocated, fun tid' he ↦ ?_, h.entries⟩
    by_cases hne : tid' = tid
    · subst hne
      simp only [update_self, Option.some.injEq] at he
      exact absurd he (Nat.ne_of_gt h.allocated)
    · simp only [update_of_ne hne] at he
      exact h.slots tid' he

theorem Orphan.subscribeWildcard (h : Orphan b n) (T : τ) (topic : Str) (handler : η) (id : ℕ) :
    Orphan (subscribeWildcard b T topic handler id) n := by
  refine ⟨Nat.lt_succ_of_lt h.allocated, h.slots, fun y hy ↦ ?_⟩
  have hmem := (Node.insertAt_contents _ _ _).perm.mem_iff.mp hy
  cases List.mem_cons.mp hmem with
  | inl hnew =>
    rw [hnew]
    exact Nat.ne_of_gt h.allocated
  | inr hold => exact h.entries y hold

theorem Orphan.removeWildcard (h : Orphan b n) (id : ℕ) : Orphan (removeWildcard b id) n := by
  rw [Subscriptions.removeWildcard]
  cases hr : remove id b.wildcard_trie_ with
  | none => exact h
  | some found =>
    obtain ⟨⟨entry, root⟩, hroot, rfl⟩ := Option.map_eq_some_iff.mp hr
    obtain ⟨-, path, hmore⟩ := Node.removeFrom_some hroot
    exact h.of_eq rfl rfl fun y hy ↦ hmore.perm.mem_iff.mpr (List.mem_cons_of_mem _ hy)

variable [DecidableEq Tid] [DecidableEq τ] {s s' : Subscribing Tid τ η ν} {t : Tid}

theorem Orphan.subscribeStep (h : Orphan s.bus n) (hs : s.subscribeStep t = some s') :
    Orphan s'.bus n := by
  cases hpc : s.subs t with
  | idle => simp [Subscribing.subscribeStep, hpc] at hs
  | createSlot x tid =>
    rcases hc : Subscriptions.createSlot s.bus x.type tid with ⟨_ | slot, bus⟩
    · obtain rfl := createSlot_error hc
      simp only [Subscribing.subscribeStep, hpc, hc, Option.some.injEq] at hs
      exact hs ▸ h
    · simp only [Subscribing.subscribeStep, hpc, hc, Option.some.injEq] at hs
      exact hs ▸ h.createSlot hc
  | insert x =>
    simp only [Subscribing.subscribeStep, hpc, Option.some.injEq] at hs
    exact hs ▸ h.subscribeWildcard x.type x.topic x.handler x.id
  | lookup | findSlot =>
    simp only [Subscribing.subscribeStep, hpc] at hs
    repeat' split at hs
    all_goals
      cases hs
      exact h
  | resolve | addSubscriber | record =>
    simp only [Subscribing.subscribeStep, hpc, Option.some.injEq] at hs
    subst hs
    exact h.of_eq rfl rfl fun _ hy ↦ hy

omit [DecidableEq τ] in
theorem Orphan.unsubscribeStep (h : Orphan s.bus n) (hs : s.unsubscribeStep t = some s') :
    Orphan s'.bus n := by
  cases hpc : s.unsubs t with
  | idle => simp [Subscribing.unsubscribeStep, hpc] at hs
  | remove id =>
    simp only [Subscribing.unsubscribeStep, hpc, Option.some.injEq] at hs
    exact hs ▸ h.removeWildcard id
  | take id =>
    have hsame : Orphan (takeSub s.bus id).2 n := h.of_eq rfl rfl fun _ hy ↦ hy
    cases hinfo : s.bus.sub_to_topic_ id with
    | none =>
      simp only [Subscribing.unsubscribeStep, hpc, takeSub, hinfo, Option.some.injEq] at hs
      exact hs ▸ h
    | some info =>
      simp only [Subscribing.unsubscribeStep, hpc, takeSub, hinfo, Option.some.injEq] at hs
      exact hs ▸ hsame
  | findSlot =>
    simp only [Subscribing.unsubscribeStep, hpc] at hs
    split at hs
    · cases hs
      exact h
    · cases hs
      exact h
  | removeSubscriber =>
    simp only [Subscribing.unsubscribeStep, hpc, Option.some.injEq] at hs
    subst hs
    exact h.of_eq rfl rfl fun _ hy ↦ hy

end Orphans

section Tracked

variable [DecidableEq Tid] [DecidableEq τ] {s s' : Subscribing Tid τ η ν}

theorem tracks_step {a : SubAction Tid τ η ν} (h : Tracks s) (hsmall : SubscriptionThreads.Small s')
    (hs : SubscriptionThreads.step s a = some s') : Tracks s' := by
  have htopics : s.topics.toFinset.card < idLimit :=
    Nat.lt_of_lt_of_le (hsmall.of_step hs).topics (by decide)
  cases a with
  | subscribe t T topic handler =>
    simp only [SubscriptionThreads.step] at hs
    split at hs
    · rename_i hmay
      cases hs
      refine h.subscribe hmay ?_
      rw [← (subscribe_calls s t T topic handler).1]
      exact hsmall.calls
    · cases hs
  | subscribeStep t => exact (subscribeStep_changes h htopics hs).tracks h
  | unsubscribeStep t => exact (unsubscribeStep_changes h hs).tracks h
  | unsubscribe t id =>
    simp only [SubscriptionThreads.step] at hs
    split at hs
    · rename_i hmay
      rw [Bool.and_eq_true] at hmay
      obtain ⟨hmay, hid⟩ := hmay
      obtain ⟨hsub, hunsub⟩ := idle_of_mayCall hmay
      cases hs
      refine h.look (.take id) hsub (fun id' hid' ↦ ?_) (List.subset_append_left _ _) ?_ ?_
      · refine (List.mem_append.mp hid').imp_right fun hid' ↦ ?_
        rw [List.mem_singleton.mp hid']
        obtain ⟨x, hx, he⟩ := List.any_eq_true.mp hid
        exact ⟨x, hx, by simpa using he⟩
      · exact List.mem_append_right _ (List.mem_singleton_self _)
      · intro id hr
        rw [hunsub] at hr
        cases hr
    · cases hs
  | publish T topic data =>
    cases hs
    exact h.publish (Nat.lt_of_lt_of_le hsmall.topics (by decide))
  | rehash way =>
    cases hs
    exact h.around (.of_eq rfl rfl rfl rfl) (h.stored.rehash way) rfl rfl h.topics (fun _ h ↦ h)
      fun _ h ↦ .inl h
  | dispatch t n =>
    simp only [SubscriptionThreads.step] at hs
    repeat' split at hs
    all_goals cases hs
    exact h.dispatching _ _ _
  | load t =>
    obtain ⟨d, -, hs⟩ := dispatchStep_some hs
    obtain ⟨frame, -, rfl⟩ := Option.map_eq_some_iff.mp hs
    exact h.dispatching _ _ _
  | call t =>
    obtain ⟨d, -, hs⟩ := dispatchStep_some hs
    split at hs
    · cases hs
      exact h.dispatching _ _ _
    · cases hs
  | return_ t =>
    simp only [SubscriptionThreads.step] at hs
    repeat' split at hs
    all_goals cases hs
    exact h.dispatching _ _ _
  | finish t =>
    obtain ⟨d, -, hs⟩ := dispatchStep_some hs
    split at hs
    · cases hs
      exact h.dispatching _ _ _
    · cases hs

theorem tracks_reachable (hs : (SubscriptionThreads.machine Tid τ η ν).Reachable s)
    (hsmall : SubscriptionThreads.Small s) : Tracks s := by
  revert hsmall
  refine Machine.Reaches.invariant (P := fun s ↦ SubscriptionThreads.Small s → Tracks s) ?_ ?_ hs
  · intro s hs _
    rw [show s = {} from hs]
    exact tracks_initial
  · intro s a t _ h _ ht hsmall
    exact tracks_step (h (hsmall.of_step ht)) hsmall ht

end Tracked

section Views

def Section.pending : Section τ η → Option (Snapshot τ ℕ)
  | .emptied _ snap | .erased snap => some snap
  | _ => none

variable (f : FineSubs Tid τ η ν)

def FineSubs.visible : Snapshot τ ℕ :=
  ((f.locks .trie_write).bind fun t ↦ (f.sections t).pending).getD f.threads.bus.wildcard_trie_

/-- The bus as if a removal happened in one go. -/
def FineSubs.view : SubState τ η := { f.threads.bus with wildcard_trie_ := f.visible }

end Views

def viewed (s : Subscribing Tid τ η ν) (trie : Snapshot τ ℕ)
    (dispatches : Tid → Option (Dispatch τ η ν)) : Subscribing Tid τ η ν :=
  { s with bus := { s.bus with wildcard_trie_ := trie }, dispatches }

/-- What a mutex guards is the same. Slots that are not there yet are nobody's. -/
def Same (b b' : SubState τ η) : Mutex → Prop
  | .slots_write => b'.slots_ = b.slots_
  | .trie_write => b'.wildcard_trie_ = b.wildcard_trie_
  | .slot n => n < b.allocated → (b'.heap n).subscribers_ = (b.heap n).subscribers_

structure Counted (snap : Snapshot τ ℕ) : Prop where
  valid : snap.root.Valid
  count : snap.entry_count = snap.root.contents.length

def Current (f : FineSubs Tid τ η ν) (t : Tid) : Section τ η → Prop
  | .outside | .locked | .leaving _ => True
  | .slots old => f.mutex t = some .slots_write ∧ old = f.threads.bus.slots_
  | .list old => ∃ n, f.mutex t = some (.slot n) ∧ n < f.threads.bus.allocated ∧
      old = (f.threads.bus.heap n).subscribers_
  | .clone snap => f.mutex t = some .trie_write ∧ snap = f.threads.bus.wildcard_trie_
  | .found entry snap | .nested entry snap =>
    ∃ id, f.threads.unsubs t = .remove id ∧
      remove id f.threads.bus.wildcard_trie_ = some (entry, snap)
  | .nestedList entry snap old =>
    (∃ id, f.threads.unsubs t = .remove id ∧
      remove id f.threads.bus.wildcard_trie_ = some (entry, snap)) ∧
      entry.slot < f.threads.bus.allocated ∧ old = (f.threads.bus.heap entry.slot).subscribers_
  | .emptied entry snap =>
    (∃ id, remove id f.threads.bus.wildcard_trie_ = some (entry, snap)) ∧
      Orphan f.view entry.slot ∧ Counted f.threads.bus.wildcard_trie_
  | .erased snap =>
    ∃ entry, (∃ id, remove id f.threads.bus.wildcard_trie_ = some (entry, snap)) ∧
      Orphan f.view entry.slot ∧ Counted f.threads.bus.wildcard_trie_

/-- A dispatch is still to come to slots that the dispatch of the view does not
have, but which nobody subscribes to any more. -/
structure Lags (b : SubState τ η) (d d' : Dispatch τ η ν) : Prop where
  msg : d'.frame.msg = d.frame.msg
  exact : d'.frame.exact = d.frame.exact
  wildcards : d'.frame.wildcards = d.frame.wildcards
  slots : Thinned (Orphan b) d.frame.slots d'.frame.slots
  subs : d'.frame.subs = d.frame.subs
  handling : d'.handling = d.handling
  due : d'.due = d.due
  invoked : d'.invoked = d.invoked
  gone : d.frame.subs ≠ [] → d'.gone = d.gone

theorem Lags.mono {b b' : SubState τ η} {d d' : Dispatch τ η ν} (h : Lags b d d')
    (hb : ∀ n, Orphan b n → Orphan b' n) : Lags b' d d' :=
  { h with slots := h.slots.mono hb }

/-- The threads, with the dispatches `D` in the place of their own, are in step
with the sections. -/
structure Simulates (f : FineSubs Tid τ η ν) (D : Tid → Option (Dispatch τ η ν)) : Prop where
  locked : Locked f
  current : ∀ t, Current f t (f.sections t)
  lags : ∀ t, Option.Rel (Lags f.view) (f.threads.dispatches t) (D t)

def FineSubs.coarse (f : FineSubs Tid τ η ν) (D : Tid → Option (Dispatch τ η ν)) :
    Subscribing Tid τ η ν := viewed f.threads f.visible D

theorem counted_of_holds {b : SubState τ η} {live : List (Sub τ η)} (h : TrieHolds b live) :
    Counted b.wildcard_trie_ := by
  have hlen := h.contents.length_eq
  rw [List.length_map, List.length_map, ← h.count] at hlen
  exact ⟨h.valid, hlen.symm⟩

section Visible

variable {f f' : FineSubs Tid τ η ν} {t u : Tid} {snap : Snapshot τ ℕ}

theorem trie_held (hp : (f.sections t).pending = some snap) : Mutex.trie_write ∈ f.held t := by
  cases hsec : f.sections t with
  | emptied entry snap =>
    rw [held_eq hsec]
    exact List.mem_cons_of_mem _ (List.mem_singleton_self _)
  | erased snap =>
    rw [held_eq hsec]
    exact List.mem_singleton_self _
  | _ =>
    rw [hsec] at hp
    cases hp

theorem visible_pending (h : Locked f) (hp : (f.sections t).pending = some snap) :
    f.visible = snap := by
  have hlock := (h t .trie_write).mp (trie_held hp)
  rw [FineSubs.visible, hlock, Option.bind_some, hp, Option.getD_some]

theorem visible_held (h : Locked f) (hm : Mutex.trie_write ∈ f.held t)
    (hp : (f.sections t).pending = none) : f.visible = f.threads.bus.wildcard_trie_ := by
  have hlock := (h t .trie_write).mp hm
  rw [FineSubs.visible, hlock, Option.bind_some, hp, Option.getD_none]

theorem visible_free (hp : ∀ u, (f.sections u).pending = none) :
    f.visible = f.threads.bus.wildcard_trie_ := by
  rw [FineSubs.visible]
  cases hlock : f.locks .trie_write with
  | none => rfl
  | some u => rw [Option.bind_some, hp u, Option.getD_none]

theorem visible_congr (h : Locked f) (h' : Locked f')
    (hp : ∀ u, (f'.sections u).pending = (f.sections u).pending)
    (ht : f'.threads.bus.wildcard_trie_ = f.threads.bus.wildcard_trie_) :
    f'.visible = f.visible := by
  by_cases hnone : ∀ u, (f.sections u).pending = none
  · rw [visible_free hnone, visible_free fun u ↦ (hp u).trans (hnone u), ht]
  · push Not at hnone
    obtain ⟨u, hu⟩ := hnone
    obtain ⟨snap, hsnap⟩ := Option.ne_none_iff_exists'.mp hu
    rw [visible_pending h hsnap, visible_pending h' ((hp u).trans hsnap)]

end Visible

section Spared

variable {f f' : FineSubs Tid τ η ν} {t u : Tid} {sec : Section τ η}

theorem Same.refl (b : SubState τ η) (m : Mutex) : Same b b m := by
  cases m with
  | slot n => exact fun _ ↦ rfl
  | _ => rfl

theorem Current.spared (hc : Current f u sec) (hsec : f.sections u = sec)
    (hmutex : f'.mutex u = f.mutex u) (hunsubs : f'.threads.unsubs u = f.threads.unsubs u)
    (hcells : ∀ m ∈ f.held u, Same f.threads.bus f'.threads.bus m)
    (hallocated : f.threads.bus.allocated ≤ f'.threads.bus.allocated)
    (horphan : ∀ n, Orphan f.view n → Orphan f'.view n) : Current f' u sec := by
  rw [held_eq hsec] at hcells
  cases sec with
  | outside | locked | leaving => trivial
  | slots old =>
    obtain ⟨hm, rfl⟩ := hc
    have hsame := hcells .slots_write (by rw [hm]; exact List.mem_singleton_self _)
    exact ⟨hmutex.trans hm, hsame.symm⟩
  | list old =>
    obtain ⟨n, hm, hn, rfl⟩ := hc
    have hsame := hcells (.slot n) (by rw [hm]; exact List.mem_singleton_self _)
    exact ⟨n, hmutex.trans hm, hn.trans_le hallocated, (hsame hn).symm⟩
  | clone snap =>
    obtain ⟨hm, rfl⟩ := hc
    have hsame := hcells .trie_write (by rw [hm]; exact List.mem_singleton_self _)
    exact ⟨hmutex.trans hm, hsame.symm⟩
  | found entry snap | nested entry snap =>
    obtain ⟨id, hpc, hr⟩ := hc
    have hsame : f'.threads.bus.wildcard_trie_ = f.threads.bus.wildcard_trie_ :=
      hcells .trie_write (by simp [Section.held])
    exact ⟨id, hunsubs.trans hpc, hsame ▸ hr⟩
  | nestedList entry snap old =>
    obtain ⟨⟨id, hpc, hr⟩, hn, rfl⟩ := hc
    have hsame : f'.threads.bus.wildcard_trie_ = f.threads.bus.wildcard_trie_ :=
      hcells .trie_write (by simp [Section.held])
    have hlist := hcells (.slot entry.slot) (by simp [Section.held])
    exact ⟨⟨id, hunsubs.trans hpc, hsame ▸ hr⟩, hn.trans_le hallocated, (hlist hn).symm⟩
  | emptied entry snap =>
    obtain ⟨⟨id, hr⟩, ho, hcount⟩ := hc
    have hsame : f'.threads.bus.wildcard_trie_ = f.threads.bus.wildcard_trie_ :=
      hcells .trie_write (by simp [Section.held])
    exact ⟨⟨id, hsame ▸ hr⟩, horphan _ ho, hsame ▸ hcount⟩
  | erased snap =>
    obtain ⟨entry, ⟨id, hr⟩, ho, hcount⟩ := hc
    have hsame : f'.threads.bus.wildcard_trie_ = f.threads.bus.wildcard_trie_ :=
      hcells .trie_write (by simp [Section.held])
    exact ⟨entry, ⟨id, hsame ▸ hr⟩, horphan _ ho, hsame ▸ hcount⟩

end Spared

section Publishing

variable {b : SubState τ η} {id slot : ℕ}

theorem removeLoop_eq (id : ℕ) (old new_list : List (Subscriber η)) (found : Bool) :
    removeLoop id old new_list found =
      (new_list ++ old.filter fun sub ↦ sub.id ≠ id, found || old.any fun sub ↦ sub.id = id) := by
  induction old generalizing new_list found with
  | nil => simp [removeLoop]
  | cons sub old ih =>
    by_cases hid : sub.id = id
    · simp [removeLoop, hid, ih]
    · simp [removeLoop, hid, ih]

/-- A list that has no such subscriber is not published again, which makes no
difference. -/
theorem publishWithout_eq (b : SubState τ η) (id slot : ℕ) :
    publishWithout b id slot (b.heap slot).subscribers_ =
      updateSlot b slot (·.removeSubscriber id) := by
  rw [publishWithout, removeLoop_eq]
  cases hany : (b.heap slot).subscribers_.any fun sub ↦ sub.id = id with
  | true => rfl
  | false =>
    have hall : (b.heap slot).removeSubscriber id = b.heap slot := by
      simp only [List.any_eq_false, decide_eq_true_eq] at hany
      have hfilter : (b.heap slot).subscribers_.filter (fun sub ↦ sub.id ≠ id) =
          (b.heap slot).subscribers_ := List.filter_eq_self.mpr fun sub hsub ↦ by
        simpa using hany sub hsub
      rw [TopicSlot.removeSubscriber, hfilter]
    simp only [Bool.or_false, updateSlot, hall, update_eq_self]

end Publishing

section Plain

variable {s s' : Subscribing Tid τ η ν} {t : Tid}

structure Plain (s s' : Subscribing Tid τ η ν) : Prop where
  dispatches : s'.dispatches = s.dispatches
  slots : s'.bus.slots_ = s.bus.slots_
  heap : s'.bus.heap = s.bus.heap
  trie : s'.bus.wildcard_trie_ = s.bus.wildcard_trie_
  allocated : s'.bus.allocated = s.bus.allocated

theorem Plain.same (h : Plain s s') (m : Mutex) : Same s.bus s'.bus m := by
  cases m with
  | slots_write => exact h.slots
  | trie_write => exact h.trie
  | slot n => exact fun _ ↦ by rw [h.heap]

variable [DecidableEq Tid]

theorem unsubscribeStep_plain (hm : unsubscribeMutex (s.unsubs t) = none)
    (hs : s.unsubscribeStep t = some s') :
    Plain s s' ∧ ∀ trie D, (viewed s trie D).unsubscribeStep t = some (viewed s' trie D) := by
  cases hpc : s.unsubs t with
  | idle => simp [Subscribing.unsubscribeStep, hpc] at hs
  | take id =>
    cases hinfo : s.bus.sub_to_topic_ id with
    | none =>
      simp only [Subscribing.unsubscribeStep, hpc, takeSub, hinfo, Option.some.injEq] at hs
      subst hs
      refine ⟨⟨rfl, rfl, rfl, rfl, rfl⟩, fun trie D ↦ ?_⟩
      simp only [Subscribing.unsubscribeStep, viewed, hpc, takeSub, hinfo]
      rfl
    | some info =>
      simp only [Subscribing.unsubscribeStep, hpc, takeSub, hinfo, Option.some.injEq] at hs
      subst hs
      refine ⟨⟨rfl, rfl, rfl, rfl, rfl⟩, fun trie D ↦ ?_⟩
      simp only [Subscribing.unsubscribeStep, viewed, hpc, takeSub, hinfo]
      rfl
  | findSlot id tid =>
    cases hslot : s.bus.slots_ tid with
    | none =>
      simp only [Subscribing.unsubscribeStep, hpc, hslot, Option.some.injEq] at hs
      subst hs
      refine ⟨⟨rfl, rfl, rfl, rfl, rfl⟩, fun trie D ↦ ?_⟩
      simp only [Subscribing.unsubscribeStep, viewed, hpc, hslot]
      rfl
    | some slot =>
      simp only [Subscribing.unsubscribeStep, hpc, hslot, Option.some.injEq] at hs
      subst hs
      refine ⟨⟨rfl, rfl, rfl, rfl, rfl⟩, fun trie D ↦ ?_⟩
      simp only [Subscribing.unsubscribeStep, viewed, hpc, hslot]
      rfl
  | removeSubscriber | remove =>
    rw [hpc] at hm
    cases hm

variable [DecidableEq τ]

theorem checkedSlot_viewed (b : SubState τ η) (trie : Snapshot τ ℕ) (T : τ) (tid slot : ℕ) :
    checkedSlot { b with wildcard_trie_ := trie } T tid slot = checkedSlot b T tid slot := rfl

theorem subscribeStep_plain (hm : subscribeMutex (s.subs t) = none)
    (hs : s.subscribeStep t = some s') :
    Plain s s' ∧ ∀ trie D, (viewed s trie D).subscribeStep t = some (viewed s' trie D) := by
  cases hpc : s.subs t with
  | idle => simp [Subscribing.subscribeStep, hpc] at hs
  | lookup x =>
    cases hfind : find x.topic s.bus.registry_ with
    | none =>
      simp only [Subscribing.subscribeStep, hpc, hfind, Option.some.injEq] at hs
      subst hs
      refine ⟨⟨rfl, rfl, rfl, rfl, rfl⟩, fun trie D ↦ ?_⟩
      simp only [Subscribing.subscribeStep, viewed, hpc, hfind]
      rfl
    | some tid =>
      simp only [Subscribing.subscribeStep, hpc, hfind, Option.some.injEq] at hs
      subst hs
      refine ⟨⟨rfl, rfl, rfl, rfl, rfl⟩, fun trie D ↦ ?_⟩
      simp only [Subscribing.subscribeStep, viewed, hpc, hfind]
      rfl
  | findSlot x tid =>
    cases hslot : s.bus.slots_ tid with
    | none =>
      simp only [Subscribing.subscribeStep, hpc, hslot, Option.some.injEq] at hs
      subst hs
      refine ⟨⟨rfl, rfl, rfl, rfl, rfl⟩, fun trie D ↦ ?_⟩
      simp only [Subscribing.subscribeStep, viewed, hpc, hslot]
      rfl
    | some slot =>
      cases hcheck : checkedSlot s.bus x.type tid slot with
      | error e =>
        simp only [Subscribing.subscribeStep, hpc, hslot, hcheck, Option.some.injEq] at hs
        subst hs
        refine ⟨⟨rfl, rfl, rfl, rfl, rfl⟩, fun trie D ↦ ?_⟩
        simp only [Subscribing.subscribeStep, viewed, hpc, hslot, checkedSlot_viewed, hcheck]
        rfl
      | ok found =>
        simp only [Subscribing.subscribeStep, hpc, hslot, hcheck, Option.some.injEq] at hs
        subst hs
        refine ⟨⟨rfl, rfl, rfl, rfl, rfl⟩, fun trie D ↦ ?_⟩
        simp only [Subscribing.subscribeStep, viewed, hpc, hslot, checkedSlot_viewed, hcheck]
        rfl
  | resolve x | record x info =>
    simp only [Subscribing.subscribeStep, hpc, Option.some.injEq] at hs
    subst hs
    refine ⟨⟨rfl, rfl, rfl, rfl, rfl⟩, fun trie D ↦ ?_⟩
    simp only [Subscribing.subscribeStep, viewed, hpc]
    rfl
  | createSlot | addSubscriber | insert =>
    rw [hpc] at hm
    cases hm

end Plain

end LivioArk.Msgbus.FineSubscriptions
