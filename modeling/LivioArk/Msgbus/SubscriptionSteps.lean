import LivioArk.Msgbus.SubscriptionTracks

namespace LivioArk.Msgbus.SubscriptionThreads

open Function LivioArk.Library.Transition LivioArk.Library.PrefixTree
open Levels TopicMatcher TopicRegistry WildcardTrie Subscriptions SubStore Dispatching

variable {Tid τ η ν : Type}

section Quiet

variable {s s' : Subscribing Tid τ η ν} {t : Tid}

theorem idle_of_mayCall (hmay : s.mayCall t = true) : s.subs t = .idle ∧ s.unsubs t = .idle := by
  simp only [Subscribing.mayCall, Subscribing.quiet, Bool.and_eq_true] at hmay
  obtain ⟨⟨hsub, hunsub⟩, _⟩ := hmay
  constructor
  · cases hpc : s.subs t with
    | idle => rfl
    | _ =>
      rw [hpc] at hsub
      cases hsub
  · cases hpc : s.unsubs t with
    | idle => rfl
    | _ =>
      rw [hpc] at hunsub
      cases hunsub

theorem tracks_initial : Tracks ({} : Subscribing Tid τ η ν) where
  stored := stored_initial
  next := rfl
  topics _ hn := (by cases hn)
  nodup := List.nodup_nil
  unused _ _ := rfl
  present _ := ⟨fun h ↦ h.elim, fun ⟨_, h, _⟩ ↦ (by cases h)⟩
  unrecorded _ _ := rfl
  recorded _ h := (by cases h)
  subs _ := trivial
  unsubs _ := trivial
  single _ := .inl rfl
  takers _ _ h := (by cases h)
  returned _ h := (by cases h)
  thrown _ h := (by cases h)
  asked _ h := (by cases h)
  published _ h := (by cases h)

/-- The invariant does not look at the dispatches. -/
theorem Tracks.dispatching (h : Tracks s) (dispatches : Tid → Option (Dispatch τ η ν))
    (invocations : List (Invocation η ν × List ℕ)) (reports : List (Report τ η ν)) :
    Tracks { s with dispatches, invocations, reports } := by
  refine { h with
    subs := fun t ↦ ?_
    unsubs := fun t ↦ ?_
    returned := fun x hx ↦ { h.returned x hx with }
    thrown := fun x hx ↦ { h.thrown x hx with } }
  · have hfits := h.subs t
    cases hpc : s.subs t <;> rw [hpc] at hfits <;> exact hfits
  · have hfits := h.unsubs t
    cases hpc : s.unsubs t <;> rw [hpc] at hfits <;> exact hfits

end Quiet

section Subscribe

variable {s s' : Subscribing Tid τ η ν} {t : Tid} {x : Sub τ η} {T : τ} {topic : Str} {handler : η}

theorem Tracks.begin (h : Tracks s) (hB : s.calls + 1 < subscriptionIdLimit) {q : Status Tid}
    (hq : q = .pending t ∨ q = .removed) (hbus : s'.bus = (fetchId s.bus).2)
    (hcalls : s'.calls = s.calls + 1) (hlive : s'.live = s.live)
    (hstatus : s'.status = update s.status (s.calls + 1) q)
    (hsubs : ∀ u ≠ t, s'.subs u = s.subs u) (hunsubs : s'.unsubs = s.unsubs)
    (htopics : s.topics ⊆ s'.topics) (hreturned : s'.returned = s.returned)
    (hasked : s'.asked = s.asked) (hpublished : s'.published = s.published)
    (hsub : SubscribeFits s' t (s'.subs t)) (hunsub : s.unsubs t = .idle)
    (hthrown : ∀ x ∈ s'.thrown, x ∈ s.thrown ∨ ThrownFits s' x) : Tracks s' := by
  have hfresh : s.status (s.calls + 1) = .unused := h.unused _ (Nat.lt_succ_self _)
  have hqp : ¬ q.present := by rcases hq with rfl | rfl <;> exact id
  have hqr : q ≠ .recorded := by rcases hq with rfl | rfl <;> exact fun h ↦ by cases h
  have hqt : ∀ u, q ≠ .taken u := by rcases hq with rfl | rfl <;> exact fun u h ↦ by cases h
  have hnot : ∀ x ∈ s'.live, x.id ≠ s.calls + 1 := by
    intro x hx he
    have hpresent := (h.present (s.calls + 1)).mpr ⟨x, hlive ▸ hx, he⟩
    rw [hfresh] at hpresent
    exact hpresent
  have hm : Marks t (s.calls + 1) q s s' := {
    ext := hbus ▸ .of_eq rfl rfl rfl rfl
    topics := htopics
    asked := hasked ▸ fun _ h ↦ h
    subs := hsubs
    unsubs := fun u _ ↦ by rw [hunsubs]
    status := hstatus
    free := fun u _ hu ↦ by rw [hfresh] at hu; cases hu
    taken := fun u hu ↦ absurd hu (hqt u)
    taker := fun id _ hid ↦ by rwa [hunsubs]
    settled := fun hs ↦ by rw [hfresh] at hs; exact hs.elim
    recorded := fun hs ↦ by rw [hfresh] at hs; cases hs
    removed := fun hs ↦ by rw [hfresh] at hs; cases hs
    live := fun _ _ ↦ by rw [hlive]
    fresh := fun x hx he ↦ absurd he (hnot x hx)
    present := ⟨fun hp ↦ absurd hp hqp, fun ⟨x, hx, he⟩ ↦ absurd he (hnot x hx)⟩
    others := fun _ _ ↦ by rw [hbus]; rfl
    unrecorded := fun _ ↦ by
      rw [hbus]
      exact h.unrecorded _ (by rw [hfresh]; exact fun h ↦ by cases h)
    record := fun hq ↦ absurd hq hqr }
  refine h.mark hm ?_ ?_ ?_ (hlive ▸ h.nodup) (hcalls ▸ Nat.le_succ _) (hcalls ▸ Nat.le_refl _)
    hsub ?_ (.inr (hunsubs ▸ hunsub)) (fun x hx ↦ .inl (hreturned ▸ hx)) hthrown ?_ hpublished
  · rw [hbus, hlive]
    exact h.stored.frame _ _
  · rw [hbus, hcalls, fetchId, h.next, Nat.mod_eq_of_lt hB]
  · rw [hbus]
    exact fun name hn ↦ htopics (h.topics name hn)
  · rw [hunsubs, hunsub]
    trivial
  · rw [hasked, hreturned]
    exact h.asked

theorem Tracks.known (h : Tracks s) {id : ℕ} (hid : s.status id ≠ .unused) : id ≤ s.calls :=
  Nat.le_of_not_lt fun hlt ↦ hid (h.unused id hlt)

variable [DecidableEq Tid]

theorem Tracks.subscribe (h : Tracks s) (hmay : s.mayCall t = true)
    (hB : s.calls + 1 < subscriptionIdLimit) : Tracks (s.subscribe t T topic handler) := by
  obtain ⟨_, hunsub⟩ := idle_of_mayCall hmay
  have hid : (s.bus.next_id_ + 1) % subscriptionIdLimit = s.calls + 1 := by
    rw [h.next, Nat.mod_eq_of_lt hB]
  have hsubs : ∀ (pc : SubscribePc τ η) u, u ≠ t → update s.subs t pc u = s.subs u :=
    fun pc u hu ↦ update_of_ne hu _ _
  simp only [Subscribing.subscribe, fetchId, hid]
  split
  · rename_i hw
    split
    · refine h.begin hB (.inr rfl) ?_ rfl rfl rfl (hsubs .idle) rfl (fun _ h ↦ h) rfl rfl rfl ?_
        hunsub fun x hx ↦ ?_
      · simp only [fetchId, hid, Subscribing.throw, Subscribing.goto, Subscribing.mark]
      · simp only [Subscribing.throw, Subscribing.goto, Subscribing.mark, update_self]
        trivial
      · refine (List.mem_append.mp hx).imp_right fun hx ↦ ?_
        rw [List.mem_singleton.mp hx]
        refine ⟨update_self .., fun hw' ↦ ?_⟩
        rw [hw] at hw'
        cases hw'
    · refine h.begin hB (.inl rfl) ?_ rfl rfl rfl (hsubs _) rfl (fun _ h ↦ h) rfl rfl rfl ?_
        hunsub fun x hx ↦ .inl hx
      · simp only [fetchId, hid, Subscribing.goto, Subscribing.mark]
      · simp only [Subscribing.goto, Subscribing.mark, update_self]
        exact ⟨update_self .., hw⟩
  · rename_i hw
    refine h.begin hB (.inl rfl) ?_ rfl rfl rfl (hsubs _) rfl (List.subset_append_left _ _) rfl rfl
      rfl ?_ hunsub fun x hx ↦ .inl hx
    · simp only [fetchId, hid, Subscribing.goto, Subscribing.mark]
    · simp only [Subscribing.goto, Subscribing.mark, update_self]
      exact ⟨update_self .., by simpa using hw, by simp⟩

theorem Tracks.settle (h : Tracks s) {pc : SubscribePc τ η} {bus : SubState τ η}
    (hunsub : s.unsubs t = .idle) (hext : Extends s.bus bus) (hstored : Stored bus s.live)
    (hnext : bus.next_id_ = s.bus.next_id_) (hrecords : bus.sub_to_topic_ = s.bus.sub_to_topic_)
    (hnames : ∀ name ∈ bus.registry_.map_.map Prod.fst, name ∈ s.topics)
    (hsub : SubscribeFits { s.goto t pc with bus } t pc) : Tracks { s.goto t pc with bus } := by
  refine h.quiet (t := t) hext hstored hnext hrecords hnames (fun _ h ↦ h) rfl rfl rfl rfl rfl
    (fun _ hid ↦ .inl hid) (fun _ h ↦ h) (fun u hu ↦ update_of_ne hu _ _) (fun _ _ ↦ rfl) ?_ ?_
    (.inr hunsub) (fun _ h ↦ h) fun _ hmsg ↦ .inl hmsg
  · simp only [Subscribing.goto, update_self]
    exact hsub
  · simp only [Subscribing.goto, hunsub]
    trivial

theorem Tracks.throw (h : Tracks s) (hunsub : s.unsubs t = .idle)
    (hid : s.status x.id = .pending t)
    (hinst : ∃ T, T ≠ x.type ∧ Installed s.bus x.topic T) : Tracks (s.throw t x) := by
  have hnot : ∀ y ∈ s.live, y.id ≠ x.id := by
    intro y hy he
    have hpresent := (h.present x.id).mpr ⟨y, hy, he⟩
    rw [hid] at hpresent
    exact hpresent
  have hle : x.id ≤ s.calls := by
    refine Nat.le_of_not_lt fun hlt ↦ ?_
    rw [h.unused _ hlt] at hid
    cases hid
  have hm : Marks t x.id .removed s (s.throw t x) := {
    ext := .of_eq rfl rfl rfl rfl
    topics := fun _ h ↦ h
    asked := fun _ h ↦ h
    subs := fun u hu ↦ update_of_ne hu _ _
    unsubs := fun _ _ ↦ rfl
    status := rfl
    free := fun u hu he ↦ by rw [hid] at he; exact hu (Option.some.inj he).symm
    taken := fun _ hq ↦ by cases hq
    taker := fun _ _ hid ↦ hid
    settled := fun _ ↦ trivial
    recorded := fun hs ↦ by rw [hid] at hs; cases hs
    removed := fun hs ↦ by rw [hid] at hs; cases hs
    live := fun _ _ ↦ .rfl
    fresh := fun y hy _ ↦ .inl hy
    present := ⟨fun hp ↦ hp.elim, fun ⟨y, hy, he⟩ ↦ absurd he (hnot y hy)⟩
    others := fun _ _ ↦ rfl
    unrecorded := fun _ ↦ h.unrecorded x.id (by rw [hid]; exact fun h ↦ by cases h)
    record := fun hq ↦ by cases hq }
  refine h.mark hm h.stored h.next h.topics h.nodup (Nat.le_refl _) hle ?_ ?_ (.inr hunsub)
    (fun y hy ↦ .inl hy) (fun y hy ↦ ?_) h.asked rfl
  · simp only [Subscribing.throw, Subscribing.goto, Subscribing.mark, update_self]
    trivial
  · simp only [Subscribing.throw, Subscribing.goto, Subscribing.mark, hunsub]
    trivial
  · refine (List.mem_append.mp hy).imp_right fun hy ↦ ?_
    rw [List.mem_singleton.mp hy]
    exact ⟨update_self .., fun _ ↦ hinst⟩

theorem Tracks.add (h : Tracks s) (hunsub : s.unsubs t = .idle) (hid : s.status x.id = .pending t)
    {bus : SubState τ η} {info : SubInfo} (hext : Extends s.bus bus)
    (hstored : Stored bus (s.live ++ [x])) (hnext : bus.next_id_ = s.bus.next_id_)
    (hrecords : bus.sub_to_topic_ = s.bus.sub_to_topic_)
    (hregistry : bus.registry_ = s.bus.registry_) (hdesc : Describes bus.registry_ x info)
    (hinst : isWildcard x.topic = false → Installed bus x.topic x.type) :
    Tracks { (s.goto t (.record x info)).mark x.id (.added t) with
      bus, live := s.live ++ [x] } := by
  have hnot : ∀ y ∈ s.live, y.id ≠ x.id := by
    intro y hy he
    have hpresent := (h.present x.id).mpr ⟨y, hy, he⟩
    rw [hid] at hpresent
    exact hpresent
  have hm : Marks t x.id (.added t) s { (s.goto t (.record x info)).mark x.id (.added t) with
      bus, live := s.live ++ [x] } := {
    ext := hext
    topics := fun _ h ↦ h
    asked := fun _ h ↦ h
    subs := fun u hu ↦ update_of_ne hu _ _
    unsubs := fun _ _ ↦ rfl
    status := rfl
    free := fun u hu he ↦ by rw [hid] at he; exact hu (Option.some.inj he).symm
    taken := fun _ hq ↦ by cases hq
    taker := fun _ _ hid ↦ hid
    settled := fun hs ↦ by rw [hid] at hs; exact hs.elim
    recorded := fun hs ↦ by rw [hid] at hs; cases hs
    removed := fun hs ↦ by rw [hid] at hs; cases hs
    live := fun y hy ↦ by
      have hne : y ≠ x := fun he ↦ hy (he ▸ rfl)
      simp [hne]
    fresh := fun y _ _ ↦ .inr (by rw [hid]; exact fun h ↦ h)
    present := ⟨fun _ ↦ ⟨x, by simp, rfl⟩, fun _ ↦ trivial⟩
    others := fun _ _ ↦ by rw [hrecords]
    unrecorded := fun _ ↦ by
      rw [hrecords]
      exact h.unrecorded x.id (by rw [hid]; exact fun h ↦ by cases h)
    record := fun hq ↦ by cases hq }
  refine h.mark hm hstored (hnext.trans h.next) ?_ ?_ (Nat.le_refl _) ?_ ?_ ?_ (.inr hunsub)
    (fun y hy ↦ .inl hy) (fun y hy ↦ .inl hy) h.asked rfl
  · rw [hregistry]
    exact h.topics
  · rw [List.map_append, List.nodup_append]
    refine ⟨h.nodup, List.nodup_singleton _, fun a ha b hb ↦ ?_⟩
    obtain ⟨y, hy, rfl⟩ := List.mem_map.mp ha
    rw [List.mem_singleton.mp hb]
    exact hnot y hy
  · exact h.known (by rw [hid]; exact fun h ↦ by cases h)
  · simp only [Subscribing.goto, Subscribing.mark, update_self]
    exact ⟨update_self .., by simp, hdesc, hinst⟩
  · simp only [Subscribing.goto, Subscribing.mark, hunsub]
    trivial

theorem Tracks.record (h : Tracks s) {info : SubInfo} (hpc : s.subs t = .record x info) :
    Tracks { (s.goto t .idle).mark x.id .recorded with
      bus := recordSub s.bus x.id info
      returned := s.returned ++ [x] } := by
  have hunsub : s.unsubs t = .idle := (h.single t).resolve_left fun he ↦ by
    rw [hpc] at he
    cases he
  have hfits := h.subs t
  rw [hpc] at hfits
  obtain ⟨hid, hx, hdesc, hinst⟩ := hfits
  have hm : Marks t x.id .recorded s { (s.goto t .idle).mark x.id .recorded with
      bus := recordSub s.bus x.id info
      returned := s.returned ++ [x] } := {
    ext := .of_eq rfl rfl rfl rfl
    topics := fun _ h ↦ h
    asked := fun _ h ↦ h
    subs := fun u hu ↦ update_of_ne hu _ _
    unsubs := fun _ _ ↦ rfl
    status := rfl
    free := fun u hu he ↦ by rw [hid] at he; exact hu (Option.some.inj he).symm
    taken := fun _ hq ↦ by cases hq
    taker := fun _ _ hid ↦ hid
    settled := fun _ ↦ trivial
    recorded := fun hs ↦ by rw [hid] at hs; cases hs
    removed := fun hs ↦ by rw [hid] at hs; cases hs
    live := fun _ _ ↦ .rfl
    fresh := fun y hy _ ↦ .inl hy
    present := ⟨fun _ ↦ ⟨x, hx, rfl⟩, fun _ ↦ trivial⟩
    others := fun id hne ↦ update_of_ne hne _ _
    unrecorded := fun hq ↦ absurd rfl hq
    record := fun _ y hy he ↦ by
      obtain rfl := eq_of_id h.nodup hx hy he
      exact ⟨info, update_self .., hdesc⟩ }
  refine h.mark hm (h.stored.frame _ _) h.next h.topics h.nodup (Nat.le_refl _) ?_ ?_ ?_
    (.inr hunsub) (fun y hy ↦ ?_) (fun y hy ↦ .inl hy) (fun id hasked ↦ ?_) rfl
  · exact h.known (by rw [hid]; exact fun h ↦ by cases h)
  · simp only [Subscribing.goto, Subscribing.mark, update_self]
    trivial
  · simp only [Subscribing.goto, Subscribing.mark, hunsub]
    trivial
  · refine (List.mem_append.mp hy).imp_right fun hy ↦ ?_
    rw [List.mem_singleton.mp hy]
    refine ⟨fun y hy he ↦ eq_of_id h.nodup hx hy he, ?_, fun _ ↦ update_self .., fun hw ↦ ?_⟩
    · simp only [Subscribing.mark, update_self]
      trivial
    · obtain ⟨tid, slot, hfind, hslot, hty⟩ := hinst hw
      exact ⟨tid, slot, hfind, hslot, hty⟩
  · obtain ⟨y, hy, he⟩ := h.asked id hasked
    exact ⟨y, List.mem_append_left _ hy, he⟩

end Subscribe

section Unsubscribe

variable [DecidableEq Tid] {s s' : Subscribing Tid τ η ν} {t : Tid} {id : ℕ}

theorem Tracks.look (h : Tracks s) (pc : UnsubscribePc) {asked gone : List ℕ}
    (hsub : s.subs t = .idle) (hasked : ∀ id ∈ asked, id ∈ s.asked ∨ ∃ x ∈ s.returned, x.id = id)
    (hmore : s.asked ⊆ asked) (hunsub : UnsubscribeFits { s.goto' t pc with asked, gone } t pc)
    (htaker : ∀ id, (s.unsubs t).removing = some id → pc.removing = some id) :
    Tracks { s.goto' t pc with asked, gone } := by
  refine h.quiet (t := t) (.of_eq rfl rfl rfl rfl) h.stored rfl rfl h.topics (fun _ h ↦ h) rfl rfl
    rfl rfl rfl hasked hmore (fun _ _ ↦ rfl) (fun u hu ↦ update_of_ne hu _ _) ?_ ?_ (.inl hsub)
    (fun id hid ↦ ?_) fun _ hmsg ↦ .inl hmsg
  · simp only [Subscribing.goto', hsub]
    trivial
  · simp only [Subscribing.goto', update_self]
    exact hunsub
  · simp only [Subscribing.goto', update_self]
    exact htaker id hid

theorem Tracks.take (h : Tracks s) (hpc : s.unsubs t = .take id) {info : SubInfo}
    (hinfo : s.bus.sub_to_topic_ id = some info) :
    Tracks { (s.goto' t (if info.is_wildcard then .remove id else .findSlot id info.tid)).mark id
      (.taken t) with bus := (takeSub s.bus id).2 } := by
  have hsub : s.subs t = .idle := (h.single t).resolve_right fun he ↦ by
    rw [hpc] at he
    cases he
  have hasked : id ∈ s.asked := by
    have hfits := h.unsubs t
    rw [hpc] at hfits
    exact hfits
  have hid : s.status id = .recorded := by
    refine Decidable.of_not_not fun hne ↦ ?_
    rw [h.unrecorded id hne] at hinfo
    cases hinfo
  have hpresent : (s.status id).present := by rw [hid]; trivial
  obtain ⟨x, hx, rfl⟩ := (h.present id).mp hpresent
  obtain ⟨info', hinfo', hdesc⟩ := h.recorded x hx hid
  obtain rfl : info = info' := Option.some.inj (hinfo.symm.trans hinfo')
  have hremoving : (if info.is_wildcard then UnsubscribePc.remove x.id
      else .findSlot x.id info.tid).removing = some x.id := by
    split <;> rfl
  have hm : Marks t x.id (.taken t) s { (s.goto' t (if info.is_wildcard then .remove x.id
      else .findSlot x.id info.tid)).mark x.id (.taken t) with bus := (takeSub s.bus x.id).2 } := {
    ext := .of_eq rfl rfl rfl rfl
    topics := fun _ h ↦ h
    asked := fun _ h ↦ h
    subs := fun _ _ ↦ rfl
    unsubs := fun u hu ↦ update_of_ne hu _ _
    status := rfl
    free := fun u _ he ↦ by rw [hid] at he; cases he
    taken := fun u hq ↦ by
      cases hq
      refine ⟨rfl, ?_⟩
      simp only [Subscribing.goto', Subscribing.mark, update_self, hremoving]
    taker := fun _ _ hr ↦ by rw [hpc] at hr; cases hr
    settled := fun _ ↦ trivial
    recorded := fun _ ↦ hasked
    removed := fun hs ↦ by rw [hid] at hs; cases hs
    live := fun _ _ ↦ .rfl
    fresh := fun y hy _ ↦ .inl hy
    present := ⟨fun _ ↦ ⟨x, hx, rfl⟩, fun _ ↦ trivial⟩
    others := fun id hne ↦ update_of_ne hne _ _
    unrecorded := fun _ ↦ update_self ..
    record := fun hq ↦ by cases hq }
  refine h.mark hm (h.stored.frame _ _) h.next h.topics h.nodup (Nat.le_refl _) ?_ ?_ ?_
    (.inl hsub) (fun y hy ↦ .inl hy) (fun y hy ↦ .inl hy) h.asked rfl
  · exact h.known (by rw [hid]; exact fun h ↦ by cases h)
  · simp only [Subscribing.goto', Subscribing.mark, hsub]
    trivial
  · rw [Describes] at hdesc
    split at hdesc
    · rename_i hw
      simp only [Subscribing.goto', Subscribing.mark, update_self, hdesc, if_true]
      exact ⟨hasked, update_self .., x, hx, rfl, hw⟩
    · rename_i hw
      simp only [Subscribing.goto', Subscribing.mark, update_self, hdesc.1, Bool.false_eq_true,
        if_false]
      exact ⟨hasked, update_self .., x, hx, rfl, by simpa using hw, hdesc.2⟩

theorem Tracks.removed (h : Tracks s) (hremoving : (s.unsubs t).removing = some id)
    (hasked : id ∈ s.asked) (hid : s.status id = .taken t) {bus : SubState τ η}
    (hext : Extends s.bus bus)
    (hstored : Stored bus (s.live.filter fun x ↦ x.id ≠ id)) (hnext : bus.next_id_ = s.bus.next_id_)
    (hrecords : bus.sub_to_topic_ = s.bus.sub_to_topic_)
    (hregistry : bus.registry_ = s.bus.registry_) : Tracks (s.removed t id bus) := by
  have hsub : s.subs t = .idle := (h.single t).resolve_right fun he ↦ by
    rw [he] at hremoving
    cases hremoving
  have hm : Marks t id .removed s (s.removed t id bus) := {
    ext := hext
    topics := fun _ h ↦ h
    asked := fun _ h ↦ h
    subs := fun _ _ ↦ rfl
    unsubs := fun u hu ↦ update_of_ne hu _ _
    status := rfl
    free := fun u hu he ↦ by rw [hid] at he; exact hu (Option.some.inj he).symm
    taken := fun u hq ↦ by cases hq
    taker := fun id' hne hr ↦ absurd (Option.some.inj (hr.symm.trans hremoving)) hne
    settled := fun _ ↦ trivial
    recorded := fun _ ↦ hasked
    removed := fun hs ↦ by rw [hid] at hs; cases hs
    live := fun x hx ↦ by
      simp only [Subscribing.removed, Subscribing.unsubscribed, Subscribing.mark,
        Subscribing.goto', List.mem_filter]
      simp [hx]
    fresh := fun y hy he ↦ by
      have hne := (List.mem_filter.mp hy).2
      simp [he] at hne
    present := ⟨fun hp ↦ hp.elim, fun ⟨y, hy, he⟩ ↦ by
      have hne := (List.mem_filter.mp hy).2
      simp [he] at hne⟩
    others := fun _ _ ↦ by simp only [Subscribing.removed, hrecords]
    unrecorded := fun _ ↦ by
      simp only [Subscribing.removed, hrecords]
      exact h.unrecorded id (by rw [hid]; exact fun h ↦ by cases h)
    record := fun hq ↦ by cases hq }
  refine h.mark hm hstored (hnext.trans h.next) ?_ (h.nodup.sublist (List.filter_sublist.map _))
    (Nat.le_refl _) ?_ ?_ ?_ (.inl hsub) (fun y hy ↦ .inl hy) (fun y hy ↦ .inl hy) h.asked rfl
  · simp only [Subscribing.removed, hregistry]
    exact h.topics
  · exact h.known (by rw [hid]; exact fun h ↦ by cases h)
  · simp only [Subscribing.removed, Subscribing.unsubscribed, Subscribing.goto', Subscribing.mark,
      hsub]
    trivial
  · simp only [Subscribing.removed, Subscribing.unsubscribed, Subscribing.goto', Subscribing.mark,
      update_self]
    trivial

end Unsubscribe

section Changes

variable [DecidableEq Tid] {s s' : Subscribing Tid τ η ν} {t : Tid}

inductive Changes (t : Tid) (s : Subscribing Tid τ η ν) : Subscribing Tid τ η ν → Prop
  | settle {pc : SubscribePc τ η} {bus : SubState τ η} : s.unsubs t = .idle → Extends s.bus bus →
      Keeps (fun id ↦ id ∉ s.asked) s.bus bus → Stored bus s.live →
      bus.next_id_ = s.bus.next_id_ → bus.sub_to_topic_ = s.bus.sub_to_topic_ →
      (∀ name ∈ bus.registry_.map_.map Prod.fst, name ∈ s.topics) →
      SubscribeFits { s.goto t pc with bus } t pc → Changes t s { s.goto t pc with bus }
  | throw {x : Sub τ η} : s.unsubs t = .idle → s.status x.id = .pending t →
      (∃ T, T ≠ x.type ∧ Installed s.bus x.topic T) → Changes t s (s.throw t x)
  | add {x : Sub τ η} {info : SubInfo} {bus : SubState τ η} : s.unsubs t = .idle →
      s.status x.id = .pending t → Extends s.bus bus → Keeps (fun id ↦ id ∉ s.asked) s.bus bus →
      Stored bus (s.live ++ [x]) → bus.next_id_ = s.bus.next_id_ →
      bus.sub_to_topic_ = s.bus.sub_to_topic_ → bus.registry_ = s.bus.registry_ →
      Describes bus.registry_ x info →
      (isWildcard x.topic = false → Installed bus x.topic x.type) →
      Changes t s { (s.goto t (.record x info)).mark x.id (.added t) with
        bus, live := s.live ++ [x] }
  | record {x : Sub τ η} {info : SubInfo} : s.subs t = .record x info →
      Changes t s { (s.goto t .idle).mark x.id .recorded with
        bus := recordSub s.bus x.id info
        returned := s.returned ++ [x] }
  | missing {id : ℕ} : s.unsubs t = .take id → s.bus.sub_to_topic_ id = none →
      Changes t s (s.unsubscribed t id)
  | take {id : ℕ} {info : SubInfo} : s.unsubs t = .take id → s.bus.sub_to_topic_ id = some info →
      Changes t s
        { (s.goto' t (if info.is_wildcard then .remove id else .findSlot id info.tid)).mark
          id (.taken t) with bus := (takeSub s.bus id).2 }
  | place {id tid slot : ℕ} : s.unsubs t = .findSlot id tid → s.bus.slots_ tid = some slot →
      Changes t s (s.goto' t (.removeSubscriber id slot))
  | removed {id : ℕ} {bus : SubState τ η} : (s.unsubs t).removing = some id → id ∈ s.asked →
      s.status id = .taken t → Extends s.bus bus → Keeps (· ≠ id) s.bus bus →
      Stored bus (s.live.filter fun x ↦ x.id ≠ id) → bus.next_id_ = s.bus.next_id_ →
      bus.sub_to_topic_ = s.bus.sub_to_topic_ → bus.registry_ = s.bus.registry_ →
      Changes t s (s.removed t id bus)

theorem Changes.tracks (hc : Changes t s s') (h : Tracks s) : Tracks s' := by
  cases hc with
  | settle hunsub hext _ hstored hnext hrecords hnames hsub =>
    exact h.settle hunsub hext hstored hnext hrecords hnames hsub
  | throw hunsub hid hinst => exact h.throw hunsub hid hinst
  | add hunsub hid hext _ hstored hnext hrecords hregistry hdesc hinst =>
    exact h.add hunsub hid hext hstored hnext hrecords hregistry hdesc hinst
  | record hpc => exact h.record hpc
  | missing hpc hnone =>
    have hsub := (h.single t).resolve_right fun he ↦ by
      rw [hpc] at he
      cases he
    refine h.look .idle hsub (fun _ hid ↦ .inl hid) (fun _ h ↦ h) trivial fun id hid ↦ ?_
    rw [hpc] at hid
    cases hid
  | take hpc hinfo => exact h.take hpc hinfo
  | @place id tid slot hpc hslot =>
    have hsub := (h.single t).resolve_right fun he ↦ by
      rw [hpc] at he
      cases he
    have hfits := h.unsubs t
    rw [hpc] at hfits
    obtain ⟨hasked, hid, x, hx, he, hw, hfind⟩ := hfits
    refine h.look (.removeSubscriber id slot) hsub (fun _ hid ↦ .inl hid) (fun _ h ↦ h) ?_
      fun id hid ↦ ?_
    · exact ⟨hasked, hid, x, hx, he, hw, tid, hfind, hslot⟩
    · rw [hpc] at hid
      exact hid
  | removed hremoving hasked hid hext _ hstored hnext hrecords hregistry =>
    exact h.removed hremoving hasked hid hext hstored hnext hrecords hregistry

theorem unsubscribeStep_changes (h : Tracks s) (hs : s.unsubscribeStep t = some s') :
    Changes t s s' := by
  have hfits := h.unsubs t
  cases hpc : s.unsubs t with
  | idle => simp [Subscribing.unsubscribeStep, hpc] at hs
  | take id =>
    cases hinfo : s.bus.sub_to_topic_ id with
    | none =>
      simp only [Subscribing.unsubscribeStep, hpc, takeSub, hinfo, Option.some.injEq] at hs
      exact hs ▸ .missing hpc hinfo
    | some info =>
      simp only [Subscribing.unsubscribeStep, hpc, takeSub, hinfo, Option.some.injEq] at hs
      exact hs ▸ .take hpc hinfo
  | findSlot id tid =>
    rw [hpc] at hfits
    obtain ⟨_, _, x, hx, _, hw, hfind⟩ := hfits
    -- the slot of a subscription that is still there cannot be missing
    obtain ⟨tid', slot, hfind', hslot⟩ := h.stored.slots.placed x hx hw
    obtain rfl : tid = tid' := Option.some.inj (hfind.symm.trans hfind')
    simp only [Subscribing.unsubscribeStep, hpc, hslot, Option.some.injEq] at hs
    exact hs ▸ .place hpc hslot
  | removeSubscriber id slot =>
    rw [hpc] at hfits
    obtain ⟨hasked, hid, x, hx, rfl, hw, tid, hfind, hslot⟩ := hfits
    simp only [Subscribing.unsubscribeStep, hpc, Option.some.injEq] at hs
    have hstored := h.stored.removeExact h.nodup hx hw hfind
    simp only [removeExact, hslot] at hstored
    subst hs
    exact .removed (by rw [hpc]; rfl) hasked hid
      (extends_updateSlot _ slot fun s ↦ (removeSubscriber_keeps x.id s).1)
      (keeps_updateSlot _ slot fun s ↦ (removeSubscriber_keeps x.id s).2) hstored rfl rfl rfl
  | remove id =>
    rw [hpc] at hfits
    obtain ⟨hasked, hid, x, hx, rfl, hw⟩ := hfits
    simp only [Subscribing.unsubscribeStep, hpc, Option.some.injEq] at hs
    obtain ⟨hext, hkeeps⟩ := extends_removeWildcard s.bus x.id
    obtain ⟨hnext, hregistry, hrecords⟩ := removeWildcard_frame s.bus x.id
    subst hs
    exact .removed (by rw [hpc]; rfl) hasked hid hext hkeeps
      (h.stored.removeWildcard h.nodup hx hw) hnext hrecords hregistry

variable [DecidableEq τ]

theorem subscribeStep_changes (h : Tracks s) (hB : s.topics.toFinset.card < idLimit)
    (hs : s.subscribeStep t = some s') : Changes t s s' := by
  have hfits := h.subs t
  have hnone : s.subs t ≠ .idle → s.unsubs t = .idle := (h.single t).resolve_left
  have hadd : ∀ slot (x : Sub τ η), Keeps (fun id ↦ id ∉ s.asked) s.bus
      (updateSlot s.bus slot (·.addSubscriber x.handler x.id)) := fun slot x ↦
    keeps_updateSlot _ slot fun _ sub hsub _ ↦ List.mem_append_left _ hsub
  cases hpc : s.subs t with
  | idle => simp [Subscribing.subscribeStep, hpc] at hs
  | lookup x =>
    rw [hpc] at hfits hnone
    have hunsub := hnone fun h ↦ by cases h
    have hsettle : ∀ pc, SubscribeFits (s.goto t pc) t pc → Changes t s (s.goto t pc) := by
      intro pc hpc
      have hc : Changes t s { s.goto t pc with bus := s.bus } :=
        .settle hunsub (.of_eq rfl rfl rfl rfl) (.of_eq rfl) h.stored rfl rfl h.topics hpc
      exact hc
    cases hfind : find x.topic s.bus.registry_ with
    | none =>
      simp only [Subscribing.subscribeStep, hpc, hfind, Option.some.injEq] at hs
      exact hs ▸ hsettle (.resolve x) hfits
    | some tid =>
      simp only [Subscribing.subscribeStep, hpc, hfind, Option.some.injEq] at hs
      exact hs ▸ hsettle (.findSlot x tid) ⟨hfits.1, hfits.2.1, hfind⟩
  | resolve x =>
    rw [hpc] at hfits hnone
    obtain ⟨hid, hw, htopic⟩ := hfits
    simp only [Subscribing.subscribeStep, hpc, Option.some.injEq] at hs
    subst hs
    refine .settle (hnone fun h ↦ by cases h) (extends_resolve x.topic s.bus) (.of_eq rfl)
      (h.stored.resolveSlow (h.stored.registry.resolveSlow h.topics htopic hB)) rfl rfl
      (fun name hn ↦ ?_) ⟨hid, hw, find_resolveSlow_self x.topic s.bus.registry_⟩
    rcases topics_resolveSlow hn with rfl | hn
    · exact htopic
    · exact h.topics name hn
  | findSlot x tid =>
    rw [hpc] at hfits hnone
    obtain ⟨hid, hw, hfind⟩ := hfits
    have hunsub := hnone fun h ↦ by cases h
    have hsettle : ∀ pc, SubscribeFits (s.goto t pc) t pc → Changes t s (s.goto t pc) := by
      intro pc hpc
      have hc : Changes t s { s.goto t pc with bus := s.bus } :=
        .settle hunsub (.of_eq rfl rfl rfl rfl) (.of_eq rfl) h.stored rfl rfl h.topics hpc
      exact hc
    cases hslot : s.bus.slots_ tid with
    | none =>
      simp only [Subscribing.subscribeStep, hpc, hslot, Option.some.injEq] at hs
      exact hs ▸ hsettle (.createSlot x tid) ⟨hid, hw, hfind⟩
    | some slot =>
      cases hcheck : checkedSlot s.bus x.type tid slot with
      | error e =>
        obtain ⟨T, hty, hne⟩ := checkedSlot_error hcheck
        simp only [Subscribing.subscribeStep, hpc, hslot, hcheck, Option.some.injEq] at hs
        exact hs ▸ .throw hunsub hid ⟨T, hne, tid, slot, hfind, hslot, hty⟩
      | ok found =>
        obtain ⟨rfl, hsame⟩ := checkedSlot_ok hcheck
        obtain ⟨_, _, hholds⟩ := h.stored.slots.holds tid found hslot
        obtain ⟨T, hT, _⟩ := hholds.typed
        simp only [Subscribing.subscribeStep, hpc, hslot, hcheck, Option.some.injEq] at hs
        exact hs ▸ hsettle (.addSubscriber x tid found) ⟨hid, hw, hfind, hslot, hsame T hT ▸ hT⟩
  | createSlot x tid =>
    rw [hpc] at hfits hnone
    obtain ⟨hid, hw, hfind⟩ := hfits
    have hunsub := hnone fun h ↦ by cases h
    rcases hc : createSlot s.bus x.type tid with ⟨_ | slot, bus⟩
    · obtain ⟨slot, T, hslot, hty, hne⟩ := createSlot_refused hc
      obtain rfl := createSlot_error hc
      simp only [Subscribing.subscribeStep, hpc, hc, Option.some.injEq] at hs
      exact hs ▸ .throw hunsub hid ⟨T, hne, tid, slot, hfind, hslot, hty⟩
    · obtain ⟨hstored, hslot, hty⟩ := h.stored.createSlot hfind hw hc
      obtain ⟨hnext, hregistry, hrecords⟩ := createSlot_frame hc
      have hgrow : Extends s.bus bus ∧ Keeps (fun id ↦ id ∉ s.asked) s.bus bus :=
        extends_createSlot h.stored.apart.slots_below hc
      simp only [Subscribing.subscribeStep, hpc, hc, Option.some.injEq] at hs
      subst hs
      exact .settle hunsub hgrow.1 hgrow.2 hstored hnext hrecords (hregistry ▸ h.topics)
        ⟨hid, hw, hregistry ▸ hfind, hslot, hty⟩
  | addSubscriber x tid slot =>
    rw [hpc] at hfits hnone
    obtain ⟨hid, hw, hfind, hslot, hty⟩ := hfits
    have hext : Extends s.bus (updateSlot s.bus slot (·.addSubscriber x.handler x.id)) :=
      extends_updateSlot s.bus slot fun _ ↦ rfl
    have hinst : Installed s.bus x.topic x.type := ⟨tid, slot, hfind, hslot, hty⟩
    simp only [Subscribing.subscribeStep, hpc, Option.some.injEq] at hs
    subst hs
    refine .add (hnone fun h ↦ by cases h) hid hext (hadd slot x)
      (h.stored.addSubscriber hfind hslot hty) rfl rfl rfl ?_ fun _ ↦
        hinst.mono h.stored.apart.slots_below hext
    simp only [Describes, hw, Bool.false_eq_true, if_false, true_and]
    exact hfind
  | insert x =>
    rw [hpc] at hfits hnone
    obtain ⟨hid, hw⟩ := hfits
    have hgrow : Extends s.bus (subscribeWildcard s.bus x.type x.topic x.handler x.id) ∧
        Keeps (fun id ↦ id ∉ s.asked) s.bus
          (subscribeWildcard s.bus x.type x.topic x.handler x.id) := extends_subscribeWildcard ..
    simp only [Subscribing.subscribeStep, hpc, Option.some.injEq] at hs
    subst hs
    refine .add (hnone fun h ↦ by cases h) hid hgrow.1 hgrow.2 (h.stored.subscribeWildcard hw)
      rfl rfl rfl ?_ fun hw' ↦ ?_
    · simp only [Describes, hw, if_true]
    · rw [hw] at hw'
      cases hw'
  | record x info =>
    simp only [Subscribing.subscribeStep, hpc, Option.some.injEq] at hs
    exact hs ▸ .record hpc

end Changes

end LivioArk.Msgbus.SubscriptionThreads
