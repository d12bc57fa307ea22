import LivioArk.Msgbus.AsyncWait

namespace LivioArk.Msgbus.AsyncWait

open Function LivioArk.Library.Transition LivioArk.Library.PrefixTree
open Levels TopicMatcher TopicRegistry WildcardTrie Subscriptions SubStore Delivery Dispatching

variable {Tid τ η ν : Type}

section Invariant

/-- The subscription is in the bus, with a record that describes it. -/
def Attached (b : SubState τ (Handler η)) (live : List (Sub τ (Handler η))) (id : ℕ) : Prop :=
  ∃ x ∈ live, x.id = id ∧ ∃ info, b.sub_to_topic_ id = some info ∧ Describes b.registry_ x info

/-- The subscription is in the bus, and its record is not there yet or no more. -/
def Unrecorded (b : SubState τ (Handler η)) (live : List (Sub τ (Handler η))) (id : ℕ)
    (info : SubInfo) : Prop :=
  ∃ x ∈ live, x.id = id ∧ b.sub_to_topic_ id = none ∧ Describes b.registry_ x info

def Gone (b : SubState τ (Handler η)) (live : List (Sub τ (Handler η))) (id : ℕ) : Prop :=
  (∀ x ∈ live, x.id ≠ id) ∧ b.sub_to_topic_ id = none

/-- How far the clean-up is after the id was stored. If it may have been stored
too late, the subscription may be left behind. -/
def Cleanup.Fits (late : Prop) (b : SubState τ (Handler η)) (live : List (Sub τ (Handler η)))
    (sub_id id : ℕ) : Cleanup → Prop
  | .read .await_resume => sub_id = id ∧ Attached b live id
  | .take .await_resume i => (i = id ∨ late ∧ i = 0) ∧ Attached b live id
  | .take .destructor i => i = id ∧ Attached b live id
  | .remove _ i info => i = id ∧ Unrecorded b live id info
  | .clear | .finished => Gone b live id ∨ late ∧ Attached b live id
  | .read .destructor => sub_id = 0 ∧ (Gone b live id ∨ late ∧ Attached b live id) ∨
      sub_id = id ∧ Attached b live id

def Cleanup.Blind : Cleanup → Prop
  | .take .await_resume i => i = 0
  | .take .destructor _ => False
  | .remove _ _ _ => False
  | _ => True

def Coroutine.Fits (late : Prop) (b : SubState τ (Handler η)) (live : List (Sub τ (Handler η)))
    (sub_id id : ℕ) : Coroutine → Prop
  | .suspended => sub_id = id ∧ Attached b live id
  | .resumed c => c.Fits late b live sub_id id
  | .destroying c => c.Fits late b live sub_id id ∧ (c = .read .destructor → sub_id = id)

def Coroutine.Blind : Coroutine → Prop
  | .suspended => True
  | .resumed c => c.Blind
  | .destroying c => c.Blind

def NoneAwaits (live : List (Sub τ (Handler η))) : Prop := ∀ x ∈ live, x.handler ≠ .awaiting

def OneAwaits (live : List (Sub τ (Handler η))) (id : ℕ) : Prop :=
  id ≠ 0 ∧ ∀ x ∈ live, x.handler = .awaiting → x.id = id

structure Fresh (topic : Str) (b : SubState τ (Handler η)) (live : List (Sub τ (Handler η))) :
    Prop where
  pos : (fetchId b).1 ≠ 0
  free : ∀ x ∈ live, x.id ≠ (fetchId b).1
  unrecorded : b.sub_to_topic_ (fetchId b).1 = none
  room : isWildcard topic = false → Bijective (resolveSlow topic b.registry_).2

def Suspend.Fits (late : Prop) (topic : Str) (b : SubState τ (Handler η))
    (live : List (Sub τ (Handler η))) (sub_id : ℕ) (c : Coroutine) : Suspend → Prop
  | .subscribing => sub_id = 0 ∧ c.Blind ∧ NoneAwaits live ∧ Fresh topic b live
  | .threw => sub_id = 0 ∧ c.Blind ∧ NoneAwaits live
  | .added id info => sub_id = 0 ∧ c.Blind ∧ OneAwaits live id ∧ Unrecorded b live id info
  | .recorded id => sub_id = 0 ∧ c.Blind ∧ OneAwaits live id ∧ Attached b live id
  | .finished id => OneAwaits live id ∧ c.Fits late b live sub_id id

def Cleanup.InDestructor : Cleanup → Prop
  | .read .destructor | .take .destructor _ | .remove .destructor _ _ | .finished => True
  | _ => False

structure Inv (late : Prop) (topic : Str) (s : Waiting Tid τ η ν) : Prop where
  stored : Stored s.bus s.live
  nodup : (s.live.map Sub.id).Nodup
  zero : s.bus.sub_to_topic_ 0 = none
  fits : s.suspend.Fits late topic s.bus s.live s.sub_id s.coroutine
  owner : ∀ c, s.coroutine = .destroying c → c.InDestructor

end Invariant

section Steps

variable {late : Prop} {T : τ} {topic : Str}
variable {s t : Waiting Tid τ η ν} {b b' : SubState τ (Handler η)}
variable {live : List (Sub τ (Handler η))} {id : ℕ} {info : SubInfo}

def Cleanup.reads : Cleanup → Bool
  | .read _ => true
  | _ => false

/-- The id will still be found by the clean-up. -/
def Coroutine.reads : Coroutine → Bool
  | .suspended => true
  | .resumed c | .destroying c => c.reads

theorem Cleanup.Blind.stored {c : Cleanup} (hc : c.Blind) (h : Attached b live id)
    (hr : late ∨ c.reads = true) : c.Fits late b live id id := by
  cases c with
  | read place =>
    cases place with
    | await_resume => exact ⟨rfl, h⟩
    | destructor => exact .inr ⟨rfl, h⟩
  | take place i =>
    cases place with
    | await_resume => exact ⟨.inr ⟨hr.resolve_right fun hr ↦ (by cases hr), hc⟩, h⟩
    | destructor => exact hc.elim
  | remove => exact hc.elim
  | clear | finished => exact .inr ⟨hr.resolve_right fun hr ↦ (by cases hr), h⟩

theorem Coroutine.Blind.stored {c : Coroutine} (hc : c.Blind) (h : Attached b live id)
    (hr : late ∨ c.reads = true) : c.Fits late b live id id := by
  cases c with
  | suspended => exact ⟨rfl, h⟩
  | resumed c => exact Cleanup.Blind.stored hc h hr
  | destroying c => exact ⟨Cleanup.Blind.stored hc h hr, fun _ ↦ rfl⟩

theorem takeSub_none (h : b.sub_to_topic_ id = none) : takeSub b id = (none, b) := by
  have hsame : update b.sub_to_topic_ id none = b.sub_to_topic_ := by
    rw [← h, update_eq_self]
  rw [takeSub, h, hsame]

theorem Gone.of_detach (hid : b.sub_to_topic_ id = none) :
    Gone (detach b id info) (live.filter fun x ↦ x.id ≠ id) id := by
  refine ⟨fun x hx ↦ by simpa using (List.mem_filter.mp hx).2, ?_⟩
  rw [(detach_frame b id info).2.2, hid]

variable {c c' : Cleanup} {place : Place}

/-- Before the id is stored a clean-up finds nothing and changes nothing. -/
theorem Cleanup.Blind.step (hc : c.Blind) (hzero : s.bus.sub_to_topic_ 0 = none)
    (hsub : s.sub_id = 0) (hs : s.cleanupStep c = some (c', t)) :
    c'.Blind ∧ ∃ history, t = { s with history } := by
  cases c with
  | read place =>
    cases place with
    | await_resume =>
      cases hs
      exact ⟨hsub, _, rfl⟩
    | destructor =>
      simp only [Waiting.cleanupStep, hsub, if_true] at hs
      cases hs
      exact ⟨trivial, _, rfl⟩
  | take place i =>
    cases place with
    | await_resume =>
      obtain rfl : i = 0 := hc
      simp only [Waiting.cleanupStep, takeSub_none hzero] at hs
      cases hs
      exact ⟨trivial, _, rfl⟩
    | destructor => exact hc.elim
  | remove => exact hc.elim
  | clear =>
    cases hs
    refine ⟨trivial, s.history, ?_⟩
    rw [← hsub]
  | finished => cases hs

structure Cleaned (late : Prop) (id : ℕ) (c' : Cleanup) (s t : Waiting Tid τ η ν) : Prop where
  stored : Stored t.bus t.live
  nodup : (t.live.map Sub.id).Nodup
  zero : t.bus.sub_to_topic_ 0 = none
  one : OneAwaits t.live id
  fits : c'.Fits late t.bus t.live t.sub_id id
  suspend : t.suspend = s.suspend

theorem Attached.take (h : Attached s.bus s.live id) (hstored : Stored s.bus s.live)
    (hnodup : (s.live.map Sub.id).Nodup) (hzero : s.bus.sub_to_topic_ 0 = none)
    (hone : OneAwaits s.live id) (hs : s.cleanupStep (.take place id) = some (c', t)) :
    Cleaned late id c' s t := by
  obtain ⟨x, hx, rfl, info, hinfo, hdesc⟩ := h
  simp only [Waiting.cleanupStep, takeSub, hinfo] at hs
  cases hs
  refine ⟨hstored.frame _ _, hnodup, ?_, hone, ⟨rfl, x, hx, rfl, update_self .., hdesc⟩, rfl⟩
  simp only [update_of_ne hone.1.symm]
  exact hzero

theorem Unrecorded.remove (h : Unrecorded s.bus s.live id info) (hstored : Stored s.bus s.live)
    (hnodup : (s.live.map Sub.id).Nodup) (hzero : s.bus.sub_to_topic_ 0 = none)
    (hone : OneAwaits s.live id) (hs : s.cleanupStep (.remove place id info) = some (c', t)) :
    Cleaned late id c' s t := by
  obtain ⟨x, hx, rfl, hinfo, hdesc⟩ := h
  have hzero : (detach s.bus x.id info).sub_to_topic_ 0 = none := by
    rw [(detach_frame s.bus x.id info).2.2, hzero]
  have hone : OneAwaits (s.live.filter fun y ↦ y.id ≠ x.id) x.id :=
    ⟨hone.1, fun y hy ↦ hone.2 y (List.mem_filter.mp hy).1⟩
  have hstored := hstored.detach hnodup hx hdesc
  have hnodup : ((s.live.filter fun y ↦ y.id ≠ x.id).map Sub.id).Nodup :=
    hnodup.sublist (List.filter_sublist.map _)
  cases place with
  | await_resume =>
    cases hs
    exact ⟨hstored, hnodup, hzero, hone, .inl (.of_detach hinfo), rfl⟩
  | destructor =>
    cases hs
    exact ⟨hstored, hnodup, hzero, hone, .inl (.of_detach hinfo), rfl⟩

theorem Cleanup.Fits.step (hc : c.Fits late s.bus s.live s.sub_id id)
    (hstored : Stored s.bus s.live) (hnodup : (s.live.map Sub.id).Nodup)
    (hzero : s.bus.sub_to_topic_ 0 = none) (hone : OneAwaits s.live id)
    (hs : s.cleanupStep c = some (c', t)) : Cleaned late id c' s t := by
  cases c with
  | read place =>
    cases place with
    | await_resume =>
      cases hs
      exact ⟨hstored, hnodup, hzero, hone, ⟨.inl hc.1, hc.2⟩, rfl⟩
    | destructor =>
      rcases hc with ⟨hsub, hc⟩ | ⟨hsub, hc⟩
      · simp only [Waiting.cleanupStep, hsub, if_true] at hs
        cases hs
        exact ⟨hstored, hnodup, hzero, hone, hc, rfl⟩
      · have hne : s.sub_id ≠ 0 := hsub ▸ hone.1
        simp only [Waiting.cleanupStep, hne, if_false] at hs
        cases hs
        exact ⟨hstored, hnodup, hzero, hone, ⟨hsub, hc⟩, rfl⟩
  | take place i =>
    cases place with
    | await_resume =>
      obtain ⟨rfl | ⟨hlate, rfl⟩, hc⟩ := hc
      · exact hc.take hstored hnodup hzero hone hs
      · simp only [Waiting.cleanupStep, takeSub_none hzero] at hs
        cases hs
        exact ⟨hstored, hnodup, hzero, hone, .inr ⟨hlate, hc⟩, rfl⟩
    | destructor =>
      obtain ⟨rfl, hc⟩ := hc
      exact hc.take hstored hnodup hzero hone hs
  | remove place i info =>
    obtain ⟨rfl, hc⟩ := hc
    exact hc.remove hstored hnodup hzero hone hs
  | clear =>
    cases hs
    exact ⟨hstored, hnodup, hzero, hone, .inl ⟨rfl, hc⟩, rfl⟩
  | finished => cases hs

theorem Inv.cleaned (h : Inv late topic s) {coroutine : Coroutine}
    (hblind : s.coroutine.Blind → c.Blind)
    (hfits : ∀ id, s.coroutine.Fits late s.bus s.live s.sub_id id →
      c.Fits late s.bus s.live s.sub_id id)
    (hblind' : c'.Blind → coroutine.Blind)
    (hfits' : ∀ id, c'.Fits late t.bus t.live t.sub_id id →
      coroutine.Fits late t.bus t.live t.sub_id id)
    (howner : ∀ c, coroutine = .destroying c → c.InDestructor)
    (hs : s.cleanupStep c = some (c', t)) : Inv late topic { t with coroutine } := by
  obtain ⟨bus, live, suspend, sub_id, result, fired, coroutine, dispatchers, history⟩ := s
  obtain ⟨hstored, hnodup, hzero, hphase, _⟩ := h
  cases suspend with
  | subscribing =>
    obtain ⟨hsub, hc, hrest⟩ := hphase
    obtain ⟨hc', _, rfl⟩ := (hblind hc).step hzero hsub hs
    exact ⟨hstored, hnodup, hzero, ⟨hsub, hblind' hc', hrest⟩, howner⟩
  | threw =>
    obtain ⟨hsub, hc, hrest⟩ := hphase
    obtain ⟨hc', _, rfl⟩ := (hblind hc).step hzero hsub hs
    exact ⟨hstored, hnodup, hzero, ⟨hsub, hblind' hc', hrest⟩, howner⟩
  | added id info =>
    obtain ⟨hsub, hc, hrest⟩ := hphase
    obtain ⟨hc', _, rfl⟩ := (hblind hc).step hzero hsub hs
    exact ⟨hstored, hnodup, hzero, ⟨hsub, hblind' hc', hrest⟩, howner⟩
  | recorded id =>
    obtain ⟨hsub, hc, hrest⟩ := hphase
    obtain ⟨hc', _, rfl⟩ := (hblind hc).step hzero hsub hs
    exact ⟨hstored, hnodup, hzero, ⟨hsub, hblind' hc', hrest⟩, howner⟩
  | finished id =>
    obtain ⟨hone, hc⟩ := hphase
    have hcleaned := (hfits id hc).step hstored hnodup hzero hone hs
    refine ⟨hcleaned.stored, hcleaned.nodup, hcleaned.zero, ?_, howner⟩
    have hsame : t.suspend = .finished id := hcleaned.suspend
    rw [hsame]
    exact ⟨hcleaned.one, hfits' id hcleaned.fits⟩

theorem Cleanup.InDestructor.step (hc : c.InDestructor) (hs : s.cleanupStep c = some (c', t)) :
    c'.InDestructor ∧ c' ≠ .read .destructor := by
  cases c with
  | read place =>
    cases place with
    | await_resume => exact hc.elim
    | destructor =>
      simp only [Waiting.cleanupStep] at hs
      split at hs <;> cases hs <;> exact ⟨trivial, fun h ↦ by cases h⟩
  | take place id =>
    cases place with
    | await_resume => exact hc.elim
    | destructor =>
      simp only [Waiting.cleanupStep] at hs
      split at hs <;> cases hs <;> exact ⟨trivial, fun h ↦ by cases h⟩
  | remove place id info =>
    cases place with
    | await_resume => exact hc.elim
    | destructor =>
      cases hs
      exact ⟨trivial, fun h ↦ by cases h⟩
  | clear => exact hc.elim
  | finished => cases hs

theorem Inv.wake (h : Inv late topic s) (hc : s.coroutine = .suspended) {coroutine : Coroutine}
    (hblind : coroutine.Blind)
    (hfits : ∀ id, Attached s.bus s.live id → coroutine.Fits late s.bus s.live id id)
    (howner : ∀ c, coroutine = .destroying c → c.InDestructor) :
    Inv late topic { s with coroutine } := by
  obtain ⟨bus, live, suspend, sub_id, result, fired, old, dispatchers, history⟩ := s
  obtain ⟨hstored, hnodup, hzero, hphase, _⟩ := h
  obtain rfl : old = .suspended := hc
  refine ⟨hstored, hnodup, hzero, ?_, howner⟩
  cases suspend with
  | subscribing | threw | added | recorded => exact ⟨hphase.1, hblind, hphase.2.2⟩
  | finished id =>
    obtain ⟨hone, hsub, hattached⟩ := hphase
    obtain rfl : sub_id = id := hsub
    exact ⟨hone, hfits _ hattached⟩

/-- The step that stores the id finds the clean-up before its last look at it. -/
def StoresInTime (s : Waiting Tid τ η ν) : WaitAction Tid τ ν → Prop
  | .suspend =>
    match s.suspend with
    | .recorded _ => s.coroutine.reads = true
    | _ => True
  | _ => True

variable [DecidableEq τ]

theorem Inv.suspend (h : Inv late topic s) (hs : s.suspendStep T topic = some t)
    (hr : late ∨ StoresInTime s (.suspend : WaitAction Tid τ ν)) : Inv late topic t := by
  obtain ⟨bus, live, suspend, sub_id, result, fired, coroutine, dispatchers, history⟩ := s
  obtain ⟨hstored, hnodup, hzero, hfits, howner⟩ := h
  cases suspend with
  | subscribing =>
    obtain ⟨hsub, hblind, hnone, hfresh⟩ := hfits
    simp only [Waiting.suspendStep] at hs
    rcases hc : attach bus T topic .awaiting with ⟨e | ⟨id, info⟩, bus'⟩
    · simp only [hc] at hs
      cases hs
      have hsame := (attach_frame hc).2.1
      exact ⟨hstored.attach_error hfresh.room hc, hnodup, hsame ▸ hzero,
        ⟨hsub, hblind, hnone⟩, howner⟩
    · simp only [hc] at hs
      cases hs
      have hsame := (attach_frame hc).2.1
      obtain ⟨rfl, hstored', hdesc⟩ := hstored.attach_ok hfresh.room hc
      have hnot : (fetchId bus).1 ∉ live.map Sub.id := by
        intro hmem
        obtain ⟨x, hx, hid⟩ := List.mem_map.mp hmem
        exact hfresh.free x hx hid
      refine ⟨hstored', ?_, hsame ▸ hzero,
        ⟨hsub, hblind, ⟨hfresh.pos, fun x hx ha ↦ ?_⟩, ?_⟩, howner⟩
      · rw [List.map_append, List.map_singleton, ← List.concat_eq_append]
        exact hnodup.concat hnot
      · rcases List.mem_append.mp hx with hx | hx
        · exact absurd ha (hnone x hx)
        · rw [List.mem_singleton.mp hx]
      · exact ⟨_, List.mem_append_right _ (List.mem_singleton_self _), rfl,
          hsame ▸ hfresh.unrecorded, hdesc⟩
  | added id info =>
    obtain ⟨hsub, hblind, hone, x, hx, hid, _, hdesc⟩ := hfits
    cases hs
    refine ⟨hstored.frame _ _, hnodup, ?_,
      ⟨hsub, hblind, hone, x, hx, hid, info, ?_, hdesc⟩, howner⟩
    · simp only [recordSub, update_of_ne hone.1.symm]
      exact hzero
    · simp only [recordSub, update_self]
  | recorded id =>
    obtain ⟨_, hblind, hone, hattached⟩ := hfits
    cases hs
    have hr : late ∨ coroutine.reads = true := hr
    exact ⟨hstored, hnodup, hzero, ⟨hone, hblind.stored hattached hr⟩, howner⟩
  | finished id => cases hs
  | threw => cases hs

theorem inv_initial (h : Starts topic s) : Inv late topic s := by
  obtain ⟨d, hd, hnone, hcalls, htopics, rfl⟩ := h
  have hsmall : Small d := by
    refine ⟨Nat.lt_of_succ_lt hcalls, Nat.lt_of_le_of_lt ?_ htopics⟩
    refine Finset.card_le_card fun name hn ↦ ?_
    simp only [List.mem_toFinset, List.mem_append] at hn ⊢
    exact .inl hn
  have hagree := agree_reachable hd hsmall
  have hid : (fetchId d.bus).1 = d.calls + 1 := hagree.numbered.next_id hcalls
  have hnot : ∀ id, (∀ x ∈ d.live, x.id ≠ id) → d.bus.sub_to_topic_ id = none := by
    intro id hid
    rw [Option.eq_none_iff_forall_ne_some]
    intro info hinfo
    obtain ⟨x, hx, hxid, _⟩ := hagree.recorded.sound id info hinfo
    exact hid x hx hxid
  have hpos : (fetchId d.bus).1 ≠ 0 := by omega
  have hfree : ∀ x ∈ d.live, x.id ≠ (fetchId d.bus).1 := by
    intro x hx
    have hrange := hagree.numbered.range x hx
    omega
  have hzero : ∀ x ∈ d.live, x.id ≠ 0 := fun x hx ↦
    Nat.one_le_iff_ne_zero.mp (hagree.numbered.range x hx).1
  have hB : (d.topics ++ [topic]).toFinset.card < idLimit :=
    Nat.lt_of_lt_of_le htopics (by decide)
  refine ⟨hagree.stored, hagree.numbered.nodup, hnot 0 hzero, ⟨rfl, trivial, hnone, ?_⟩, ?_⟩
  · exact ⟨hpos, hfree, hnot _ hfree, fun _ ↦ (hagree.resolved topic hB).1⟩
  · exact fun c hc ↦ by cases hc

variable [DecidableEq Tid]

theorem Inv.step {a : WaitAction Tid τ ν} (h : Inv late topic s) (hr : late ∨ StoresInTime s a)
    (hs : AsyncWait.step T topic s a = some t) : Inv late topic t := by
  cases a with
  | suspend => exact h.suspend hs hr
  | destroy =>
    simp only [AsyncWait.step] at hs
    split at hs
    · rename_i hc
      cases hs
      exact h.wake hc trivial (fun _ hattached ↦ ⟨.inr ⟨rfl, hattached⟩, fun _ ↦ rfl⟩)
        fun c hc ↦ by cases hc; trivial
    · cases hs
  | cleanup =>
    simp only [AsyncWait.step] at hs
    cases hc : s.coroutine with
    | suspended => simp [hc] at hs
    | resumed c =>
      simp only [hc, Option.map_eq_some_iff] at hs
      obtain ⟨⟨c', u⟩, hu, rfl⟩ := hs
      refine h.cleaned ?_ ?_ (fun hb ↦ hb) (fun id hf ↦ hf) (fun c hc ↦ by cases hc) hu
      · rw [hc]
        exact fun hb ↦ hb
      · rw [hc]
        exact fun _ hf ↦ hf
    | destroying c =>
      simp only [hc, Option.map_eq_some_iff] at hs
      obtain ⟨⟨c', u⟩, hu, rfl⟩ := hs
      obtain ⟨hin, hne⟩ := (h.owner c hc).step hu
      refine h.cleaned ?_ ?_ (fun hb ↦ hb) (fun id hf ↦ ⟨hf, fun he ↦ absurd he hne⟩)
        (fun c hc ↦ by cases hc; exact hin) hu
      · rw [hc]
        exact fun hb ↦ hb
      · rw [hc]
        exact fun _ hf ↦ hf.1
  | dispatch p msg =>
    simp only [AsyncWait.step] at hs
    split at hs
    · cases hs
      exact ⟨h.stored, h.nodup, h.zero, h.fits, h.owner⟩
    · cases hs
  | load p =>
    simp only [AsyncWait.step] at hs
    split at hs
    · obtain ⟨f, _, rfl⟩ := Option.map_eq_some_iff.mp hs
      exact ⟨h.stored, h.nodup, h.zero, h.fits, h.owner⟩
    · cases hs
  | handle p =>
    simp only [AsyncWait.step] at hs
    split at hs
    · split at hs
      · split at hs
        · split at hs <;> cases hs <;> exact ⟨h.stored, h.nodup, h.zero, h.fits, h.owner⟩
        · cases hs
          exact ⟨h.stored, h.nodup, h.zero, h.fits, h.owner⟩
      · cases hs
    · cases hs
  | resume p =>
    simp only [AsyncWait.step] at hs
    split at hs
    · split at hs
      · rename_i hc
        cases hs
        have hwake : Inv late topic { s with coroutine := .resumed (.read .await_resume) } :=
          h.wake hc trivial (fun _ hattached ↦ ⟨rfl, hattached⟩) fun c hc ↦ by cases hc
        exact ⟨hwake.stored, hwake.nodup, hwake.zero, hwake.fits, hwake.owner⟩
      · cases hs
        exact ⟨h.stored, h.nodup, h.zero, h.fits, h.owner⟩
    · cases hs
  | return_ p =>
    simp only [AsyncWait.step] at hs
    split at hs
    · split at hs <;> cases hs
      exact ⟨h.stored, h.nodup, h.zero, h.fits, h.owner⟩
    · split at hs <;> cases hs
      exact ⟨h.stored, h.nodup, h.zero, h.fits, h.owner⟩
    · cases hs

theorem inv_reaches (hs : (machine Tid τ η ν T topic).Reaches StoresInTime s) :
    Inv False topic s :=
  Machine.Reaches.invariant (fun _ ↦ inv_initial) (fun _ _ _ _ h hr ht ↦ h.step (.inr hr) ht) hs

theorem inv_reachable (hs : (machine Tid τ η ν T topic).Reachable s) : Inv True topic s :=
  Machine.Reaches.invariant (fun _ ↦ inv_initial) (fun _ _ _ _ h _ ht ↦ h.step (.inl trivial) ht) hs

end Steps

theorem Gone.nothingLeft {b : SubState τ (Handler η)} {live : List (Sub τ (Handler η))} {id : ℕ}
    (h : Gone b live id) (hstored : Stored b live) : NothingLeft b id :=
  hstored.nothingLeft h.1 h.2

theorem over_gone {c : Cleanup} {b : SubState τ (Handler η)} {live : List (Sub τ (Handler η))}
    {sub_id id : ℕ} (hover : (Coroutine.resumed c).Over ∨ (Coroutine.destroying c).Over)
    (h : c.Fits False b live sub_id id) :
    Gone b live id := by
  cases c with
  | finished => exact h.resolve_right fun h ↦ h.1
  | read | take | remove | clear => rcases hover with hover | hover <;> exact hover.elim

/-- When the id is stored in time, a wait that is over leaves nothing behind. -/
theorem wait_leaves_nothing [DecidableEq Tid] [DecidableEq τ] {T : τ} {topic : Str}
    {s : Waiting Tid τ η ν} (hs : (machine Tid τ η ν T topic).Reaches StoresInTime s) {id : ℕ}
    (hfin : s.suspend = .finished id) (hdestroyed : .destroyed ∈ s.history) :
    NothingLeft s.bus id := by
  have hinv := inv_reaches hs
  have hover := (firing_reachable hs.reachable).ended hdestroyed
  have hfits := hinv.fits
  rw [hfin] at hfits
  obtain ⟨_, hfits⟩ := hfits
  have hgone : Gone s.bus s.live id := by
    cases hc : s.coroutine with
    | suspended =>
      rw [hc] at hover
      exact hover.elim
    | resumed c =>
      rw [hc] at hover hfits
      exact over_gone (.inl hover) hfits
    | destroying c =>
      rw [hc] at hover hfits
      exact over_gone (.inr hover) hfits.1
  exact hgone.nothingLeft hinv.stored

def waitMessage : Message Unit ℕ := ⟨1, ['a'], (), 7⟩

def waiting : Waiting Unit Unit Unit ℕ := { bus := {}, live := [] }

theorem waiting_starts : Starts ['a'] waiting :=
  ⟨{}, .start rfl, fun _ h ↦ (by cases h), by decide, by decide, rfl⟩

instance (s : Waiting Tid τ η ν) (a : WaitAction Tid τ ν) : Decidable (StoresInTime s a) :=
  match a with
  | .suspend =>
    match h : s.suspend with
    | .recorded _ => decidable_of_iff (s.coroutine.reads = true) (by simp [StoresInTime, h])
    | .subscribing | .added _ _ | .finished _ | .threw => .isTrue (by simp [StoresInTime, h])
  | .destroy | .cleanup | .dispatch _ _ | .load _ | .handle _ | .resume _ | .return_ _ =>
    .isTrue trivial

def wokenInTime : List (WaitAction Unit Unit ℕ) :=
  [.suspend, .suspend, .suspend, .dispatch () waitMessage, .load (), .load (), .handle (),
    .resume (), .cleanup, .cleanup, .cleanup, .cleanup, .cleanup]

theorem wait_leaves_nothing_wokenInTime : ∃ s : Waiting Unit Unit Unit ℕ,
    (machine Unit Unit Unit ℕ () ['a']).runIf StoresInTime waiting wokenInTime = some s ∧
      s.result = some 7 ∧ NothingLeft s.bus 1 := by
  refine ⟨_, rfl, rfl, ?_⟩
  have hs : (machine Unit Unit Unit ℕ () ['a']).Reaches StoresInTime _ :=
    .of_runIf (.start waiting_starts) wokenInTime rfl
  exact wait_leaves_nothing hs rfl (by decide)

def wokenEarly : List (WaitAction Unit Unit ℕ) :=
  [.suspend, .dispatch () waitMessage, .load (), .load (), .handle (), .resume (), .cleanup,
    .cleanup, .cleanup, .cleanup, .suspend, .suspend]

theorem wait_left_behind : ∃ s : Waiting Unit Unit Unit ℕ,
    (machine Unit Unit Unit ℕ () ['a']).Reachable s ∧ s.suspend = .finished 1 ∧
      .destroyed ∈ s.history ∧ s.bus.sub_to_topic_ 1 = some ⟨1, false⟩ ∧
        (s.bus.heap 0).subscribers_ = [⟨1, .awaiting⟩] :=
  ⟨_, Machine.Reaches.of_run (M := machine Unit Unit Unit ℕ () ['a']) waiting_starts wokenEarly rfl,
    rfl, by decide, rfl, rfl⟩

end LivioArk.Msgbus.AsyncWait
