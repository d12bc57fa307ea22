import LivioArk.Library.Transition
import LivioArk.Msgbus.Levels
import Mathlib.Algebra.Group.Nat.Defs
import Mathlib.Data.Finset.Card
import Mathlib.Logic.Function.Basic

namespace LivioArk.Msgbus.TopicRegistry

open Function LivioArk.Library.Transition Levels

def kInvalidTopicId : ℕ := 0

/-- The views in `id_to_sv_` show the keys of `map_`, which never move. -/
structure Registry where
  map_ : List (Str × ℕ) := []
  id_to_sv_ : List (ℕ × Str) := []
  next_id_ : ℕ := 1
  deriving Repr, DecidableEq

/-- A `TopicId` has 32 bits. -/
def idLimit : ℕ := 2 ^ 32

def find (topic : Str) (r : Registry) : Option ℕ := r.map_.lookup topic

def emplace (id : ℕ) (name : Str) (names : List (ℕ × Str)) : List (ℕ × Str) :=
  if (names.lookup id).isSome then names else names ++ [(id, name)]

/-- The part of `resolve` under the exclusive lock, which looks again. -/
def resolveSlow (topic : Str) (r : Registry) : ℕ × Registry :=
  match find topic r with
  | some id => (id, r)
  | none =>
    (r.next_id_,
      { map_ := r.map_ ++ [(topic, r.next_id_)]
        id_to_sv_ := emplace r.next_id_ topic r.id_to_sv_
        next_id_ := (r.next_id_ + 1) % idLimit })

def resolve (topic : Str) (r : Registry) : ℕ × Registry :=
  match find topic r with
  | some id => (id, r)
  | none => resolveSlow topic r

def to_string (id : ℕ) (r : Registry) : Str := (r.id_to_sv_.lookup id).getD []

/-- Where a thread is in `resolve`: before the lookup under the shared lock, or
before the exclusive lock. -/
inductive ResolvePc where
  | idle
  | lookup (topic : Str)
  | insert (topic : Str)

inductive RegistryEvent where
  | resolved (topic : Str) (id : ℕ)
  | named (id : ℕ) (name : Str)

structure Registering (Tid : Type) where
  registry : Registry := {}
  threads : Tid → ResolvePc := fun _ ↦ .idle
  called : List Str := []
  history : List RegistryEvent := []

inductive RegistryAction (Tid : Type) where
  | resolve (t : Tid) (topic : Str)
  | shared (t : Tid)
  | exclusive (t : Tid)
  | to_string (t : Tid) (id : ℕ)

variable {Tid : Type}

section Machine

variable [DecidableEq Tid]

def Registering.answer (s : Registering Tid) (t : Tid) (topic : Str) (id : ℕ)
    (registry : Registry) : Registering Tid :=
  { s with
    registry
    threads := update s.threads t .idle
    history := s.history ++ [.resolved topic id] }

def step (s : Registering Tid) : RegistryAction Tid → Option (Registering Tid)
  | .resolve t topic =>
    match s.threads t with
    | .idle => some
      { s with threads := update s.threads t (.lookup topic), called := s.called ++ [topic] }
    | _ => none
  | .shared t =>
    match s.threads t with
    | .lookup topic =>
      match find topic s.registry with
      | some id => some (s.answer t topic id s.registry)
      | none => some { s with threads := update s.threads t (.insert topic) }
    | _ => none
  | .exclusive t =>
    match s.threads t with
    | .insert topic =>
      let (id, registry) := resolveSlow topic s.registry
      some (s.answer t topic id registry)
    | _ => none
  | .to_string t id =>
    match s.threads t with
    | .idle => some { s with history := s.history ++ [.named id (to_string id s.registry)] }
    | _ => none

def machine (Tid : Type) [DecidableEq Tid] : Machine (Registering Tid) (RegistryAction Tid) where
  init s := s = {}
  step := step

end Machine

/-- The topics have the ids 1, 2, … in the order in which they came, and the
two maps say the same. -/
structure Bijective (r : Registry) : Prop where
  topics : (r.map_.map Prod.fst).Nodup
  ids : r.map_.map Prod.snd = List.range' 1 r.map_.length
  names : r.id_to_sv_ = r.map_.map Prod.swap
  next : r.next_id_ = (r.map_.length + 1) % idLimit
  bound : r.map_.length < idLimit

section Maps

variable {κ ν : Type} [BEq κ] [LawfulBEq κ] {k : κ} {v : ν}

theorem lookup_eq_some_iff {m : List (κ × ν)} (h : (m.map Prod.fst).Nodup) :
    m.lookup k = some v ↔ (k, v) ∈ m := by
  induction m with
  | nil => simp
  | cons x m ih =>
    obtain ⟨k', v'⟩ := x
    rw [List.map_cons, List.nodup_cons] at h
    by_cases hk : k = k'
    · subst hk
      have hnot : (k, v) ∉ m := fun hm ↦ h.1 (List.mem_map.mpr ⟨_, hm, rfl⟩)
      simp [hnot, eq_comm]
    · have hbeq : (k == k') = false := by simpa using hk
      simp [List.lookup_cons, hbeq, ih h.2, hk]

theorem lookup_eq_none_iff {m : List (κ × ν)} : m.lookup k = none ↔ k ∉ m.map Prod.fst := by
  rw [List.lookup_eq_none_iff, List.mem_map]
  simp only [bne_iff_ne, ne_eq, not_exists, not_and, Prod.forall]
  exact ⟨fun h a b hm he ↦ h a b hm he.symm, fun h a b hm he ↦ h a b hm he.symm⟩

end Maps

section Bijection

variable {r : Registry} {topic name : Str} {id : ℕ}

theorem bijective_initial : Bijective {} where
  topics := List.nodup_nil
  ids := rfl
  names := rfl
  next := rfl
  bound := by decide

namespace Bijective

theorem find_iff (h : Bijective r) : find topic r = some id ↔ (topic, id) ∈ r.map_ :=
  lookup_eq_some_iff h.topics

theorem id_range (h : Bijective r) (hm : (topic, id) ∈ r.map_) : 1 ≤ id ∧ id ≤ r.map_.length := by
  have hid : id ∈ r.map_.map Prod.snd := List.mem_map.mpr ⟨_, hm, rfl⟩
  rw [h.ids, List.mem_range'_1] at hid
  omega

theorem names_nodup (h : Bijective r) : (r.id_to_sv_.map Prod.fst).Nodup := by
  have hsnd : (r.map_.map Prod.swap).map Prod.fst = r.map_.map Prod.snd := by simp
  rw [h.names, hsnd, h.ids]
  exact List.nodup_range'

theorem name_iff (h : Bijective r) : r.id_to_sv_.lookup id = some topic ↔ (topic, id) ∈ r.map_ := by
  rw [lookup_eq_some_iff h.names_nodup, h.names]
  simp

theorem to_string_eq (h : Bijective r) (hf : find topic r = some id) : to_string id r = topic := by
  rw [h.find_iff, ← h.name_iff] at hf
  rw [to_string, hf, Option.getD_some]

theorem find_inj (h : Bijective r) (hf : find topic r = some id) (hg : find name r = some id) :
    topic = name := by
  rw [← h.to_string_eq hf, h.to_string_eq hg]

theorem insert (h : Bijective r) (hf : find topic r = none)
    (hroom : r.map_.length + 1 < idLimit) :
    Bijective (resolveSlow topic r).2 ∧ (resolveSlow topic r).1 = r.map_.length + 1 ∧
      (resolveSlow topic r).2.map_ = r.map_ ++ [(topic, r.map_.length + 1)] := by
  have hnext : r.next_id_ = r.map_.length + 1 := by rw [h.next, Nat.mod_eq_of_lt hroom]
  have hfree : r.id_to_sv_.lookup r.next_id_ = none := by
    rw [Option.eq_none_iff_forall_ne_some]
    intro name hn
    have hle := (h.id_range (h.name_iff.mp hn)).2
    omega
  have htopic : topic ∉ r.map_.map Prod.fst := lookup_eq_none_iff.mp hf
  simp only [resolveSlow, hf, emplace, hfree, Option.isSome_none, Bool.false_eq_true, if_false]
  refine ⟨⟨?_, ?_, ?_, ?_, ?_⟩, hnext, by rw [hnext]⟩
  · rw [List.map_append, List.map_singleton, ← List.concat_eq_append]
    exact h.topics.concat htopic
  · rw [List.map_append, h.ids, List.length_append, List.length_singleton, List.range'_concat,
      hnext]
    simp [Nat.add_comm]
  · rw [List.map_append, h.names]
    rfl
  · rw [hnext, List.length_append, List.length_singleton]
  · rw [List.length_append, List.length_singleton]
    exact hroom

end Bijective

theorem find_resolveSlow_self (topic : Str) (r : Registry) :
    find topic (resolveSlow topic r).2 = some (resolveSlow topic r).1 := by
  cases hf : find topic r with
  | some id => simp [resolveSlow, hf]
  | none =>
    simp only [resolveSlow, hf]
    have hlookup : r.map_.lookup topic = none := hf
    simp [find, List.lookup_append, hlookup]

/-- What has an id keeps it. -/
theorem find_resolveSlow (hf : find topic r = some id) (name : Str) :
    find topic (resolveSlow name r).2 = some id := by
  cases hn : find name r with
  | some _ =>
    simp only [resolveSlow, hn]
    exact hf
  | none =>
    simp only [resolveSlow, hn]
    have hlookup : r.map_.lookup topic = some id := hf
    simp [find, List.lookup_append, hlookup]

theorem topics_resolveSlow (hm : name ∈ (resolveSlow topic r).2.map_.map Prod.fst) :
    name = topic ∨ name ∈ r.map_.map Prod.fst := by
  cases hf : find topic r with
  | some id =>
    simp only [resolveSlow, hf] at hm
    exact .inr hm
  | none =>
    simp only [resolveSlow, hf, List.map_append, List.mem_append, List.map_singleton,
      List.mem_singleton] at hm
    exact hm.symm

theorem Bijective.room (h : Bijective r) {called : List Str}
    (htopics : ∀ name ∈ r.map_.map Prod.fst, name ∈ called) (hcalled : topic ∈ called)
    (hf : find topic r = none) : r.map_.length + 1 ≤ called.toFinset.card := by
  have hnodup : ((r.map_.map Prod.fst).concat topic).Nodup :=
    h.topics.concat (lookup_eq_none_iff.mp hf)
  have hsub : ((r.map_.map Prod.fst).concat topic).toFinset ⊆ called.toFinset := by
    intro name hn
    simp only [List.concat_eq_append, List.mem_toFinset, List.mem_append,
      List.mem_singleton] at hn ⊢
    rcases hn with hn | rfl
    · exact htopics name hn
    · exact hcalled
  have hcard := Finset.card_le_card hsub
  rw [List.toFinset_card_of_nodup hnodup, List.concat_eq_append, List.length_append,
    List.length_map, List.length_singleton] at hcard
  exact hcard

theorem resolve_eq (topic : Str) (r : Registry) : resolve topic r = resolveSlow topic r := by
  cases hf : find topic r with
  | some id => simp only [resolve, resolveSlow, hf]
  | none => simp only [resolve, hf]

/-- `resolve` keeps the two maps together, with room for the topics asked for. -/
theorem Bijective.resolveSlow (h : Bijective r) {called : List Str}
    (htopics : ∀ name ∈ r.map_.map Prod.fst, name ∈ called) (hcalled : topic ∈ called)
    (hB : called.toFinset.card < idLimit) : Bijective (resolveSlow topic r).2 := by
  cases hf : find topic r with
  | some id =>
    simp only [TopicRegistry.resolveSlow, hf]
    exact h
  | none =>
    have hroom := h.room htopics hcalled hf
    exact (h.insert hf (Nat.lt_of_le_of_lt hroom hB)).1

end Bijection

section Threads

variable {s t : Registering Tid}

def Registering.distinct (s : Registering Tid) : ℕ := s.called.toFinset.card

structure Consistent (s : Registering Tid) : Prop where
  bijective : Bijective s.registry
  topics : ∀ topic ∈ s.registry.map_.map Prod.fst, topic ∈ s.called
  pending : ∀ p topic, s.threads p = .lookup topic ∨ s.threads p = .insert topic →
    topic ∈ s.called
  resolved : ∀ topic id, .resolved topic id ∈ s.history → find topic s.registry = some id
  named : ∀ past id name future, s.history = past ++ .named id name :: future →
    ∀ topic, .resolved topic id ∈ past → name = topic

theorem consistent_initial : Consistent ({} : Registering Tid) where
  bijective := bijective_initial
  topics _ h := by cases h
  pending _ _ h := by rcases h with h | h <;> cases h
  resolved _ _ h := by cases h
  named past _ _ _ h := by cases past <;> cases h

theorem named_append {history : List RegistryEvent} {e : RegistryEvent}
    (h : ∀ past id name future, history = past ++ .named id name :: future →
      ∀ topic, .resolved topic id ∈ past → name = topic)
    (he : ∀ id name, e = .named id name → ∀ topic, .resolved topic id ∈ history → name = topic) :
    ∀ past id name future, history ++ [e] = past ++ .named id name :: future →
      ∀ topic, .resolved topic id ∈ past → name = topic := by
  intro past id name future heq topic hm
  rcases List.eq_nil_or_concat future with rfl | ⟨future', e', rfl⟩
  · obtain ⟨rfl, he'⟩ := List.append_inj' heq rfl
    exact he id name (List.singleton_inj.mp he') topic hm
  · rw [List.concat_eq_append, ← List.cons_append, ← List.append_assoc] at heq
    exact h past id name future' (List.append_inj' heq rfl).1 topic hm

variable [DecidableEq Tid] {p : Tid} {topic : Str} {id : ℕ}

theorem Consistent.answer (h : Consistent s) {registry : Registry} (hb : Bijective registry)
    (htopics : ∀ name ∈ registry.map_.map Prod.fst, name ∈ s.called)
    (hkeep : ∀ name id, find name s.registry = some id → find name registry = some id)
    (hf : find topic registry = some id) : Consistent (s.answer p topic id registry) where
  bijective := hb
  topics := htopics
  pending q name hq := by
    by_cases hqp : q = p
    · subst hqp
      simp [Registering.answer] at hq
    · simp only [Registering.answer, update_of_ne hqp] at hq
      exact h.pending q name hq
  resolved name id' hm := by
    simp only [Registering.answer, List.mem_append, List.mem_singleton] at hm
    rcases hm with hm | hm
    · exact hkeep name id' (h.resolved name id' hm)
    · cases hm
      exact hf
  named := named_append h.named fun _ _ he ↦ by cases he

theorem Consistent.step {a : RegistryAction Tid} (h : Consistent s)
    (hs : TopicRegistry.step s a = some t) (hB : t.distinct < idLimit) : Consistent t := by
  cases a with
  | resolve p topic =>
    simp only [TopicRegistry.step] at hs
    split at hs
    · cases hs
      refine { h with topics := fun name hm ↦ ?_, pending := fun q name hq ↦ ?_ }
      · exact List.mem_append_left _ (h.topics name hm)
      · by_cases hqp : q = p
        · subst hqp
          simp only [update_self, ResolvePc.lookup.injEq, reduceCtorEq, or_false] at hq
          exact List.mem_append_right _ (List.mem_singleton.mpr hq.symm)
        · simp only [update_of_ne hqp] at hq
          exact List.mem_append_left _ (h.pending q name hq)
    · cases hs
  | shared p =>
    simp only [TopicRegistry.step] at hs
    split at hs
    · rename_i topic hpc
      split at hs
      · rename_i id hf
        cases hs
        exact h.answer h.bijective h.topics (fun _ _ hf ↦ hf) hf
      · cases hs
        refine { h with pending := fun q name hq ↦ ?_ }
        by_cases hqp : q = p
        · subst hqp
          simp only [update_self, reduceCtorEq, ResolvePc.insert.injEq, false_or] at hq
          exact hq ▸ h.pending q topic (.inl hpc)
        · simp only [update_of_ne hqp] at hq
          exact h.pending q name hq
    · cases hs
  | exclusive p =>
    simp only [TopicRegistry.step] at hs
    split at hs
    · rename_i topic hpc
      cases hs
      have hcalled := h.pending p topic (.inr hpc)
      refine h.answer (h.bijective.resolveSlow h.topics hcalled hB) (fun name hm ↦ ?_)
        (fun _ _ hf ↦ find_resolveSlow hf topic) (find_resolveSlow_self topic _)
      rcases topics_resolveSlow hm with rfl | hm
      · exact hcalled
      · exact h.topics name hm
    · cases hs
  | to_string p id =>
    simp only [TopicRegistry.step] at hs
    split at hs
    · cases hs
      refine { h with resolved := fun topic id' hm ↦ ?_, named := named_append h.named ?_ }
      · simp only [List.mem_append, List.mem_singleton, reduceCtorEq, or_false] at hm
        exact h.resolved topic id' hm
      · intro id' name he topic hm
        cases he
        exact h.bijective.to_string_eq (h.resolved topic id hm)
    · cases hs

theorem distinct_le_of_step {a : RegistryAction Tid} (hs : step s a = some t) :
    s.distinct ≤ t.distinct := by
  have hcalled : s.called ⊆ t.called := by
    cases a with
    | resolve p topic =>
      simp only [TopicRegistry.step] at hs
      split at hs <;> cases hs
      exact List.subset_append_left _ _
    | shared p =>
      simp only [TopicRegistry.step] at hs
      split at hs
      · split at hs <;> cases hs <;> exact List.Subset.refl _
      · cases hs
    | exclusive p | to_string p id =>
      simp only [TopicRegistry.step] at hs
      split at hs <;> cases hs
      exact List.Subset.refl _
  exact Finset.card_le_card fun name hn ↦ by
    simp only [List.mem_toFinset] at hn ⊢
    exact hcalled hn

theorem consistent_reachable (hs : (machine Tid).Reachable s) (hB : s.distinct < idLimit) :
    Consistent s := by
  refine Machine.Reaches.invariant_below Registering.distinct idLimit
    (fun _ _ _ ↦ distinct_le_of_step) ?_ (fun _ _ _ _ h _ ht hB ↦ h.step ht hB) hs hB
  intro s hs
  rw [show s = {} from hs]
  exact consistent_initial

/-- A step takes no id away, and forgets no call. -/
theorem step_keeps {a : RegistryAction Tid} (hs : step s a = some t) :
    (∀ topic id, find topic s.registry = some id → find topic t.registry = some id) ∧
      ∀ e ∈ s.history, e ∈ t.history := by
  cases a with
  | resolve p topic =>
    simp only [TopicRegistry.step] at hs
    split at hs <;> cases hs
    exact ⟨fun _ _ h ↦ h, fun _ h ↦ h⟩
  | shared p =>
    simp only [TopicRegistry.step] at hs
    split at hs
    · split at hs <;> cases hs
      · exact ⟨fun _ _ h ↦ h, fun _ h ↦ List.mem_append_left _ h⟩
      · exact ⟨fun _ _ h ↦ h, fun _ h ↦ h⟩
    · cases hs
  | exclusive p =>
    simp only [TopicRegistry.step] at hs
    split at hs <;> cases hs
    exact ⟨fun _ _ h ↦ find_resolveSlow h _, fun _ h ↦ List.mem_append_left _ h⟩
  | to_string p id =>
    simp only [TopicRegistry.step] at hs
    split at hs <;> cases hs
    exact ⟨fun _ _ h ↦ h, fun _ h ↦ List.mem_append_left _ h⟩

end Threads

/-- What the calls up to a state `t` say to each other, and to those up to an
earlier state `s`. -/
structure Stable (s t : Registering Tid) : Prop where
  same : ∀ topic id topic' id', .resolved topic id ∈ t.history →
    .resolved topic' id' ∈ t.history → (id = id' ↔ topic = topic')
  valid : ∀ topic id, .resolved topic id ∈ t.history → id ≠ kInvalidTopicId
  lasting : ∀ topic id, .resolved topic id ∈ s.history → to_string id t.registry = topic
  named : ∀ past id name future, t.history = past ++ .named id name :: future →
    ∀ topic, .resolved topic id ∈ past → name = topic
  kept : ∀ topic id, find topic s.registry = some id →
    find topic t.registry = some id ∧ to_string id t.registry = topic
  inverse : ∀ topic id, find topic t.registry = some id ↔
    t.registry.id_to_sv_.lookup id = some topic

theorem stable_bijection [DecidableEq Tid] {s t : Registering Tid}
    (hs : (machine Tid).Reachable s) {as : List (RegistryAction Tid)}
    (hrun : (machine Tid).run s as = some t) (hB : t.distinct ≤ 2 ^ 32 - 1) : Stable s t := by
  have ht := consistent_reachable (hs.run_next as hrun) (Nat.lt_succ_of_le hB)
  have hkeep : (∀ topic id, find topic s.registry = some id → find topic t.registry = some id) ∧
      ∀ e ∈ s.history, e ∈ t.history := by
    refine Machine.run_invariant (P := fun u ↦
      (∀ topic id, find topic s.registry = some id → find topic u.registry = some id) ∧
        ∀ e ∈ s.history, e ∈ u.history) ?_ ⟨fun _ _ h ↦ h, fun _ h ↦ h⟩ as hrun
    intro u a v hu hv
    have hstep := step_keeps hv
    exact ⟨fun topic id h ↦ hstep.1 topic id (hu.1 topic id h), fun e he ↦ hstep.2 e (hu.2 e he)⟩
  refine ⟨fun topic id topic' id' hm hm' ↦ ?_, fun topic id hm ↦ ?_, fun topic id hm ↦ ?_,
    ht.named, fun topic id hf ↦ ?_, fun topic id ↦ ?_⟩
  · have hf := ht.resolved topic id hm
    have hf' := ht.resolved topic' id' hm'
    constructor
    · rintro rfl
      exact ht.bijective.find_inj hf hf'
    · rintro rfl
      exact Option.some.inj (hf.symm.trans hf')
  · have hrange := ht.bijective.id_range (ht.bijective.find_iff.mp (ht.resolved topic id hm))
    exact Nat.one_le_iff_ne_zero.mp hrange.1
  · exact ht.bijective.to_string_eq (ht.resolved topic id (hkeep.2 _ hm))
  · have hf := hkeep.1 topic id hf
    exact ⟨hf, ht.bijective.to_string_eq hf⟩
  · rw [ht.bijective.find_iff, ht.bijective.name_iff]

def race : List (RegistryAction Bool) :=
  [.resolve false ['a'], .resolve true ['a'], .shared false, .shared true, .exclusive true,
    .exclusive false, .to_string true 1]

theorem stable_bijection_race : ∃ s : Registering Bool,
    (machine Bool).run {} race = some s ∧ s.registry.map_ = [(['a'], 1)] ∧
      s.history = [.resolved ['a'] 1, .resolved ['a'] 1, .named 1 ['a']] ∧ Stable s s :=
  ⟨_, rfl, rfl, rfl, @stable_bijection _ _ _ _ (.of_run (M := machine Bool) rfl race rfl) [] rfl
    (by decide)⟩

end LivioArk.Msgbus.TopicRegistry
