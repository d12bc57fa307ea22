import LivioArk.Msgbus.Delivery

namespace LivioArk.Msgbus.Duplicates

open LivioArk.Library.Transition
open Levels TopicMatcher TopicRegistry WildcardTrie Subscriptions SubStore Delivery

variable {τ η ν ε : Type}

/-- A wildcard level of a matching pattern faces a level of the topic with the
same text. -/
structure Meets (ps ts : List Str) : Prop where
  matches_ : levelsMatch ps ts = true
  meets : (∃ i : ℕ, ps[i]? = some ['*'] ∧ ts[i]? = some ['*']) ∨
    ps.length = ts.length ∧ ps.getLast? = some ['#'] ∧ ts.getLast? = some ['#']

section Walk

variable {p t : Str} {ps ts : List Str}

theorem not_meets_nil (ts : List Str) : ¬ Meets [] ts := by
  rintro ⟨_, ⟨i, hi, _⟩ | ⟨_, hl, _⟩⟩
  · cases hi
  · cases hl

theorem not_meets_nil_right (ps : List Str) : ¬ Meets ps [] := by
  rintro ⟨_, ⟨i, _, hi⟩ | ⟨_, _, hl⟩⟩
  · cases hi
  · cases hl

/-- A final '#' is reached a second time by a topic that ends in it. -/
theorem meets_hash : Meets [['#']] (t :: ts) ↔ t = ['#'] ∧ ts = [] := by
  constructor
  · rintro ⟨_, ⟨i, hi, _⟩ | ⟨hlen, _, hl⟩⟩
    · cases i with
      | zero => simp at hi
      | succ i => simp at hi
    · have hts : ts = [] := by simpa [eq_comm] using hlen
      subst hts
      exact ⟨by simpa using hl, rfl⟩
  · rintro ⟨rfl, rfl⟩
    exact ⟨rfl, .inr ⟨rfl, rfl, rfl⟩⟩

theorem meets_star (h : levelsMatch ps ts = true) : Meets (['*'] :: ps) (['*'] :: ts) :=
  ⟨by simp [levelsMatch, h], .inl ⟨0, rfl, rfl⟩⟩

/-- A first level that cannot be reached twice does not count. -/
theorem meets_cons (hhash : ¬ (p = ['#'] ∧ ps = [])) (hstar : ¬ (p = ['*'] ∧ t = ['*'])) :
    Meets (p :: ps) (t :: ts) ↔ (p = ['*'] ∨ p = t) ∧ Meets ps ts := by
  have hmatch : levelsMatch (p :: ps) (t :: ts) = true ↔
      (p = ['*'] ∨ p = t) ∧ levelsMatch ps ts = true := by
    have hfirst : (decide (p = ['#']) && ps.isEmpty) = false := by simpa using hhash
    simp [levelsMatch, hfirst]
  constructor
  · rintro ⟨hm, hmeet⟩
    obtain ⟨hp, hm⟩ := hmatch.mp hm
    refine ⟨hp, hm, ?_⟩
    rcases hmeet with ⟨i, hi, hj⟩ | ⟨hlen, hl, hr⟩
    · cases i with
      | zero => exact absurd ⟨by simpa using hi, by simpa using hj⟩ hstar
      | succ i => exact .inl ⟨i, by simpa using hi, by simpa using hj⟩
    · have hlen : ps.length = ts.length := by simpa using hlen
      cases ps with
      | nil => exact absurd ⟨by simpa using hl, rfl⟩ hhash
      | cons q ps =>
        cases ts with
        | nil => cases hlen
        | cons u ts => exact .inr ⟨hlen, by simpa using hl, by simpa using hr⟩
  · rintro ⟨hp, hm, hmeet⟩
    refine ⟨hmatch.mpr ⟨hp, hm⟩, ?_⟩
    rcases hmeet with ⟨i, hi, hj⟩ | ⟨hlen, hl, hr⟩
    · exact .inl ⟨i + 1, by simpa using hi, by simpa using hj⟩
    · cases ps with
      | nil => cases hl
      | cons q ps =>
        cases ts with
        | nil => cases hr
        | cons u ts => exact .inr ⟨by simpa using hlen, by simpa using hl, by simpa using hr⟩

/-- The walk comes to a node twice exactly when two of its branches meet. -/
theorem visits_le_one_iff (ps ts : List Str) : visits ps ts ≤ 1 ↔ ¬ Meets ps ts := by
  induction ps generalizing ts with
  | nil =>
    refine ⟨fun _ ↦ not_meets_nil ts, fun _ ↦ ?_⟩
    cases ts <;> simp [visits]
  | cons p ps ih =>
    cases ts with
    | nil =>
      refine ⟨fun _ ↦ not_meets_nil_right _, fun _ ↦ ?_⟩
      rw [visits]
      split <;> simp
    | cons t ts =>
      by_cases hhash : p = ['#'] ∧ ps = []
      · obtain ⟨rfl, rfl⟩ := hhash
        rw [meets_hash, visits]
        cases ts with
        | nil => by_cases ht : t = ['#'] <;> simp [visits, ht, eq_comm]
        | cons u ts => simp [visits]
      · by_cases hstar : p = ['*'] ∧ t = ['*']
        · obtain ⟨rfl, rfl⟩ := hstar
          have hmeets : Meets (['*'] :: ps) (['*'] :: ts) ↔ 0 < visits ps ts := by
            rw [visits_pos_iff]
            exact ⟨fun h ↦ by simpa [levelsMatch] using h.matches_, meets_star⟩
          rw [hmeets, visits]
          simp only [hhash, if_false, if_true]
          omega
        · rw [meets_cons hhash hstar, visits, if_neg hhash, Nat.zero_add, not_and, ← ih]
          by_cases ht : p = t
          · subst ht
            have hp : p ≠ ['*'] := fun h ↦ hstar ⟨h, h⟩
            simp [hp]
          · by_cases hp : p = ['*']
            · have hne : ¬ ['*'] = t := hp ▸ ht
              simp [hp, hne]
            · simp [ht, hp]

end Walk

section Count

variable [DecidableEq τ] {live : List (Sub τ η)} {msg : Message τ ν} {s : Delivering τ η ν}

theorem ids_perm (h : Agree s) (call : η → ν → Except ε Unit) {p : Publication τ ν}
    (hp : p ∈ s.published) :
    ((dispatchMessage s.bus call p.msg).map Invocation.id).Perm
      (s.live.flatMap fun x ↦ List.replicate (x.times p.msg) x.id) := by
  obtain ⟨hfind, htopic, _, _⟩ := h.published p hp
  have hperm : (dispatchMessage s.bus call p.msg).Perm _ :=
    h.stored.dispatch_perm (htopic ▸ hfind)
  have hmap := hperm.map Invocation.id
  rw [List.map_flatMap] at hmap
  simpa only [Sub.invocations, List.map_replicate] using hmap

theorem count_eq_zero {id : ℕ} (hid : id ∉ live.map Sub.id) :
    (live.flatMap fun y ↦ List.replicate (y.times msg) y.id).count id = 0 := by
  refine List.count_eq_zero.mpr fun hmem ↦ ?_
  obtain ⟨y, hy, hrep⟩ := List.mem_flatMap.mp hmem
  exact hid (List.mem_map.mpr ⟨y, hy, (List.eq_of_mem_replicate hrep).symm⟩)

theorem count_of_mem (hnodup : (live.map Sub.id).Nodup) {x : Sub τ η} (hx : x ∈ live) :
    (live.flatMap fun y ↦ List.replicate (y.times msg) y.id).count x.id = x.times msg := by
  induction live with
  | nil => cases hx
  | cons y live ih =>
    rw [List.map_cons, List.nodup_cons] at hnodup
    rw [List.flatMap_cons, List.count_append]
    rcases List.mem_cons.mp hx with rfl | hx
    · rw [List.count_replicate_self, count_eq_zero hnodup.1, Nat.add_zero]
    · have hne : y.id ≠ x.id := fun he ↦ hnodup.1 (he ▸ List.mem_map_of_mem hx)
      rw [ih hnodup.2 hx, List.count_replicate, if_neg (by simpa using hne), Nat.zero_add]

theorem times_le_one_iff (x : Sub τ η) (msg : Message τ ν) :
    x.times msg ≤ 1 ↔ (x.type = msg.type → isWildcard x.topic = true →
      ¬ Meets (splitLevels x.topic) (splitLevels msg.topic_sv_)) := by
  by_cases ht : x.type = msg.type
  · by_cases hw : isWildcard x.topic = true
    · simp only [Sub.times, ht, hw, if_true, true_implies, visits_le_one_iff]
    · simp only [Sub.times, ht, hw, if_true, Bool.false_eq_true, if_false, false_implies,
        implies_true, iff_true]
      split <;> decide
  · simp [Sub.times, ht]

/-- No handler is invoked twice exactly when no matching pattern has a wildcard
level that the topic repeats. -/
theorem delivered_once_iff (hs : (machine τ η ν).Reachable s) (hsmall : Small s)
    {p : Publication τ ν} (hp : p ∈ s.published) (call : η → ν → Except ε Unit) :
    (∀ id, ((dispatchMessage s.bus call p.msg).map Invocation.id).count id ≤ 1) ↔
      ∀ x ∈ s.live, x.type = p.type → isWildcard x.topic = true →
        ¬ Meets (splitLevels x.topic) (splitLevels p.topic) := by
  have h := agree_reachable hs hsmall
  obtain ⟨_, htopic, htype, _⟩ := h.published p hp
  have htimes : ∀ x ∈ s.live, x.times p.msg ≤ 1 ↔ (x.type = p.type → isWildcard x.topic = true →
      ¬ Meets (splitLevels x.topic) (splitLevels p.topic)) := by
    intro x _
    rw [times_le_one_iff, htopic, htype]
  simp only [(ids_perm h call hp).count_eq]
  constructor
  · intro hcount x hx
    have hle := hcount x.id
    rw [count_of_mem h.numbered.nodup hx] at hle
    exact (htimes x hx).mp hle
  · intro hnot id
    by_cases hid : id ∈ s.live.map Sub.id
    · obtain ⟨x, hx, rfl⟩ := List.mem_map.mp hid
      rw [count_of_mem h.numbered.nodup hx]
      exact (htimes x hx).mpr (hnot x hx)
    · rw [count_eq_zero hid]
      exact Nat.zero_le _

end Count

def starCalls : List (BusCall Unit ℕ ℕ) :=
  [.subscribe () ['*'] 10, .subscribe () ['a', '/', '#'] 20, .publish () ['*'] 7]

theorem delivered_twice : ∃ (s : Delivering Unit ℕ ℕ) (p : Publication Unit ℕ),
    (machine Unit ℕ ℕ).run {} starCalls = some s ∧ p ∈ s.published ∧
      dispatchMessage s.bus noThrow p.msg = [⟨1, 10, 7⟩, ⟨1, 10, 7⟩] :=
  ⟨_, _, rfl, List.mem_singleton_self _, rfl⟩

theorem delivered_once_iff_starCalls : ∃ (s : Delivering Unit ℕ ℕ) (p : Publication Unit ℕ),
    (machine Unit ℕ ℕ).run {} starCalls = some s ∧ p ∈ s.published ∧
      ((∀ id, ((dispatchMessage s.bus noThrow p.msg).map Invocation.id).count id ≤ 1) ↔
        ∀ x ∈ s.live, x.type = p.type → isWildcard x.topic = true →
          ¬ Meets (splitLevels x.topic) (splitLevels p.topic)) :=
  ⟨_, _, rfl, List.mem_singleton_self _,
    delivered_once_iff (.of_run (M := machine Unit ℕ ℕ) rfl starCalls rfl)
      ⟨by decide, by decide⟩ (List.mem_singleton_self _) noThrow⟩

end LivioArk.Msgbus.Duplicates
