import LivioArk.Msgbus.QueueInvariant
import Mathlib.Data.List.Count
import Mathlib.Data.List.Perm.Subperm

namespace LivioArk.Msgbus.QueueSafety

open Function LivioArk.Library.Transition LockFreeQueue QueueInvariant

variable {Tid α : Type}

def claimedPosition : Event Tid α → Option ℕ
  | .enqueueClaim _ pos _ => some pos
  | _ => none

/-- What must have happened before an event, on a ring of `c` cells. -/
def Justified (c : ℕ) (past : List (Event Tid α)) : Event Tid α → Prop
  | .call _ _ => True
  | .enqueueClaim _ pos _ => pos = (past.filterMap claimedPosition).length
  | .store t pos value => .enqueueClaim t pos value ∈ past ∧
      (c ≤ pos → ∃ u x, .take u (pos - c) x ∈ past) ∧ ∀ u w, .store u pos w ∉ past
  | .publish t pos => ∃ value, .store t pos value ∈ past
  | .dequeueClaim _ pos => pos = (past.filterMap Event.dequeued).length ∧ ∃ u, .publish u pos ∈ past
  | .take t pos x => .dequeueClaim t pos ∈ past ∧
      (∃ u value, x = some value ∧ .store u pos value ∈ past) ∧ ∀ u y, .take u pos y ∉ past
  | .release t pos x => .take t pos x ∈ past

def Lawful (c : ℕ) (hist : List (Event Tid α)) : Prop :=
  ∀ past e future, hist = past ++ e :: future → Justified c past e

theorem Lawful.snoc {c : ℕ} {hist : List (Event Tid α)} {e : Event Tid α} (h : Lawful c hist)
    (he : Justified c hist e) : Lawful c (hist ++ [e]) := by
  intro past e' future heq
  rcases List.eq_nil_or_concat' future with rfl | ⟨future, last, rfl⟩
  · obtain ⟨rfl, hlast⟩ := List.append_inj' heq rfl
    cases hlast
    exact he
  · have heq' : hist ++ [e] = (past ++ e' :: future) ++ [last] := by simpa using heq
    exact h past e' future (List.append_inj' heq' rfl).1

theorem Lawful.justified {c : ℕ} {hist : List (Event Tid α)} {e : Event Tid α}
    (h : Lawful c hist) (he : e ∈ hist) : ∃ past, past ⊆ hist ∧ Justified c past e := by
  obtain ⟨past, future, rfl⟩ := List.append_of_mem he
  exact ⟨past, List.subset_append_left _ _, h past e future rfl⟩

def OpTraced (c : ℕ) (hist : List (Event Tid α)) (t : Tid) : Op α → Prop
  | .enqueueStore value pos => .enqueueClaim t pos value ∈ hist ∧
      (c ≤ pos → ∃ u x, .take u (pos - c) x ∈ hist) ∧ ∀ u w, .store u pos w ∉ hist
  | .enqueuePublish pos => ∃ value, .store t pos value ∈ hist
  | .dequeueTake pos => .dequeueClaim t pos ∈ hist ∧ ∀ u x, .take u pos x ∉ hist
  | .dequeueRelease pos x => .take t pos x ∈ hist
  | .dequeueDone true x => ∃ pos, .release t pos x ∈ hist
  | _ => True

structure Traced (k : ℕ) (s : Sys Tid α) : Prop where
  lawful : Lawful (2 ^ k) s.hist
  producers : s.hist.filterMap claimedPosition = List.range s.put.length
  consumers : s.hist.filterMap Event.dequeued = List.range s.got
  value : ∀ u p v, .enqueueClaim u p v ∈ s.hist → s.put[p]? = some v
  published : ∀ p < s.put.length, (∃ t, s.Filling t p) ∨ ∃ u, .publish u p ∈ s.hist
  taken : ∀ p < s.got, (∃ t, s.ops t = some (.dequeueTake p)) ∨ ∃ u x, .take u p x ∈ s.hist
  released : ∀ p < s.got, (∃ t, s.Draining t p) ∨ ∃ u x, .release u p x ∈ s.hist
  ops : ∀ t op, s.ops t = some op → OpTraced (2 ^ k) s.hist t op

variable {k : ℕ} {s : Sys Tid α}

theorem Traced.store_value (h : Traced k s) {u : Tid} {p : ℕ} {v : α}
    (hmem : .store u p v ∈ s.hist) : s.put[p]? = some v := by
  obtain ⟨past, hsub, hj⟩ := h.lawful.justified hmem
  exact h.value u p v (hsub hj.1)

theorem Traced.take_lt (h : Traced k s) {u : Tid} {p : ℕ} {x : Option α}
    (hmem : .take u p x ∈ s.hist) : p < s.got := by
  obtain ⟨past, hsub, hj⟩ := h.lawful.justified hmem
  have hp : p ∈ s.hist.filterMap Event.dequeued :=
    List.mem_filterMap.mpr ⟨.dequeueClaim u p, hsub hj.1, rfl⟩
  rw [h.consumers] at hp
  exact List.mem_range.mp hp

theorem Traced.take_value (h : Traced k s) {u : Tid} {p : ℕ} {x : Option α}
    (hmem : .take u p x ∈ s.hist) : ∃ w v, x = some v ∧ .enqueueClaim w p v ∈ s.hist := by
  obtain ⟨past, hsub, hj⟩ := h.lawful.justified hmem
  obtain ⟨w, v, rfl, hstore⟩ := hj.2.1
  obtain ⟨past', hsub', hj'⟩ := h.lawful.justified (hsub hstore)
  exact ⟨w, v, rfl, hsub' hj'.1⟩

theorem Traced.release_value (h : Traced k s) {u : Tid} {p : ℕ} {x : Option α}
    (hmem : .release u p x ∈ s.hist) : ∃ w v, x = some v ∧ .enqueueClaim w p v ∈ s.hist := by
  obtain ⟨past, hsub, hj⟩ := h.lawful.justified hmem
  exact h.take_value (hsub hj)

theorem OpTraced.mono {c : ℕ} {hist : List (Event Tid α)} {t : Tid} {op : Op α} {e : Event Tid α}
    (h : OpTraced c hist t op)
    (hstore : ∀ pos u w v, op = .enqueueStore v pos → e ≠ .store u pos w)
    (htake : ∀ pos u x, op = .dequeueTake pos → e ≠ .take u pos x) :
    OpTraced c (hist ++ [e]) t op := by
  have hin : ∀ {e'}, e' ∈ hist → e' ∈ hist ++ [e] := fun h ↦ List.mem_append_left _ h
  cases op with
  | enqueueStore v pos =>
    refine ⟨hin h.1, fun hc ↦ ?_, fun u w hmem ↦ ?_⟩
    · obtain ⟨u, x, hx⟩ := h.2.1 hc
      exact ⟨u, x, hin hx⟩
    · rcases List.mem_append.mp hmem with hmem | hmem
      · exact h.2.2 u w hmem
      · exact hstore pos u w v rfl (List.mem_singleton.mp hmem).symm
  | enqueuePublish pos => obtain ⟨v, hv⟩ := h; exact ⟨v, hin hv⟩
  | dequeueTake pos =>
    refine ⟨hin h.1, fun u x hmem ↦ ?_⟩
    rcases List.mem_append.mp hmem with hmem | hmem
    · exact h.2 u x hmem
    · exact htake pos u x rfl (List.mem_singleton.mp hmem).symm
  | dequeueRelease pos x => exact hin h
  | dequeueDone ok x =>
    cases ok with
    | true => obtain ⟨pos, hpos⟩ := h; exact ⟨pos, hin hpos⟩
    | false => trivial
  | _ => trivial

/-- The value a consumer finds is the one whose producer claimed the position. -/
theorem Traced.take_justified (h : Traced k s) (hi : Inv k s) {pos : ℕ} {t : Tid}
    (hop : s.ops t = some (.dequeueTake pos)) :
    Justified (2 ^ k) s.hist (.take t pos (s.queue.cell pos).data) := by
  obtain ⟨hclaim, hfresh⟩ : OpTraced (2 ^ k) s.hist t (.dequeueTake pos) := h.ops t _ hop
  refine ⟨hclaim, ?_, hfresh⟩
  have hdr := hi.draining t pos ((draining_of_op hop).mpr rfl)
  have hle := hi.got_le
  have hdata : (s.queue.cell pos).data = s.put[pos]? := hi.ops t _ hop
  rcases h.published pos (by omega) with ⟨u, hu⟩ | ⟨u, hu⟩
  · have := hi.filling u pos hu
    omega
  · obtain ⟨past, hsub, v, hv⟩ := h.lawful.justified hu
    exact ⟨u, v, hdata.trans (h.store_value (hsub hv)), hsub hv⟩

def caller : Event Tid α → Option Tid
  | .call t _ => some t
  | _ => none

def claimer : Event Tid α → Option Tid
  | .enqueueClaim t _ _ => some t
  | _ => none

def operations (s : Sys Tid α) : ℕ := (s.hist.filterMap caller).length

def unclaimed : Op α → Bool
  | .enqueueLoad _ | .enqueueSeq _ _ | .enqueueCas _ _ => true
  | _ => false

theorem caller_event (t : Tid) (op op' : Op α) : (op.event t op').filterMap caller = [] := by
  unfold Op.event
  split <;> rfl

theorem claimer_event {t : Tid} {op op' : Op α} {queue q : Queue α} {spurious : Bool}
    (h : op.step queue spurious = some (q, op')) :
    ((op.event t op').filterMap claimer = [] ∧ (unclaimed op' = true → unclaimed op = true)) ∨
    ((op.event t op').filterMap claimer = [t] ∧ unclaimed op = true ∧ unclaimed op' = false) := by
  cases op with
  | enqueueCas value pos =>
    simp only [Op.step] at h
    split at h <;> cases h
    · exact .inr ⟨rfl, rfl, rfl⟩
    · exact .inl ⟨rfl, fun _ ↦ rfl⟩
  | enqueueSeq value pos =>
    simp only [Op.step] at h
    split at h
    · cases h; exact .inl ⟨rfl, fun _ ↦ rfl⟩
    · split at h <;> cases h <;> exact .inl ⟨rfl, fun _ ↦ rfl⟩
  | dequeueCas pos =>
    simp only [Op.step] at h
    split at h <;> cases h <;> exact .inl ⟨rfl, id⟩
  | dequeueSeq pos =>
    simp only [Op.step] at h
    split at h
    · cases h; exact .inl ⟨rfl, id⟩
    · split at h <;> cases h <;> exact .inl ⟨rfl, id⟩
  | enqueueLoad value => cases h; exact .inl ⟨rfl, fun _ ↦ rfl⟩
  | enqueueDone ok => cases h
  | dequeueDone ok value => cases h
  | _ => cases h; exact .inl ⟨rfl, id⟩

variable [DecidableEq Tid] {t : Tid} {q : Queue α} {o : Option (Op α)} {hist : List (Event Tid α)}

theorem keep_filling {p : ℕ} (hne : (s.ops t).bind Op.filling ≠ some p)
    (hf : ∃ u, s.Filling u p) : ∃ u, Sys.Filling ⟨q, update s.ops t o, hist⟩ u p := by
  obtain ⟨u, hu⟩ := hf
  have hut : u ≠ t := by rintro rfl; exact hne hu
  exact ⟨u, by rw [filling_update, if_neg hut]; exact hu⟩

theorem keep_draining {p : ℕ} (hne : (s.ops t).bind Op.draining ≠ some p)
    (hd : ∃ u, s.Draining u p) : ∃ u, Sys.Draining ⟨q, update s.ops t o, hist⟩ u p := by
  obtain ⟨u, hu⟩ := hd
  have hut : u ≠ t := by rintro rfl; exact hne hu
  exact ⟨u, by rw [draining_update, if_neg hut]; exact hu⟩

theorem keep_take {p : ℕ} (hne : s.ops t ≠ some (.dequeueTake p))
    (hd : ∃ u, s.ops u = some (.dequeueTake p)) :
    ∃ u, update s.ops t o u = some (.dequeueTake p) := by
  obtain ⟨u, hu⟩ := hd
  have hut : u ≠ t := by rintro rfl; exact hne hu
  exact ⟨u, by rw [update_of_ne hut]; exact hu⟩

theorem Traced.quiet (h : Traced k s) (hf : (s.ops t).bind Op.filling = none)
    (hd : (s.ops t).bind Op.draining = none)
    (ho : ∀ op, o = some op → OpTraced (2 ^ k) s.hist t op) :
    Traced k ⟨q, update s.ops t o, s.hist⟩ where
  lawful := h.lawful
  producers := h.producers
  consumers := h.consumers
  value := h.value
  published p hp := (h.published p hp).imp_left (keep_filling (by simp [hf]))
  taken p hp := by
    refine (h.taken p hp).imp_left (keep_take fun hop ↦ ?_)
    simp [hop, Op.draining] at hd
  released p hp := (h.released p hp).imp_left (keep_draining (by simp [hd]))
  ops u op hop := by
    by_cases hu : u = t
    · subst hu
      simp only [update_self] at hop
      exact ho op hop
    · simp only [update_of_ne hu] at hop
      exact h.ops u op hop

theorem Traced.ops_snoc (h : Traced k s) {op' : Op α} {e : Event Tid α}
    (hstore : ∀ u pos v w x, u ≠ t → s.ops u = some (.enqueueStore v pos) → e ≠ .store x pos w)
    (htake : ∀ u pos x w, u ≠ t → s.ops u = some (.dequeueTake pos) → e ≠ .take w pos x)
    (hnew : OpTraced (2 ^ k) (s.hist ++ [e]) t op') (u : Tid) (op : Op α)
    (hop : update s.ops t (some op') u = some op) : OpTraced (2 ^ k) (s.hist ++ [e]) u op := by
  by_cases hu : u = t
  · subst hu
    simp only [update_self, Option.some.injEq] at hop
    exact hop ▸ hnew
  · simp only [update_of_ne hu] at hop
    exact (h.ops u op hop).mono
      (fun pos x w v ho ↦ hstore u pos v w x hu (ho ▸ hop))
      (fun pos w x ho ↦ htake u pos x w hu (ho ▸ hop))

theorem Traced.enqueueClaim (h : Traced k s) (hi : Inv k s) (hk : 1 ≤ k) {value : α} {pos : ℕ}
    (hop : s.ops t = some (.enqueueCas value pos)) (hpos : s.queue.enqueue_pos_ = pos) :
    Traced k ⟨q, update s.ops t (some (.enqueueStore value pos)),
      s.hist ++ [.enqueueClaim t pos value]⟩ := by
  have hn : pos = s.put.length := hpos.symm.trans hi.enqueue_pos
  subst hn
  obtain ⟨hlt, -, hdrain⟩ := hi.free_at_enqueue hk (hi.ops t _ hop).2
  constructor
  case lawful => exact h.lawful.snoc (by simp [Justified, h.producers])
  case producers =>
    simp [put_snoc, Event.enqueued, List.filterMap_append, h.producers, claimedPosition,
      List.range_succ]
  case consumers => simp [got_snoc, Event.dequeued, List.filterMap_append, h.consumers]
  case value =>
    intro u p v hmem
    simp only [put_snoc, Event.enqueued, Option.toList_some]
    rcases List.mem_append.mp hmem with hmem | hmem
    · have hget := h.value u p v hmem
      obtain ⟨hp, -⟩ := List.getElem?_eq_some_iff.mp hget
      rw [List.getElem?_append_left hp]
      exact hget
    · cases List.mem_singleton.mp hmem
      simp
  case published =>
    intro p hp
    simp only [put_snoc, Event.enqueued, Option.toList_some, List.length_append,
      List.length_singleton] at hp
    by_cases hlast : p = s.put.length
    · exact .inl ⟨t, by simp [filling_update, hlast, Op.filling]⟩
    · refine (h.published p (by omega)).imp (keep_filling (by simp [hop, Op.filling])) ?_
      rintro ⟨u, hu⟩
      exact ⟨u, List.mem_append_left _ hu⟩
  case taken =>
    intro p hp
    simp only [got_snoc, Event.dequeued] at hp
    refine (h.taken p hp).imp (keep_take (by simp [hop])) ?_
    rintro ⟨u, x, hx⟩
    exact ⟨u, x, List.mem_append_left _ hx⟩
  case released =>
    intro p hp
    simp only [got_snoc, Event.dequeued] at hp
    refine (h.released p hp).imp (keep_draining (by simp [hop, Op.draining])) ?_
    rintro ⟨u, x, hx⟩
    exact ⟨u, x, List.mem_append_left _ hx⟩
  case ops =>
    refine h.ops_snoc (by simp) (by simp) ⟨by simp, fun hc ↦ ?_, fun u w hmem ↦ ?_⟩
    · rcases h.taken (s.put.length - 2 ^ k) (by omega) with ⟨u, hu⟩ | ⟨u, x, hx⟩
      · exact absurd ((draining_of_op hu).mpr rfl) (hdrain u hc)
      · exact ⟨u, x, List.mem_append_left _ hx⟩
    · rcases List.mem_append.mp hmem with hmem | hmem
      · have hget := h.store_value hmem
        simp at hget
      · simp at hmem

theorem Traced.dequeueClaim (h : Traced k s) (hi : Inv k s) {pos : ℕ}
    (hop : s.ops t = some (.dequeueCas pos)) (hpos : s.queue.dequeue_pos_ = pos) :
    Traced k ⟨q, update s.ops t (some (.dequeueTake pos)), s.hist ++ [.dequeueClaim t pos]⟩ := by
  have hn : pos = s.got := hpos.symm.trans hi.dequeue_pos
  subst hn
  obtain ⟨hlt, -, -, hfill⟩ := hi.published_at_dequeue (hi.ops t _ hop).2
  constructor
  case lawful =>
    refine h.lawful.snoc ⟨by simp [h.consumers], ?_⟩
    rcases h.published s.got hlt with ⟨u, hu⟩ | hu
    · exact absurd hu (hfill u)
    · exact hu
  case producers =>
    simp [put_snoc, Event.enqueued, List.filterMap_append, h.producers, claimedPosition]
  case consumers =>
    simp [got_snoc, Event.dequeued, List.filterMap_append, h.consumers, List.range_succ]
  case value =>
    intro u p v hmem
    simp only [put_snoc, Event.enqueued, Option.toList_none, List.append_nil]
    exact h.value u p v (by simpa using hmem)
  case published =>
    intro p hp
    simp only [put_snoc, Event.enqueued, Option.toList_none, List.append_nil] at hp
    refine (h.published p hp).imp (keep_filling (by simp [hop, Op.filling])) ?_
    rintro ⟨u, hu⟩
    exact ⟨u, List.mem_append_left _ hu⟩
  case taken =>
    intro p hp
    simp only [got_snoc, Event.dequeued, Option.toList_some, List.length_singleton] at hp
    by_cases hlast : p = s.got
    · exact .inl ⟨t, by simp [hlast]⟩
    · refine (h.taken p (by omega)).imp (keep_take (by simp [hop])) ?_
      rintro ⟨u, x, hx⟩
      exact ⟨u, x, List.mem_append_left _ hx⟩
  case released =>
    intro p hp
    simp only [got_snoc, Event.dequeued, Option.toList_some, List.length_singleton] at hp
    by_cases hlast : p = s.got
    · exact .inl ⟨t, by simp [draining_update, hlast, Op.draining]⟩
    · refine (h.released p (by omega)).imp (keep_draining (by simp [hop, Op.draining])) ?_
      rintro ⟨u, x, hx⟩
      exact ⟨u, x, List.mem_append_left _ hx⟩
  case ops =>
    refine h.ops_snoc (by simp) (by simp) ⟨by simp, fun u x hmem ↦ ?_⟩
    rcases List.mem_append.mp hmem with hmem | hmem
    · exact absurd (h.take_lt hmem) (Nat.lt_irrefl _)
    · simp at hmem

theorem Traced.event (h : Traced k s) {op' : Op α} {e : Event Tid α}
    (he : e.enqueued = none ∧ e.dequeued = none ∧ claimedPosition e = none)
    (hj : Justified (2 ^ k) s.hist e)
    (hf : ∀ p, (s.ops t).bind Op.filling = some p →
      op'.filling = some p ∨ ∃ u, e = .publish u p)
    (hd : ∀ p, (s.ops t).bind Op.draining = some p →
      op'.draining = some p ∨ ∃ u x, e = .release u p x)
    (ht : ∀ p, s.ops t = some (.dequeueTake p) → ∃ u x, e = .take u p x)
    (hstore : ∀ u pos v w x, u ≠ t → s.ops u = some (.enqueueStore v pos) → e ≠ .store x pos w)
    (htake : ∀ u pos x w, u ≠ t → s.ops u = some (.dequeueTake pos) → e ≠ .take w pos x)
    (hnew : OpTraced (2 ^ k) (s.hist ++ [e]) t op') :
    Traced k ⟨q, update s.ops t (some op'), s.hist ++ [e]⟩ := by
  obtain ⟨hput, hgot, hclaim⟩ := he
  have hp : Sys.put ⟨q, update s.ops t (some op'), s.hist ++ [e]⟩ = s.put := by
    simp [put_snoc, hput]
  have hg : Sys.got ⟨q, update s.ops t (some op'), s.hist ++ [e]⟩ = s.got := by
    simp [got_snoc, hgot]
  constructor
  case lawful => exact h.lawful.snoc hj
  case ops => exact h.ops_snoc hstore htake hnew
  all_goals simp only [hp, hg]
  case producers => simp [List.filterMap_append, hclaim, h.producers]
  case consumers => simp [List.filterMap_append, hgot, h.consumers]
  case value =>
    intro u p v hmem
    rcases List.mem_append.mp hmem with hmem | hmem
    · exact h.value u p v hmem
    · cases List.mem_singleton.mp hmem
      simp [Event.enqueued] at hput
  case published =>
    intro p hlt
    rcases h.published p hlt with hu | ⟨u, hu⟩
    · by_cases hop : (s.ops t).bind Op.filling = some p
      · rcases hf p hop with hn | ⟨u, rfl⟩
        · exact .inl ⟨t, by simp [filling_update, hn]⟩
        · exact .inr ⟨u, by simp⟩
      · exact .inl (keep_filling hop hu)
    · exact .inr ⟨u, List.mem_append_left _ hu⟩
  case taken =>
    intro p hlt
    rcases h.taken p hlt with hu | ⟨u, x, hx⟩
    · by_cases hop : s.ops t = some (.dequeueTake p)
      · obtain ⟨u, x, rfl⟩ := ht p hop
        exact .inr ⟨u, x, by simp⟩
      · exact .inl (keep_take hop hu)
    · exact .inr ⟨u, x, List.mem_append_left _ hx⟩
  case released =>
    intro p hlt
    rcases h.released p hlt with hu | ⟨u, x, hx⟩
    · by_cases hop : (s.ops t).bind Op.draining = some p
      · rcases hd p hop with hn | ⟨u, x, rfl⟩
        · exact .inl ⟨t, by simp [draining_update, hn]⟩
        · exact .inr ⟨u, x, by simp⟩
      · exact .inl (keep_draining hop hu)
    · exact .inr ⟨u, x, List.mem_append_left _ hx⟩

theorem Traced.access (h : Traced k s) (hi : Inv k s) (hk : 1 ≤ k) {s' : Sys Tid α}
    {spurious : Bool} (hs : s.access t spurious = some s') : Traced k s' := by
  obtain ⟨op, q, op', hop, hstep, rfl⟩ := access_cases hs
  have hok := h.ops t op hop
  have hquiet : op.event t op' = [] → op.filling = none → op.draining = none →
      OpTraced (2 ^ k) s.hist t op' →
      Traced k ⟨q, update s.ops t (some op'), s.hist ++ op.event t op'⟩ := by
    intro hev hf hd ho
    rw [hev, List.append_nil]
    exact h.quiet (by simp [hop, hf]) (by simp [hop, hd]) fun o' ho' ↦ by cases ho'; exact ho
  cases op with
  | enqueueLoad value => cases hstep; exact hquiet rfl rfl rfl trivial
  | enqueueSeq value pos =>
    simp only [Op.step] at hstep
    split at hstep
    · cases hstep; exact hquiet rfl rfl rfl trivial
    · split at hstep <;> cases hstep <;> exact hquiet rfl rfl rfl trivial
  | enqueueCas value pos =>
    simp only [Op.step] at hstep
    split at hstep
    · rename_i hcas
      cases hstep
      exact h.enqueueClaim hi hk hop hcas.1
    · cases hstep; exact hquiet rfl rfl rfl trivial
  | enqueueStore value pos =>
    cases hstep
    refine h.event ⟨rfl, rfl, rfl⟩ hok (by simp [hop, Op.filling]) (by simp [hop, Op.draining])
      (by simp [hop]) ?_ (by simp) ⟨value, by simp⟩
    intro u pos' v w x hut hu heq
    cases heq
    exact hut (hi.filling_unique u t pos ((filling_of_op hu).mpr rfl) ((filling_of_op hop).mpr rfl))
  | enqueuePublish pos =>
    cases hstep
    exact h.event ⟨rfl, rfl, rfl⟩ hok (by simp [hop, Op.filling]) (by simp [hop, Op.draining])
      (by simp [hop]) (by simp) (by simp) trivial
  | dequeueLoad => cases hstep; exact hquiet rfl rfl rfl trivial
  | dequeueSeq pos =>
    simp only [Op.step] at hstep
    split at hstep
    · cases hstep; exact hquiet rfl rfl rfl trivial
    · split at hstep <;> cases hstep <;> exact hquiet rfl rfl rfl trivial
  | dequeueCas pos =>
    simp only [Op.step] at hstep
    split at hstep
    · rename_i hcas
      cases hstep
      exact h.dequeueClaim hi hop hcas.1
    · cases hstep; exact hquiet rfl rfl rfl trivial
  | dequeueTake pos =>
    cases hstep
    refine h.event ⟨rfl, rfl, rfl⟩ (h.take_justified hi hop) (by simp [hop, Op.filling])
      (by simp [hop, Op.draining]) (by simp [hop]) (by simp) ?_ (by simp [OpTraced])
    intro u pos' x w hut hu heq
    cases heq
    exact hut (hi.draining_unique u t pos ((draining_of_op hu).mpr rfl)
      ((draining_of_op hop).mpr rfl))
  | dequeueRelease pos value =>
    cases hstep
    exact h.event ⟨rfl, rfl, rfl⟩ hok (by simp [hop, Op.filling]) (by simp [hop, Op.draining])
      (by simp [hop]) (by simp) (by simp) ⟨pos, by simp⟩
  | enqueueDone ok => cases hstep
  | dequeueDone ok value => cases hstep

theorem Traced.step (h : Traced k s) (hi : Inv k s) (hk : 1 ≤ k) {s' : Sys Tid α}
    {a : SysAction Tid α} (hs : s.step a = some s') : Traced k s' := by
  cases a with
  | call t req =>
    obtain ⟨hop, rfl⟩ := call_cases hs
    exact h.event ⟨rfl, rfl, rfl⟩ trivial (by simp [hop]) (by simp [hop]) (by simp [hop])
      (by simp) (by simp) (by cases req <;> trivial)
  | access t spurious => exact h.access hi hk hs
  | ret t =>
    obtain ⟨op, hop, hdone, rfl⟩ := ret_cases hs
    refine h.quiet ?_ ?_ (by simp)
    · rw [hop]; cases op <;> simp_all [Op.isDone, Op.filling]
    · rw [hop]; cases op <;> simp_all [Op.isDone, Op.draining]

theorem traced_reachable (hk1 : 1 ≤ k) (hk : k ≤ 62)
    (hs : (LockFreeQueue.machine Tid α (2 ^ k)).Reachable s) (hB : s.put.length < 2 ^ 62) :
    Traced k s := by
  refine Machine.Reaches.invariant_below (fun s : Sys Tid α ↦ s.put.length) (2 ^ 62)
    (fun _ _ _ ht ↦ put_length_mono ht) ?_ ?_ hs hB
  · rintro s rfl
    exact ⟨by simp [Lawful, Sys.construct], rfl, rfl, by simp [Sys.construct],
      by simp [Sys.construct, Sys.put], by simp [Sys.construct, Sys.got],
      by simp [Sys.construct, Sys.got], by simp [Sys.construct]⟩
  · intro s a t hr h _ ht hb
    exact h.step (inv_reachable hk1 hk hr (lt_of_le_of_lt (put_length_mono ht) hb)) hk1 ht

/-- Each call claims at most one position, so a thread that still may claim
one has made one call more than it has claims. -/
def CallsCounted (s : Sys Tid α) : Prop :=
  ∀ t, (s.hist.filterMap claimer).count t + (if (s.ops t).any unclaimed then 1 else 0) ≤
    (s.hist.filterMap caller).count t

theorem callsCounted_step {s' : Sys Tid α} {a : SysAction Tid α} (h : CallsCounted s)
    (hs : s.step a = some s') : CallsCounted s' := by
  intro u
  have hu := h u
  cases a with
  | call t req =>
    obtain ⟨hop, rfl⟩ := call_cases hs
    have hclaim : claimer (.call t req : Event Tid α) = none := rfl
    have hcall : caller (.call t req : Event Tid α) = some t := rfl
    simp only [List.filterMap_append, List.filterMap_cons, hclaim, hcall, List.filterMap_nil,
      List.append_nil, List.count_append, List.count_singleton]
    by_cases hut : u = t
    · subst hut
      simp only [hop, Option.any_none, Bool.false_eq_true, if_false] at hu
      simp only [update_self, beq_self_eq_true, if_true]
      split <;> omega
    · simp only [update_of_ne hut]
      omega
  | access t spurious =>
    obtain ⟨op, q, op', hop, hstep, rfl⟩ := access_cases hs
    simp only [List.filterMap_append, List.count_append, caller_event]
    by_cases hut : u = t
    · subst hut
      simp only [hop, Option.any_some] at hu
      simp only [update_self, Option.any_some]
      rcases claimer_event (t := u) hstep with ⟨hev, hle⟩ | ⟨hev, hop, hop'⟩
      · rw [hev]
        by_cases hop' : unclaimed op' = true
        · simpa [hop', hle hop'] using hu
        · simp only [hop', Bool.false_eq_true, if_false, List.count_nil, Nat.add_zero]
          omega
      · simpa [hev, hop, hop'] using hu
    · simp only [update_of_ne hut]
      rcases claimer_event (t := t) hstep with ⟨hev, -⟩ | ⟨hev, -⟩
      · simpa [hev] using hu
      · simpa [hev, List.count_singleton, Ne.symm hut] using hu
  | ret t =>
    obtain ⟨op, hop, hdone, rfl⟩ := ret_cases hs
    by_cases hut : u = t
    · subst hut
      simp only [update_self, Option.any_none, Bool.false_eq_true, if_false]
      omega
    · simpa only [update_of_ne hut] using hu

theorem put_le_operations {capacity : ℕ}
    (hs : (LockFreeQueue.machine Tid α capacity).Reachable s) :
    s.put.length ≤ operations s := by
  have hc : CallsCounted s := by
    refine hs.invariant (P := CallsCounted) ?_ fun s a t _ h _ ht ↦ callsCounted_step h ht
    rintro s rfl u
    simp [Sys.construct]
  have hlen : s.put.length = (s.hist.filterMap claimer).length := by
    unfold Sys.put
    generalize s.hist = hist
    induction hist with
    | nil => rfl
    | cons e hist ih => cases e <;> simp [List.filterMap_cons, Event.enqueued, claimer, ih]
  rw [hlen]
  refine List.Subperm.length_le (List.subperm_ext_iff.mpr fun u _ ↦ ?_)
  exact (Nat.le_add_right _ _).trans (hc u)

structure QueueSafe (c : ℕ) (s : Sys Tid α) : Prop where
  /-- Producers claim the positions in order and each position once. -/
  producers : s.hist.filterMap claimedPosition = List.range s.put.length
  /-- Consumers claim the positions in order and each position once. -/
  consumers : s.hist.filterMap Event.dequeued = List.range s.got
  behind : s.got ≤ s.put.length
  /-- A successful `try_dequeue` at a position returns what was put there. -/
  value : ∀ t p x, .release t p x ∈ s.hist → ∃ u v, x = some v ∧ .enqueueClaim u p v ∈ s.hist
  result : ∀ t x, s.ops t = some (.dequeueDone true x) → ∃ p, .release t p x ∈ s.hist
  /-- Nothing is lost: what no consumer has claimed is on its way or in its cell. -/
  kept : ∀ p, s.got ≤ p → p < s.put.length →
    (∃ t, s.Filling t p) ∨ (s.queue.cell p).data = s.put[p]?
  /-- Every position a consumer has claimed is returned, or its call goes on. -/
  returned : ∀ p < s.got, (∃ t, s.Draining t p) ∨ ∃ t x, .release t p x ∈ s.hist
  /-- Writes come before reads and reads before the overwriting of the next lap. -/
  lawful : Lawful c s.hist

theorem queue_safe (hk1 : 1 ≤ k) (hk : k ≤ 62)
    (hs : (LockFreeQueue.machine Tid α (2 ^ k)).Reachable s) (hops : operations s < 2 ^ 62) :
    QueueSafe (2 ^ k) s := by
  have hB := lt_of_le_of_lt (put_le_operations hs) hops
  have hi := inv_reachable hk1 hk hs hB
  have h := traced_reachable hk1 hk hs hB
  refine ⟨h.producers, h.consumers, hi.got_le, fun t p x ↦ h.release_value, fun t x hop ↦ ?_,
    fun p hp hpn ↦ ?_, h.released, h.lawful⟩
  · exact h.ops t _ hop
  · exact (hi.published p hp hpn).imp_right And.right

def handover : List (SysAction Bool ℕ) :=
  [.call true .tryDequeue, .access true false, .call false (.tryEnqueue 7)] ++
    List.replicate 5 (.access false false) ++ List.replicate 4 (.access true false)

theorem queue_safe_handover : ∃ s,
    (LockFreeQueue.machine Bool ℕ (2 ^ 1)).run (.construct (2 ^ 1)) handover = some s ∧
      s.ops true = some (.dequeueDone true (some 7)) ∧ QueueSafe (2 ^ 1) s :=
  ⟨_, rfl, rfl, queue_safe (by decide) (by decide)
    (Machine.Reaches.of_run rfl handover rfl) (by decide)⟩

end LivioArk.Msgbus.QueueSafety
