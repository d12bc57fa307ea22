import LivioArk.Library.Progress
import LivioArk.Msgbus.FailedAccess
import LivioArk.Msgbus.QueueSafety
import Mathlib.Algebra.BigOperators.Ring.List

namespace LivioArk.Msgbus.QueueProgress

open Function LivioArk.Library.Transition LockFreeQueue QueueInvariant QueueSafety FailedAccess

variable {Tid α : Type}

def left (q : Queue α) : Op α → ℕ
  | .enqueueLoad _ | .dequeueLoad => 5
  | .enqueueSeq _ pos => if pos = q.enqueue_pos_ then 4 else 6
  | .enqueueCas _ pos => if pos = q.enqueue_pos_ then 3 else 5
  | .dequeueSeq pos => if pos = q.dequeue_pos_ then 4 else 6
  | .dequeueCas pos => if pos = q.dequeue_pos_ then 3 else 5
  | .enqueueStore _ _ | .dequeueTake _ => 2
  | .enqueuePublish _ | .dequeueRelease _ _ => 1
  | .enqueueDone _ | .dequeueDone _ _ => 0

def leftOf (t : Tid) (s : Sys Tid α) : ℕ := ((s.ops t).map (left s.queue)).getD 0

def claimant : Event Tid α → Option Tid
  | .enqueueClaim t _ _ | .dequeueClaim t _ => some t
  | _ => none

def calls [DecidableEq Tid] (s : Sys Tid α) (t : Tid) : ℕ := (s.hist.filterMap caller).count t

def othersCalls [DecidableEq Tid] (s : Sys Tid α) (t : Tid) : ℕ :=
  (s.hist.filterMap caller).countP (· ≠ t)

def othersClaims [DecidableEq Tid] (s : Sys Tid α) (t : Tid) : ℕ :=
  (s.hist.filterMap claimant).countP (· ≠ t)

def accessOf [DecidableEq Tid] (t : Tid) : SysAction Tid α → ℕ
  | .access u _ => if u = t then 1 else 0
  | _ => 0

def spuriousOf [DecidableEq Tid] (t : Tid) : SysAction Tid α → ℕ
  | .access u spurious => if u = t ∧ spurious = true then 1 else 0
  | _ => 0

section Accesses

variable {k : ℕ} {s s' : Sys Tid α} {t : Tid}

/-- The cell at the position that is next is not ahead of it. -/
theorem next_sequence_le (h : Inv k s) (hk1 : 1 ≤ k) :
    (s.queue.cell s.put.length).sequence ≤ s.put.length := by
  by_contra hlt
  have hfree := h.free_at_enqueue hk1 (by omega)
  omega

theorem oldest_sequence_le (h : Inv k s) :
    (s.queue.cell s.got).sequence ≤ s.got + 1 := by
  by_contra hlt
  have hpublished := h.published_at_dequeue (by omega)
  omega

/-- An access brings a call forward, unless an exchange fails without a reason. -/
theorem left_step (h : Inv k s) (hk1 : 1 ≤ k) (hk : k ≤ 62) (hB : s.put.length < 2 ^ 62)
    {op op' : Op α} (hop : s.ops t = some op) {spurious : Bool} {q : Queue α}
    (hstep : op.step s.queue spurious = some (q, op')) :
    1 + left q op' ≤ left s.queue op + if spurious = true then 2 else 0 := by
  have hok := h.ops t op hop
  cases op with
  | enqueueLoad value =>
    cases hstep
    simp only [left, if_true]
    omega
  | enqueueSeq value pos =>
    have hpos : pos ≤ s.put.length := hok
    simp only [Op.step, h.diff_eq hk hB pos (Nat.le_succ_of_le hpos)] at hstep
    split at hstep
    · cases hstep
      simp only [left]
      split <;> omega
    · split at hstep
      · cases hstep
        simp only [left]
        split <;> omega
      · cases hstep
        -- only a position that has been claimed can be behind its cell
        have hne : pos ≠ s.queue.enqueue_pos_ := by
          intro he
          have hle := next_sequence_le h hk1
          rw [h.enqueue_pos] at he
          subst he
          omega
        simp only [left, hne, if_false]
        omega
  | enqueueCas value pos =>
    simp only [Op.step] at hstep
    split at hstep
    · rename_i hcas
      cases hstep
      simp only [left, hcas.1, if_true]
      omega
    · rename_i hcas
      cases hstep
      by_cases hpos : pos = s.queue.enqueue_pos_
      · have hspurious : spurious = true := by
          cases spurious with
          | true => rfl
          | false => exact absurd ⟨hpos.symm, rfl⟩ hcas
        simp only [left, hpos, hspurious, if_true]
        omega
      · simp only [left, hpos, if_true, if_false]
        omega
  | dequeueLoad =>
    cases hstep
    simp only [left, if_true]
    omega
  | dequeueSeq pos =>
    have hpos : pos ≤ s.got := hok
    have hle := h.got_le
    have hmod : (pos + 1) % 2 ^ 64 = pos + 1 := Nat.mod_eq_of_lt (by omega)
    simp only [Op.step, hmod, h.diff_eq hk hB pos (x := pos + 1) (by omega)] at hstep
    split at hstep
    · cases hstep
      simp only [left]
      split <;> omega
    · split at hstep
      · cases hstep
        simp only [left]
        split <;> omega
      · cases hstep
        have hne : pos ≠ s.queue.dequeue_pos_ := by
          intro he
          have hle := oldest_sequence_le h
          rw [h.dequeue_pos] at he
          subst he
          push_cast at *
          omega
        simp only [left, hne, if_false]
        omega
  | dequeueCas pos =>
    simp only [Op.step] at hstep
    split at hstep
    · rename_i hcas
      cases hstep
      simp only [left, hcas.1, if_true]
      omega
    · rename_i hcas
      cases hstep
      by_cases hpos : pos = s.queue.dequeue_pos_
      · have hspurious : spurious = true := by
          cases spurious with
          | true => rfl
          | false => exact absurd ⟨hpos.symm, rfl⟩ hcas
        simp only [left, hpos, hspurious, if_true]
        omega
      · simp only [left, hpos, if_true, if_false]
        omega
  | enqueueStore | enqueuePublish | dequeueTake | dequeueRelease =>
    cases hstep
    simp only [left]
    omega
  | enqueueDone | dequeueDone => cases hstep

end Accesses

section Ledger

variable {k : ℕ} {s s' : Sys Tid α} {t : Tid}

theorem left_le (q q' : Queue α) (op : Op α) : left q' op ≤ left q op + 2 := by
  cases op with
  | enqueueSeq | enqueueCas | dequeueSeq | dequeueCas =>
    simp only [left]
    split <;> split <;> omega
  | _ => exact Nat.le_add_right _ _

theorem leftOf_eq (t : Tid) (q : Queue α) (ops : Tid → Option (Op α)) (hist : List (Event Tid α)) :
    leftOf t ⟨q, ops, hist⟩ = ((ops t).map (left q)).getD 0 := rfl

theorem leftOf_some {op : Op α} (hop : s.ops t = some op) : leftOf t s = left s.queue op := by
  rw [leftOf, hop]
  rfl

theorem leftOf_le (s : Sys Tid α) (t : Tid) : leftOf t s ≤ 6 := by
  rw [leftOf]
  cases s.ops t with
  | none => exact Nat.zero_le _
  | some op =>
    rw [Option.map_some, Option.getD_some]
    cases op with
    | enqueueSeq | enqueueCas | dequeueSeq | dequeueCas =>
      simp only [left]
      split <;> omega
    | _ => simp [left]

def pending : Op α → Bool
  | .enqueueLoad _ | .enqueueSeq _ _ | .enqueueCas _ _ | .dequeueLoad | .dequeueSeq _
  | .dequeueCas _ => true
  | _ => false

theorem claimant_event (t : Tid) {op op' : Op α} {queue q : Queue α} {spurious : Bool}
    (h : op.step queue spurious = some (q, op')) :
    ((op.event t op').filterMap claimant = [] ∧ (pending op' = true → pending op = true)) ∨
      ((op.event t op').filterMap claimant = [t] ∧ pending op = true ∧ pending op' = false) := by
  cases op with
  | enqueueCas | dequeueCas =>
    simp only [Op.step] at h
    split at h
    · cases h
      exact .inr ⟨rfl, rfl, rfl⟩
    · cases h
      exact .inl ⟨rfl, fun _ ↦ rfl⟩
  | enqueueSeq | dequeueSeq =>
    simp only [Op.step] at h
    split at h
    · cases h
      exact .inl ⟨rfl, fun _ ↦ rfl⟩
    · split at h
      · cases h
        exact .inl ⟨rfl, fun _ ↦ rfl⟩
      · cases h
        exact .inl ⟨rfl, fun _ ↦ rfl⟩
  | enqueueLoad | dequeueLoad =>
    cases h
    exact .inl ⟨rfl, fun _ ↦ rfl⟩
  | enqueueStore | enqueuePublish | dequeueTake | dequeueRelease =>
    cases h
    exact .inl ⟨rfl, fun he ↦ by cases he⟩
  | enqueueDone | dequeueDone => cases h

/-- Only claims move the positions. -/
theorem left_other {op op' : Op α} {q : Queue α} {spurious : Bool} (u : Tid) (x : Op α)
    (hstep : op.step s.queue spurious = some (q, op')) :
    left q x ≤ left s.queue x + 2 * ((op.event u op').filterMap claimant).length := by
  have hsame : q.enqueue_pos_ = s.queue.enqueue_pos_ → q.dequeue_pos_ = s.queue.dequeue_pos_ →
      left q x ≤ left s.queue x + 2 * ((op.event u op').filterMap claimant).length := by
    intro henqueue hdequeue
    have hleft : left q x = left s.queue x := by
      cases x <;> simp only [left, henqueue, hdequeue]
    omega
  cases op with
  | enqueueCas | dequeueCas =>
    simp only [Op.step] at hstep
    split at hstep
    · cases hstep
      exact left_le s.queue _ x
    · cases hstep
      exact hsame rfl rfl
  | enqueueLoad | dequeueLoad | enqueueStore | enqueuePublish | dequeueTake | dequeueRelease =>
    cases hstep
    exact hsame rfl rfl
  | enqueueSeq | dequeueSeq =>
    simp only [Op.step] at hstep
    split at hstep
    · cases hstep
      exact hsame rfl rfl
    · split at hstep
      · cases hstep
        exact hsame rfl rfl
      · cases hstep
        exact hsame rfl rfl
  | enqueueDone | dequeueDone => cases hstep

variable [DecidableEq Tid]

/-- An access is paid for by the call that it belongs to, by an exchange that
failed without a reason, or by a claim of another thread. -/
theorem ledger_step (h : Inv k s) (hk1 : 1 ≤ k) (hk : k ≤ 62) (hB : s.put.length < 2 ^ 62)
    {a : SysAction Tid α} (hs : s.step a = some s') (t : Tid) :
    accessOf t a + leftOf t s' + (5 * calls s t + 2 * othersClaims s t) ≤
      leftOf t s + 2 * spuriousOf t a + (5 * calls s' t + 2 * othersClaims s' t) := by
  cases a with
  | call u req =>
    obtain ⟨hop, rfl⟩ := call_cases hs
    have hcall : caller (.call u req : Event Tid α) = some u := rfl
    have hclaim : claimant (.call u req : Event Tid α) = none := rfl
    simp only [accessOf, spuriousOf, calls, othersClaims, List.filterMap_append,
      List.filterMap_cons, hcall, hclaim, List.filterMap_nil, List.append_nil, List.count_append]
    by_cases hu : u = t
    · subst hu
      have hstart : leftOf u (⟨s.queue, update s.ops u (some req.start),
          s.hist ++ [.call u req]⟩ : Sys Tid α) = 5 := by
        rw [leftOf_eq, update_self]
        cases req <;> rfl
      rw [hstart, List.count_singleton_self]
      omega
    · have hsame : leftOf t (⟨s.queue, update s.ops u (some req.start),
          s.hist ++ [.call u req]⟩ : Sys Tid α) = leftOf t s := by
        rw [leftOf_eq, leftOf, update_of_ne fun he ↦ hu he.symm]
      rw [hsame]
      omega
  | access u spurious =>
    obtain ⟨op, q, op', hop, hstep, rfl⟩ := access_cases hs
    simp only [accessOf, spuriousOf, calls, othersClaims, List.filterMap_append, List.count_append,
      List.countP_append, caller_event, List.count_nil]
    by_cases hu : u = t
    · subst hu
      have hleft := left_step h hk1 hk hB hop hstep
      have hnew : leftOf u (⟨q, update s.ops u (some op'), s.hist ++ op.event u op'⟩ : Sys Tid α) =
          left q op' := leftOf_some (update_self ..)
      rw [hnew, leftOf_some hop]
      simp only [if_true, true_and]
      cases spurious with
      | true =>
        simp only [if_true] at hleft ⊢
        omega
      | false =>
        simp only [Bool.false_eq_true, if_false] at hleft ⊢
        omega
    · have hclaims : ((op.event u op').filterMap claimant).countP (· ≠ t) =
          ((op.event u op').filterMap claimant).length := by
        refine List.countP_eq_length.mpr fun x hx ↦ ?_
        cases claimant_event u hstep with
        | inl hnone =>
          rw [hnone.1] at hx
          cases hx
        | inr hone =>
          rw [hone.1] at hx
          obtain rfl := List.mem_singleton.mp hx
          simpa using hu
      have hmoved : leftOf t (⟨q, update s.ops u (some op'), s.hist ++ op.event u op'⟩ :
          Sys Tid α) ≤ leftOf t s + 2 * ((op.event u op').filterMap claimant).length := by
        rw [leftOf_eq, leftOf, update_of_ne fun he ↦ hu he.symm]
        cases s.ops t with
        | none => exact Nat.zero_le _
        | some x => exact left_other u x hstep
      simp only [hu, false_and, if_false, hclaims]
      omega
  | ret u =>
    obtain ⟨op, hop, hdone, rfl⟩ := ret_cases hs
    have hless : leftOf t (⟨s.queue, update s.ops u none, s.hist⟩ : Sys Tid α) ≤ leftOf t s := by
      rw [leftOf_eq, leftOf]
      by_cases hu : t = u
      · subst hu
        rw [update_self]
        exact Nat.zero_le _
      · rw [update_of_ne hu]
    simp only [accessOf, spuriousOf, calls, othersClaims]
    omega

end Ledger

section Claims

variable [DecidableEq Tid] {s s' : Sys Tid α} {t : Tid}

def ClaimsCounted (s : Sys Tid α) : Prop :=
  ∀ t, (s.hist.filterMap claimant).count t + (if (s.ops t).any pending then 1 else 0) ≤ calls s t

theorem claimsCounted_step {a : SysAction Tid α} (h : ClaimsCounted s)
    (hs : s.step a = some s') : ClaimsCounted s' := by
  intro u
  have hu := h u
  rw [calls] at hu ⊢
  cases a with
  | call t req =>
    obtain ⟨hop, rfl⟩ := call_cases hs
    have hclaim : claimant (.call t req : Event Tid α) = none := rfl
    have hcall : caller (.call t req : Event Tid α) = some t := rfl
    simp only [List.filterMap_append, List.filterMap_cons, hclaim, hcall, List.filterMap_nil,
      List.append_nil, List.count_append]
    by_cases hut : u = t
    · subst hut
      rw [hop] at hu
      simp only [Option.any_none, Bool.false_eq_true, if_false] at hu
      simp only [update_self, List.count_singleton_self]
      split <;> omega
    · simp only [update_of_ne hut]
      omega
  | access t spurious =>
    obtain ⟨op, q, op', hop, hstep, rfl⟩ := access_cases hs
    simp only [List.filterMap_append, List.count_append, caller_event, List.count_nil]
    by_cases hut : u = t
    · subst hut
      rw [hop] at hu
      simp only [Option.any_some] at hu
      simp only [update_self, Option.any_some]
      cases claimant_event u hstep with
      | inl hnone =>
        rw [hnone.1, List.count_nil]
        by_cases hpending : pending op' = true
        · simp only [hpending, hnone.2 hpending, if_true] at hu ⊢
          omega
        · simp only [hpending, Bool.false_eq_true, if_false]
          omega
      | inr hone =>
        obtain ⟨hevent, hbefore, hafter⟩ := hone
        rw [hevent, List.count_singleton_self]
        simp only [hbefore, hafter, if_true, Bool.false_eq_true, if_false] at hu ⊢
        omega
    · simp only [update_of_ne hut]
      cases claimant_event t hstep with
      | inl hnone =>
        rw [hnone.1, List.count_nil]
        omega
      | inr hone =>
        have hzero : [t].count u = 0 :=
          List.count_eq_zero.mpr fun hmem ↦ hut (List.mem_singleton.mp hmem)
        rw [hone.1, hzero]
        omega
  | ret t =>
    obtain ⟨op, hop, hdone, rfl⟩ := ret_cases hs
    by_cases hut : u = t
    · subst hut
      simp only [update_self, Option.any_none, Bool.false_eq_true, if_false]
      omega
    · simp only [update_of_ne hut]
      exact hu

theorem othersClaims_le {capacity : ℕ}
    (hs : (LockFreeQueue.machine Tid α capacity).Reachable s) (t : Tid) :
    othersClaims s t ≤ othersCalls s t := by
  have hcounted : ClaimsCounted s := by
    refine hs.invariant (P := ClaimsCounted) ?_ fun _ _ _ _ h _ hs ↦ claimsCounted_step h hs
    intro s hs u
    obtain rfl : s = .construct capacity := hs
    exact Nat.le_refl _
  have hsub : (s.hist.filterMap claimant).Subperm (s.hist.filterMap caller) :=
    List.subperm_ext_iff.mpr fun u _ ↦ (Nat.le_add_right _ _).trans (hcounted u)
  exact hsub.countP_le _

end Claims

section Alone

variable [DecidableEq Tid] {k : ℕ} {s s' : Sys Tid α} {t : Tid}

theorem access_enabled {op : Op α} (q : Queue α) (hop : op.isDone = false) (spurious : Bool) :
    ∃ r, op.step q spurious = some r := by
  cases op with
  | enqueueSeq | dequeueSeq =>
    simp only [Op.step]
    split
    · exact ⟨_, rfl⟩
    · split
      · exact ⟨_, rfl⟩
      · exact ⟨_, rfl⟩
  | enqueueCas | dequeueCas =>
    simp only [Op.step]
    split
    · exact ⟨_, rfl⟩
    · exact ⟨_, rfl⟩
  | enqueueDone | dequeueDone => cases hop
  | _ => exact ⟨_, rfl⟩

theorem finishes_alone (hk1 : 1 ≤ k) (hk : k ≤ 62)
    (hs : (LockFreeQueue.machine Tid α (2 ^ k)).Reachable s) (hops : operations s < 2 ^ 62)
    {op : Op α} (hop : s.ops t = some op) : ∃ bs g, (∀ b ∈ bs, b = SysAction.access t false) ∧
      bs.length ≤ 6 ∧ (LockFreeQueue.machine Tid α (2 ^ k)).run s bs = some g ∧
        ∃ op', g.ops t = some op' ∧ op'.isDone = true := by
  have hstep : ∀ s : Sys Tid α,
      ((LockFreeQueue.machine Tid α (2 ^ k)).Reachable s ∧ operations s < 2 ^ 62 ∧
        ∃ op, s.ops t = some op) → (¬ ∃ op', s.ops t = some op' ∧ op'.isDone = true) →
      ∃ a g, a = SysAction.access t false ∧
        (LockFreeQueue.machine Tid α (2 ^ k)).step s a = some g ∧
        ((LockFreeQueue.machine Tid α (2 ^ k)).Reachable g ∧ operations g < 2 ^ 62 ∧
          ∃ op, g.ops t = some op) ∧ leftOf t g < leftOf t s := by
    intro s ⟨hs, hops, op, hop⟩ hnot
    have hdone : op.isDone = false := by
      cases hdone : op.isDone with
      | false => rfl
      | true => exact absurd ⟨op, hop, hdone⟩ hnot
    obtain ⟨⟨q, op'⟩, hstep⟩ := access_enabled s.queue hdone false
    have hB := lt_of_le_of_lt (put_le_operations hs) hops
    have hleft := left_step (inv_reachable hk1 hk hs hB) hk1 hk hB hop hstep
    let g : Sys Tid α := ⟨q, update s.ops t (some op'), s.hist ++ op.event t op'⟩
    have hg : (LockFreeQueue.machine Tid α (2 ^ k)).step s (.access t false) = some g := by
      simp only [LockFreeQueue.machine, Sys.step, Sys.access, hop, hstep]
      rfl
    have hcalls : operations g = operations s := by
      simp only [operations, g, List.filterMap_append, caller_event, List.append_nil]
    refine ⟨_, g, rfl, hg, ⟨.next hs trivial hg, hcalls ▸ hops, op', update_self ..⟩, ?_⟩
    have hnew : leftOf t g = left q op' := leftOf_some (update_self ..)
    rw [hnew, leftOf_some hop]
    simp only [Bool.false_eq_true, if_false] at hleft
    omega
  obtain ⟨bs, g, hbs, hlength, hrun, -, hfinal⟩ := Machine.run_until _ _ hstep ⟨hs, hops, op, hop⟩
  have hle := leftOf_le s t
  exact ⟨bs, g, hbs, by omega, hrun, hfinal⟩

end Alone

/-- The loops of `try_enqueue` and `try_dequeue` do not starve: over a run a
thread makes five accesses for each of its calls, two more for each call of the
others and for each exchange that fails without a reason, and left alone it is
done after six. -/
theorem accesses_bounded [DecidableEq Tid] {k : ℕ} (hk1 : 1 ≤ k) (hk : k ≤ 62)
    {as : List (SysAction Tid α)} {s : Sys Tid α}
    (hrun : (LockFreeQueue.machine Tid α (2 ^ k)).run (.construct (2 ^ k)) as = some s)
    (hops : operations s < 2 ^ 62) (t : Tid) :
    (as.map (accessOf t)).sum ≤
        5 * calls s t + 2 * othersCalls s t + 2 * (as.map (spuriousOf t)).sum ∧
      ∀ op, s.ops t = some op → ∃ bs g, (∀ b ∈ bs, b = SysAction.access t false) ∧
        bs.length ≤ 6 ∧ (LockFreeQueue.machine Tid α (2 ^ k)).run s bs = some g ∧
          ∃ op', g.ops t = some op' ∧ op'.isDone = true := by
  have hs : (LockFreeQueue.machine Tid α (2 ^ k)).Reachable s := .of_run rfl as hrun
  refine ⟨?_, fun op hop ↦ finishes_alone hk1 hk hs hops hop⟩
  have hB := lt_of_le_of_lt (put_le_operations hs) hops
  have hledger := Machine.run_budget (M := LockFreeQueue.machine Tid α (2 ^ k)) (P := Inv k)
    (Q := fun s ↦ s.put.length < 2 ^ 62) (p := fun s ↦ 5 * calls s t + 2 * othersClaims s t)
    (fun _ _ _ hs hB ↦ (put_length_mono hs).trans_lt hB)
    (fun _ _ _ h hB hs ↦ ⟨h.step hk1 hk hs hB,
      ledger_step h hk1 hk ((put_length_mono hs).trans_lt hB) hs t⟩) (inv_construct k) hB as hrun
  have hothers := othersClaims_le hs t
  rw [List.sum_map_mul_left] at hledger
  have hstart : leftOf t (Sys.construct (2 ^ k) : Sys Tid α) = 0 := rfl
  omega

def contended : List (SysAction Bool ℕ) :=
  .call true (.tryEnqueue 1) :: List.replicate 2 (.access true false) ++
    .call false (.tryEnqueue 2) :: List.replicate 5 (.access false false) ++
      List.replicate 2 (.access true false)

theorem accesses_bounded_contended : ∃ s,
    (LockFreeQueue.machine Bool ℕ (2 ^ 1)).run (.construct (2 ^ 1)) contended = some s ∧
      s.ops true = some (.enqueueCas 1 1) ∧ (contended.map (accessOf true)).sum = 4 ∧
      (contended.map (accessOf true)).sum ≤
        5 * calls s true + 2 * othersCalls s true + 2 * (contended.map (spuriousOf true)).sum ∧
      ∃ bs g, (∀ b ∈ bs, b = SysAction.access true false) ∧ bs.length ≤ 6 ∧
        (LockFreeQueue.machine Bool ℕ (2 ^ 1)).run s bs = some g ∧
          ∃ op', g.ops true = some op' ∧ op'.isDone = true := by
  obtain ⟨s, hrun⟩ : ∃ s,
      (LockFreeQueue.machine Bool ℕ (2 ^ 1)).run (.construct (2 ^ 1)) contended = some s := ⟨_, rfl⟩
  obtain ⟨hbound, halone⟩ := accesses_bounded (by decide) (by decide) hrun
    (by cases hrun; decide) true
  have hop : s.ops true = some (.enqueueCas 1 1) := by
    cases hrun
    rfl
  exact ⟨s, hrun, hop, by decide, hbound, halone _ hop⟩

end LivioArk.Msgbus.QueueProgress
