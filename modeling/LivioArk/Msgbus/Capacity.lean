import LivioArk.Msgbus.LockFreeQueue

namespace LivioArk.Msgbus.Capacity

open LockFreeQueue

variable {α : Type}

/-- Each bit of `v` stands for the next `c` bits of `n`. -/
def Covers (n c v : ℕ) : Prop := ∀ i, v.testBit i = true ↔ ∃ j < c, n.testBit (i + j) = true

theorem covers_one (n : ℕ) : Covers n 1 n := by
  intro i
  constructor
  · exact fun h ↦ ⟨0, by decide, h⟩
  · rintro ⟨j, hj, h⟩
    obtain rfl : j = 0 := by omega
    exact h

/-- One line of the cascade doubles what a bit stands for. -/
theorem Covers.orShift {n c v : ℕ} (h : Covers n c v) : Covers n (2 * c) (orShift c v) := by
  intro i
  rw [LockFreeQueue.orShift, Nat.testBit_or, Nat.testBit_shiftRight, Bool.or_eq_true, h, h]
  constructor
  · rintro (⟨j, hj, hb⟩ | ⟨j, hj, hb⟩)
    · exact ⟨j, by omega, hb⟩
    · exact ⟨c + j, by omega, by rwa [show i + (c + j) = c + i + j by omega]⟩
  · rintro ⟨j, hj, hb⟩
    by_cases hjc : j < c
    · exact .inl ⟨j, hjc, hb⟩
    · exact .inr ⟨j - c, by omega, by rwa [show c + i + (j - c) = i + j by omega]⟩

theorem covers_fillBelow (n : ℕ) : Covers n 64 (fillBelow n) :=
  (covers_one n).orShift.orShift.orShift.orShift.orShift.orShift

/-- The cascade sets every bit below the highest one. -/
theorem fillBelow_eq {n : ℕ} (hn : n ≠ 0) (hlt : n < 2 ^ 64) :
    fillBelow n = 2 ^ (n.log2 + 1) - 1 := by
  refine Nat.eq_of_testBit_eq fun i ↦ ?_
  rw [Nat.testBit_two_pow_sub_one, Bool.eq_iff_iff, covers_fillBelow, decide_eq_true_eq]
  have hlog : n.log2 < 64 := (Nat.log2_lt hn).mpr hlt
  constructor
  · rintro ⟨j, -, hb⟩
    have hle := (Nat.le_log2 hn).mpr (Nat.ge_two_pow_of_testBit hb)
    omega
  · intro hi
    refine ⟨n.log2 - i, by omega, ?_⟩
    rw [show i + (n.log2 - i) = n.log2 by omega]
    exact Nat.testBit_log2 hn

def exponent (capacity : ℕ) : ℕ := (max 2 capacity - 1).log2 + 1

theorem exponent_bounds (capacity : ℕ) :
    max 2 capacity ≤ 2 ^ exponent capacity ∧
      ∀ j, max 2 capacity ≤ 2 ^ j → exponent capacity ≤ j := by
  have hn : max 2 capacity - 1 ≠ 0 := by omega
  constructor
  · have hupper : max 2 capacity - 1 < 2 ^ exponent capacity := Nat.lt_log2_self
    omega
  · intro j hj
    have hlog : (max 2 capacity - 1).log2 < j := (Nat.log2_lt hn).mpr (by omega)
    exact hlog

theorem exponent_le {capacity k : ℕ} (hk : 1 ≤ k) (h : capacity ≤ 2 ^ k) :
    exponent capacity ≤ k := by
  have hpow : 2 ^ 1 ≤ 2 ^ k := Nat.pow_le_pow_right (by decide) hk
  apply (exponent_bounds capacity).2
  omega

/-- The increment after the cascade reaches the power of two, or wraps to 0. -/
theorem storedCapacity_two_pow {capacity : ℕ} (h : capacity < 2 ^ 64) :
    storedCapacity capacity = if exponent capacity < 64 then 2 ^ exponent capacity else 2 := by
  have hv : (if capacity < 2 then 2 else capacity) = max 2 capacity := by
    split <;> omega
  have hn : max 2 capacity - 1 ≠ 0 := by omega
  have hpre : (max 2 capacity + (2 ^ 64 - 1)) % 2 ^ 64 = max 2 capacity - 1 := by omega
  have hle : exponent capacity ≤ 64 := exponent_le (by decide) (Nat.le_of_lt h)
  have hge : 2 ^ 1 ≤ 2 ^ exponent capacity := Nat.pow_le_pow_right (by decide) (Nat.le_add_left _ _)
  have hfill : fillBelow (max 2 capacity - 1) = 2 ^ exponent capacity - 1 :=
    fillBelow_eq hn (by omega)
  rw [storedCapacity, hv, roundUpPowerOf2, hpre, hfill, Nat.sub_add_cancel (by omega)]
  by_cases hlt : exponent capacity < 64
  · have hpow : 2 ^ exponent capacity < 2 ^ 64 := Nat.pow_lt_pow_right (by decide) hlt
    rw [if_pos hlt, Nat.mod_eq_of_lt hpow]
    exact if_neg (by omega)
  · have heq : exponent capacity = 64 := by omega
    rw [heq, Nat.mod_self]
    rfl

theorem no_power {capacity : ℕ} (h : 2 ^ 63 < capacity) : ¬ ∃ k < 64, capacity ≤ 2 ^ k := by
  intro hk
  obtain ⟨k, hk, hle⟩ := hk
  have hpow : 2 ^ k ≤ 2 ^ 63 := Nat.pow_le_pow_right (by decide) (by omega)
  omega

/-- Larger requests than `2 ^ 63` wrap around. -/
theorem storedCapacity_wrap {capacity : ℕ} (hgt : 2 ^ 63 < capacity) (h : capacity < 2 ^ 64) :
    storedCapacity capacity = 2 := by
  have hexp : ¬ exponent capacity < 64 := by
    intro hlt
    have hbounds := exponent_bounds capacity
    exact no_power hgt ⟨_, hlt, by omega⟩
  rw [storedCapacity_two_pow h, if_neg hexp]

theorem storedCapacity_eq {capacity : ℕ} (h : capacity ≤ 2 ^ 62) :
    ∃ k, 1 ≤ k ∧ k ≤ 62 ∧ storedCapacity capacity = 2 ^ k ∧ capacity ≤ 2 ^ k := by
  have hle : exponent capacity ≤ 62 := exponent_le (by decide) h
  have hmax := (exponent_bounds capacity).1
  refine ⟨exponent capacity, Nat.le_add_left _ _, hle, ?_, by omega⟩
  rw [storedCapacity_two_pow (by omega), if_pos (by omega)]

/-- The ring has the least power of two that is enough as its capacity, and its
mask takes positions modulo it. A request that no power of two of 64 bits is
enough for is not served with less. -/
structure RoundedUp (capacity : ℕ) (ring : Queue α) : Prop where
  least : (∃ k < 64, capacity ≤ 2 ^ k) → ∃ k, ring.capacity_ = 2 ^ k ∧ max 2 capacity ≤ 2 ^ k ∧
    ∀ j, max 2 capacity ≤ 2 ^ j → 2 ^ k ≤ 2 ^ j
  masked : (∃ k < 64, capacity ≤ 2 ^ k) → ∀ pos < 2 ^ 64, pos &&& ring.mask_ = pos % ring.capacity_
  served : (¬ ∃ k < 64, capacity ≤ 2 ^ k) → capacity ≤ ring.capacity_

/-- The rounding is right exactly for the requests up to `2 ^ 63`. The larger
ones wrap around and get a ring of two cells. -/
theorem rounded_up_iff (α : Type) {capacity : ℕ} (h : capacity < 2 ^ 64) :
    RoundedUp capacity (Queue.construct (α := α) (storedCapacity capacity)) ↔
      capacity ≤ 2 ^ 63 := by
  have hbounds := exponent_bounds capacity
  constructor
  · intro hround
    by_contra hle
    have hgt : 2 ^ 63 < capacity := by omega
    have hserved := hround.served (no_power hgt)
    simp only [Queue.construct, storedCapacity_wrap hgt h] at hserved
    omega
  · intro hle
    have hexp : exponent capacity < 64 := by
      have hexp := exponent_le (by decide) hle
      omega
    have hstored : storedCapacity capacity = 2 ^ exponent capacity := by
      rw [storedCapacity_two_pow h, if_pos hexp]
    refine ⟨?_, ?_, ?_⟩
    · intro _
      refine ⟨exponent capacity, hstored, hbounds.1, ?_⟩
      intro j hj
      exact Nat.pow_le_pow_right (by decide) (hbounds.2 j hj)
    · intro _ pos _
      simp only [Queue.construct, hstored]
      exact Nat.and_two_pow_sub_one_eq_mod pos (exponent capacity)
    · intro hnone
      exact absurd ⟨63, by decide, hle⟩ hnone

theorem rounded_up_five : 5 < 2 ^ 64 ∧ (RoundedUp 5 (Queue.construct (α := ℕ) (storedCapacity 5)) ↔
    5 ≤ 2 ^ 63) :=
  ⟨by decide, rounded_up_iff ℕ (by decide)⟩

theorem not_rounded_up_wrap :
    ¬ RoundedUp (2 ^ 63 + 1) (Queue.construct (α := ℕ) (storedCapacity (2 ^ 63 + 1))) := by
  intro hround
  have hgt : 2 ^ 63 < 2 ^ 63 + 1 := by decide
  have hserved := hround.served (no_power hgt)
  simp only [Queue.construct, storedCapacity_wrap hgt (by decide)] at hserved
  omega

end LivioArk.Msgbus.Capacity
