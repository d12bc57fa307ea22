import LivioArk.Msgbus.QueueInvariant

namespace LivioArk.Msgbus.FailedAccess

open Function LockFreeQueue QueueInvariant

variable {Tid α : Type} {k : ℕ} {s : Sys Tid α} {t : Tid}

/-- A position that has been claimed is still being filled, or its cell has
moved on for good. -/
theorem claimed_sequence (h : Inv k s) {p : ℕ} (hp : p < s.put.length) :
    (∃ u, s.Filling u p ∧ (s.queue.cell p).sequence = p) ∨ p + 1 ≤ (s.queue.cell p).sequence := by
  by_cases hgot : s.got ≤ p
  · rcases h.published p hgot hp with ⟨u, hu⟩ | ⟨hs, -⟩
    · exact .inl ⟨u, hu, (h.filling u p hu).2.2⟩
    · exact .inr hs.ge
  · right
    -- The cell of `p` is that of a later position of the current lap.
    obtain ⟨p', hlo, hhi, hmod⟩ := exists_lap_position s.got p (Nat.two_pow_pos k)
    have hcell : s.queue.cell p = s.queue.cell p' := by
      simp only [Queue.cell, index_eq h.mask, hmod]
    have hlap : p + 2 ^ k ≤ p' := by
      by_contra hlt
      exact mod_ne_of_window (c := 2 ^ k) (p := p') (q := p) (by omega) (by omega) (by omega) hmod
    have hpos := Nat.two_pow_pos k
    rw [hcell]
    by_cases hput : p' < s.put.length
    · rcases h.published p' hlo hput with ⟨u, hu⟩ | ⟨hs, -⟩
      · have := (h.filling u p' hu).2.2
        omega
      · omega
    · rcases h.free p' (by omega) hhi with ⟨u, hge, hu⟩ | hs
      · have := (h.draining u _ hu).2.2
        rw [h.cell_eq_of_lap hge]
        omega
      · omega

/-- `try_enqueue` gives up only on a full ring, or on a cell that a consumer
has claimed and not yet released. -/
theorem enqueue_fails (h : Inv k s) (hk : k ≤ 62) (hB : s.put.length < 2 ^ 62) {value : α}
    {pos : ℕ} (hop : s.ops t = some (.enqueueSeq value pos)) {spurious : Bool} {q : Queue α}
    (hstep : Op.step s.queue spurious (.enqueueSeq value pos) = some (q, .enqueueDone false)) :
    pos = s.put.length ∧
      (s.put.length = s.got + 2 ^ k ∨ ∃ u, 2 ^ k ≤ pos ∧ s.Draining u (pos - 2 ^ k)) := by
  have hpos : pos ≤ s.put.length := h.ops t _ hop
  have hlt : (s.queue.cell pos).sequence < pos := by
    simp only [Op.step, h.diff_eq hk hB pos (Nat.le_succ_of_le hpos)] at hstep
    split at hstep
    · cases hstep
    · split at hstep
      · omega
      · cases hstep
  have hlast : pos = s.put.length := by
    by_contra hne
    rcases claimed_sequence h (p := pos) (by omega) with ⟨u, -, hs⟩ | hs <;> omega
  refine ⟨hlast, ?_⟩
  by_cases hfull : s.put.length = s.got + 2 ^ k
  · exact .inl hfull
  · have hroom := h.room
    rcases h.free pos hlast.ge (by omega) with ⟨u, hge, hu⟩ | hs
    · exact .inr ⟨u, hge, hu⟩
    · omega

/-- `try_dequeue` gives up only on an empty ring, or on a cell that a producer
has claimed and not yet published. -/
theorem dequeue_fails (h : Inv k s) (hk : k ≤ 62) (hB : s.put.length < 2 ^ 62) {pos : ℕ}
    (hop : s.ops t = some (.dequeueSeq pos)) {spurious : Bool} {q : Queue α}
    (hstep : Op.step s.queue spurious (.dequeueSeq pos) = some (q, .dequeueDone false none)) :
    (∃ u, s.Filling u pos) ∨ s.put.length ≤ s.got := by
  have hpos : pos ≤ s.got := h.ops t _ hop
  have hle := h.got_le
  have hlt : (s.queue.cell pos).sequence < pos + 1 := by
    have hmod : (pos + 1) % 2 ^ 64 = pos + 1 := Nat.mod_eq_of_lt (by omega)
    simp only [Op.step, hmod, h.diff_eq hk hB pos (x := pos + 1) (by omega)] at hstep
    split at hstep
    · cases hstep
    · split at hstep
      · push_cast at *
        omega
      · cases hstep
  by_cases hput : pos < s.put.length
  · rcases claimed_sequence h hput with ⟨u, hu, -⟩ | hs
    · exact .inl ⟨u, hu⟩
    · omega
  · exact .inr (by omega)

end LivioArk.Msgbus.FailedAccess
