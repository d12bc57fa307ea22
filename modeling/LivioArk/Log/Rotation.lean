import Mathlib.Data.Int.Basic
import Mathlib.Logic.Function.Basic

namespace LivioArk.Log.Logging

open Function

abbrev Str := List Char

/-- The files that there are, with their sizes. -/
abbrev Disk := Str → Option ℕ

/-- What the file system lets a call do. Every answer is that of all tries, and
`opens` has one for each mode of `file_helper::open`. -/
structure Access where
  opens : Bool → Str → Bool
  truncates : Str → Bool
  renames : Str → Str → Bool
  removes : Str → Bool

structure Files extends Access where
  disk : Disk

def noFiles : Files where
  opens _ _ := false
  truncates _ := false
  renames _ _ := false
  removes _ := false
  disk _ := none

section Names

def rfind (c : Char) (s : Str) : Option ℕ :=
  (s.reverse.findIdx? fun d ↦ d = c).map fun i ↦ s.length - 1 - i

def splitByExtension (fname : Str) : Str × Str :=
  match rfind '.' fname with
  | none => (fname, [])
  | some ext_index =>
    if ext_index = 0 ∨ ext_index = fname.length - 1 then (fname, [])
    else
      match rfind '/' fname with
      | none => (fname.take ext_index, fname.drop ext_index)
      | some folder_index =>
        if ext_index - 1 ≤ folder_index then (fname, [])
        else (fname.take ext_index, fname.drop ext_index)

def calcFilename (filename : Str) (index : ℕ) : Str :=
  if index = 0 then filename
  else
    let (basename, ext) := splitByExtension filename
    basename ++ '.' :: (Nat.toDigits 10 index ++ ext)

theorem splitByExtension_append (fname : Str) :
    (splitByExtension fname).1 ++ (splitByExtension fname).2 = fname := by
  rw [splitByExtension]
  repeat' split
  all_goals first | exact List.append_nil _ | exact List.take_append_drop _ _

theorem toDigits_injective {i j : ℕ} (h : Nat.toDigits 10 i = Nat.toDigits 10 j) : i = j := by
  have hi : Nat.ofDigitChars 10 (Nat.toDigits 10 i) 0 = i := Nat.ofDigitChars_ten_toDigits
  have hj : Nat.ofDigitChars 10 (Nat.toDigits 10 j) 0 = j := Nat.ofDigitChars_ten_toDigits
  rw [h] at hi
  exact hi.symm.trans hj

theorem calcFilename_zero (filename : Str) : calcFilename filename 0 = filename := if_pos rfl

theorem length_lt_calcFilename (filename : Str) {i : ℕ} (hi : i ≠ 0) :
    filename.length < (calcFilename filename i).length := by
  have hsplit := congrArg List.length (splitByExtension_append filename)
  rw [List.length_append] at hsplit
  rw [calcFilename, if_neg hi]
  simp only [List.length_append, List.length_cons]
  omega

theorem calcFilename_injective (filename : Str) : Injective (calcFilename filename) := by
  intro i j h
  by_cases hi : i = 0
  · by_cases hj : j = 0
    · rw [hi, hj]
    · have hlt := length_lt_calcFilename filename hj
      rw [← h, hi, calcFilename_zero] at hlt
      exact absurd hlt (Nat.lt_irrefl _)
  · by_cases hj : j = 0
    · have hlt := length_lt_calcFilename filename hi
      rw [h, hj, calcFilename_zero] at hlt
      exact absurd hlt (Nat.lt_irrefl _)
    · rw [calcFilename, calcFilename, if_neg hi, if_neg hj] at h
      have hdigits := List.append_cancel_left h
      rw [List.cons.injEq] at hdigits
      exact toDigits_injective (List.append_cancel_right hdigits.2)

end Names

section Sinks

def MaxFiles : ℕ := 200000

inductive Sink
  | stdout_color
  | rotating_file (base_filename : Str) (max_size max_files : ℕ)
  deriving DecidableEq

variable (files : Files)

/-- `file_helper::open`, false where it throws. A file that is to be truncated is
opened and closed once before. -/
def openFile (disk : Disk) (fname : Str) (truncate : Bool) : Bool × Disk :=
  if truncate && !files.truncates fname then (false, disk)
  else
    let disk := if truncate then update disk fname (some 0) else disk
    if files.opens truncate fname then (true, update disk fname (some ((disk fname).getD 0)))
    else (false, disk)

/-- `rename_file_`, with its second try. -/
def renameFile (disk : Disk) (src_filename target_filename : Str) : Bool × Disk :=
  if files.renames src_filename target_filename then
    (true, update (update disk target_filename (disk src_filename)) src_filename none)
  else if files.removes target_filename then (false, update disk target_filename none)
  else (false, disk)

/-- The loop of `rotate_`, false where a file could not be renamed. -/
def renameFiles (base_filename : Str) : ℕ → Disk → Bool × Disk
  | 0, disk => (true, disk)
  | i + 1, disk =>
    if (disk (calcFilename base_filename i)).isNone then renameFiles base_filename i disk
    else
      match renameFile files disk (calcFilename base_filename i)
        (calcFilename base_filename (i + 1)) with
      | (true, disk) => renameFiles base_filename i disk
      | (false, disk) => (false, disk)

/-- `rotate_`, false where it throws. The log file is truncated in any case. -/
def rotate (base_filename : Str) (max_files : ℕ) (disk : Disk) : Bool × Disk :=
  let (renamed, disk) := renameFiles files base_filename max_files disk
  let (opened, disk) := openFile files disk base_filename true
  (renamed && opened, disk)

/-- The constructor of `rotating_file_sink`, with the files after it. There is
no sink where it throws. -/
def rotatingFileSink (base_filename : Str) (max_size max_files : ℕ) (rotate_on_open : Bool) :
    Option Sink × Disk :=
  if max_size = 0 then (none, files.disk)
  else if MaxFiles < max_files then (none, files.disk)
  else
    match openFile files files.disk base_filename false with
    | (false, disk) => (none, disk)
    | (true, disk) =>
      if rotate_on_open && 0 < (disk base_filename).getD 0 then
        match rotate files base_filename max_files disk with
        | (true, disk) => (some (.rotating_file base_filename max_size max_files), disk)
        | (false, disk) => (none, disk)
      else (some (.rotating_file base_filename max_size max_files), disk)

end Sinks

section Renaming

variable {files : Files} {base : Str} {n i : ℕ} {disk : Disk}

def Stuck (files : Files) (base : Str) (disk : Disk) : ℕ → Prop
  | 0 => True
  | i + 1 =>
    if (disk (calcFilename base i)).isSome then
      files.renames (calcFilename base i) (calcFilename base (i + 1)) = false ∧
        ((disk (calcFilename base (i + 1))).isSome = true →
          files.removes (calcFilename base (i + 1)) = false)
    else Stuck files base disk i

def Rotates (files : Files) (base : Str) (max_files : ℕ) : Prop :=
  (∀ i < max_files, (files.disk (calcFilename base i)).isSome = true →
    files.renames (calcFilename base i) (calcFilename base (i + 1)) = true) ∧
    files.truncates base = true ∧ files.opens true base = true

def Disk.moved (disk : Disk) (base : Str) (i : ℕ) : Disk :=
  update (update disk (calcFilename base (i + 1)) (disk (calcFilename base i)))
    (calcFilename base i) none

theorem moved_self (disk : Disk) (i : ℕ) : disk.moved base i (calcFilename base i) = none :=
  update_self _ _ _

theorem moved_below (disk : Disk) (hi : i < n) :
    disk.moved base n (calcFilename base i) = disk (calcFilename base i) := by
  have hn : calcFilename base i ≠ calcFilename base n :=
    fun he ↦ Nat.ne_of_lt hi (calcFilename_injective base he)
  have hnext : calcFilename base i ≠ calcFilename base (n + 1) :=
    fun he ↦ Nat.ne_of_lt (Nat.lt_succ_of_lt hi) (calcFilename_injective base he)
  rw [Disk.moved, update_of_ne hn, update_of_ne hnext]

theorem renameFiles_none (h : disk (calcFilename base n) = none) :
    renameFiles files base (n + 1) disk = renameFiles files base n disk := by
  rw [renameFiles, h, Option.isNone_none, if_pos rfl]

theorem renameFiles_true (h : (disk (calcFilename base n)).isSome = true)
    (hname : files.renames (calcFilename base n) (calcFilename base (n + 1)) = true) :
    renameFiles files base (n + 1) disk = renameFiles files base n (disk.moved base n) := by
  rw [renameFiles, Option.isNone_eq_false_iff.mpr h, if_neg Bool.false_ne_true, renameFile, hname,
    if_pos rfl]
  rfl

theorem renameFiles_false (h : (disk (calcFilename base n)).isSome = true)
    (hname : files.renames (calcFilename base n) (calcFilename base (n + 1)) = false) :
    renameFiles files base (n + 1) disk =
      (false, if files.removes (calcFilename base (n + 1)) = true then
        update disk (calcFilename base (n + 1)) none else disk) := by
  rw [renameFiles, Option.isNone_eq_false_iff.mpr h, if_neg Bool.false_ne_true, renameFile, hname,
    if_neg Bool.false_ne_true]
  cases files.removes (calcFilename base (n + 1)) <;> rfl

theorem renameFiles_fst (n : ℕ) (disk : Disk) :
    (renameFiles files base n disk).1 = true ↔
      ∀ i < n, (disk (calcFilename base i)).isSome = true →
        files.renames (calcFilename base i) (calcFilename base (i + 1)) = true := by
  induction n generalizing disk with
  | zero => exact ⟨fun _ i hi ↦ absurd hi (Nat.not_lt_zero i), fun _ ↦ rfl⟩
  | succ n ih =>
    rw [Nat.forall_lt_succ_right]
    cases hsrc : (disk (calcFilename base n)).isSome with
    | false =>
      rw [renameFiles_none (Option.isNone_iff_eq_none.mp (Option.isSome_eq_false_iff.mp hsrc)), ih]
      exact ⟨fun h ↦ ⟨h, fun he ↦ by cases he⟩, And.left⟩
    | true =>
      cases hname : files.renames (calcFilename base n) (calcFilename base (n + 1)) with
      | true =>
        rw [renameFiles_true hsrc hname, ih]
        constructor
        · intro h
          refine ⟨fun i hi hsome ↦ h i hi ?_, fun _ ↦ rfl⟩
          rw [moved_below disk hi]
          exact hsome
        · rintro ⟨h, -⟩ i hi hsome
          rw [moved_below disk hi] at hsome
          exact h i hi hsome
      | false =>
        rw [renameFiles_false hsrc hname]
        exact ⟨fun h ↦ (by cases h), fun h ↦ (by cases h.2 rfl)⟩

theorem renameFiles_stuck (h : Stuck files base disk n) :
    (renameFiles files base n disk).2 = disk := by
  induction n with
  | zero => rfl
  | succ n ih =>
    rw [Stuck] at h
    split at h
    · rename_i hsome
      obtain ⟨hname, htarget⟩ := h
      rw [renameFiles_false hsome hname]
      split
      · rename_i hremoves
        apply update_eq_self_iff.mpr
        cases hthere : disk (calcFilename base (n + 1)) with
        | none => rfl
        | some size =>
          rw [htarget (by rw [hthere]; rfl)] at hremoves
          cases hremoves
      · rfl
    · rename_i hnone
      rw [renameFiles_none (Option.not_isSome_iff_eq_none.mp hnone)]
      exact ih h

theorem renameFiles_moved (h : ¬ Stuck files base disk n) :
    ∃ k ≤ n, (disk (calcFilename base k)).isSome = true ∧
      (renameFiles files base n disk).2 (calcFilename base k) = none := by
  induction n generalizing disk with
  | zero => exact absurd trivial h
  | succ n ih =>
    rw [Stuck] at h
    split at h
    · rename_i hsome
      cases hname : files.renames (calcFilename base n) (calcFilename base (n + 1)) with
      | true =>
        rw [renameFiles_true hsome hname]
        by_cases hstuck : Stuck files base (disk.moved base n) n
        · refine ⟨n, Nat.le_succ n, hsome, ?_⟩
          rw [renameFiles_stuck hstuck, moved_self]
        · obtain ⟨k, hk, hthere, hole⟩ := ih hstuck
          have hne : k ≠ n := by
            rintro rfl
            rw [moved_self] at hthere
            cases hthere
          rw [moved_below disk (Nat.lt_of_le_of_ne hk hne)] at hthere
          exact ⟨k, Nat.le_succ_of_le hk, hthere, hole⟩
      | false =>
        rw [renameFiles_false hsome hname]
        simp only [hname, true_and, Classical.not_imp, Bool.not_eq_false] at h
        refine ⟨n + 1, Nat.le_refl _, h.1, ?_⟩
        rw [if_pos h.2]
        exact update_self _ _ _
    · rename_i hnone
      rw [renameFiles_none (Option.not_isSome_iff_eq_none.mp hnone)]
      obtain ⟨k, hk, hole⟩ := ih h
      exact ⟨k, Nat.le_succ_of_le hk, hole⟩

end Renaming

section Opening

variable {files : Files} {base : Str} {max_size max_files : ℕ}

theorem openFile_there {size : ℕ} (hopen : files.opens false base = true)
    (hsize : files.disk base = some size) :
    openFile files files.disk base false = (true, files.disk) := by
  rw [openFile]
  simp only [Bool.false_and, Bool.false_eq_true, if_false, hopen, if_true, hsize, Option.getD_some]
  rw [update_eq_self_iff.mpr hsize.symm]

theorem openFile_truncate_fst (disk : Disk) :
    (openFile files disk base true).1 = true ↔
      files.truncates base = true ∧ files.opens true base = true := by
  rw [openFile]
  cases files.truncates base <;> cases files.opens true base <;> simp

theorem openFile_truncate_snd (disk : Disk) :
    (openFile files disk base true).2 =
      if files.truncates base then update disk base (some 0) else disk := by
  rw [openFile]
  cases files.truncates base <;> cases files.opens true base <;> simp

theorem rotate_fst : (rotate files base max_files files.disk).1 = true ↔
    Rotates files base max_files := by
  simp only [rotate, Rotates, Bool.and_eq_true, renameFiles_fst, openFile_truncate_fst]

theorem rotatingFileSink_opened (rotate_on_open : Bool) (hsize : 0 < max_size)
    (hmany : max_files ≤ MaxFiles) (hopen : files.opens false base = true)
    (hkeep : rotate_on_open = true → (files.disk base).getD 0 = 0) :
    rotatingFileSink files base max_size max_files rotate_on_open =
      (some (.rotating_file base max_size max_files),
        update files.disk base (some ((files.disk base).getD 0))) := by
  have hopened : openFile files files.disk base false =
      (true, update files.disk base (some ((files.disk base).getD 0))) := by
    simp only [openFile, Bool.false_and, Bool.false_eq_true, if_false, hopen, if_true]
  rw [rotatingFileSink, if_neg (Nat.ne_of_gt hsize), if_neg (Nat.not_lt_of_le hmany), hopened]
  simp only [update_self, Option.getD_some]
  rw [if_neg]
  intro h
  rw [Bool.and_eq_true, decide_eq_true_eq] at h
  rw [hkeep h.1] at h
  exact Nat.lt_irrefl 0 h.2

theorem rotatingFileSink_rotated (hsize : 0 < max_size) (hmany : max_files ≤ MaxFiles)
    (hopen : files.opens false base = true) (hfull : 0 < (files.disk base).getD 0) :
    rotatingFileSink files base max_size max_files true =
      (if (rotate files base max_files files.disk).1 = true then
          some (.rotating_file base max_size max_files) else none,
        (rotate files base max_files files.disk).2) := by
  obtain ⟨size, hthere⟩ : ∃ size, files.disk base = some size := by
    cases hthere : files.disk base with
    | none =>
      rw [hthere] at hfull
      exact absurd hfull (Nat.lt_irrefl 0)
    | some size => exact ⟨size, rfl⟩
  rw [rotatingFileSink, if_neg (Nat.ne_of_gt hsize), if_neg (Nat.not_lt_of_le hmany),
    openFile_there hopen hthere]
  simp only [Bool.true_and, decide_eq_true hfull, if_true]
  cases rotate files base max_files files.disk with
  | mk rotated disk => cases rotated <;> rfl

theorem rotatingFileSink_closed (rotate_on_open : Bool)
    (h : max_size = 0 ∨ MaxFiles < max_files ∨ files.opens false base = false) :
    rotatingFileSink files base max_size max_files rotate_on_open = (none, files.disk) := by
  rw [rotatingFileSink]
  by_cases hsize : max_size = 0
  · rw [if_pos hsize]
  rw [if_neg hsize]
  by_cases hmany : MaxFiles < max_files
  · rw [if_pos hmany]
  rw [if_neg hmany]
  have hopen := (h.resolve_left hsize).resolve_left hmany
  simp only [openFile, Bool.false_and, Bool.false_eq_true, if_false, hopen]

theorem rotatingFileSink_there (h : (files.disk base).isSome = true) :
    (rotatingFileSink files base max_size max_files false).2 = files.disk := by
  by_cases hclosed : max_size = 0 ∨ MaxFiles < max_files ∨ files.opens false base = false
  · rw [rotatingFileSink_closed false hclosed]
  · simp only [not_or, Nat.not_lt, Bool.not_eq_false] at hclosed
    obtain ⟨hsize, hmany, hopen⟩ := hclosed
    obtain ⟨size, hthere⟩ := Option.isSome_iff_exists.mp h
    rw [rotatingFileSink_opened false (Nat.pos_of_ne_zero hsize) hmany hopen fun he ↦ by cases he]
    simp only [hthere, Option.getD_some]
    exact update_eq_self_iff.mpr hthere.symm

theorem rotatingFileSink_isSome (rotate_on_open : Bool) :
    (rotatingFileSink files base max_size max_files rotate_on_open).1.isSome = true ↔
      0 < max_size ∧ max_files ≤ MaxFiles ∧ files.opens false base = true ∧
        (rotate_on_open = true → 0 < (files.disk base).getD 0 → Rotates files base max_files) := by
  by_cases hclosed : max_size = 0 ∨ MaxFiles < max_files ∨ files.opens false base = false
  · rw [rotatingFileSink_closed rotate_on_open hclosed]
    refine ⟨fun h ↦ (by cases h), fun ⟨hsize, hmany, hopen, _⟩ ↦ ?_⟩
    rcases hclosed with h | h | h
    · omega
    · omega
    · rw [h] at hopen
      cases hopen
  · simp only [not_or, Nat.not_lt, Bool.not_eq_false] at hclosed
    obtain ⟨hsize, hmany, hopen⟩ := hclosed
    have hsize : 0 < max_size := Nat.pos_of_ne_zero hsize
    simp only [hsize, hmany, hopen, true_and]
    by_cases hfull : rotate_on_open = true ∧ 0 < (files.disk base).getD 0
    · obtain ⟨rfl, hfull⟩ := hfull
      rw [rotatingFileSink_rotated hsize hmany hopen hfull]
      simp only [hfull, true_imp_iff, ← rotate_fst]
      cases (rotate files base max_files files.disk).1 <;> simp
    · have hkeep : rotate_on_open = true → (files.disk base).getD 0 = 0 :=
        fun h ↦ Nat.eq_zero_of_not_pos fun hpos ↦ hfull ⟨h, hpos⟩
      rw [rotatingFileSink_opened rotate_on_open hsize hmany hopen hkeep]
      exact ⟨fun _ h hpos ↦ absurd ⟨h, hpos⟩ hfull, fun _ ↦ rfl⟩

end Opening

end LivioArk.Log.Logging
