import LivioArk.Log.LogFiles

namespace LivioArk.Log.InitFailure

open Function Logging LogFiles

variable {ndebug : Bool} {files : Files} {options : LogOptions} {reg : Registry} {w : World}

/-- What the file sink of the options needs, where they ask for one. -/
def FileReady (files : Files) (options : LogOptions) : Prop :=
  options.file_path = [] ∨
    0 < options.max_file_size ∧ options.max_files ≤ MaxFiles ∧
      files.opens false options.file_path = true ∧
      (options.truncate = true → 0 < (files.disk options.file_path).getD 0 →
        Rotates files options.file_path options.max_files)

/-- The file sink cannot be made, and the attempt leaves all files alone. -/
def Refused (files : Files) (options : LogOptions) : Prop :=
  options.file_path ≠ [] ∧
    (options.max_file_size = 0 ∨ MaxFiles < options.max_files ∨
      files.opens false options.file_path = false ∨
      options.truncate = true ∧ 0 < (files.disk options.file_path).getD 0 ∧
        files.truncates options.file_path = false ∧
        Stuck files options.file_path files.disk options.max_files)

/-- An `init` that throws leaves the registry alone, and whatever the calls after
it show is as without it. -/
def Atomic (ndebug : Bool) (access : Access) (options : LogOptions) (w : World) : Prop :=
  let (outcome, reg, disk) := init ndebug (found access w.disk) options w.reg
  outcome = .threw → reg = w.reg ∧
    ∀ es, World.outcomes ndebug { reg := reg, disk := disk } es = w.outcomes ndebug es

section Made

theorem makeLogger_isSome (name : Str) :
    (makeLogger ndebug files name options).1.isSome = true ↔ FileReady files options := by
  rw [makeLogger, Option.isSome_map, createSinks, FileReady]
  by_cases hpath : options.file_path = []
  · simp [hpath]
  · rw [if_pos hpath, Option.isSome_map, rotatingFileSink_isSome]
    simp only [hpath, false_or]

theorem makeLogger_none (h : ¬ FileReady files options) (name : Str) :
    (makeLogger ndebug files name options).1 = none := by
  rw [← Option.not_isSome_iff_eq_none, makeLogger_isSome]
  exact h

theorem makeLogger_disk (hpath : options.file_path ≠ []) (name : Str) :
    (makeLogger ndebug files name options).2 = (rotatingFileSink files options.file_path
      options.max_file_size options.max_files options.truncate).2 := by
  rw [makeLogger, createSinks, if_pos hpath]

theorem not_ready_of_refused (h : Refused files options) : ¬ FileReady files options := by
  obtain ⟨hpath, hrefused⟩ := h
  rintro (hnone | ⟨hsize, hmany, hopen, hrotates⟩)
  · exact hpath hnone
  · rcases hrefused with hzero | hmore | hclosed | ⟨htruncate, hfull, hkept, -⟩
    · omega
    · omega
    · rw [hclosed] at hopen
      cases hopen
    · rw [(hrotates htruncate hfull).2.1] at hkept
      cases hkept

theorem makeLogger_refused (h : Refused files options) (name : Str) :
    (makeLogger ndebug files name options).2 = files.disk := by
  obtain ⟨hpath, hrefused⟩ := h
  rw [makeLogger_disk hpath]
  by_cases hclosed : options.max_file_size = 0 ∨ MaxFiles < options.max_files ∨
      files.opens false options.file_path = false
  · rw [rotatingFileSink_closed _ hclosed]
  · simp only [← or_assoc] at hrefused hclosed
    obtain ⟨htruncate, hfull, hkept, hstuck⟩ := hrefused.resolve_left hclosed
    simp only [not_or, Nat.not_lt, Bool.not_eq_false] at hclosed
    rw [htruncate, rotatingFileSink_rotated (Nat.pos_of_ne_zero hclosed.1.1) hclosed.1.2 hclosed.2
      hfull]
    simp only [rotate, openFile_truncate_snd, hkept, Bool.false_eq_true, if_false]
    exact renameFiles_stuck hstuck

/-- A rotation that fails otherwise loses a file or the content of the log file. -/
theorem makeLogger_lost (ndebug : Bool) (hready : ¬ FileReady files options)
    (hrefused : ¬ Refused files options) (name : Str) :
    options.file_path ≠ [] ∧ options.truncate = true ∧ options.max_files ≤ MaxFiles ∧
      0 < options.max_file_size ∧ 0 < (files.disk options.file_path).getD 0 ∧
      ((makeLogger ndebug files name options).2 options.file_path = some 0 ∨
        ∃ p, (files.disk p).isSome = true ∧ (makeLogger ndebug files name options).2 p = none) := by
  have hpath : options.file_path ≠ [] := fun he ↦ hready (.inl he)
  simp only [Refused, hpath, ne_eq, not_false_iff, true_and, not_or, Nat.not_lt,
    Bool.not_eq_false] at hrefused
  obtain ⟨hsize, hmany, hopen, hmoved⟩ := hrefused
  have hsize : 0 < options.max_file_size := Nat.pos_of_ne_zero hsize
  simp only [FileReady, hpath, false_or, hsize, hmany, hopen, true_and, Classical.not_imp] at hready
  obtain ⟨htruncate, hfull, -⟩ := hready
  refine ⟨hpath, htruncate, hmany, hsize, hfull, ?_⟩
  rw [makeLogger_disk hpath, htruncate, rotatingFileSink_rotated hsize hmany hopen hfull]
  simp only [rotate, openFile_truncate_snd]
  cases hkept : files.truncates options.file_path with
  | true =>
    rw [if_pos rfl]
    exact .inl (update_self _ _ _)
  | false =>
    rw [if_neg Bool.false_ne_true]
    have hstuck : ¬ Stuck files options.file_path files.disk options.max_files :=
      fun h ↦ hmoved ⟨htruncate, hfull, hkept, h⟩
    obtain ⟨k, -, hthere, hole⟩ := renameFiles_moved hstuck
    exact .inr ⟨_, hthere, hole⟩

/-- A module that has no logger yet gets one with the stored options. -/
theorem getModuleLevel_threw {m : Str} (h : reg.modules m = none) :
    (execute ndebug files reg (.getModuleLevel m)).1 = .threw ↔
      ¬ FileReady files reg.options := by
  have hlogger : moduleLogger ndebug files m reg =
      (makeLogger ndebug files m { reg.options with logger_name := m }).1 := by
    rw [moduleLogger, h, Option.none_or]
  have hready : (makeLogger ndebug files m { reg.options with logger_name := m }).1.isSome = true ↔
      FileReady files reg.options := makeLogger_isSome m
  rw [← hready, ← hlogger]
  cases hmade : moduleLogger ndebug files m reg with
  | none =>
    rw [execute_threw rfl hmade]
    simp
  | some logger =>
    rw [execute_logger rfl hmade]
    exact ⟨fun he ↦ (by cases he), fun he ↦ absurd rfl he⟩

end Made

/-- A logger that is made on first use is stored after it is made, so these
calls are atomic. -/
theorem perform_atomic {c : Call} (hinit : ∀ options, c ≠ .init options)
    (hlevel : ∀ level, c ≠ .setLevel level) (h : (perform ndebug files reg c).1 = .threw) :
    (perform ndebug files reg c).2 = reg := by
  cases hc : c.module? with
  | some m =>
    cases hlogger : moduleLogger ndebug files m reg with
    | none => rw [perform_threw hc hlogger]
    | some logger =>
      rw [perform_logger hc hlogger] at h
      cases c with
      | logModule => exact absurd h (ofLog_ne_threw _)
      | setModuleLevel | getModuleLevel | moduleShouldLog => cases h
      | init | setLevel | getLevel | shouldLog | log => cases hc
  | none =>
    cases c with
    | init options => exact absurd rfl (hinit options)
    | setLevel level => exact absurd rfl (hlevel level)
    | getLevel | shouldLog => rfl
    | log level msg loc =>
      simp only [perform, execute, log, detailLog] at h ⊢
      cases hshould : shouldLog level reg with
      | false => rfl
      | true =>
        cases hcached : (cachedDefault ndebug files reg).1 with
        | none => rfl
        | some made =>
          simp only [hshould, hcached] at h
          exact absurd h (ofLog_ne_threw _)
    | setModuleLevel | getModuleLevel | moduleShouldLog | logModule => cases hc

/-- With the log file full and no way to truncate it no sink is made that
rotates it on opening. -/
def full : Access where
  opens _ _ := true
  truncates _ := false
  renames _ _ := false
  removes _ := false

theorem ready_full (disk : Disk) (htruncate : options.truncate = true)
    (hpath : options.file_path ≠ []) (hmany : options.max_files ≤ MaxFiles)
    (hsize : 0 < options.max_file_size) :
    FileReady (found full disk) options ↔ (disk options.file_path).getD 0 = 0 := by
  constructor
  · rintro (hnone | ⟨-, -, -, hrotates⟩)
    · exact absurd hnone hpath
    · by_contra hne
      have hkept : full.truncates options.file_path = true :=
        (hrotates htruncate (Nat.pos_of_ne_zero hne)).2.1
      cases hkept
  · intro hzero
    refine .inr ⟨hsize, hmany, rfl, fun _ hpos ↦ ?_⟩
    rw [show (found full disk).disk = disk from rfl, hzero] at hpos
    exact absurd hpos (Nat.lt_irrefl 0)

/-- Another program can put a lost file in the place of the log file. -/
theorem tells_apart (ndebug : Bool) {disk disk' : Disk} {m : Str} (hfresh : reg.modules m = none)
    (hpath : reg.options.file_path ≠ []) (htruncate : reg.options.truncate = true)
    (hmany : reg.options.max_files ≤ MaxFiles) (hsize : 0 < reg.options.max_file_size)
    (hfull : 0 < (disk reg.options.file_path).getD 0)
    (hlost : disk' reg.options.file_path = some 0 ∨
      ∃ p, (disk p).isSome = true ∧ disk' p = none) :
    ∃ es, World.outcomes ndebug { reg := reg, disk := disk } es ≠
      World.outcomes ndebug { reg := reg, disk := disk' } es := by
  have hask : ∀ disk disk' : Disk, 0 < (disk reg.options.file_path).getD 0 →
      (disk' reg.options.file_path).getD 0 = 0 →
        World.shown ndebug { reg := reg, disk := disk } (.call (.getModuleLevel m) fun _ ↦ full) ≠
          World.shown ndebug { reg := reg, disk := disk' }
            (.call (.getModuleLevel m) fun _ ↦ full) := by
    intro disk disk' hpos hzero he
    have hready := fun disk ↦ ready_full disk htruncate hpath hmany hsize
    have hthrows : ¬ FileReady (found full disk) reg.options :=
      fun h ↦ Nat.ne_of_gt hpos ((hready disk).mp h)
    have he : (execute ndebug (found full disk) reg (.getModuleLevel m)).1 =
        (execute ndebug (found full disk') reg (.getModuleLevel m)).1 := Option.some.inj he
    rw [(getModuleLevel_threw hfresh).mpr hthrows] at he
    exact (getModuleLevel_threw hfresh).mp he.symm ((hready disk').mpr hzero)
  rcases hlost with hempty | ⟨p, hthere, hole⟩
  · refine ⟨[.call (.getModuleLevel m) fun _ ↦ full], fun he ↦ ?_⟩
    refine hask disk disk' hfull ?_ (List.head_eq_of_cons_eq he)
    rw [hempty]
    rfl
  · let put (disk : Disk) : Disk := update disk reg.options.file_path ((disk p).map fun _ ↦ 1)
    refine ⟨[.elsewhere put, .call (.getModuleLevel m) fun _ ↦ full], fun he ↦ ?_⟩
    refine hask (put disk) (put disk') ?_ ?_
      (List.head_eq_of_cons_eq (List.tail_eq_of_cons_eq he))
    · obtain ⟨size, hsize⟩ := Option.isSome_iff_exists.mp hthere
      simp only [put, update_self, hsize]
      exact Nat.one_pos
    · simp only [put, update_self, hole]
      rfl

/-- An `init` that throws has stored its options first, so it is atomic exactly
where they are the old ones and no file has suffered; with the file at hand it
does not throw. -/
theorem init_atomic_iff (h : (World.machine ndebug).Reachable w) (access : Access)
    (options : LogOptions) :
    Atomic ndebug access options w ↔
      FileReady (found access w.disk) options ∨
        w.reg.options = options ∧ Refused (found access w.disk) options := by
  by_cases hready : FileReady (found access w.disk) options
  · refine ⟨fun _ ↦ .inl hready, fun _ ↦ ?_⟩
    have hmade : (makeLogger ndebug (found access w.disk) options.logger_name options).1.isSome =
        true := (makeLogger_isSome _).mpr hready
    obtain ⟨logger, hlogger⟩ := Option.isSome_iff_exists.mp hmade
    simp only [Atomic, init, hlogger]
    exact fun hthrew ↦ by cases hthrew
  · have hnone : (makeLogger ndebug (found access w.disk) options.logger_name options).1 = none :=
      makeLogger_none hready _
    simp only [Atomic, init, hnone, hready, false_or, true_imp_iff]
    constructor
    · rintro ⟨hreg, hlater⟩
      have hsame : w.reg.options = options := (congrArg Registry.options hreg).symm
      refine ⟨hsame, ?_⟩
      by_contra hrefused
      obtain ⟨m, hfresh⟩ := exists_fresh h
      obtain ⟨hpath, htruncate, hmany, hsize, hfull, hlost⟩ :=
        makeLogger_lost ndebug hready hrefused options.logger_name
      subst hsame
      obtain ⟨es, hdiffer⟩ :=
        tells_apart ndebug hfresh hpath htruncate hmany hsize hfull hlost
      exact hdiffer (hlater es).symm
    · rintro ⟨rfl, hrefused⟩
      refine ⟨rfl, fun es ↦ ?_⟩
      rw [makeLogger_refused hrefused]
      rfl

def truncating : LogOptions := { file_path := ['x'], truncate := true }

def pinned : Access where
  opens _ _ := true
  truncates _ := true
  renames _ _ := false
  removes _ := false

def written : World :=
  World.after false { disk := fun _ ↦ none }
    [.call (.init truncating) fun _ ↦ pinned, .elsewhere fun disk ↦ update disk ['x'] (some 5)]

/-- The same `init` once more loses them. -/
theorem init_atomic_iff_written :
    written.reg.options = truncating ∧ ¬ Atomic false pinned truncating written := by
  have hstart : (World.machine false).init { disk := fun _ ↦ none } := rfl
  have hreach : (World.machine false).Reachable written := after_reachable (.start hstart) _
  refine ⟨rfl, fun hatomic ↦ ?_⟩
  rcases (init_atomic_iff hreach pinned truncating).mp hatomic with hready | ⟨-, -, hrefused⟩
  · rcases hready with hnone | ⟨-, -, -, hrotates⟩
    · cases hnone
    · have hrenames := (hrotates rfl (by decide)).1 0 (by decide) (by decide)
      cases hrenames
  · rcases hrefused with hzero | hmore | hclosed | ⟨-, -, hkept, -⟩
    · cases hzero
    · exact absurd hmore (by decide)
    · cases hclosed
    · cases hkept

/-- After a failed `init` with a size of zero no module gets a logger. -/
theorem init_not_atomic :
    ¬ Atomic false noFiles.toAccess { file_path := ['x'], max_file_size := 0 }
      { disk := fun _ ↦ none } := by
  intro hatomic
  obtain ⟨-, houtcomes⟩ := hatomic (by decide)
  have hlater := houtcomes [.call (.getModuleLevel ['a']) fun _ ↦ noFiles.toAccess]
  revert hlater
  decide

end LivioArk.Log.InitFailure
