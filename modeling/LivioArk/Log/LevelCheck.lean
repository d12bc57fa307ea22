import LivioArk.Log.Logging

namespace LivioArk.Log.LevelCheck

open Function LivioArk.Library.Transition Logging

variable {ndebug : Bool} {files : Files} {reg reg' : Registry}

structure Copied (reg : Registry) : Prop where
  threshold : reg.default_level = reg.options.level.toInt
  logger : ∀ p, reg.default_logger = some p → ∃ logger, reg.loggers[p]? = some logger ∧
    logger.level = toSpdlogLevel reg.options.level
  cache : reg.default_cache = none ∨ reg.default_cache = reg.default_logger

/-- The check without a lock and the logger that the next `log` uses, which it
makes where there is none yet. -/
structure Agrees (ndebug : Bool) (reg : Registry) : Prop extends Copied reg where
  decision : ∀ files p reg', (cachedDefault ndebug files reg).1 = some (p, reg') →
    ∃ logger, reg'.loggers[p]? = some logger ∧
      ∀ level, shouldLog level reg = logger.shouldLog (toSpdlogLevel level)

def NoThrow (ndebug : Bool) (reg : Registry) (a : Call × Files) : Prop :=
  (perform ndebug a.2 reg a.1).1 ≠ .threw

instance (ndebug : Bool) (reg : Registry) (a : Call × Files) :
    Decidable (NoThrow ndebug reg a) := inferInstanceAs (Decidable (_ ≠ _))

/-- The level of a module's logger after a run: what the run sets last. -/
def settledLevel (m : Str) (level : ℕ) : List (Call × Files) → ℕ
  | [] => level
  | (.setModuleLevel mod new, _) :: as =>
    settledLevel m (if mod = m then toSpdlogLevel new else level) as
  | _ :: as => settledLevel m level as

section Copies

theorem copied_init : Copied {} where
  threshold := rfl
  logger := by
    intro p hp
    cases hp
  cache := .inl rfl

theorem Copied.withModule (h : Copied reg) (m : Str) (x : Option Logger) :
    Copied (reg.withModule m x) where
  threshold := h.threshold
  logger := h.logger
  cache := h.cache

variable (reg) in
theorem Copied.created {logger : Logger} {options : LogOptions} {cache : Option ℕ}
    (hlevel : logger.level = toSpdlogLevel options.level)
    (hcache : cache = none ∨ cache = some reg.loggers.length) :
    Copied
      { reg with
        options := options
        default_logger := some reg.loggers.length
        default_level := options.level.toInt
        default_cache := cache
        loggers := reg.loggers ++ [logger] } where
  threshold := rfl
  logger := by
    intro p hp
    obtain rfl := Option.some.inj hp
    exact ⟨logger, List.getElem?_concat_length, hlevel⟩
  cache := hcache

theorem Copied.ensureDefault {p : ℕ} (h : Copied reg)
    (hp : (ensureDefault ndebug files reg).1 = some (p, reg')) :
    Copied reg' ∧ reg'.default_logger = some p ∧ reg'.options = reg.options := by
  cases ensureDefault_cases hp with
  | inl hold =>
    obtain ⟨hdefault, rfl⟩ := hold
    exact ⟨h, hdefault, rfl⟩
  | inr hnew =>
    obtain ⟨hnone, rfl, logger, hlogger, rfl⟩ := hnew
    have hcache : reg.default_cache = none := by
      cases h.cache with
      | inl hcache => exact hcache
      | inr hcache => rw [hcache, hnone]
    have hcreated := Copied.created reg (makeLogger_level hlogger) (.inl hcache)
    rw [← h.threshold] at hcreated
    exact ⟨hcreated, rfl, rfl⟩

theorem Copied.cachedDefault {p : ℕ} (h : Copied reg)
    (hp : (cachedDefault ndebug files reg).1 = some (p, reg')) :
    Copied reg' ∧ reg'.default_logger = some p ∧ reg'.options = reg.options := by
  cases hq : reg.default_cache with
  | some q =>
    rw [cachedDefault_some hq] at hp
    cases hp
    have hdefault : reg.default_logger = some p := by
      cases h.cache with
      | inl hcache => rw [hq] at hcache; cases hcache
      | inr hcache => rw [← hcache, hq]
    exact ⟨h, hdefault, rfl⟩
  | none =>
    rw [cachedDefault_none hq] at hp
    obtain ⟨⟨q, made⟩, hmade, heq⟩ := Option.map_eq_some_iff.mp hp
    cases heq
    obtain ⟨hcopied, hdefault, hoptions⟩ := h.ensureDefault hmade
    refine ⟨⟨hcopied.threshold, hcopied.logger, .inr hdefault.symm⟩, hdefault, hoptions⟩

theorem Copied.init {options : LogOptions}
    (hdone : (Logging.init ndebug files options reg).1 ≠ .threw) :
    Copied (Logging.init ndebug files options reg).2.1 := by
  simp only [Logging.init] at hdone ⊢
  cases hlogger : (makeLogger ndebug files options.logger_name options).1 with
  | none =>
    rw [hlogger] at hdone
    exact absurd rfl hdone
  | some logger => exact .created reg (makeLogger_level hlogger) (.inr rfl)

/-- The level goes to the default logger last, when the other copies have it. -/
theorem Copied.setLoggerLevel {p : ℕ} {logger : Logger}
    (hthreshold : reg.default_level = reg.options.level.toInt)
    (hdefault : reg.default_logger = some p) (hlogger : reg.loggers[p]? = some logger)
    (hcache : reg.default_cache = none ∨ reg.default_cache = reg.default_logger) :
    Copied (reg.setLoggerLevel p reg.options.level) where
  threshold := hthreshold
  logger := by
    intro q hq
    obtain rfl := Option.some.inj (hdefault.symm.trans hq)
    refine ⟨{ logger with level := toSpdlogLevel reg.options.level }, ?_, rfl⟩
    simp only [Registry.setLoggerLevel, List.getElem?_modify_eq, hlogger, Option.map_eq_map,
      Option.map_some]
  cache := hcache

theorem Copied.setLevel (h : Copied reg) (level : Level)
    (hdone : (Logging.setLevel ndebug files level reg).1 ≠ .threw) :
    Copied (Logging.setLevel ndebug files level reg).2.1 := by
  simp only [Logging.setLevel] at hdone ⊢
  cases hp : (Logging.ensureDefault ndebug files
      { reg with
        options := { reg.options with level := level }
        default_level := level.toInt }).1 with
  | none =>
    rw [hp] at hdone
    exact absurd rfl hdone
  | some made =>
    obtain ⟨p, made⟩ := made
    cases ensureDefault_cases hp with
    | inl hold =>
      obtain ⟨hdefault, rfl⟩ := hold
      obtain ⟨logger, hlogger, -⟩ := h.logger p hdefault
      exact .setLoggerLevel (p := p) rfl hdefault hlogger h.cache
    | inr hnew =>
      obtain ⟨hnone, rfl, logger, -, rfl⟩ := hnew
      have hcache : reg.default_cache = none := by
        cases h.cache with
        | inl hcache => exact hcache
        | inr hcache => rw [hcache, hnone]
      exact .setLoggerLevel rfl rfl List.getElem?_concat_length (.inl hcache)

theorem Copied.perform {c : Call} (h : Copied reg)
    (hdone : (Logging.perform ndebug files reg c).1 ≠ .threw) :
    Copied (Logging.perform ndebug files reg c).2 := by
  cases hc : c.module? with
  | some m =>
    cases hlogger : moduleLogger ndebug files m reg with
    | none =>
      rw [perform_threw hc hlogger]
      exact h
    | some logger =>
      rw [perform_logger hc hlogger]
      exact h.withModule m _
  | none =>
    cases c with
    | init options => exact .init hdone
    | setLevel level => exact h.setLevel level hdone
    | getLevel | shouldLog => exact h
    | log level msg loc =>
      simp only [Logging.perform, execute, log, detailLog] at hdone ⊢
      cases shouldLog level reg with
      | false => exact h
      | true =>
        cases hp : (Logging.cachedDefault ndebug files reg).1 with
        | none => exact h
        | some made => exact (h.cachedDefault hp).1
    | setModuleLevel | getModuleLevel | moduleShouldLog | logModule => cases hc

theorem Copied.agrees (h : Copied reg) : Agrees ndebug reg where
  toCopied := h
  decision := by
    intro files p reg' hp
    obtain ⟨hcopied, hdefault, hoptions⟩ := h.cachedDefault hp
    obtain ⟨logger, hlogger, hlevel⟩ := hcopied.logger p hdefault
    refine ⟨logger, hlogger, fun level ↦ ?_⟩
    rw [shouldLog, Logger.shouldLog, hlevel, hoptions, h.threshold, toSpdlogLevel_eq,
      toSpdlogLevel_eq]

end Copies

section Modules

variable {m : Str} {logger : Logger}

theorem perform_other {c : Call} (hne : c.module? ≠ some m) :
    (Logging.perform ndebug files reg c).2.modules m = reg.modules m := by
  cases hc : c.module? with
  | none => exact perform_modules hc m
  | some key =>
    have hkey : m ≠ key := by
      intro heq
      exact hne (by rw [hc, heq])
    cases hlogger : moduleLogger ndebug files key reg with
    | none => rw [perform_threw hc hlogger]
    | some logger =>
      rw [perform_logger hc hlogger]
      exact modules_withModule_ne hkey reg

variable (ndebug) in
theorem perform_settled (h : reg.modules m = some logger) (a : Call × Files) :
    ∃ logger', (Logging.perform ndebug a.2 reg a.1).2.modules m = some logger' ∧
      logger'.level = settledLevel m logger.level [a] := by
  by_cases hc : a.1.module? = some m
  · rw [perform_logger hc (moduleLogger_some h)]
    refine ⟨_, modules_withModule reg, ?_⟩
    obtain ⟨c, files⟩ := a
    cases c with
    | setModuleLevel mod level =>
      obtain rfl : mod = m := Option.some.inj hc
      simp only [settledLevel, if_true]
      rfl
    | getModuleLevel | moduleShouldLog | logModule => rfl
    | init | setLevel | getLevel | shouldLog | log => cases hc
  · rw [perform_other hc]
    refine ⟨logger, h, ?_⟩
    obtain ⟨c, files⟩ := a
    cases c with
    | setModuleLevel mod level =>
      have hne : mod ≠ m := fun heq ↦ hc (congrArg some heq)
      simp only [settledLevel, if_neg hne]
    | init | setLevel | getLevel | getModuleLevel | shouldLog | moduleShouldLog | log | logModule =>
      rfl

theorem settledLevel_cons (level : ℕ) (a : Call × Files) (as : List (Call × Files)) :
    settledLevel m level (a :: as) = settledLevel m (settledLevel m level [a]) as := by
  obtain ⟨c, files⟩ := a
  cases c <;> rfl

theorem after_settled (h : reg.modules m = some logger) (as : List (Call × Files)) :
    ∃ logger', (after ndebug reg as).modules m = some logger' ∧
      logger'.level = settledLevel m logger.level as := by
  induction as generalizing reg logger with
  | nil => exact ⟨logger, h, rfl⟩
  | cons a as ih =>
    obtain ⟨logger₁, hlogger₁, hlevel₁⟩ := perform_settled ndebug h a
    obtain ⟨logger₂, hlogger₂, hlevel₂⟩ := ih hlogger₁
    refine ⟨logger₂, hlogger₂, ?_⟩
    rw [hlevel₂, hlevel₁, ← settledLevel_cons]

end Modules

/-- In every run without a throw the copies of the default level agree, and the
level of a module's logger is the one that was last set on that module. -/
theorem level_check_agrees (h : (machine ndebug).Reaches (NoThrow ndebug) reg) :
    Agrees ndebug reg ∧
      ∀ m logger, reg.modules m = some logger → ∀ as, ∃ logger',
        (after ndebug reg as).modules m = some logger' ∧
          logger'.level = settledLevel m logger.level as := by
  have hcopied : Copied reg := by
    refine Machine.Reaches.invariant (P := fun reg ↦ Copied reg) ?_ ?_ h
    · intro s hs
      rw [show s = {} from hs]
      exact copied_init
    · intro s a t _ hcopied hdone ht
      obtain rfl := Option.some.inj ht
      exact hcopied.perform hdone
  exact ⟨hcopied.agrees, fun m logger hlogger as ↦ after_settled hlogger as⟩

def mixedRun : List (Call × Files) :=
  [(.getModuleLevel ['a'], noFiles), (.setLevel .warn, noFiles),
    (.setModuleLevel ['b'] .off, noFiles), (.log .error ['x'] {}, noFiles)]

theorem level_check_agrees_mixed :
    Agrees false (after false {} mixedRun) ∧
      ∀ m logger, (after false {} mixedRun).modules m = some logger → ∀ as, ∃ logger',
        (after false (after false {} mixedRun) as).modules m = some logger' ∧
          logger'.level = settledLevel m logger.level as :=
  level_check_agrees <|
    .next (.next (.next (.next (.start rfl) (by decide) rfl) (by decide) rfl) (by decide) rfl)
      (by decide) rfl

end LivioArk.Log.LevelCheck
