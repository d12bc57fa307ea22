import LivioArk.Library.Transition
import LivioArk.Log.Rotation

namespace LivioArk.Log.Logging

open Function LivioArk.Library.Transition

inductive Level
  | trace
  | debug
  | info
  | warn
  | error
  | critical
  | off
  deriving DecidableEq

namespace Level

def toInt : Level → ℕ
  | trace => 0
  | debug => 1
  | info => 2
  | warn => 3
  | error => 4
  | critical => 5
  | off => 6

/-- `static_cast<Level>`. No other values than those of `toInt` are stored. -/
def ofInt : ℕ → Level
  | 0 => trace
  | 1 => debug
  | 2 => info
  | 3 => warn
  | 4 => error
  | 5 => critical
  | _ => off

end Level

structure LogOptions where
  level : Level := .info
  flush_level : Level := .warn
  logger_name : Str := "livio_ark".toList
  pattern : Str := "[%Y-%m-%d %H:%M:%S.%e] [%^%l%$] [%n] %v".toList
  file_path : Str := []
  max_file_size : ℕ := 10 * 1024 * 1024
  max_files : ℕ := 3
  truncate : Bool := false
  console : Bool := true
  deriving DecidableEq

structure SourceLoc where
  file : Str := []
  line : ℤ := 0
  func : Str := []
  deriving DecidableEq

section Spdlog

/-- A `spdlog::logger`, with levels as the values of `level_enum`. The sinks
are its own and all have the pattern. -/
structure Logger where
  name : Str
  sinks : List Sink
  pattern : Str := "%+".toList
  level : ℕ := 2
  flush_level : ℕ := 6
  deriving DecidableEq

/-- A message on its way to some sinks, and whether they are flushed after it. -/
structure Emission where
  name : Str
  sinks : List Sink
  pattern : Str
  level : ℕ
  loc : SourceLoc
  msg : Str
  flushed : Bool
  deriving DecidableEq

def Logger.shouldLog (logger : Logger) (msg_level : ℕ) : Bool := logger.level ≤ msg_level

/-- `logger::log`, `none` where the message is filtered. The levels of the
sinks themselves stay at trace and filter nothing. -/
def Logger.log (logger : Logger) (loc : SourceLoc) (lvl : ℕ) (msg : Str) : Option Emission :=
  if logger.shouldLog lvl then
    some
      { name := logger.name
        sinks := logger.sinks
        pattern := logger.pattern
        level := lvl
        loc := loc
        msg := msg
        flushed := logger.flush_level ≤ lvl && lvl ≠ 6 }
  else none

end Spdlog

def toSpdlogLevel : Level → ℕ
  | .trace => 0
  | .debug => 1
  | .info => 2
  | .warn => 3
  | .error => 4
  | .critical => 5
  | .off => 6

/-- The global state. The logger of a module is reached through `modules`
alone, so it stands there itself; `loggers` has what the other two pointers
can show. -/
structure Registry where
  options : LogOptions := {}
  default_logger : Option ℕ := none
  modules : Str → Option Logger := fun _ ↦ none
  default_level : ℕ := Level.info.toInt
  default_cache : Option ℕ := none
  loggers : List Logger := []

inductive Outcome
  | done
  | threw
  | level (level : Level)
  | decided (b : Bool)
  | filtered
  | emitted (emission : Emission)
  deriving DecidableEq

def Outcome.ofLog : Option Emission → Outcome
  | none => filtered
  | some emission => emitted emission

variable (ndebug : Bool) (files : Files)

def createSinks (options : LogOptions) : Option (List Sink) × Disk :=
  let enable_console := if ndebug then options.console else true
  let sinks := if enable_console then [.stdout_color] else []
  if options.file_path ≠ [] then
    let made := rotatingFileSink files options.file_path options.max_file_size options.max_files
      options.truncate
    (made.1.map fun sink ↦ sinks ++ [sink], made.2)
  else (some sinks, files.disk)

def makeLogger (name : Str) (options : LogOptions) : Option Logger × Disk :=
  let made := createSinks ndebug files options
  (made.1.map fun sinks ↦
    { name := name
      sinks := sinks
      level := toSpdlogLevel options.level
      pattern := options.pattern
      flush_level := toSpdlogLevel options.flush_level }, made.2)

def ensureDefault (reg : Registry) : Option (ℕ × Registry) × Disk :=
  match reg.default_logger with
  | some p => (some (p, reg), files.disk)
  | none =>
    let made := makeLogger ndebug files reg.options.logger_name reg.options
    (made.1.map fun logger ↦
      (reg.loggers.length,
        { reg with
          default_logger := some reg.loggers.length
          loggers := reg.loggers ++ [logger] }), made.2)

def ensureModule (key : Str) (reg : Registry) : Option (Logger × Registry) × Disk :=
  match reg.modules key with
  | some logger => (some (logger, reg), files.disk)
  | none =>
    let made := makeLogger ndebug files key { reg.options with logger_name := key }
    (made.1.map fun logger ↦
      (logger, { reg with modules := update reg.modules key (some logger) }), made.2)

/-- `init`. What was stored before the throw stays. -/
def init (options : LogOptions) (reg : Registry) : Outcome × Registry × Disk :=
  let reg := { reg with options := options }
  let made := makeLogger ndebug files options.logger_name options
  match made.1 with
  | none => (.threw, reg, made.2)
  | some logger =>
    (.done,
      { reg with
        default_logger := some reg.loggers.length
        default_level := options.level.toInt
        default_cache := some reg.loggers.length
        loggers := reg.loggers ++ [logger] }, made.2)

/-- `logger::set_level` through a pointer to one of the `loggers`. -/
def Registry.setLoggerLevel (p : ℕ) (level : Level) (reg : Registry) : Registry :=
  { reg with
    loggers := reg.loggers.modify p fun logger ↦ { logger with level := toSpdlogLevel level } }

def setLevel (level : Level) (reg : Registry) : Outcome × Registry × Disk :=
  let reg :=
    { reg with
      options := { reg.options with level := level }
      default_level := level.toInt }
  let ensured := ensureDefault ndebug files reg
  match ensured.1 with
  | none => (.threw, reg, ensured.2)
  | some (p, reg) => (.done, reg.setLoggerLevel p level, ensured.2)

def setModuleLevel (mod : Str) (level : Level) (reg : Registry) : Outcome × Registry × Disk :=
  let ensured := ensureModule ndebug files mod reg
  match ensured.1 with
  | none => (.threw, reg, ensured.2)
  | some (logger, reg) =>
    (.done,
      { reg with
        modules := update reg.modules mod (some { logger with level := toSpdlogLevel level }) },
      ensured.2)

def getLevel (reg : Registry) : Level := .ofInt reg.default_level

def getModuleLevel (mod : Str) (reg : Registry) : Outcome × Registry × Disk :=
  let ensured := ensureModule ndebug files mod reg
  match ensured.1 with
  | none => (.threw, reg, ensured.2)
  | some (logger, reg) => (.level (.ofInt logger.level), reg, ensured.2)

def shouldLog (level : Level) (reg : Registry) : Bool := reg.default_level ≤ level.toInt

def moduleShouldLog (mod : Str) (level : Level) (reg : Registry) : Outcome × Registry × Disk :=
  let ensured := ensureModule ndebug files mod reg
  match ensured.1 with
  | none => (.threw, reg, ensured.2)
  | some (logger, reg) => (.decided (logger.shouldLog (toSpdlogLevel level)), reg, ensured.2)

/-- The logger that `detail::log` uses. -/
def cachedDefault (reg : Registry) : Option (ℕ × Registry) × Disk :=
  match reg.default_cache with
  | some p => (some (p, reg), files.disk)
  | none =>
    let ensured := ensureDefault ndebug files reg
    (ensured.1.map fun (p, reg) ↦ (p, { reg with default_cache := some p }), ensured.2)

def detailLog (level : Level) (msg : Str) (loc : SourceLoc) (reg : Registry) :
    Outcome × Registry × Disk :=
  let cached := cachedDefault ndebug files reg
  match cached.1 with
  | none => (.threw, reg, cached.2)
  | some (p, reg) =>
    (.ofLog (reg.loggers[p]?.bind fun logger ↦ logger.log loc (toSpdlogLevel level) msg), reg,
      cached.2)

def detailLogModule (mod : Str) (level : Level) (msg : Str) (loc : SourceLoc) (reg : Registry) :
    Outcome × Registry × Disk :=
  let ensured := ensureModule ndebug files mod reg
  match ensured.1 with
  | none => (.threw, reg, ensured.2)
  | some (logger, reg) => (.ofLog (logger.log loc (toSpdlogLevel level) msg), reg, ensured.2)

/-- `log_at`, and `log` with no location. The message is formatted already. -/
def log (level : Level) (msg : Str) (loc : SourceLoc) (reg : Registry) :
    Outcome × Registry × Disk :=
  if !shouldLog level reg then (.filtered, reg, files.disk)
  else detailLog ndebug files level msg loc reg

/-- `log_module_at`, and `log_module` with no location. -/
def logModule (mod : Str) (level : Level) (msg : Str) (loc : SourceLoc) (reg : Registry) :
    Outcome × Registry × Disk :=
  match moduleShouldLog ndebug files mod level reg with
  | (.decided true, reg, disk) =>
    detailLogModule ndebug { files with disk := disk } mod level msg loc reg
  | (.decided false, reg, disk) => (.filtered, reg, disk)
  | failed => failed

inductive Call
  | init (options : LogOptions)
  | setLevel (level : Level)
  | setModuleLevel (mod : Str) (level : Level)
  | getLevel
  | getModuleLevel (mod : Str)
  | shouldLog (level : Level)
  | moduleShouldLog (mod : Str) (level : Level)
  | log (level : Level) (msg : Str) (loc : SourceLoc)
  | logModule (mod : Str) (level : Level) (msg : Str) (loc : SourceLoc)

def Call.module? : Call → Option Str
  | .setModuleLevel mod _ | .getModuleLevel mod | .moduleShouldLog mod _ | .logModule mod _ _ _ =>
    some mod
  | .init _ | .setLevel _ | .getLevel | .shouldLog _ | .log _ _ _ => none

/-- A call, with the files it leaves behind. What its message does to them comes
after it. -/
def execute (reg : Registry) : Call → Outcome × Registry × Disk
  | .init options => init ndebug files options reg
  | .setLevel level => setLevel ndebug files level reg
  | .setModuleLevel mod level => setModuleLevel ndebug files mod level reg
  | .getLevel => (.level (getLevel reg), reg, files.disk)
  | .getModuleLevel mod => getModuleLevel ndebug files mod reg
  | .shouldLog level => (.decided (shouldLog level reg), reg, files.disk)
  | .moduleShouldLog mod level => moduleShouldLog ndebug files mod level reg
  | .log level msg loc => log ndebug files level msg loc reg
  | .logModule mod level msg loc => logModule ndebug files mod level msg loc reg

def perform (reg : Registry) (c : Call) : Outcome × Registry :=
  ((execute ndebug files reg c).1, (execute ndebug files reg c).2.1)

def after (reg : Registry) : List (Call × Files) → Registry
  | [] => reg
  | a :: as => after (perform ndebug a.2 reg a.1).2 as

def machine : Machine Registry (Call × Files) where
  init reg := reg = {}
  step reg a := some (perform ndebug a.2 reg a.1).2

variable {ndebug files} {reg reg' : Registry}

theorem toSpdlogLevel_eq (level : Level) : toSpdlogLevel level = level.toInt := by
  cases level <;> rfl

theorem ofLog_ne_threw (emission : Option Emission) : Outcome.ofLog emission ≠ .threw := by
  cases emission with
  | none => exact fun h ↦ by cases h
  | some emission => exact fun h ↦ by cases h

section Specs

variable {options : LogOptions} {name : Str} {logger : Logger} {p : ℕ}

theorem makeLogger_level (h : (makeLogger ndebug files name options).1 = some logger) :
    logger.level = toSpdlogLevel options.level := by
  obtain ⟨sinks, -, rfl⟩ := Option.map_eq_some_iff.mp h
  rfl

theorem ensureDefault_cases (h : (ensureDefault ndebug files reg).1 = some (p, reg')) :
    reg.default_logger = some p ∧ reg' = reg ∨
      reg.default_logger = none ∧ p = reg.loggers.length ∧
        ∃ logger, (makeLogger ndebug files reg.options.logger_name reg.options).1 = some logger ∧
          reg' =
            { reg with
              default_logger := some reg.loggers.length
              loggers := reg.loggers ++ [logger] } := by
  rw [ensureDefault] at h
  split at h
  · rename_i q hq
    cases h
    exact .inl ⟨hq, rfl⟩
  · rename_i hnone
    obtain ⟨logger, hlogger, heq⟩ := Option.map_eq_some_iff.mp h
    cases heq
    exact .inr ⟨hnone, rfl, logger, hlogger, rfl⟩

theorem cachedDefault_some (h : reg.default_cache = some p) :
    (cachedDefault ndebug files reg).1 = some (p, reg) := by
  rw [cachedDefault, h]

theorem cachedDefault_none (h : reg.default_cache = none) :
    (cachedDefault ndebug files reg).1 = (ensureDefault ndebug files reg).1.map
      fun (p, reg) ↦ (p, { reg with default_cache := some p }) := by
  rw [cachedDefault, h]

theorem after_snoc (reg : Registry) (as : List (Call × Files)) (a : Call × Files) :
    after ndebug reg (as ++ [a]) = (perform ndebug a.2 (after ndebug reg as) a.1).2 := by
  induction as generalizing reg with
  | nil => rfl
  | cons b as ih => exact ih _

end Specs

section Modules

variable {m key : Str} {x : Option Logger} {logger : Logger} {c : Call}

def Registry.withModule (m : Str) (x : Option Logger) (reg : Registry) : Registry :=
  { reg with modules := update reg.modules m x }

@[simp] theorem withModule_self (reg : Registry) : reg.withModule m (reg.modules m) = reg := by
  rw [Registry.withModule, update_eq_self]

@[simp] theorem withModule_same (x y : Option Logger) (reg : Registry) :
    (reg.withModule m x).withModule m y = reg.withModule m y := by
  simp only [Registry.withModule, update_idem]

theorem withModule_comm (hne : key ≠ m) (x y : Option Logger) (reg : Registry) :
    (reg.withModule m x).withModule key y = (reg.withModule key y).withModule m x := by
  simp only [Registry.withModule, update_comm hne]

theorem modules_withModule (reg : Registry) : (reg.withModule m x).modules m = x := by
  simp only [Registry.withModule, update_self]

theorem modules_withModule_ne (hne : key ≠ m) (reg : Registry) :
    (reg.withModule m x).modules key = reg.modules key := by
  simp only [Registry.withModule, update_of_ne hne]

/-- The logger that a call on a module works with: the one that exists,
otherwise one with the options of the moment. -/
def moduleLogger (ndebug : Bool) (files : Files) (key : Str) (reg : Registry) : Option Logger :=
  (reg.modules key).or (makeLogger ndebug files key { reg.options with logger_name := key }).1

def moduleDisk (ndebug : Bool) (files : Files) (key : Str) (reg : Registry) : Disk :=
  match reg.modules key with
  | some _ => files.disk
  | none => (makeLogger ndebug files key { reg.options with logger_name := key }).2

theorem ensureModule_eq (key : Str) (reg : Registry) :
    ensureModule ndebug files key reg =
      ((moduleLogger ndebug files key reg).map
        fun logger ↦ (logger, reg.withModule key (some logger)),
        moduleDisk ndebug files key reg) := by
  rw [ensureModule, moduleLogger, moduleDisk]
  cases hmodule : reg.modules key with
  | some logger =>
    simp only [Option.some_or, Option.map_some]
    rw [← hmodule, withModule_self]
  | none => rfl

theorem moduleLogger_some (h : reg.modules m = some logger) :
    moduleLogger ndebug files m reg = some logger := by
  rw [moduleLogger, h, Option.some_or]

theorem moduleDisk_some (h : reg.modules m = some logger) :
    moduleDisk ndebug files m reg = files.disk := by
  rw [moduleDisk, h]

theorem moduleLogger_withModule_ne (hne : key ≠ m) :
    moduleLogger ndebug files key (reg.withModule m x) = moduleLogger ndebug files key reg := by
  simp only [moduleLogger, modules_withModule_ne hne]
  rfl

theorem moduleDisk_withModule_ne (hne : key ≠ m) :
    moduleDisk ndebug files key (reg.withModule m x) = moduleDisk ndebug files key reg := by
  simp only [moduleDisk, modules_withModule_ne hne]
  rfl

def Call.onLogger (logger : Logger) : Call → Outcome × Logger
  | .setModuleLevel _ level => (.done, { logger with level := toSpdlogLevel level })
  | .getModuleLevel _ => (.level (.ofInt logger.level), logger)
  | .moduleShouldLog _ level => (.decided (logger.shouldLog (toSpdlogLevel level)), logger)
  | .logModule _ level msg loc => (.ofLog (logger.log loc (toSpdlogLevel level) msg), logger)
  | .init _ | .setLevel _ | .getLevel | .shouldLog _ | .log _ _ _ => (.done, logger)

theorem execute_threw (hc : c.module? = some m) (h : moduleLogger ndebug files m reg = none) :
    execute ndebug files reg c = (.threw, reg, moduleDisk ndebug files m reg) := by
  cases c <;> cases hc
  all_goals
    simp only [execute, setModuleLevel, getModuleLevel, logModule, moduleShouldLog,
      ensureModule_eq, h, Option.map_none]

theorem execute_logger (hc : c.module? = some m)
    (h : moduleLogger ndebug files m reg = some logger) :
    execute ndebug files reg c = ((c.onLogger logger).1,
      reg.withModule m (some (c.onLogger logger).2), moduleDisk ndebug files m reg) := by
  cases c with
  | setModuleLevel _ level =>
    cases hc
    simp only [execute, setModuleLevel, ensureModule_eq, h, Option.map_some]
    refine congrArg (Prod.mk _) (congrArg (Prod.mk · _) ?_)
    exact withModule_same _ _ reg
  | getModuleLevel =>
    cases hc
    simp only [execute, getModuleLevel, ensureModule_eq, h, Option.map_some]
    rfl
  | moduleShouldLog =>
    cases hc
    simp only [execute, moduleShouldLog, ensureModule_eq, h, Option.map_some]
    rfl
  | logModule _ level msg loc =>
    cases hc
    simp only [execute, logModule, moduleShouldLog, ensureModule_eq, h, Option.map_some,
      Call.onLogger]
    cases hlog : logger.shouldLog (toSpdlogLevel level) with
    | true =>
      have hthere := modules_withModule (m := m) (x := some logger) reg
      simp only [detailLogModule, ensureModule_eq, moduleLogger_some hthere, Option.map_some,
        withModule_same, moduleDisk_some hthere]
    | false => simp only [Logger.log, hlog, Bool.false_eq_true, if_false, Outcome.ofLog]
  | init | setLevel | getLevel | shouldLog | log => cases hc

theorem perform_threw (hc : c.module? = some m) (h : moduleLogger ndebug files m reg = none) :
    perform ndebug files reg c = (.threw, reg) := by
  rw [perform, execute_threw hc h]

theorem perform_logger (hc : c.module? = some m)
    (h : moduleLogger ndebug files m reg = some logger) :
    perform ndebug files reg c =
      ((c.onLogger logger).1, reg.withModule m (some (c.onLogger logger).2)) := by
  rw [perform, execute_logger hc h]

variable (ndebug files) in
theorem ensureDefault_withModule (m : Str) (x : Option Logger) (reg : Registry) :
    ensureDefault ndebug files (reg.withModule m x) =
      ((ensureDefault ndebug files reg).1.map fun (p, reg) ↦ (p, reg.withModule m x),
        (ensureDefault ndebug files reg).2) := by
  simp only [ensureDefault, Registry.withModule]
  cases h : reg.default_logger with
  | some p => simp only [Option.map_some, h]
  | none =>
    simp only [Option.map_map]
    rfl

theorem cachedDefault_withModule (m : Str) (x : Option Logger) (reg : Registry) :
    cachedDefault ndebug files (reg.withModule m x) =
      ((cachedDefault ndebug files reg).1.map fun (p, reg) ↦ (p, reg.withModule m x),
        (cachedDefault ndebug files reg).2) := by
  rw [cachedDefault, cachedDefault, ensureDefault_withModule]
  simp only [Registry.withModule]
  cases h : reg.default_cache with
  | some p => simp only [Option.map_some, h]
  | none =>
    simp only [Option.map_map]
    rfl

/-- Calls on the default logger neither read nor write the modules. -/
theorem execute_withModule (hc : c.module? = none) (m : Str) (x : Option Logger)
    (reg : Registry) :
    execute ndebug files (reg.withModule m x) c = ((execute ndebug files reg c).1,
      (execute ndebug files reg c).2.1.withModule m x, (execute ndebug files reg c).2.2) := by
  cases c with
  | init options =>
    simp only [execute, init]
    cases (makeLogger ndebug files options.logger_name options).1 <;> rfl
  | setLevel level =>
    have hensure := ensureDefault_withModule ndebug files m x
      { reg with
        options := { reg.options with level := level }
        default_level := level.toInt }
    simp only [execute, setLevel]
    simp only [Registry.withModule] at hensure ⊢
    rw [hensure]
    cases (ensureDefault ndebug files
      { reg with
        options := { reg.options with level := level }
        default_level := level.toInt }).1 <;> rfl
  | getLevel => rfl
  | shouldLog => rfl
  | log level msg loc =>
    have hshould : Logging.shouldLog level (reg.withModule m x) = Logging.shouldLog level reg := rfl
    simp only [execute, log, hshould]
    cases Logging.shouldLog level reg with
    | false => rfl
    | true =>
      simp only [detailLog, cachedDefault_withModule]
      cases (cachedDefault ndebug files reg).1 <;> rfl
  | setModuleLevel | getModuleLevel | moduleShouldLog | logModule => cases hc

theorem perform_modules (hc : c.module? = none) (m : Str) :
    (perform ndebug files reg c).2.modules m = reg.modules m := by
  have hself : execute ndebug files (reg.withModule m (reg.modules m)) c = _ :=
    execute_withModule hc m (reg.modules m) reg
  rw [withModule_self] at hself
  have hmodules := congrArg (fun r ↦ r.2.1.modules m) hself
  rw [modules_withModule] at hmodules
  exact hmodules

end Modules

end LivioArk.Log.Logging
