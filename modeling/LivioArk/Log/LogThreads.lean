import LivioArk.Library.Hindsight
import LivioArk.Log.LevelCheck

namespace LivioArk.Log.LogThreads

open Function LivioArk.Library.Transition Logging LevelCheck

variable {Tid : Type}

inductive Pc
  | idle
  | called (c : Call)
  | initLevel (options : LogOptions) (p : ℕ)
  | initCache (options : LogOptions) (p : ℕ)
  | setLevelStore (level : Level)
  | setLevelEnsure (level : Level)
  | cacheLoad (level : Level) (msg : Str) (loc : SourceLoc)
  | cacheLock (level : Level) (msg : Str) (loc : SourceLoc)
  | cacheStore (level : Level) (msg : Str) (loc : SourceLoc) (p : ℕ)
  | cacheUnlock (level : Level) (msg : Str) (loc : SourceLoc) (p : ℕ)
  | emit (level : Level) (msg : Str) (loc : SourceLoc) (p : ℕ)
  | moduleLock (mod : Str) (level : Level) (msg : Str) (loc : SourceLoc)
  | moduleEmit (mod : Str) (level : Level) (msg : Str) (loc : SourceLoc)
  | unlock (o : Outcome)

def Pc.isIdle : Pc → Bool
  | .idle => true
  | _ => false

/-- The registry among threads. Steps are the loads and stores that no mutex
guards; what only the owner of the mutex can see is part of the step before or
after it. `entered` has the sections in the order of the mutex, each as a call
that does the same to the registry. -/
structure Logs (Tid : Type) where
  reg : Registry := {}
  mutex : Option Tid := none
  pcs : Tid → Pc := fun _ ↦ .idle
  returned : List (Tid × Outcome) := []
  entered : List (Tid × Call × Files) := []

inductive Action (Tid : Type)
  | call (t : Tid) (c : Call)
  | work (t : Tid) (files : Files)

variable [DecidableEq Tid] (ndebug : Bool)

namespace Logs

def goto (s : Logs Tid) (t : Tid) (pc : Pc) : Logs Tid := { s with pcs := update s.pcs t pc }

def answer (s : Logs Tid) (t : Tid) (o : Outcome) : Logs Tid :=
  { s with pcs := update s.pcs t .idle, returned := s.returned ++ [(t, o)] }

def enter (s : Logs Tid) (t : Tid) (a : Call × Files) (reg : Registry) (pc : Pc) :
    Option (Logs Tid) :=
  if s.mutex.isNone then
    some
      { s with
        reg := reg
        mutex := some t
        pcs := update s.pcs t pc
        entered := s.entered ++ [(t, a)] }
  else none

/-- A section that shows at most one store to threads without the mutex. -/
def within (s : Logs Tid) (t : Tid) (a : Call × Files) (next : Outcome → Logs Tid → Logs Tid) :
    Option (Logs Tid) :=
  if s.mutex.isNone then
    let (o, reg) := perform ndebug a.2 s.reg a.1
    some (next o { s with reg := reg, entered := s.entered ++ [(t, a)] })
  else none

def initLock (s : Logs Tid) (t : Tid) (options : LogOptions) (files : Files) :
    Option (Logs Tid) :=
  let reg := { s.reg with options := options }
  match (makeLogger ndebug files options.logger_name options).1 with
  | none => s.enter t (.init options, files) reg (.unlock .threw)
  | some logger =>
    s.enter t (.init options, files)
      { reg with
        default_logger := some reg.loggers.length
        loggers := reg.loggers ++ [logger] }
      (.initLevel options reg.loggers.length)

def start (s : Logs Tid) (t : Tid) (files : Files) : Call → Option (Logs Tid)
  | .init options => s.initLock ndebug t options files
  | .setLevel level =>
    s.enter t (.setLevel level, files)
      { s.reg with options := { s.reg.options with level := level } } (.setLevelStore level)
  | .getLevel => some (s.answer t (.level (getLevel s.reg)))
  | .shouldLog level => some (s.answer t (.decided (shouldLog level s.reg)))
  | .log level msg loc =>
    if !shouldLog level s.reg then some (s.answer t .filtered)
    else some (s.goto t (.cacheLoad level msg loc))
  | .logModule mod level msg loc =>
    s.within ndebug t (.moduleShouldLog mod level, files) fun
      | .decided true, s => s.goto t (.moduleLock mod level msg loc)
      | .decided false, s => s.answer t .filtered
      | failed, s => s.answer t failed
  | .setModuleLevel mod level =>
    s.within ndebug t (.setModuleLevel mod level, files) fun o s ↦ s.answer t o
  | .getModuleLevel mod => s.within ndebug t (.getModuleLevel mod, files) fun o s ↦ s.answer t o
  | .moduleShouldLog mod level =>
    s.within ndebug t (.moduleShouldLog mod level, files) fun o s ↦ s.answer t o

def setLevelEnd (s : Logs Tid) (t : Tid) (level : Level) (files : Files) : Logs Tid :=
  match (ensureDefault ndebug files s.reg).1 with
  | none => s.goto t (.unlock .threw)
  | some (p, reg) => { s.goto t (.unlock .done) with reg := reg.setLoggerLevel p level }

/-- The default logger for a thread that has seen no cached one. No level
filters the call that stands for this section. -/
def cacheEnsure (s : Logs Tid) (t : Tid) (level : Level) (msg : Str) (loc : SourceLoc)
    (files : Files) : Option (Logs Tid) :=
  match (ensureDefault ndebug files s.reg).1 with
  | none => s.enter t (.log .off msg loc, files) s.reg (.unlock .threw)
  | some (p, reg) => s.enter t (.log .off msg loc, files) reg (.cacheStore level msg loc p)

def work (s : Logs Tid) (t : Tid) (files : Files) : Option (Logs Tid) :=
  match s.pcs t with
  | .idle => none
  | .called c => s.start ndebug t files c
  | .initLevel options p =>
    some
      { s.goto t (.initCache options p) with
        reg := { s.reg with default_level := options.level.toInt } }
  | .initCache _ p =>
    some { s.goto t (.unlock .done) with reg := { s.reg with default_cache := some p } }
  | .setLevelStore level =>
    some
      { s.goto t (.setLevelEnsure level) with
        reg := { s.reg with default_level := level.toInt } }
  | .setLevelEnsure level => some (s.setLevelEnd ndebug t level files)
  | .cacheLoad level msg loc =>
    match s.reg.default_cache with
    | some p => some (s.goto t (.emit level msg loc p))
    | none => some (s.goto t (.cacheLock level msg loc))
  | .cacheLock level msg loc => s.cacheEnsure ndebug t level msg loc files
  | .cacheStore level msg loc p =>
    some
      { s.goto t (.cacheUnlock level msg loc p) with
        reg := { s.reg with default_cache := some p } }
  | .cacheUnlock level msg loc p =>
    some { s.goto t (.emit level msg loc p) with mutex := none }
  | .emit level msg loc p =>
    some (s.answer t (.ofLog (s.reg.loggers[p]?.bind fun logger ↦
      logger.log loc (toSpdlogLevel level) msg)))
  | .moduleLock mod level msg loc =>
    s.within ndebug t (.getModuleLevel mod, files) fun
      | .threw, s => s.answer t .threw
      | _, s => s.goto t (.moduleEmit mod level msg loc)
  | .moduleEmit mod level msg loc =>
    some (s.answer t (.ofLog ((s.reg.modules mod).bind fun logger ↦
      logger.log loc (toSpdlogLevel level) msg)))
  | .unlock o => some { s.answer t o with mutex := none }

end Logs

def step (s : Logs Tid) : Action Tid → Option (Logs Tid)
  | .call t c =>
    match s.pcs t with
    | .idle => some (s.goto t (.called c))
    | _ => none
  | .work t files => s.work ndebug t files

def machine (Tid : Type) [DecidableEq Tid] : Machine (Logs Tid) (Action Tid) where
  init s := s = {}
  step := step ndebug

def ready (s : Logs Tid) : Action Tid → Bool
  | .call _ _ => true
  | .work t files =>
    match s.pcs t with
    | .called (.init options) => (makeLogger ndebug files options.logger_name options).1.isSome
    | _ => true

def Ready (s : Logs Tid) (a : Action Tid) : Prop := ready ndebug s a = true

instance (s : Logs Tid) (a : Action Tid) : Decidable (Ready ndebug s a) :=
  inferInstanceAs (Decidable (_ = true))

end LivioArk.Log.LogThreads
