import LivioArk.Library.Progress
import LivioArk.Log.LogThreads

namespace LivioArk.Log.LogThreads

open Function LivioArk.Library.Transition Logging LevelCheck

variable {Tid : Type} {ndebug : Bool} {files : Files} {reg reg' : Registry} {c : Call}

section Settled

/-- Where nobody has made the default logger nobody has called `init`, so only
the level of the options can differ from the defaults. -/
def Plain (reg : Registry) : Prop :=
  reg.default_logger = none → reg.options = { level := reg.options.level }

theorem makeLogger_plain (ndebug : Bool) (level : Level) (name : Str) :
    ∃ logger, ∀ files, (makeLogger ndebug files name { level := level }).1 = some logger := by
  cases ndebug with
  | false => exact ⟨_, fun _ ↦ rfl⟩
  | true => exact ⟨_, fun _ ↦ rfl⟩

theorem ensureDefault_plain (ndebug : Bool) (h : Plain reg) :
    ∃ p reg', reg'.default_logger = some p ∧
      ∀ files, (ensureDefault ndebug files reg).1 = some (p, reg') := by
  cases hdefault : reg.default_logger with
  | some p =>
    refine ⟨p, reg, hdefault, fun files ↦ ?_⟩
    rw [ensureDefault, hdefault]
  | none =>
    have hplain := h hdefault
    obtain ⟨logger, hlogger⟩ := makeLogger_plain ndebug reg.options.level reg.options.logger_name
    rw [← hplain] at hlogger
    refine ⟨reg.loggers.length,
      { reg with
        default_logger := some reg.loggers.length
        loggers := reg.loggers ++ [logger] }, rfl, fun files ↦ ?_⟩
    simp only [ensureDefault, hdefault, hlogger, Option.map_some]

/-- The registry where no call is halfway and no `init` has thrown. -/
structure Settled (reg : Registry) : Prop extends Copied reg where
  plain : Plain reg

theorem settled_init : Settled {} where
  toCopied := copied_init
  plain := fun _ ↦ rfl

theorem Settled.withModule (h : Settled reg) (m : Str) (x : Option Logger) :
    Settled (reg.withModule m x) where
  toCopied := h.toCopied.withModule m x
  plain := h.plain

theorem Settled.cachedDefault {p : ℕ} (h : Settled reg)
    (hp : (Logging.cachedDefault ndebug files reg).1 = some (p, reg')) : Settled reg' := by
  obtain ⟨hcopied, hdefault, -⟩ := h.toCopied.cachedDefault hp
  refine ⟨hcopied, fun hnone ↦ ?_⟩
  rw [hdefault] at hnone
  cases hnone

/-- A call keeps the registry settled unless it is an `init` that throws. -/
theorem Settled.perform (h : Settled reg)
    (hready : ∀ options, c = .init options →
      (makeLogger ndebug files options.logger_name options).1.isSome = true) :
    Settled (Logging.perform ndebug files reg c).2 := by
  cases hc : c.module? with
  | some m =>
    cases hlogger : moduleLogger ndebug files m reg with
    | none =>
      rw [perform_threw hc hlogger]
      exact h
    | some logger =>
      rw [perform_logger hc hlogger]
      exact h.withModule m _
  | none =>
    cases c with
    | init options =>
      obtain ⟨logger, hlogger⟩ := Option.isSome_iff_exists.mp (hready options rfl)
      have hdone : (Logging.init ndebug files options reg).1 ≠ .threw := by
        rw [Logging.init, hlogger]
        exact fun he ↦ by cases he
      refine ⟨Copied.init hdone, fun hnone ↦ ?_⟩
      simp only [Logging.perform, execute, Logging.init, hlogger] at hnone
      cases hnone
    | setLevel level =>
      have hplain : Plain
          { reg with
            options := { reg.options with level := level }
            default_level := level.toInt } := by
        intro hnone
        have hoptions := h.plain hnone
        simp only
        rw [hoptions]
      obtain ⟨p, made, hmade, hensure⟩ := ensureDefault_plain ndebug hplain
      have hdone : (Logging.setLevel ndebug files level reg).1 ≠ .threw := by
        simp only [Logging.setLevel, hensure files]
        exact fun he ↦ by cases he
      refine ⟨h.toCopied.setLevel level hdone, fun hnone ↦ ?_⟩
      simp only [Logging.perform, execute, Logging.setLevel, hensure files,
        Registry.setLoggerLevel] at hnone
      rw [hmade] at hnone
      cases hnone
    | getLevel | shouldLog => exact h
    | log level msg loc =>
      simp only [Logging.perform, execute, log, detailLog]
      cases shouldLog level reg with
      | false => exact h
      | true =>
        cases hp : (Logging.cachedDefault ndebug files reg).1 with
        | none => exact h
        | some made => exact h.cachedDefault hp
    | setModuleLevel | getModuleLevel | moduleShouldLog | logModule => cases hc

end Settled

section Rest

def Pc.inside : Pc → Bool
  | .initLevel _ _ | .initCache _ _ | .setLevelStore _ | .setLevelEnsure _ | .cacheStore _ _ _ _
  | .cacheUnlock _ _ _ _ | .unlock _ => true
  | .idle | .called _ | .cacheLoad _ _ _ | .cacheLock _ _ _ | .emit _ _ _ _ | .moduleLock _ _ _ _
  | .moduleEmit _ _ _ _ => false

def finishLevel (ndebug : Bool) (level : Level) (reg : Registry) : Registry :=
  match (ensureDefault ndebug noFiles reg).1 with
  | none => reg
  | some (p, reg) => reg.setLoggerLevel p level

def Pc.rest (ndebug : Bool) : Pc → Registry → Registry
  | .initLevel options p, reg =>
    { reg with default_level := options.level.toInt, default_cache := some p }
  | .initCache _ p, reg => { reg with default_cache := some p }
  | .setLevelStore level, reg => finishLevel ndebug level { reg with default_level := level.toInt }
  | .setLevelEnsure level, reg => finishLevel ndebug level reg
  | .cacheStore _ _ _ p, reg => { reg with default_cache := some p }
  | _, reg => reg

def isUpdate : Call → Bool
  | .init _ | .setLevel _ | .setModuleLevel _ _ => true
  | .getLevel | .getModuleLevel _ | .shouldLog _ | .moduleShouldLog _ _ | .log _ _ _
  | .logModule _ _ _ _ => false

/-- The update that a thread has called and that has not entered yet. -/
def Pc.due : Pc → List Call
  | .called c => [c].filter isUpdate
  | _ => []

theorem due_inside {pc : Pc} (h : pc.inside = true) : pc.due = [] := by
  cases pc with
  | called => cases h
  | _ => rfl

/-- The registry when the owner of the mutex is done with it. -/
def Logs.future (ndebug : Bool) (s : Logs Tid) : Registry :=
  match s.mutex with
  | none => s.reg
  | some t => (s.pcs t).rest ndebug s.reg

/-- What sequential calls in the order of the sections make of the registry. -/
def Logs.settled (ndebug : Bool) (s : Logs Tid) : Registry :=
  after ndebug {} (s.entered.map Prod.snd)

variable (ndebug) in
theorem finishLevel_eq (h : Plain reg) (level : Level) :
    ∃ p made, (∀ files, (ensureDefault ndebug files reg).1 = some (p, made)) ∧
      finishLevel ndebug level reg = made.setLoggerLevel p level := by
  obtain ⟨p, made, -, hensure⟩ := ensureDefault_plain ndebug h
  refine ⟨p, made, hensure, ?_⟩
  rw [finishLevel, hensure noFiles]

theorem plain_level (h : Plain reg) (level : Level) :
    Plain { reg with options := { reg.options with level := level } } := by
  intro hnone
  have hoptions := h hnone
  simp only
  rw [hoptions]

theorem rest_setLevel (h : Plain reg) (files : Files) (level : Level) :
    (Pc.setLevelStore level).rest ndebug
        { reg with options := { reg.options with level := level } } =
      (perform ndebug files reg (.setLevel level)).2 := by
  have hplain : Plain
      { reg with
        options := { reg.options with level := level }
        default_level := level.toInt } := plain_level h level
  obtain ⟨p, made, hensure, hfinish⟩ := finishLevel_eq ndebug hplain level
  simp only [Pc.rest, perform, execute, setLevel, hensure files]
  exact hfinish

/-- The way of `detail::log` to the default logger through the mutex. Who has
stored it meanwhile has stored the same. -/
theorem rest_cacheStore (h : Settled reg) {p : ℕ} (level : Level) (msg : Str) (loc : SourceLoc)
    (hp : (ensureDefault ndebug files reg).1 = some (p, reg')) :
    (Pc.cacheStore level msg loc p).rest ndebug reg' =
      (perform ndebug files reg (.log .off msg loc)).2 := by
  have hoff : shouldLog .off reg = true := by
    have hle : reg.options.level.toInt ≤ 6 := by cases reg.options.level <;> decide
    rw [shouldLog, h.threshold]
    exact decide_eq_true hle
  simp only [perform, execute, log, hoff, Bool.not_true, Bool.false_eq_true, if_false, detailLog,
    Pc.rest]
  cases hcache : reg.default_cache with
  | none => rw [cachedDefault_none hcache, hp, Option.map_some]
  | some q =>
    have hdefault : reg.default_logger = some q := by
      cases h.cache with
      | inl hnone =>
        rw [hcache] at hnone
        cases hnone
      | inr hsame => rw [← hsame, hcache]
    simp only [ensureDefault, hdefault, Option.some.injEq, Prod.mk.injEq] at hp
    obtain ⟨rfl, rfl⟩ := hp
    have hcached : (cachedDefault ndebug files reg).1 = some (q, reg) := by
      rw [cachedDefault, hcache]
    rw [hcached, ← hcache]

end Rest

section Moves

variable {s s' : Logs Tid} {t : Tid}

theorem within_some {a : Call × Files} {next : Outcome → Logs Tid → Logs Tid}
    (hs : s.within ndebug t a next = some s') :
    s.mutex = none ∧ s' = next (perform ndebug a.2 s.reg a.1).1
      { s with reg := (perform ndebug a.2 s.reg a.1).2, entered := s.entered ++ [(t, a)] } := by
  rw [Logs.within] at hs
  split at hs
  · rename_i hfree
    exact ⟨Option.isNone_iff_eq_none.mp hfree, (Option.some.inj hs).symm⟩
  · cases hs

variable [DecidableEq Tid]

inductive Moves (ndebug : Bool) (s : Logs Tid) (t : Tid) : Logs Tid → Prop
  | look {pc : Pc} {rs : List (Tid × Outcome)} : (s.pcs t).inside = false → pc.inside = false →
      (s.pcs t).due = pc.due →
      Moves ndebug s t { s with pcs := update s.pcs t pc, returned := rs }
  | lock {a : Call × Files} {reg : Registry} {pc : Pc} : s.mutex = none →
      (s.pcs t).inside = false → pc.inside = true →
      (∀ options, a.1 = .init options →
        (makeLogger ndebug a.2 options.logger_name options).1.isSome = true) →
      pc.rest ndebug reg = (perform ndebug a.2 s.reg a.1).2 →
      (s.pcs t).due = [a.1].filter isUpdate →
      Moves ndebug s t
        { s with
          reg := reg
          mutex := some t
          pcs := update s.pcs t pc
          entered := s.entered ++ [(t, a)] }
  | within {a : Call × Files} {pc : Pc} {rs : List (Tid × Outcome)} : s.mutex = none →
      (s.pcs t).inside = false → pc.inside = false → a.1.module?.isSome = true →
      (s.pcs t).due = [a.1].filter isUpdate → pc.due = [] →
      Moves ndebug s t
        { s with
          reg := (perform ndebug a.2 s.reg a.1).2
          pcs := update s.pcs t pc
          returned := rs
          entered := s.entered ++ [(t, a)] }
  | inner {reg : Registry} {pc : Pc} : (s.pcs t).inside = true → pc.inside = true →
      pc.rest ndebug reg = (s.pcs t).rest ndebug s.reg →
      Moves ndebug s t { s with reg := reg, pcs := update s.pcs t pc }
  | unlock {pc : Pc} {rs : List (Tid × Outcome)} : (s.pcs t).inside = true →
      (s.pcs t).rest ndebug s.reg = s.reg → pc.inside = false → pc.due = [] →
      Moves ndebug s t { s with mutex := none, pcs := update s.pcs t pc, returned := rs }

theorem enter_some {a : Call × Files} {reg : Registry} {pc : Pc}
    (hs : s.enter t a reg pc = some s') :
    s.mutex = none ∧ s' =
      { s with
        reg := reg
        mutex := some t
        pcs := update s.pcs t pc
        entered := s.entered ++ [(t, a)] } := by
  rw [Logs.enter] at hs
  split at hs
  · rename_i hfree
    exact ⟨Option.isNone_iff_eq_none.mp hfree, (Option.some.inj hs).symm⟩
  · cases hs

theorem start_moves (hpc : s.pcs t = .called c) (hsettled : s.mutex = none → Settled s.reg)
    (hready : Ready ndebug s (.work t files)) (hs : s.start ndebug t files c = some s') :
    Moves ndebug s t s' := by
  have hout : (s.pcs t).inside = false := by
    rw [hpc]
    rfl
  have hdue : (s.pcs t).due = [c].filter isUpdate := by
    rw [hpc]
    rfl
  cases c with
  | init options =>
    have hsome : (makeLogger ndebug files options.logger_name options).1.isSome = true := by
      rw [Ready, ready, hpc] at hready
      exact hready
    obtain ⟨logger, hlogger⟩ := Option.isSome_iff_exists.mp hsome
    simp only [Logs.start, Logs.initLock, hlogger] at hs
    obtain ⟨hfree, rfl⟩ := enter_some hs
    refine .lock hfree hout rfl ?_ ?_ hdue
    · intro options' he
      cases he
      exact hsome
    · simp only [Pc.rest, perform, execute, init, hlogger]
  | setLevel level =>
    obtain ⟨hfree, rfl⟩ := enter_some hs
    refine .lock hfree hout rfl ?_ (rest_setLevel (hsettled hfree).plain files level) hdue
    intro options he
    cases he
  | getLevel | shouldLog =>
    obtain rfl := Option.some.inj hs
    exact .look hout rfl hdue
  | log level msg loc =>
    simp only [Logs.start] at hs
    split at hs
    · obtain rfl := Option.some.inj hs
      exact .look hout rfl hdue
    · obtain rfl := Option.some.inj hs
      exact .look hout rfl hdue
  | logModule mod level msg loc =>
    simp only [Logs.start] at hs
    obtain ⟨hfree, rfl⟩ := within_some hs
    split
    · exact .within hfree hout rfl rfl hdue rfl
    · exact .within hfree hout rfl rfl hdue rfl
    · exact .within hfree hout rfl rfl hdue rfl
  | setModuleLevel | getModuleLevel | moduleShouldLog =>
    simp only [Logs.start] at hs
    obtain ⟨hfree, rfl⟩ := within_some hs
    exact .within hfree hout rfl rfl hdue rfl

theorem work_moves (hplain : Plain s.reg) (hsettled : s.mutex = none → Settled s.reg)
    (hready : Ready ndebug s (.work t files)) (hs : s.work ndebug t files = some s') :
    Moves ndebug s t s' := by
  rw [Logs.work] at hs
  cases hpc : s.pcs t with
  | idle =>
    rw [hpc] at hs
    cases hs
  | called c =>
    rw [hpc] at hs
    exact start_moves hpc hsettled hready hs
  | initLevel | initCache | setLevelStore | cacheStore =>
    rw [hpc] at hs
    obtain rfl := Option.some.inj hs
    exact .inner (by rw [hpc]; rfl) rfl (by rw [hpc]; rfl)
  | setLevelEnsure level =>
    rw [hpc] at hs
    obtain rfl := Option.some.inj hs
    obtain ⟨p, made, hensure, hfinish⟩ := finishLevel_eq ndebug hplain level
    simp only [Logs.setLevelEnd, hensure files]
    refine .inner (by rw [hpc]; rfl) rfl ?_
    rw [hpc]
    exact hfinish.symm
  | cacheLoad level msg loc =>
    simp only [hpc] at hs
    split at hs
    · obtain rfl := Option.some.inj hs
      exact .look (by rw [hpc]; rfl) rfl (by rw [hpc]; rfl)
    · obtain rfl := Option.some.inj hs
      exact .look (by rw [hpc]; rfl) rfl (by rw [hpc]; rfl)
  | cacheLock level msg loc =>
    simp only [hpc] at hs
    obtain ⟨p, made, -, hensure⟩ := ensureDefault_plain ndebug hplain
    rw [Logs.cacheEnsure, hensure files] at hs
    obtain ⟨hfree, rfl⟩ := enter_some hs
    refine .lock hfree (by rw [hpc]; rfl) rfl ?_
      (rest_cacheStore (hsettled hfree) level msg loc (hensure files)) (by rw [hpc]; rfl)
    intro options he
    cases he
  | cacheUnlock | unlock =>
    rw [hpc] at hs
    obtain rfl := Option.some.inj hs
    exact .unlock (by rw [hpc]; rfl) (by rw [hpc]; rfl) rfl rfl
  | emit | moduleEmit =>
    rw [hpc] at hs
    obtain rfl := Option.some.inj hs
    exact .look (by rw [hpc]; rfl) rfl (by rw [hpc]; rfl)
  | moduleLock mod level msg loc =>
    simp only [hpc] at hs
    obtain ⟨hfree, rfl⟩ := within_some hs
    split
    · exact .within hfree (by rw [hpc]; rfl) rfl rfl (by rw [hpc]; rfl) rfl
    · exact .within hfree (by rw [hpc]; rfl) rfl rfl (by rw [hpc]; rfl) rfl

end Moves

section Grown

/-- What a step leaves of the registry. Other steps than those that end with all
copies of the level alike leave the cached logger and all loggers as they are. -/
structure Grown (reg reg' : Registry) : Prop where
  length : reg.loggers.length ≤ reg'.loggers.length
  cache : reg.default_cache ≠ none → reg'.default_cache ≠ none
  modules : ∀ mod, reg.modules mod ≠ none → reg'.modules mod ≠ none
  frame : (reg'.default_cache = reg.default_cache ∧
      ∀ p < reg.loggers.length, reg'.loggers[p]? = reg.loggers[p]?) ∨
    Copied reg' ∧ ∀ p < reg.loggers.length,
      reg'.loggers[p]? = reg.loggers[p]? ∨ reg'.default_logger = some p

theorem Grown.of_levels (hcache : reg'.default_cache = reg.default_cache)
    (hmodules : reg'.modules = reg.modules) (hloggers : reg'.loggers = reg.loggers) :
    Grown reg reg' where
  length := by rw [hloggers]
  cache := by
    rw [hcache]
    exact id
  modules := by
    rw [hmodules]
    exact fun _ ↦ id
  frame := by
    refine .inl ⟨hcache, fun p _ ↦ ?_⟩
    rw [hloggers]

theorem Grown.of_append {logger : Logger} (hcache : reg'.default_cache = reg.default_cache)
    (hmodules : reg'.modules = reg.modules) (hloggers : reg'.loggers = reg.loggers ++ [logger]) :
    Grown reg reg' where
  length := by
    rw [hloggers, List.length_append]
    exact Nat.le_add_right _ _
  cache := by
    rw [hcache]
    exact id
  modules := by
    rw [hmodules]
    exact fun _ ↦ id
  frame := by
    refine .inl ⟨hcache, fun p hp ↦ ?_⟩
    rw [hloggers, List.getElem?_append_left hp]

theorem Grown.of_cache {p : ℕ} (hcopied : Copied { reg with default_cache := some p }) :
    Grown reg { reg with default_cache := some p } where
  length := Nat.le_refl _
  cache := fun _ he ↦ by cases he
  modules := fun _ ↦ id
  frame := .inr ⟨hcopied, fun _ _ ↦ .inl rfl⟩

theorem grown_ensureDefault {p : ℕ} (hp : (ensureDefault ndebug files reg).1 = some (p, reg')) :
    Grown reg reg' := by
  cases ensureDefault_cases hp with
  | inl hold =>
    obtain ⟨-, rfl⟩ := hold
    exact .of_levels rfl rfl rfl
  | inr hnew =>
    obtain ⟨-, -, logger, -, rfl⟩ := hnew
    exact .of_append rfl rfl rfl

theorem grown_setLoggerLevel {p : ℕ} {level : Level}
    (hp : (ensureDefault ndebug files reg).1 = some (p, reg'))
    (hcopied : Copied (reg'.setLoggerLevel p level)) :
    Grown reg (reg'.setLoggerLevel p level) := by
  have hgrown := grown_ensureDefault hp
  have hdefault : reg'.default_logger = some p := by
    cases ensureDefault_cases hp with
    | inl hold =>
      obtain ⟨hdefault, rfl⟩ := hold
      exact hdefault
    | inr hnew =>
      obtain ⟨-, rfl, logger, -, rfl⟩ := hnew
      rfl
  have hloggers : ∀ q < reg.loggers.length, reg'.loggers[q]? = reg.loggers[q]? := by
    intro q hq
    cases ensureDefault_cases hp with
    | inl hold =>
      obtain ⟨-, rfl⟩ := hold
      rfl
    | inr hnew =>
      obtain ⟨-, -, logger, -, rfl⟩ := hnew
      exact List.getElem?_append_left hq
  refine ⟨?_, hgrown.cache, hgrown.modules, .inr ⟨hcopied, fun q hq ↦ ?_⟩⟩
  · simp only [Registry.setLoggerLevel, List.length_modify]
    exact hgrown.length
  · by_cases hne : p = q
    · right
      rw [← hne]
      exact hdefault
    · left
      rw [← hloggers q hq]
      exact List.getElem?_modify_ne _ _ hne

theorem grown_module {a : Call × Files} (ha : a.1.module?.isSome = true) :
    Grown reg (perform ndebug a.2 reg a.1).2 := by
  obtain ⟨m, hm⟩ := Option.isSome_iff_exists.mp ha
  cases hlogger : moduleLogger ndebug a.2 m reg with
  | none =>
    rw [perform_threw hm hlogger]
    exact .of_levels rfl rfl rfl
  | some logger =>
    rw [perform_logger hm hlogger]
    refine ⟨Nat.le_refl _, id, fun mod hmod ↦ ?_, .inl ⟨rfl, fun _ _ ↦ rfl⟩⟩
    by_cases he : mod = m
    · rw [he, modules_withModule]
      exact fun hnone ↦ by cases hnone
    · rw [modules_withModule_ne he]
      exact hmod

end Grown

section Inv

def Pc.logger? : Pc → Option ℕ
  | .cacheUnlock _ _ _ p | .emit _ _ _ p => some p
  | _ => none

def Pc.module? : Pc → Option Str
  | .moduleEmit mod _ _ _ => some mod
  | _ => none

def Found (reg : Registry) (pc : Pc) : Prop :=
  (∀ p, pc.logger? = some p → p < reg.loggers.length ∧ reg.default_cache ≠ none) ∧
    ∀ mod, pc.module? = some mod → reg.modules mod ≠ none

theorem Found.of_none {pc : Pc} (hlogger : pc.logger? = none) (hmodule : pc.module? = none) :
    Found reg pc := by
  refine ⟨fun p hp ↦ ?_, fun mod hmod ↦ ?_⟩
  · rw [hlogger] at hp
    cases hp
  · rw [hmodule] at hmod
    cases hmod

theorem Found.of_cache {pc : Pc} {p : ℕ}
    (hcached : ∀ p, reg.default_cache = some p → p < reg.loggers.length)
    (hcache : reg.default_cache = some p) (hlogger : pc.logger? = some p)
    (hmodule : pc.module? = none) : Found reg pc := by
  refine ⟨fun q hq ↦ ?_, fun mod hmod ↦ ?_⟩
  · obtain rfl := Option.some.inj (hlogger.symm.trans hq)
    refine ⟨hcached p hcache, ?_⟩
    rw [hcache]
    exact fun he ↦ by cases he
  · rw [hmodule] at hmod
    cases hmod

theorem Found.grown {pc : Pc} (h : Found reg pc) (hgrown : Grown reg reg') : Found reg' pc :=
  ⟨fun p hp ↦ ⟨Nat.lt_of_lt_of_le (h.1 p hp).1 hgrown.length, hgrown.cache (h.1 p hp).2⟩,
    fun mod hmod ↦ hgrown.modules mod (h.2 mod hmod)⟩

structure Inv (ndebug : Bool) (s : Logs Tid) : Prop where
  serial : s.future ndebug = s.settled ndebug
  settled : Settled (s.settled ndebug)
  plain : Plain s.reg
  locked : ∀ t, s.mutex = some t ↔ (s.pcs t).inside = true
  cached : ∀ p, s.reg.default_cache = some p → p < s.reg.loggers.length
  found : ∀ t, Found s.reg (s.pcs t)

theorem inv_init : Inv ndebug ({} : Logs Tid) where
  serial := rfl
  settled := settled_init
  plain := fun _ ↦ rfl
  locked := fun t ↦ ⟨fun h ↦ (by cases h), fun h ↦ (by cases h)⟩
  cached := fun _ h ↦ by cases h
  found := fun _ ↦ .of_none rfl rfl

variable {s s' : Logs Tid} {t : Tid}

theorem Inv.free (h : Inv ndebug s) (hfree : s.mutex = none) : s.reg = s.settled ndebug := by
  have hserial := h.serial
  rw [Logs.future, hfree] at hserial
  exact hserial

theorem Inv.settled_free (h : Inv ndebug s) (hfree : s.mutex = none) : Settled s.reg := by
  rw [h.free hfree]
  exact h.settled

theorem Inv.owner (h : Inv ndebug s) (hin : (s.pcs t).inside = true) :
    (s.pcs t).rest ndebug s.reg = s.settled ndebug := by
  have hserial := h.serial
  rw [Logs.future, (h.locked t).mpr hin] at hserial
  exact hserial

theorem settled_snoc (s : Logs Tid) (t : Tid) (a : Call × Files) :
    after ndebug {} ((s.entered ++ [(t, a)]).map Prod.snd) =
      (perform ndebug a.2 (s.settled ndebug) a.1).2 := by
  rw [List.map_append, List.map_singleton, after_snoc, Logs.settled]

variable [DecidableEq Tid]

theorem locked_update {pc : Pc} {owner : Option Tid}
    (hlocked : ∀ u, s.mutex = some u ↔ (s.pcs u).inside = true)
    (hself : owner = some t ↔ pc.inside = true)
    (hother : ∀ u, u ≠ t → (owner = some u ↔ s.mutex = some u)) (u : Tid) :
    owner = some u ↔ (update s.pcs t pc u).inside = true := by
  by_cases hut : u = t
  · rw [hut, update_self]
    exact hself
  · rw [update_of_ne hut, hother u hut]
    exact hlocked u

theorem Moves.locked (hm : Moves ndebug s t s')
    (h : ∀ u, s.mutex = some u ↔ (s.pcs u).inside = true) (u : Tid) :
    s'.mutex = some u ↔ (s'.pcs u).inside = true := by
  cases hm with
  | look hout hpc =>
    refine locked_update h ?_ (fun _ _ ↦ Iff.rfl) u
    rw [h t, hout, hpc]
  | lock hfree hout hpc =>
    refine locked_update h ?_ (fun v hv ↦ ?_) u
    · simp only [hpc]
    · rw [hfree]
      exact ⟨fun he ↦ absurd (Option.some.inj he).symm hv, fun he ↦ by cases he⟩
  | within hfree hout hpc =>
    refine locked_update h ?_ (fun _ _ ↦ Iff.rfl) u
    rw [h t, hout, hpc]
  | inner hin hpc =>
    refine locked_update h ?_ (fun _ _ ↦ Iff.rfl) u
    rw [h t, hin, hpc]
  | unlock hin hrest hpc =>
    have howner := (h t).mpr hin
    refine locked_update h ?_ (fun v hv ↦ ?_) u
    · rw [hpc]
      exact ⟨fun he ↦ (by cases he), fun he ↦ (by cases he)⟩
    · rw [howner]
      exact ⟨fun he ↦ (by cases he), fun he ↦ absurd (Option.some.inj he).symm hv⟩

theorem Moves.serial (hm : Moves ndebug s t s') (h : Inv ndebug s) :
    s'.future ndebug = s'.settled ndebug ∧ Settled (s'.settled ndebug) := by
  cases hm with
  | look hout hpc =>
    refine ⟨?_, h.settled⟩
    have hserial := h.serial
    simp only [Logs.future, Logs.settled] at hserial ⊢
    cases hmutex : s.mutex with
    | none =>
      rw [hmutex] at hserial
      exact hserial
    | some u =>
      have hne : u ≠ t := by
        intro he
        have hin := (h.locked u).mp hmutex
        rw [he, hout] at hin
        cases hin
      simp only [hmutex, update_of_ne hne] at hserial ⊢
      exact hserial
  | @lock a reg pc hfree hout hpc hready hrest =>
    have hsettled : Settled (perform ndebug a.2 s.reg a.1).2 :=
      (h.settled_free hfree).perform hready
    rw [h.free hfree] at hrest hsettled
    refine ⟨?_, ?_⟩
    · rw [Logs.settled, settled_snoc, ← hrest, Logs.future]
      simp only [update_self]
    · rw [Logs.settled, settled_snoc]
      exact hsettled
  | @within a pc rs hfree hout hpc hmodule =>
    have hsettled : Settled (perform ndebug a.2 s.reg a.1).2 := by
      refine (h.settled_free hfree).perform fun options he ↦ ?_
      rw [he] at hmodule
      cases hmodule
    rw [h.free hfree] at hsettled
    refine ⟨?_, ?_⟩
    · rw [Logs.settled, settled_snoc, Logs.future]
      simp only [hfree, h.free hfree]
    · rw [Logs.settled, settled_snoc]
      exact hsettled
  | inner hin hpc hrest =>
    refine ⟨?_, h.settled⟩
    have howner := h.owner hin
    simp only [Logs.future, (h.locked t).mpr hin, update_self]
    rw [hrest]
    exact howner
  | unlock hin hrest =>
    refine ⟨?_, h.settled⟩
    have howner := h.owner hin
    rw [hrest] at howner
    exact howner

theorem plain_module {a : Call × Files} (h : Plain reg) (ha : a.1.module?.isSome = true) :
    Plain (perform ndebug a.2 reg a.1).2 := by
  obtain ⟨m, hm⟩ := Option.isSome_iff_exists.mp ha
  cases hlogger : moduleLogger ndebug a.2 m reg with
  | none =>
    rw [perform_threw hm hlogger]
    exact h
  | some logger =>
    rw [perform_logger hm hlogger]
    exact h

theorem start_grown (h : Inv ndebug s) (hpc : s.pcs t = .called c)
    (hready : Ready ndebug s (.work t files)) (hs : s.start ndebug t files c = some s') :
    Grown s.reg s'.reg ∧ Plain s'.reg := by
  have hsame : Grown s.reg s.reg := .of_levels rfl rfl rfl
  cases c with
  | init options =>
    have hsome : (makeLogger ndebug files options.logger_name options).1.isSome = true := by
      rw [Ready, ready, hpc] at hready
      exact hready
    obtain ⟨logger, hlogger⟩ := Option.isSome_iff_exists.mp hsome
    simp only [Logs.start, Logs.initLock, hlogger] at hs
    obtain ⟨-, rfl⟩ := enter_some hs
    exact ⟨.of_append rfl rfl rfl, fun hnone ↦ by cases hnone⟩
  | setLevel level =>
    obtain ⟨-, rfl⟩ := enter_some hs
    exact ⟨.of_levels rfl rfl rfl, plain_level h.plain level⟩
  | getLevel | shouldLog =>
    obtain rfl := Option.some.inj hs
    exact ⟨hsame, h.plain⟩
  | log level msg loc =>
    simp only [Logs.start] at hs
    split at hs
    · obtain rfl := Option.some.inj hs
      exact ⟨hsame, h.plain⟩
    · obtain rfl := Option.some.inj hs
      exact ⟨hsame, h.plain⟩
  | logModule mod level msg loc =>
    simp only [Logs.start] at hs
    obtain ⟨-, rfl⟩ := within_some hs
    have hboth : Grown s.reg (perform ndebug files s.reg (.moduleShouldLog mod level)).2 ∧
        Plain (perform ndebug files s.reg (.moduleShouldLog mod level)).2 :=
      ⟨grown_module (a := (.moduleShouldLog mod level, files)) rfl,
        plain_module (a := (.moduleShouldLog mod level, files)) h.plain rfl⟩
    split
    · exact hboth
    · exact hboth
    · exact hboth
  | setModuleLevel mod level =>
    simp only [Logs.start] at hs
    obtain ⟨-, rfl⟩ := within_some hs
    exact ⟨grown_module (a := (.setModuleLevel mod level, files)) rfl,
      plain_module (a := (.setModuleLevel mod level, files)) h.plain rfl⟩
  | getModuleLevel mod =>
    simp only [Logs.start] at hs
    obtain ⟨-, rfl⟩ := within_some hs
    exact ⟨grown_module (a := (.getModuleLevel mod, files)) rfl,
      plain_module (a := (.getModuleLevel mod, files)) h.plain rfl⟩
  | moduleShouldLog mod level =>
    simp only [Logs.start] at hs
    obtain ⟨-, rfl⟩ := within_some hs
    exact ⟨grown_module (a := (.moduleShouldLog mod level, files)) rfl,
      plain_module (a := (.moduleShouldLog mod level, files)) h.plain rfl⟩

theorem work_grown (h : Inv ndebug s) (hready : Ready ndebug s (.work t files))
    (hs : s.work ndebug t files = some s') : Grown s.reg s'.reg ∧ Plain s'.reg := by
  have hmoves := work_moves h.plain h.settled_free hready hs
  obtain ⟨hserial, hsettled⟩ := hmoves.serial h
  have hlocked := hmoves.locked h.locked
  -- The last store of a section leaves the registry as the section wants it.
  have hlast : (s'.pcs t).inside = true → (s'.pcs t).rest ndebug s'.reg = s'.reg →
      Copied s'.reg := by
    intro hin hrest
    rw [Logs.future, (hlocked t).mpr hin] at hserial
    simp only [hrest] at hserial
    rw [hserial]
    exact hsettled.toCopied
  rw [Logs.work] at hs
  cases hpc : s.pcs t with
  | idle =>
    rw [hpc] at hs
    cases hs
  | called c =>
    rw [hpc] at hs
    exact start_grown h hpc hready hs
  | initLevel | setLevelStore =>
    rw [hpc] at hs
    obtain rfl := Option.some.inj hs
    exact ⟨.of_levels rfl rfl rfl, h.plain⟩
  | initCache | cacheStore =>
    rw [hpc] at hs
    obtain rfl := Option.some.inj hs
    simp only [update_self, Logs.goto] at hlast
    exact ⟨.of_cache (hlast rfl rfl), h.plain⟩
  | setLevelEnsure level =>
    rw [hpc] at hs
    obtain rfl := Option.some.inj hs
    obtain ⟨p, made, hmade, hensure⟩ := ensureDefault_plain ndebug h.plain
    simp only [Logs.setLevelEnd, hensure files, update_self, Logs.goto] at hlast ⊢
    refine ⟨grown_setLoggerLevel (hensure files) (hlast rfl rfl), fun hnone ↦ ?_⟩
    simp only [Registry.setLoggerLevel, hmade] at hnone
    cases hnone
  | cacheLoad level msg loc =>
    simp only [hpc] at hs
    split at hs
    · obtain rfl := Option.some.inj hs
      exact ⟨.of_levels rfl rfl rfl, h.plain⟩
    · obtain rfl := Option.some.inj hs
      exact ⟨.of_levels rfl rfl rfl, h.plain⟩
  | cacheLock level msg loc =>
    simp only [hpc] at hs
    obtain ⟨p, made, hmade, hensure⟩ := ensureDefault_plain ndebug h.plain
    rw [Logs.cacheEnsure, hensure files] at hs
    obtain ⟨-, rfl⟩ := enter_some hs
    refine ⟨grown_ensureDefault (hensure files), fun hnone ↦ ?_⟩
    rw [hmade] at hnone
    cases hnone
  | cacheUnlock | unlock | emit | moduleEmit =>
    rw [hpc] at hs
    obtain rfl := Option.some.inj hs
    exact ⟨.of_levels rfl rfl rfl, h.plain⟩
  | moduleLock mod level msg loc =>
    simp only [hpc] at hs
    obtain ⟨-, rfl⟩ := within_some hs
    have hboth : Grown s.reg (perform ndebug files s.reg (.getModuleLevel mod)).2 ∧
        Plain (perform ndebug files s.reg (.getModuleLevel mod)).2 :=
      ⟨grown_module (a := (.getModuleLevel mod, files)) rfl,
        plain_module (a := (.getModuleLevel mod, files)) h.plain rfl⟩
    split
    · exact hboth
    · exact hboth

theorem Grown.cached (hgrown : Grown reg reg')
    (h : ∀ p, reg.default_cache = some p → p < reg.loggers.length) (p : ℕ)
    (hp : reg'.default_cache = some p) : p < reg'.loggers.length := by
  cases hgrown.frame with
  | inl hsame =>
    rw [hsame.1] at hp
    exact Nat.lt_of_lt_of_le (h p hp) hgrown.length
  | inr hcopied =>
    have hdefault : reg'.default_logger = some p := by
      cases hcopied.1.cache with
      | inl hnone =>
        rw [hp] at hnone
        cases hnone
      | inr hcache => rw [← hcache, hp]
    obtain ⟨logger, hlogger, -⟩ := hcopied.1.logger p hdefault
    exact (List.getElem?_eq_some_iff.mp hlogger).1

theorem Moves.others (hm : Moves ndebug s t s') {u : Tid} (hne : u ≠ t) : s'.pcs u = s.pcs u := by
  cases hm <;> exact update_of_ne hne _ _

theorem start_found (hs : s.start ndebug t files c = some s') : Found s'.reg (s'.pcs t) := by
  cases c with
  | init options =>
    simp only [Logs.start, Logs.initLock] at hs
    split at hs
    · obtain ⟨-, rfl⟩ := enter_some hs
      simp only [update_self]
      exact .of_none rfl rfl
    · obtain ⟨-, rfl⟩ := enter_some hs
      simp only [update_self]
      exact .of_none rfl rfl
  | setLevel level =>
    obtain ⟨-, rfl⟩ := enter_some hs
    simp only [update_self]
    exact .of_none rfl rfl
  | getLevel | shouldLog =>
    obtain rfl := Option.some.inj hs
    simp only [Logs.answer, update_self]
    exact .of_none rfl rfl
  | log level msg loc =>
    simp only [Logs.start] at hs
    split at hs
    · obtain rfl := Option.some.inj hs
      simp only [Logs.answer, update_self]
      exact .of_none rfl rfl
    · obtain rfl := Option.some.inj hs
      simp only [Logs.goto, update_self]
      exact .of_none rfl rfl
  | logModule mod level msg loc =>
    simp only [Logs.start] at hs
    obtain ⟨-, rfl⟩ := within_some hs
    split <;>
      (simp only [Logs.answer, Logs.goto, update_self]; exact .of_none rfl rfl)
  | setModuleLevel | getModuleLevel | moduleShouldLog =>
    simp only [Logs.start] at hs
    obtain ⟨-, rfl⟩ := within_some hs
    simp only [Logs.answer, update_self]
    exact .of_none rfl rfl

theorem work_found (h : Found s.reg (s.pcs t))
    (hcached : ∀ p, s'.reg.default_cache = some p → p < s'.reg.loggers.length)
    (hs : s.work ndebug t files = some s') : Found s'.reg (s'.pcs t) := by
  rw [Logs.work] at hs
  cases hpc : s.pcs t with
  | idle =>
    rw [hpc] at hs
    cases hs
  | called c =>
    rw [hpc] at hs
    exact start_found hs
  | initLevel | setLevelStore | initCache =>
    rw [hpc] at hs
    obtain rfl := Option.some.inj hs
    simp only [Logs.goto, update_self]
    exact .of_none rfl rfl
  | setLevelEnsure level =>
    rw [hpc] at hs
    obtain rfl := Option.some.inj hs
    simp only [Logs.setLevelEnd]
    split <;>
      (simp only [Logs.goto, update_self]; exact .of_none rfl rfl)
  | cacheLoad level msg loc =>
    simp only [hpc] at hs
    split at hs
    · rename_i p hcache
      obtain rfl := Option.some.inj hs
      simp only [Logs.goto, update_self]
      exact .of_cache hcached hcache rfl rfl
    · obtain rfl := Option.some.inj hs
      simp only [Logs.goto, update_self]
      exact .of_none rfl rfl
  | cacheLock level msg loc =>
    simp only [hpc, Logs.cacheEnsure] at hs
    split at hs
    · obtain ⟨-, rfl⟩ := enter_some hs
      simp only [update_self]
      exact .of_none rfl rfl
    · obtain ⟨-, rfl⟩ := enter_some hs
      simp only [update_self]
      exact .of_none rfl rfl
  | cacheStore level msg loc p =>
    rw [hpc] at hs
    obtain rfl := Option.some.inj hs
    simp only [Logs.goto, update_self]
    exact .of_cache hcached rfl rfl rfl
  | cacheUnlock level msg loc p =>
    rw [hpc] at hs h
    obtain rfl := Option.some.inj hs
    simp only [Logs.goto, update_self]
    exact ⟨h.1, fun mod hmod ↦ by cases hmod⟩
  | unlock | emit | moduleEmit =>
    rw [hpc] at hs
    obtain rfl := Option.some.inj hs
    simp only [Logs.answer, update_self]
    exact .of_none rfl rfl
  | moduleLock mod level msg loc =>
    simp only [hpc] at hs
    obtain ⟨-, rfl⟩ := within_some hs
    cases hlogger : moduleLogger ndebug files mod s.reg with
    | none =>
      simp only [perform_threw (c := .getModuleLevel mod) rfl hlogger, Logs.answer, update_self]
      exact .of_none rfl rfl
    | some logger =>
      simp only [perform_logger (c := .getModuleLevel mod) rfl hlogger, Call.onLogger, Logs.goto,
        update_self]
      refine ⟨fun p hp ↦ (by cases hp), fun m hm ↦ ?_⟩
      obtain rfl := Option.some.inj hm
      rw [modules_withModule]
      exact fun he ↦ by cases he

theorem Inv.call (h : Inv ndebug s) (hpc : s.pcs t = .idle) (c : Call) :
    Inv ndebug (s.goto t (.called c)) where
  serial := by
    have hserial := h.serial
    simp only [Logs.future, Logs.settled, Logs.goto] at hserial ⊢
    cases hmutex : s.mutex with
    | none =>
      rw [hmutex] at hserial
      exact hserial
    | some u =>
      have hne : u ≠ t := by
        intro he
        have hin := (h.locked u).mp hmutex
        rw [he, hpc] at hin
        cases hin
      simp only [hmutex, update_of_ne hne] at hserial ⊢
      exact hserial
  settled := h.settled
  plain := h.plain
  locked := by
    have hout := h.locked t
    rw [hpc] at hout
    exact locked_update h.locked hout fun _ _ ↦ Iff.rfl
  cached := h.cached
  found := by
    intro u
    by_cases hut : u = t
    · rw [hut]
      simp only [Logs.goto, update_self]
      exact .of_none rfl rfl
    · simp only [Logs.goto, update_of_ne hut]
      exact h.found u

theorem Inv.work (h : Inv ndebug s) (hready : Ready ndebug s (.work t files))
    (hs : s.work ndebug t files = some s') : Inv ndebug s' := by
  have hmoves := work_moves h.plain h.settled_free hready hs
  obtain ⟨hserial, hsettled⟩ := hmoves.serial h
  obtain ⟨hgrown, hplain⟩ := work_grown h hready hs
  have hcached := hgrown.cached h.cached
  refine ⟨hserial, hsettled, hplain, hmoves.locked h.locked, hcached, fun u ↦ ?_⟩
  by_cases hut : u = t
  · rw [hut]
    exact work_found (h.found t) hcached hs
  · rw [hmoves.others hut]
    exact (h.found u).grown hgrown

variable (ndebug) in
theorem call_some (hs : LogThreads.step ndebug s (.call t c) = some s') :
    s.pcs t = .idle ∧ s' = s.goto t (.called c) := by
  rw [LogThreads.step] at hs
  split at hs
  · rename_i hpc
    exact ⟨hpc, (Option.some.inj hs).symm⟩
  · cases hs

theorem Inv.step {a : Action Tid} (h : Inv ndebug s) (hready : Ready ndebug s a)
    (hs : LogThreads.step ndebug s a = some s') : Inv ndebug s' := by
  cases a with
  | call t c =>
    obtain ⟨hpc, rfl⟩ := call_some ndebug hs
    exact h.call hpc c
  | work t files => exact h.work hready hs

theorem inv_reaches (hr : (machine ndebug Tid).Reaches (Ready ndebug) s) : Inv ndebug s := by
  refine Machine.Reaches.invariant (P := Inv ndebug) ?_ ?_ hr
  · intro s hs
    rw [show s = {} from hs]
    exact inv_init
  · intro s a s' _ h hready hs
    exact h.step hready hs

end Inv

section Order

variable [DecidableEq Tid] {s s' : Logs Tid} {t : Tid}

def Logs.updates (s : Logs Tid) (t : Tid) : List Call :=
  (s.entered.filter fun e ↦ e.1 = t).map (fun e ↦ e.2.1) |>.filter isUpdate

def called (t : Tid) : List (Action Tid) → List Call
  | [] => []
  | .call u c :: as => (if u = t then [c].filter isUpdate else []) ++ called t as
  | .work _ _ :: as => called t as

theorem updates_snoc {u : Tid} {a : Call × Files}
    (he : s'.entered = s.entered ++ [(u, a)]) (t : Tid) :
    s'.updates t = s.updates t ++ if u = t then [a.1].filter isUpdate else [] := by
  rw [Logs.updates, he, List.filter_append, List.map_append, List.filter_append]
  by_cases hut : u = t
  · simp [hut, Logs.updates]
  · simp [hut, Logs.updates]

theorem updates_same (he : s'.entered = s.entered) (t : Tid) : s'.updates t = s.updates t := by
  rw [Logs.updates, he, Logs.updates]

/-- An update is entered once, and the next one only after it. -/
theorem Moves.order (hm : Moves ndebug s t s') (u : Tid) :
    s'.updates u ++ (s'.pcs u).due = s.updates u ++ (s.pcs u).due := by
  by_cases hut : u = t
  · subst hut
    cases hm with
    | look hout hpc hdue =>
      simp only [update_self, hdue]
      rfl
    | @lock a reg pc hfree hout hpc hready hrest hdue =>
      rw [updates_snoc rfl u, if_pos rfl]
      simp only [update_self, hdue, due_inside hpc, List.append_nil]
    | @within a pc rs hfree hout hpc hmodule hdue hnone =>
      rw [updates_snoc rfl u, if_pos rfl]
      simp only [update_self, hdue, hnone, List.append_nil]
    | inner hin hpc =>
      simp only [update_self, due_inside hin, due_inside hpc]
      rfl
    | unlock hin hrest hpc hnone =>
      simp only [update_self, due_inside hin, hnone]
      rfl
  · rw [hm.others hut]
    congr 1
    have hne : ¬ t = u := fun he ↦ hut he.symm
    cases hm with
    | look | inner | unlock => exact updates_same rfl u
    | lock | within => rw [updates_snoc rfl u, if_neg hne, List.append_nil]

theorem called_append (t : Tid) (as bs : List (Action Tid)) :
    called t (as ++ bs) = called t as ++ called t bs := by
  induction as with
  | nil => rfl
  | cons a as ih =>
    cases a with
    | call u c => simp only [List.cons_append, called, ih, List.append_assoc]
    | work u files => exact ih

theorem order_step {a : Action Tid} (h : Inv ndebug s) (hready : Ready ndebug s a)
    (hs : LogThreads.step ndebug s a = some s') (u : Tid) :
    s'.updates u ++ (s'.pcs u).due = s.updates u ++ (s.pcs u).due ++ called u [a] := by
  cases a with
  | work t files =>
    have hmoves := work_moves h.plain h.settled_free hready hs
    rw [hmoves.order u]
    exact (List.append_nil _).symm
  | call t c =>
    obtain ⟨hpc, rfl⟩ := call_some ndebug hs
    have hsame : (s.goto t (.called c)).updates u = s.updates u := updates_same rfl u
    rw [hsame, List.append_assoc]
    congr 1
    by_cases hut : u = t
    · rw [hut, hpc]
      simp only [Logs.goto, update_self, called, if_true]
      exact (List.append_nil _).symm
    · have hne : ¬ t = u := fun he ↦ hut he.symm
      simp only [Logs.goto, update_of_ne hut, called, if_neg hne, List.append_nil]

end Order

section Progress

variable [DecidableEq Tid] {s s' : Logs Tid} {t : Tid}

def Pc.left : Pc → ℕ
  | .initLevel _ _ | .setLevelStore _ => 3
  | .initCache _ _ | .setLevelEnsure _ | .cacheStore _ _ _ _ => 2
  | .cacheUnlock _ _ _ _ | .unlock _ => 1
  | _ => 0

theorem left_le (pc : Pc) : pc.left ≤ 3 := by
  cases pc <;> simp [Pc.left]

theorem left_pos {pc : Pc} (h : pc.inside = true) : 0 < pc.left := by
  cases pc with
  | idle | called | cacheLoad | cacheLock | emit | moduleLock | moduleEmit => cases h
  | initLevel | initCache | setLevelStore | setLevelEnsure | cacheStore | cacheUnlock | unlock =>
    simp [Pc.left]

theorem owner_enabled (h : Inv ndebug s) (howner : s.mutex = some t) (files : Files) :
    ∃ s', LogThreads.step ndebug s (.work t files) = some s' := by
  have hin := (h.locked t).mp howner
  rw [LogThreads.step, Logs.work]
  cases hpc : s.pcs t with
  | initLevel | initCache | setLevelStore | cacheStore | setLevelEnsure | cacheUnlock
  | unlock => exact ⟨_, rfl⟩
  | idle | called | cacheLoad | cacheLock | emit | moduleLock | moduleEmit =>
    rw [hpc] at hin
    cases hin

/-- Each step of the owner of the mutex brings it nearer to the end of its section. -/
theorem owner_works (h : Inv ndebug s) (howner : s.mutex = some t)
    (hs : s.work ndebug t files = some s') :
    (s'.mutex = none ∨ s'.mutex = some t) ∧ (s'.pcs t).left < (s.pcs t).left := by
  have hin := (h.locked t).mp howner
  rw [Logs.work] at hs
  cases hpc : s.pcs t with
  | initLevel | initCache | setLevelStore | cacheStore =>
    rw [hpc] at hs
    obtain rfl := Option.some.inj hs
    refine ⟨.inr howner, ?_⟩
    simp only [Logs.goto, update_self, Pc.left]
    decide
  | setLevelEnsure level =>
    rw [hpc] at hs
    obtain rfl := Option.some.inj hs
    simp only [Logs.setLevelEnd]
    split
    · refine ⟨.inr howner, ?_⟩
      simp only [Logs.goto, update_self, Pc.left]
      decide
    · refine ⟨.inr howner, ?_⟩
      simp only [Logs.goto, update_self, Pc.left]
      decide
  | cacheUnlock | unlock =>
    rw [hpc] at hs
    obtain rfl := Option.some.inj hs
    refine ⟨.inl rfl, ?_⟩
    simp only [Logs.goto, Logs.answer, update_self, Pc.left]
    decide
  | idle | called | cacheLoad | cacheLock | emit | moduleLock | moduleEmit =>
    rw [hpc] at hin
    cases hin

/-- The others leave the mutex to its owner. -/
theorem Moves.keeps {u : Tid} (hm : Moves ndebug s u s')
    (h : ∀ v, s.mutex = some v ↔ (s.pcs v).inside = true) (howner : s.mutex = some t)
    (hne : t ≠ u) : s'.mutex = some t := by
  have hout : (s.pcs u).inside = true → False := by
    intro hin
    rw [(h u).mpr hin] at howner
    exact hne (Option.some.inj howner).symm
  cases hm with
  | look | within => exact howner
  | lock hfree =>
    rw [hfree] at howner
    cases howner
  | inner hin | unlock hin => exact (hout hin).elim

def ownStep (t : Tid) : Action Tid → Bool
  | .call _ _ => false
  | .work u _ => u = t

theorem owner_step {a : Action Tid} (h : Inv ndebug s) (howner : s.mutex = some t)
    (hready : Ready ndebug s a) (hs : LogThreads.step ndebug s a = some s') :
    s'.mutex = none ∨ (Inv ndebug s' ∧ s'.mutex = some t) ∧
      (s'.pcs t).left + (if ownStep t a then 1 else 0) ≤ (s.pcs t).left := by
  have hinv := h.step hready hs
  have hin := (h.locked t).mp howner
  cases a with
  | call u c =>
    obtain ⟨hpc, rfl⟩ := call_some ndebug hs
    have hne : t ≠ u := by
      rintro rfl
      rw [hpc] at hin
      cases hin
    refine .inr ⟨⟨hinv, howner⟩, ?_⟩
    simp only [Logs.goto, update_of_ne hne]
    exact Nat.le_refl _
  | work u files =>
    by_cases htu : t = u
    · subst htu
      obtain ⟨hmutex, hless⟩ := owner_works h howner hs
      rcases hmutex with hfree | hkept
      · exact .inl hfree
      · refine .inr ⟨⟨hinv, hkept⟩, ?_⟩
        rw [ownStep, if_pos (decide_eq_true rfl)]
        exact hless
    · have hmoves := work_moves h.plain h.settled_free hready hs
      refine .inr ⟨⟨hinv, hmoves.keeps h.locked howner htu⟩, ?_⟩
      rw [hmoves.others htu, ownStep, decide_eq_false fun he ↦ htu he.symm]
      exact Nat.le_refl _

/-- Who has the mutex gives it back, whatever the others do. -/
theorem section_ends (h : Inv ndebug s) (howner : s.mutex = some t) {bs : List (Action Tid)}
    (hrun : (machine ndebug Tid).runIf (Ready ndebug) s bs = some s')
    (hown : 3 ≤ bs.countP (ownStep t)) :
    ∃ bs₁ bs₂ s₁, bs = bs₁ ++ bs₂ ∧ (machine ndebug Tid).runIf (Ready ndebug) s bs₁ = some s₁ ∧
      s₁.mutex = none ∧ bs₁.countP (ownStep t) ≤ 3 := by
  have hle := left_le (s.pcs t)
  obtain ⟨bs₁, bs₂, s₁, hsplit, hrun₁, hfree, hcount⟩ :=
    Machine.runIf_descends (M := machine ndebug Tid)
      (P := fun u ↦ Inv ndebug u ∧ u.mutex = some t) (Q := fun u ↦ u.mutex = none)
      (fun u ↦ (u.pcs t).left) (ownStep t)
      (fun u ⟨hu, hheld⟩ ↦ left_pos ((hu.locked t).mp hheld))
      (fun u a v ⟨hu, hheld⟩ hready hs ↦ owner_step hu hheld hready hs)
      ⟨h, howner⟩ hrun (Nat.le_trans hle hown)
  exact ⟨bs₁, bs₂, s₁, hsplit, hrun₁, hfree, Nat.le_trans hcount hle⟩

end Progress

/-- In every run in which no `init` throws, of any number of threads: whenever the
mutex is free, the registry is what the sections make of it one after the other
in the order of the mutex, with the level check and the default logger in
agreement; each thread's `init` and `set_level` calls enter once and in the order
in which it makes them; and who has the mutex can always go on, and gives it back
in at most three of its own steps, whatever the others do. -/
theorem sections_serial [DecidableEq Tid] {as : List (Action Tid)} {s : Logs Tid}
    (hrun : (machine ndebug Tid).runIf (Ready ndebug) {} as = some s) :
    (s.mutex = none →
      s.reg = after ndebug {} (s.entered.map Prod.snd) ∧ Agrees ndebug s.reg) ∧
      (∀ t, s.updates t ++ (s.pcs t).due = called t as) ∧
      ∀ t, s.mutex = some t →
        (∀ files, ∃ s', LogThreads.step ndebug s (.work t files) = some s') ∧
        ∀ bs s', (machine ndebug Tid).runIf (Ready ndebug) s bs = some s' →
          3 ≤ bs.countP (ownStep t) → ∃ bs₁ bs₂ s₁, bs = bs₁ ++ bs₂ ∧
            (machine ndebug Tid).runIf (Ready ndebug) s bs₁ = some s₁ ∧ s₁.mutex = none ∧
            bs₁.countP (ownStep t) ≤ 3 := by
  have hboth : Inv ndebug s ∧ ∀ t, s.updates t ++ (s.pcs t).due = called t as := by
    refine Machine.runIf_hindsight
      (I := fun as s ↦ Inv ndebug s ∧ ∀ t, s.updates t ++ (s.pcs t).due = called t as) ?_ ?_ hrun
    · exact ⟨inv_init, fun _ ↦ rfl⟩
    · rintro as u a v - ⟨hinv, horder⟩ hready hs
      refine ⟨hinv.step hready hs, fun t ↦ ?_⟩
      rw [order_step hinv hready hs t, horder t, called_append]
  obtain ⟨hinv, horder⟩ := hboth
  refine ⟨fun hfree ↦ ⟨hinv.free hfree, (hinv.settled_free hfree).agrees⟩, horder, ?_⟩
  intro t howner
  exact ⟨owner_enabled hinv howner, fun bs s' hbs ↦ section_ends hinv howner hbs⟩

def halfway : List (Action (Fin 3)) :=
  [.call 0 (.setLevel .warn), .call 1 (.init { level := .error, logger_name := ['b'] }),
    .work 1 noFiles, .work 1 noFiles]

def released : List (Action (Fin 3)) :=
  [.work 1 noFiles, .call 2 .getLevel, .work 2 noFiles, .work 1 noFiles, .call 1 .getLevel,
    .work 1 noFiles]

theorem halfway_run : ((machine false (Fin 3)).runIf (Ready false) {} halfway).map (fun s ↦
    (s.mutex, (s.work false 0 noFiles).isNone, s.reg.default_level, s.reg.default_cache,
      ((machine false (Fin 3)).runIf (Ready false) s released).isSome)) =
      some (some 1, true, 4, none, true) := by
  decide +kernel

theorem sections_serial_halfway : ∃ s : Logs (Fin 3), s.mutex = some 1 ∧
    s.reg.default_level = 4 ∧ s.reg.default_cache = none ∧
    (∀ t, s.updates t ++ (s.pcs t).due = called t halfway) ∧
    ∃ bs₁ bs₂ s₁, released = bs₁ ++ bs₂ ∧
      (machine false (Fin 3)).runIf (Ready false) s bs₁ = some s₁ ∧ s₁.mutex = none ∧
      bs₁.countP (ownStep 1) ≤ 3 := by
  obtain ⟨s, hrun, he⟩ := Option.map_eq_some_iff.mp halfway_run
  simp only [Prod.mk.injEq] at he
  obtain ⟨hmutex, -, hlevel, hcache, hgoes⟩ := he
  obtain ⟨-, horder, hends⟩ := sections_serial hrun
  obtain ⟨s', hreleased⟩ := Option.isSome_iff_exists.mp hgoes
  exact ⟨s, hmutex, hlevel, hcache, horder,
    (hends 1 hmutex).2 released s' hreleased (by decide)⟩

end LivioArk.Log.LogThreads
