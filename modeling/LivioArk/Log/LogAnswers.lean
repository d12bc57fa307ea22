import LivioArk.Log.LogSections

namespace LivioArk.Log.LogThreads

open Function LivioArk.Library.Transition Logging LevelCheck

variable {Tid : Type} {ndebug : Bool} {files : Files} {s₁ s s' : Logs Tid}
  {as : List (Action Tid)} {a : Action Tid} {t : Tid} {c : Call} {p : ℕ} {level : Level}
  {msg : Str} {loc : SourceLoc}

section Shown

/-- A log of the level would go through the logger `p` as it is here, or not be
emitted by it at all. -/
def Shows (p : ℕ) (logger : Logger) (level : Level) (u : Logs Tid) : Prop :=
  u.reg.default_cache = some p ∧ u.reg.loggers[p]? = some logger ∧
    (logger.level ≤ level.toInt → u.reg.default_level ≤ level.toInt)

theorem Shows.answer {logger : Logger} {u : Logs Tid} (h : Shows p logger level u)
    (ndebug : Bool) (files : Files) (msg : Str) (loc : SourceLoc) :
    (perform ndebug files u.reg (.log level msg loc)).1 =
      .ofLog (logger.log loc (toSpdlogLevel level) msg) := by
  obtain ⟨hcache, hlogger, hlevel⟩ := h
  have hcached : (cachedDefault ndebug files u.reg).1 = some (p, u.reg) := cachedDefault_some hcache
  simp only [perform, execute, log]
  by_cases hpass : u.reg.default_level ≤ level.toInt
  · have hshould : shouldLog level u.reg = true := decide_eq_true hpass
    simp only [hshould, Bool.not_true, Bool.false_eq_true, if_false, detailLog, hcached, hlogger,
      Option.bind_some]
  · have hshould : shouldLog level u.reg = false := decide_eq_false hpass
    have hfilter : logger.shouldLog (toSpdlogLevel level) = false := by
      rw [Logger.shouldLog, toSpdlogLevel_eq]
      exact decide_eq_false fun hle ↦ hpass (hlevel hle)
    simp only [hshould, Bool.not_false, if_true, Logger.log, hfilter, Bool.false_eq_true, if_false,
      Outcome.ofLog]

/-- Where the copies of the level agree, a state shows its own default logger. -/
theorem shows_copied {logger : Logger} (hcopied : Copied s.reg)
    (hcache : s.reg.default_cache = some p) (hlogger : s.reg.loggers[p]? = some logger)
    (level : Level) : Shows p logger level s := by
  refine ⟨hcache, hlogger, fun hle ↦ ?_⟩
  have hdefault : s.reg.default_logger = some p := by
    cases hcopied.cache with
    | inl hnone =>
      rw [hcache] at hnone
      cases hnone
    | inr hsame => rw [← hsame, hcache]
  obtain ⟨logger', hlogger', hlevel⟩ := hcopied.logger p hdefault
  obtain rfl := Option.some.inj (hlogger.symm.trans hlogger')
  rw [hcopied.threshold]
  rw [hlevel, toSpdlogLevel_eq] at hle
  exact hle

variable [DecidableEq Tid]

def Seen (ndebug : Bool) (s₁ : Logs Tid) (as : List (Action Tid)) (c : Call) (o : Outcome) : Prop :=
  (machine ndebug Tid).Passes s₁ as fun u ↦ ∃ files, o = (perform ndebug files u.reg c).1

/-- What the states since the call began explain where the thread is now. -/
def Explained (ndebug : Bool) (s₁ : Logs Tid) (as : List (Action Tid)) (c : Call) (reg : Registry) :
    Pc → Prop
  | .idle => True
  | .called c' => c' = c
  | .initLevel _ _ | .initCache _ _ => Seen ndebug s₁ as c .done
  | .setLevelStore level | .setLevelEnsure level => c = .setLevel level
  | .cacheLoad level msg loc | .cacheLock level msg loc | .cacheStore level msg loc _ =>
    c = .log level msg loc ∧ ∀ p logger, reg.default_cache = some p →
      reg.loggers[p]? = some logger →
        (machine ndebug Tid).Passes s₁ as (Shows p logger level)
  | .cacheUnlock level msg loc p | .emit level msg loc p =>
    c = .log level msg loc ∧ ∀ logger, reg.loggers[p]? = some logger →
      (machine ndebug Tid).Passes s₁ as (Shows p logger level)
  | .moduleLock mod level msg loc | .moduleEmit mod level msg loc =>
    c = .logModule mod level msg loc
  | .unlock o => Seen ndebug s₁ as c o

/-- A step keeps what is explained, with one more state to explain it. -/
theorem Explained.grown {pc : Pc} (h : Explained ndebug s₁ as c s.reg pc)
    (hrun : (machine ndebug Tid).run s₁ (as ++ [a]) = some s')
    (hgrown : Grown s.reg s'.reg)
    (hcached : ∀ p, s.reg.default_cache = some p → p < s.reg.loggers.length)
    (hfound : Found s.reg pc) :
    Explained ndebug s₁ (as ++ [a]) c s'.reg pc := by
  have hdefault : ∀ p logger level, (∀ p logger, s.reg.default_cache = some p →
      s.reg.loggers[p]? = some logger → (machine ndebug Tid).Passes s₁ as (Shows p logger level)) →
      s'.reg.default_cache = some p → s'.reg.loggers[p]? = some logger →
        (machine ndebug Tid).Passes s₁ (as ++ [a]) (Shows p logger level) := by
    intro p logger level hshown hcache hlogger
    cases hgrown.frame with
    | inl hsame =>
      rw [hsame.1] at hcache
      rw [hsame.2 p (hcached p hcache)] at hlogger
      exact (hshown p logger hcache hlogger).append [a]
    | inr hcopied => exact .here hrun (shows_copied hcopied.1 hcache hlogger level)
  have hheld : ∀ p logger level, p < s.reg.loggers.length → s.reg.default_cache ≠ none →
      (∀ logger, s.reg.loggers[p]? = some logger →
        (machine ndebug Tid).Passes s₁ as (Shows p logger level)) →
      s'.reg.loggers[p]? = some logger →
        (machine ndebug Tid).Passes s₁ (as ++ [a]) (Shows p logger level) := by
    intro p logger level hp hcache hshown hlogger
    have hold : s'.reg.loggers[p]? = s.reg.loggers[p]? →
        (machine ndebug Tid).Passes s₁ (as ++ [a]) (Shows p logger level) := by
      intro hsame
      rw [hsame] at hlogger
      exact (hshown logger hlogger).append [a]
    cases hgrown.frame with
    | inl hsame => exact hold (hsame.2 p hp)
    | inr hcopied =>
      cases hcopied.2 p hp with
      | inl hsame => exact hold hsame
      | inr hdefault =>
        -- Only the default logger gets another level, and it is the cached one.
        have hcache' : s'.reg.default_cache = some p := by
          cases hcopied.1.cache with
          | inl hnone => exact absurd hnone (hgrown.cache hcache)
          | inr hsame => rw [hsame, hdefault]
        exact .here hrun (shows_copied hcopied.1 hcache' hlogger level)
  cases pc with
  | idle | called | setLevelStore | setLevelEnsure | moduleLock | moduleEmit => exact h
  | initLevel | initCache | unlock => exact Machine.Passes.append h [a]
  | cacheLoad level | cacheLock level | cacheStore level =>
    exact ⟨h.1, fun p logger ↦ hdefault p logger level h.2⟩
  | cacheUnlock level msg loc p | emit level msg loc p =>
    obtain ⟨hp, hcache⟩ := hfound.1 p rfl
    exact ⟨h.1, fun logger ↦ hheld p logger level hp hcache h.2⟩

end Shown

section Returns

variable [DecidableEq Tid]

def Answers (ndebug : Bool) (s₁ : Logs Tid) (as : List (Action Tid)) (c : Call) (t : Tid)
    (s s' : Logs Tid) : Prop :=
  (s'.pcs t = .idle ∧ ∃ o, s'.returned = s.returned ++ [(t, o)] ∧ Seen ndebug s₁ as c o) ∨
    s'.pcs t ≠ .idle ∧ s'.returned = s.returned ∧ Explained ndebug s₁ as c s'.reg (s'.pcs t)

theorem Answers.of_answer {o : Outcome} {u : Logs Tid} (hreturned : u.returned = s.returned)
    (h : Seen ndebug s₁ as c o) : Answers ndebug s₁ as c t s (u.answer t o) := by
  refine .inl ⟨update_self _ _ _, o, ?_, h⟩
  rw [Logs.answer, hreturned]

theorem Answers.of_pc {pc : Pc} (hpc : s'.pcs t = pc) (hbusy : pc ≠ .idle)
    (hreturned : s'.returned = s.returned) (h : Explained ndebug s₁ as c s'.reg pc) :
    Answers ndebug s₁ as c t s s' := by
  refine .inr ⟨?_, hreturned, ?_⟩
  · rw [hpc]
    exact hbusy
  · rw [hpc]
    exact h

theorem setLevel_done {reg : Registry} (h : Plain reg) (level : Level) :
    (perform ndebug noFiles reg (.setLevel level)).1 = .done := by
  have hplain : Plain
      { reg with
        options := { reg.options with level := level }
        default_level := level.toInt } := plain_level h level
  obtain ⟨p, made, -, hensure⟩ := ensureDefault_plain ndebug hplain
  simp only [perform, execute, setLevel, hensure noFiles]

theorem start_answers (hpc : s.pcs t = .called c) (hready : Ready ndebug s (.work t files))
    (hrun : (machine ndebug Tid).run s₁ as = some s) (hs : s.start ndebug t files c = some s') :
    Answers ndebug s₁ (as ++ [.work t files]) c t s s' := by
  have hseen : ∀ {o : Outcome}, o = (perform ndebug files s.reg c).1 →
      Seen ndebug s₁ (as ++ [.work t files]) c o := by
    intro o ho
    exact (Machine.Passes.here hrun ⟨files, ho⟩).append _
  cases c with
  | init options =>
    have hsome : (makeLogger ndebug files options.logger_name options).1.isSome = true := by
      rw [Ready, ready, hpc] at hready
      exact hready
    obtain ⟨logger, hlogger⟩ := Option.isSome_iff_exists.mp hsome
    simp only [Logs.start, Logs.initLock, hlogger] at hs
    obtain ⟨-, rfl⟩ := enter_some hs
    refine .of_pc (update_self _ _ _) (fun he ↦ by cases he) rfl (hseen ?_)
    simp only [perform, execute, init, hlogger]
  | setLevel level =>
    obtain ⟨-, rfl⟩ := enter_some hs
    exact .of_pc (update_self _ _ _) (fun he ↦ by cases he) rfl rfl
  | getLevel | shouldLog =>
    obtain rfl := Option.some.inj hs
    exact .of_answer rfl (hseen rfl)
  | log level msg loc =>
    simp only [Logs.start] at hs
    split at hs
    · rename_i hfilter
      obtain rfl := Option.some.inj hs
      refine .of_answer rfl (hseen ?_)
      simp only [perform, execute, log, hfilter, if_true]
    · rename_i hpass
      obtain rfl := Option.some.inj hs
      have hle : s.reg.default_level ≤ level.toInt := by
        rw [Bool.not_eq_true, Bool.not_eq_false'] at hpass
        exact of_decide_eq_true hpass
      refine .of_pc (update_self _ _ _) (fun he ↦ by cases he) rfl ⟨rfl, fun p logger hp hl ↦ ?_⟩
      exact (Machine.Passes.here hrun ⟨hp, hl, fun _ ↦ hle⟩).append _
  | logModule mod level msg loc =>
    simp only [Logs.start] at hs
    obtain ⟨-, rfl⟩ := within_some hs
    simp only [perform, execute]
    cases hsection : moduleShouldLog ndebug files mod level s.reg with
    | mk o rest =>
      split
      · exact .of_pc (update_self _ _ _) (fun he ↦ by cases he) rfl rfl
      · rename_i ho
        refine .of_answer rfl (hseen ?_)
        simp only at ho
        simp only [perform, execute, logModule, hsection, ho]
      · rename_i h₁ h₂
        refine .of_answer rfl (hseen ?_)
        simp only [perform, execute, logModule, hsection]
        split
        · rename_i he
          cases he
          exact absurd rfl h₁
        · rename_i he
          cases he
          exact absurd rfl h₂
        · rfl
  | setModuleLevel | getModuleLevel | moduleShouldLog =>
    simp only [Logs.start] at hs
    obtain ⟨-, rfl⟩ := within_some hs
    exact .of_answer rfl (hseen rfl)

theorem work_answers (h : Explained ndebug s₁ as c s.reg (s.pcs t)) (hinv : Inv ndebug s)
    (hready : Ready ndebug s (.work t files)) (hrun : (machine ndebug Tid).run s₁ as = some s)
    (hs : s.work ndebug t files = some s') :
    Answers ndebug s₁ (as ++ [.work t files]) c t s s' := by
  have hrun' : (machine ndebug Tid).run s₁ (as ++ [.work t files]) = some s' :=
    Machine.run_snoc hrun hs
  have hgrown := (work_grown hinv hready hs).1
  have hplain := (work_grown hinv hready hs).2
  have hkept := h.grown hrun' hgrown hinv.cached (hinv.found t)
  have hfound := hinv.found t
  rw [Logs.work] at hs
  cases hpc : s.pcs t with
  | idle =>
    rw [hpc] at hs
    cases hs
  | called c' =>
    rw [hpc] at hs h
    obtain rfl : c' = c := h
    exact start_answers hpc hready hrun hs
  | initLevel | initCache | setLevelStore | cacheUnlock =>
    rw [hpc] at hs hkept
    obtain rfl := Option.some.inj hs
    exact .of_pc (update_self _ _ _) (fun he ↦ by cases he) rfl hkept
  | setLevelEnsure level =>
    rw [hpc] at hs h
    obtain rfl := Option.some.inj hs
    obtain rfl : c = .setLevel level := h
    obtain ⟨q, made, -, hensure⟩ := ensureDefault_plain ndebug hinv.plain
    have hseen : Seen ndebug s₁ (as ++ [.work t files]) (.setLevel level) .done :=
      .here hrun' ⟨noFiles, (setLevel_done hplain level).symm⟩
    simp only [Logs.setLevelEnd, hensure files] at hseen ⊢
    exact .of_pc (update_self _ _ _) (fun he ↦ by cases he) rfl hseen
  | cacheLoad level msg loc =>
    rw [hpc] at hkept
    simp only [hpc] at hs
    split at hs
    · rename_i p hcache
      obtain rfl := Option.some.inj hs
      exact .of_pc (update_self _ _ _) (fun he ↦ by cases he) rfl
        ⟨hkept.1, fun logger hlogger ↦ hkept.2 p logger hcache hlogger⟩
    · obtain rfl := Option.some.inj hs
      exact .of_pc (update_self _ _ _) (fun he ↦ by cases he) rfl hkept
  | cacheLock level msg loc =>
    rw [hpc] at hkept
    simp only [hpc] at hs
    obtain ⟨q, made, -, hensure⟩ := ensureDefault_plain ndebug hinv.plain
    rw [Logs.cacheEnsure, hensure files] at hs
    obtain ⟨-, rfl⟩ := enter_some hs
    exact .of_pc (update_self _ _ _) (fun he ↦ by cases he) rfl hkept
  | cacheStore level msg loc p =>
    rw [hpc] at hs hkept
    obtain rfl := Option.some.inj hs
    exact .of_pc (update_self _ _ _) (fun he ↦ by cases he) rfl
      ⟨hkept.1, fun logger hlogger ↦ hkept.2 p logger rfl hlogger⟩
  | emit level msg loc p =>
    rw [hpc] at hs hfound
    rw [hpc] at h
    obtain rfl := Option.some.inj hs
    obtain ⟨rfl, hshown⟩ := h
    have hlogger := List.getElem?_eq_getElem (hfound.1 p rfl).1
    rw [hlogger, Option.bind_some]
    refine .of_answer rfl ?_
    refine ((hshown _ hlogger).mono fun u hu ↦ ?_).append _
    exact ⟨noFiles, (hu.answer ndebug noFiles msg loc).symm⟩
  | moduleLock mod level msg loc =>
    rw [hpc] at h
    simp only [hpc] at hs
    obtain rfl : c = .logModule mod level msg loc := h
    obtain ⟨-, rfl⟩ := within_some hs
    cases hlogger : moduleLogger ndebug files mod s.reg with
    | none =>
      simp only [perform_threw (c := .getModuleLevel mod) rfl hlogger]
      refine .of_answer rfl ?_
      refine (Machine.Passes.here hrun ⟨files, ?_⟩).append _
      rw [perform_threw rfl hlogger]
    | some logger =>
      simp only [perform_logger (c := .getModuleLevel mod) rfl hlogger, Call.onLogger]
      exact .of_pc (update_self _ _ _) (fun he ↦ by cases he) rfl rfl
  | moduleEmit mod level msg loc =>
    rw [hpc] at hs hfound
    rw [hpc] at h
    obtain rfl := Option.some.inj hs
    obtain rfl : c = .logModule mod level msg loc := h
    obtain ⟨logger, hlogger⟩ := Option.ne_none_iff_exists'.mp (hfound.2 mod rfl)
    refine .of_answer rfl ((Machine.Passes.here hrun ⟨noFiles, ?_⟩).append _)
    rw [perform_logger rfl (moduleLogger_some hlogger), hlogger]
    rfl
  | unlock o =>
    rw [hpc] at hs h
    obtain rfl := Option.some.inj hs
    exact .of_answer rfl (Machine.Passes.append h _)

/-- While a thread's call lasts, it is explained by the states since it began. -/
theorem explained_run (hinv : Inv ndebug s₁) (hpc : s₁.pcs t = .called c)
    (hrun : (machine ndebug Tid).runIf (Ready ndebug) s₁ as = some s)
    (hone : ∀ c', .call t c' ∉ as) :
    Inv ndebug s ∧ Explained ndebug s₁ as c s.reg (s.pcs t) := by
  have hboth : (∀ c', .call t c' ∉ as) →
      Inv ndebug s ∧ Explained ndebug s₁ as c s.reg (s.pcs t) := by
    refine Machine.runIf_hindsight (I := fun as s ↦ (∀ c', .call t c' ∉ as) →
      Inv ndebug s ∧ Explained ndebug s₁ as c s.reg (s.pcs t)) ?_ ?_ hrun
    · intro _
      rw [hpc]
      exact ⟨hinv, rfl⟩
    · intro as u a v hu ih hready hs hnone
      obtain ⟨hu', hexplained⟩ := ih fun c' hmem ↦
        hnone c' (List.mem_append_left _ hmem)
      have hrun' := Machine.run_of_runIf hu
      refine ⟨hu'.step hready hs, ?_⟩
      cases a with
      | call t' c' =>
        have hne : t ≠ t' := by
          rintro rfl
          exact hnone c' (List.mem_append_right _ List.mem_cons_self)
        have hrun'' := Machine.run_snoc hrun' hs
        obtain ⟨-, rfl⟩ := call_some ndebug hs
        rw [show (u.goto t' (.called c')).pcs t = u.pcs t from update_of_ne hne _ _]
        exact hexplained.grown hrun'' (.of_levels rfl rfl rfl) hu'.cached (hu'.found t)
      | work t' files =>
        by_cases htt : t = t'
        · subst htt
          cases work_answers hexplained hu' hready hrun' hs with
          | inl hreturn =>
            rw [hreturn.1]
            exact trivial
          | inr hbusy => exact hbusy.2.2
        · have hmoves := work_moves hu'.plain hu'.settled_free hready hs
          rw [hmoves.others htt]
          exact hexplained.grown (Machine.run_snoc hrun' hs) (work_grown hu' hready hs).1
            hu'.cached (hu'.found t)
  exact hboth hone

end Returns

/-- In every run in which no `init` throws, each call answers what the sequential
call would answer, if it ran alone from one of the states that the registry went
through while the call lasted. -/
theorem calls_answer [DecidableEq Tid] {s₀ s₁ s₂ s₃ : Logs Tid} {as : List (Action Tid)} {t : Tid}
    {c : Call} {files : Files} (h₀ : (machine ndebug Tid).Reaches (Ready ndebug) s₀)
    (hcall : step ndebug s₀ (.call t c) = some s₁)
    (hrun : (machine ndebug Tid).runIf (Ready ndebug) s₁ as = some s₂)
    (hone : ∀ c', .call t c' ∉ as) (hready : Ready ndebug s₂ (.work t files))
    (hwork : step ndebug s₂ (.work t files) = some s₃) (hreturn : s₃.pcs t = .idle) :
    ∃ o, s₃.returned = s₂.returned ++ [(t, o)] ∧
      (machine ndebug Tid).Passes s₁ (as ++ [.work t files]) fun u ↦
        ∃ files', o = (perform ndebug files' u.reg c).1 := by
  obtain ⟨hidle, rfl⟩ := call_some ndebug hcall
  have hinv := (inv_reaches h₀).call hidle c
  obtain ⟨hinv', hexplained⟩ := explained_run hinv (update_self _ _ _) hrun hone
  cases work_answers hexplained hinv' hready (Machine.run_of_runIf hrun) hwork with
  | inl hanswer => exact hanswer.2
  | inr hbusy => exact absurd hreturn hbusy.1

def overtakenStart : Logs Bool := ({} : Logs Bool).goto false (.called (.log .info ['x'] {}))

def overtaken : List (Action Bool) :=
  [.work false noFiles, .call true (.init { level := .error, logger_name := ['b'] }),
    .work true noFiles, .work true noFiles, .work true noFiles, .work true noFiles,
    .work false noFiles]

theorem overtaken_run :
    ((machine false Bool).runIf (Ready false) overtakenStart overtaken).bind (fun s₂ ↦
      (step false s₂ (.work false noFiles)).map fun s₃ ↦
        (ready false s₂ (.work false noFiles), (s₃.pcs false).isIdle, s₂.returned, s₃.returned)) =
      some (true, true, [(true, .done)], [(true, .done), (false, .filtered)]) := by
  decide +kernel

theorem calls_answer_overtaken :
    (machine false Bool).Passes overtakenStart (overtaken ++ [.work false noFiles]) fun u ↦
      ∃ files, .filtered = (perform false files u.reg (.log .info ['x'] {})).1 := by
  obtain ⟨s₂, hrun, hlast⟩ := Option.bind_eq_some_iff.mp overtaken_run
  obtain ⟨s₃, hwork, he⟩ := Option.map_eq_some_iff.mp hlast
  simp only [Prod.mk.injEq] at he
  obtain ⟨hready, hidle, hbefore, hafter⟩ := he
  have hone : ∀ c, Action.call false c ∉ overtaken := by
    intro c hc
    simp [overtaken] at hc
  have hreturn : s₃.pcs false = .idle := by
    cases hpc : s₃.pcs false with
    | idle => rfl
    | _ =>
      rw [hpc] at hidle
      cases hidle
  obtain ⟨o, ho, hpasses⟩ :=
    calls_answer (.start rfl) rfl hrun hone hready hwork hreturn
  rw [hbefore, hafter] at ho
  obtain rfl : Outcome.filtered = o := by
    simp at ho
    exact ho
  exact hpasses

end LivioArk.Log.LogThreads
