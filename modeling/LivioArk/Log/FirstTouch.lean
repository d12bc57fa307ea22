import LivioArk.Log.LogFiles

namespace LivioArk.Log.FirstTouch

open Function LivioArk.Library.Transition Logging LogFiles

variable {ndebug : Bool} {files : Files} {reg : Registry} {m : Str} {logger : Logger} {w : World}

inductive Query
  | getLevel
  | shouldLog (level : Level)

def Query.call (m : Str) : Query → Call
  | getLevel => .getModuleLevel m
  | shouldLog level => .moduleShouldLog m level

def asks (m : Str) : Event → Bool
  | .call c _ => c.module? = some m
  | .elsewhere _ => false

def Leaves (ndebug : Bool) (w : World) (e : Event) : Prop := (w.next ndebug e).disk = w.disk

/-- The first call on the module, if there is one, has the given logger and
leaves the files alone. -/
def TouchedAs (ndebug : Bool) (m : Str) (logger : Logger) (w : World) : List Event → Prop
  | [] => True
  | .elsewhere f :: es => TouchedAs ndebug m logger (w.next ndebug (.elsewhere f)) es
  | .call c access :: es =>
    if c.module? = some m then
      moduleLogger ndebug (found (access w.disk) w.disk) m w.reg = some logger ∧
        Leaves ndebug w (.call c access)
    else TouchedAs ndebug m logger (w.next ndebug (.call c access)) es

/-- No call on the module makes a logger that changes a file. -/
def Spares (ndebug : Bool) (m : Str) (w : World) : List Event → Prop
  | [] => True
  | e :: es => (asks m e = true → Leaves ndebug w e) ∧ Spares ndebug m (w.next ndebug e) es

/-- A query now leaves the files alone and the module with the logger that it gets
anyhow. -/
def Undisturbed (ndebug : Bool) (access : Disk → Access) (m : Str) (q : Query) (w : World)
    (es : List Event) : Prop :=
  (w.reg.modules m).isSome ∨
    Leaves ndebug w (.call (q.call m) access) ∧
      ∀ logger, moduleLogger ndebug (found (access w.disk) w.disk) m w.reg = some logger →
        TouchedAs ndebug m logger w es

section Steps

theorem Query.module_call (q : Query) : (q.call m).module? = some m := by
  cases q <;> rfl

theorem Query.onLogger (q : Query) (logger : Logger) :
    ((q.call m).onLogger logger).2 = logger := by
  cases q <;> rfl

theorem execute_unseen {c : Call} (hc : c.module? ≠ some m) (x : Option Logger) :
    execute ndebug files (reg.withModule m x) c = ((execute ndebug files reg c).1,
      (execute ndebug files reg c).2.1.withModule m x, (execute ndebug files reg c).2.2) := by
  cases hmod : c.module? with
  | none => exact execute_withModule hmod m x reg
  | some key =>
    have hkey : key ≠ m := by
      intro heq
      exact hc (by rw [hmod, heq])
    have hsame : moduleLogger ndebug files key (reg.withModule m x) =
        moduleLogger ndebug files key reg := moduleLogger_withModule_ne hkey
    have hdisk : moduleDisk ndebug files key (reg.withModule m x) =
        moduleDisk ndebug files key reg := moduleDisk_withModule_ne hkey
    cases h : moduleLogger ndebug files key reg with
    | none => rw [execute_threw hmod h, execute_threw hmod (hsame.trans h), hdisk]
    | some logger =>
      rw [execute_logger hmod h, execute_logger hmod (hsame.trans h), withModule_comm hkey, hdisk]

theorem next_unseen (ndebug : Bool) (w : World) {e : Event} (he : asks m e = false)
    (x : Option Logger) :
    (w.withModule m x).next ndebug e = (w.next ndebug e).withModule m x ∧
      (w.withModule m x).shown ndebug e = w.shown ndebug e := by
  cases e with
  | elsewhere f => exact ⟨rfl, rfl⟩
  | call c access =>
    have hc : c.module? ≠ some m := of_decide_eq_false he
    have hunseen : execute ndebug (found (access w.disk) w.disk) (w.reg.withModule m x) c = _ :=
      execute_unseen hc x
    refine ⟨?_, ?_⟩
    · simp only [World.next, World.withModule, hunseen]
    · simp only [World.shown, World.withModule, hunseen]

section Calls

variable {c : Call} {access : Disk → Access}

theorem next_threw (hc : c.module? = some m) (hleaves : Leaves ndebug w (.call c access))
    (h : moduleLogger ndebug (found (access w.disk) w.disk) m w.reg = none) :
    w.next ndebug (.call c access) = w := by
  simp only [Leaves, World.next, execute_threw hc h] at hleaves ⊢
  rw [hleaves]

theorem next_logger (hc : c.module? = some m) (hleaves : Leaves ndebug w (.call c access))
    (h : moduleLogger ndebug (found (access w.disk) w.disk) m w.reg = some logger) :
    w.next ndebug (.call c access) = w.withModule m (some (c.onLogger logger).2) ∧
      w.shown ndebug (.call c access) = some (c.onLogger logger).1 := by
  simp only [Leaves, World.next, World.shown, execute_logger hc h] at hleaves ⊢
  refine ⟨?_, trivial⟩
  rw [hleaves]
  rfl

theorem leaves_there (hc : c.module? = some m) (h : w.reg.modules m = some logger) :
    Leaves ndebug w (.call c access) := by
  simp only [Leaves, World.next, execute_logger hc (moduleLogger_some h), moduleDisk_some h]
  rfl

/-- Where the log file is there and not rotated on opening no file is changed. -/
theorem leaves_opened (hc : c.module? = some m)
    (h : w.reg.options.file_path = [] ∨ w.reg.options.truncate = false ∧
      (w.disk w.reg.options.file_path).isSome = true) :
    Leaves ndebug w (.call c access) := by
  have hmade : (makeLogger ndebug (found (access w.disk) w.disk) m
      { w.reg.options with logger_name := m }).2 = w.disk := by
    rw [makeLogger, createSinks]
    rcases h with hnone | ⟨hkeep, hthere⟩
    · rw [if_neg (not_not_intro hnone)]
      rfl
    · split
      · simp only [hkeep]
        exact rotatingFileSink_there hthere
      · rfl
  have hdisk : moduleDisk ndebug (found (access w.disk) w.disk) m w.reg = w.disk := by
    rw [moduleDisk]
    split
    · rfl
    · exact hmade
  cases hlogger : moduleLogger ndebug (found (access w.disk) w.disk) m w.reg with
  | none => simp only [Leaves, World.next, execute_threw hc hlogger, hdisk]
  | some logger => simp only [Leaves, World.next, execute_logger hc hlogger, hdisk]

end Calls

theorem next_own {e : Event} (he : asks m e = true) (h : Leaves ndebug w e) :
    ∃ x, w.next ndebug e = w.withModule m x := by
  cases e with
  | elsewhere f => cases he
  | call c access =>
    have hc : c.module? = some m := of_decide_eq_true he
    cases hlogger : moduleLogger ndebug (found (access w.disk) w.disk) m w.reg with
    | none =>
      refine ⟨w.reg.modules m, ?_⟩
      rw [World.withModule, withModule_self]
      exact next_threw hc h hlogger
    | some logger => exact ⟨_, (next_logger hc h hlogger).1⟩

theorem next_there (ndebug : Bool) {e : Event} (he : asks m e = true)
    (h : w.reg.modules m = some logger) :
    ∃ logger', w.next ndebug e = w.withModule m (some logger') := by
  cases e with
  | elsewhere f => cases he
  | call c access =>
    have hc : c.module? = some m := of_decide_eq_true he
    exact ⟨_, (next_logger hc (leaves_there hc h) (moduleLogger_some h)).1⟩

theorem withModule_twice (x y : Option Logger) (w : World) :
    (w.withModule m x).withModule m y = w.withModule m y := by
  simp only [World.withModule, withModule_same]

theorem modules_world (x : Option Logger) (w : World) : (w.withModule m x).reg.modules m = x :=
  modules_withModule w.reg

/-- A query does nothing to a module but give it a logger. -/
theorem next_query (q : Query) {access : Disk → Access}
    (hleaves : Leaves ndebug w (.call (q.call m) access)) :
    w.next ndebug (.call (q.call m) access) = w ∨
      ∃ logger, moduleLogger ndebug (found (access w.disk) w.disk) m w.reg = some logger ∧
        w.next ndebug (.call (q.call m) access) = w.withModule m (some logger) := by
  cases h : moduleLogger ndebug (found (access w.disk) w.disk) m w.reg with
  | none => exact .inl (next_threw q.module_call hleaves h)
  | some logger =>
    have hnext := (next_logger q.module_call hleaves h).1
    rw [q.onLogger] at hnext
    exact .inr ⟨logger, rfl, hnext⟩

theorem next_query_there (q : Query) (access : Disk → Access)
    (h : (w.reg.modules m).isSome = true) : w.next ndebug (.call (q.call m) access) = w := by
  obtain ⟨logger, hlogger⟩ := Option.isSome_iff_exists.mp h
  have hleaves : Leaves ndebug w (.call (q.call m) access) := leaves_there q.module_call hlogger
  have hnext := (next_logger q.module_call hleaves (moduleLogger_some hlogger)).1
  rw [q.onLogger, ← hlogger, World.withModule, withModule_self] at hnext
  exact hnext

end Steps

section Runs

/-- Whatever logger the module has got, the calls on others do as before. -/
theorem outcomes_others (es : List Event) (h : Spares ndebug m w es) (logger : Logger) (i : ℕ)
    {e : Event} (he : es[i]? = some e) (hne : asks m e = false) :
    ((w.withModule m (some logger)).outcomes ndebug es)[i]? = (w.outcomes ndebug es)[i]? := by
  induction es generalizing w logger i with
  | nil => rfl
  | cons e' es ih =>
    obtain ⟨hleaves, hspares⟩ := h
    cases hasks : asks m e' with
    | true =>
      cases i with
      | zero =>
        obtain rfl : e' = e := Option.some.inj he
        rw [hasks] at hne
        cases hne
      | succ i =>
        obtain ⟨x, hx⟩ := next_own hasks (hleaves hasks)
        obtain ⟨logger', hlogger'⟩ := next_there ndebug hasks (modules_world (some logger) w)
        have hnext : (w.withModule m (some logger)).next ndebug e' =
            (w.next ndebug e').withModule m (some logger') := by
          rw [hlogger', hx, withModule_twice, withModule_twice]
        simp only [World.outcomes, List.getElem?_cons_succ, hnext]
        exact ih hspares logger' i he
    | false =>
      obtain ⟨hnext, hshown⟩ := next_unseen ndebug w hasks (some logger)
      simp only [World.outcomes, hnext, hshown]
      cases i with
      | zero => rfl
      | succ i => exact ih hspares logger i he

theorem outcomes_touched (es : List Event) (h : TouchedAs ndebug m logger w es) :
    (w.withModule m (some logger)).outcomes ndebug es = w.outcomes ndebug es := by
  induction es generalizing w with
  | nil => rfl
  | cons e es ih =>
    cases e with
    | elsewhere f =>
      simp only [World.outcomes]
      exact congrArg _ (ih h)
    | call c access =>
      rw [TouchedAs] at h
      split at h
      · rename_i hc
        obtain ⟨hlogger, hleaves⟩ := h
        have hthere := modules_world (m := m) (some logger) w
        have hkept : Leaves ndebug (w.withModule m (some logger)) (.call c access) :=
          leaves_there hc hthere
        obtain ⟨hnext, hshown⟩ := next_logger hc hkept (moduleLogger_some hthere)
        obtain ⟨hnext', hshown'⟩ := next_logger hc hleaves hlogger
        simp only [World.outcomes, hnext, hshown, hnext', hshown', withModule_twice]
      · rename_i hc
        have hasks : asks m (.call c access) = false := decide_eq_false hc
        obtain ⟨hnext, hshown⟩ := next_unseen ndebug w hasks (some logger)
        simp only [World.outcomes, hnext, hshown]
        rw [ih h]

theorem outcomes_query (q : Query) {access : Disk → Access} (es : List Event)
    (h : Undisturbed ndebug access m q w es) :
    (w.next ndebug (.call (q.call m) access)).outcomes ndebug es = w.outcomes ndebug es := by
  rcases h with hthere | ⟨hleaves, htouched⟩
  · rw [next_query_there q access hthere]
  · rcases next_query q hleaves with hsame | ⟨logger, hlogger, hnext⟩
    · rw [hsame]
    · rw [hnext]
      exact outcomes_touched es (htouched logger hlogger)

end Runs

def allowed : Access where
  opens _ _ := true
  truncates _ := true
  renames _ _ := true
  removes _ := true

def logged : List Event :=
  [.call (.init { level := .warn, file_path := ['x'] }) fun _ ↦ allowed]

def restored : List Event :=
  [.call (.setLevel .info) fun _ ↦ allowed, .elsewhere fun disk ↦ update disk ['x'] (some 7),
    .call (.setLevel .warn) fun _ ↦ allowed, .call (.getModuleLevel ['a']) fun _ ↦ allowed]

/-- A query that throws can empty the log file, and so help another module. -/
example :
    let pinned : Access := { allowed with renames := fun _ _ ↦ false }
    let written : List Event :=
      [.call (.init { file_path := ['x'], truncate := true }) fun _ ↦ pinned,
        .elsewhere fun disk ↦ update disk ['x'] (some 5)]
    let later : List Event := [.call (.getModuleLevel ['b']) fun _ ↦ pinned]
    (World.after false { disk := fun _ ↦ none } written).outcomes false later = [some .threw] ∧
      (World.after false { disk := fun _ ↦ none }
        (written ++ [.call (.getModuleLevel ['a']) fun _ ↦ pinned])).outcomes false later =
          [some (.level .info)] := by
  decide

end LivioArk.Log.FirstTouch
