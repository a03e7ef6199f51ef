import BlockScript.Proofs.Flags
import BlockScript.Session

/-! A session is always current. Every operation of a session either goes through and ends in one
refresh, or it leaves the session as it is; so the analysis is that of the program in the language,
the flags are those of the analysis, and each observer is shown the program that the operation
makes, once. -/

namespace BlockScript

/-- What may be asked of a session. -/
inductive Operation : Type 1 where
  | add (place : Address) (id : String)
  | addTemplate {ι : Type} (place : Address) (template : Statement ι)
  | remove (place : Address) (index : Nat)
  | move (place : Address) (source target : Nat)
  | transfer (source : Address) (sourceIndex : Nat) (target : Address) (targetIndex : Nat)
  | addVariable (name : String) (type : ValueType) (value : Json)
  | removeVariable (name : String)
  | registerProcedure {ι : Type} (id label : String) (icon : Option String) (colors : List String)
      (body : Block ι)
  | unregisterProcedure (id : String)
  | importDocument (text : String)
  | importProcedures (text : String)
  | edit {α : Type} (change : Program → α × Program)

/-- What becomes of an operation. -/
inductive Ending where
  | done
  /-- The operation has an error for its answer. -/
  | refused
  /-- There is nothing to do, and that is no error. -/
  | idle
deriving DecidableEq

/-- A refused operation has no session for its answer, and the old one stays. -/
def Session.settle {ε : Type} (s : Session) : Except ε Session → Ending × Session
  | .ok t => (.done, t)
  | .error _ => (.refused, s)

namespace Operation

def run (s : Session) : Operation → Ending × Session
  | add place id =>
    match s.add? place id with
    | some answer => s.settle answer
    | none => (.idle, s)
  | addTemplate place template => s.settle (s.addTemplate place template)
  | remove place index => s.settle ((s.remove place index).map Prod.snd)
  | move place source target => s.settle (s.move place source target)
  | transfer source sourceIndex target targetIndex =>
    s.settle (s.transfer source sourceIndex target targetIndex)
  | addVariable name type value => s.settle (s.addVariable name type value)
  | removeVariable name =>
    (if s.program.variables.contains name then .done else .idle, s.removeVariable name)
  | registerProcedure id label icon colors body =>
    s.settle (s.registerProcedure id label icon colors body)
  | unregisterProcedure id => (.done, s.unregisterProcedure id)
  | importDocument text => s.settle (s.importDocument text)
  | importProcedures text => s.settle (s.importProcedures text)
  | edit change => (.done, (s.edit change).2)

/-- The program that an operation makes, not yet flagged, if the operation goes through. -/
def program? (s : Session) : Operation → Option Program
  | add place id => do (s.program.add place (← s.language.instantiate? id)).toOption
  | addTemplate place template => (s.program.add place template).toOption
  | remove place index => (s.program.remove place index).toOption.map Prod.snd
  | move place source target => (s.program.move place source target).toOption
  | transfer source sourceIndex target targetIndex =>
    (s.program.transfer source sourceIndex target targetIndex).toOption
  | addVariable name type value => (s.program.addVariable name type value).toOption
  | removeVariable name =>
    if s.program.variables.contains name then some (s.program.removeVariable name) else none
  | registerProcedure id _ _ _ body =>
    if s.language.statements.contains id then none else (s.program.addProcedure id body).toOption
  | unregisterProcedure id => some (s.program.removeProcedure id)
  | importDocument text => (Draft.read text).toOption.map (.ofDraft · s.program.next)
  | importProcedures text => do
    let procedures ← (Draft.readProcedures text).toOption
    if procedures.keys.any s.isTaken then none
    else some (procedures.entries.foldl (fun p (id, body) => p.putProcedure id body) s.program)
  | edit change => some (change s.program).2

/-- The operation is about a kind of statements that the language lacks, or about a variable that
the program lacks. -/
def Pointless (s : Session) : Operation → Prop
  | add _ id => id ∉ s.language.statements.keys
  | removeVariable name => name ∉ s.program.variables.keys
  | _ => False

end Operation

/-- What may happen to a session. -/
inductive Event : Type 1 where
  | operation (operation : Operation)
  /-- One more observer joins. -/
  | subscribe

def Event.run (s : Session) : Event → Session
  | .operation o => (o.run s).2
  | .subscribe => s.subscribe

/-- Where a language has no statement of the name, a procedure comes and goes without a trace. -/
theorem Language.unregisterProcedure_define {lang : Language} {id : String}
    (free : id ∉ lang.statements.keys) (label : String) (icon : Option String)
    (colors : List String) :
    (lang.define id (procedureDescriptor label icon colors)).unregisterProcedure id = lang := by
  have hprocedure :
      (lang.define id (procedureDescriptor label icon colors)).isProcedure id = true := by
    simp [isProcedure, statement?, define, procedureDescriptor]
  rw [unregisterProcedure, if_pos hprocedure]
  simp only [define, Table.erase_insert _ free]

namespace Session

variable {ε ι : Type} {s : Session}

/-- The session after operations, whatever becomes of each. -/
def after (s : Session) (operations : List Operation) : Session :=
  operations.foldl (fun s operation => (operation.run s).2) s

/-- The session after events. -/
def afterEvents (s : Session) (events : List Event) : Session := events.foldl Event.run s

/-- The analysis is that of the program in the language, and the flags are those of the analysis. -/
structure Current (s : Session) : Prop where
  analysis : s.analysis = s.language.analyze s.program
  flags : s.program.Flagged s.analysis

/-- A refresh makes any session current: the flags that it writes do not matter to the analysis. -/
theorem current_refresh (s : Session) : s.refresh.Current where
  analysis := (s.language.analyze_mark s.program _).symm
  flags := s.program.flagged_mark _

theorem current_start (language : Language) (program : Program) :
    (start language program).Current :=
  current_refresh _

/-! ### One operation -/

/-- The ways in which an operation can end: in one refresh of a session that nobody has been shown,
with the program that the operation makes, or without any change. -/
inductive Ends (s : Session) : Ending × Session → Option Program → Prop
  | done {changed : Session} : changed.observers = s.observers →
      Ends s (.done, changed.refresh) (some changed.program)
  | refused : Ends s (.refused, s) none
  | idle : Ends s (.idle, s) none

/-- An operation that goes through where the edit of its program does. -/
theorem Ends.settle (edited : Except ε Program) {finish : Program → Session}
    (ok : ∀ p, s.Ends (.done, finish p) (some p)) :
    s.Ends (s.settle (do return finish (← edited))) edited.toOption := by
  cases edited with
  | error e => exact .refused
  | ok p => exact ok p

/-- The session with procedures that are labelled with their names. -/
def putProcedures (s : Session) (entries : List (String × Block ι)) : Session :=
  entries.foldl (fun s (id, body) => s.putProcedure id id none [] body) s

theorem observers_putProcedures (s : Session) (entries : List (String × Block ι)) :
    (s.putProcedures entries).observers = s.observers := by
  induction entries generalizing s with
  | nil => rfl
  | cons entry rest ih => exact ih _

theorem program_putProcedures (s : Session) (entries : List (String × Block ι)) :
    (s.putProcedures entries).program =
      entries.foldl (fun p (id, body) => p.putProcedure id body) s.program := by
  induction entries generalizing s with
  | nil => rfl
  | cons entry rest ih => exact ih _

theorem ends_run (s : Session) (operation : Operation) :
    s.Ends (operation.run s) (operation.program? s) := by
  cases operation with
  | add place id =>
    rw [Operation.run, add?, Operation.program?]
    cases s.language.instantiate? id with
    | none => exact .idle
    | some template => exact .settle _ fun _ => .done rfl
  | addTemplate | move | transfer | addVariable =>
    exact .settle _ fun _ => .done rfl
  | remove place index =>
    rw [Operation.run, remove, Operation.program?]
    cases s.program.remove place index with
    | error => exact .refused
    | ok answer => exact .done rfl
  | removeVariable name =>
    rw [Operation.run, removeVariable, Operation.program?]
    split
    · exact .done rfl
    · exact .idle
  | registerProcedure id label icon colors body =>
    rw [Operation.run, registerProcedure, isTaken, Operation.program?, Program.addProcedure]
    cases s.language.statements.contains id <;> cases s.program.procedures.contains id
    case false.false => exact .done rfl
    all_goals exact .refused
  | importDocument text =>
    rw [Operation.run, importDocument, Operation.program?]
    cases Draft.read text with
    | error => exact .refused
    | ok draft => exact .done rfl
  | importProcedures text =>
    rw [Operation.run, importProcedures, Operation.program?]
    cases Draft.readProcedures text with
    | error => exact .refused
    | ok procedures =>
      simp only [bind, Except.bind, Except.toOption, Option.bind]
      cases htaken : procedures.keys.filter s.isTaken with
      | nil =>
        have hany : ¬procedures.keys.any s.isTaken := by
          rw [List.any_eq_true, not_exists]
          exact fun id h => List.filter_eq_nil_iff.mp htaken id h.1 h.2
        rw [if_neg hany, ← program_putProcedures]
        exact .done (observers_putProcedures s procedures.entries)
      | cons id rest =>
        have hid : id ∈ procedures.keys.filter s.isTaken := htaken ▸ List.mem_cons_self
        rw [if_pos (List.any_eq_true.mpr ⟨id, List.mem_filter.mp hid⟩)]
        exact .refused
  | unregisterProcedure | edit => exact .done rfl

variable {made : Option Program} {result : Ending × Session}

theorem Ends.current (h : s.Ends result made) (hs : s.Current) : result.2.Current := by
  cases h with
  | done => exact current_refresh _
  | refused | idle => exact hs

theorem Ends.observers (h : s.Ends result made) : result.2.observers = s.observers.map
    (· ++ if result.1 = .done then [⟨result.2.program, result.2.analysis⟩] else []) := by
  cases h with
  | done hobservers =>
    rw [← hobservers]
    rfl
  | refused | idle => simp

theorem Ends.program (h : s.Ends result made) : (result.1 = .done ↔ made.isSome) ∧
    ∀ program ∈ made, result.2.program = program.mark result.2.analysis := by
  cases h with
  | done => simp [refresh]
  | refused | idle => simp

theorem Ends.unchanged (h : s.Ends result made) : result.1 = .done ∨ result.2 = s := by
  cases h with
  | done => exact .inl rfl
  | refused | idle => exact .inr rfl

/-- Neither done nor refused are exactly the operations with nothing to do. -/
theorem fst_run_eq_idle_iff (s : Session) (operation : Operation) :
    (operation.run s).1 = .idle ↔ operation.Pointless s := by
  have settled : ∀ {ε : Type} (answer : Except ε Session), (s.settle answer).1 ≠ .idle := by
    intro ε answer
    cases answer with
    | error | ok => simp [settle]
  cases operation with
  | add place id =>
    rw [Operation.run, Operation.Pointless, add?, Language.instantiate?, Language.statement?,
      ← Table.get?_eq_none_iff]
    cases s.language.statements.get? id with
    | none => simp
    | some d => simpa using settled _
  | removeVariable name =>
    rw [Operation.run, Operation.Pointless, ← Table.contains_iff]
    split <;> simp_all
  | addTemplate | remove | move | transfer | addVariable | registerProcedure | importDocument
  | importProcedures =>
    exact ⟨fun h => absurd h (settled _), False.elim⟩
  | unregisterProcedure | edit => exact ⟨fun h => Ending.noConfusion h, False.elim⟩

/-! ### Operations of several steps

A procedure is put into the language and into the program one after the other. These steps may fail
in the middle. -/

/-- Registers a procedure step by step: where the program refuses it, the language gives it up
again. -/
def registerInPlace (s : Session) (id label : String) (icon : Option String) (colors : List String)
    (body : Block ι) : Ending × Session :=
  match s.language.registerProcedure id label icon colors with
  | .error _ => (.refused, s)
  | .ok language =>
    match s.program.addProcedure id body with
    | .error _ => (.refused, { s with language := language.unregisterProcedure id })
    | .ok program => (.done, { s with language, program }.refresh)

/-- Adds procedures one after the other; where one is refused, those before it would stay. -/
def mergeInPlace (s : Session) : List (String × Block ι) → Ending × Session
  | [] => (.done, s.refresh)
  | (id, body) :: rest =>
    match s.language.registerProcedure id id with
    | .error _ => (.refused, s)
    | .ok language =>
      match s.program.addProcedure id body with
      | .error _ => (.refused, { s with language })
      | .ok program => { s with language, program }.mergeInPlace rest

/-- Merges the procedures of a document if none of their names is taken. -/
def importInPlace (s : Session) (text : String) : Ending × Session :=
  match Draft.readProcedures text with
  | .error _ => (.refused, s)
  | .ok procedures =>
    if (procedures.keys.filter s.isTaken).isEmpty then s.mergeInPlace procedures.entries
    else (.refused, s)

theorem registerInPlace_eq (s : Session) (id label : String) (icon : Option String)
    (colors : List String) (body : Block ι) :
    s.registerInPlace id label icon colors body =
      s.settle (s.registerProcedure id label icon colors body) := by
  rw [registerInPlace, registerProcedure, isTaken]
  by_cases hlanguage : s.language.statements.contains id
  · simp [Language.registerProcedure, hlanguage, settle]
  · by_cases hprogram : s.program.procedures.contains id
    · have free : id ∉ s.language.statements.keys := by rwa [Table.contains_iff] at hlanguage
      have hback := Language.unregisterProcedure_define free label icon colors
      simp [Language.registerProcedure, hlanguage, Program.addProcedure, hprogram, settle, hback]
    · simp [Language.registerProcedure, hlanguage, Program.addProcedure, hprogram, settle,
        putProcedure]

theorem isTaken_putProcedure {id k : String} (hne : k ≠ id) (label : String)
    (icon : Option String) (colors : List String) (body : Block ι) :
    (s.putProcedure id label icon colors body).isTaken k = s.isTaken k := by
  simp [isTaken, putProcedure, Program.putProcedure, Language.define, Table.contains,
    Table.get?_insert, hne]

/-- Procedures whose names are free and distinct are all added. -/
theorem mergeInPlace_eq {entries : List (String × Block ι)}
    (distinct : (entries.map Prod.fst).Nodup)
    (free : ∀ id ∈ entries.map Prod.fst, s.isTaken id = false) :
    s.mergeInPlace entries = (.done, (s.putProcedures entries).refresh) := by
  induction entries generalizing s with
  | nil => rfl
  | cons entry rest ih =>
    obtain ⟨id, body⟩ := entry
    rw [List.map_cons, List.nodup_cons] at distinct
    rw [List.map_cons, List.forall_mem_cons] at free
    obtain ⟨hprogram, hlanguage⟩ := Bool.or_eq_false_iff.mp free.1
    rw [putProcedures, List.foldl_cons, ← putProcedures, ← ih distinct.2, mergeInPlace]
    · simp [Language.registerProcedure, hlanguage, Program.addProcedure, hprogram, putProcedure]
    · intro k hk
      have hne : k ≠ id := fun e => distinct.1 (e ▸ hk)
      rw [isTaken_putProcedure hne]
      exact free.2 k hk

theorem importInPlace_eq (s : Session) (text : String) :
    s.importInPlace text = s.settle (s.importProcedures text) := by
  rw [importInPlace, importProcedures]
  cases Draft.readProcedures text with
  | error => rfl
  | ok procedures =>
    simp only [bind, Except.bind]
    cases htaken : procedures.keys.filter s.isTaken with
    | cons => rfl
    | nil =>
      have free : ∀ id ∈ procedures.entries.map Prod.fst, s.isTaken id = false := by
        intro id hid
        have := List.filter_eq_nil_iff.mp htaken id hid
        rwa [Bool.not_eq_true] at this
      rw [List.isEmpty_nil, if_pos rfl, mergeInPlace_eq procedures.nodup free]
      rfl

/-! ### Runs -/

theorem current_after {operations : List Operation} (hs : s.Current) :
    (s.after operations).Current := by
  induction operations generalizing s with
  | nil => exact hs
  | cons operation rest ih => exact ih ((ends_run s operation).current hs)

theorem current_afterEvents {events : List Event} (hs : s.Current) :
    (s.afterEvents events).Current := by
  induction events generalizing s with
  | nil => exact hs
  | cons event rest ih =>
    refine ih ?_
    cases event with
    | operation operation => exact (ends_run s operation).current hs
    | subscribe => exact ⟨hs.analysis, hs.flags⟩

/-- Sessions are current before and after every operation, whoever has joined by then. Where the
operation goes through, each observer is shown once the program that the operation makes, flagged,
with its analysis. Otherwise nobody is shown anything, and the session is as it was. There is
nothing to do, without an error, only for an unknown kind of statement or an absent variable; edits
and the removal of procedures always go through. Where steps could fail in the middle, either all go
through or those before are taken back. -/
theorem current_throughout (language : Language) (program : Program) :
    (∀ (events : List Event) (operation : Operation),
      let s := (start language program).afterEvents events
      let ending := (operation.run s).1
      let t := (operation.run s).2
      s.Current ∧ t.Current ∧
      t.observers = s.observers.map
        (· ++ if ending = .done then [⟨t.program, t.analysis⟩] else []) ∧
      (ending = .done ↔ (operation.program? s).isSome) ∧
      (∀ made ∈ operation.program? s, t.program = made.mark t.analysis) ∧
      (ending = .done ∨ t = s) ∧
      (ending = .idle ↔ operation.Pointless s)) ∧
    ∀ s : Session,
      (∀ (α : Type) (change : Program → α × Program), ((Operation.edit change).run s).1 = .done) ∧
      (∀ id, ((Operation.unregisterProcedure id).run s).1 = .done) ∧
      (∀ (ι : Type) id label icon colors (body : Block ι),
        (Operation.registerProcedure id label icon colors body).run s =
          s.registerInPlace id label icon colors body) ∧
      ∀ text, (Operation.importProcedures text).run s = s.importInPlace text := by
  refine ⟨fun events operation => ?_, fun s => ⟨fun _ _ => rfl, fun _ => rfl, ?_, ?_⟩⟩
  · intro s ending t
    have hcurrent : s.Current := current_afterEvents (current_start language program)
    have hends : s.Ends (operation.run s) (operation.program? s) := ends_run s operation
    obtain ⟨hdone, hmade⟩ := hends.program
    exact ⟨hcurrent, hends.current hcurrent, hends.observers, hdone, hmade, hends.unchanged,
      fst_run_eq_idle_iff s operation⟩
  · intro ι id label icon colors body
    exact (registerInPlace_eq s id label icon colors body).symm
  · intro text
    exact (importInPlace_eq s text).symm

end Session

end BlockScript
