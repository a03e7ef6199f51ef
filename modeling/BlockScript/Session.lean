import BlockScript.Analysis.Report
import BlockScript.Document.Draft
import BlockScript.Document.Export
import BlockScript.Program.Edit

/-! Editing sessions: a program, the language that it is checked against, and its analysis. Whatever
changes the program is followed by a new analysis, and each observer is shown the result; what is
refused leaves the session as it is. -/

namespace BlockScript

/-- What an observer of a session is shown. -/
structure Snapshot where
  program : Program
  analysis : Analysis
deriving Inhabited

/-- An observer, known by all that it has been shown since it joined, the latest last. -/
abbrev Observer := List Snapshot

structure Session where
  language : Language
  program : Program := {}
  analysis : Analysis := {}
  /-- In the order in which they joined. -/
  observers : List Observer := []
deriving Inhabited

namespace Session

variable {ι : Type}

/-- Analyses the program, flags its statements and shows the result to each observer. -/
def refresh (s : Session) : Session :=
  let analysis := s.language.analyze s.program
  let program := s.program.mark analysis
  { s with program, analysis, observers := s.observers.map (· ++ [⟨program, analysis⟩]) }

/-- One more observer joins. It is shown nothing yet. -/
def subscribe (s : Session) : Session := { s with observers := s.observers ++ [[]] }

/-- The session with another program, whose procedures and variables take the place of the old ones
in the language. -/
def replace (s : Session) (program : Program) : Session :=
  let lang := s.program.procedures.keys.foldl Language.unregisterProcedure s.language
  let lang := s.program.variables.keys.foldl Language.unregisterVariable lang
  let lang := program.procedures.keys.foldl Language.offerProcedure lang
  let lang := program.variables.entries.foldl
    (fun lang (name, v) => lang.registerVariable name v.type) lang
  { s with language := lang, program }.refresh

/-- A session on a program. -/
def start (language : Language) (program : Program := {}) : Session :=
  { language : Session }.replace program

/-! ### Statements -/

/-- A copy of the template at the end of a block; its tag is the `next` of the program before. -/
def addTemplate (s : Session) (place : Address) (template : Statement ι) :
    Except EditError Session := do
  return { s with program := ← s.program.add place template }.refresh

/-- A new statement of the kind `id` at the end of a block, if the language has that kind. -/
def add? (s : Session) (place : Address) (id : String) : Option (Except EditError Session) :=
  (s.language.instantiate? id).map fun template => s.addTemplate place template

def remove (s : Session) (place : Address) (index : Nat) :
    Except EditError (Statement Nat × Session) := do
  let (removed, program) ← s.program.remove place index
  return (removed, { s with program }.refresh)

def move (s : Session) (place : Address) (source target : Nat) : Except EditError Session := do
  return { s with program := ← s.program.move place source target }.refresh

def transfer (s : Session) (source : Address) (sourceIndex : Nat) (target : Address)
    (targetIndex : Nat) : Except EditError Session := do
  return { s with program := ← s.program.transfer source sourceIndex target targetIndex }.refresh

/-- Any other change of the program. -/
def edit {α : Type} (s : Session) (change : Program → α × Program) : α × Session :=
  let (answer, program) := change s.program
  (answer, { s with program }.refresh)

/-! ### Variables -/

def addVariable (s : Session) (name : String) (type : ValueType) (value : Json) :
    Except VariableError Session := do
  let program ← s.program.addVariable name type value
  return { s with program, language := s.language.registerVariable name type }.refresh

/-- Nothing happens, and nothing is shown, if there is no such variable. -/
def removeVariable (s : Session) (name : String) : Session :=
  if s.program.variables.contains name then
    { s with
      program := s.program.removeVariable name
      language := s.language.unregisterVariable name }.refresh
  else s

/-! ### Procedures -/

/-- Whether a procedure of the program or a statement of the language has the name. -/
def isTaken (s : Session) (id : String) : Bool :=
  s.program.procedures.contains id || s.language.statements.contains id

/-- A procedure both in the language and in the program. -/
def putProcedure (s : Session) (id label : String) (icon : Option String) (colors : List String)
    (body : Block ι) : Session :=
  { s with
    language := s.language.define id (Language.procedureDescriptor label icon colors)
    program := s.program.putProcedure id body }

def registerProcedure (s : Session) (id label : String) (icon : Option String)
    (colors : List String) (body : Block ι) : Except NameTaken Session :=
  if s.isTaken id then .error ⟨id⟩ else .ok (s.putProcedure id label icon colors body).refresh

/-- Statements that call the procedure stay, and are unknown from now on. -/
def unregisterProcedure (s : Session) (id : String) : Session :=
  { s with
    language := s.language.unregisterProcedure id
    program := s.program.removeProcedure id }.refresh

/-! ### Documents -/

/-- Replaces the program by that of a document. -/
def importDocument (s : Session) (text : String) : Except ImportError Session := do
  return s.replace (.ofDraft (← Draft.read text) s.program.next)

/-- Adds the procedures of a document, all of them or, if names are taken, none. -/
def importProcedures (s : Session) (text : String) : Except ImportError Session := do
  let procedures ← Draft.readProcedures text
  match procedures.keys.filter s.isTaken with
  | [] =>
    let added := procedures.entries.foldl (fun s (id, body) => s.putProcedure id id none [] body) s
    return added.refresh
  | taken => .error (.duplicateProcedures taken)

def exportDocument (s : Session) : String := s.program.document

end Session

end BlockScript
