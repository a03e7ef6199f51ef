import BlockScript.CommandLine.Request
import BlockScript.Listing
import BlockScript.Session

/-! Running a command against a file system. What can go wrong is told with its context, the
outermost first. -/

namespace BlockScript

/-- Files by name, in some monad. Where reading or writing fails it answers with the reason. -/
structure FileSystem (m : Type → Type) where
  read : String → m (Except String String)
  write : String → String → m (Except String Unit)

/-- What a command leaves behind, files aside. -/
structure Outcome where
  code : UInt32
  stdout : String := ""
  stderr : String := ""
deriving Inhabited, DecidableEq

namespace CommandLine

def version : String := "iotblocks-rust 0.1.0"

def usage : String :=
  "Usage: iotblocks check <program> [--devices <file>]\n" ++
  "       iotblocks fmt <program> [-o <file>]\n" ++
  "       iotblocks render <program> [--devices <file>]\n" ++
  "       iotblocks merge <program> <procedures> [-o <file>]\n"

def tagName (tag : Nat) : String := s!"u{tag}"

/-- The lines for the findings of one severity. -/
def findingLines (p : Program) (severity : String) (findings : Table Nat (List Diagnostic)) :
    List String :=
  findings.entries.flatMap fun (tag, diagnostics) =>
    let id := ((p.find? tag).map Statement.id).getD "?"
    diagnostics.map fun d => s!"{severity}: {id} ({tagName tag}) {d.kind}: {d.message}\n"

def danglingLine (d : Dangling) : String :=
  s!"warning: {d.source.name} references removed statement {tagName d.tag}\n"

/-- All findings of an analysis, errors first. -/
def findings (p : Program) (a : Analysis) : String :=
  .join (findingLines p "error" a.errors ++ findingLines p "warning" a.warnings ++
    a.dangling.map danglingLine)

def failure (reason : String) (stdout : String := "") : Outcome :=
  { code := 1, stdout, stderr := s!"error: {reason}\n" }

/-- Checking fails if there are errors; warnings are only counted. -/
def report (path : String) (s : Session) : Outcome :=
  let found := findings s.program s.analysis
  if 0 < s.analysis.errorCount then
    failure s!"{path} has {s.analysis.errorCount} error(s)" found
  else
    { code := 0, stdout := found ++ s!"{path}: ok ({s.analysis.warningCount} warning(s))\n" }

variable {m : Type → Type} [Monad m]

def readFile (fs : FileSystem m) (path : String) : ExceptT String m String :=
  ExceptT.mk do return (← fs.read path).mapError fun reason => s!"Reading {path}: {reason}"

/-- The language of a catalog, or of no devices. -/
def openLanguage (fs : FileSystem m) : Option String → ExceptT String m Language
  | none => return .build []
  | some path => do
    let catalog := Device.readCatalog (← readFile fs path)
    let devices ← catalog.mapError fun e => s!"Parsing device catalog {path}: {e.message}"
    return .build devices

/-- A session on the program of a document. -/
def openProgram (fs : FileSystem m) (path : String) (devices : Option String) :
    ExceptT String m Session := do
  let lang ← openLanguage fs devices
  let text ← readFile fs path
  ((Session.start lang).importDocument text).mapError fun e =>
    s!"Parsing program {path}: {e.message}"

/-- Writes a text to a file, or to the standard output with a new line after it. -/
def deliver (fs : FileSystem m) (text : String) : Option String → ExceptT String m Outcome
  | none => return { code := 0, stdout := text ++ "\n" }
  | some path => do
    ExceptT.mk do return (← fs.write path text).mapError fun reason => s!"Writing {path}: {reason}"
    return { code := 0 }

def execute (fs : FileSystem m) : Command → ExceptT String m Outcome
  | .check program devices => return report program (← openProgram fs program devices)
  | .format program output => do
    deliver fs (← openProgram fs program none).exportDocument output
  | .render program devices => do
    let s ← openProgram fs program devices
    return { code := 0, stdout := s.program.listing s.analysis }
  | .merge program procedures output => do
    let s ← openProgram fs program none
    let text ← readFile fs procedures
    let s ← (s.importProcedures text).mapError fun e =>
      s!"Importing procedures from {procedures}: {e.message}"
    deliver fs s.exportDocument output

/-- The outcome of a command line. -/
def run (fs : FileSystem m) (arguments : List String) : m Outcome :=
  match Request.ofArguments arguments with
  | .version => return { code := 0, stdout := version ++ "\n" }
  | .help => return { code := 0, stdout := usage }
  | .misuse => return { code := 2, stderr := usage }
  | .run command => do
    match ← (execute fs command).run with
    | .ok outcome => return outcome
    | .error reason => return failure reason

end CommandLine

end BlockScript
