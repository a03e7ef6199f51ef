import BlockScript.Analysis.Rules
import BlockScript.Analysis.Schedule

/-! The result of an analysis: the errors and the warnings of each statement that has any, in the
order of visits, and the bookkeeping entries that lead nowhere. -/

namespace BlockScript

/-- The table with one more entry at the end of the list under the key. -/
def Table.push {κ α : Type} [DecidableEq κ] (t : Table κ (List α)) (key : κ) (a : α) :
    Table κ (List α) :=
  t.insert key ((t.get? key).getD [] ++ [a])

/-- The second components that belong to each first component, in order. -/
def Table.collect {κ α : Type} [DecidableEq κ] (pairs : List (κ × α)) : Table κ (List α) :=
  pairs.foldl (fun t (key, a) => t.push key a) ∅

structure Analysis where
  /-- Keys are the tags of statements. -/
  errors : Table Nat (List Diagnostic) := ∅
  warnings : Table Nat (List Diagnostic) := ∅
  dangling : List Dangling := []
deriving DecidableEq, Inhabited

/-- What is found on a visit: the rules are checked first, then whether the call is reentrant. -/
def Language.checkVisit (lang : Language) (visit : Visit) : List Diagnostic :=
  lang.checkSite visit.site ++
    if visit.reentrant then [.cyclicProcedure visit.site.statement.id] else []

/-- What is found on visits, with the tags of the statements. -/
def Language.findings (lang : Language) (visits : List Visit) : List (Nat × Diagnostic) :=
  visits.flatMap fun visit => (lang.checkVisit visit).map (visit.site.statement.tag, ·)

namespace Analysis

def ofFindings (findings : List (Nat × Diagnostic)) (dangling : List Dangling) : Analysis where
  errors := .collect (findings.filter fun finding => finding.2.severity = .error)
  warnings := .collect (findings.filter fun finding => finding.2.severity = .warning)
  dangling := dangling

def isValid (a : Analysis) (tag : Nat) : Bool := !a.errors.contains tag

def errorsOf (a : Analysis) (tag : Nat) : List Diagnostic := (a.errors.get? tag).getD []

def warningsOf (a : Analysis) (tag : Nat) : List Diagnostic := (a.warnings.get? tag).getD []

def errorCount (a : Analysis) : Nat := a.errors.values.flatten.length

def warningCount (a : Analysis) : Nat := a.warnings.values.flatten.length

/-- Warnings do not count. -/
def isClean (a : Analysis) : Bool := a.errors.isEmpty && a.dangling.isEmpty

end Analysis

/-- The analysis of a block that stands in `parent`, where the procedures may be called. -/
def Language.analyzeBlock (lang : Language) (procedures : Table String (Block Nat))
    (block : Block Nat) (parent : Option (Statement Nat) := none) : Analysis :=
  .ofFindings (lang.findings (lang.visitBlock procedures block parent)) []

def Language.analyze (lang : Language) (p : Program) : Analysis :=
  .ofFindings (lang.findings (lang.visitProgram p)) p.dangling

/-- The program with exactly the statements flagged that have errors. -/
def Program.mark (p : Program) (a : Analysis) : Program :=
  { p with
    block := p.block.mark a.errors.contains
    procedures := p.procedures.mapValues fun _ body => Block.mark a.errors.contains body }

end BlockScript
