import BlockScript.Analysis.Report

/-! The listing of a program: a line for each statement, indented by two blanks for each block
around it, with its arguments and what the analysis found. -/

namespace BlockScript

/-- What stands for an argument in a listing; `?` stands for one that is unset or empty. -/
def Argument.listed {ι : Type} : Argument ι → String
  | .expressions _ [] => "?"
  | .expressions _ list => ExpressionList.render list
  | .literal type value =>
    match value with
    | .null => "?"
    | .string name => if type = .variable then "$" ++ name else value.compact
    | _ => value.compact

namespace Listing

/-- What an analysis found out about a statement, errors before warnings. -/
def remarks (a : Analysis) (tag : Nat) : String :=
  .join ((a.errorsOf tag ++ a.warningsOf tag).map fun d => s!"  # {d.kind}: {d.message}")

def line (a : Analysis) (site : Site Nat) : String :=
  let s := site.statement
  String.ofList (List.replicate (2 * (site.depth + 1)) ' ') ++ s.id ++
    .join (s.arguments.map fun argument => " " ++ argument.listed) ++ remarks a s.tag

def blockLines (a : Analysis) (block : Block Nat) : List String := block.sites.map (line a)

/-- The procedures and then the root block, each under a line of its own. -/
def lines (p : Program) (a : Analysis) : List String :=
  (p.procedures.entries.flatMap fun (id, body) => s!"procedure {id}:" :: blockLines a body) ++
    "block:" :: blockLines a p.block

end Listing

/-- The listing of a program as text, each line ended. -/
def Program.listing (p : Program) (a : Analysis) : String :=
  .join ((Listing.lines p a).map (· ++ "\n"))

end BlockScript
