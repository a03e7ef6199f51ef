import BlockScript.Analysis.Diagnostic
import BlockScript.Language.Registry
import BlockScript.Statement.Walk

/-! The rules for a single statement: what its descriptor asks of the sibling before it and of the
statement around it, what the latter asks of it, and that its expressions are complete. -/

namespace BlockScript

variable {ι : Type}

namespace Descriptor

/-- The sibling before a statement must be an allowed one, and must not be a forbidden one. -/
def checkPrevious (d : Descriptor) (id : String) : Option String → List Diagnostic
  | none =>
    if d.previous.allowed.isEmpty then [] else [.missingPredecessor id d.previous.allowed none]
  | some previous =>
    (if d.previous.allows previous then []
      else [.missingPredecessor id d.previous.allowed (some previous)]) ++
    (if d.previous.forbids previous then [.forbiddenPredecessor id previous] else [])

/-- The statement around a statement must be an allowed one, and must not be a forbidden one. -/
def checkParent (d : Descriptor) (id : String) : Option String → List Diagnostic
  | none => if d.parent.allowed.isEmpty then [] else [.invalidParent id d.parent.allowed none]
  | some parent =>
    (if d.parent.allows parent then [] else [.invalidParent id d.parent.allowed (some parent)]) ++
    (if d.parent.forbids parent then [.forbiddenParent id parent] else [])

end Descriptor

/-- A statement must be one that the statement around it, if the language knows it, accepts. -/
def Language.checkNesting (lang : Language) (id : String) : Option String → List Diagnostic
  | none => []
  | some parent =>
    match lang.statement? parent with
    | none => []
    | some d =>
      if d.nested.allows id && !d.nested.forbids id then [] else [.disallowedNesting id parent]

namespace Expression

/-- Whether an operand that the operator needs has no value. -/
def lacksOperand (operator : String) (first : Operand ι) (second : Option (Operand ι)) : Bool :=
  first.isUnset || (!Operator.isUnary operator &&
    match second with
    | some second => second.isUnset
    | none => true)

mutual

/-- Operators must be known and operands must have a value. -/
def check : Expression ι → List Diagnostic
  | leaf tag operator first second =>
    (if Operator.isComparison operator then [] else [.invalidComparison operator]) ++
    (if lacksOperand operator first second then
        [.unsetOperand (leaf tag operator first second).render]
      else [])
  | group _ operator children =>
    (if Operator.isCombinator operator then [] else [.invalidCombinator operator]) ++
      checkEach children
  | operand o => if o.isUnset then [.unsetMember] else []

def checkEach : List (Expression ι) → List Diagnostic
  | [] => []
  | e :: rest => e.check ++ checkEach rest

end

end Expression

def Argument.check : Argument ι → List Diagnostic
  | .literal .. => []
  | .expressions _ list => Expression.checkEach list

/-- What the rules find at a site. Of a statement that the language does not know, only that is
said. -/
def Language.checkSite (lang : Language) (site : Site ι) : List Diagnostic :=
  let id := site.statement.id
  let parent := site.parent.map Statement.id
  match lang.statement? id with
  | none => [.unknownStatement id]
  | some d =>
    d.checkPrevious id (site.previous.map Statement.id) ++ d.checkParent id parent ++
      lang.checkNesting id parent ++ site.statement.arguments.flatMap Argument.check

end BlockScript
