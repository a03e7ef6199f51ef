/-! The findings of an analysis, each with the facts that its message names. -/

namespace BlockScript

inductive Severity where
  | error
  | warning
deriving DecidableEq, Inhabited

inductive Diagnostic where
  | unknownStatement (id : String)
  /-- None of the allowed ones stands just before. -/
  | missingPredecessor (id : String) (allowed : List String) (previous : Option String)
  | forbiddenPredecessor (id previous : String)
  /-- The statement stands inside none of the allowed ones. -/
  | invalidParent (id : String) (allowed : List String) (parent : Option String)
  | forbiddenParent (id parent : String)
  | disallowedNesting (id parent : String)
  /-- The operator of a comparison is none. -/
  | invalidComparison (operator : String)
  /-- The operator of a group is none. -/
  | invalidCombinator (operator : String)
  /-- The body of the procedure that is called here leads to this call. -/
  | cyclicProcedure (id : String)
  /-- An operand of the comparison that reads so is unset. -/
  | unsetOperand (text : String)
  /-- An operand that stands for itself is unset. -/
  | unsetMember
deriving DecidableEq, Inhabited

namespace Diagnostic

/-- The name of the rule that is broken. -/
def kind : Diagnostic → String
  | unknownStatement .. => "UnknownStatement"
  | missingPredecessor .. => "MissingPredecessor"
  | forbiddenPredecessor .. => "ForbiddenPredecessor"
  | invalidParent .. => "InvalidParent"
  | forbiddenParent .. => "ForbiddenParent"
  | disallowedNesting .. => "DisallowedNesting"
  | invalidComparison .. | invalidCombinator .. => "InvalidOperator"
  | cyclicProcedure .. => "CyclicProcedure"
  | unsetOperand .. | unsetMember => "IncompleteExpression"

def severity : Diagnostic → Severity
  | unsetOperand .. | unsetMember => .warning
  | _ => .error

@[simp] theorem severity_invalidComparison (operator : String) :
    (invalidComparison operator).severity = .error := rfl

@[simp] theorem severity_invalidCombinator (operator : String) :
    (invalidCombinator operator).severity = .error := rfl

@[simp] theorem severity_cyclicProcedure (id : String) :
    (cyclicProcedure id).severity = .error := rfl

@[simp] theorem severity_unsetOperand (text : String) :
    (unsetOperand text).severity = .warning := rfl

@[simp] theorem severity_unsetMember : unsetMember.severity = .warning := rfl

/-- The ids in quotes, with commas between them. -/
def oneOf (ids : List String) : String := ", ".intercalate (ids.map fun id => s!"`{id}`")

def message : Diagnostic → String
  | unknownStatement id => s!"unknown statement `{id}`"
  | missingPredecessor id allowed (some previous) =>
    s!"`{id}` must follow {oneOf allowed}, not `{previous}`"
  | missingPredecessor id allowed none => s!"`{id}` must follow {oneOf allowed}"
  | forbiddenPredecessor id previous => s!"`{id}` cannot follow `{previous}`"
  | invalidParent id allowed (some parent) =>
    s!"`{id}` must be inside {oneOf allowed}, not `{parent}`"
  | invalidParent id allowed none => s!"`{id}` must be inside {oneOf allowed}"
  | forbiddenParent id parent => s!"`{id}` cannot be inside `{parent}`"
  | disallowedNesting id parent => s!"`{parent}` does not accept `{id}`"
  | invalidComparison operator => s!"`{operator}` is not a comparison operator"
  | invalidCombinator operator => s!"`{operator}` cannot combine expressions"
  | cyclicProcedure id => s!"procedure `{id}` ends up calling itself"
  | unsetOperand text => s!"`{text}` has an empty operand"
  | unsetMember => "a grouped operand has no value"

end Diagnostic

end BlockScript
