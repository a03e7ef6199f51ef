import BlockScript.Document.Malformed
import BlockScript.Program.Basic

/-! Reading drafts from JSON. The first part that is not as it should be is reported, in the order
in which the parts are read: the variables and the procedures of the header, then the root block; in
a statement its id, its arguments and its block; in an expression its operands. -/

namespace BlockScript

namespace Json

def fields (path : Path) : Json → Except Malformed (List (String × Json))
  | .object fields => .ok fields
  | _ => .error ⟨path, .notObject⟩

/-- The value under a key, null if there is none. -/
def valueOr (fields : List (String × Json)) (key : String) : Json := (fields.lookup key).getD .null

end Json

/-- The type that the field `type` names. -/
def ValueType.ofFields (path : Path) (fields : List (String × Json)) : Except Malformed ValueType :=
  match fields.lookup "type" with
  | some (.string name) =>
    match ofName? name with
    | some type => .ok type
    | none => .error ⟨path, .unknownType name⟩
  | _ => .error ⟨path, .noType⟩

namespace Operand

def ofFields (path : Path) (fields : List (String × Json)) : Except Malformed (Operand Unit) := do
  return ⟨(), ← ValueType.ofFields path fields, Json.valueOr fields "value"⟩

def ofJson (path : Path) (value : Json) : Except Malformed (Operand Unit) := do
  ofFields path (← value.fields path)

/-- The operand under a key, if there is one. -/
def ofField? (path : Path) (fields : List (String × Json)) (key : String) :
    Except Malformed (Option (Operand Unit)) :=
  match fields.lookup key with
  | some value => some <$> ofJson (path ++ [.key key]) value
  | none => .ok none

end Operand

namespace Expression

/-- The comparison of an operator with the operands of an object. -/
def comparisonOfFields (path : Path) (operator : String) (fields : List (String × Json)) :
    Except Malformed (Expression Unit) := do
  match ← Operand.ofField? path fields "opd1" with
  | some first => return comparison operator first (← Operand.ofField? path fields "opd2")
  | none => .error ⟨path, .noOperand⟩

mutual

/-- An object with an operator in words is a group if it has `operands`, else a comparison; one
without an operator is an operand if it has a type. -/
def ofJson (path : Path) : Json → Except Malformed (Expression Unit)
  | .object fields =>
    match fields.lookup "operator" with
    | some (.string operator) => do
      match ← childrenOfFields path fields with
      | some children => return .group () operator children
      | none => comparisonOfFields path operator fields
    | _ =>
      if (fields.lookup "type").isSome then .operand <$> Operand.ofFields path fields
      else .error ⟨path, .noOperator⟩
  | _ => .error ⟨path, .notObject⟩

/-- The expressions under the key `operands`, if there is one. -/
def childrenOfFields (path : Path) :
    List (String × Json) → Except Malformed (Option (List (Expression Unit)))
  | [] => .ok none
  | (key, value) :: rest =>
    if key = "operands" then
      match value with
      | .array items => some <$> ofItems (path ++ [.key "operands"]) 0 items
      | _ => .error ⟨path ++ [.key "operands"], .notArray⟩
    else childrenOfFields path rest

def ofItems (path : Path) (place : Nat) : List Json → Except Malformed (List (Expression Unit))
  | [] => .ok []
  | item :: rest => do
    let e ← ofJson (path ++ [.index place]) item
    return e :: (← ofItems path (place + 1) rest)

end

end Expression

/-- A list of expressions; null is the empty list. -/
def ExpressionList.ofJson (path : Path) : Json → Except Malformed (ExpressionList Unit)
  | .null => .ok []
  | .array items => Expression.ofItems path 0 items
  | _ => .error ⟨path, .notArray⟩

namespace Argument

/-- The value of a boolean expression is a list of expressions, that of any other type stands for
itself. -/
def ofJson (path : Path) (value : Json) : Except Malformed (Argument Unit) := do
  let fields ← value.fields path
  match ← ValueType.ofFields path fields with
  | .booleanExpression =>
    .expressions .booleanExpression <$>
      ExpressionList.ofJson (path ++ [.key "value"]) (Json.valueOr fields "value")
  | type => return .literal type (Json.valueOr fields "value")

def ofItems (path : Path) (place : Nat) : List Json → Except Malformed (List (Argument Unit))
  | [] => .ok []
  | item :: rest => do
    let argument ← ofJson (path ++ [.index place]) item
    return argument :: (← ofItems path (place + 1) rest)

/-- The arguments under the key `arguments`, if there is one. -/
def ofFields (path : Path) (fields : List (String × Json)) :
    Except Malformed (Option (List (Argument Unit))) :=
  match fields.lookup "arguments" with
  | some (.array items) => some <$> ofItems (path ++ [.key "arguments"]) 0 items
  | some _ => .error ⟨path ++ [.key "arguments"], .notArray⟩
  | none => .ok none

end Argument

namespace Statement

mutual

/-- An object with an id; arguments and block are there if their keys are. -/
def ofJson (path : Path) : Json → Except Malformed Template
  | .object fields =>
    match fields.lookup "id" with
    | some (.string id) => do
      let arguments ← Argument.ofFields path fields
      let head : Head Unit := { id, tag := (), arguments }
      match ← blockOfFields path fields with
      | some block => return .compound head block
      | none => return .simple head
    | _ => .error ⟨path, .noId⟩
  | _ => .error ⟨path, .notObject⟩

/-- The block under the key `block`, if there is one. -/
def blockOfFields (path : Path) : List (String × Json) → Except Malformed (Option (Block Unit))
  | [] => .ok none
  | (key, value) :: rest =>
    if key = "block" then
      match value with
      | .array items => some <$> ofItems (path ++ [.key "block"]) 0 items
      | _ => .error ⟨path ++ [.key "block"], .notArray⟩
    else blockOfFields path rest

def ofItems (path : Path) (place : Nat) : List Json → Except Malformed (Block Unit)
  | [] => .ok []
  | item :: rest => do
    let s ← ofJson (path ++ [.index place]) item
    return s :: (← ofItems path (place + 1) rest)

end

end Statement

def Block.ofJson (path : Path) : Json → Except Malformed (Block Unit)
  | .array items => Statement.ofItems path 0 items
  | _ => .error ⟨path, .notArray⟩

/-- A table whose values are read from the fields of an object. -/
def Table.ofFields {α : Type} (read : Path → Json → Except Malformed α) (path : Path) :
    List (String × Json) → Table String α → Except Malformed (Table String α)
  | [], table => .ok table
  | (key, value) :: rest, table => do
    let entry ← read (path ++ [.key key]) value
    ofFields read path rest (table.insert key entry)

def Table.ofJson {α : Type} (read : Path → Json → Except Malformed α) (path : Path) (value : Json) :
    Except Malformed (Table String α) := do
  ofFields read path (← value.fields path) ∅

def Variable.ofJson (path : Path) (value : Json) : Except Malformed Variable := do
  let fields ← value.fields path
  return ⟨← ValueType.ofFields path fields, Json.valueOr fields "value"⟩

namespace Draft

/-- The table under a key of a header, empty if there is none. -/
def tableOfField {α : Type} (read : Path → Json → Except Malformed α) (path : Path)
    (fields : List (String × Json)) (key : String) : Except Malformed (Table String α) :=
  match fields.lookup key with
  | some value => Table.ofJson read (path ++ [.key key]) value
  | none => .ok ∅

/-- The variables and the procedures of a header, which may be missing. -/
def headerOfFields (fields : List (String × Json)) :
    Except Malformed (Table String Variable × Table String (Block Unit)) :=
  match fields.lookup "header" with
  | some header => do
    let path := [.key "header"]
    let fields ← header.fields path
    let vars ← tableOfField Variable.ofJson path fields "userVariables"
    return (vars, ← tableOfField Block.ofJson path fields "userProcedures")
  | none => .ok (∅, ∅)

def ofJson (document : Json) : Except Malformed Draft := do
  let fields ← document.fields []
  let (vars, procedures) ← headerOfFields fields
  match fields.lookup "block" with
  | some block => return ⟨vars, procedures, ← Block.ofJson [.key "block"] block⟩
  | none => .error ⟨[], .noBlock⟩

/-- The part of a document that has its procedures: the header, or the whole of a document without
one. -/
def headerPart (document : Json) : Path × Json :=
  match document with
  | .object fields =>
    match fields.lookup "header" with
    | some header => ([.key "header"], header)
    | none => ([], document)
  | _ => ([], document)

/-- The procedures of a document, or of a header that stands alone. -/
def proceduresOfJson (document : Json) : Except Malformed (Table String (Block Unit)) := do
  let (path, header) := headerPart document
  match (← header.fields path).lookup "userProcedures" with
  | some value => Table.ofJson Block.ofJson (path ++ [.key "userProcedures"]) value
  | none => .error ⟨path, .noProcedures⟩

/-- A part of a document read from its text. -/
def ofText {α : Type} (read : Json → Except Malformed α) (text : String) : Except ImportError α :=
  match Json.read text with
  | .ok document => (read document).mapError .malformed
  | .error fault => .error (.json fault)

def read (text : String) : Except ImportError Draft := ofText ofJson text

def readProcedures (text : String) : Except ImportError (Table String (Block Unit)) :=
  ofText proceduresOfJson text

end Draft

end BlockScript
