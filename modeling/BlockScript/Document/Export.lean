import BlockScript.Program.Basic

/-! Programs as JSON documents. Keys stand in a fixed order, and a key is left out exactly where the
statement or the comparison lacks that part. -/

namespace BlockScript

variable {ι : Type}

def ValueType.toJson (type : ValueType) : Json := .string type.name

def Operand.toJson (o : Operand ι) : Json := .object [("type", o.type.toJson), ("value", o.value)]

namespace Expression

mutual

def toJson : Expression ι → Json
  | leaf _ operator first second =>
    .object ([("operator", .string operator), ("opd1", first.toJson)] ++
      (match second with
        | some second => [("opd2", second.toJson)]
        | none => []))
  | group _ operator children =>
    .object [("operator", .string operator), ("operands", .array (toItems children))]
  | operand o => o.toJson

def toItems : List (Expression ι) → List Json
  | [] => []
  | e :: rest => e.toJson :: toItems rest

end

end Expression

def Argument.toJson (a : Argument ι) : Json :=
  .object [("type", a.type.toJson),
    ("value", match a with
      | .literal _ value => value
      | .expressions _ list => .array (Expression.toItems list))]

/-- The fields of a statement before its block. -/
def Head.toFields (h : Head ι) : List (String × Json) :=
  ("id", .string h.id) ::
    (match h.arguments with
      | some arguments => [("arguments", .array (arguments.map Argument.toJson))]
      | none => [])

namespace Statement

mutual

def toJson : Statement ι → Json
  | simple head => .object head.toFields
  | compound head block => .object (head.toFields ++ [("block", .array (toItems block))])

def toItems : List (Statement ι) → List Json
  | [] => []
  | s :: rest => s.toJson :: toItems rest

end

end Statement

def Block.toJson (block : Block ι) : Json := .array (Statement.toItems block)

def Variable.toJson (v : Variable) : Json := .object [("type", v.type.toJson), ("value", v.value)]

/-- The document of a program. Tags, flags and bookkeeping are no part of it. -/
def Program.toJson (p : Program) : Json :=
  .object
    [("header", .object
      [("userVariables", .object (p.variables.entries.map fun (name, v) => (name, v.toJson))),
        ("userProcedures",
          .object (p.procedures.entries.map fun (id, body) => (id, body.toJson)))]),
      ("block", p.block.toJson)]

/-- The text of a program's document. -/
def Program.document (p : Program) : String := p.toJson.pretty

end BlockScript
