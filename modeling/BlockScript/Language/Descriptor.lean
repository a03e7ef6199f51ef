import BlockScript.Statement.Basic

/-! What a language says about one kind of statement: its shape, its arguments and the company it
may keep. -/

namespace BlockScript

/-- The groups of a palette of statements. -/
inductive Group where
  | logic
  | loop
  | iot
  | variable
  | misc
  | internal
deriving DecidableEq, Inhabited

namespace Group

def all : List Group := [logic, loop, iot, .variable, misc, internal]

def name : Group → String
  | logic => "logic"
  | loop => "loop"
  | iot => "iot"
  | .variable => "variable"
  | misc => "misc"
  | internal => "internal"

def ofName? (s : String) : Option Group := all.find? fun group => group.name == s

end Group

/-- A value to choose, and the words for it. -/
structure Choice where
  label : String
  value : Json
deriving Inhabited

/-- What an argument of a new statement looks like. -/
structure Spec where
  type : ValueType
  label : Option String := none
  choices : Option (List Choice) := none
deriving Inhabited

/-- A condition on the id of a neighbouring statement. An empty list of allowed ids allows all. -/
structure Constraint where
  allowed : List String := []
  forbidden : List String := []
deriving DecidableEq, Inhabited

namespace Constraint

def allows (c : Constraint) (id : String) : Bool := c.allowed.isEmpty || c.allowed.contains id

def forbids (c : Constraint) (id : String) : Bool := c.forbidden.contains id

end Constraint

structure Descriptor where
  shape : Shape
  group : Group
  label : String
  icon : Option String := none
  colors : List String := []
  arguments : List Spec := []
  /-- Holds for the sibling just before. -/
  previous : Constraint := {}
  /-- Holds for the enclosing statement. -/
  parent : Constraint := {}
  /-- Holds for the statements directly inside. -/
  nested : Constraint := {}
  isProcedure : Bool := false
deriving Inhabited

/-- A new statement of a kind: its arguments are unset and its block is empty. -/
def Descriptor.instantiate (d : Descriptor) (id : String) : Template :=
  let head : Head Unit :=
    { id
      tag := ()
      arguments :=
        if d.shape.hasArguments then some (d.arguments.map fun spec => .unset spec.type) else none }
  if d.shape.hasBlock then .compound head [] else .simple head

end BlockScript
