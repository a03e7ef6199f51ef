import BlockScript.Expression.Edit
import BlockScript.Program.Basic

/-! Edits of a program. An edit applies as a whole or is refused with its cause; what it adds gets
tags of its own, what it moves keeps them, and bookkeeping about removed statements goes with
them. -/

namespace BlockScript

/-- Why an edit of the statements or procedures is refused. -/
inductive EditError where
  | blockNotFound (place : Address)
  | indexOutOfRange (index length : Nat)
  /-- The statement would become a part of itself. -/
  | cyclicMove (tag : Nat)
  | procedureExists (id : String)
deriving DecidableEq

/-- Why a variable is refused. -/
inductive VariableError where
  | nameMissing
  | nameExists (name : String)
  | valueMissing
  | unsupportedType (type : ValueType)
deriving DecidableEq

/-- The words for a block, with `nameOf` for the tags of statements. -/
def Address.describe (nameOf : Nat → String) : Address → String
  | root => "root"
  | procedure id => s!"procedure `{id}`"
  | inside tag => s!"of statement {nameOf tag}"

def EditError.message (nameOf : Nat → String) : EditError → String
  | blockNotFound place => s!"block {place.describe nameOf} not found"
  | indexOutOfRange index length =>
    s!"index {index} out of range for a block of {length} statements"
  | cyclicMove tag => s!"statement {nameOf tag} cannot be moved into its own nested block"
  | procedureExists id => s!"procedure `{id}` already exists"

def VariableError.message : VariableError → String
  | nameMissing => "variable name is missing"
  | nameExists name => s!"variable `{name}` already exists"
  | valueMissing => "variable value is missing"
  | unsupportedType type => s!"variables cannot have type `{type.name}`"

/-- The part of a variable that is at fault. -/
def VariableError.field : VariableError → String
  | nameMissing | nameExists _ => "name"
  | valueMissing => "value"
  | unsupportedType _ => "type"

/-- Whether the address names the block of this statement or of one nested in it. -/
def Address.within (place : Address) (s : Statement Nat) : Bool :=
  match place with
  | .inside tag => s.subtree.contains tag
  | _ => false

/-- The block with the statement at one place put at another. -/
def Block.relocate {ι : Type} (source target : Nat) (block : Block ι) : Block ι :=
  match block[source]? with
  | some s => (block.eraseIdx source).insertIdx target s
  | none => block

namespace Program

variable {ι : Type}

/-! ### Statements -/

/-- A copy of the template at a place of a block, with tags from `p.next` on. -/
def insert (p : Program) (place : Address) (index : Nat) (template : Statement ι) :
    Except EditError Program :=
  match p.block? place with
  | none => .error (.blockNotFound place)
  | some block =>
    if index ≤ block.length then
      let new := p.modifyBlock place fun block => block.insertIdx index (template.stamp p.next)
      .ok { new with next := p.next + template.count }
    else .error (.indexOutOfRange index block.length)

/-- A copy of the template at the end of a block. -/
def add (p : Program) (place : Address) (template : Statement ι) : Except EditError Program :=
  match p.block? place with
  | none => .error (.blockNotFound place)
  | some block => p.insert place block.length template

/-- The program without the bookkeeping about the statements that are gone. -/
def forget (p : Program) (gone : List Nat) : Program :=
  { p with
    skeletons := p.skeletons.filter fun tag => !gone.contains tag
    initialized := p.initialized.filter fun entry => !gone.contains entry.tag }

/-- The statement at a place of a block, and the program without it. -/
def remove (p : Program) (place : Address) (index : Nat) :
    Except EditError (Statement Nat × Program) :=
  match p.block? place with
  | none => .error (.blockNotFound place)
  | some block =>
    match block[index]? with
    | some removed =>
      .ok (removed, (p.modifyBlock place (·.eraseIdx index)).forget removed.subtree)
    | none => .error (.indexOutOfRange index block.length)

/-- Moves a statement within a block, so that it ends at the place `target`. -/
def move (p : Program) (place : Address) (source target : Nat) : Except EditError Program :=
  match p.block? place with
  | none => .error (.blockNotFound place)
  | some block =>
    if block.length ≤ source then .error (.indexOutOfRange source block.length)
    else if block.length ≤ target then .error (.indexOutOfRange target block.length)
    else .ok (p.modifyBlock place (Block.relocate source target))

/-- Moves a statement from one block to another, which must not be part of the statement. Within one
block this is `move`. -/
def transfer (p : Program) (source : Address) (sourceIndex : Nat) (target : Address)
    (targetIndex : Nat) : Except EditError Program :=
  if source = target then p.move source sourceIndex targetIndex
  else match p.block? source with
    | none => .error (.blockNotFound source)
    | some block =>
      match block[sourceIndex]? with
      | none => .error (.indexOutOfRange sourceIndex block.length)
      | some moved =>
        if target.within moved then .error (.cyclicMove moved.tag)
        else match p.block? target with
          | none => .error (.blockNotFound target)
          | some destination =>
            if targetIndex ≤ destination.length then
              .ok ((p.modifyBlock source (·.eraseIdx sourceIndex)).modifyBlock target
                (·.insertIdx targetIndex moved))
            else .error (.indexOutOfRange targetIndex destination.length)

/-! ### Parts of a statement -/

/-- Makes a statement one of another kind. -/
def rename? (p : Program) (tag : Nat) (id : String) : Option Program :=
  p.update? tag (Statement.mapHead fun head => { head with id })

/-- New tags for a statement and everything in it. -/
def restamp? (p : Program) (tag : Nat) : Option Program := do
  let s ← p.find? tag
  let new ← p.update? tag (Statement.stamp p.next)
  return { new with next := p.next + s.count }

def argument? (p : Program) (tag index : Nat) : Option (Argument Nat) := do
  (← p.find? tag).arguments[index]?

/-- Replaces one argument of a statement. -/
def putArgument? (p : Program) (tag index : Nat) (argument : Argument Nat) : Option Program := do
  let _ ← p.argument? tag index
  p.update? tag (Statement.mapHead fun head =>
    { head with arguments := head.arguments.map (·.set index argument) })

/-- Replaces one argument of a statement by a copy with tags of its own. -/
def setArgument? (p : Program) (tag index : Nat) (argument : Argument ι) : Option Program := do
  let new ← p.putArgument? tag index (argument.stamp p.next)
  return { new with next := p.next + argument.count }

/-- Gives an argument a type and takes its value away. -/
def retype? (p : Program) (tag index : Nat) (type : ValueType) : Option Program :=
  p.putArgument? tag index (.unset type)

def expressions? (p : Program) (tag index : Nat) : Option (ExpressionList Nat) := do
  (← p.argument? tag index).expressions?

/-- Edits the expression list of an argument, whose type stays. -/
def editExpressions? (p : Program) (tag index : Nat) (edit : ExpressionEdit) : Option Program := do
  let argument ← p.argument? tag index
  let (list, next) ← edit.run? (← argument.expressions?) p.next
  let new ← p.putArgument? tag index (.expressions argument.type list)
  return { new with next }

/-! ### Variables and procedures -/

/-- Whether variables may have the type. -/
def supportsVariable : ValueType → Bool
  | .string | .number | .boolean => true
  | _ => false

/-- Whether the value is none at all, as for a form left empty. -/
def isMissing : Json → Bool
  | .null => true
  | .string s => s.isEmpty
  | _ => false

def addVariable (p : Program) (name : String) (type : ValueType) (value : Json) :
    Except VariableError Program :=
  if name.isEmpty then .error .nameMissing
  else if p.variables.contains name then .error (.nameExists name)
  else if !supportsVariable type then .error (.unsupportedType type)
  else if isMissing value then .error .valueMissing
  else .ok { p with «variables» := p.variables.insert name ⟨type, value⟩ }

def removeVariable (p : Program) (name : String) : Program :=
  { p with «variables» := p.variables.erase name }

/-- The program with a procedure whose body is a copy with tags of its own. -/
def putProcedure (p : Program) (id : String) (body : Block ι) : Program :=
  { p with
    procedures := p.procedures.insert id (Statement.stampEach p.next body)
    next := p.next + Statement.countEach body }

/-- A new procedure, unless there is one of that name. -/
def addProcedure (p : Program) (id : String) (body : Block ι) : Except EditError Program :=
  if p.procedures.contains id then .error (.procedureExists id) else .ok (p.putProcedure id body)

/-- The program without a procedure and without the bookkeeping about its statements and about its
instances. -/
def removeProcedure (p : Program) (id : String) : Program :=
  match p.procedures.get? id with
  | none => p
  | some body =>
    let p := { p with procedures := p.procedures.erase id }.forget (body.flatMap Statement.subtree)
    { p with initialized := p.initialized.filter fun entry => entry.procedure != id }

/-! ### Bookkeeping -/

def markInitialized (p : Program) (tag : Nat) (procedure : String) : Program :=
  { p with initialized := p.initialized ++ [⟨tag, procedure⟩] }

def markSkeleton (p : Program) (tag : Nat) : Program :=
  { p with skeletons := p.skeletons ++ [tag] }

end Program

end BlockScript
