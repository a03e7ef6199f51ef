import BlockScript.Language.Base
import BlockScript.Language.Device
import BlockScript.Table

/-! Languages: the statements and variables that a program is checked against. A language is built
from a device catalog; afterwards user procedures and user variables come and go. -/

namespace BlockScript

/-- Where a variable of a language comes from. -/
inductive Origin where
  | user
  | device (name : String)
deriving DecidableEq, Inhabited

structure KnownVariable where
  type : ValueType
  origin : Origin
deriving DecidableEq, Inhabited

structure Language where
  statements : Table String Descriptor := ∅
  «variables» : Table String KnownVariable := ∅
deriving Inhabited

/-- The name is that of a statement already. -/
structure NameTaken where
  id : String
deriving DecidableEq

def NameTaken.message (e : NameTaken) : String := s!"name `{e.id}` is already taken"

namespace Device

/-- The name of a capability of a device in a language. -/
def qualified (device : Device) (name : String) : String := device.name ++ "." ++ name

/-- A function is a simple statement, labelled with its id if it has no label. -/
def Function.descriptor (f : Function) (id : String) : Descriptor where
  shape := .of false (!f.arguments.isEmpty)
  group := .iot
  label := f.label.getD id
  arguments := f.arguments

/-- The statements of a device. -/
def statements (device : Device) : List (String × Descriptor) :=
  device.functions.map fun f =>
    let id := device.qualified f.name
    (id, f.descriptor id)

/-- The variables of a device. -/
def «variables» (device : Device) : List (String × KnownVariable) :=
  device.attributes.map fun a => (device.qualified a.name, ⟨a.type, .device device.name⟩)

end Device

namespace Language

/-- The base statements and what the devices with a name add; of two capabilities with one name the
later stays. -/
def build (devices : List Device) : Language :=
  let named := devices.filter fun d => !d.name.isEmpty
  { statements := .ofList (baseStatements ++ named.flatMap Device.statements)
    «variables» := .ofList (named.flatMap Device.variables) }

def statement? (lang : Language) (id : String) : Option Descriptor := lang.statements.get? id

def knownVariable? (lang : Language) (name : String) : Option KnownVariable :=
  lang.variables.get? name

/-- The language with a statement added or replaced. -/
def define (lang : Language) (id : String) (descriptor : Descriptor) : Language :=
  { lang with statements := lang.statements.insert id descriptor }

def isProcedure (lang : Language) (id : String) : Bool :=
  match lang.statement? id with
  | some d => d.isProcedure
  | none => false

/-- The descriptor of a user procedure. -/
def procedureDescriptor (label : String) (icon : Option String) (colors : List String) :
    Descriptor where
  shape := .unit
  group := .internal
  label := label
  icon := icon
  colors := colors
  isProcedure := true

/-- Adds a user procedure under a name that no statement has. -/
def registerProcedure (lang : Language) (id label : String) (icon : Option String := none)
    (colors : List String := []) : Except NameTaken Language :=
  if lang.statements.contains id then .error ⟨id⟩
  else .ok (lang.define id (procedureDescriptor label icon colors))

/-- Adds a user procedure labelled with its name, unless a statement has the name already. -/
def offerProcedure (lang : Language) (id : String) : Language :=
  match lang.registerProcedure id id with
  | .ok lang => lang
  | .error _ => lang

/-- Statements that are not user procedures stay. -/
def unregisterProcedure (lang : Language) (id : String) : Language :=
  if lang.isProcedure id then { lang with statements := lang.statements.erase id } else lang

def registerVariable (lang : Language) (name : String) (type : ValueType) : Language :=
  { lang with «variables» := lang.variables.insert name ⟨type, .user⟩ }

/-- Variables of devices stay. -/
def unregisterVariable (lang : Language) (name : String) : Language :=
  match lang.knownVariable? name with
  | some ⟨_, .user⟩ => { lang with «variables» := lang.variables.erase name }
  | _ => lang

/-- A new statement of the kind `id`. -/
def instantiate? (lang : Language) (id : String) : Option Template :=
  (lang.statement? id).map fun d => d.instantiate id

end Language

end BlockScript
