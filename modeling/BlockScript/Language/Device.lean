import BlockScript.Document.Malformed
import BlockScript.Language.Descriptor

/-! Device catalogs: the attributes that can be read of a device and the functions that can be
called on it. Entries of a catalog that do not describe a device are passed over. -/

namespace BlockScript

structure Device.Attribute where
  name : String
  type : ValueType
deriving Inhabited

structure Device.Function where
  name : String
  label : Option String := none
  arguments : List Spec := []
deriving Inhabited

structure Device where
  name : String
  attributes : List Device.Attribute := []
  functions : List Device.Function := []
deriving Inhabited

namespace Json

/-- The members of a record with these keys. A record is written as an object, where other keys do
not count, or as an array of its members in this order, from which members may be missing at the
end. -/
def members? (keys : List String) : Json → Option (List (Option Json))
  | .object fields => some (keys.map fun key => fields.lookup key)
  | .array items =>
    if items.length ≤ keys.length then some ((List.range keys.length).map fun i => items[i]?)
    else none
  | _ => none

/-- The items of an array, if each of them can be read. -/
def itemsAs? {α : Type} (read : Json → Option α) : Json → Option (List α)
  | .array items => items.mapM read
  | _ => none

/-- Null stands for no value. -/
def orNull? {α : Type} (read : Json → Option α) : Json → Option (Option α)
  | .null => some none
  | value => (read value).map some

/-- A member that may be missing. -/
def orDefault? {α : Type} (read : Json → Option α) (default : α) : Option Json → Option α
  | some value => read value
  | none => some default

end Json

/-- A type is named by a string, or by the only key of an object with null under it. -/
def ValueType.ofMember? : Json → Option ValueType
  | .string name | .object [(name, .null)] => ofName? name
  | _ => none

def Choice.ofJson? (value : Json) : Option Choice := do
  match ← value.members? ["label", "value"] with
  | [some (.string label), some value] => some { label, value }
  | _ => none

def Spec.ofJson? (value : Json) : Option Spec := do
  match ← value.members? ["type", "label", "options"] with
  | [some type, label, choices] =>
    return {
      type := ← ValueType.ofMember? type
      label := ← Json.orDefault? (Json.orNull? Json.string?) none label
      choices := ← Json.orDefault? (Json.orNull? (Json.itemsAs? Choice.ofJson?)) none choices }
  | _ => none

namespace Device

def Attribute.ofJson? (value : Json) : Option Attribute := do
  match ← value.members? ["name", "type"] with
  | [some (.string name), some type] => return { name, type := ← ValueType.ofMember? type }
  | _ => none

def Function.ofJson? (value : Json) : Option Function := do
  match ← value.members? ["name", "label", "arguments"] with
  | [some (.string name), label, arguments] =>
    return {
      name
      label := ← Json.orDefault? (Json.orNull? Json.string?) none label
      arguments := ← Json.orDefault? (Json.itemsAs? Spec.ofJson?) [] arguments }
  | _ => none

/-- A device has a name that is not empty. -/
def ofJson? (value : Json) : Option Device := do
  match ← value.members? ["deviceName", "attributes", "functions"] with
  | [some (.string name), attributes, functions] =>
    let device : Device := {
      name
      attributes := ← Json.orDefault? (Json.itemsAs? Attribute.ofJson?) [] attributes
      functions := ← Json.orDefault? (Json.itemsAs? Function.ofJson?) [] functions }
    if name.isEmpty then none else some device
  | _ => none

/-- The devices of a catalog, without the entries that describe none. -/
def catalogOfJson : Json → Except Malformed (List Device)
  | .array entries => .ok (entries.filterMap ofJson?)
  | _ => .error ⟨[], .notDeviceList⟩

def readCatalog (text : String) : Except ImportError (List Device) :=
  match Json.read text with
  | .ok catalog => (catalogOfJson catalog).mapError .malformed
  | .error fault => .error (.json fault)

end Device

end BlockScript
