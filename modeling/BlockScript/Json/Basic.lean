import BlockScript.Table
import BlockScript.Binary64

/-! JSON values. Objects keep the order of their fields, and a number remembers whether it was
written as an integer; `Json.sameAs` is equality of values, to which the order of fields does not
matter. -/

namespace BlockScript

/-- An integer and a binary number are never equal, even where they denote the same number. -/
inductive Json.Number where
  | integer (value : Int)
  | binary (value : Binary64)
deriving DecidableEq, Inhabited

inductive Json where
  | null
  | bool (value : Bool)
  | number (value : Json.Number)
  | string (value : String)
  | array (items : List Json)
  | object (fields : List (String × Json))
deriving Inhabited

namespace Json

def Number.sameAs : Number → Number → Bool
  | .integer a, .integer b => a == b
  | .binary a, .binary b => a.sameAs b
  | _, _ => false

mutual

/-- Equality of values: fields may come in any order, and the two zeros are equal. -/
def sameAs : Json → Json → Bool
  | .null, .null => true
  | .bool a, .bool b => a == b
  | .number a, .number b => a.sameAs b
  | .string a, .string b => a == b
  | .array a, .array b => sameItems a b
  | .object a, .object b => a.length == b.length && sameFields a b
  | _, _ => false

def sameItems : List Json → List Json → Bool
  | [], [] => true
  | a :: as, b :: bs => a.sameAs b && sameItems as bs
  | _, _ => false

/-- Every field of the first list is a field of the second with the same value. -/
def sameFields : List (String × Json) → List (String × Json) → Bool
  | [], _ => true
  | (key, a) :: rest, fields =>
    (match fields.lookup key with
      | some b => a.sameAs b
      | none => false) && sameFields rest fields

end

mutual

/-- How many arrays and objects are nested in each other. -/
def depth : Json → Nat
  | .array items => depthItems items + 1
  | .object fields => depthFields fields + 1
  | _ => 0

def depthItems : List Json → Nat
  | [] => 0
  | item :: rest => max item.depth (depthItems rest)

def depthFields : List (String × Json) → Nat
  | [] => 0
  | (_, value) :: rest => max value.depth (depthFields rest)

end

def isNull : Json → Bool
  | .null => true
  | _ => false

def string? : Json → Option String
  | .string s => some s
  | _ => none

end Json

end BlockScript
