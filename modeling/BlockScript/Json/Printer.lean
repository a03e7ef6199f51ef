import BlockScript.Decimal.Shortest
import BlockScript.Json.Basic

/-! The two written forms of a JSON value: `compact` on one line without blanks, and `pretty` with
one item or field a line, indented by two blanks for each level. -/

namespace BlockScript.Json

/-- From `10 ^ 0` back to this power of the leading digit a number is written plainly. -/
def leastPlainPower : Int := -5

/-- Up to this power of the leading digit a number is written plainly. -/
def greatestPlainPower : Int := 15

/-- The number with digits `ds`, the first of which counts for `10 ^ power`. A plain number always
has a fraction; an exponent is signed. -/
def placed (ds : List Char) (power : Int) : List Char :=
  if 0 ≤ power ∧ power ≤ greatestPlainPower then
    let whole := power.toNat + 1
    if ds.length ≤ whole then ds ++ List.replicate (whole - ds.length) '0' ++ ['.', '0']
    else ds.take whole ++ '.' :: ds.drop whole
  else if leastPlainPower ≤ power ∧ power < 0 then
    '0' :: '.' :: (List.replicate ((-power).toNat - 1) '0' ++ ds)
  else
    let mantissa := match ds with
      | d :: e :: rest => d :: '.' :: e :: rest
      | short => short
    mantissa ++ 'e' :: (if power < 0 then '-' else '+') :: Nat.toDigits 10 power.natAbs

/-- The digits without the zeros at the end. -/
def stripZeros (ds : List Char) : List Char := (ds.reverse.dropWhile (· == '0')).reverse

def binaryText (x : Binary64) : List Char :=
  let magnitude :=
    if x.isZero then ['0', '.', '0']
    else
      let d := Decimal.shortest x
      let ds := Nat.toDigits 10 d.digits
      placed (stripZeros ds) (d.power + ds.length - 1)
  if x.negative then '-' :: magnitude else magnitude

def Number.text : Number → String
  | .integer (.ofNat n) => String.ofList (Nat.toDigits 10 n)
  | .integer (.negSucc n) => String.ofList ('-' :: Nat.toDigits 10 (n + 1))
  | .binary x => String.ofList (binaryText x)

/-- Quotes, backslashes and characters below the blank are escaped, all others stand for
themselves. -/
def escape (c : Char) : List Char :=
  if c = '"' then ['\\', '"']
  else if c = '\\' then ['\\', '\\']
  else if c = '\x08' then ['\\', 'b']
  else if c = '\x0c' then ['\\', 'f']
  else if c = '\n' then ['\\', 'n']
  else if c = '\r' then ['\\', 'r']
  else if c = '\t' then ['\\', 't']
  else if c.toNat < 32 then
    ['\\', 'u', '0', '0', Nat.digitChar (c.toNat / 16), Nat.digitChar (c.toNat % 16)]
  else [c]

def quote (s : String) : String := String.ofList ('"' :: s.toList.flatMap escape ++ ['"'])

mutual

def compact : Json → String
  | .null => "null"
  | .bool true => "true"
  | .bool false => "false"
  | .number n => n.text
  | .string s => quote s
  | .array items => "[" ++ ",".intercalate (compactItems items) ++ "]"
  | .object fields => "\x7b" ++ ",".intercalate (compactFields fields) ++ "\x7d"

def compactItems : List Json → List String
  | [] => []
  | item :: rest => item.compact :: compactItems rest

def compactFields : List (String × Json) → List String
  | [] => []
  | (key, value) :: rest => (quote key ++ ":" ++ value.compact) :: compactFields rest

end

/-- A new line with two blanks for each level. -/
def newline (level : Nat) : String := String.ofList ('\n' :: List.replicate (2 * level) ' ')

/-- The lines between the brackets of a container at `level`. -/
def bracket (level : Nat) (opening closing : String) : List String → String
  | [] => opening ++ closing
  | lines =>
    opening ++ newline (level + 1) ++ ("," ++ newline (level + 1)).intercalate lines ++
      newline level ++ closing

mutual

def prettyAt (level : Nat) : Json → String
  | .array items => bracket level "[" "]" (prettyItems (level + 1) items)
  | .object fields => bracket level "\x7b" "\x7d" (prettyFields (level + 1) fields)
  | .null => "null"
  | .bool true => "true"
  | .bool false => "false"
  | .number n => n.text
  | .string s => quote s

def prettyItems (level : Nat) : List Json → List String
  | [] => []
  | item :: rest => item.prettyAt level :: prettyItems level rest

def prettyFields (level : Nat) : List (String × Json) → List String
  | [] => []
  | (key, value) :: rest => (quote key ++ ": " ++ value.prettyAt level) :: prettyFields level rest

end

def pretty (value : Json) : String := value.prettyAt 0

end BlockScript.Json
