import BlockScript.Json.Basic

/-! Reading JSON text: a machine with a stack of open containers takes one character at a time, so
that a text is refused at the first character that no value can go on with, and is cut short if it
ends before a value does. -/

namespace BlockScript.Json

/-- Why a text is not a JSON value: it ends too early, or it cannot be continued to one. -/
inductive TextFault where
  | endOfText
  | invalid
deriving DecidableEq

/-- At most this many arrays and objects may be open at once. -/
def maxNesting : Nat := 127

/-- The part of a numeral that its last character belongs to. -/
inductive Numeral.Phase where
  | sign
  | zero
  | whole
  | point
  | fraction
  | mark
  | markSign
  | exponent
deriving DecidableEq

/-- A numeral so far, each run of digits with the last one first. -/
structure Numeral where
  phase : Numeral.Phase
  negative : Bool := false
  whole : List Nat := []
  fraction : List Nat := []
  smaller : Bool := false
  exponent : List Nat := []

namespace Numeral

def digit? (c : Char) : Option Nat :=
  if '0' ≤ c ∧ c ≤ '9' then some (c.toNat - '0'.toNat) else none

def start? (c : Char) : Option Numeral :=
  if c = '-' then some { phase := .sign, negative := true }
  else (digit? c).map fun d => { phase := if d = 0 then .zero else .whole, whole := [d] }

/-- The numeral with one more character, if it can be continued so. -/
def extend? (n : Numeral) (c : Char) : Option Numeral :=
  match n.phase, digit? c with
  | .sign, some d => some { n with phase := if d = 0 then .zero else .whole, whole := [d] }
  | .whole, some d => some { n with whole := d :: n.whole }
  | .point, some d | .fraction, some d =>
    some { n with phase := .fraction, fraction := d :: n.fraction }
  | .mark, some d | .markSign, some d | .exponent, some d =>
    some { n with phase := .exponent, exponent := d :: n.exponent }
  | .zero, none | .whole, none =>
    if c = '.' then some { n with phase := .point }
    else if c = 'e' ∨ c = 'E' then some { n with phase := .mark }
    else none
  | .fraction, none => if c = 'e' ∨ c = 'E' then some { n with phase := .mark } else none
  | .mark, none =>
    if c = '+' then some { n with phase := .markSign }
    else if c = '-' then some { n with phase := .markSign, smaller := true }
    else none
  | _, _ => none

/-- Whether the numeral may end here. -/
def complete (n : Numeral) : Bool :=
  match n.phase with
  | .zero | .whole | .fraction | .exponent => true
  | _ => false

/-- Significands are kept in 64 bits; a digit that would go beyond is dropped with all that follow
it in its run. -/
def significandBound : Nat := 1 <<< 64

/-- The significand of the whole part, and how many digits were dropped. -/
def keepWhole (digits : List Nat) : Nat × Nat :=
  digits.foldl (fun (s, dropped) d =>
    if dropped = 0 ∧ s * 10 + d < significandBound then (s * 10 + d, 0) else (s, dropped + 1))
    (0, 0)

/-- The significand continued by the fraction, and how many digits of it were kept. -/
def keepFraction (significand : Nat) (digits : List Nat) : Nat × Nat :=
  let (s, places, _) := digits.foldl (fun (s, places, full) d =>
    if full = false ∧ s * 10 + d < significandBound then (s * 10 + d, places + 1, false)
    else (s, places, true)) (significand, 0, false)
  (s, places)

def ofDigits (digits : List Nat) : Nat := digits.foldl (fun n d => n * 10 + d) 0

/-- The binary number of a numeral, `none` if it is not finite. -/
def binary? (n : Numeral) : Option Binary64 :=
  let (s, dropped) := keepWhole n.whole.reverse
  let (s, places) := keepFraction s n.fraction.reverse
  let e : Int := ofDigits n.exponent.reverse
  (Binary64.ofDecimal? s (dropped - places + (if n.smaller then -e else e))).map
    (Binary64.withSign n.negative)

/-- Numerals without point and exponent are integers as far as 64 bits hold them, signed below
zero and unsigned above; all others, minus zero too, are binary. -/
def value? (n : Numeral) : Option Number :=
  let w := ofDigits n.whole.reverse
  if (n.phase = .zero ∨ n.phase = .whole) ∧ n.negative = false ∧ w < 1 <<< 64 then
    some (.integer w)
  else if (n.phase = .zero ∨ n.phase = .whole) ∧ n.negative = true ∧ 0 < w ∧ w ≤ 1 <<< 63 then
    some (.integer (-w))
  else n.binary?.map .binary

end Numeral

/-- Where in an escape the characters of a string stand. -/
inductive Escape where
  | none
  | backslash
  /-- Characters of a code in hexadecimal, the last one first, perhaps after a high surrogate. -/
  | code (high : Option Nat) (taken : List Char)
  /-- A high surrogate stands before: its low one must follow. -/
  | pairBackslash (high : Nat)
  | pairU (high : Nat)

/-- An open container. -/
inductive Frame where
  /-- The items so far, the last one first. -/
  | array (items : List Json)
  /-- The fields so far, and the key whose value is read. -/
  | object (fields : List (String × Json)) (key : String)

/-- What may come next. -/
inductive Mode where
  /-- A value, or the end of an array just opened. -/
  | value (opened : Bool)
  /-- A key, or the end of an object just opened. -/
  | key (opened : Bool)
  | colon
  /-- A comma or the end of the container. -/
  | separator
  | word (rest : List Char) (value : Json)
  | numeral (n : Numeral)
  /-- The characters of a string so far, the last one first. -/
  | text (isKey : Bool) (chars : List Char) (escape : Escape)
  | finished (value : Json)

structure Machine where
  stack : List Frame
  mode : Mode

namespace Machine

def isBlank (c : Char) : Bool := c == ' ' || c == '\n' || c == '\t' || c == '\r'

/-- A value is complete: it belongs to the innermost open container. -/
def deliver (value : Json) : List Frame → Machine
  | [] => ⟨[], .finished value⟩
  | .array items :: rest => ⟨.array (value :: items) :: rest, .separator⟩
  | .object fields key :: rest => ⟨.object (Entries.put key value fields) key :: rest, .separator⟩

def push? (frame : Frame) (mode : Mode) (stack : List Frame) : Option Machine :=
  if stack.length < maxNesting then some ⟨frame :: stack, mode⟩ else none

/-- The first character of a value. -/
def beginValue? (stack : List Frame) (c : Char) : Option Machine :=
  match c with
  | '[' => push? (.array []) (.value true) stack
  | '{' => push? (.object [] "") (.key true) stack
  | '"' => some ⟨stack, .text false [] .none⟩
  | 'n' => some ⟨stack, .word ['u', 'l', 'l'] .null⟩
  | 't' => some ⟨stack, .word ['r', 'u', 'e'] (.bool true)⟩
  | 'f' => some ⟨stack, .word ['a', 'l', 's', 'e'] (.bool false)⟩
  | _ => (Numeral.start? c).map fun n => ⟨stack, .numeral n⟩

/-- The character after a value. -/
def afterValue? (stack : List Frame) (c : Char) : Option Machine :=
  match stack with
  | .array items :: rest =>
    if c = ',' then some ⟨stack, .value false⟩
    else if c = ']' then some (deliver (.array items.reverse) rest)
    else none
  | .object fields _ :: rest =>
    if c = ',' then some ⟨stack, .key false⟩
    else if c = '}' then some (deliver (.object fields) rest)
    else none
  | [] => none

def endText (isKey : Bool) (s : String) : List Frame → Machine
  | .object fields key :: rest =>
    if isKey then ⟨.object fields s :: rest, .colon⟩
    else deliver (.string s) (.object fields key :: rest)
  | stack => deliver (.string s) stack

def hexDigit? (c : Char) : Option Nat :=
  if '0' ≤ c ∧ c ≤ '9' then some (c.toNat - '0'.toNat)
  else if 'a' ≤ c ∧ c ≤ 'f' then some (c.toNat - 'a'.toNat + 10)
  else if 'A' ≤ c ∧ c ≤ 'F' then some (c.toNat - 'A'.toNat + 10)
  else none

def hexCode? (digits : List Char) : Option Nat :=
  if digits.length = 4 then digits.foldlM (fun n c => (hexDigit? c).map (n * 16 + ·)) 0 else none

def isHighSurrogate (n : Nat) : Bool := 0xD800 ≤ n && n ≤ 0xDBFF

def isLowSurrogate (n : Nat) : Bool := 0xDC00 ≤ n && n ≤ 0xDFFF

/-- A code of four hexadecimal digits: a character, or one half of a pair of surrogates, which must
stand together. -/
def takeCode? (high : Option Nat) (chars : List Char) (n : Nat) : Option (List Char × Escape) :=
  match high with
  | none =>
    if isLowSurrogate n then none
    else if isHighSurrogate n then some (chars, .pairBackslash n)
    else some (Char.ofNat n :: chars, .none)
  | some h =>
    if isLowSurrogate n then
      some (Char.ofNat (0x10000 + (h - 0xD800) * 0x400 + (n - 0xDC00)) :: chars, .none)
    else none

/-- One more character of a string that does not end it. Four bytes are taken for a code before
they are looked at. -/
def takeText? (chars : List Char) (c : Char) : Escape → Option (List Char × Escape)
  | .none =>
    if c = '\\' then some (chars, .backslash)
    else if c.toNat < 32 then none
    else some (c :: chars, .none)
  | .backslash =>
    match c with
    | '"' | '\\' | '/' => some (c :: chars, .none)
    | 'b' => some ('\x08' :: chars, .none)
    | 'f' => some ('\x0c' :: chars, .none)
    | 'n' => some ('\n' :: chars, .none)
    | 'r' => some ('\r' :: chars, .none)
    | 't' => some ('\t' :: chars, .none)
    | 'u' => some (chars, .code none [])
    | _ => none
  | .code high taken =>
    let taken := c :: taken
    if taken.foldl (fun n c => n + c.utf8Size) 0 < 4 then some (chars, .code high taken)
    else do takeCode? high chars (← hexCode? taken.reverse)
  | .pairBackslash high => if c = '\\' then some (chars, .pairU high) else none
  | .pairU high => if c = 'u' then some (chars, .code (some high) []) else none

/-- The machine after one more character, or `none` if no value goes on so. -/
def step? (m : Machine) (c : Char) : Option Machine :=
  match m.mode with
  | .value opened =>
    if isBlank c then some m
    else match opened, c, m.stack with
      | true, ']', .array _ :: rest => some (deliver (.array []) rest)
      | _, _, stack => beginValue? stack c
  | .key opened =>
    if isBlank c then some m
    else match opened, c, m.stack with
      | true, '}', .object _ _ :: rest => some (deliver (.object []) rest)
      | _, '"', stack => some ⟨stack, .text true [] .none⟩
      | _, _, _ => none
  | .colon =>
    if isBlank c then some m
    else if c = ':' then some ⟨m.stack, .value false⟩
    else none
  | .separator => if isBlank c then some m else afterValue? m.stack c
  | .word (w :: rest) value =>
    if c ≠ w then none
    else if rest.isEmpty then some (deliver value m.stack)
    else some ⟨m.stack, .word rest value⟩
  | .word [] _ => none
  | .numeral n =>
    match n.extend? c with
    | some n => some ⟨m.stack, .numeral n⟩
    | none => do
      guard n.complete
      let after := deliver (.number (← n.value?)) m.stack
      if isBlank c then some after else afterValue? after.stack c
  | .text isKey chars .none =>
    if c = '"' then some (endText isKey (String.ofList chars.reverse) m.stack)
    else (takeText? chars c .none).map fun (chars, escape) => ⟨m.stack, .text isKey chars escape⟩
  | .text isKey chars escape =>
    (takeText? chars c escape).map fun (chars, escape) => ⟨m.stack, .text isKey chars escape⟩
  | .finished _ => if isBlank c then some m else none

/-- The value read when the text ends here. -/
def finish (m : Machine) : Except TextFault Json :=
  match m.mode with
  | .finished value => .ok value
  | .numeral n =>
    if n.complete then
      match n.value?, m.stack with
      | some value, [] => .ok (.number value)
      | some _, _ => .error .endOfText
      | none, _ => .error .invalid
    else .error .endOfText
  | _ => .error .endOfText

end Machine

/-- The value of a list of characters. -/
def readChars (chars : List Char) : Except TextFault Json :=
  match chars.foldlM Machine.step? ⟨[], .value false⟩ with
  | some m => m.finish
  | none => .error .invalid

/-- The value of a text, which blanks may surround. -/
def read (text : String) : Except TextFault Json := readChars text.toList

end BlockScript.Json
