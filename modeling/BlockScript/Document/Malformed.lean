import BlockScript.Json.Reader

/-! Where and why a document is not what it should be. -/

namespace BlockScript

/-- A step from a JSON value to a part of it. -/
inductive Path.Step where
  | key (name : String)
  | index (place : Nat)
deriving DecidableEq

/-- The steps from the root of a document to one of its parts. -/
abbrev Path := List Path.Step

namespace Path

def Step.text : Step → String
  | key name => s!".{name}"
  | index place => s!"[{place}]"

/-- The root is written as a dollar sign. -/
def text (path : Path) : String := path.foldl (fun s step => s ++ step.text) "$"

/-- The part that a path leads to. -/
def resolve? : Path → Json → Option Json
  | [], value => some value
  | .key name :: rest, .object fields => do resolve? rest (← fields.lookup name)
  | .index place :: rest, .array items => do resolve? rest (← items[place]?)
  | _ :: _, _ => none

end Path

/-- What is wrong with a part of a document. -/
inductive Malformed.Cause where
  | notObject
  | notArray
  | noBlock
  | noProcedures
  | noId
  | noType
  | unknownType (name : String)
  | noOperator
  | noOperand
  | notDeviceList
deriving DecidableEq

structure Malformed where
  path : Path
  cause : Malformed.Cause
deriving DecidableEq

namespace Malformed

def Cause.text : Cause → String
  | notObject => "expected an object"
  | notArray => "expected an array"
  | noBlock => "document has no `block` array"
  | noProcedures => "no `userProcedures` object"
  | noId => "statement has no `id`"
  | noType => "missing `type`"
  | unknownType name => s!"unknown type `{name}`"
  | noOperator => "expression has no `operator`"
  | noOperand => "expression has neither `operands` nor `opd1`"
  | notDeviceList => "device list must be an array"

def message (m : Malformed) : String := s!"{m.path.text}: {m.cause.text}"

end Malformed

/-- Why a document is not taken in. -/
inductive ImportError where
  | json (fault : Json.TextFault)
  | malformed (fault : Malformed)
  | duplicateProcedures (ids : List String)
deriving DecidableEq

def Json.TextFault.message : Json.TextFault → String
  | endOfText => "unexpected end of text"
  | invalid => "unexpected character"

def ImportError.message : ImportError → String
  | json fault => s!"invalid JSON: {fault.message}"
  | malformed fault => fault.message
  | duplicateProcedures ids => "procedures already exist: " ++ ", ".intercalate ids

end BlockScript
