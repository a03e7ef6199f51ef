/-! The types of arguments, operands and variables, and their names in documents. -/

namespace BlockScript

inductive ValueType where
  | string
  | number
  | boolean
  | booleanExpression
  | variable
  | multiDevice
  | stringOption
  | numberOption
  | unknown
deriving DecidableEq, Inhabited

namespace ValueType

def all : List ValueType :=
  [string, number, boolean, booleanExpression, .variable, multiDevice, stringOption, numberOption,
    unknown]

def name : ValueType → String
  | string => "string"
  | number => "number"
  | boolean => "boolean"
  | booleanExpression => "boolean_expression"
  | .variable => "variable"
  | multiDevice => "multi_device"
  | stringOption => "string_option"
  | numberOption => "number_option"
  | unknown => "unknown"

def ofName? (s : String) : Option ValueType := all.find? fun t => t.name == s

theorem ofName?_name (t : ValueType) : ofName? t.name = some t := by cases t <;> rfl

theorem name_of_ofName? {s : String} {t : ValueType} (h : ofName? s = some t) : t.name = s := by
  simpa using List.find?_some h

end ValueType

end BlockScript
