import BlockScript.Language.Descriptor

/-! The statements of every language: branches, loops, assignment, waiting and messages. -/

namespace BlockScript

/-- The ids that an `elseif` or an `else` may follow. -/
def branches : List String := ["if", "elseif"]

def baseStatements : List (String × Descriptor) :=
  [("if", {
      shape := .compoundWithArguments, group := .logic, label := "If"
      arguments := [{ type := .booleanExpression }] }),
    ("elseif", {
      shape := .compoundWithArguments, group := .logic, label := "Else if"
      arguments := [{ type := .booleanExpression }]
      previous := { allowed := branches } }),
    ("else", {
      shape := .compound, group := .logic, label := "Else"
      previous := { allowed := branches } }),
    ("switch", {
      shape := .compoundWithArguments, group := .logic, label := "Switch"
      arguments := [{ type := .variable }]
      nested := { allowed := ["case"] } }),
    ("case", {
      shape := .compoundWithArguments, group := .logic, label := "Case"
      arguments := [{ type := .unknown }]
      parent := { allowed := ["switch"] } }),
    ("while", {
      shape := .compoundWithArguments, group := .loop, label := "While"
      arguments := [{ type := .booleanExpression }] }),
    ("repeat", {
      shape := .compoundWithArguments, group := .loop, label := "Repeat"
      arguments := [{ type := .number, label := some "times" }] }),
    ("foreach", {
      shape := .compoundWithArguments, group := .iot, label := "For each device"
      arguments := [{ type := .multiDevice }] }),
    ("setvar", {
      shape := .unitWithArguments, group := .variable, label := "Set variable"
      arguments :=
        [{ type := .variable, label := some "variable" },
          { type := .unknown, label := some "value" }] }),
    ("wait", {
      shape := .unitWithArguments, group := .misc, label := "Wait"
      arguments := [{ type := .number, label := some "seconds" }] }),
    ("alert", {
      shape := .unitWithArguments, group := .misc, label := "Alert"
      arguments := [{ type := .string, label := some "message" }] }),
    ("log", {
      shape := .unitWithArguments, group := .misc, label := "Log"
      arguments := [{ type := .string, label := some "message" }] })]

end BlockScript
