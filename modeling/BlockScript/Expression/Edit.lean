import BlockScript.Expression.Basic

/-! Edits of an expression list: changing an operator, wrapping siblings into a group, dissolving a
group, deleting a node and adding copies. Each answers `none` where it does not apply. -/

namespace BlockScript

namespace Expression

/-- A group takes any operator. A comparison drops its second operand when the operator becomes
unary, and gets an unset one, tagged `fresh`, when it has none and the operator is binary. -/
def setOperator (operator : String) (fresh : Nat) : Expression Nat → Expression Nat
  | leaf tag _ first second =>
    leaf tag operator first
      (if Operator.isUnary operator then none else some (second.getD (.unset fresh)))
  | group tag _ children => group tag operator children
  | operand o => operand o

mutual

/-- The expression with the first node of the tag, in the order of `nodes`, replaced by its
image. -/
def update? (tag : Nat) (f : Expression Nat → Expression Nat) :
    Expression Nat → Option (Expression Nat)
  | leaf t operator first second =>
    if t = tag then some (f (leaf t operator first second)) else none
  | group t operator children =>
    if t = tag then some (f (group t operator children))
    else (updateEach? tag f children).map (group t operator)
  | operand o => if o.tag = tag then some (f (operand o)) else none

def updateEach? (tag : Nat) (f : Expression Nat → Expression Nat) :
    List (Expression Nat) → Option (List (Expression Nat))
  | [] => none
  | e :: rest =>
    match e.update? tag f with
    | some e => some (e :: rest)
    | none => (updateEach? tag f rest).map (e :: ·)

end

/-- Whether one of the expressions themselves has the tag. -/
def anyTagged (tag : Nat) (list : List (Expression Nat)) : Bool := list.any fun e => e.tag == tag

mutual

/-- The children of the group in this expression that directly contains the tag. -/
def siblings? (tag : Nat) : Expression Nat → Option (List (Expression Nat))
  | group _ _ children =>
    if anyTagged tag children then some children else siblingsEach? tag children
  | _ => none

def siblingsEach? (tag : Nat) : List (Expression Nat) → Option (List (Expression Nat))
  | [] => none
  | e :: rest =>
    match e.siblings? tag with
    | some found => some found
    | none => siblingsEach? tag rest

end

mutual

/-- The expression with the children that `siblings?` finds replaced. -/
def replaceSiblings? (tag : Nat) (new : List (Expression Nat)) :
    Expression Nat → Option (Expression Nat)
  | group t operator children =>
    if anyTagged tag children then some (group t operator new)
    else (replaceSiblingsEach? tag new children).map (group t operator)
  | _ => none

def replaceSiblingsEach? (tag : Nat) (new : List (Expression Nat)) :
    List (Expression Nat) → Option (List (Expression Nat))
  | [] => none
  | e :: rest =>
    match e.replaceSiblings? tag new with
    | some e => some (e :: rest)
    | none => (replaceSiblingsEach? tag new rest).map (e :: ·)

end

end Expression

namespace ExpressionList

open Expression

/-- The list, or the children of a group at any depth, that directly contains the tag; a list is
looked at before the groups in it. -/
def siblings? (list : ExpressionList Nat) (tag : Nat) : Option (ExpressionList Nat) :=
  if anyTagged tag list then some list else siblingsEach? tag list

/-- The list with the siblings of the tag replaced by `edit` of them, if there are any and the edit
applies. -/
def editSiblings? (list : ExpressionList Nat) (tag : Nat)
    (edit : ExpressionList Nat → Option (ExpressionList Nat)) : Option (ExpressionList Nat) := do
  let new ← edit (← siblings? list tag)
  if anyTagged tag list then some new else replaceSiblingsEach? tag new list

def setOperator? (list : ExpressionList Nat) (tag : Nat) (operator : String) (fresh : Nat) :
    Option (ExpressionList Nat) :=
  updateEach? tag (Expression.setOperator operator fresh) list

/-- The selected ones of the siblings, in their order, under a new group that stands where the first
of them stood. A unary group takes one expression only. -/
def groupSiblings? (selected : List Nat) (operator : String) (fresh : Nat)
    (siblings : ExpressionList Nat) : Option (ExpressionList Nat) :=
  let isSelected := fun e : Expression Nat => selected.contains e.tag
  let chosen := siblings.filter isSelected
  if Operator.isUnary operator ∧ 1 < chosen.length then none
  else
    let before := siblings.takeWhile fun e => !isSelected e
    let after := (siblings.drop before.length).filter fun e => !isSelected e
    some (before ++ .group fresh operator chosen :: after)

/-- Groups the selected siblings of the first selected expression under the tag `fresh`; selected
tags that are not among those siblings are ignored. -/
def group? (list : ExpressionList Nat) (selected : List Nat) (operator : String) (fresh : Nat) :
    Option (ExpressionList Nat) := do
  let first ← selected.head?
  editSiblings? list first (groupSiblings? selected operator fresh)

/-- The children of the group stand in its place. -/
def ungroupSiblings? (tag : Nat) (siblings : ExpressionList Nat) : Option (ExpressionList Nat) :=
  let before := siblings.takeWhile fun e => e.tag != tag
  match siblings.drop before.length with
  | .group _ _ children :: after => some (before ++ children ++ after)
  | _ => none

def ungroup? (list : ExpressionList Nat) (tag : Nat) : Option (ExpressionList Nat) :=
  editSiblings? list tag (ungroupSiblings? tag)

def delete? (list : ExpressionList Nat) (tag : Nat) : Option (ExpressionList Nat) :=
  editSiblings? list tag fun siblings => some (siblings.eraseP fun e => e.tag == tag)

/-- New tags, from `fresh` on, for a node and all below it. -/
def restamp? (list : ExpressionList Nat) (tag fresh : Nat) : Option (ExpressionList Nat) :=
  updateEach? tag (Expression.stamp fresh) list

/-- An expression added at the end, tagged from `fresh` on. -/
def push {ι : Type} (list : ExpressionList Nat) (e : Expression ι) (fresh : Nat) :
    ExpressionList Nat :=
  list ++ [e.stamp fresh]

end ExpressionList

/-- The edits of an expression list. -/
inductive ExpressionEdit where
  | push (e : Expression Unit)
  | setOperator (tag : Nat) (operator : String)
  | group (selected : List Nat) (operator : String)
  | ungroup (tag : Nat)
  | delete (tag : Nat)
  /-- New tags for a node and all below it. -/
  | restamp (tag : Nat)
  /-- A copy of a node, with tags of its own, at the end of the list. -/
  | copy (tag : Nat)

/-- The edited list and the next unused tag, if `next` and all above it are unused before. A new
group has the tag `next`. -/
def ExpressionEdit.run? (list : ExpressionList Nat) (next : Nat) :
    ExpressionEdit → Option (ExpressionList Nat × Nat)
  | push e => some (ExpressionList.push list e next, next + e.count)
  | setOperator tag operator =>
    (ExpressionList.setOperator? list tag operator next).map (·, next + 1)
  | group selected operator =>
    (ExpressionList.group? list selected operator next).map (·, next + 1)
  | ungroup tag => (ExpressionList.ungroup? list tag).map (·, next)
  | delete tag => (ExpressionList.delete? list tag).map (·, next)
  | restamp tag => do
    let e ← ExpressionList.find? list tag
    return (← ExpressionList.restamp? list tag next, next + e.count)
  | copy tag =>
    (ExpressionList.find? list tag).map fun e => (ExpressionList.push list e next, next + e.count)

end BlockScript
