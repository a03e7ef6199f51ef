import BlockScript.Json.Printer
import BlockScript.ValueType

/-! Boolean expressions: comparisons of operands, groups under an operator, and bare operands. Nodes
carry tags of a type `ι`; an expression without identity has tags in `Unit`. -/

namespace BlockScript

namespace Operator

/-- Negation is the only operator with one operand. -/
def isUnary (operator : String) : Bool := operator == "!"

def comparisons : List String := ["==", "!=", "<", ">", "<=", ">=", "&&", "||", "!"]

def combinators : List String := ["&&", "||", "!"]

def isComparison (operator : String) : Bool := comparisons.contains operator

def isCombinator (operator : String) : Bool := combinators.contains operator

end Operator

/-- A literal or the name of a variable. -/
structure Operand (ι : Type) where
  tag : ι
  type : ValueType
  value : Json
deriving Inhabited

inductive Expression (ι : Type) where
  /-- An operator on its operands: `first operator second`, or `operator first`. -/
  | leaf (tag : ι) (operator : String) (first : Operand ι) (second : Option (Operand ι))
  | group (tag : ι) (operator : String) (children : List (Expression ι))
  /-- An operand where an expression may stand. -/
  | operand (operand : Operand ι)
deriving Inhabited

abbrev ExpressionList (ι : Type) := List (Expression ι)

namespace Operand

variable {ι κ : Type}

/-- The operand that has no value yet. -/
def unset (tag : ι) : Operand ι := ⟨tag, .unknown, .null⟩

def isUnset (o : Operand ι) : Bool := o.value.isNull

/-- A missing value reads `?`, a string its own characters, and a variable has a sign before its
name. -/
def render (o : Operand ι) : String :=
  let text := match o.value with
    | .string s => s
    | value => value.compact
  if o.isUnset then "?" else if o.type = .variable then "$" ++ text else text

/-- Equality up to tags. -/
def sameAs (a : Operand ι) (b : Operand κ) : Bool := a.type == b.type && a.value.sameAs b.value

def retag (o : Operand ι) (tag : κ) : Operand κ := ⟨tag, o.type, o.value⟩

end Operand

namespace Expression

variable {ι κ : Type}

def tag : Expression ι → ι
  | leaf tag .. | group tag .. => tag
  | operand o => o.tag

@[simp] theorem tag_leaf (t : ι) (operator : String) (first : Operand ι)
    (second : Option (Operand ι)) : (leaf t operator first second).tag = t := rfl

@[simp] theorem tag_group (t : ι) (operator : String) (children : List (Expression ι)) :
    (group t operator children).tag = t := rfl

@[simp] theorem tag_operand (o : Operand ι) : (operand o).tag = o.tag := rfl

/-- A bare operand has no operator. -/
def operator : Expression ι → String
  | leaf _ operator .. | group _ operator _ => operator
  | operand _ => ""

/-- A comparison without identity: a unary operator takes no second operand, and a binary one has
an unset one if none is given. -/
def comparison (operator : String) (first : Operand Unit) (second : Option (Operand Unit)) :
    Expression Unit :=
  .leaf () operator first
    (if Operator.isUnary operator then none else some (second.getD (.unset ())))

mutual

def render : Expression ι → String
  | leaf _ operator first second =>
    match second with
    | some second =>
      if Operator.isUnary operator then operator ++ first.render
      else first.render ++ " " ++ operator ++ " " ++ second.render
    | none => operator ++ first.render
  | group _ operator children =>
    if Operator.isUnary operator then
      operator ++ "(" ++ ", ".intercalate (renderEach children) ++ ")"
    else "(" ++ (" " ++ operator ++ " ").intercalate (renderEach children) ++ ")"
  | operand o => o.render

def renderEach : List (Expression ι) → List String
  | [] => []
  | e :: rest => e.render :: renderEach rest

end

mutual

/-- Equality up to tags. -/
def sameAs : Expression ι → Expression κ → Bool
  | leaf _ operator first second, leaf _ operator' first' second' =>
    operator == operator' && first.sameAs first' &&
      (match second, second' with
        | some a, some b => a.sameAs b
        | none, none => true
        | _, _ => false)
  | group _ operator children, group _ operator' children' =>
    operator == operator' && sameEach children children'
  | operand a, operand b => a.sameAs b
  | _, _ => false

def sameEach : List (Expression ι) → List (Expression κ) → Bool
  | [], [] => true
  | a :: as, b :: bs => a.sameAs b && sameEach as bs
  | _, _ => false

end

mutual

/-- The number of tags in an expression, those of operands included. -/
def count : Expression ι → Nat
  | leaf _ _ _ second => if second.isSome then 3 else 2
  | group _ _ children => countEach children + 1
  | operand _ => 1

def countEach : List (Expression ι) → Nat
  | [] => 0
  | e :: rest => e.count + countEach rest

end

mutual

/-- The expression with the tags `next`, `next + 1`, … in the order in which it is written. -/
def stamp (next : Nat) : Expression ι → Expression Nat
  | leaf _ operator first second =>
    leaf next operator (first.retag (next + 1)) (second.map (·.retag (next + 2)))
  | group _ operator children => group next operator (stampEach (next + 1) children)
  | operand o => operand (o.retag next)

def stampEach (next : Nat) : List (Expression ι) → List (Expression Nat)
  | [] => []
  | e :: rest => e.stamp next :: stampEach (next + e.count) rest

end

mutual

/-- All tags in the order in which `stamp` gives them. -/
def tags : Expression ι → List ι
  | leaf tag _ first second => tag :: first.tag :: (second.map (·.tag)).toList
  | group tag _ children => tag :: tagsEach children
  | operand o => [o.tag]

def tagsEach : List (Expression ι) → List ι
  | [] => []
  | e :: rest => e.tags ++ tagsEach rest

end

mutual

/-- The expression itself and all below it, each before its children. An operand of a comparison is
not among them. -/
def nodes : Expression ι → List (Expression ι)
  | leaf tag operator first second => [leaf tag operator first second]
  | group tag operator children => group tag operator children :: nodesEach children
  | operand o => [operand o]

def nodesEach : List (Expression ι) → List (Expression ι)
  | [] => []
  | e :: rest => e.nodes ++ nodesEach rest

end

end Expression

namespace ExpressionList

variable {ι : Type}

def render (list : ExpressionList ι) : String := ", ".intercalate (Expression.renderEach list)

/-- The first node with the tag. -/
def find? (list : ExpressionList Nat) (tag : Nat) : Option (Expression Nat) :=
  (Expression.nodesEach list).find? fun e => e.tag == tag

end ExpressionList

end BlockScript
