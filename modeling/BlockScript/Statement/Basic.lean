import BlockScript.Expression.Basic

/-! Statements: a head with an id and arguments, and for compound statements a nested block. The
shape of a statement says which of arguments and block it has. -/

namespace BlockScript

inductive Shape where
  | unit
  | unitWithArguments
  | compound
  | compoundWithArguments
deriving DecidableEq, Inhabited

namespace Shape

def of (hasBlock hasArguments : Bool) : Shape :=
  match hasBlock, hasArguments with
  | false, false => unit
  | false, true => unitWithArguments
  | true, false => compound
  | true, true => compoundWithArguments

def hasBlock : Shape → Bool
  | compound | compoundWithArguments => true
  | _ => false

def hasArguments : Shape → Bool
  | unitWithArguments | compoundWithArguments => true
  | _ => false

def all : List Shape := [unit, unitWithArguments, compound, compoundWithArguments]

def name : Shape → String
  | unit => "unit"
  | unitWithArguments => "unit_with_args"
  | compound => "compound"
  | compoundWithArguments => "compound_with_args"

def ofName? (s : String) : Option Shape := all.find? fun shape => shape.name == s

@[simp] theorem hasBlock_of (b a : Bool) : (of b a).hasBlock = b := by cases b <;> cases a <;> rfl

@[simp] theorem hasArguments_of (b a : Bool) : (of b a).hasArguments = a := by
  cases b <;> cases a <;> rfl

end Shape

/-- A value with a type. The two are independent: documents have a list of expressions exactly under
the type of boolean expressions, but an argument may be built otherwise. -/
inductive Argument (ι : Type) where
  | literal (type : ValueType) (value : Json)
  | expressions (type : ValueType) (list : ExpressionList ι)
deriving Inhabited

namespace Argument

variable {ι κ : Type}

def type : Argument ι → ValueType
  | literal type _ | expressions type _ => type

/-- The argument of this type that has no value yet. -/
def unset : ValueType → Argument ι
  | .booleanExpression => expressions .booleanExpression []
  | type => literal type .null

def expressions? : Argument ι → Option (ExpressionList ι)
  | literal .. => none
  | expressions _ list => some list

/-- Equality up to tags. -/
def sameAs : Argument ι → Argument κ → Bool
  | literal type value, literal type' value' => type == type' && value.sameAs value'
  | expressions type list, expressions type' list' =>
    type == type' && Expression.sameEach list list'
  | _, _ => false

def count : Argument ι → Nat
  | literal .. => 0
  | expressions _ list => Expression.countEach list

def stamp (next : Nat) : Argument ι → Argument Nat
  | literal type value => literal type value
  | expressions type list => expressions type (Expression.stampEach next list)

def tags : Argument ι → List ι
  | literal .. => []
  | expressions _ list => Expression.tagsEach list

def countEach : List (Argument ι) → Nat
  | [] => 0
  | a :: rest => a.count + countEach rest

def stampEach (next : Nat) : List (Argument ι) → List (Argument Nat)
  | [] => []
  | a :: rest => a.stamp next :: stampEach (next + a.count) rest

def sameEach : List (Argument ι) → List (Argument κ) → Bool
  | [], [] => true
  | a :: as, b :: bs => a.sameAs b && sameEach as bs
  | _, _ => false

end Argument

/-- A statement without its nested block. -/
structure Head (ι : Type) where
  /-- What kind of statement this is: its key in the language. -/
  id : String
  tag : ι
  arguments : Option (List (Argument ι)) := none
  /-- Whether the last analysis found an error here. -/
  invalid : Bool := false
deriving Inhabited

inductive Statement (ι : Type) where
  | simple (head : Head ι)
  | compound (head : Head ι) (block : List (Statement ι))
deriving Inhabited

abbrev Block (ι : Type) := List (Statement ι)

/-- A statement without identity, from which statements of a program are made. -/
abbrev Template := Statement Unit

namespace Head

variable {ι κ : Type}

/-- Equality up to tags and flags. -/
def sameAs (a : Head ι) (b : Head κ) : Bool :=
  a.id == b.id &&
    (match a.arguments, b.arguments with
      | some as, some bs => Argument.sameEach as bs
      | none, none => true
      | _, _ => false)

def count (h : Head ι) : Nat := Argument.countEach (h.arguments.getD []) + 1

def stamp (next : Nat) (h : Head ι) : Head Nat where
  id := h.id
  tag := next
  arguments := h.arguments.map (Argument.stampEach (next + 1))
  invalid := h.invalid

def tags (h : Head ι) : List ι := h.tag :: (h.arguments.getD []).flatMap Argument.tags

end Head

namespace Statement

variable {ι κ : Type}

def head : Statement ι → Head ι
  | simple head | compound head _ => head

def id (s : Statement ι) : String := s.head.id

def tag (s : Statement ι) : ι := s.head.tag

@[simp] theorem tag_simple (head : Head ι) : (simple head).tag = head.tag := rfl

@[simp] theorem tag_compound (head : Head ι) (block : Block ι) :
    (compound head block).tag = head.tag := rfl

def arguments (s : Statement ι) : List (Argument ι) := s.head.arguments.getD []

def block? : Statement ι → Option (Block ι)
  | simple _ => none
  | compound _ block => some block

def shape (s : Statement ι) : Shape := .of s.block?.isSome s.head.arguments.isSome

def mapHead (f : Head ι → Head ι) : Statement ι → Statement ι
  | simple head => simple (f head)
  | compound head block => compound (f head) block

/-- A simple statement has no block to change. -/
def mapBlock (f : Block ι → Block ι) : Statement ι → Statement ι
  | simple head => simple head
  | compound head block => compound head (f block)

mutual

/-- Equality up to tags and flags. -/
def sameAs : Statement ι → Statement κ → Bool
  | simple a, simple b => a.sameAs b
  | compound a as, compound b bs => a.sameAs b && sameEach as bs
  | _, _ => false

def sameEach : List (Statement ι) → List (Statement κ) → Bool
  | [], [] => true
  | a :: as, b :: bs => a.sameAs b && sameEach as bs
  | _, _ => false

end

mutual

/-- The number of tags in a statement, those of expressions and operands included. -/
def count : Statement ι → Nat
  | simple head => head.count
  | compound head block => head.count + countEach block

def countEach : List (Statement ι) → Nat
  | [] => 0
  | s :: rest => s.count + countEach rest

end

mutual

/-- The statement with the tags `next`, `next + 1`, … in the order in which it is written. -/
def stamp (next : Nat) : Statement ι → Statement Nat
  | simple head => simple (head.stamp next)
  | compound head block => compound (head.stamp next) (stampEach (next + head.count) block)

def stampEach (next : Nat) : List (Statement ι) → List (Statement Nat)
  | [] => []
  | s :: rest => s.stamp next :: stampEach (next + s.count) rest

end

mutual

/-- All tags in the order in which `stamp` gives them. -/
def tags : Statement ι → List ι
  | simple head => head.tags
  | compound head block => head.tags ++ tagsEach block

def tagsEach : List (Statement ι) → List ι
  | [] => []
  | s :: rest => s.tags ++ tagsEach rest

end

mutual

/-- The statement itself and all nested in it, each before its block. -/
def nodes : Statement ι → List (Statement ι)
  | simple head => [simple head]
  | compound head block => compound head block :: nodesEach block

def nodesEach : List (Statement ι) → List (Statement ι)
  | [] => []
  | s :: rest => s.nodes ++ nodesEach rest

end

/-- The tags of the statement itself and of all nested in it. -/
def subtree (s : Statement ι) : List ι := s.nodes.map tag

mutual

/-- The statement with the first of its nodes that has the tag replaced by its image. -/
def update? (tag : Nat) (f : Statement Nat → Statement Nat) :
    Statement Nat → Option (Statement Nat)
  | simple head => if head.tag = tag then some (f (simple head)) else none
  | compound head block =>
    if head.tag = tag then some (f (compound head block))
    else (updateEach? tag f block).map (compound head)

def updateEach? (tag : Nat) (f : Statement Nat → Statement Nat) :
    List (Statement Nat) → Option (List (Statement Nat))
  | [] => none
  | s :: rest =>
    match s.update? tag f with
    | some s => some (s :: rest)
    | none => (updateEach? tag f rest).map (s :: ·)

end

end Statement

namespace Block

variable {ι : Type}

/-- The first statement with the tag, at any depth. -/
def find? (block : Block Nat) (tag : Nat) : Option (Statement Nat) :=
  (Statement.nodesEach block).find? fun s => s.tag == tag

def containsTag (block : Block Nat) (tag : Nat) : Bool :=
  (Statement.nodesEach block).any fun s => s.tag == tag

end Block

end BlockScript
