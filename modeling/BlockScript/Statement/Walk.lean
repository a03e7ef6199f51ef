import BlockScript.Statement.Basic

/-! Walks over a block in the order in which it is written: `Block.sites` lists the statements with
their surroundings, and `Block.traverse` replaces their heads one after the other. -/

namespace BlockScript

/-- A statement and where it stands. -/
structure Site (ι : Type) where
  statement : Statement ι
  /-- The statement whose block this one stands in, if the walk knows of one. -/
  parent : Option (Statement ι)
  /-- The sibling just before. -/
  previous : Option (Statement ι)
  /-- The place among the siblings. -/
  index : Nat
  /-- How many blocks of the walk this statement is nested in. -/
  depth : Nat

namespace Statement

variable {ι : Type}

mutual

/-- The sites in the nested block of a statement. -/
def sitesBelow (depth : Nat) : Statement ι → List (Site ι)
  | simple _ => []
  | compound head block => sitesFrom (some (compound head block)) (depth + 1) none 0 block

/-- The sites of the siblings from one on, and in their blocks. -/
def sitesFrom (parent : Option (Statement ι)) (depth : Nat) (previous : Option (Statement ι))
    (index : Nat) : List (Statement ι) → List (Site ι)
  | [] => []
  | s :: rest =>
    ⟨s, parent, previous, index, depth⟩ ::
      (s.sitesBelow depth ++ sitesFrom parent depth (some s) (index + 1) rest)

end

variable {m : Type → Type} [Monad m]

mutual

/-- Visits the heads of a statement and of all nested in it, with their depth, and puts the visit's
result in their place. -/
def traverse (visit : Nat → Head ι → m (Head ι)) (depth : Nat) : Statement ι → m (Statement ι)
  | simple head => do return simple (← visit depth head)
  | compound head block => do
    let head ← visit depth head
    return compound head (← traverseEach visit (depth + 1) block)

def traverseEach (visit : Nat → Head ι → m (Head ι)) (depth : Nat) :
    List (Statement ι) → m (List (Statement ι))
  | [] => return []
  | s :: rest => do
    let s ← s.traverse visit depth
    return s :: (← traverseEach visit depth rest)

end

end Statement

namespace Block

variable {ι : Type}

/-- All statements of a block that stands in `parent`, each before those in its own block. -/
def sites (block : Block ι) (parent : Option (Statement ι) := none) : List (Site ι) :=
  Statement.sitesFrom parent 0 none 0 block

def traverse {m : Type → Type} [Monad m] (visit : Nat → Head ι → m (Head ι)) (block : Block ι) :
    m (Block ι) :=
  Statement.traverseEach visit 0 block

/-- Flags exactly the statements whose tag satisfies `invalid`. -/
def mark (invalid : ι → Bool) (block : Block ι) : Block ι :=
  Id.run (traverse (fun _ head => pure { head with invalid := invalid head.tag }) block)

end Block

end BlockScript
