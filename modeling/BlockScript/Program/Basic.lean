import BlockScript.Table
import BlockScript.Statement.Walk

/-! Programs: a root block, procedures with bodies of their own, variables, and two lists of
bookkeeping about statements. A program hands out the tags of its nodes itself. -/

namespace BlockScript

structure Variable where
  type : ValueType
  value : Json
deriving Inhabited

def Variable.sameAs (a b : Variable) : Bool := a.type == b.type && a.value.sameAs b.value

/-- A statement whose procedure has been initialized. -/
structure Initialized where
  tag : Nat
  procedure : String
deriving DecidableEq, Inhabited

/-- The content of a document: a program whose nodes have no identity. -/
structure Draft where
  «variables» : Table String Variable
  procedures : Table String (Block Unit)
  block : Block Unit
deriving Inhabited

structure Program where
  «variables» : Table String Variable := ∅
  procedures : Table String (Block Nat) := ∅
  /-- Statements that stand for a part still to be filled in. -/
  skeletons : List Nat := []
  initialized : List Initialized := []
  block : Block Nat := []
  /-- This tag and all above it have never been used. -/
  next : Nat := 0
deriving Inhabited

/-- Names a block of a program. -/
inductive Address where
  | root
  | procedure (id : String)
  /-- The nested block of the statement with this tag. -/
  | inside (tag : Nat)
deriving DecidableEq, Inhabited

/-- The list of bookkeeping that an entry comes from. -/
inductive Bookkeeping where
  | skeleton
  | initialized
deriving DecidableEq, Inhabited

def Bookkeeping.name : Bookkeeping → String
  | skeleton => "Skeleton"
  | initialized => "InitializedProcedure"

/-- A bookkeeping entry whose statement is no longer in the program. -/
structure Dangling where
  source : Bookkeeping
  tag : Nat
deriving DecidableEq, Inhabited

namespace Statement

/-- Procedure bodies stamped one after the other. -/
def stampBodies {ι : Type} (next : Nat) : List (String × Block ι) → List (String × Block Nat)
  | [] => []
  | (id, body) :: rest => (id, stampEach next body) :: stampBodies (next + countEach body) rest

def countBodies {ι : Type} : List (String × Block ι) → Nat
  | [] => 0
  | (_, body) :: rest => countEach body + countBodies rest

theorem map_fst_stampBodies {ι : Type} :
    (next : Nat) → (bodies : List (String × Block ι)) →
      (stampBodies next bodies).map Prod.fst = bodies.map Prod.fst
  | _, [] => rfl
  | next, (id, body) :: rest => by
    simp [stampBodies, map_fst_stampBodies (next + countEach body) rest]

end Statement

namespace Program

/-- A program with the content of a document and tags from `next` on. -/
def ofDraft (draft : Draft) (next : Nat := 0) : Program :=
  let after := next + Statement.countEach draft.block
  { «variables» := draft.variables
    procedures :=
      ⟨Statement.stampBodies after draft.procedures.entries, by
        rw [Statement.map_fst_stampBodies]; exact draft.procedures.nodup⟩
    block := Statement.stampEach next draft.block
    next := after + Statement.countBodies draft.procedures.entries }

/-- The root block and then the body of each procedure. -/
def blocks (p : Program) : List (Block Nat) := p.block :: p.procedures.values

/-- All statements in the order of `blocks`, each before those nested in it. -/
def nodes (p : Program) : List (Statement Nat) := p.blocks.flatMap Statement.nodesEach

/-- The first statement with the tag. -/
def find? (p : Program) (tag : Nat) : Option (Statement Nat) := p.nodes.find? fun s => s.tag == tag

def block? (p : Program) : Address → Option (Block Nat)
  | .root => some p.block
  | .procedure id => p.procedures.get? id
  | .inside tag => (p.find? tag).bind Statement.block?

/-- The bodies with the first statement of the tag replaced by its image. -/
def updateBodies? (tag : Nat) (f : Statement Nat → Statement Nat) :
    List (String × Block Nat) → Option (List (String × Block Nat))
  | [] => none
  | (id, body) :: rest =>
    match Statement.updateEach? tag f body with
    | some body => some ((id, body) :: rest)
    | none => (updateBodies? tag f rest).map ((id, body) :: ·)

theorem map_fst_updateBodies? {tag : Nat} {f : Statement Nat → Statement Nat} :
    {bodies new : List (String × Block Nat)} → updateBodies? tag f bodies = some new →
      new.map Prod.fst = bodies.map Prod.fst
  | [], _, h => by simp [updateBodies?] at h
  | (id, body) :: rest, new, h => by
    rw [updateBodies?] at h
    split at h
    · obtain rfl := Option.some.inj h
      rfl
    · obtain ⟨new, hn, rfl⟩ := Option.map_eq_some_iff.mp h
      simp [map_fst_updateBodies? hn]

/-- The program with the statement that `find?` finds replaced by its image. -/
def update? (p : Program) (tag : Nat) (f : Statement Nat → Statement Nat) : Option Program :=
  match Statement.updateEach? tag f p.block with
  | some block => some { p with block }
  | none =>
    match h : updateBodies? tag f p.procedures.entries with
    | some bodies =>
      some { p with
        procedures := ⟨bodies, by rw [map_fst_updateBodies? h]; exact p.procedures.nodup⟩ }
    | none => none

/-- The program with one block replaced by its image; nothing changes if there is no such block. -/
def modifyBlock (p : Program) (place : Address) (f : Block Nat → Block Nat) : Program :=
  match place with
  | .root => { p with block := f p.block }
  | .procedure id =>
    match p.procedures.get? id with
    | some body => { p with procedures := p.procedures.insert id (f body) }
    | none => p
  | .inside tag => (p.update? tag (Statement.mapBlock f)).getD p

/-- Bookkeeping entries whose statement is nowhere in the program. -/
def dangling (p : Program) : List Dangling :=
  let present := p.nodes.map Statement.tag
  (p.skeletons.map (Dangling.mk .skeleton) ++
    p.initialized.map fun entry => Dangling.mk .initialized entry.tag).filter
      fun d => !present.contains d.tag

/-- Equality up to tags of nodes and flags, whatever the order of variables and procedures. -/
def sameAs (p q : Program) : Bool :=
  p.variables.agree Variable.sameAs q.variables &&
    p.procedures.agree Statement.sameEach q.procedures &&
    p.skeletons == q.skeletons && p.initialized == q.initialized &&
    Statement.sameEach p.block q.block

end Program

end BlockScript
