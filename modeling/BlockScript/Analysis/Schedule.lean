import BlockScript.Language.Registry
import BlockScript.Program.Basic

/-! The order in which an analysis visits statements: blocks in the order in which they are written,
and the body of a procedure just after the first statement that calls it. A call from within the
body that it calls is marked. -/

namespace BlockScript

/-- A visit of a statement. -/
structure Visit where
  site : Site Nat
  /-- Whether the statement calls a procedure whose body is being visited. -/
  reentrant : Bool

/-- What is still to do. -/
inductive Task where
  | visit (site : Site Nat)
  /-- Visit the body of a procedure, unless that has begun before. -/
  | enter (procedure : String)
  /-- The innermost body that is being visited ends. -/
  | leave

namespace Task

/-- The tasks of visiting a block. -/
def ofBlock (block : Block Nat) (parent : Option (Statement Nat) := none) : List Task :=
  (block.sites parent).map visit

/-- A visit may turn into entering a body. -/
def weight : Task → Nat
  | visit _ => 2
  | enter _ | leave => 1

/-- How many steps the tasks take at most, procedure bodies aside. -/
def total : List Task → Nat
  | [] => 0
  | task :: rest => task.weight + total rest

/-- How many steps entering each of the bodies takes at most. -/
def totalBodies : List (Block Nat) → Nat
  | [] => 0
  | body :: rest => total (ofBlock body) + 1 + totalBodies rest

def totalPending (pending : Table String (Block Nat)) : Nat := totalBodies pending.values

@[simp] theorem total_cons (task : Task) (tasks : List Task) :
    total (task :: tasks) = task.weight + total tasks := rfl

@[simp] theorem total_append (tasks more : List Task) :
    total (tasks ++ more) = total tasks + total more := by
  induction tasks with
  | nil => simp [total]
  | cons task rest ih => simp [ih, Nat.add_assoc]

theorem totalBodies_perm {bodies bodies' : List (Block Nat)} (h : bodies.Perm bodies') :
    totalBodies bodies = totalBodies bodies' := by
  induction h with
  | nil => rfl
  | cons body _ ih => rw [totalBodies, totalBodies, ih]
  | swap body body' rest =>
    simp only [totalBodies]
    omega
  | trans _ _ ih ih' => rw [ih, ih']

theorem totalPending_erase {pending : Table String (Block Nat)} {id : String} {body : Block Nat}
    (h : pending.get? id = some body) :
    totalPending pending = totalPending (pending.erase id) + (total (ofBlock body) + 1) := by
  rw [totalPending, totalBodies_perm (Table.values_perm_erase h), totalBodies, totalPending]
  omega

end Task

/-- The visits of a list of tasks. The procedures in `pending` have not been begun; the bodies of
those in `active` are being visited, the innermost first. -/
def Language.schedule (lang : Language) (pending : Table String (Block Nat))
    (active : List String) : List Task → List Visit
  | [] => []
  | .visit site :: rest =>
    let id := site.statement.id
    if lang.isProcedure id then
      if active.contains id then ⟨site, true⟩ :: lang.schedule pending active rest
      else ⟨site, false⟩ :: lang.schedule pending active (.enter id :: rest)
    else ⟨site, false⟩ :: lang.schedule pending active rest
  | .enter id :: rest =>
    match _found : pending.get? id with
    | some body =>
      lang.schedule (pending.erase id) (id :: active) (Task.ofBlock body ++ .leave :: rest)
    | none => lang.schedule pending active rest
  | .leave :: rest => lang.schedule pending active.tail rest
termination_by tasks => Task.totalPending pending + Task.total tasks
decreasing_by
  · simp [Task.weight]
  · simp [Task.weight]
  · simp [Task.weight]
  · simp [Task.totalPending_erase _found, Task.weight]; omega
  · simp [Task.weight]
  · simp [Task.weight]

namespace Language

variable {lang : Language} {pending : Table String (Block Nat)} {active : List String}
  {site : Site Nat} {id : String} {body : Block Nat} (rest : List Task)

@[simp] theorem schedule_nil (lang : Language) (pending : Table String (Block Nat))
    (active : List String) : lang.schedule pending active [] = [] := by
  rw [schedule]

theorem schedule_reentrant (procedure : lang.isProcedure site.statement.id = true)
    (again : site.statement.id ∈ active) :
    lang.schedule pending active (.visit site :: rest) =
      ⟨site, true⟩ :: lang.schedule pending active rest := by
  rw [schedule]
  simp [procedure, again]

theorem schedule_call (procedure : lang.isProcedure site.statement.id = true)
    (fresh : site.statement.id ∉ active) :
    lang.schedule pending active (.visit site :: rest) =
      ⟨site, false⟩ :: lang.schedule pending active (.enter site.statement.id :: rest) := by
  rw [schedule]
  simp [procedure, fresh]

theorem schedule_plain (other : lang.isProcedure site.statement.id = false) :
    lang.schedule pending active (.visit site :: rest) =
      ⟨site, false⟩ :: lang.schedule pending active rest := by
  rw [schedule]
  simp [other]

theorem schedule_enter (found : pending.get? id = some body) :
    lang.schedule pending active (.enter id :: rest) =
      lang.schedule (pending.erase id) (id :: active) (Task.ofBlock body ++ .leave :: rest) := by
  rw [schedule]
  split
  · rename_i other hother
    obtain rfl := Option.some.inj (found.symm.trans hother)
    rfl
  · rename_i hnone
    cases found.symm.trans hnone

/-- A body that has been begun is not visited again. -/
theorem schedule_skip (begun : pending.get? id = none) :
    lang.schedule pending active (.enter id :: rest) = lang.schedule pending active rest := by
  rw [schedule]
  split
  · rename_i other hother
    cases begun.symm.trans hother
  · rfl

theorem schedule_leave :
    lang.schedule pending active (.leave :: rest) = lang.schedule pending active.tail rest := by
  rw [schedule]

end Language

/-- The visits of a block that stands in `parent`. -/
def Language.visitBlock (lang : Language) (procedures : Table String (Block Nat))
    (block : Block Nat) (parent : Option (Statement Nat) := none) : List Visit :=
  lang.schedule procedures [] (Task.ofBlock block parent)

/-- The visits of a program: those of the root block, then those of the bodies that it does not lead
to. -/
def Language.visitProgram (lang : Language) (p : Program) : List Visit :=
  lang.schedule p.procedures [] (Task.ofBlock p.block ++ p.procedures.keys.map .enter)

end BlockScript
