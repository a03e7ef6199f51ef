import BlockScript.Proofs.CallGraph
import Mathlib.Data.List.Perm.Subperm
import Mathlib.Logic.Function.Iterate

/-! An analysis one step after the other. It remembers the procedures whose bodies have been
visited, and the stack of those whose bodies are being visited. Whatever calls what, these stay
apart, no procedure is twice on the stack, and the steps come to an end. -/

namespace BlockScript

/-- An analysis on its way. -/
structure Stage where
  /-- The procedures whose bodies have been visited. -/
  done : List String := []
  /-- The procedures whose bodies are being visited, the innermost first. -/
  expanding : List String := []
  /-- What is still to do. -/
  tasks : List Task
  visited : List Visit := []

/-- The procedures without those that have been begun. -/
def Table.Remaining (procedures : Table String (Block Nat)) (begun : List String)
    (pending : Table String (Block Nat)) : Prop :=
  ∀ id, pending.get? id = if id ∈ begun then none else procedures.get? id

namespace Table.Remaining

variable {procedures pending : Table String (Block Nat)} {begun : List String} {id : String}
  {body : Block Nat}

theorem init (procedures : Table String (Block Nat)) : procedures.Remaining [] procedures := by
  intro id
  rw [if_neg List.not_mem_nil]

theorem congr {begun' : List String} (h : procedures.Remaining begun pending)
    (same : ∀ id, id ∈ begun' ↔ id ∈ begun) : procedures.Remaining begun' pending := by
  intro id
  simp only [same, h id]

theorem erase (h : procedures.Remaining begun pending) (id : String) :
    procedures.Remaining (id :: begun) (pending.erase id) := by
  intro k
  rw [Table.get?_erase, h k]
  by_cases hk : k = id <;> simp [hk]

theorem get?_of_mem (h : procedures.Remaining begun pending) (known : id ∈ begun) :
    pending.get? id = none := by
  rw [h id, if_pos known]

theorem get?_of_not_mem (h : procedures.Remaining begun pending) (fresh : id ∉ begun) :
    pending.get? id = procedures.get? id := by
  rw [h id, if_neg fresh]

/-- A procedure is absent because it has been begun, or because the header has none such. -/
theorem mem_of_get?_eq_none (h : procedures.Remaining begun pending)
    (absent : pending.get? id = none) (header : id ∈ procedures.keys) : id ∈ begun := by
  by_contra fresh
  rw [h.get?_of_not_mem fresh, Table.get?_eq_none_iff] at absent
  exact absent header

theorem not_mem_of_get? (h : procedures.Remaining begun pending)
    (found : pending.get? id = some body) : id ∉ begun := by
  intro known
  rw [h.get?_of_mem known] at found
  cases found

theorem get?_of_get? (h : procedures.Remaining begun pending)
    (found : pending.get? id = some body) : procedures.get? id = some body :=
  (h.get?_of_not_mem (h.not_mem_of_get? found)).symm.trans found

end Table.Remaining

theorem Block.length_sites (block : Block Nat) (parent : Option (Statement Nat)) :
    (block.sites parent).length = (Statement.nodesEach block).length := by
  rw [← Block.map_statement_sites block parent, List.length_map]

namespace Task

theorem total_ofBlock (block : Block Nat) (parent : Option (Statement Nat)) :
    total (ofBlock block parent) = 2 * (block.sites parent).length := by
  rw [ofBlock]
  induction block.sites parent with
  | nil => rfl
  | cons site rest ih =>
    rw [List.map_cons, total_cons, ih, List.length_cons, weight]
    omega

theorem total_enter (ids : List String) : total (ids.map enter) = ids.length := by
  induction ids with
  | nil => rfl
  | cons id rest ih =>
    rw [List.map_cons, total_cons, ih, List.length_cons, weight]
    omega

theorem totalBodies_eq (bodies : List (Block Nat)) :
    totalBodies bodies = 2 * (bodies.flatMap Statement.nodesEach).length + bodies.length := by
  induction bodies with
  | nil => rfl
  | cons body rest ih =>
    rw [totalBodies, ih, total_ofBlock, Block.length_sites, List.flatMap_cons, List.length_append,
      List.length_cons]
    omega

theorem total_pos {tasks : List Task} (h : tasks ≠ []) : 0 < total tasks := by
  cases tasks with
  | nil => exact absurd rfl h
  | cons task rest =>
    have hweight : 0 < task.weight := by cases task <;> exact Nat.succ_pos _
    rw [total_cons]
    omega

/-- What is about to be entered is not being visited. -/
theorem Nested.fresh {lang : Language} {p : Program} {active : List String} {callee : String}
    {rest : List Task} (h : Nested lang p active (.enter callee :: rest)) : callee ∉ active := by
  cases h with
  | root => exact List.not_mem_nil
  | enter fresh => exact fresh

end Task

namespace Stage

/-- The analysis of a program before its first step. -/
def start (p : Program) : Stage where
  tasks := Task.ofBlock p.block ++ p.procedures.keys.map .enter

/-- The next step. A call of a procedure that is being visited goes no further, and a body that has
been visited is not entered. -/
def next (lang : Language) (procedures : Table String (Block Nat)) (s : Stage) : Stage :=
  match s.tasks with
  | [] => s
  | .visit site :: rest =>
    let id := site.statement.id
    if lang.isProcedure id then
      if id ∈ s.expanding then { s with tasks := rest, visited := s.visited ++ [⟨site, true⟩] }
      else { s with tasks := .enter id :: rest, visited := s.visited ++ [⟨site, false⟩] }
    else { s with tasks := rest, visited := s.visited ++ [⟨site, false⟩] }
  | .enter id :: rest =>
    if id ∈ s.done then { s with tasks := rest }
    else match procedures.get? id with
      | some body =>
        { s with expanding := id :: s.expanding, tasks := Task.ofBlock body ++ .leave :: rest }
      | none => { s with tasks := rest }
  | .leave :: rest =>
    match s.expanding with
    | id :: outer => { s with done := id :: s.done, expanding := outer, tasks := rest }
    | [] => { s with tasks := rest }

def after (lang : Language) (p : Program) (n : Nat) : Stage :=
  (next lang p.procedures)^[n] (start p)

/-- How many steps are left at most. -/
def cost (pending : Table String (Block Nat)) (s : Stage) : Nat :=
  Task.totalPending pending + Task.total s.tasks

/-- What holds at every step, where `pending` has the procedures that have not been begun. -/
structure Holds (lang : Language) (p : Program) (pending : Table String (Block Nat)) (s : Stage) :
    Prop where
  scheduled : lang.Scheduled p pending s.expanding s.tasks
  remaining : p.procedures.Remaining (s.expanding ++ s.done) pending
  apart : s.expanding.Disjoint s.done
  visits : s.visited ++ lang.schedule pending s.expanding s.tasks = lang.visitProgram p

variable {lang : Language} {p : Program} {pending : Table String (Block Nat)} {s : Stage}
  {expanding done : List String} {visited : List Visit} {rest : List Task}

theorem holds_start (lang : Language) (p : Program) :
    Holds lang p p.procedures (start p) where
  scheduled := .init lang p
  remaining := .init p.procedures
  apart := List.disjoint_nil_left _
  visits := rfl

/-- A visit passes from the tasks to what has been visited. -/
theorem Holds.visit {site : Site Nat} {tasks : List Task} {visit : Visit}
    (h : Holds lang p pending ⟨done, expanding, .visit site :: rest, visited⟩)
    (scheduled : lang.Scheduled p pending expanding tasks)
    (first : lang.schedule pending expanding (.visit site :: rest) =
      visit :: lang.schedule pending expanding tasks) :
    Holds lang p pending ⟨done, expanding, tasks, visited ++ [visit]⟩ where
  scheduled := scheduled
  remaining := h.remaining
  apart := h.apart
  visits := by rw [← h.visits, first, List.append_assoc, List.singleton_append]

/-- A task that leads to no visit is dropped. -/
theorem Holds.skip {id : String}
    (h : Holds lang p pending ⟨done, expanding, .enter id :: rest, visited⟩)
    (begun : pending.get? id = none) : Holds lang p pending ⟨done, expanding, rest, visited⟩ where
  scheduled := h.scheduled.tail (by simp)
  remaining := h.remaining
  apart := h.apart
  visits := by rw [← h.visits, Language.schedule_skip rest begun]

theorem Holds.enter {id : String} {body : Block Nat}
    (h : Holds lang p pending ⟨done, expanding, .enter id :: rest, visited⟩)
    (found : pending.get? id = some body) (fresh : id ∉ done) :
    Holds lang p (pending.erase id)
      ⟨done, id :: expanding, Task.ofBlock body ++ .leave :: rest, visited⟩ where
  scheduled := h.scheduled.enter found
  remaining := h.remaining.erase id
  apart := List.disjoint_cons_left.mpr ⟨fresh, h.apart⟩
  visits := by rw [← h.visits, Language.schedule_enter rest found]

theorem Holds.leave {id : String} {outer : List String}
    (h : Holds lang p pending ⟨done, id :: outer, .leave :: rest, visited⟩) :
    Holds lang p pending ⟨id :: done, outer, rest, visited⟩ where
  scheduled := h.scheduled.leave
  remaining := h.remaining.congr fun k => by
    simp only [List.mem_append, List.mem_cons]
    tauto
  apart := by
    have hid : id ∉ outer := (List.nodup_cons.mp h.scheduled.distinct).1
    exact List.disjoint_cons_right.mpr ⟨hid, (List.disjoint_cons_left.mp h.apart).2⟩
  visits := by
    rw [← h.visits, Language.schedule_leave]
    rfl

/-- Each step keeps what holds, and fewer steps are left. -/
theorem Holds.next (h : Holds lang p pending s) (more : s.tasks ≠ []) :
    ∃ pending', Holds lang p pending' (s.next lang p.procedures) ∧
      (s.next lang p.procedures).cost pending' < s.cost pending := by
  obtain ⟨done, expanding, tasks, visited⟩ := s
  cases tasks with
  | nil => exact absurd rfl more
  | cons task rest =>
    cases task with
    | visit site =>
      by_cases procedure : lang.isProcedure site.statement.id = true
      · by_cases again : site.statement.id ∈ expanding
        · simp only [Stage.next, if_pos procedure, if_pos again]
          have hnext := h.visit (h.scheduled.tail (by simp))
            (Language.schedule_reentrant rest procedure again)
          exact ⟨pending, hnext, by simp [cost, Task.weight]⟩
        · simp only [Stage.next, if_pos procedure, if_neg again]
          have hnext := h.visit (h.scheduled.call procedure again)
            (Language.schedule_call rest procedure again)
          exact ⟨pending, hnext, by simp [cost, Task.weight]⟩
      · simp only [Stage.next, if_neg procedure]
        have hnext := h.visit (h.scheduled.tail (by simp))
          (Language.schedule_plain rest (Bool.eq_false_iff.mpr procedure))
        exact ⟨pending, hnext, by simp [cost, Task.weight]⟩
    | enter id =>
      have hexpanding : id ∉ expanding := h.scheduled.nested.fresh
      by_cases hdone : id ∈ done
      · simp only [Stage.next, if_pos hdone]
        have begun := h.remaining.get?_of_mem (List.mem_append_right _ hdone)
        exact ⟨pending, h.skip begun, by simp [cost, Task.weight]⟩
      · have fresh : id ∉ expanding ++ done := by
          rw [List.mem_append, not_or]
          exact ⟨hexpanding, hdone⟩
        have same := h.remaining.get?_of_not_mem fresh
        simp only [Stage.next, if_neg hdone]
        cases hbody : p.procedures.get? id with
        | none => exact ⟨pending, h.skip (same.trans hbody), by simp [cost, Task.weight]⟩
        | some body =>
          have found := same.trans hbody
          refine ⟨pending.erase id, h.enter found hdone, ?_⟩
          simp only [cost, Task.totalPending_erase found, Task.total_append, Task.total_cons,
            Task.weight]
          omega
    | leave =>
      cases expanding with
      | nil =>
        -- an end of a body is only to come where a body is being visited
        cases h.scheduled.nested with
        | root hleave => exact absurd List.mem_cons_self hleave
      | cons id outer => exact ⟨pending, h.leave, by simp [Stage.next, cost, Task.weight]⟩

/-- After any number of steps nothing is left to do, or so many fewer steps are left. -/
theorem holds_after (lang : Language) (p : Program) (n : Nat) : ∃ pending,
    Holds lang p pending (after lang p n) ∧ ((after lang p n).tasks = [] ∨
      (after lang p n).cost pending + n ≤ (start p).cost p.procedures) := by
  induction n with
  | zero => exact ⟨p.procedures, holds_start lang p, .inr (Nat.le_refl _)⟩
  | succ n ih =>
    obtain ⟨pending, hn, hcost⟩ := ih
    have hsucc : after lang p (n + 1) = (after lang p n).next lang p.procedures :=
      Function.iterate_succ_apply' ..
    rw [hsucc]
    by_cases more : (after lang p n).tasks = []
    · have hstays : (after lang p n).next lang p.procedures = after lang p n := by
        rw [Stage.next, more]
      rw [hstays]
      exact ⟨pending, hn, .inl more⟩
    · obtain ⟨pending', hnext, hless⟩ := hn.next more
      refine ⟨pending', hnext, .inr ?_⟩
      have := hcost.resolve_left more
      omega

/-- A bound on the steps: two for each statement and two for each procedure. -/
theorem cost_start (p : Program) :
    (start p).cost p.procedures = 2 * p.nodes.length + 2 * p.procedures.size := by
  have hkeys : p.procedures.keys.length = p.procedures.size := List.length_map ..
  have hvalues : p.procedures.values.length = p.procedures.size := List.length_map ..
  rw [cost, Task.totalPending, Task.totalBodies_eq, start, Task.total_append, Task.total_ofBlock,
    Block.length_sites, Task.total_enter, hkeys, hvalues, Program.nodes, Program.blocks,
    List.flatMap_cons, List.length_append]
  omega

/-- The stack never has a procedure twice, has none whose body has been visited, and is no longer
than there are procedures. -/
structure Sound (p : Program) (s : Stage) : Prop where
  distinct : s.expanding.Nodup
  apart : s.expanding.Disjoint s.done
  bounded : s.expanding.length ≤ p.procedures.size

theorem sound_after (lang : Language) (p : Program) (n : Nat) : (after lang p n).Sound p := by
  obtain ⟨pending, h, -⟩ := holds_after lang p n
  have hkeys : (after lang p n).expanding ⊆ p.procedures.keys :=
    fun id hid => (h.scheduled.begun id hid).1
  have hlength := (h.scheduled.distinct.subperm hkeys).length_le
  rw [Table.keys, List.length_map] at hlength
  exact ⟨h.scheduled.distinct, h.apart, hlength⟩

/-- In the end nothing is left to do, no body is being visited, and the visits are those of the
analysis. -/
theorem after_eq (lang : Language) (p : Program) :
    ∃ done, after lang p (2 * p.nodes.length + 2 * p.procedures.size) =
      { done, expanding := [], tasks := [], visited := lang.visitProgram p } := by
  obtain ⟨pending, h, hcost⟩ := holds_after lang p (2 * p.nodes.length + 2 * p.procedures.size)
  generalize after lang p (2 * p.nodes.length + 2 * p.procedures.size) = s at h hcost ⊢
  have htasks : s.tasks = [] := by
    by_contra more
    have hleft := hcost.resolve_left more
    have hpos := Task.total_pos more
    rw [cost_start, cost] at hleft
    omega
  obtain ⟨done, expanding, tasks, visited⟩ := s
  obtain rfl : tasks = [] := htasks
  have hvisits := h.visits
  rw [Language.schedule_nil, List.append_nil] at hvisits
  cases h.scheduled.nested with
  | root => exact ⟨done, by rw [← hvisits]⟩

end Stage

end BlockScript
