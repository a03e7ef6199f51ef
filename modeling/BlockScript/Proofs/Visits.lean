import BlockScript.Analysis.Report

/-! The visits of an analysis: every statement of the root block and of every procedure body is
visited once, whatever calls what. -/

namespace BlockScript

variable {ι : Type}

namespace Statement

mutual

theorem map_statement_sitesBelow (depth : Nat) : (s : Statement ι) →
    s :: (s.sitesBelow depth).map Site.statement = s.nodes
  | simple _ => rfl
  | compound head block => by
    rw [sitesBelow, nodes, map_statement_sitesFrom _ _ _ _ block]

theorem map_statement_sitesFrom (parent : Option (Statement ι)) (depth : Nat)
    (previous : Option (Statement ι)) (index : Nat) : (block : Block ι) →
    (sitesFrom parent depth previous index block).map Site.statement = nodesEach block
  | [] => rfl
  | s :: rest => by
    rw [sitesFrom, nodesEach, ← map_statement_sitesBelow depth s, List.map_cons, List.map_append,
      map_statement_sitesFrom _ _ _ _ rest, List.cons_append]

end

end Statement

theorem Block.map_statement_sites (block : Block ι) (parent : Option (Statement ι)) :
    (block.sites parent).map Site.statement = Statement.nodesEach block :=
  Statement.map_statement_sitesFrom ..

/-- The site that a task visits at once. -/
def Task.site? : Task → Option (Site Nat)
  | visit site => some site
  | enter _ | leave => none

namespace Task

theorem filterMap_site?_ofBlock (block : Block Nat) :
    (ofBlock block).filterMap site? = block.sites := by
  rw [ofBlock, List.filterMap_map]
  exact List.filterMap_some

theorem filterMap_site?_enter (ids : List String) : (ids.map enter).filterMap site? = [] := by
  induction ids with
  | nil => rfl
  | cons id rest ih => exact ih

end Task

/-- All bodies that have not been begun are to be entered at some time. -/
def Task.Covered (pending : Table String (Block Nat)) (tasks : List Task) : Prop :=
  ∀ id ∈ pending.keys, Task.enter id ∈ tasks

namespace Task.Covered

variable {pending : Table String (Block Nat)} {task : Task} {tasks : List Task}

theorem tail (h : Covered pending (task :: tasks)) (other : ∀ id ∈ pending.keys, task ≠ .enter id) :
    Covered pending tasks := by
  intro id hid
  rcases List.mem_cons.mp (h id hid) with same | later
  · exact absurd same.symm (other id hid)
  · exact later

theorem enter {id : String} (h : Covered pending (.enter id :: tasks)) (more : List Task) :
    Covered (pending.erase id) (more ++ tasks) := by
  intro k hk
  obtain ⟨hk, hne⟩ := Table.mem_keys_erase.mp hk
  rcases List.mem_cons.mp (h k hk) with same | later
  · exact absurd (Task.enter.inj same) hne
  · exact List.mem_append_right _ later

end Task.Covered

namespace Language

variable (lang : Language)

/-- The sites of the visits are those of the tasks and those of the bodies that are to be
entered. -/
theorem map_site_schedule (pending : Table String (Block Nat)) (active : List String)
    (tasks : List Task) (covered : Task.Covered pending tasks) :
    ((lang.schedule pending active tasks).map Visit.site).Perm
      (tasks.filterMap Task.site? ++ pending.values.flatMap fun body => body.sites) := by
  fun_induction schedule lang pending active tasks with
  | case1 pending active =>
    have hvalues : pending.values = [] := by
      rw [Table.values, List.map_eq_nil_iff, ← List.map_eq_nil_iff (f := Prod.fst)]
      refine List.eq_nil_iff_forall_not_mem.mpr fun id hid => ?_
      cases covered id hid
    rw [hvalues]
    exact .refl _
  | case2 pending active site rest id _ _ ih | case4 pending active site rest id _ ih =>
    exact (ih (covered.tail (by simp))).cons site
  | case3 pending active site rest id _ _ ih =>
    refine (ih fun k hk => ?_).cons site
    exact List.mem_cons_of_mem _ (covered.tail (by simp) k hk)
  | case5 pending active id rest body found ih =>
    refine (ih ?_).trans ?_
    · rw [List.append_cons]
      exact covered.enter (Task.ofBlock body ++ [.leave])
    · -- the sites of the body go over from the bodies to the tasks
      have hbodies := (Table.values_perm_erase found).flatMap_right fun body => body.sites
      rw [List.filterMap_append, Task.filterMap_site?_ofBlock, List.append_assoc]
      refine .trans ?_ (hbodies.symm.append_left _)
      rw [List.flatMap_cons]
      exact List.perm_append_comm_assoc ..
  | case6 pending active id rest found ih =>
    have habsent : id ∉ pending.keys := Table.get?_eq_none_iff.mp found
    refine ih (covered.tail fun k hk same => habsent ?_)
    rwa [Task.enter.inj same]
  | case7 pending active rest ih => exact ih (covered.tail (by simp))

/-- Every statement of the root block and of every procedure body is visited once. -/
theorem map_site_visitProgram (p : Program) :
    ((lang.visitProgram p).map Visit.site).Perm (p.blocks.flatMap fun block => block.sites) := by
  have covered : Task.Covered p.procedures (Task.ofBlock p.block ++ p.procedures.keys.map .enter) :=
    fun id hid => List.mem_append_right _ (List.mem_map_of_mem hid)
  have h := lang.map_site_schedule p.procedures [] _ covered
  rwa [List.filterMap_append, Task.filterMap_site?_ofBlock, Task.filterMap_site?_enter,
    List.append_nil] at h

theorem map_statement_visitProgram (p : Program) :
    ((lang.visitProgram p).map fun visit => visit.site.statement).Perm p.nodes := by
  have h := (lang.map_site_visitProgram p).map Site.statement
  rw [List.map_map, List.map_flatMap] at h
  simp only [Block.map_statement_sites] at h
  exact h

end Language

end BlockScript
