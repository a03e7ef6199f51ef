import BlockScript.Proofs.Visits
import Mathlib.Data.List.Nodup
import Mathlib.Data.List.Pairwise

/-! The call graph of a program, and how the tasks of an analysis lie in it. The bodies that are
being visited form a chain of calls, and between two ends of bodies stand tasks of one body only; so
a call that is found to be reentrant closes a cycle. -/

namespace BlockScript

namespace Program

variable (p : Program) (lang : Language)

/-- The statement stands in the body of a procedure, at any depth. -/
def Owns (caller : String) (s : Statement Nat) : Prop :=
  ∃ body, p.procedures.get? caller = some body ∧ s ∈ Statement.nodesEach body

/-- A statement in the body of `caller` calls the procedure `callee` of the header. -/
structure Calls (caller : String) (s : Statement Nat) (callee : String) : Prop where
  owns : p.Owns caller s
  id : s.id = callee
  known : callee ∈ p.procedures.keys
  procedure : lang.isProcedure callee = true

/-- The statements call along a path of procedures. -/
inductive CallPath : String → List (Statement Nat) → String → Prop
  | nil (id : String) : CallPath id [] id
  | cons {caller next callee : String} {s : Statement Nat} {path : List (Statement Nat)} :
      p.Calls lang caller s next → CallPath next path callee → CallPath caller (s :: path) callee

variable {p lang}

theorem CallPath.append {first second third : String} {path more : List (Statement Nat)}
    (h : p.CallPath lang first path second) (h' : p.CallPath lang second more third) :
    p.CallPath lang first (path ++ more) third := by
  induction h with
  | nil => exact h'
  | cons call _ ih => exact .cons call (ih h')

/-- A path of calls that go down in rank is no longer than the rank falls. -/
theorem CallPath.add_length_le {rank : String → Nat} {silent : Statement Nat → Prop}
    (falls : ∀ caller s callee, p.Calls lang caller s callee → silent s → rank callee < rank caller)
    {caller callee : String} {path : List (Statement Nat)} (h : p.CallPath lang caller path callee)
    (hs : ∀ s ∈ path, silent s) : rank callee + path.length ≤ rank caller := by
  induction h with
  | nil => exact Nat.le_refl _
  | cons call _ ih =>
    rw [List.forall_mem_cons] at hs
    have hrest := ih hs.2
    have hfirst := falls _ _ _ call hs.1
    rw [List.length_cons]
    omega

theorem mem_nodes_of_owns {caller : String} {s : Statement Nat} (h : p.Owns caller s) :
    s ∈ p.nodes := by
  obtain ⟨body, hbody, hs⟩ := h
  have hvalue : body ∈ p.procedures.values := Table.mem_values_of_get? hbody
  exact List.mem_flatMap.mpr ⟨body, List.mem_cons_of_mem _ hvalue, hs⟩

/-- With distinct tags, a statement stands in one body only. -/
theorem owns_unique (distinct : (p.nodes.map Statement.tag).Nodup) {a b : String}
    {s : Statement Nat} (ha : p.Owns a s) (hb : p.Owns b s) : a = b := by
  obtain ⟨body, hbody, hs⟩ := ha
  obtain ⟨body', hbody', hs'⟩ := hb
  have hnodes : (p.procedures.values.flatMap Statement.nodesEach).Nodup := by
    have := List.Nodup.of_map _ distinct
    rw [nodes, blocks, List.flatMap_cons] at this
    exact (List.nodup_append.mp this).2.1
  rw [Table.values, List.flatMap_map] at hnodes
  have hapart := (List.nodup_flatMap.mp hnodes).2
  have : Std.Symm (Function.onFun List.Disjoint
      fun entry : String × Block Nat => Statement.nodesEach entry.2) :=
    ⟨fun _ _ h _ ha hb => h hb ha⟩
  by_contra hne
  have hentries : (a, body) ≠ (b, body') := fun e => hne (Prod.mk.inj e).1
  exact hapart.forall (Entries.mem_of_lookup hbody) (Entries.mem_of_lookup hbody') hentries hs hs'

/-- With distinct tags, a statement of the root block stands in no body. -/
theorem not_owns_of_mem_block (distinct : (p.nodes.map Statement.tag).Nodup) {caller : String}
    {s : Statement Nat} (h : s ∈ Statement.nodesEach p.block) : ¬p.Owns caller s := by
  rintro ⟨body, hbody, hs⟩
  have hnodes := List.Nodup.of_map _ distinct
  rw [nodes, blocks, List.flatMap_cons] at hnodes
  have hvalue : body ∈ p.procedures.values := Table.mem_values_of_get? hbody
  exact (List.nodup_append.mp hnodes).2.2 s h s (List.mem_flatMap.mpr ⟨body, hvalue, hs⟩) rfl

end Program

/-! ### Tasks in the call graph -/

/-- The tasks up to the first end of a body belong to the body of the innermost active procedure,
and so on outwards; at the outside stand tasks of the root block. An active procedure is called by
the next outer one. -/
inductive Task.Nested (lang : Language) (p : Program) : List String → List Task → Prop
  | root {tasks : List Task} : Task.leave ∉ tasks →
      (∀ site, Task.visit site ∈ tasks → site.statement ∈ Statement.nodesEach p.block) →
      Nested lang p [] tasks
  | leave {id : String} {outer : List String} {tasks : List Task} :
      (∀ caller ∈ outer.head?, ∃ s, p.Calls lang caller s id) → Nested lang p outer tasks →
      Nested lang p (id :: outer) (.leave :: tasks)
  | visit {id : String} {outer : List String} {site : Site Nat} {tasks : List Task} :
      p.Owns id site.statement → Nested lang p (id :: outer) tasks →
      Nested lang p (id :: outer) (.visit site :: tasks)
  | enter {id callee : String} {outer : List String} {s : Statement Nat} {tasks : List Task} :
      callee ∉ id :: outer → p.Owns id s → s.id = callee → lang.isProcedure callee = true →
      Nested lang p (id :: outer) tasks → Nested lang p (id :: outer) (.enter callee :: tasks)

namespace Task.Nested

variable {lang : Language} {p : Program} {id callee : String} {outer active : List String}
  {site : Site Nat} {tasks : List Task}

/-- The innermost active procedure is reached from all active ones. -/
theorem exists_path (h : Nested lang p active tasks) {inner : String}
    (hinner : inner ∈ active.head?) : ∀ k ∈ active, ∃ path, p.CallPath lang k path inner := by
  induction h generalizing inner with
  | root => cases hinner
  | @leave id outer tasks calls _ ih =>
    obtain rfl := Option.some.inj hinner
    intro k hk
    rcases List.mem_cons.mp hk with rfl | outside
    · exact ⟨[], .nil k⟩
    · cases outer with
      | nil => cases outside
      | cons caller rest =>
        obtain ⟨path, hpath⟩ := ih rfl k outside
        obtain ⟨s, hs⟩ := calls caller rfl
        exact ⟨path ++ [s], hpath.append (.cons hs (.nil _))⟩
  | visit _ _ ih | enter _ _ _ _ _ ih => exact ih hinner

theorem tail {task : Task} (h : Nested lang p active (task :: tasks)) (inside : task ≠ .leave) :
    Nested lang p active tasks := by
  cases h with
  | root hleave hsites =>
    refine .root (fun hm => ?_) fun s hm => ?_
    · exact hleave (List.mem_cons_of_mem _ hm)
    · exact hsites s (List.mem_cons_of_mem _ hm)
  | leave => exact absurd rfl inside
  | visit _ hrest | enter _ _ _ _ hrest => exact hrest

theorem append_sites {sites : List (Site Nat)} (h : Nested lang p (id :: outer) tasks)
    (owned : ∀ site ∈ sites, p.Owns id site.statement) :
    Nested lang p (id :: outer) (sites.map .visit ++ tasks) := by
  induction sites with
  | nil => exact h
  | cons site rest ih =>
    rw [List.forall_mem_cons] at owned
    exact .visit owned.1 (ih owned.2)

end Task.Nested

/-- What holds whenever an analysis goes on to its next task: procedures that have not been begun
have the bodies of the program, and active ones are procedures of the program that have been
begun. -/
structure Language.Scheduled (lang : Language) (p : Program) (pending : Table String (Block Nat))
    (active : List String) (tasks : List Task) : Prop where
  nested : Task.Nested lang p active tasks
  bodies : ∀ id body, pending.get? id = some body → p.procedures.get? id = some body
  distinct : active.Nodup
  begun : ∀ id ∈ active, id ∈ p.procedures.keys ∧ id ∉ pending.keys

namespace Language.Scheduled

variable {lang : Language} {p : Program} {pending : Table String (Block Nat)}
  {active : List String} {site : Site Nat} {rest : List Task} {id : String} {body : Block Nat}

theorem init (lang : Language) (p : Program) : lang.Scheduled p p.procedures []
    (Task.ofBlock p.block ++ p.procedures.keys.map .enter) where
  nested := by
    refine .root ?_ fun site hm => ?_
    · simp [Task.ofBlock]
    · rw [← Block.map_statement_sites p.block none]
      simp only [Task.ofBlock, List.mem_append, List.mem_map, Task.visit.injEq, exists_eq_right,
        reduceCtorEq, and_false, exists_false, or_false] at hm
      exact List.mem_map_of_mem hm
  bodies _ _ h := h
  distinct := .nil
  begun := List.forall_mem_nil _

theorem tail {task : Task} (h : lang.Scheduled p pending active (task :: rest))
    (inside : task ≠ .leave) : lang.Scheduled p pending active rest :=
  { h with nested := h.nested.tail inside }

/-- After a call that is not reentrant, the called procedure is entered. -/
theorem call (h : lang.Scheduled p pending active (.visit site :: rest))
    (procedure : lang.isProcedure site.statement.id = true) (fresh : site.statement.id ∉ active) :
    lang.Scheduled p pending active (.enter site.statement.id :: rest) where
  nested := by
    cases h.nested with
    | root hleave hsites =>
      refine .root (fun hm => ?_) fun s hm => ?_
      · exact hleave (List.mem_cons_of_mem _ ((List.mem_cons.mp hm).resolve_left (by simp)))
      · exact hsites s (List.mem_cons_of_mem _ ((List.mem_cons.mp hm).resolve_left (by simp)))
    | visit howns hrest => exact .enter fresh howns rfl procedure hrest
  bodies := h.bodies
  distinct := h.distinct
  begun := h.begun

theorem enter (h : lang.Scheduled p pending active (.enter id :: rest))
    (found : pending.get? id = some body) : lang.Scheduled p (pending.erase id) (id :: active)
      (Task.ofBlock body ++ .leave :: rest) where
  nested := by
    have hbody := h.bodies id body found
    have hid : id ∈ p.procedures.keys := Table.mem_keys_of_get? hbody
    refine .append_sites ?_ fun site hm => ⟨body, hbody, ?_⟩
    · cases h.nested with
      | root hleave hsites =>
        -- entered from the root block, or because the analysis has not come to it otherwise
        refine .leave (by simp) (.root (fun hm => ?_) fun s hm => ?_)
        · exact hleave (List.mem_cons_of_mem _ hm)
        · exact hsites s (List.mem_cons_of_mem _ hm)
      | enter _ howns hs procedure hrest =>
        refine .leave (fun caller hcaller => ?_) hrest
        obtain rfl := Option.some.inj hcaller
        exact ⟨_, howns, hs, hid, procedure⟩
    · rw [← Block.map_statement_sites body none]
      exact List.mem_map_of_mem hm
  bodies k b hk := h.bodies k b (Table.get?_of_get?_erase hk)
  distinct := by
    refine List.nodup_cons.mpr ⟨fun hm => (h.begun id hm).2 ?_, h.distinct⟩
    exact Table.mem_keys_of_get? found
  begun k hk := by
    rw [Table.mem_keys_erase]
    rcases List.mem_cons.mp hk with rfl | outside
    · have hbody := h.bodies k body found
      exact ⟨Table.mem_keys_of_get? hbody, fun hm => hm.2 rfl⟩
    · exact ⟨(h.begun k outside).1, fun hm => (h.begun k outside).2 hm.1⟩

theorem leave (h : lang.Scheduled p pending active (.leave :: rest)) :
    lang.Scheduled p pending active.tail rest := by
  cases h.nested with
  | root hleave => exact absurd List.mem_cons_self hleave
  | leave _ hrest =>
    exact ⟨hrest, h.bodies, (List.nodup_cons.mp h.distinct).2,
      fun k hk => h.begun k (List.mem_cons_of_mem _ hk)⟩

/-- A call that is found to be reentrant closes a cycle of calls. -/
theorem exists_cycle {tasks : List Task} (h : lang.Scheduled p pending active tasks)
    {visit : Visit} (hvisit : visit ∈ lang.schedule pending active tasks)
    (reentrant : visit.reentrant = true) :
    ∃ caller path, p.Calls lang caller visit.site.statement visit.site.statement.id ∧
      p.CallPath lang visit.site.statement.id path caller := by
  fun_induction schedule lang pending active tasks with
  | case1 => cases hvisit
  | case2 pending active site rest id procedure again ih =>
    rcases List.mem_cons.mp hvisit with rfl | later
    · have hactive : id ∈ active := List.contains_iff_mem.mp again
      cases hn : h.nested with
      | root => cases hactive
      | @visit caller outer _ _ howns _ =>
        obtain ⟨path, hpath⟩ := h.nested.exists_path rfl id hactive
        exact ⟨caller, path, ⟨howns, rfl, (h.begun id hactive).1, procedure⟩, hpath⟩
    · exact ih (h.tail (by simp)) later
  | case3 pending active site rest id procedure fresh ih =>
    rcases List.mem_cons.mp hvisit with rfl | later
    · cases reentrant
    · exact ih (h.call procedure fun hm => fresh (List.contains_iff_mem.mpr hm)) later
  | case4 pending active site rest id other ih =>
    rcases List.mem_cons.mp hvisit with rfl | later
    · cases reentrant
    · exact ih (h.tail (by simp)) later
  | case5 pending active id rest body found ih => exact ih (h.enter found) hvisit
  | case6 pending active id rest found ih => exact ih (h.tail (by simp)) hvisit
  | case7 pending active rest ih => exact ih h.leave hvisit

end Language.Scheduled

end BlockScript
