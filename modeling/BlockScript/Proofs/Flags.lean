import BlockScript.Proofs.Visits

/-! Flags are written by an analysis and never read by one. Flagging commutes with everything that
an analysis looks at, so a program has the same analysis whatever its flags; and once it is marked
with its analysis, exactly the statements with errors are flagged. -/

namespace BlockScript

variable {ι : Type} (invalid : ι → Bool)

/-! ### Statements -/

def Head.flag (head : Head ι) : Head ι := { head with invalid := invalid head.tag }

namespace Statement

mutual

/-- The statement with exactly those of its nodes flagged whose tag satisfies `invalid`. -/
def mark : Statement ι → Statement ι
  | simple head => simple (head.flag invalid)
  | compound head block => compound (head.flag invalid) (markEach block)

def markEach : List (Statement ι) → List (Statement ι)
  | [] => []
  | s :: rest => s.mark :: markEach rest

end

variable (s : Statement ι) (block : Block ι)

@[simp] theorem id_mark : (s.mark invalid).id = s.id := by cases s <;> rfl

@[simp] theorem tag_mark : (s.mark invalid).tag = s.tag := by cases s <;> rfl

@[simp] theorem arguments_mark : (s.mark invalid).arguments = s.arguments := by cases s <;> rfl

@[simp] theorem invalid_mark : (s.mark invalid).head.invalid = invalid s.tag := by cases s <;> rfl

mutual

theorem traverse_flag (depth : Nat) : (s : Statement ι) →
    traverse (m := Id) (fun _ head => pure (head.flag invalid)) depth s = pure (s.mark invalid)
  | simple head => by simp [traverse, mark]
  | compound head block => by simp [traverse, mark, traverseEach_flag (depth + 1) block]

theorem traverseEach_flag (depth : Nat) : (block : Block ι) →
    traverseEach (m := Id) (fun _ head => pure (head.flag invalid)) depth block =
      pure (markEach invalid block)
  | [] => by simp [traverseEach, markEach]
  | s :: rest => by
    simp [traverseEach, markEach, traverse_flag depth s, traverseEach_flag depth rest]

end

mutual

theorem nodes_mark : (s : Statement ι) → (s.mark invalid).nodes = s.nodes.map (mark invalid)
  | simple head => rfl
  | compound head block => by
    rw [nodes, List.map_cons, mark, nodes, nodesEach_markEach block]

theorem nodesEach_markEach : (block : Block ι) →
    nodesEach (markEach invalid block) = (nodesEach block).map (mark invalid)
  | [] => rfl
  | s :: rest => by
    rw [markEach, nodesEach, nodesEach, List.map_append, nodes_mark s, nodesEach_markEach rest]

end

end Statement

theorem Block.mark_eq_markEach (block : Block ι) :
    Block.mark invalid block = Statement.markEach invalid block :=
  Statement.traverseEach_flag invalid 0 block

/-! ### Sites and visits -/

def Site.mark (site : Site ι) : Site ι where
  statement := site.statement.mark invalid
  parent := site.parent.map (Statement.mark invalid)
  previous := site.previous.map (Statement.mark invalid)
  index := site.index
  depth := site.depth

namespace Statement

mutual

theorem sitesBelow_mark (depth : Nat) : (s : Statement ι) →
    (s.mark invalid).sitesBelow depth = (s.sitesBelow depth).map (Site.mark invalid)
  | simple _ => rfl
  | compound head block => by
    rw [mark, sitesBelow, sitesBelow, ← sitesFrom_markEach _ _ _ _ block]
    rfl

theorem sitesFrom_markEach (parent : Option (Statement ι)) (depth : Nat)
    (previous : Option (Statement ι)) (index : Nat) : (block : Block ι) →
    sitesFrom (parent.map (mark invalid)) depth (previous.map (mark invalid)) index
        (markEach invalid block) =
      (sitesFrom parent depth previous index block).map (Site.mark invalid)
  | [] => rfl
  | s :: rest => by
    rw [markEach, sitesFrom, sitesFrom, List.map_cons, List.map_append, sitesBelow_mark depth s,
      ← sitesFrom_markEach parent depth (some s) (index + 1) rest]
    rfl

end

end Statement

theorem Block.sites_markEach (block : Block ι) :
    Block.sites (Statement.markEach invalid block) = block.sites.map (Site.mark invalid) :=
  Statement.sitesFrom_markEach invalid none 0 none 0 block

/-- No rule looks at a flag. -/
theorem Language.checkSite_mark (lang : Language) (site : Site ι) :
    lang.checkSite (site.mark invalid) = lang.checkSite site := by
  have hparent : (site.parent.map (Statement.mark invalid)).map Statement.id =
      site.parent.map Statement.id := by
    rw [Option.map_map]
    exact Option.map_congr fun s _ => s.id_mark invalid
  have hprevious : (site.previous.map (Statement.mark invalid)).map Statement.id =
      site.previous.map Statement.id := by
    rw [Option.map_map]
    exact Option.map_congr fun s _ => s.id_mark invalid
  simp only [checkSite, Site.mark, hparent, hprevious, Statement.id_mark, Statement.arguments_mark]

namespace Table

variable {κ α β : Type} (f : κ → α → β) (t : Table κ α)

@[simp] theorem keys_mapValues : (t.mapValues f).keys = t.keys := by
  simp [keys, mapValues, Function.comp_def]

theorem values_mapValues (g : α → β) : (t.mapValues fun _ => g).values = t.values.map g := by
  simp [values, mapValues, Function.comp_def]

variable [DecidableEq κ]

theorem get?_mapValues (key : κ) : (t.mapValues f).get? key = (t.get? key).map (f key) := by
  show (t.entries.map fun entry => (entry.1, f entry.1 entry.2)).lookup key =
    (t.entries.lookup key).map (f key)
  induction t.entries with
  | nil => rfl
  | cons entry rest ih =>
    obtain ⟨k, v⟩ := entry
    rw [List.map_cons, List.lookup_cons, List.lookup_cons, ih]
    by_cases hk : key = k
    · simp [hk]
    · simp [beq_false_of_ne hk]

theorem erase_mapValues (key : κ) : (t.mapValues f).erase key = (t.erase key).mapValues f := by
  apply ext
  simp only [erase, mapValues, List.filter_map, Function.comp_def]

end Table

section

variable (invalid : Nat → Bool)

/-- The bodies of procedures with their statements flagged. -/
def markBodies (procedures : Table String (Block Nat)) : Table String (Block Nat) :=
  procedures.mapValues fun _ => Statement.markEach invalid

def Task.mark : Task → Task
  | visit site => visit (site.mark invalid)
  | enter id => enter id
  | leave => leave

def Visit.mark (visit : Visit) : Visit := { visit with site := visit.site.mark invalid }

theorem Task.ofBlock_markEach (block : Block Nat) :
    ofBlock (Statement.markEach invalid block) = (ofBlock block).map (Task.mark invalid) := by
  rw [ofBlock, ofBlock, Block.sites_markEach, List.map_map, List.map_map]
  rfl

namespace Language

variable (lang : Language)

theorem schedule_mark (pending : Table String (Block Nat)) (active : List String)
    (tasks : List Task) :
    lang.schedule (markBodies invalid pending) active (tasks.map (Task.mark invalid)) =
      (lang.schedule pending active tasks).map (Visit.mark invalid) := by
  fun_induction schedule lang pending active tasks with
  | case1 => exact schedule_nil ..
  | case2 pending active site rest id procedure again ih =>
    have hid : (site.mark invalid).statement.id = id := site.statement.id_mark invalid
    rw [List.map_cons, List.map_cons, ← ih, Task.mark,
      schedule_reentrant _ (by rwa [hid]) (by rw [hid]; exact List.contains_iff_mem.mp again)]
    rfl
  | case3 pending active site rest id procedure fresh ih =>
    have hid : (site.mark invalid).statement.id = id := site.statement.id_mark invalid
    rw [List.map_cons, List.map_cons, ← ih, Task.mark, schedule_call _ (by rwa [hid])
      (by rw [hid]; exact fun hm => fresh (List.contains_iff_mem.mpr hm)), hid]
    rfl
  | case4 pending active site rest id other ih =>
    have hid : (site.mark invalid).statement.id = id := site.statement.id_mark invalid
    rw [List.map_cons, List.map_cons, ← ih, Task.mark,
      schedule_plain _ (by rw [hid]; exact Bool.eq_false_iff.mpr other)]
    rfl
  | case5 pending active id rest body found ih =>
    have hfound : (markBodies invalid pending).get? id =
        some (Statement.markEach invalid body) := by
      rw [markBodies, Table.get?_mapValues, found]
      rfl
    rw [List.map_cons, Task.mark, schedule_enter _ hfound, markBodies, Table.erase_mapValues,
      Task.ofBlock_markEach, ← ih, List.map_append, List.map_cons]
    rfl
  | case6 pending active id rest begun ih =>
    have hbegun : (markBodies invalid pending).get? id = none := by
      rw [markBodies, Table.get?_mapValues, begun]
      rfl
    rw [List.map_cons, Task.mark, schedule_skip _ hbegun, ih]
  | case7 pending active rest ih => rw [List.map_cons, Task.mark, schedule_leave, ih]

theorem checkVisit_mark (visit : Visit) :
    lang.checkVisit (visit.mark invalid) = lang.checkVisit visit := by
  have hid : (visit.mark invalid).site.statement.id = visit.site.statement.id :=
    Statement.id_mark ..
  have hsite : lang.checkSite (visit.mark invalid).site = lang.checkSite visit.site :=
    lang.checkSite_mark ..
  rw [checkVisit, hsite, hid]
  rfl

theorem findings_mark (visits : List Visit) :
    lang.findings (visits.map (Visit.mark invalid)) = lang.findings visits := by
  rw [findings, findings, List.flatMap_map]
  congr 1
  funext visit
  have htag : (visit.mark invalid).site.statement.tag = visit.site.statement.tag :=
    Statement.tag_mark ..
  rw [checkVisit_mark, htag]

end Language

end

/-! ### Programs -/

namespace Program

variable (p : Program) (a : Analysis)

theorem procedures_mark : (p.mark a).procedures = markBodies a.errors.contains p.procedures := by
  simp only [mark, markBodies, Block.mark_eq_markEach]

theorem nodes_mark : (p.mark a).nodes = p.nodes.map (Statement.mark a.errors.contains) := by
  have hbodies : (p.mark a).procedures.values =
      p.procedures.values.map (Statement.markEach a.errors.contains) := by
    rw [procedures_mark, markBodies, Table.values_mapValues]
  rw [nodes, blocks, hbodies, nodes, blocks, mark, Block.mark_eq_markEach]
  simp only [List.flatMap_cons, List.map_append, List.flatMap_map, List.map_flatMap,
    Statement.nodesEach_markEach]

theorem map_tag_nodes_mark : (p.mark a).nodes.map Statement.tag = p.nodes.map Statement.tag := by
  rw [nodes_mark, List.map_map]
  exact List.map_congr_left fun s _ => s.tag_mark _

/-- Exactly the statements are flagged that have errors. -/
def Flagged (p : Program) (a : Analysis) : Prop :=
  ∀ s ∈ p.nodes, s.head.invalid = true ↔ s.tag ∈ a.errors.keys

theorem flagged_mark : (p.mark a).Flagged a := by
  intro s hs
  rw [nodes_mark] at hs
  obtain ⟨old, -, rfl⟩ := List.mem_map.mp hs
  rw [Statement.invalid_mark, Statement.tag_mark, Table.contains_iff]

theorem dangling_mark : (p.mark a).dangling = p.dangling := by
  rw [dangling, dangling, map_tag_nodes_mark]
  rfl

end Program

theorem Language.visitProgram_mark (lang : Language) (p : Program) (a : Analysis) :
    lang.visitProgram (p.mark a) =
      (lang.visitProgram p).map (Visit.mark a.errors.contains) := by
  have htasks : Task.ofBlock (p.mark a).block ++ (p.mark a).procedures.keys.map Task.enter =
      (Task.ofBlock p.block ++ p.procedures.keys.map Task.enter).map
        (Task.mark a.errors.contains) := by
    rw [Program.procedures_mark, markBodies, Table.keys_mapValues, List.map_append, List.map_map,
      ← Task.ofBlock_markEach, Program.mark, Block.mark_eq_markEach]
    rfl
  rw [visitProgram, htasks, Program.procedures_mark, schedule_mark]
  rfl

/-- The analysis of a program does not depend on its flags. -/
theorem Language.analyze_mark (lang : Language) (p : Program) (a : Analysis) :
    lang.analyze (p.mark a) = lang.analyze p := by
  rw [analyze, visitProgram_mark, findings_mark, Program.dangling_mark]
  rfl

/-! ### Analyzing again -/

namespace Statement

variable (other : ι → Bool)

mutual

/-- Flags that are written replace those that were there. -/
theorem mark_mark : (s : Statement ι) → (s.mark other).mark invalid = s.mark invalid
  | simple _ => rfl
  | compound _ block => by
    rw [mark, mark, mark, markEach_markEach block]
    rfl

theorem markEach_markEach : (block : Block ι) →
    markEach invalid (markEach other block) = markEach invalid block
  | [] => rfl
  | s :: rest => by rw [markEach, markEach, markEach, mark_mark s, markEach_markEach rest]

end

mutual

/-- Marking a statement that is marked already changes nothing. -/
theorem mark_of_flagged : (s : Statement ι) →
    (∀ node ∈ s.nodes, node.head.invalid = invalid node.tag) → s.mark invalid = s
  | simple head, h => by
    have hhead : head.invalid = invalid head.tag := h _ List.mem_cons_self
    rw [mark, Head.flag, ← hhead]
  | compound head block, h => by
    rw [nodes, List.forall_mem_cons] at h
    have hhead : head.invalid = invalid head.tag := h.1
    rw [mark, Head.flag, ← hhead, markEach_of_flagged block h.2]

theorem markEach_of_flagged : (block : Block ι) →
    (∀ node ∈ nodesEach block, node.head.invalid = invalid node.tag) →
      markEach invalid block = block
  | [], _ => rfl
  | s :: rest, h => by
    rw [nodesEach, List.forall_mem_append] at h
    rw [markEach, mark_of_flagged s h.1, markEach_of_flagged rest h.2]

end

end Statement

namespace Program

variable {p q : Program} {a : Analysis}

/-- The program with no statement flagged. -/
def unflagged (p : Program) : Program :=
  { p with
    block := Statement.markEach (fun _ => false) p.block
    procedures := markBodies (fun _ => false) p.procedures }

theorem mark_eq (p : Program) (a : Analysis) : p.mark a =
    { p with
      block := Statement.markEach a.errors.contains p.block
      procedures := markBodies a.errors.contains p.procedures } := by
  simp only [mark, markBodies, Block.mark_eq_markEach]

theorem unflagged_eq (p : Program) : p.unflagged = p.mark {} := (p.mark_eq {}).symm

theorem mark_mark (p : Program) (a b : Analysis) : (p.mark a).mark b = p.mark b := by
  have hbodies : markBodies b.errors.contains (markBodies a.errors.contains p.procedures) =
      markBodies b.errors.contains p.procedures := by
    apply Table.ext
    simp only [markBodies, Table.mapValues, List.map_map, Function.comp_def,
      Statement.markEach_markEach]
  rw [mark_eq, mark_eq, mark_eq]
  simp only [Statement.markEach_markEach, hbodies]

theorem mark_of_flagged (h : p.Flagged a) : p.mark a = p := by
  have hflags : ∀ node ∈ p.nodes, node.head.invalid = a.errors.contains node.tag := by
    intro node hm
    rw [Bool.eq_iff_iff, h node hm, Table.contains_iff]
  have hblocks : ∀ block ∈ p.blocks, Statement.markEach a.errors.contains block = block :=
    fun block hm => Statement.markEach_of_flagged _ block fun node hnode =>
      hflags node (List.mem_flatMap.mpr ⟨block, hm, hnode⟩)
  have hbodies : markBodies a.errors.contains p.procedures = p.procedures := by
    apply Table.ext
    calc (markBodies a.errors.contains p.procedures).entries
        = p.procedures.entries.map id := List.map_congr_left fun entry hm => Prod.ext rfl
          (hblocks _ (List.mem_cons_of_mem _ (List.mem_map_of_mem hm)))
      _ = p.procedures.entries := List.map_id _
  rw [mark_eq, hbodies, hblocks p.block List.mem_cons_self]

/-- Programs that differ in their flags alone become the same by marking. -/
theorem mark_congr (h : q.unflagged = p.unflagged) (a : Analysis) : q.mark a = p.mark a := by
  rw [← q.mark_mark {} a, ← p.mark_mark {} a, ← unflagged_eq, ← unflagged_eq, h]

end Program

/-- An analysis changes nothing in a program but the flags: afterwards they stand exactly on the
statements with errors, in the root block and in every body, and there is one such program only.
Programs that differ in their flags alone have the same analysis, so the analysis of the marked
program is the same once more, and marks nothing anew. -/
theorem Language.analyze_annotates (lang : Language) (p : Program) :
    let a := lang.analyze p
    let marked := p.mark a
    marked.unflagged = p.unflagged ∧ marked.Flagged a ∧
    (∀ q : Program, q.unflagged = p.unflagged → lang.analyze q = a ∧ q.mark a = marked ∧
      (q.Flagged a → q = marked)) ∧
    lang.analyze marked = a ∧ marked.mark (lang.analyze marked) = marked := by
  intro a marked
  have hunflagged : marked.unflagged = p.unflagged := by
    rw [Program.unflagged_eq, Program.mark_mark, Program.unflagged_eq]
  have hagain : lang.analyze marked = a := lang.analyze_mark p a
  refine ⟨hunflagged, p.flagged_mark a, fun q hq => ⟨?_, Program.mark_congr hq a, ?_⟩, hagain, ?_⟩
  · calc lang.analyze q
        = lang.analyze q.unflagged := by rw [q.unflagged_eq, lang.analyze_mark]
      _ = lang.analyze p.unflagged := by rw [hq]
      _ = a := by rw [p.unflagged_eq, lang.analyze_mark]
  · intro hflagged
    rw [← Program.mark_of_flagged hflagged]
    exact Program.mark_congr hq a
  · rw [hagain]
    exact p.mark_mark a a

/-- A tag stands twice and a procedure calls itself. Whatever flags were left, the same three
statements are flagged, one of them only because of its tag. -/
theorem Language.analyze_annotates_stale :
    let lang := (build []).offerProcedure "p"
    let node (id : String) (tag : Nat) (invalid : Bool) : Statement Nat :=
      .simple { id, tag, invalid }
    let program (invalid : Bool) : Program :=
      { procedures := ⟨[("p", [node "p" 1 invalid])], by simp⟩
        block := [node "nope" 0 invalid, node "if" 0 (!invalid)] }
    let a := lang.analyze (program true)
    (program false).unflagged = (program true).unflagged ∧ a.errors.keys = [0, 1] ∧
      lang.analyze (program false) = a ∧ (program false).mark a = (program true).mark a ∧
      ((program true).mark a).nodes.map (·.head.invalid) = [true, true, true] := by
  intro lang node program a
  have hsame : (program false).unflagged = (program true).unflagged := rfl
  obtain ⟨-, -, h, -, -⟩ := lang.analyze_annotates (program true)
  obtain ⟨hanalysis, hmark, -⟩ := h _ hsame
  exact ⟨hsame, by decide +kernel, hanalysis, hmark, by decide +kernel⟩

end BlockScript
