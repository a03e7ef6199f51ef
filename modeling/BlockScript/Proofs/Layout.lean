import BlockScript.Proofs.Replaced
import Mathlib.Data.List.Nodup
import Mathlib.Data.List.Perm.Basic

/-! The layout of a program: all its blocks, each with its address and its direct children. With
distinct tags a block is found under its address, and an edit of one block concerns the entry of
that block and the entries of the blocks inside it, and no others. -/

namespace BlockScript

variable {ι : Type}

namespace Statement

/-- The statement with nothing in its block. -/
def bare (s : Statement ι) : Statement ι := s.mapBlock fun _ => []

theorem nodesEach_eq_flatMap (block : Block ι) : nodesEach block = block.flatMap nodes := by
  induction block with
  | nil => rfl
  | cons s rest ih => rw [nodesEach, ih, List.flatMap_cons]

theorem nodesEach_append (as bs : Block ι) :
    nodesEach (as ++ bs) = nodesEach as ++ nodesEach bs := by
  simp only [nodesEach_eq_flatMap, List.flatMap_append]

theorem nodesEach_perm {as bs : Block ι} (h : as.Perm bs) :
    (nodesEach as).Perm (nodesEach bs) := by
  rw [nodesEach_eq_flatMap, nodesEach_eq_flatMap]
  exact h.flatMap_right nodes

theorem nodesEach_eraseIdx_perm {block : Block ι} {index : Nat} {s : Statement ι}
    (h : block[index]? = some s) :
    (nodesEach block).Perm (s.nodes ++ nodesEach (block.eraseIdx index)) := by
  obtain ⟨hlt, rfl⟩ := List.getElem?_eq_some_iff.mp h
  exact (nodesEach_perm (List.getElem_cons_eraseIdx_perm hlt)).symm

theorem nodesEach_insertIdx_perm {block : Block ι} {index : Nat} (h : index ≤ block.length)
    (s : Statement ι) : (nodesEach (block.insertIdx index s)).Perm (s.nodes ++ nodesEach block) :=
  nodesEach_perm (List.perm_insertIdx s block h)

end Statement

open Statement

/-! ### The layout of a block -/

/-- The direct children of a block, each with nothing in its own block. -/
def Block.children (block : Block ι) : Block ι := block.map bare

@[simp] theorem Block.children_eraseIdx (block : Block ι) (index : Nat) :
    Block.children (block.eraseIdx index) = block.children.eraseIdx index :=
  (List.eraseIdx_map ..).symm

@[simp] theorem Block.children_insertIdx (block : Block ι) (index : Nat) (s : Statement ι) :
    Block.children (block.insertIdx index s) = block.children.insertIdx index s.bare :=
  List.map_insertIdx ..

/-- The address and the children of the block of a statement. -/
def Statement.entry? (s : Statement Nat) : Option (Address × Block Nat) :=
  s.block?.map fun block => (.inside s.tag, block.children)

/-- The blocks of all statements in a block. -/
def Block.layout (block : Block Nat) : List (Address × Block Nat) :=
  (nodesEach block).filterMap entry?

theorem Block.layout_append (as bs : Block Nat) :
    Block.layout (as ++ bs) = as.layout ++ bs.layout := by
  simp only [layout, nodesEach_append, List.filterMap_append]

theorem Block.layout_compound (head : Head Nat) (block : Block Nat) :
    Block.layout [.compound head block] = (.inside head.tag, block.children) :: block.layout := by
  simp [layout, nodesEach, nodes, entry?, Statement.block?]

theorem Block.mem_layout {block children : Block Nat} {place : Address} :
    (place, children) ∈ block.layout ↔ ∃ s ∈ nodesEach block, ∃ inner, s.block? = some inner ∧
      place = .inside s.tag ∧ inner.children = children := by
  simp only [layout, List.mem_filterMap, entry?, Option.map_eq_some_iff, Prod.mk.injEq,
    eq_comm (a := place)]

namespace Block.Replaced

variable {old new block block' : Block ι}

theorem symm (h : Replaced old new block block') : Replaced new old block' block := by
  induction h with
  | here => exact .here
  | beside before after _ ih => exact ih.beside before after
  | inside head _ ih => exact ih.inside head

/-- What is told of a statement without its block stays around the replaced list, in its order. -/
theorem map_nodes {α : Type} {g : Statement ι → α} (h : Replaced old new block block')
    (outer : ∀ head inner inner', g (.compound head inner) = g (.compound head inner')) :
    ∃ before after, (nodesEach block).map g = before ++ (nodesEach old).map g ++ after ∧
      (nodesEach block').map g = before ++ (nodesEach new).map g ++ after := by
  induction h with
  | here => exact ⟨[], [], by simp, by simp⟩
  | beside before after _ ih =>
    obtain ⟨b, a, hb, hb'⟩ := ih
    refine ⟨(nodesEach before).map g ++ b, a ++ (nodesEach after).map g, ?_, ?_⟩
    · simp [nodesEach_append, hb]
    · simp [nodesEach_append, hb']
  | @inside block block' head _ ih =>
    obtain ⟨b, a, hb, hb'⟩ := ih
    refine ⟨g (.compound head block) :: b, a, ?_, ?_⟩
    · simp [nodesEach, nodes, hb]
    · simp [nodesEach, nodes, hb', outer head block' block]

theorem mem_nodesEach (h : Replaced old new block block') {s : Statement ι}
    (hs : s ∈ nodesEach new) : s ∈ nodesEach block' := by
  induction h with
  | here => exact hs
  | beside before after _ ih =>
    rw [nodesEach_append, nodesEach_append]
    exact List.mem_append_left _ (List.mem_append_right _ ih)
  | inside head _ ih =>
    rw [nodesEach, nodes, List.cons_append]
    exact List.mem_cons_of_mem _ (List.mem_append_left _ ih)

/-- Where the replaced list keeps its children, so does every block around it. -/
theorem layout {old new block block' : Block Nat} (h : Replaced old new block block')
    (same : new.children = old.children) : block'.children = block.children ∧
      ∃ before after, block.layout = before ++ old.layout ++ after ∧
        block'.layout = before ++ new.layout ++ after := by
  induction h with
  | here => exact ⟨same, [], [], by simp, by simp⟩
  | @beside block block' before after _ ih =>
    obtain ⟨hchildren, b, a, hb, hb'⟩ := ih
    refine ⟨?_, before.layout ++ b, a ++ after.layout, ?_, ?_⟩
    · unfold children at hchildren ⊢
      simp only [List.map_append, hchildren]
    · simp [layout_append, hb]
    · simp [layout_append, hb']
  | @inside block block' head _ ih =>
    obtain ⟨hchildren, b, a, hb, hb'⟩ := ih
    refine ⟨rfl, (.inside head.tag, block.children) :: b, a, ?_, ?_⟩
    · rw [layout_compound, hb]
      rfl
    · rw [layout_compound, hchildren, hb']
      rfl

end Block.Replaced

/-! ### The layout of a program -/

namespace Program

variable {p q : Program} {place : Address} {block children : Block Nat} {tag : Nat}

/-- The root block and the bodies of the procedures with their addresses. -/
def bodies (p : Program) : List (Address × Block Nat) :=
  (.root, p.block) :: p.procedures.entries.map fun entry => (.procedure entry.1, entry.2)

/-- The address of every block, with the direct children of the block. -/
def layout (p : Program) : List (Address × Block Nat) :=
  p.bodies.flatMap fun entry => (entry.1, entry.2.children) :: entry.2.layout

theorem map_snd_bodies (p : Program) : p.bodies.map Prod.snd = p.blocks := by
  simp [bodies, blocks, Table.values]

theorem map_fst_bodies (p : Program) :
    p.bodies.map Prod.fst = .root :: p.procedures.keys.map .procedure := by
  simp [bodies, Table.keys]

theorem Replaced.bodies {old new : Block Nat} (h : Replaced old new p q) :
    ∃ before place body body' after, p.bodies = before ++ (place, body) :: after ∧
      q.bodies = before ++ (place, body') :: after ∧ Block.Replaced old new body body' := by
  obtain ⟨before, body, body', after, hp, hq, hr⟩ := h.blocks
  rw [← map_snd_bodies] at hp hq
  obtain ⟨b, rest, hsplit, rfl, hrest⟩ := List.map_eq_append_iff.mp hp
  obtain ⟨⟨place, _⟩, a, rfl, rfl, rfl⟩ := List.map_eq_cons_iff.mp hrest
  refine ⟨b, place, _, body', a, hsplit, ?_, hr⟩
  -- the addresses are those of `p`, which are split at the same place
  have hplaces : q.bodies.map Prod.fst = b.map Prod.fst ++ place :: a.map Prod.fst := by
    rw [map_fst_bodies, h.keys, ← map_fst_bodies, hsplit]
    simp
  calc q.bodies = (q.bodies.map Prod.fst).zip (q.bodies.map Prod.snd) := List.zip_of_prod rfl rfl
    _ = (b.map Prod.fst ++ place :: a.map Prod.fst).zip
          (b.map Prod.snd ++ body' :: a.map Prod.snd) := by rw [hplaces, hq]
    _ = b ++ (place, body') :: a := by
      rw [List.zip_append (by simp), List.zip_cons_cons, ← List.zip_of_prod rfl rfl,
        ← List.zip_of_prod rfl rfl]

theorem Replaced.mem_nodes {old new : Block Nat} (h : Replaced old new p q) {s : Statement Nat}
    (hs : s ∈ nodesEach new) : s ∈ q.nodes := by
  obtain ⟨before, body, body', after, -, hq, hr⟩ := h.blocks
  exact List.mem_flatMap.mpr ⟨body', by simp [hq], hr.mem_nodesEach hs⟩

theorem map_tag_nodes (p : Program) :
    p.nodes.map Statement.tag = (p.nodes.map Statement.head).map Head.tag := by
  rw [List.map_map]
  rfl

theorem Replaced.map_nodes {old new : Block Nat} {α : Type} {g : Statement Nat → α}
    (h : Replaced old new p q)
    (outer : ∀ head inner inner', g (.compound head inner) = g (.compound head inner')) :
    ∃ before after, p.nodes.map g = before ++ (nodesEach old).map g ++ after ∧
      q.nodes.map g = before ++ (nodesEach new).map g ++ after := by
  obtain ⟨before, body, body', after, hp, hq, hr⟩ := h.blocks
  obtain ⟨b, a, hb, hb'⟩ := hr.map_nodes outer
  refine ⟨(before.flatMap nodesEach).map g ++ b, a ++ (after.flatMap nodesEach).map g, ?_, ?_⟩
  · simp [nodes, hp, hb]
  · simp [nodes, hq, hb']

theorem Replaced.heads {old new : Block Nat} (h : Replaced old new p q) : ∃ before after,
    p.nodes.map Statement.head = before ++ (nodesEach old).map Statement.head ++ after ∧
      q.nodes.map Statement.head = before ++ (nodesEach new).map Statement.head ++ after :=
  h.map_nodes fun _ _ _ => rfl

theorem Replaced.symm {old new : Block Nat} (h : Replaced old new p q) : Replaced new old q p where
  blocks := by
    obtain ⟨before, body, body', after, hp, hq, hr⟩ := h.blocks
    exact ⟨before, body', body, after, hq, hp, hr.symm⟩
  keys := h.keys.symm
  «variables» := h.variables.symm
  skeletons := h.skeletons.symm
  initialized := h.initialized.symm
  next := h.next.symm

/-- Where statements go and come among the replaced ones, the same go and come in the program. -/
theorem Replaced.map_nodes_perm {old new : Block Nat} {α : Type} {g : Statement Nat → α}
    (h : Replaced old new p q)
    (outer : ∀ head inner inner', g (.compound head inner) = g (.compound head inner'))
    {gone come : List (Statement Nat)}
    (hperm : (nodesEach new ++ gone).Perm (nodesEach old ++ come)) :
    (q.nodes.map g ++ gone.map g).Perm (p.nodes.map g ++ come.map g) := by
  obtain ⟨before, after, hp, hq⟩ := h.map_nodes outer
  have hmap := hperm.map g
  rw [List.map_append, List.map_append] at hmap
  -- what stays around is put in front
  have hfront : ∀ inner more : List α, ((before ++ inner ++ after) ++ more).Perm
      (before ++ after ++ (inner ++ more)) := by
    intro inner more
    simp only [List.append_assoc]
    exact .append_left before (List.perm_append_comm_assoc inner after more)
  rw [hp, hq]
  exact (hfront _ _).trans ((hmap.append_left _).trans (hfront _ _).symm)

/-- What the replaced list has beyond the new one, the program has beyond the new one. -/
theorem Replaced.heads_perm {old new : Block Nat} (h : Replaced old new p q)
    {more : List (Statement Nat)} (hperm : (nodesEach old).Perm (more ++ nodesEach new)) :
    (p.nodes.map Statement.head).Perm (more.map Statement.head ++ q.nodes.map Statement.head) := by
  have hmore : (nodesEach new ++ more).Perm (nodesEach old ++ []) := by
    rw [List.append_nil]
    exact List.perm_append_comm.trans hperm.symm
  have hheads := h.map_nodes_perm (fun _ _ _ => (rfl : Statement.head _ = _)) hmore
  rw [List.map_nil, List.append_nil] at hheads
  exact hheads.symm.trans List.perm_append_comm

theorem Replaced.layout {old new : Block Nat} (h : Replaced old new p q)
    (same : new.children = old.children) : ∃ before after,
      p.layout = before ++ old.layout ++ after ∧ q.layout = before ++ new.layout ++ after := by
  obtain ⟨before, place, body, body', after, hp, hq, hr⟩ := h.bodies
  obtain ⟨hchildren, b, a, hb, hb'⟩ := hr.layout same
  refine ⟨before.flatMap (fun entry => (entry.1, entry.2.children) :: entry.2.layout) ++
      (place, body.children) :: b,
    a ++ after.flatMap (fun entry => (entry.1, entry.2.children) :: entry.2.layout), ?_, ?_⟩
  · simp [Program.layout, hp, hb]
  · simp [Program.layout, hq, hb', hchildren]

/-! ### Edits of one block -/

/-- An edit of the block of a statement replaces the statement. -/
theorem replaced_of_modifyBlock_inside (h : p.block? (.inside tag) = some block)
    (f : Block Nat → Block Nat) : ∃ head : Head Nat, head.tag = tag ∧
      Replaced [.compound head block] [.compound head (f block)] p
        (p.modifyBlock (.inside tag) f) := by
  obtain ⟨s, hs, hblock⟩ := Option.bind_eq_some_iff.mp h
  have hsome : p.update? tag (Statement.mapBlock f) ≠ none :=
    fun hn => by simp [update?_eq_none_iff.mp hn] at hs
  obtain ⟨q, hq⟩ := Option.ne_none_iff_exists'.mp hsome
  obtain ⟨s', hs', hr⟩ := replaced_of_update? hq
  obtain rfl := Option.some.inj (hs.symm.trans hs')
  cases s with
  | simple head => cases hblock
  | compound head inner =>
    obtain rfl := Option.some.inj hblock
    refine ⟨head, by simpa using List.find?_some hs, ?_⟩
    simp only [modifyBlock, hq, Option.getD_some]
    exact hr

/-- An edit of one block concerns the entry of the block and those of the blocks inside it. -/
theorem layout_modifyBlock (h : p.block? place = some block) (f : Block Nat → Block Nat) :
    ∃ before after, p.layout = before ++ (place, block.children) :: block.layout ++ after ∧
      (p.modifyBlock place f).layout =
        before ++ (place, Block.children (f block)) :: Block.layout (f block) ++ after := by
  cases place with
  | root =>
    obtain rfl := Option.some.inj h
    refine ⟨[], (p.procedures.entries.map fun entry => (Address.procedure entry.1, entry.2)).flatMap
      fun entry => (entry.1, entry.2.children) :: entry.2.layout, ?_, ?_⟩
    · simp [layout, bodies]
    · simp [layout, bodies, modifyBlock]
  | procedure id =>
    have hget : p.procedures.get? id = some block := h
    obtain ⟨before, after, hb, hb'⟩ := Entries.put_of_lookup (f block) hget
    refine ⟨(Address.root, p.block.children) :: p.block.layout ++
      before.flatMap fun entry => (Address.procedure entry.1, entry.2.children) :: entry.2.layout,
      after.flatMap fun entry => (Address.procedure entry.1, entry.2.children) :: entry.2.layout,
      ?_, ?_⟩
    · simp [layout, bodies, hb, List.flatMap_map]
    · simp [layout, bodies, modifyBlock, hget, Table.insert, hb', List.flatMap_map]
  | inside tag =>
    obtain ⟨head, rfl, hr⟩ := replaced_of_modifyBlock_inside h f
    obtain ⟨before, after, hp, hq⟩ := hr.layout rfl
    rw [Block.layout_compound] at hp hq
    exact ⟨before, after, hp, hq⟩

/-- Where statements go and come in an edited block, the entries of other blocks go and come with
them. -/
theorem mem_layout_modifyBlock {f : Block Nat → Block Nat} {gone come : List (Statement Nat)}
    {other : Address} (h : p.block? place = some block)
    (hperm : (nodesEach (f block) ++ gone).Perm (nodesEach block ++ come)) (hne : other ≠ place) :
    (other, children) ∈ (p.modifyBlock place f).layout ∨
        (other, children) ∈ gone.filterMap entry? ↔
      (other, children) ∈ p.layout ∨ (other, children) ∈ come.filterMap entry? := by
  obtain ⟨before, after, hp, hq⟩ := layout_modifyBlock h f
  have hm := (hperm.filterMap entry?).mem_iff (a := (other, children))
  rw [List.filterMap_append, List.filterMap_append, List.mem_append, List.mem_append] at hm
  simp only [hp, hq, List.mem_append, List.mem_cons, Prod.mk.injEq, hne, false_and, false_or,
    Block.layout]
  tauto

/-! ### Blocks under their addresses -/

/-- With distinct tags, a search for a tag finds the statement that has it. -/
theorem find?_eq_some_iff (distinct : (p.nodes.map Statement.tag).Nodup) {s : Statement Nat} :
    p.find? tag = some s ↔ s ∈ p.nodes ∧ s.tag = tag := by
  constructor
  · intro h
    exact ⟨List.mem_of_find?_eq_some h, by simpa using List.find?_some h⟩
  · rintro ⟨hs, rfl⟩
    cases h : p.find? s.tag with
    | none => simpa using List.find?_eq_none.mp h s hs
    | some t =>
      have ht : t.tag = s.tag := by simpa using List.find?_some h
      rw [List.inj_on_of_nodup_map distinct (List.mem_of_find?_eq_some h) hs ht]

/-- The direct children of a block. -/
def children? (p : Program) (place : Address) : Option (Block Nat) :=
  (p.block? place).map Block.children

/-- With distinct tags, the layout has an entry for each block that is found, and no others. -/
theorem mem_layout_iff (distinct : (p.nodes.map Statement.tag).Nodup) :
    (place, children) ∈ p.layout ↔ p.children? place = some children := by
  rw [children?, Option.map_eq_some_iff]
  have hsplit : (place, children) ∈ p.layout ↔
      (∃ body, (place, body) ∈ p.bodies ∧ body.children = children) ∨
        ∃ s ∈ p.nodes, ∃ inner, s.block? = some inner ∧ place = .inside s.tag ∧
          inner.children = children := by
    simp only [layout, List.mem_flatMap, List.mem_cons, Prod.mk.injEq, Block.mem_layout, nodes,
      ← map_snd_bodies, List.mem_map]
    constructor
    · rintro ⟨⟨at_, body⟩, hm, ⟨rfl, rfl⟩ | ⟨s, hs, inner, hinner⟩⟩
      · exact .inl ⟨body, hm, rfl⟩
      · exact .inr ⟨s, ⟨body, ⟨_, hm, rfl⟩, hs⟩, inner, hinner⟩
    · rintro (⟨body, hm, rfl⟩ | ⟨s, ⟨_, ⟨entry, hm, rfl⟩, hs⟩, inner, hinner⟩)
      · exact ⟨_, hm, .inl ⟨rfl, rfl⟩⟩
      · exact ⟨entry, hm, .inr ⟨s, hs, inner, hinner⟩⟩
  rw [hsplit]
  cases place with
  | root => simp [bodies, block?]
  | procedure id =>
    have hget (body : Block Nat) :
        (id, body) ∈ p.procedures.entries ↔ p.procedures.get? id = some body :=
      ⟨Entries.lookup_of_mem p.procedures.nodup, Entries.mem_of_lookup⟩
    simp [bodies, block?, hget]
  | inside tag =>
    simp only [bodies, List.mem_cons, List.mem_map, Prod.mk.injEq, reduceCtorEq, false_and,
      and_false, exists_false, or_false, false_or, block?, Option.bind_eq_some_iff,
      find?_eq_some_iff distinct, Address.inside.injEq]
    constructor
    · rintro ⟨s, hs, inner, hinner, rfl, hchildren⟩
      exact ⟨inner, ⟨s, ⟨hs, rfl⟩, hinner⟩, hchildren⟩
    · rintro ⟨inner, ⟨s, ⟨hs, rfl⟩, hinner⟩, hchildren⟩
      exact ⟨s, hs, inner, hinner, rfl, hchildren⟩

/-- The edited block stands under the address of the old one. -/
theorem block?_modifyBlock {f : Block Nat → Block Nat}
    (distinct : ((p.modifyBlock place f).nodes.map Statement.tag).Nodup)
    (h : p.block? place = some block) : (p.modifyBlock place f).block? place = some (f block) := by
  cases place with
  | root =>
    obtain rfl := Option.some.inj h
    rfl
  | procedure id =>
    have hget : p.procedures.get? id = some block := h
    simp [modifyBlock, hget, block?]
  | inside tag =>
    obtain ⟨head, rfl, hr⟩ := replaced_of_modifyBlock_inside h f
    have hm : .compound head (f block) ∈ (p.modifyBlock (.inside head.tag) f).nodes :=
      hr.mem_nodes (by simp [nodesEach, Statement.nodes])
    have hfound := (find?_eq_some_iff distinct).mpr ⟨hm, rfl⟩
    rw [tag_compound] at hfound
    simp [block?, hfound, Statement.block?]

end Program

end BlockScript
