import BlockScript.Proofs.Bookkeeping
import BlockScript.Proofs.Content
import BlockScript.Proofs.Updates

/-! Edits of one block as edits of a list. A program is a map from addresses to lists of statements;
inserting, removing and moving a statement change the list under one address as the edits of lists
of the same names do, and all that is told of other statements and lists stays. The checks of an
edit come before its steps, so that no step fails when others have been made. -/

namespace BlockScript

open Statement

theorem Block.relocate_of_getElem? {ι : Type} {block : Block ι} {source : Nat} {s : Statement ι}
    (h : block[source]? = some s) (target : Nat) :
    block.relocate source target = (block.eraseIdx source).insertIdx target s := by
  rw [relocate, h]

namespace Program

variable {p q : Program} {place : Address} {block new : Block Nat}
  {gone come : List (Statement Nat)}

/-! ### When an edit is refused -/

/-- Why an edit at these indices of a block is refused, the last index being `spare` places beyond
the last statement: there is no such block, or the first index that is out of range. -/
def obstacle? (p : Program) (place : Address) (spare : Nat) (indices : List Nat) :
    Option EditError :=
  match p.block? place with
  | none => some (.blockNotFound place)
  | some block => (indices.find? fun index => block.length + spare ≤ index).map
      (.indexOutOfRange · block.length)

theorem obstacle?_eq_none_iff {spare : Nat} {indices : List Nat} :
    p.obstacle? place spare indices = none ↔
      ∃ block, p.block? place = some block ∧ ∀ index ∈ indices, index < block.length + spare := by
  cases h : p.block? place with
  | none => simp [obstacle?, h]
  | some block => simp [obstacle?, h]

/-- An edit is refused exactly with what stands against it, and goes through if nothing does. -/
structure Decided {α : Type} (result : Except EditError α) (p : Program) (place : Address)
    (spare : Nat) (indices : List Nat) : Prop where
  ok : (∃ a, result = .ok a) ↔
    ∃ block, p.block? place = some block ∧ ∀ index ∈ indices, index < block.length + spare
  error : ∀ e, result = .error e ↔ p.obstacle? place spare indices = some e

theorem decided_of {α : Type} {result : Except EditError α} {spare : Nat} {indices : List Nat}
    (missing : p.block? place = none → result = .error (.blockNotFound place))
    (outside : ∀ block index, p.block? place = some block →
      indices.find? (fun index => block.length + spare ≤ index) = some index →
        result = .error (.indexOutOfRange index block.length))
    (inside : ∀ block, p.block? place = some block →
      (∀ index ∈ indices, index < block.length + spare) → ∃ a, result = .ok a) :
    Decided result p place spare indices := by
  have refused : ∀ e, p.obstacle? place spare indices = some e → result = .error e := by
    intro e he
    cases hblock : p.block? place with
    | none =>
      rw [obstacle?, hblock] at he
      rw [missing hblock, Option.some.inj he]
    | some block =>
      rw [obstacle?, hblock] at he
      obtain ⟨index, hindex, rfl⟩ := Option.map_eq_some_iff.mp he
      exact outside block index hblock hindex
  have done : p.obstacle? place spare indices = none → ∃ a, result = .ok a := by
    rw [obstacle?_eq_none_iff]
    rintro ⟨block, hblock, hindices⟩
    exact inside block hblock hindices
  constructor
  · rw [← obstacle?_eq_none_iff]
    refine ⟨fun ⟨a, ha⟩ => Option.eq_none_iff_forall_ne_some.mpr fun e he => ?_, done⟩
    cases ha.symm.trans (refused e he)
  · refine fun e => ⟨fun he => ?_, refused e⟩
    cases h : p.obstacle? place spare indices with
    | none =>
      obtain ⟨a, ha⟩ := done h
      cases ha.symm.trans he
    | some e' => rw [Except.error.inj ((refused e' h).symm.trans he)]

theorem Decided.toOption_eq_none {α : Type} {result : Except EditError α} {spare : Nat}
    {indices : List Nat} (h : Decided result p place spare indices)
    (refused : p.obstacle? place spare indices ≠ none) : result.toOption = none := by
  obtain ⟨e, he⟩ := Option.ne_none_iff_exists'.mp refused
  rw [(h.error e).mpr he]
  rfl

variable {ι : Type}

theorem decided_insert (p : Program) (place : Address) (index : Nat) (template : Statement ι) :
    Decided (p.insert place index template) p place 1 [index] := by
  refine decided_of (fun h => ?_) (fun block i h hi => ?_) fun block h hi => ?_
  · simp [insert, h]
  · obtain rfl := List.mem_singleton.mp (List.mem_of_find?_eq_some hi)
    have hlong : block.length + 1 ≤ i := by simpa using List.find?_some hi
    have hindex : ¬i ≤ block.length := by omega
    simp [insert, h, hindex]
  · have hindex : index ≤ block.length := Nat.le_of_lt_succ (hi index List.mem_cons_self)
    simp [insert, h, hindex]

theorem decided_remove (p : Program) (place : Address) (index : Nat) :
    Decided (p.remove place index) p place 0 [index] := by
  refine decided_of (fun h => ?_) (fun block i h hi => ?_) fun block h hi => ?_
  · simp [remove, h]
  · obtain rfl := List.mem_singleton.mp (List.mem_of_find?_eq_some hi)
    have hlong : block.length ≤ i := by simpa using List.find?_some hi
    simp [remove, h, List.getElem?_eq_none hlong]
  · have hindex : index < block.length := hi index List.mem_cons_self
    simp [remove, h, List.getElem?_eq_getElem hindex]

theorem decided_move (p : Program) (place : Address) (source target : Nat) :
    Decided (p.move place source target) p place 0 [source, target] := by
  refine decided_of (fun h => ?_) (fun block i h hi => ?_) fun block h hi => ?_
  · simp [move, h]
  · -- the source is looked at before the target
    rw [List.find?_cons] at hi
    split at hi
    · rename_i hlong
      obtain rfl := Option.some.inj hi
      have hsource : block.length ≤ source := of_decide_eq_true hlong
      simp [move, h, hsource]
    · rename_i hshort
      obtain rfl := List.mem_singleton.mp (List.mem_of_find?_eq_some hi)
      have hlong : block.length ≤ i := by simpa using List.find?_some hi
      have hsource : ¬block.length ≤ source := of_decide_eq_false hshort
      simp [move, h, hsource, hlong]
  · have hsource : ¬block.length ≤ source := Nat.not_le_of_lt (hi source List.mem_cons_self)
    have htarget : ¬block.length ≤ target := Nat.not_le_of_lt (hi target (by simp))
    simp [move, h, hsource, htarget]

/-! ### What an edit leaves -/

/-- The second program is the first one with the list under one address replaced by `new`. The
statements `gone` have left with the old list and `come` have arrived with the new one; of all
others the own parts stay as they are, and so do the lists of all blocks but those inside `gone` and
`come`. -/
structure Edited (p q : Program) (place : Address) (new : Block Nat)
    (gone come : List (Statement Nat)) : Prop where
  edited : q.block? place = some new
  elsewhere : ∀ other, other ≠ place → (∀ s ∈ gone ++ come, other ≠ .inside s.tag) →
    q.children? other = p.children? other
  departed : ∀ s ∈ gone, p.find? s.tag = some s ∧ q.find? s.tag = none
  arrived : ∀ s ∈ come, p.find? s.tag = none ∧ q.find? s.tag = some s
  others : (q.nodes.map bare ++ gone.map bare).Perm (p.nodes.map bare ++ come.map bare)
  keys : q.procedures.keys = p.procedures.keys
  «variables» : q.variables = p.variables

theorem find?_eq_none_of_not_mem {tag : Nat} (h : tag ∉ p.nodes.map Statement.tag) :
    p.find? tag = none := by
  refine List.find?_eq_none.mpr fun s hs same => h ?_
  exact List.mem_map.mpr ⟨s, hs, by simpa using same⟩

/-- An edit of a block changes no list but that of the block and those of what goes and comes. -/
theorem children?_modifyBlock {f : Block Nat → Block Nat} {other : Address}
    (distinct : (p.nodes.map Statement.tag).Nodup)
    (qdistinct : ((p.modifyBlock place f).nodes.map Statement.tag).Nodup)
    (h : p.block? place = some block)
    (hperm : (nodesEach (f block) ++ gone).Perm (nodesEach block ++ come)) (hne : other ≠ place)
    (outside : ∀ s ∈ gone ++ come, other ≠ .inside s.tag) :
    (p.modifyBlock place f).children? other = p.children? other := by
  -- what goes and comes has no list under this address
  have hnone : ∀ list : List (Statement Nat), (∀ s ∈ list, s ∈ gone ++ come) →
      ∀ children, (other, children) ∉ list.filterMap entry? := by
    intro list hlist children hm
    obtain ⟨s, hs, hentry⟩ := List.mem_filterMap.mp hm
    obtain ⟨inner, -, heq⟩ := Option.map_eq_some_iff.mp hentry
    exact outside s (hlist s hs) (Prod.mk.inj heq).1.symm
  apply Option.eq_of_eq_some
  intro children
  have hm : (other, children) ∈ (p.modifyBlock place f).layout ∨ _ ↔ _ :=
    mem_layout_modifyBlock h hperm hne
  rw [or_iff_left (hnone gone (fun _ => List.mem_append_left _) children),
    or_iff_left (hnone come (fun _ => List.mem_append_right _) children)] at hm
  rw [← mem_layout_iff qdistinct, ← mem_layout_iff distinct, hm]

theorem edited_modifyBlock {f : Block Nat → Block Nat}
    (distinct : (p.nodes.map Statement.tag ++ come.map Statement.tag).Nodup)
    (h : p.block? place = some block) (hgone : gone ⊆ nodesEach block)
    (hcome : come ⊆ nodesEach (f block))
    (hperm : (nodesEach (f block) ++ gone).Perm (nodesEach block ++ come)) :
    Edited p (p.modifyBlock place f) place (f block) gone come := by
  have hr := replaced_of_modifyBlock h f
  have htags := hr.map_nodes_perm (g := Statement.tag) (fun _ _ _ => rfl) hperm
  obtain ⟨pdistinct, -, papart⟩ := List.nodup_append.mp distinct
  obtain ⟨qdistinct, -, qapart⟩ := List.nodup_append.mp (htags.nodup_iff.mpr distinct)
  constructor
  case edited => exact block?_modifyBlock qdistinct h
  case elsewhere => exact fun other => children?_modifyBlock pdistinct qdistinct h hperm
  case departed =>
    intro s hs
    refine ⟨(find?_eq_some_iff pdistinct).mpr ⟨hr.symm.mem_nodes (hgone hs), rfl⟩, ?_⟩
    exact find?_eq_none_of_not_mem fun hm => qapart _ hm _ (List.mem_map_of_mem hs) rfl
  case arrived =>
    intro s hs
    refine ⟨?_, (find?_eq_some_iff qdistinct).mpr ⟨hr.mem_nodes (hcome hs), rfl⟩⟩
    exact find?_eq_none_of_not_mem fun hm => papart _ hm _ (List.mem_map_of_mem hs) rfl
  case others => exact hr.map_nodes_perm (g := bare) (fun _ _ _ => rfl) hperm
  case keys => exact hr.keys
  case «variables» => exact hr.variables

/-- The bookkeeping and the supply of tags play no part. -/
theorem Edited.congr (h : Edited p q place new gone come) {r : Program} (blocks : r.block = q.block)
    (procedures : r.procedures = q.procedures) («variables» : r.variables = q.variables) :
    Edited p r place new gone come := by
  obtain ⟨_, _, _, _, _, _⟩ := q
  obtain ⟨_, _, _, _, _, _⟩ := r
  subst blocks procedures «variables»
  exact ⟨h.edited, h.elsewhere, h.departed, h.arrived, h.others, h.keys, h.variables⟩

/-- The tags of a new statement are not those of the program. -/
theorem nodup_tags_with_stamp (distinct : (p.nodes.map Statement.tag).Nodup)
    (fresh : ∀ s ∈ p.nodes, s.tag < p.next) (template : Statement ι) :
    (p.nodes.map Statement.tag ++ (template.stamp p.next).nodes.map Statement.tag).Nodup := by
  have hnew : ((template.stamp p.next).nodes.map Statement.tag).Sublist
      (List.range' p.next template.count) := by
    rw [← Statement.tags_stamp]
    exact map_tag_nodes_sublist _
  refine List.nodup_append.mpr
    ⟨distinct, hnew.nodup List.nodup_range', fun old hold tag htag => ?_⟩
  obtain ⟨s, hs, rfl⟩ := List.mem_map.mp hold
  have hlt := fresh s hs
  have hle := (List.mem_range'_1.mp (hnew.subset htag)).1
  omega

theorem edited_insert {index : Nat} {template : Statement ι}
    (distinct : (p.nodes.map Statement.tag).Nodup) (fresh : ∀ s ∈ p.nodes, s.tag < p.next)
    (hblock : p.block? place = some block) (h : p.insert place index template = .ok q) :
    Edited p q place (block.insertIdx index (template.stamp p.next)) []
      (template.stamp p.next).nodes := by
  rw [insert, hblock] at h
  simp only at h
  split at h
  · rename_i hindex
    obtain rfl := Except.ok.inj h
    have hperm := nodesEach_insertIdx_perm hindex (template.stamp p.next)
    have hdistinct := nodup_tags_with_stamp distinct fresh template
    refine Edited.congr (edited_modifyBlock hdistinct hblock (List.nil_subset _) ?_ ?_) rfl rfl rfl
    · exact fun s hs => hperm.mem_iff.mpr (List.mem_append_left _ hs)
    · rw [List.append_nil]
      exact hperm.trans List.perm_append_comm
  · cases h

theorem edited_remove {index : Nat} {removed : Statement Nat}
    (distinct : (p.nodes.map Statement.tag).Nodup) (hblock : p.block? place = some block)
    (h : p.remove place index = .ok (removed, q)) : block[index]? = some removed ∧
      Edited p q place (block.eraseIdx index) removed.nodes [] := by
  rw [remove, hblock] at h
  simp only at h
  split at h
  · rename_i s hs
    obtain ⟨rfl, rfl⟩ := Prod.mk.inj (Except.ok.inj h)
    have hperm := nodesEach_eraseIdx_perm hs
    have hedited : Edited p (p.modifyBlock place (·.eraseIdx index)) place (block.eraseIdx index)
        s.nodes [] := by
      refine edited_modifyBlock (by simpa using distinct) hblock ?_ (List.nil_subset _) ?_
      · exact fun t ht => hperm.mem_iff.mpr (List.mem_append_left _ ht)
      · rw [List.append_nil]
        exact List.perm_append_comm.trans hperm.symm
    exact ⟨hs, hedited.congr rfl rfl rfl⟩
  · cases h

theorem edited_move {source target : Nat} (distinct : (p.nodes.map Statement.tag).Nodup)
    (hblock : p.block? place = some block) (h : p.move place source target = .ok q) :
    ∃ s, block[source]? = some s ∧
      Edited p q place ((block.eraseIdx source).insertIdx target s) [] [] := by
  rw [move, hblock] at h
  simp only at h
  split at h
  · cases h
  · rename_i hsource
    split at h
    · cases h
    · rename_i htarget
      obtain rfl := Except.ok.inj h
      have hs : block[source]? = some block[source] := List.getElem?_eq_getElem (by omega)
      have hlength : target ≤ (block.eraseIdx source).length := by
        rw [List.length_eraseIdx_of_lt (by omega)]
        omega
      have hmoved := Block.relocate_of_getElem? hs target
      have hperm := (nodesEach_insertIdx_perm hlength block[source]).trans
        (nodesEach_eraseIdx_perm hs).symm
      refine ⟨block[source], hs, ?_⟩
      rw [← hmoved]
      refine edited_modifyBlock (by simpa using distinct) hblock (List.nil_subset _)
        (List.nil_subset _) ?_
      rw [hmoved, List.append_nil, List.append_nil]
      exact hperm

/-! ### Step by step -/

section Steps

variable (p : Program) (place : Address)

/-- Puts a statement at an index of a block, if the block reaches that far. -/
def put? (index : Nat) (s : Statement Nat) : Option Program :=
  match p.block? place with
  | none => none
  | some block =>
    if index ≤ block.length then some (p.modifyBlock place (·.insertIdx index s)) else none

/-- Takes the statement at an index out of a block, if there is one. -/
def take? (index : Nat) : Option (Statement Nat × Program) :=
  match p.block? place with
  | none => none
  | some block => block[index]?.map fun s => (s, p.modifyBlock place (·.eraseIdx index))

/-- The answer of an edit and the program that it leaves. There is no answer if a step fails when
others have been made. -/
abbrev Attempt (α : Type) := Option (Except EditError α) × Program

/-- An edit that is done at once, or not at all. -/
def atOnce {α : Type} : Except EditError (α × Program) → Attempt α
  | .ok (answer, q) => (some (.ok answer), q)
  | .error e => (some (.error e), p)

/-- An insertion as steps on one program. The tags are used up last. -/
def insertInPlace (index : Nat) (template : Statement ι) : Attempt Unit :=
  match p.block? place with
  | none => (some (.error (.blockNotFound place)), p)
  | some block =>
    if block.length < index then (some (.error (.indexOutOfRange index block.length)), p)
    else
      match p.put? place index (template.stamp p.next) with
      | none => (none, p)
      | some q => (some (.ok ()), { q with next := q.next + template.count })

/-- A removal as steps on one program. The bookkeeping about what is gone is dropped last. -/
def removeInPlace (index : Nat) : Attempt (Statement Nat) :=
  match p.block? place with
  | none => (some (.error (.blockNotFound place)), p)
  | some block =>
    if block.length ≤ index then (some (.error (.indexOutOfRange index block.length)), p)
    else
      match p.take? place index with
      | none => (none, p)
      | some (removed, q) => (some (.ok removed), q.forget removed.subtree)

/-- A move as steps on one program. The place to put the statement is in a list that is shorter by
one than the list that was checked. -/
def moveInPlace (source target : Nat) : Attempt Unit :=
  match p.block? place with
  | none => (some (.error (.blockNotFound place)), p)
  | some block =>
    match [source, target].find? (block.length ≤ ·) with
    | some index => (some (.error (.indexOutOfRange index block.length)), p)
    | none =>
      match p.take? place source with
      | none => (none, p)
      | some (s, cut) =>
        match cut.put? place target s with
        | none => (none, cut)
        | some q => (some (.ok ()), q)

end Steps

theorem insertInPlace_eq (p : Program) (place : Address) (index : Nat) (template : Statement ι) :
    p.insertInPlace place index template =
      p.atOnce ((p.insert place index template).map fun q => ((), q)) := by
  rw [insertInPlace, insert, put?]
  cases p.block? place with
  | none => rfl
  | some block =>
    by_cases hindex : index ≤ block.length
    · have hshort : ¬block.length < index := Nat.not_lt.mpr hindex
      simp [hindex, hshort, atOnce, Except.map]
    · have hlong : block.length < index := Nat.lt_of_not_le hindex
      simp [hindex, hlong, atOnce, Except.map]

theorem removeInPlace_eq (p : Program) (place : Address) (index : Nat) :
    p.removeInPlace place index = p.atOnce (p.remove place index) := by
  rw [removeInPlace, remove, take?]
  cases p.block? place with
  | none => rfl
  | some block =>
    by_cases hlong : block.length ≤ index
    · simp [hlong, atOnce]
    · have hget : block[index]? = some block[index] := List.getElem?_eq_getElem (by omega)
      simp [hlong, hget, atOnce]

/-- An edit is known by the list that it leaves. -/
theorem modifyBlock_eq_const {f : Block Nat → Block Nat}
    (h : (p.modifyBlock place f).block? place = some new) :
    p.modifyBlock place f = p.modifyBlock place fun _ => new := by
  have hr := replaced_of_modifyBlock h fun _ => new
  rw [modifyBlock_modifyBlock] at hr
  exact hr.eq.symm

/-- The list that a statement has been taken from still reaches as far as its new index. -/
theorem moveInPlace_eq (distinct : (p.nodes.map Statement.tag).Nodup) (place : Address)
    (source target : Nat) : p.moveInPlace place source target =
      p.atOnce ((p.move place source target).map fun q => ((), q)) := by
  cases hblock : p.block? place with
  | none => simp [moveInPlace, move, hblock, atOnce, Except.map]
  | some block =>
    by_cases hsource : block.length ≤ source
    · simp [moveInPlace, move, hblock, hsource, atOnce, Except.map]
    by_cases htarget : block.length ≤ target
    · simp [moveInPlace, move, hblock, hsource, htarget, atOnce, Except.map]
    have hmove : p.move place source target =
        .ok (p.modifyBlock place (Block.relocate source target)) := by
      simp [move, hblock, hsource, htarget]
    obtain ⟨s, hs, done⟩ := edited_move distinct hblock hmove
    -- the list under the address after either step
    have hfits : target ≤ (block.eraseIdx source).length := by
      rw [List.length_eraseIdx_of_lt (by omega)]
      omega
    have hcut := heads_eraseIdx_perm hblock hs
    have hleft := block?_modifyBlock (nodup_of_heads_perm _ distinct hcut) hblock
    have hput := heads_insertIdx_perm hleft hfits s
    have hdistinct := nodup_of_heads_perm [] distinct (hput.trans hcut.symm).symm
    have hback := block?_modifyBlock hdistinct hleft
    rw [modifyBlock_modifyBlock] at hback
    have hsame := (modifyBlock_eq_const hback).trans (modifyBlock_eq_const done.edited).symm
    simp [moveInPlace, hmove, hblock, hsource, htarget, take?, hs, put?, hleft, hfits,
      modifyBlock_modifyBlock, hsame, atOnce, Except.map]

/-- Inserting, removing and moving a statement in a program with distinct tags are edits of the list
under the address: an insertion, a removal, and a removal followed by an insertion. They go through
exactly if there is such a block and the indices are in its range, and else are refused with the
first of these that fails and change nothing. Done step by step they come to the same: no step fails
once the program is changed. What is inserted is the template with new tags, above those of the
program, and what is removed is answered as it was; nothing else changes, at any depth. -/
theorem block_edits_exact (distinct : (p.nodes.map Statement.tag).Nodup) (place : Address) :
    (∀ {ι : Type} (template : Statement ι) (index : Nat),
      Decided (p.insert place index template) p place 1 [index] ∧
      (p.obstacle? place 1 [index] ≠ none → (Edit.insert place index template).run p = p) ∧
      p.insertInPlace place index template =
        p.atOnce ((p.insert place index template).map fun q => ((), q)) ∧
      ∀ block q, p.block? place = some block → p.insert place index template = .ok q →
        (∀ s ∈ p.nodes, s.tag < p.next) → (template.stamp p.next).plain = template.plain ∧
          Edited p q place (block.insertIdx index (template.stamp p.next)) []
            (template.stamp p.next).nodes) ∧
    (∀ index,
      Decided (p.remove place index) p place 0 [index] ∧
      (p.obstacle? place 0 [index] ≠ none → (Edit.remove place index).run p = p) ∧
      p.removeInPlace place index = p.atOnce (p.remove place index) ∧
      ∀ block removed q, p.block? place = some block → p.remove place index = .ok (removed, q) →
        block[index]? = some removed ∧
          Edited p q place (block.eraseIdx index) removed.nodes []) ∧
    ∀ source target,
      Decided (p.move place source target) p place 0 [source, target] ∧
      (p.obstacle? place 0 [source, target] ≠ none →
        (Edit.move place source target).run p = p) ∧
      p.moveInPlace place source target =
        p.atOnce ((p.move place source target).map fun q => ((), q)) ∧
      ∀ block q, p.block? place = some block → p.move place source target = .ok q →
        ∃ s, block[source]? = some s ∧
          Edited p q place ((block.eraseIdx source).insertIdx target s) [] [] := by
  refine ⟨fun template index => ?_, fun index => ?_, fun source target => ?_⟩
  · have decided := decided_insert p place index template
    have hsteps := insertInPlace_eq p place index template
    refine ⟨decided, fun refused => ?_, hsteps, fun block q hblock hq fresh => ?_⟩
    · rw [Edit.run, Edit.run?, decided.toOption_eq_none refused]
      rfl
    · exact ⟨plain_stamp .., edited_insert distinct fresh hblock hq⟩
  · have decided := decided_remove p place index
    have hsteps := removeInPlace_eq p place index
    refine ⟨decided, fun refused => ?_, hsteps, fun block removed q hblock hq => ?_⟩
    · rw [Edit.run, Edit.run?, decided.toOption_eq_none refused]
      rfl
    · exact edited_remove distinct hblock hq
  · have decided := decided_move p place source target
    have hsteps := moveInPlace_eq distinct place source target
    refine ⟨decided, fun refused => ?_, hsteps, fun block q hblock hq => ?_⟩
    · rw [Edit.run, Edit.run?, decided.toOption_eq_none refused]
      rfl
    · exact edited_move distinct hblock hq

/-- In the block of a loop, a compound statement is removed with what is in it, and a statement is
put at the end; the list around the loop stays. Beyond the end nothing is removed. -/
theorem block_edits_exact_loop :
    let halt : Statement Nat := .simple { id := "halt", tag := 3 }
    let test : Statement Nat := .compound { id := "if", tag := 2 } [halt]
    let wait : Statement Nat := .simple { id := "wait", tag := 1 }
    let loop : Statement Nat := .compound { id := "while", tag := 0 } [wait, test]
    let p : Program := { block := [loop], next := 4 }
    (p.nodes.map Statement.tag).Nodup ∧
      (∃ q, p.remove (.inside 0) 1 = .ok (test, q) ∧ q.block? (.inside 0) = some [wait] ∧
        q.find? 3 = none ∧ q.children? .root = some [loop.bare]) ∧
      (∃ q, p.insert (.inside 0) 2 halt = .ok q ∧ q.children? .root = some [loop.bare] ∧
        q.children? (.inside 2) = some [halt]) ∧
      p.remove (.inside 0) 2 = .error (.indexOutOfRange 2 2) ∧
      p.removeInPlace (.inside 0) 2 = (some (.error (.indexOutOfRange 2 2)), p) := by
  intro halt test wait loop p
  have distinct : (p.nodes.map Statement.tag).Nodup := by decide
  obtain ⟨hinsert, hremove, -⟩ := block_edits_exact distinct (.inside 0)
  refine ⟨distinct, ?_, ?_, ?_⟩
  · obtain ⟨decided, -, -, hedited⟩ := hremove 1
    obtain ⟨⟨removed, q⟩, hq⟩ := decided.ok.mpr ⟨[wait, test], rfl, by decide⟩
    obtain ⟨hremoved, done⟩ := hedited [wait, test] removed q rfl hq
    obtain rfl := Option.some.inj hremoved
    have hhalt : halt ∈ test.nodes := List.mem_cons_of_mem _ List.mem_cons_self
    exact ⟨q, hq, done.edited, (done.departed halt hhalt).2,
      done.elsewhere .root (by decide) fun s _ => by simp⟩
  · obtain ⟨decided, -, -, hedited⟩ := hinsert halt 2
    obtain ⟨q, hq⟩ := decided.ok.mpr ⟨[wait, test], rfl, by decide⟩
    have fresh : ∀ s ∈ p.nodes, s.tag < p.next := by decide
    have done := (hedited [wait, test] q rfl hq fresh).2
    exact ⟨q, hq, done.elsewhere .root (by decide) fun s _ => by simp,
      done.elsewhere (.inside 2) (by decide) (by decide)⟩
  · have hrefused : p.remove (.inside 0) 2 = .error (.indexOutOfRange 2 2) :=
      ((hremove 2).1.error _).mpr rfl
    refine ⟨hrefused, ?_⟩
    rw [(hremove 2).2.2.1, hrefused]
    rfl

end Program

end BlockScript
