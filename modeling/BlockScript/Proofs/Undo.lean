import BlockScript.Proofs.BlockEdits

/-! Moves and transfers can be undone. Two edits of one block, one after the other, are one edit of
that block; so an edit is undone by any edit that gives the block its old list again. The way back
is open because the block that a statement was taken from is never inside that statement. -/

namespace BlockScript

/-! ### One block -/

theorem Block.length_relocate {ι : Type} {block : Block ι} {source target : Nat}
    (hsource : source < block.length) (htarget : target < block.length) :
    (block.relocate source target).length = block.length := by
  have hlength : (block.eraseIdx source).length = block.length - 1 :=
    List.length_eraseIdx_of_lt hsource
  rw [relocate_of_getElem? (List.getElem?_eq_getElem hsource),
    List.length_insertIdx_of_le_length (by omega)]
  omega

/-- A statement that is put from one place to another and back stands where it stood. -/
theorem Block.relocate_relocate {ι : Type} {block : Block ι} {source target : Nat}
    (hsource : source < block.length) (htarget : target < block.length) :
    Block.relocate target source (block.relocate source target) = block := by
  have hlength : target ≤ (block.eraseIdx source).length := by
    rw [List.length_eraseIdx_of_lt hsource]
    omega
  have hthere := relocate_of_getElem? (List.getElem?_eq_getElem hsource) target
  have hmoved : (block.relocate source target)[target]? = some block[source] := by
    rw [hthere, List.getElem?_insertIdx_self, if_pos hlength]
  rw [relocate_of_getElem? hmoved, hthere, List.eraseIdx_insertIdx_self,
    List.insertIdx_eraseIdx_getElem hsource]

namespace Program

open Statement

variable {p q : Program} {place : Address} {block : Block Nat}

/-- An edit is undone by one that gives the block its old list again. -/
theorem modifyBlock_undo {f g : Block Nat → Block Nat} (h : p.block? place = some block)
    (back : g (f block) = block) : (p.modifyBlock place f).modifyBlock place g = p := by
  have hr := replaced_of_modifyBlock h (g ∘ f)
  rw [Function.comp_apply, back] at hr
  rw [modifyBlock_modifyBlock, hr.eq]

/-! ### The way back -/

variable {source target : Address} {sourceIndex targetIndex : Nat} {destination : Block Nat}
  {moved : Statement Nat}

/-- A transfer that goes through is a removal from one block and then an insertion into another. -/
theorem exists_transferable (hne : source ≠ target)
    (h : p.transfer source sourceIndex target targetIndex = .ok q) :
    ∃ block moved destination,
      p.Transferable source sourceIndex target targetIndex block moved destination ∧
      q = (p.modifyBlock source (·.eraseIdx sourceIndex)).modifyBlock target
        (·.insertIdx targetIndex moved) := by
  rcases transferable_or_refused p source sourceIndex target targetIndex with
    ⟨block, moved, destination, ht⟩ | ⟨e, hrefused⟩
  · exact ⟨block, moved, destination, ht, Except.ok.inj (h.symm.trans (ht.transfer_eq hne))⟩
  · cases h.symm.trans (hrefused.eq_error hne).1

/-- With distinct tags, a block is not inside a statement that stands in it. -/
theorem outside_of_getElem? (distinct : (p.nodes.map Statement.tag).Nodup)
    (hblock : p.block? source = some block) (hmoved : block[sourceIndex]? = some moved) :
    ∀ inner ∈ moved.nodes, source ≠ .inside inner.tag := by
  rintro inner hinner rfl
  -- once the statement is out, the owner of the block is left, and its tag is a second time there
  have hheads := heads_eraseIdx_perm hblock hmoved
  have hcut := nodup_of_heads_perm _ distinct hheads
  have hleft := block?_modifyBlock hcut hblock
  obtain ⟨owner, howner, -⟩ := Option.bind_eq_some_iff.mp hleft
  obtain ⟨hmem, htag⟩ := (find?_eq_some_iff hcut).mp howner
  have htags := hheads.map Head.tag
  rw [List.map_append, ← map_tag_nodes, ← map_tag_nodes, List.map_map] at htags
  have happart := (List.nodup_append.mp (htags.nodup_iff.mp distinct)).2.2
  exact happart inner.tag (List.mem_map_of_mem hinner) owner.tag (List.mem_map_of_mem hmem)
    htag.symm

/-- A transfer that goes through can be made back. -/
theorem Transferable.transferable_back (distinct : (p.nodes.map Statement.tag).Nodup)
    (hne : source ≠ target)
    (h : p.Transferable source sourceIndex target targetIndex block moved destination) :
    ∃ filled emptied, ((p.modifyBlock source (·.eraseIdx sourceIndex)).modifyBlock target
      (·.insertIdx targetIndex moved)).Transferable target targetIndex source sourceIndex filled
        moved emptied := by
  have done := h.transferred distinct hne
  obtain ⟨filled, hfilled, hmoved⟩ := done.arrived
  obtain ⟨emptied, hemptied, hchildren⟩ := Option.map_eq_some_iff.mp done.emptied
  have hsource := (List.getElem?_eq_some_iff.mp h.taken).1
  have hlength : emptied.length = block.length - 1 := by
    have := congrArg List.length hchildren
    rwa [Block.children, List.length_map, Block.children,
      List.length_eraseIdx_of_lt (by rwa [List.length_map]), List.length_map] at this
  exact ⟨filled, emptied, hfilled, hmoved, outside_of_getElem? distinct h.found h.taken, hemptied,
    by omega⟩

theorem transfer_transfer (distinct : (p.nodes.map Statement.tag).Nodup) (hne : source ≠ target)
    (h : p.transfer source sourceIndex target targetIndex = .ok q) :
    q.transfer target targetIndex source sourceIndex = .ok p := by
  obtain ⟨block, moved, destination, ht, rfl⟩ := exists_transferable hne h
  obtain ⟨filled, emptied, hback⟩ := ht.transferable_back distinct hne
  obtain ⟨kept, hkept, -⟩ := ht.block?_target distinct hne
  have hsource : block[sourceIndex]? = some moved := ht.taken
  obtain ⟨hlt, rfl⟩ := List.getElem?_eq_some_iff.mp hsource
  rw [hback.transfer_eq hne.symm, modifyBlock_undo hkept (List.eraseIdx_insertIdx_self ..),
    modifyBlock_undo ht.found (List.insertIdx_eraseIdx_getElem hlt)]

theorem exists_of_move (h : p.move source sourceIndex targetIndex = .ok q) :
    ∃ block, p.block? source = some block ∧ sourceIndex < block.length ∧
      targetIndex < block.length ∧
      q = p.modifyBlock source (Block.relocate sourceIndex targetIndex) := by
  rw [move] at h
  split at h
  · cases h
  · rename_i block hblock
    split at h
    · cases h
    · split at h
      · cases h
      · exact ⟨block, hblock, by omega, by omega, (Except.ok.inj h).symm⟩

theorem move_move (distinct : (p.nodes.map Statement.tag).Nodup)
    (h : p.move source sourceIndex targetIndex = .ok q) :
    q.move source targetIndex sourceIndex = .ok p := by
  obtain ⟨block, hblock, hsource, htarget, hq⟩ := exists_of_move h
  obtain ⟨s, hs, done⟩ := edited_move distinct hblock h
  have hlength : ((block.eraseIdx sourceIndex).insertIdx targetIndex s).length = block.length := by
    rw [← Block.relocate_of_getElem? hs, Block.length_relocate hsource htarget]
  rw [move, done.edited]
  simp only [hlength, Nat.not_le.mpr hsource, Nat.not_le.mpr htarget, if_false]
  rw [hq, modifyBlock_undo hblock (Block.relocate_relocate hsource htarget)]

/-- In a program with distinct tags, what has been moved can be moved back. The transfer the other
way round is accepted, wherever the two blocks stand to each other, and so is the move; the program
is then what it was, with its tags, its order and its bookkeeping. -/
theorem moves_undone (distinct : (p.nodes.map Statement.tag).Nodup) :
    (∀ source sourceIndex target targetIndex q, source ≠ target →
      p.transfer source sourceIndex target targetIndex = .ok q →
        q.transfer target targetIndex source sourceIndex = .ok p) ∧
    ∀ place source target q, p.move place source target = .ok q →
      q.move place target source = .ok p :=
  ⟨fun _ _ _ _ _ hne h => transfer_transfer distinct hne h,
    fun _ _ _ _ h => move_move distinct h⟩

/-- A compound statement is taken out of the block of a loop, put after the loop and then moved in
front of it; both is undone. -/
theorem moves_undone_loop :
    let halt : Statement Nat := .simple { id := "halt", tag := 3 }
    let test : Statement Nat := .compound { id := "if", tag := 2 } [halt]
    let wait : Statement Nat := .simple { id := "wait", tag := 1 }
    let loop (block : Block Nat) : Statement Nat := .compound { id := "while", tag := 0 } block
    let p : Program := { block := [loop [test, wait]], skeletons := [3], next := 4 }
    let q : Program := { block := [loop [wait], test], skeletons := [3], next := 4 }
    let r : Program := { block := [test, loop [wait]], skeletons := [3], next := 4 }
    (p.nodes.map Statement.tag).Nodup ∧ (q.nodes.map Statement.tag).Nodup ∧
      p.transfer (.inside 0) 0 .root 1 = .ok q ∧ q.transfer .root 1 (.inside 0) 0 = .ok p ∧
      q.move .root 1 0 = .ok r ∧ r.move .root 0 1 = .ok q := by
  intro halt test wait loop p q r
  have distinct : (p.nodes.map Statement.tag).Nodup := by decide
  have qdistinct : (q.nodes.map Statement.tag).Nodup := by decide
  have there : p.transfer (.inside 0) 0 .root 1 = .ok q := rfl
  have up : q.move .root 1 0 = .ok r := rfl
  exact ⟨distinct, qdistinct, there,
    (moves_undone distinct).1 _ _ _ _ _ (by decide) there, up,
    (moves_undone qdistinct).2 _ _ _ _ up⟩

end Program

end BlockScript
