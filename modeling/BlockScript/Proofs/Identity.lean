import BlockScript.Proofs.Reading
import BlockScript.Proofs.Tags

/-! Identity in a program: its tags are distinct at every moment of a run, and a tag that is gone
does not come back. Every edit takes the tags of what it adds from the supply of the program, and
keeps or drops all others. -/

namespace BlockScript

namespace Program

open Statement

variable {ι : Type} {p q r : Program}

/-- The tags of all statements, expressions and operands of a program. -/
def tags (p : Program) : List Nat := p.blocks.flatMap tagsEach

/-- From one program to another, no tag comes to occur more often, except that each one issued on
the way may occur once more. -/
structure Evolves (p q : Program) : Prop where
  next : p.next ≤ q.next
  tags : ∀ tag, q.tags.count tag ≤ p.tags.count tag + (issued p.next q.next).count tag

/-- The tags of a program are distinct, and its supply is above them. -/
structure Identified (p : Program) : Prop where
  nodup : p.tags.Nodup
  below : ∀ tag ∈ p.tags, tag < p.next

namespace Evolves

/-- With nothing issued, tags are only dropped. -/
theorem of_le (next : q.next = p.next) (h : ∀ tag, q.tags.count tag ≤ p.tags.count tag) :
    p.Evolves q :=
  ⟨Nat.le_of_eq next.symm, fun tag => Nat.le_trans (h tag) (Nat.le_add_right ..)⟩

theorem refl (p : Program) : p.Evolves p := of_le rfl fun _ => Nat.le_refl _

theorem trans (h : p.Evolves q) (h' : q.Evolves r) : p.Evolves r where
  next := Nat.le_trans h.next h'.next
  tags tag := by
    have hpq := h.tags tag
    have hqr := h'.tags tag
    rw [← issued_append h.next h'.next, List.count_append]
    omega

theorem mem_tags (h : p.Evolves q) {tag : Nat} (hm : tag ∈ q.tags) :
    tag ∈ p.tags ∨ tag ∈ issued p.next q.next := by
  have hcount := h.tags tag
  simp only [← List.count_pos_iff] at hm ⊢
  omega

theorem identified (h : p.Evolves q) (hp : p.Identified) : q.Identified where
  nodup := by
    rw [List.nodup_iff_count]
    intro tag
    have hcount := h.tags tag
    have hold := List.nodup_iff_count.mp hp.nodup tag
    have hnew := List.nodup_iff_count.mp (nodup_issued p.next q.next) tag
    -- a tag of `p` is below what is issued, so it is not issued again
    by_cases hm : tag ∈ p.tags
    · have hlt := hp.below tag hm
      have : (issued p.next q.next).count tag = 0 :=
        List.count_eq_zero.mpr fun hi => by
          have := mem_issued.mp hi
          omega
      omega
    · have : p.tags.count tag = 0 := List.count_eq_zero.mpr hm
      omega
  below tag hm := by
    have hnext := h.next
    rcases h.mem_tags hm with hold | hnew
    · have := hp.below tag hold
      omega
    · exact (mem_issued.mp hnew).2

/-- What is gone is not issued again. -/
theorem not_mem_tags (h : q.Evolves r) {tag : Nat} (hlt : tag < q.next) (gone : tag ∉ q.tags) :
    tag ∉ r.tags := by
  intro hm
  rcases h.mem_tags hm with hold | hnew
  · exact gone hold
  · have := mem_issued.mp hnew
    omega

end Evolves

theorem Replaced.count_tags {old new : Block Nat} (h : Replaced old new p q) (tag : Nat) :
    q.tags.count tag + (tagsEach old).count tag = p.tags.count tag + (tagsEach new).count tag := by
  obtain ⟨before, block, block', after, hp, hq, hr⟩ := h.blocks
  obtain ⟨b, a, hb, hb'⟩ := hr.tags
  simp only [Program.tags, hp, hq, List.flatMap_append, List.flatMap_cons, List.count_append, hb,
    hb']
  omega

/-- Replacing a list evolves a program if the new list has the tags of the old one and issued
ones. -/
theorem Replaced.evolves {old new : Block Nat} (h : Replaced old new p r) {next : Nat}
    (hn : p.next ≤ next) (hc : ∀ tag, (tagsEach new).count tag ≤
      (tagsEach old).count tag + (issued p.next next).count tag) :
    p.Evolves { r with next } where
  next := hn
  tags tag := by
    show r.tags.count tag ≤ p.tags.count tag + (issued p.next next).count tag
    have hr := h.count_tags tag
    have := hc tag
    omega

/-! ### Edits -/

theorem evolves_insert {place : Address} {index : Nat} {template : Statement ι}
    (h : p.insert place index template = .ok q) : p.Evolves q := by
  obtain ⟨block, r, -, hindex, hr, rfl⟩ := replaced_of_insert h
  refine hr.evolves (Nat.le_add_right ..) fun tag => ?_
  rw [count_tagsEach_insertIdx hindex, tags_stamp, issued_add]

theorem evolves_remove {place : Address} {index : Nat} {removed : Statement Nat}
    (h : p.remove place index = .ok (removed, q)) : p.Evolves q := by
  obtain ⟨block, r, -, hs, hr, rfl⟩ := replaced_of_remove h
  refine .of_le hr.next fun tag => ?_
  show r.tags.count tag ≤ p.tags.count tag
  have hrest := count_tagsEach_eraseIdx hs tag
  have := hr.count_tags tag
  omega

theorem evolves_move {place : Address} {source target : Nat}
    (h : p.move place source target = .ok q) : p.Evolves q := by
  obtain ⟨block, s, -, hs, htarget, hr⟩ := replaced_of_move h
  refine .of_le hr.next fun tag => ?_
  have hlt := (List.getElem?_eq_some_iff.mp hs).1
  have hrest := count_tagsEach_eraseIdx hs tag
  have hlen : target ≤ (block.eraseIdx source).length := by
    rw [List.length_eraseIdx_of_lt hlt]
    omega
  have hput := count_tagsEach_insertIdx hlen s tag
  have := hr.count_tags tag
  omega

/-- A statement put into a block brings its own tags. -/
theorem count_tags_modifyBlock_insertIdx_le (p : Program) (place : Address) (index : Nat)
    (s : Statement Nat) (tag : Nat) :
    (p.modifyBlock place (·.insertIdx index s)).tags.count tag ≤
      p.tags.count tag + s.tags.count tag := by
  cases hblock : p.block? place with
  | none =>
    rw [modifyBlock_of_block?_eq_none hblock]
    exact Nat.le_add_right ..
  | some block =>
    have hr := (replaced_of_modifyBlock hblock (·.insertIdx index s)).count_tags tag
    have := count_tagsEach_insertIdx_le block index s tag
    omega

theorem evolves_transfer {source target : Address} {sourceIndex targetIndex : Nat}
    (h : p.transfer source sourceIndex target targetIndex = .ok q) : p.Evolves q := by
  by_cases hsame : source = target
  · rw [transfer, if_pos hsame] at h
    exact evolves_move h
  · obtain ⟨block, moved, r, -, hmoved, hr, rfl⟩ := replaced_of_transfer hsame h
    refine .of_le ?_ fun tag => ?_
    · rw [next_modifyBlock, hr.next]
    · have hrest := count_tagsEach_eraseIdx hmoved tag
      have hcut := hr.count_tags tag
      have hput := count_tags_modifyBlock_insertIdx_le r target targetIndex moved tag
      omega

/-- Replacing an argument evolves a program if the new argument has the tags of the old one and
issued ones. -/
theorem evolves_putArgument {tag index next : Nat} {argument : Argument Nat}
    (h : p.putArgument? tag index argument = some r) (hn : p.next ≤ next)
    (hc : ∀ old, p.argument? tag index = some old → ∀ t, argument.tags.count t ≤
      old.tags.count t + (issued p.next next).count t) : p.Evolves { r with next } := by
  obtain ⟨s, old, hs, hold, hr⟩ := replaced_of_putArgument? h
  refine hr.evolves hn fun t => ?_
  have hput : (s.mapHead (.put index argument)).tags.count t + old.tags.count t =
      s.tags.count t + argument.tags.count t := count_tags_put hold t
  have := hc old (by simp [argument?, hs, hold]) t
  simp only [tagsEach, List.append_nil]
  omega

theorem evolves_setArgument {tag index : Nat} {argument : Argument ι}
    (h : p.setArgument? tag index argument = some q) : p.Evolves q := by
  obtain ⟨r, hr, rfl⟩ := putArgument?_of_setArgument? h
  refine evolves_putArgument hr (Nat.le_add_right ..) fun old _ t => ?_
  rw [Argument.tags_stamp, issued_add]
  exact Nat.le_add_left ..

theorem evolves_retype {tag index : Nat} {type : ValueType}
    (h : p.retype? tag index type = some q) : p.Evolves q := by
  have hnext : q.next = p.next := by
    obtain ⟨s, old, -, -, hr⟩ := replaced_of_putArgument? h
    exact hr.next
  have hq : { q with next := p.next } = q := by rw [← hnext]
  rw [← hq]
  refine evolves_putArgument h (Nat.le_refl _) fun old _ t => ?_
  have hunset : (Argument.unset type : Argument Nat).tags = [] := by cases type <;> rfl
  rw [hunset]
  exact Nat.zero_le _

theorem evolves_editExpressions {tag index : Nat} {edit : ExpressionEdit}
    (h : p.editExpressions? tag index edit = some q) : p.Evolves q := by
  obtain ⟨type, list, list', next, r, hlist, hrun, hr, rfl⟩ := putArgument?_of_editExpressions? h
  have hcount := ExpressionList.count_tags_of_run? hrun
  refine evolves_putArgument hr (hcount 0).1 fun old hold t => ?_
  obtain rfl := Option.some.inj (hlist.symm.trans hold)
  exact (hcount t).2

theorem evolves_addProcedure {id : String} {body : Block ι}
    (h : p.addProcedure id body = .ok q) : p.Evolves q := by
  obtain ⟨rfl, hblocks⟩ := blocks_addProcedure h
  refine ⟨Nat.le_add_right .., fun tag => Nat.le_of_eq ?_⟩
  have hnext : (p.putProcedure id body).next = p.next + countEach body := rfl
  rw [tags, hblocks, List.flatMap_append, List.count_append, hnext, issued_add, tags]
  simp [tagsEach_stampEach]

theorem evolves_removeProcedure (p : Program) (id : String) :
    p.Evolves (p.removeProcedure id) := by
  refine .of_le ?_ fun tag => ?_
  · rw [removeProcedure]
    split <;> rfl
  · exact ((blocks_removeProcedure_sublist p id).flatMap tagsEach).count_le tag

theorem evolves_run? {edit : Edit} (h : edit.run? p = some q) : p.Evolves q := by
  cases edit with
  | add place template =>
    obtain ⟨index, hi⟩ := insert_of_add (Except.toOption_eq_some_iff.mp h)
    exact evolves_insert hi
  | insert => exact evolves_insert (Except.toOption_eq_some_iff.mp h)
  | remove =>
    obtain ⟨⟨s, r⟩, hr, rfl⟩ := Option.map_eq_some_iff.mp h
    exact evolves_remove (Except.toOption_eq_some_iff.mp hr)
  | move => exact evolves_move (Except.toOption_eq_some_iff.mp h)
  | transfer => exact evolves_transfer (Except.toOption_eq_some_iff.mp h)
  | setArgument => exact evolves_setArgument h
  | retype => exact evolves_retype h
  | expressions => exact evolves_editExpressions h
  | addVariable =>
    obtain rfl := addVariable_eq (Except.toOption_eq_some_iff.mp h)
    exact .of_le rfl fun _ => Nat.le_refl _
  | addProcedure => exact evolves_addProcedure (Except.toOption_eq_some_iff.mp h)
  | removeProcedure id =>
    obtain rfl := Option.some.inj h
    exact evolves_removeProcedure p id
  | removeVariable | markInitialized | markSkeleton =>
    obtain rfl := Option.some.inj h
    exact .of_le rfl fun _ => Nat.le_refl _

/-! ### Runs -/

theorem evolves_run (p : Program) (edit : Edit) : p.Evolves (edit.run p) := by
  rw [Edit.run]
  cases h : edit.run? p with
  | none => exact .refl p
  | some q => exact evolves_run? h

theorem evolves_after (p : Program) (edits : List Edit) : p.Evolves (p.after edits) := by
  induction edits generalizing p with
  | nil => exact .refl p
  | cons edit rest ih =>
    rw [after_cons]
    exact (evolves_run p edit).trans (ih (edit.run p))

/-- A document's program has the tags that are issued for it. -/
theorem tags_ofDraft (d : Draft) (next : Nat) :
    (ofDraft d next).tags = issued next (ofDraft d next).next := by
  have hnext : (ofDraft d next).next =
      next + (countEach d.block + countBodies d.procedures.entries) := Nat.add_assoc ..
  rw [hnext, issued_add, ← List.range'_append_1, tags, blocks, List.flatMap_cons, ofDraft]
  simp only [tagsEach_stampEach, Table.values, flatMap_tagsEach_stampBodies]

theorem identified_ofDraft (draft : Draft) (next : Nat) : (ofDraft draft next).Identified := by
  refine ⟨?_, fun tag hm => ?_⟩
  · rw [tags_ofDraft]
    exact nodup_issued ..
  · rw [tags_ofDraft] at hm
    exact (mem_issued.mp hm).2

theorem Initial.identified (h : p.Initial) : p.Identified := by
  cases h with
  | new next => exact ⟨.nil, by simp [tags, blocks, tagsEach]⟩
  | loaded next _ => exact identified_ofDraft _ next

/-- In every run the tags of all statements, expressions and operands are distinct, and a tag that
has left the program is in it never again. -/
theorem nodup_tags_after {start : Program} (h : start.Initial) (first second third : List Edit) :
    (start.after first).tags.Nodup ∧
      ∀ tag ∈ (start.after first).tags, tag ∉ (start.after (first ++ second)).tags →
        tag ∉ (start.after (first ++ second ++ third)).tags := by
  have hfirst : (start.after first).Identified :=
    (evolves_after start first).identified h.identified
  refine ⟨hfirst.nodup, fun tag hm gone => ?_⟩
  have hsecond := evolves_after (start.after first) second
  have hthird := evolves_after (start.after (first ++ second)) third
  rw [← after_append] at hsecond hthird
  have hlt := hfirst.below tag hm
  exact hthird.not_mem_tags (Nat.lt_of_lt_of_le hlt hsecond.next) gone

/-- A template added twice, the first copy removed and put back in: its old tag stays unused. -/
theorem tags_after_return :
    let halt : Template := .simple { id := "halt", tag := () }
    let removed : Statement Nat := .simple { id := "halt", tag := 0 }
    let first : List Edit := [.add .root halt, .add .root halt]
    let second : List Edit := [.remove .root 0]
    let third : List Edit := [.insert .root 1 removed]
    (after {} first).tags = [0, 1] ∧ (after {} (first ++ second ++ third)).tags = [1, 2] ∧
      (after {} first).tags.Nodup ∧ 0 ∉ (after {} (first ++ second ++ third)).tags := by
  intro halt removed first second third
  have h := nodup_tags_after (.new 0) first second third
  exact ⟨by decide, by decide, h.1, h.2 0 (by decide) (by decide)⟩

end Program

end BlockScript
