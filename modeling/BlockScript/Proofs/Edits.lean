import BlockScript.Document.Draft
import BlockScript.Proofs.Replaced

/-! Runs of edits, and what each edit of a program does to its blocks. -/

namespace BlockScript

/-- The edits of a program. What a program takes in may carry tags already, as a removed statement
does. -/
inductive Edit : Type 1 where
  | add {ι : Type} (place : Address) (template : Statement ι)
  | insert {ι : Type} (place : Address) (index : Nat) (template : Statement ι)
  | remove (place : Address) (index : Nat)
  | move (place : Address) (source target : Nat)
  | transfer (source : Address) (sourceIndex : Nat) (target : Address) (targetIndex : Nat)
  | setArgument {ι : Type} (tag index : Nat) (argument : Argument ι)
  | retype (tag index : Nat) (type : ValueType)
  | expressions (tag index : Nat) (edit : ExpressionEdit)
  | addVariable (name : String) (type : ValueType) (value : Json)
  | removeVariable (name : String)
  | addProcedure {ι : Type} (id : String) (body : Block ι)
  | removeProcedure (id : String)
  | markInitialized (tag : Nat) (procedure : String)
  | markSkeleton (tag : Nat)

/-- The edited program, if the edit is not refused. -/
def Edit.run? (p : Program) : Edit → Option Program
  | add place template => (p.add place template).toOption
  | insert place index template => (p.insert place index template).toOption
  | remove place index => (p.remove place index).toOption.map Prod.snd
  | move place source target => (p.move place source target).toOption
  | transfer source sourceIndex target targetIndex =>
    (p.transfer source sourceIndex target targetIndex).toOption
  | setArgument tag index argument => p.setArgument? tag index argument
  | retype tag index type => p.retype? tag index type
  | expressions tag index edit => p.editExpressions? tag index edit
  | addVariable name type value => (p.addVariable name type value).toOption
  | removeVariable name => some (p.removeVariable name)
  | addProcedure id body => (p.addProcedure id body).toOption
  | removeProcedure id => some (p.removeProcedure id)
  | markInitialized tag procedure => some (p.markInitialized tag procedure)
  | markSkeleton tag => some (p.markSkeleton tag)

/-- The program after an edit; a refused edit changes nothing. -/
def Edit.run (p : Program) (edit : Edit) : Program := (edit.run? p).getD p

namespace Program

/-- The program after a run of edits. -/
def after (p : Program) (edits : List Edit) : Program := edits.foldl Edit.run p

/-- The programs that a run starts from: an empty one, or one read from a text. -/
inductive Initial : Program → Prop
  | new (next : Nat) : Initial { next }
  | loaded {text : String} {draft : Draft} (next : Nat) :
      Draft.read text = .ok draft → Initial (ofDraft draft next)

@[simp] theorem after_nil (p : Program) : p.after [] = p := rfl

@[simp] theorem after_cons (p : Program) (edit : Edit) (edits : List Edit) :
    p.after (edit :: edits) = (edit.run p).after edits := rfl

theorem after_append (p : Program) (first second : List Edit) :
    p.after (first ++ second) = (p.after first).after second := by
  simp [after]

end Program

theorem Except.toOption_eq_some_iff {ε α : Type} {x : Except ε α} {a : α} :
    x.toOption = some a ↔ x = .ok a := by
  cases x <;> simp [Except.toOption]

/-! ### Blocks -/

/-- The head with one of its arguments replaced. -/
def Head.put {ι : Type} (index : Nat) (argument : Argument ι) (h : Head ι) : Head ι :=
  { h with arguments := h.arguments.map (·.set index argument) }

theorem Block.Replaced.eq {ι : Type} {same block block' : Block ι}
    (h : Replaced same same block block') : block' = block := by
  induction h with
  | here => rfl
  | beside before after _ ih => rw [ih]
  | inside head _ ih => rw [ih]

namespace Program

variable {ι : Type} {p q : Program} {place : Address} {index tag : Nat}

/-- Replacing a list by itself changes nothing. -/
theorem Replaced.eq {same : Block Nat} (h : Replaced same same p q) : q = p := by
  obtain ⟨before, block, block', after, hp, hq, hr⟩ := h.blocks
  rw [hr.eq, ← hp] at hq
  obtain ⟨hblock, hvalues⟩ := List.cons.inj hq
  have hentries : q.procedures.entries = p.procedures.entries :=
    calc q.procedures.entries
        = q.procedures.keys.zip q.procedures.values := List.zip_of_prod rfl rfl
      _ = p.procedures.keys.zip p.procedures.values := by rw [h.keys, hvalues]
      _ = p.procedures.entries := (List.zip_of_prod rfl rfl).symm
  cases p
  cases q
  simp only [Program.mk.injEq]
  exact ⟨h.variables, Table.ext hentries, h.skeletons, h.initialized, hblock, h.next⟩

/-- Where there is no block, an edit of it does nothing. -/
theorem modifyBlock_of_block?_eq_none (h : p.block? place = none) (f : Block Nat → Block Nat) :
    p.modifyBlock place f = p := by
  cases place with
  | root => cases h
  | procedure id =>
    have hget : p.procedures.get? id = none := h
    simp only [modifyBlock, hget]
  | inside tag =>
    cases hq : p.update? tag (Statement.mapBlock f) with
    | none => simp [modifyBlock, hq]
    | some q =>
      obtain ⟨s, hs, hr⟩ := replaced_of_update? hq
      simp only [modifyBlock, hq, Option.getD_some]
      cases s with
      | simple head => exact hr.eq
      | compound head block => simp [block?, hs, Statement.block?] at h

@[simp] theorem next_modifyBlock (p : Program) (place : Address) (f : Block Nat → Block Nat) :
    (p.modifyBlock place f).next = p.next := by
  cases h : p.block? place with
  | none => rw [modifyBlock_of_block?_eq_none h]
  | some block => exact (replaced_of_modifyBlock h f).next

theorem replaced_of_insert {template : Statement ι} (h : p.insert place index template = .ok q) :
    ∃ block r, p.block? place = some block ∧ index ≤ block.length ∧
      Replaced block (block.insertIdx index (template.stamp p.next)) p r ∧
      q = { r with next := p.next + template.count } := by
  unfold insert at h
  split at h
  · cases h
  · rename_i block hblock
    split at h
    · rename_i hindex
      obtain rfl := Except.ok.inj h
      exact ⟨block, _, hblock, hindex, replaced_of_modifyBlock hblock _, rfl⟩
    · cases h

theorem insert_of_add {template : Statement ι} (h : p.add place template = .ok q) :
    ∃ index, p.insert place index template = .ok q := by
  unfold add at h
  split at h
  · cases h
  · rename_i block hblock
    exact ⟨block.length, h⟩

theorem replaced_of_remove {removed : Statement Nat} (h : p.remove place index = .ok (removed, q)) :
    ∃ block r, p.block? place = some block ∧ block[index]? = some removed ∧
      Replaced block (block.eraseIdx index) p r ∧ q = r.forget removed.subtree := by
  unfold remove at h
  split at h
  · cases h
  · rename_i block hblock
    split at h
    · rename_i s hs
      obtain ⟨rfl, rfl⟩ := Prod.mk.inj (Except.ok.inj h)
      have hr := replaced_of_modifyBlock hblock (·.eraseIdx index)
      exact ⟨block, _, hblock, hs, hr, rfl⟩
    · cases h

theorem replaced_of_move {source target : Nat} (h : p.move place source target = .ok q) :
    ∃ block s, p.block? place = some block ∧ block[source]? = some s ∧ target < block.length ∧
      Replaced block ((block.eraseIdx source).insertIdx target s) p q := by
  unfold move at h
  split at h
  · cases h
  · rename_i block hblock
    split at h
    · cases h
    · rename_i hsource
      split at h
      · cases h
      · rename_i htarget
        obtain rfl := Except.ok.inj h
        have hs : block[source]? = some block[source] := List.getElem?_eq_getElem (by omega)
        refine ⟨block, block[source], hblock, hs, by omega, ?_⟩
        have hr := replaced_of_modifyBlock hblock (Block.relocate source target)
        rwa [Block.relocate, hs] at hr

theorem replaced_of_transfer {source target : Address} {sourceIndex targetIndex : Nat}
    (hne : source ≠ target) (h : p.transfer source sourceIndex target targetIndex = .ok q) :
    ∃ block moved r, p.block? source = some block ∧ block[sourceIndex]? = some moved ∧
      Replaced block (block.eraseIdx sourceIndex) p r ∧
      q = r.modifyBlock target (·.insertIdx targetIndex moved) := by
  rw [transfer, if_neg hne] at h
  split at h
  · cases h
  · rename_i block hblock
    split at h
    · cases h
    · rename_i moved hmoved
      split at h
      · cases h
      · split at h
        · cases h
        · split at h
          · obtain rfl := Except.ok.inj h
            have hr := replaced_of_modifyBlock hblock (·.eraseIdx sourceIndex)
            exact ⟨block, moved, _, hblock, hmoved, hr, rfl⟩
          · cases h

/-! ### Arguments -/

theorem replaced_of_putArgument? {argument : Argument Nat}
    (h : p.putArgument? tag index argument = some q) :
    ∃ s old, p.find? tag = some s ∧ s.arguments[index]? = some old ∧
      Replaced [s] [s.mapHead (.put index argument)] p q := by
  obtain ⟨old, hold, h⟩ := Option.bind_eq_some_iff.mp h
  obtain ⟨s, hs, hold⟩ := Option.bind_eq_some_iff.mp hold
  obtain ⟨s', hs', hr⟩ := replaced_of_update? h
  obtain rfl := Option.some.inj (hs.symm.trans hs')
  exact ⟨s, old, hs, hold, hr⟩

theorem putArgument?_of_setArgument? {argument : Argument ι}
    (h : p.setArgument? tag index argument = some q) :
    ∃ r, p.putArgument? tag index (argument.stamp p.next) = some r ∧
      q = { r with next := p.next + argument.count } := by
  obtain ⟨r, hr, h⟩ := Option.bind_eq_some_iff.mp h
  exact ⟨r, hr, (Option.some.inj h).symm⟩

theorem putArgument?_of_editExpressions? {edit : ExpressionEdit}
    (h : p.editExpressions? tag index edit = some q) :
    ∃ type list list' next r, p.argument? tag index = some (.expressions type list) ∧
      edit.run? list p.next = some (list', next) ∧
      p.putArgument? tag index (.expressions type list') = some r ∧ q = { r with next } := by
  obtain ⟨argument, harg, h⟩ := Option.bind_eq_some_iff.mp h
  obtain ⟨list, hlist, h⟩ := Option.bind_eq_some_iff.mp h
  obtain ⟨⟨list', next⟩, hrun, h⟩ := Option.bind_eq_some_iff.mp h
  obtain ⟨r, hr, hq⟩ := Option.bind_eq_some_iff.mp h
  cases argument with
  | literal => cases hlist
  | expressions type =>
    obtain rfl := Option.some.inj hlist
    exact ⟨type, _, list', next, r, harg, hrun, hr, (Option.some.inj hq).symm⟩

/-! ### Variables and procedures -/

theorem addVariable_eq {name : String} {type : ValueType} {value : Json}
    (h : p.addVariable name type value = .ok q) :
    q = { p with «variables» := p.variables.insert name ⟨type, value⟩ } := by
  unfold addVariable at h
  split at h
  · cases h
  · split at h
    · cases h
    · split at h
      · cases h
      · split at h
        · cases h
        · exact (Except.ok.inj h).symm

theorem blocks_addProcedure {id : String} {body : Block ι}
    (h : p.addProcedure id body = .ok q) :
    q = p.putProcedure id body ∧ q.blocks = p.blocks ++ [Statement.stampEach p.next body] := by
  unfold addProcedure at h
  split at h
  · cases h
  · rename_i hid
    obtain rfl := Except.ok.inj h
    have habsent : id ∉ p.procedures.keys := fun hm => hid (Table.contains_iff.mpr hm)
    refine ⟨rfl, ?_⟩
    simp [blocks, putProcedure, Table.values, Table.entries_insert_of_not_mem _ habsent]

@[simp] theorem variables_removeProcedure (p : Program) (id : String) :
    (p.removeProcedure id).«variables» = p.variables := by
  rw [removeProcedure]
  split <;> rfl

theorem blocks_removeProcedure_sublist (p : Program) (id : String) :
    (p.removeProcedure id).blocks.Sublist p.blocks := by
  rw [removeProcedure]
  split
  · exact .refl _
  · exact (List.filter_sublist.map _).cons_cons _

end Program

end BlockScript
