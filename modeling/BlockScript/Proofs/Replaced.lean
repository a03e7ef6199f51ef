import BlockScript.Expression.Edit
import BlockScript.Program.Edit
import BlockScript.Proofs.WellFormed
import Mathlib.Data.List.TakeWhile

/-! What an edit replaces. Every edit of an expression list or of a program puts one list in the
place of another, somewhere in the tree, and leaves all around it alone; `Replaced` says so, and
what an edit keeps follows from what the two lists have in common. -/

namespace BlockScript

/-! ### Expressions -/

/-- The second list is the first one with `old`, which stands in it at some depth, replaced by
`new`. -/
inductive ExpressionList.Replaced {ι : Type} (old new : ExpressionList ι) :
    ExpressionList ι → ExpressionList ι → Prop
  | here : Replaced old new old new
  | beside {list list' : ExpressionList ι} (before after : ExpressionList ι) :
      Replaced old new list list' →
        Replaced old new (before ++ list ++ after) (before ++ list' ++ after)
  | inside {list list' : ExpressionList ι} (tag : ι) (operator : String) :
      Replaced old new list list' →
        Replaced old new [.group tag operator list] [.group tag operator list']

namespace Expression

variable {ι : Type}

/-- The children of a group; nothing else has any. -/
def children : Expression ι → List (Expression ι)
  | group _ _ children => children
  | _ => []

@[simp] theorem tagsEach_append (as bs : List (Expression ι)) :
    tagsEach (as ++ bs) = tagsEach as ++ tagsEach bs := by
  induction as with
  | nil => rfl
  | cons a as ih => simp [tagsEach, ih]

end Expression

namespace ExpressionList

open Expression

variable {ι : Type} {old new list list' : ExpressionList ι}

namespace Replaced

theorem cons (h : Replaced old new list list') (e : Expression ι) :
    Replaced old new (e :: list) (e :: list') := by
  simpa using h.beside [e] []

theorem head {e e' : Expression ι} (h : Replaced old new [e] [e']) (rest : ExpressionList ι) :
    Replaced old new (e :: rest) (e' :: rest) := by
  simpa using h.beside [] rest

/-- The tags around those of the replaced list stay, in their order. -/
theorem tags (h : Replaced old new list list') : ∃ before after,
    tagsEach list = before ++ tagsEach old ++ after ∧
      tagsEach list' = before ++ tagsEach new ++ after := by
  induction h with
  | here => exact ⟨[], [], by simp, by simp⟩
  | beside before after _ ih =>
    obtain ⟨b, a, hl, hl'⟩ := ih
    exact ⟨tagsEach before ++ b, a ++ tagsEach after, by simp [hl], by simp [hl']⟩
  | inside tag operator _ ih =>
    obtain ⟨b, a, hl, hl'⟩ := ih
    exact ⟨tag :: b, a, by simp [tagsEach, Expression.tags, hl],
      by simp [tagsEach, Expression.tags, hl']⟩

theorem wellFormed_old (h : Replaced old new list list') (wf : WellFormedEach list) :
    WellFormedEach old := by
  induction h with
  | here => exact wf
  | beside before after _ ih =>
    simp only [wellFormedEach_append] at wf
    exact ih wf.1.2
  | inside tag operator _ ih => exact ih wf.1

theorem wellFormed (h : Replaced old new list list') (wf : WellFormedEach list)
    (hnew : WellFormedEach new) : WellFormedEach list' := by
  induction h with
  | here => exact hnew
  | beside before after _ ih =>
    simp only [wellFormedEach_append] at wf ⊢
    exact ⟨⟨wf.1.1, ih wf.1.2⟩, wf.2⟩
  | inside tag operator _ ih => exact ⟨ih wf.1, trivial⟩

/-- Replacing within the replaced list is replacing within the whole. -/
theorem trans {inner inner' : ExpressionList ι} (h : Replaced old new list list')
    (hi : Replaced inner inner' old new) : Replaced inner inner' list list' := by
  induction h with
  | here => exact hi
  | beside before after _ ih => exact ih.beside before after
  | inside tag operator _ ih => exact ih.inside tag operator

end Replaced

end ExpressionList

namespace Expression

variable {tag : Nat} {f : Expression Nat → Expression Nat}

mutual

theorem update?_eq_none_iff :
    (e : Expression Nat) → (e.update? tag f = none ↔ e.nodes.find? (·.tag == tag) = none)
  | leaf t _ _ _ => by by_cases h : t = tag <;> simp [update?, nodes, h]
  | group t _ children => by
    by_cases h : t = tag
    · simp [update?, nodes, h]
    · simp [update?, nodes, h, updateEach?_eq_none_iff children]
  | operand o => by by_cases h : o.tag = tag <;> simp [update?, nodes, h]

theorem updateEach?_eq_none_iff : (list : ExpressionList Nat) →
    (updateEach? tag f list = none ↔ (nodesEach list).find? (·.tag == tag) = none)
  | [] => by simp [updateEach?, nodesEach]
  | e :: rest => by
    have he := update?_eq_none_iff e
    have hrest := updateEach?_eq_none_iff rest
    cases h : e.update? tag f with
    | none =>
      simp only [updateEach?, h, Option.map_eq_none_iff, hrest, nodesEach, List.find?_append,
        he.mp h, Option.none_or]
    | some e' =>
      have hsome : e.nodes.find? (·.tag == tag) ≠ none := fun hn => by simp [he.mpr hn] at h
      simp only [updateEach?, h, nodesEach, List.find?_append, Option.or_eq_none_iff, hsome,
        false_and, reduceCtorEq]

end

mutual

theorem replaced_of_update? : {e e' : Expression Nat} → e.update? tag f = some e' →
    ∃ n, e.nodes.find? (·.tag == tag) = some n ∧ ExpressionList.Replaced [n] [f n] [e] [e']
  | leaf t operator first second, e', h => by
    rw [update?] at h
    split at h
    · obtain rfl := Option.some.inj h
      exact ⟨leaf t operator first second, by simp [nodes, *], .here⟩
    · cases h
  | group t operator children, e', h => by
    rw [update?] at h
    split at h
    · obtain rfl := Option.some.inj h
      exact ⟨group t operator children, by simp [nodes, *], .here⟩
    · obtain ⟨new, hnew, rfl⟩ := Option.map_eq_some_iff.mp h
      obtain ⟨n, hn, hr⟩ := replaced_of_updateEach? hnew
      exact ⟨n, by simp [nodes, *], hr.inside t operator⟩
  | operand o, e', h => by
    rw [update?] at h
    split at h
    · obtain rfl := Option.some.inj h
      exact ⟨operand o, by simp [nodes, *], .here⟩
    · cases h

/-- An update replaces the node that a search finds. -/
theorem replaced_of_updateEach? : {list list' : ExpressionList Nat} →
    updateEach? tag f list = some list' →
      ∃ n, (nodesEach list).find? (·.tag == tag) = some n ∧
        ExpressionList.Replaced [n] [f n] list list'
  | e :: rest, list', h => by
    rw [updateEach?] at h
    split at h
    · rename_i e' he
      obtain rfl := Option.some.inj h
      obtain ⟨n, hn, hr⟩ := replaced_of_update? he
      exact ⟨n, by simp [nodesEach, List.find?_append, hn], hr.head rest⟩
    · rename_i he
      obtain ⟨new, hnew, rfl⟩ := Option.map_eq_some_iff.mp h
      obtain ⟨n, hn, hr⟩ := replaced_of_updateEach? hnew
      have hnone := (update?_eq_none_iff e).mp he
      exact ⟨n, by simp [nodesEach, List.find?_append, hn, hnone], hr.cons e⟩

end

mutual

theorem replaceSiblings?_eq_none_iff {new : ExpressionList Nat} :
    (e : Expression Nat) → (e.replaceSiblings? tag new = none ↔ e.siblings? tag = none)
  | leaf .. | operand _ => by simp [replaceSiblings?, siblings?]
  | group _ _ children => by
    by_cases h : anyTagged tag children = true
    · simp [replaceSiblings?, siblings?, h]
    · simp [replaceSiblings?, siblings?, h, replaceSiblingsEach?_eq_none_iff children]

theorem replaceSiblingsEach?_eq_none_iff {new : ExpressionList Nat} : (list : ExpressionList Nat) →
    (replaceSiblingsEach? tag new list = none ↔ siblingsEach? tag list = none)
  | [] => by simp [replaceSiblingsEach?, siblingsEach?]
  | e :: rest => by
    have he : e.replaceSiblings? tag new = none ↔ e.siblings? tag = none :=
      replaceSiblings?_eq_none_iff e
    have hrest : replaceSiblingsEach? tag new rest = none ↔ siblingsEach? tag rest = none :=
      replaceSiblingsEach?_eq_none_iff rest
    cases h : e.siblings? tag with
    | none => simp [replaceSiblingsEach?, siblingsEach?, h, he.mpr h, hrest]
    | some found =>
      have hsome : e.replaceSiblings? tag new ≠ none := fun hn => by simp [he.mp hn] at h
      obtain ⟨e', he'⟩ := Option.ne_none_iff_exists'.mp hsome
      simp [replaceSiblingsEach?, siblingsEach?, h, he']

end

mutual

theorem siblings?_eq : (e : Expression Nat) →
    e.siblings? tag = (e.nodes.find? fun n => anyTagged tag n.children).map children
  | leaf .. | operand _ => rfl
  | group t operator list => by
    by_cases h : anyTagged tag list = true
    · simp [siblings?, nodes, children, h]
    · simp [siblings?, nodes, children, h, siblingsEach?_eq list]

/-- A search for the siblings of a tag finds the children of the first group that has the tag among
them. -/
theorem siblingsEach?_eq : (list : List (Expression Nat)) → siblingsEach? tag list =
    ((nodesEach list).find? fun n => anyTagged tag n.children).map children
  | [] => rfl
  | e :: rest => by
    rw [siblingsEach?, siblings?_eq e, siblingsEach?_eq rest, nodesEach, List.find?_append]
    cases e.nodes.find? fun n => anyTagged tag n.children <;> simp

end

mutual

theorem exists_replaceSiblings? (new : List (Expression Nat)) : {e holder : Expression Nat} →
    e.nodes.find? (fun n => anyTagged tag n.children) = some holder →
    ∃ t operator old e', holder = group t operator old ∧ e.replaceSiblings? tag new = some e' ∧
      ExpressionList.Replaced [holder] [group t operator new] [e] [e']
  | group t operator list, holder, h => by
    rw [nodes, List.find?_cons] at h
    by_cases here : anyTagged tag list = true
    · simp only [children, here, Option.some.injEq] at h
      subst h
      exact ⟨t, operator, list, _, rfl, by simp [replaceSiblings?, here], .here⟩
    · simp only [children, here] at h
      obtain ⟨t', operator', old, list', rfl, hlist, hr⟩ := exists_replaceSiblingsEach? new h
      exact ⟨t', operator', old, _, rfl, by simp [replaceSiblings?, here, hlist],
        hr.inside t operator⟩

/-- The group that the search finds can be given other children. -/
theorem exists_replaceSiblingsEach? (new : List (Expression Nat)) :
    {list : List (Expression Nat)} → {holder : Expression Nat} →
    (nodesEach list).find? (fun n => anyTagged tag n.children) = some holder →
    ∃ t operator old list', holder = group t operator old ∧
      replaceSiblingsEach? tag new list = some list' ∧
      ExpressionList.Replaced [holder] [group t operator new] list list'
  | e :: rest, holder, h => by
    rw [nodesEach, List.find?_append, Option.or_eq_some_iff] at h
    rcases h with first | ⟨hnone, later⟩
    · obtain ⟨t, operator, old, e', rfl, he, hr⟩ := exists_replaceSiblings? new first
      exact ⟨t, operator, old, e' :: rest, rfl, by simp [replaceSiblingsEach?, he], hr.head rest⟩
    · obtain ⟨t, operator, old, rest', rfl, hrest, hr⟩ := exists_replaceSiblingsEach? new later
      have he : e.replaceSiblings? tag new = none := by
        rw [replaceSiblings?_eq_none_iff, siblings?_eq, hnone, Option.map_none]
      exact ⟨t, operator, old, e :: rest', rfl, by simp [replaceSiblingsEach?, he, hrest],
        hr.cons e⟩

end

theorem replaced_of_replaceSiblingsEach? {new list list' : ExpressionList Nat}
    (h : replaceSiblingsEach? tag new list = some list') :
    ∃ old, siblingsEach? tag list = some old ∧ ExpressionList.Replaced old new list list' := by
  cases hfound : (nodesEach list).find? fun n => anyTagged tag n.children with
  | none =>
    have hnone : siblingsEach? tag list = none := by
      rw [siblingsEach?_eq, hfound, Option.map_none]
    cases h.symm.trans ((replaceSiblingsEach?_eq_none_iff list).mpr hnone)
  | some holder =>
    obtain ⟨t, operator, old, _, rfl, hlist, hr⟩ := exists_replaceSiblingsEach? new hfound
    obtain rfl := Option.some.inj (hlist.symm.trans h)
    refine ⟨old, ?_, hr.trans (.inside t operator .here)⟩
    rw [siblingsEach?_eq, hfound, Option.map_some]
    rfl

end Expression

/-- An edit among siblings replaces those that a search finds. -/
theorem ExpressionList.replaced_of_editSiblings? {list list' : ExpressionList Nat} {tag : Nat}
    {edit : ExpressionList Nat → Option (ExpressionList Nat)}
    (h : editSiblings? list tag edit = some list') :
    ∃ old new, siblings? list tag = some old ∧ edit old = some new ∧
      Replaced old new list list' := by
  obtain ⟨old, ho, h⟩ := Option.bind_eq_some_iff.mp h
  obtain ⟨new, hn, h⟩ := Option.bind_eq_some_iff.mp h
  refine ⟨old, new, ho, hn, ?_⟩
  unfold siblings? at ho
  split at h
  · rename_i hany
    obtain rfl := Option.some.inj h
    rw [if_pos hany] at ho
    exact Option.some.inj ho ▸ .here
  · rename_i hany
    obtain ⟨old', ho', hr⟩ := Expression.replaced_of_replaceSiblingsEach? h
    rw [if_neg hany, ho'] at ho
    exact Option.some.inj ho ▸ hr

namespace ExpressionList

open Expression

variable {selected : List Nat} {operator : String} {tag fresh : Nat} {old new : ExpressionList Nat}

/-- A new group holds what was selected, not more than its operator takes, and all else stays beside
it. -/
theorem exists_of_groupSiblings? (h : groupSiblings? selected operator fresh old = some new) :
    let chosen := old.filter fun e => selected.contains e.tag
    (Operator.isUnary operator = true → chosen.length ≤ 1) ∧
      ∃ before after, new = before ++ group fresh operator chosen :: after ∧
        (before ++ (chosen ++ after)).Perm old := by
  rw [groupSiblings?] at h
  split at h
  · cases h
  · rename_i few
    obtain rfl := Option.some.inj h
    set isSelected : Expression Nat → Bool := fun e => selected.contains e.tag
    set before := old.takeWhile fun e => !isSelected e
    have hsplit : before ++ old.drop before.length = old :=
      List.prefix_iff_eq_append.mp (List.takeWhile_prefix _)
    -- the first selected one and all others come after what is taken
    have hbefore : before.filter isSelected = [] := by
      rw [List.filter_eq_nil_iff]
      intro e he
      simpa using List.mem_takeWhile_imp he
    have hchosen : old.filter isSelected = (old.drop before.length).filter isSelected :=
      calc old.filter isSelected
          = (before ++ old.drop before.length).filter isSelected := by rw [hsplit]
        _ = (old.drop before.length).filter isSelected := by
          rw [List.filter_append, hbefore, List.nil_append]
    refine ⟨fun unary => Nat.le_of_not_lt fun many => few ⟨unary, many⟩, before, _, rfl, ?_⟩
    rw [hchosen]
    have hrest := List.filter_append_perm isSelected (old.drop before.length)
    exact (hrest.append_left before).trans (.of_eq hsplit)

theorem perm_of_groupSiblings? (h : groupSiblings? selected operator fresh old = some new) :
    ∃ before chosen after, new = before ++ group fresh operator chosen :: after ∧
      (before ++ (chosen ++ after)).Perm old := by
  obtain ⟨-, before, after, hnew, hperm⟩ := exists_of_groupSiblings? h
  exact ⟨before, _, after, hnew, hperm⟩

/-- The first of the expressions themselves that has the tag. -/
def sibling? (list : ExpressionList Nat) (tag : Nat) : Option (Expression Nat) :=
  List.find? (fun e => e.tag == tag) list

theorem sibling?_eq (list : ExpressionList Nat) (tag : Nat) :
    list.sibling? tag = (list.drop (list.takeWhile fun e => e.tag != tag).length).head? := by
  have hdrop : list.takeWhile (fun e => e.tag != tag) ++
      list.drop (list.takeWhile fun e => e.tag != tag).length =
        list.takeWhile (fun e => e.tag != tag) ++ list.dropWhile fun e => e.tag != tag :=
    (List.prefix_iff_eq_append.mp (List.takeWhile_prefix _)).trans
      List.takeWhile_append_dropWhile.symm
  rw [List.append_cancel_left hdrop]
  exact List.find?_eq_head?_dropWhile_not ..

/-- What is dissolved is the first sibling with the tag. -/
theorem exists_of_ungroupSiblings? (h : ungroupSiblings? tag old = some new) :
    ∃ before t operator children after, old = before ++ group t operator children :: after ∧
      new = before ++ children ++ after ∧ old.sibling? tag = some (group t operator children) := by
  rw [ungroupSiblings?] at h
  split at h
  · rename_i t operator children after hdrop
    obtain rfl := Option.some.inj h
    have hfirst : old.sibling? tag = some (group t operator children) := by
      rw [sibling?_eq, hdrop, List.head?_cons]
    set before := old.takeWhile fun e => e.tag != tag
    have hsplit : before ++ old.drop before.length = old :=
      List.prefix_iff_eq_append.mp (List.takeWhile_prefix _)
    rw [hdrop] at hsplit
    exact ⟨before, t, operator, children, after, hsplit.symm, rfl, hfirst⟩
  · cases h

theorem eq_of_ungroupSiblings? (h : ungroupSiblings? tag old = some new) :
    ∃ before t operator children after, old = before ++ group t operator children :: after ∧
      new = before ++ children ++ after := by
  obtain ⟨before, t, operator, children, after, hold, hnew, -⟩ := exists_of_ungroupSiblings? h
  exact ⟨before, t, operator, children, after, hold, hnew⟩

end ExpressionList

open Expression ExpressionList in
/-- What an edit makes of the expressions that it replaces, and the next unused tag after it. -/
inductive ExpressionEdit.Makes (next : Nat) :
    ExpressionEdit → ExpressionList Nat → ExpressionList Nat → Nat → Prop
  | push (e : Expression Unit) (list : ExpressionList Nat) :
      Makes next (.push e) list (ExpressionList.push list e next) (next + e.count)
  | setOperator (tag : Nat) (operator : String) (e : Expression Nat) :
      Makes next (.setOperator tag operator) [e] [e.setOperator operator next] (next + 1)
  | group {selected : List Nat} {operator : String} {old new : ExpressionList Nat} :
      groupSiblings? selected operator next old = some new →
        Makes next (.group selected operator) old new (next + 1)
  | ungroup {tag : Nat} {old new : ExpressionList Nat} :
      ungroupSiblings? tag old = some new → Makes next (.ungroup tag) old new next
  | delete (tag : Nat) (old : ExpressionList Nat) :
      Makes next (.delete tag) old (old.eraseP fun e => e.tag == tag) next
  | restamp (tag : Nat) (e : Expression Nat) :
      Makes next (.restamp tag) [e] [e.stamp next] (next + e.count)
  | copy (tag : Nat) {list : ExpressionList Nat} {e : Expression Nat} :
      e ∈ nodesEach list →
        Makes next (.copy tag) list (ExpressionList.push list e next) (next + e.count)

theorem ExpressionEdit.makes_of_run? {edit : ExpressionEdit} {list list' : ExpressionList Nat}
    {next next' : Nat} (h : edit.run? list next = some (list', next')) :
    ∃ old new, edit.Makes next old new next' ∧ ExpressionList.Replaced old new list list' := by
  cases edit with
  | push e =>
    obtain ⟨rfl, rfl⟩ := Prod.mk.inj (Option.some.inj h)
    exact ⟨_, _, .push e list, .here⟩
  | setOperator tag operator =>
    obtain ⟨l, hl, he⟩ := Option.map_eq_some_iff.mp h
    obtain ⟨rfl, rfl⟩ := Prod.mk.inj he
    obtain ⟨e, -, hr⟩ := Expression.replaced_of_updateEach? hl
    exact ⟨_, _, .setOperator tag operator e, hr⟩
  | group selected operator =>
    obtain ⟨l, hl, he⟩ := Option.map_eq_some_iff.mp h
    obtain ⟨rfl, rfl⟩ := Prod.mk.inj he
    obtain ⟨first, -, hl⟩ := Option.bind_eq_some_iff.mp hl
    obtain ⟨old, new, -, hnew, hr⟩ := ExpressionList.replaced_of_editSiblings? hl
    exact ⟨old, new, .group hnew, hr⟩
  | ungroup tag =>
    obtain ⟨l, hl, he⟩ := Option.map_eq_some_iff.mp h
    obtain ⟨rfl, rfl⟩ := Prod.mk.inj he
    obtain ⟨old, new, -, hnew, hr⟩ := ExpressionList.replaced_of_editSiblings? hl
    exact ⟨old, new, .ungroup hnew, hr⟩
  | delete tag =>
    obtain ⟨l, hl, he⟩ := Option.map_eq_some_iff.mp h
    obtain ⟨rfl, rfl⟩ := Prod.mk.inj he
    obtain ⟨old, new, -, hnew, hr⟩ := ExpressionList.replaced_of_editSiblings? hl
    obtain rfl := Option.some.inj hnew
    exact ⟨old, _, .delete tag old, hr⟩
  | restamp tag =>
    obtain ⟨e, he, h⟩ := Option.bind_eq_some_iff.mp h
    obtain ⟨l, hl, heq⟩ := Option.bind_eq_some_iff.mp h
    obtain ⟨rfl, rfl⟩ := Prod.mk.inj (Option.some.inj heq)
    -- the node that is counted is the one that is stamped
    obtain ⟨e', he', hr⟩ := Expression.replaced_of_updateEach? hl
    obtain rfl := Option.some.inj (he.symm.trans he')
    exact ⟨_, _, .restamp tag e, hr⟩
  | copy tag =>
    obtain ⟨e, hfound, he⟩ := Option.map_eq_some_iff.mp h
    obtain ⟨rfl, rfl⟩ := Prod.mk.inj he
    exact ⟨_, _, .copy tag (List.mem_of_find?_eq_some hfound), .here⟩

/-! ### Statements -/

/-- The second block is the first one with `old`, which stands in it at some depth, replaced by
`new`. -/
inductive Block.Replaced {ι : Type} (old new : Block ι) : Block ι → Block ι → Prop
  | here : Replaced old new old new
  | beside {block block' : Block ι} (before after : Block ι) :
      Replaced old new block block' →
        Replaced old new (before ++ block ++ after) (before ++ block' ++ after)
  | inside {block block' : Block ι} (head : Head ι) :
      Replaced old new block block' →
        Replaced old new [.compound head block] [.compound head block']

namespace Statement

variable {ι : Type}

@[simp] theorem tagsEach_append (as bs : Block ι) :
    tagsEach (as ++ bs) = tagsEach as ++ tagsEach bs := by
  induction as with
  | nil => rfl
  | cons a as ih => simp [tagsEach, ih]

end Statement

namespace Block.Replaced

open Statement

variable {ι : Type} {old new block block' : Block ι}

theorem cons (h : Replaced old new block block') (s : Statement ι) :
    Replaced old new (s :: block) (s :: block') := by
  simpa using h.beside [s] []

theorem head {s s' : Statement ι} (h : Replaced old new [s] [s']) (rest : Block ι) :
    Replaced old new (s :: rest) (s' :: rest) := by
  simpa using h.beside [] rest

theorem tags (h : Replaced old new block block') : ∃ before after,
    tagsEach block = before ++ tagsEach old ++ after ∧
      tagsEach block' = before ++ tagsEach new ++ after := by
  induction h with
  | here => exact ⟨[], [], by simp, by simp⟩
  | beside before after _ ih =>
    obtain ⟨b, a, hl, hl'⟩ := ih
    exact ⟨tagsEach before ++ b, a ++ tagsEach after, by simp [hl], by simp [hl']⟩
  | inside head _ ih =>
    obtain ⟨b, a, hl, hl'⟩ := ih
    exact ⟨head.tags ++ b, a, by simp [tagsEach, Statement.tags, hl],
      by simp [tagsEach, Statement.tags, hl']⟩

theorem wellFormed_old (h : Replaced old new block block') (wf : WellFormedEach block) :
    WellFormedEach old := by
  induction h with
  | here => exact wf
  | beside before after _ ih =>
    simp only [wellFormedEach_append] at wf
    exact ih wf.1.2
  | inside head _ ih => exact ih wf.1.2

theorem wellFormed (h : Replaced old new block block') (wf : WellFormedEach block)
    (hnew : WellFormedEach new) : WellFormedEach block' := by
  induction h with
  | here => exact hnew
  | beside before after _ ih =>
    simp only [wellFormedEach_append] at wf ⊢
    exact ⟨⟨wf.1.1, ih wf.1.2⟩, wf.2⟩
  | inside head _ ih => exact ⟨⟨wf.1.1, ih wf.1.2⟩, trivial⟩

/-- Replacing within the replaced list is replacing within the whole. -/
theorem trans {inner inner' : Block ι} (h : Replaced old new block block')
    (hi : Replaced inner inner' old new) : Replaced inner inner' block block' := by
  induction h with
  | here => exact hi
  | beside before after _ ih => exact ih.beside before after
  | inside head _ ih => exact ih.inside head

end Block.Replaced

namespace Statement

variable {tag : Nat} {f : Statement Nat → Statement Nat}

mutual

theorem update?_eq_none_iff :
    (s : Statement Nat) → (s.update? tag f = none ↔ s.nodes.find? (·.tag == tag) = none)
  | simple head => by by_cases h : head.tag = tag <;> simp [update?, nodes, h]
  | compound head block => by
    by_cases h : head.tag = tag
    · simp [update?, nodes, h]
    · simp [update?, nodes, h, updateEach?_eq_none_iff block]

theorem updateEach?_eq_none_iff : (block : Block Nat) →
    (updateEach? tag f block = none ↔ (nodesEach block).find? (·.tag == tag) = none)
  | [] => by simp [updateEach?, nodesEach]
  | s :: rest => by
    have hs := update?_eq_none_iff s
    have hrest := updateEach?_eq_none_iff rest
    cases h : s.update? tag f with
    | none =>
      simp only [updateEach?, h, Option.map_eq_none_iff, hrest, nodesEach, List.find?_append,
        hs.mp h, Option.none_or]
    | some s' =>
      have hsome : s.nodes.find? (·.tag == tag) ≠ none := fun hn => by simp [hs.mpr hn] at h
      simp only [updateEach?, h, nodesEach, List.find?_append, Option.or_eq_none_iff, hsome,
        false_and, reduceCtorEq]

end

mutual

theorem replaced_of_update? : {s s' : Statement Nat} → s.update? tag f = some s' →
    ∃ n, s.nodes.find? (·.tag == tag) = some n ∧ Block.Replaced [n] [f n] [s] [s']
  | simple head, s', h => by
    rw [update?] at h
    split at h
    · obtain rfl := Option.some.inj h
      exact ⟨simple head, by simp [nodes, *], .here⟩
    · cases h
  | compound head block, s', h => by
    rw [update?] at h
    split at h
    · obtain rfl := Option.some.inj h
      exact ⟨compound head block, by simp [nodes, *], .here⟩
    · obtain ⟨new, hnew, rfl⟩ := Option.map_eq_some_iff.mp h
      obtain ⟨n, hn, hr⟩ := replaced_of_updateEach? hnew
      exact ⟨n, by simp [nodes, *], hr.inside head⟩

/-- An update replaces the statement that a search finds. -/
theorem replaced_of_updateEach? : {block block' : Block Nat} →
    updateEach? tag f block = some block' →
      ∃ n, (nodesEach block).find? (·.tag == tag) = some n ∧ Block.Replaced [n] [f n] block block'
  | s :: rest, block', h => by
    rw [updateEach?] at h
    split at h
    · rename_i s' hs
      obtain rfl := Option.some.inj h
      obtain ⟨n, hn, hr⟩ := replaced_of_update? hs
      exact ⟨n, by simp [nodesEach, List.find?_append, hn], hr.head rest⟩
    · rename_i hs
      obtain ⟨new, hnew, rfl⟩ := Option.map_eq_some_iff.mp h
      obtain ⟨n, hn, hr⟩ := replaced_of_updateEach? hnew
      have hnone := (update?_eq_none_iff s).mp hs
      exact ⟨n, by simp [nodesEach, List.find?_append, hn, hnone], hr.cons s⟩

end

end Statement

/-! ### Programs -/

/-- The second program is the first one with `old`, which stands somewhere in one of its blocks,
replaced by `new`. -/
structure Program.Replaced (old new : Block Nat) (p q : Program) : Prop where
  blocks : ∃ before block block' after, p.blocks = before ++ block :: after ∧
    q.blocks = before ++ block' :: after ∧ Block.Replaced old new block block'
  keys : q.procedures.keys = p.procedures.keys
  «variables» : q.variables = p.variables
  skeletons : q.skeletons = p.skeletons
  initialized : q.initialized = p.initialized
  next : q.next = p.next

namespace Program

variable {tag : Nat} {p q : Program}

theorem updateBodies?_eq_none_iff {f : Statement Nat → Statement Nat} :
    (bodies : List (String × Block Nat)) → (updateBodies? tag f bodies = none ↔
      ((bodies.map Prod.snd).flatMap Statement.nodesEach).find? (·.tag == tag) = none)
  | [] => by simp [updateBodies?]
  | (id, body) :: rest => by
    have hbody : Statement.updateEach? tag f body = none ↔
        (Statement.nodesEach body).find? (·.tag == tag) = none :=
      Statement.updateEach?_eq_none_iff body
    have hrest := updateBodies?_eq_none_iff (f := f) rest
    cases h : Statement.updateEach? tag f body with
    | none =>
      simp only [updateBodies?, h, Option.map_eq_none_iff, hrest, List.map_cons, List.flatMap_cons,
        List.find?_append, hbody.mp h, Option.none_or]
    | some body' =>
      have hsome : (Statement.nodesEach body).find? (·.tag == tag) ≠ none :=
        fun hn => by simp [hbody.mpr hn] at h
      simp only [updateBodies?, h, List.map_cons, List.flatMap_cons, List.find?_append,
        Option.or_eq_none_iff, hsome, false_and, reduceCtorEq]

theorem replaced_of_updateBodies? {f : Statement Nat → Statement Nat} :
    {bodies bodies' : List (String × Block Nat)} → updateBodies? tag f bodies = some bodies' →
      ∃ s before body body' after,
        ((bodies.map Prod.snd).flatMap Statement.nodesEach).find? (·.tag == tag) = some s ∧
        bodies.map Prod.snd = before ++ body :: after ∧
        bodies'.map Prod.snd = before ++ body' :: after ∧ Block.Replaced [s] [f s] body body'
  | (id, body) :: rest, bodies', h => by
    rw [updateBodies?] at h
    split at h
    · rename_i body' hbody
      obtain rfl := Option.some.inj h
      obtain ⟨s, hs, hr⟩ := Statement.replaced_of_updateEach? hbody
      exact ⟨s, [], body, body', rest.map Prod.snd, by simp [List.find?_append, hs], rfl, rfl, hr⟩
    · rename_i hbody
      obtain ⟨new, hnew, rfl⟩ := Option.map_eq_some_iff.mp h
      obtain ⟨s, before, b, b', after, hs, hb, hb', hr⟩ := replaced_of_updateBodies? hnew
      have hnone := (Statement.updateEach?_eq_none_iff body).mp hbody
      exact ⟨s, body :: before, b, b', after, by simp [List.find?_append, hs, hnone],
        by simp [hb], by simp [hb'], hr⟩

theorem update?_eq_none_iff {f : Statement Nat → Statement Nat} :
    p.update? tag f = none ↔ p.find? tag = none := by
  have hblock : Statement.updateEach? tag f p.block = none ↔
      (Statement.nodesEach p.block).find? (·.tag == tag) = none :=
    Statement.updateEach?_eq_none_iff p.block
  have hbodies : updateBodies? tag f p.procedures.entries = none ↔
      ((p.procedures.entries.map Prod.snd).flatMap Statement.nodesEach).find? (·.tag == tag) =
        none := updateBodies?_eq_none_iff p.procedures.entries
  rw [find?, nodes, blocks, List.flatMap_cons, List.find?_append, Option.or_eq_none_iff, ← hblock,
    Table.values, ← hbodies, update?]
  cases hb : Statement.updateEach? tag f p.block with
  | some block => simp
  | none =>
    simp only [true_and]
    split
    · rename_i bodies h
      simp [h]
    · rename_i h
      simp [h]

/-- An update replaces the statement that a search finds. -/
theorem replaced_of_update? {f : Statement Nat → Statement Nat} (h : p.update? tag f = some q) :
    ∃ s, p.find? tag = some s ∧ Replaced [s] [f s] p q := by
  unfold update? at h
  split at h
  · rename_i block hblock
    obtain rfl := Option.some.inj h
    obtain ⟨s, hs, hr⟩ := Statement.replaced_of_updateEach? hblock
    refine ⟨s, ?_, ⟨[], p.block, block, p.procedures.values, rfl, rfl, hr⟩, rfl, rfl, rfl, rfl, rfl⟩
    simp [find?, nodes, blocks, List.find?_append, hs]
  · rename_i hblock
    split at h
    · rename_i bodies hbodies
      obtain rfl := Option.some.inj h
      obtain ⟨s, before, body, body', after, hs, hb, hb', hr⟩ := replaced_of_updateBodies? hbodies
      have hnone := (Statement.updateEach?_eq_none_iff p.block).mp hblock
      refine ⟨s, ?_, ⟨p.block :: before, body, body', after, ?_, ?_, hr⟩, ?_, rfl, rfl, rfl, rfl⟩
      · simp [find?, nodes, blocks, List.find?_append, Table.values, hs, hnone]
      · simp [blocks, Table.values, hb]
      · simp [blocks, Table.values, hb']
      · exact map_fst_updateBodies? hbodies
    · cases h

/-- An edit of one block replaces that block. -/
theorem replaced_of_modifyBlock {place : Address} {block : Block Nat}
    (h : p.block? place = some block) (f : Block Nat → Block Nat) :
    Replaced block (f block) p (p.modifyBlock place f) := by
  cases place with
  | root =>
    obtain rfl := Option.some.inj h
    exact ⟨⟨[], p.block, f p.block, p.procedures.values, rfl, rfl, .here⟩, rfl, rfl, rfl, rfl, rfl⟩
  | procedure id =>
    have hget : p.procedures.get? id = some block := h
    obtain ⟨before, after, hb, hb'⟩ := Entries.put_of_lookup (f block) hget
    have hmem : id ∈ p.procedures.keys := by simp [Table.keys, hb]
    simp only [modifyBlock, hget]
    refine ⟨⟨p.block :: before.map Prod.snd, block, f block, after.map Prod.snd, ?_, ?_, .here⟩,
      Table.keys_insert_of_mem _ hmem, rfl, rfl, rfl, rfl⟩
    · simp [blocks, Table.values, hb]
    · simp [blocks, Table.values, Table.insert, hb']
  | inside tag =>
    obtain ⟨s, hs, hblock⟩ := Option.bind_eq_some_iff.mp h
    have hsome : p.update? tag (Statement.mapBlock f) ≠ none :=
      fun hn => by simp [update?_eq_none_iff.mp hn] at hs
    obtain ⟨q, hq⟩ := Option.ne_none_iff_exists'.mp hsome
    obtain ⟨s', hs', hr⟩ := replaced_of_update? hq
    obtain rfl := Option.some.inj (hs.symm.trans hs')
    simp only [modifyBlock, hq, Option.getD_some]
    cases s with
    | simple head => cases hblock
    | compound head inner =>
      obtain rfl := Option.some.inj hblock
      obtain ⟨before, b, b', after, hb, hb', hrb⟩ := hr.blocks
      have hinner : Block.Replaced inner (f inner) b b' := hrb.trans (.inside head .here)
      exact { hr with blocks := ⟨before, b, b', after, hb, hb', hinner⟩ }

end Program

end BlockScript
