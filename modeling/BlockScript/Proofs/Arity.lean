import BlockScript.Proofs.Replaced

/-! The number of children of a group: one under negation, at least one under any other operator.
Edits of an expression list replace the children of one group, and what they do to the rule is told
from that group alone. Grouping keeps it; deleting and dissolving do not look at it. -/

namespace BlockScript

variable {ι : Type}

/-- The operator takes that many children. -/
def Operator.Takes (operator : String) (count : Nat) : Prop :=
  if isUnary operator then count = 1 else 0 < count

instance (operator : String) (count : Nat) : Decidable (Operator.Takes operator count) :=
  inferInstanceAs (Decidable (if Operator.isUnary operator then count = 1 else 0 < count))

namespace Operator

variable {operator : String} {count : Nat}

theorem takes_unary (unary : isUnary operator = true) : Takes operator count ↔ count = 1 := by
  rw [Takes, if_pos unary]

theorem takes_other (other : ¬isUnary operator = true) : Takes operator count ↔ 0 < count := by
  rw [Takes, if_neg other]

theorem Takes.pos (h : Takes operator count) : 0 < count := by
  by_cases unary : isUnary operator = true
  · rw [(takes_unary unary).mp h]
    exact Nat.one_pos
  · exact (takes_other unary).mp h

/-- Some children become one. -/
theorem Takes.merge {before chosen after : Nat} (h : Takes operator (before + (chosen + after)))
    (pos : 0 < chosen) : Takes operator (before + (after + 1)) := by
  by_cases unary : isUnary operator = true
  · rw [takes_unary unary] at h ⊢
    omega
  · rw [takes_other unary]
    omega

/-- One child becomes some. -/
theorem Takes.split_iff {before inner after : Nat} (h : Takes operator (before + (after + 1)))
    (pos : 0 < inner) : Takes operator (before + (inner + after)) ↔
      ¬(isUnary operator = true ∧ 1 < inner) := by
  by_cases unary : isUnary operator = true
  · rw [takes_unary unary] at h ⊢
    simp only [unary, true_and]
    omega
  · rw [takes_other unary]
    exact iff_of_true (by omega) fun negates => unary negates.1

/-- One child goes. -/
theorem Takes.pred_iff (h : Takes operator count) : Takes operator (count - 1) ↔ count ≠ 1 := by
  by_cases unary : isUnary operator = true
  · rw [takes_unary unary] at h ⊢
    omega
  · rw [takes_other unary] at h ⊢
    omega

end Operator

namespace Expression

/-- A group has as many children as its operator takes. -/
def Fits : Expression ι → Prop
  | group _ operator children => Operator.Takes operator children.length
  | _ => True

instance : DecidablePred (Fits (ι := ι))
  | group .. => inferInstanceAs (Decidable (Operator.Takes _ _))
  | leaf .. | operand _ => inferInstanceAs (Decidable True)

theorem nodesEach_append (as bs : List (Expression ι)) :
    nodesEach (as ++ bs) = nodesEach as ++ nodesEach bs := by
  induction as with
  | nil => rfl
  | cons a as ih => simp [nodesEach, ih]

end Expression

namespace ExpressionList

open Expression

/-- Every group at any depth has as many children as its operator takes. -/
def Balanced (list : ExpressionList ι) : Prop := ∀ e ∈ nodesEach list, e.Fits

instance (list : ExpressionList ι) : Decidable (Balanced list) :=
  inferInstanceAs (Decidable (∀ e ∈ nodesEach list, e.Fits))

/-! ### Balance and its parts -/

@[simp] theorem balanced_nil : Balanced ([] : ExpressionList ι) := List.forall_mem_nil _

@[simp] theorem balanced_append {as bs : ExpressionList ι} :
    Balanced (as ++ bs) ↔ Balanced as ∧ Balanced bs := by
  rw [Balanced, nodesEach_append, List.forall_mem_append]
  rfl

theorem balanced_cons {e : Expression ι} {rest : ExpressionList ι} :
    Balanced (e :: rest) ↔ Balanced [e] ∧ Balanced rest := by
  rw [← balanced_append, List.singleton_append]

@[simp] theorem balanced_group {tag : ι} {operator : String} {children : ExpressionList ι} :
    Balanced [.group tag operator children] ↔
      Operator.Takes operator children.length ∧ Balanced children := by
  have hnodes : nodesEach [.group tag operator children] =
      .group tag operator children :: nodesEach children := by
    simp [nodesEach, nodes]
  rw [Balanced, hnodes, List.forall_mem_cons]
  rfl

@[simp] theorem balanced_leaf {tag : ι} {operator : String} {first : Operand ι}
    {second : Option (Operand ι)} : Balanced [.leaf tag operator first second] :=
  List.forall_mem_singleton.mpr trivial

@[simp] theorem balanced_operand {o : Operand ι} : Balanced [.operand o] :=
  List.forall_mem_singleton.mpr trivial

theorem balanced_iff_forall {list : ExpressionList ι} :
    Balanced list ↔ ∀ e ∈ list, Balanced [e] := by
  induction list with
  | nil => simp
  | cons e rest ih => rw [balanced_cons, ih, List.forall_mem_cons]

theorem Balanced.of_subset {list list' : ExpressionList ι} (h : Balanced list)
    (part : list' ⊆ list) : Balanced list' :=
  balanced_iff_forall.mpr fun e he => balanced_iff_forall.mp h e (part he)

/-- Where one expression is put in the place of another, balance depends on it alone. -/
theorem Replaced.balanced_iff {e e' : Expression ι} {list list' : ExpressionList ι}
    (h : Replaced [e] [e'] list list') (balanced : Balanced list) :
    Balanced [e] ∧ list'.length = list.length ∧ (Balanced list' ↔ Balanced [e']) := by
  induction h with
  | here => exact ⟨balanced, rfl, .rfl⟩
  | beside before after _ ih =>
    rw [balanced_append, balanced_append] at balanced
    obtain ⟨hold, hlength, hiff⟩ := ih balanced.1.2
    refine ⟨hold, by simp [hlength], ?_⟩
    rw [balanced_append, balanced_append, hiff]
    simp [balanced.1.1, balanced.2]
  | inside tag operator _ ih =>
    rw [balanced_group] at balanced
    obtain ⟨hold, hlength, hiff⟩ := ih balanced.2
    refine ⟨hold, rfl, ?_⟩
    rw [balanced_group, hlength, hiff]
    simp [balanced.1]

end ExpressionList

/-! ### The group around a tag -/

/-- The group that directly contains the tag; none if the list itself does. -/
def ExpressionList.holder? (list : ExpressionList Nat) (tag : Nat) : Option (Expression Nat) :=
  if Expression.anyTagged tag list then none
  else (Expression.nodesEach list).find? fun e => Expression.anyTagged tag e.children

theorem Expression.anyTagged_iff {list : List (Expression Nat)} {tag : Nat} :
    anyTagged tag list = true ↔ ∃ e ∈ list, e.tag = tag := by
  simp [anyTagged]

namespace ExpressionList

open Expression

variable {list new : ExpressionList Nat} {tag : Nat} {holder : Expression Nat}
  {edit : ExpressionList Nat → Option (ExpressionList Nat)}

theorem of_holder? (h : holder ∈ holder? list tag) : ¬anyTagged tag list = true ∧
    (nodesEach list).find? (fun e => anyTagged tag e.children) = some holder ∧
      siblings? list tag = some holder.children := by
  rw [holder?] at h
  split at h
  · cases h
  · rename_i inner
    have hfound : (nodesEach list).find? (fun e => anyTagged tag e.children) = some holder := h
    refine ⟨inner, hfound, ?_⟩
    rw [siblings?, if_neg inner, siblingsEach?_eq, hfound, Option.map_some]

theorem Balanced.of_holder? (balanced : Balanced list) (h : holder ∈ holder? list tag) :
    anyTagged tag holder.children = true ∧
      Operator.Takes holder.operator holder.children.length ∧ Balanced holder.children := by
  have hfound := (ExpressionList.of_holder? h).2.1
  obtain ⟨t, operator, old, _, rfl, -, hr⟩ := exists_replaceSiblingsEach? [] hfound
  have hany := List.find?_some hfound
  exact ⟨hany, balanced_group.mp (hr.balanced_iff balanced).1⟩

theorem editSiblings?_of_root (root : anyTagged tag list = true) :
    editSiblings? list tag edit = edit list := by
  cases h : edit list <;> simp [editSiblings?, siblings?, root, h]

/-- An edit among siblings that no group holds does not apply. -/
theorem editSiblings?_of_missing (root : ¬anyTagged tag list = true)
    (missing : holder? list tag = none) : editSiblings? list tag edit = none := by
  rw [holder?, if_neg root] at missing
  simp [editSiblings?, siblings?, root, siblingsEach?_eq, missing]

theorem editSiblings?_of_refused (h : holder ∈ holder? list tag)
    (refused : edit holder.children = none) : editSiblings? list tag edit = none := by
  simp [editSiblings?, (of_holder? h).2.2, refused]

/-- An edit among siblings gives the group around them other children. -/
theorem exists_editSiblings? (h : holder ∈ holder? list tag)
    (made : edit holder.children = some new) :
    ∃ t list', editSiblings? list tag edit = some list' ∧
      Replaced [holder] [.group t holder.operator new] list list' := by
  obtain ⟨inner, hfound, hsiblings⟩ := of_holder? h
  obtain ⟨t, operator, old, list', rfl, hlist, hr⟩ := exists_replaceSiblingsEach? new hfound
  exact ⟨t, list', by simp [editSiblings?, hsiblings, made, inner, hlist], hr⟩

/-- An edit among siblings keeps the balance if the group around them, where there is one, then has
as many children as its operator takes. -/
theorem balanced_editSiblings? (balanced : Balanced list)
    (keeps : ∀ old new, anyTagged tag old = true → Balanced old → edit old = some new →
      Balanced new) :
    Balanced ((editSiblings? list tag edit).getD list) ↔
      ∀ holder ∈ holder? list tag, ∀ new ∈ edit holder.children,
        Operator.Takes holder.operator new.length := by
  by_cases root : anyTagged tag list = true
  · have hbalanced : Balanced ((edit list).getD list) := by
      cases h : edit list with
      | none => exact balanced
      | some new => exact keeps list new root balanced h
    rw [editSiblings?_of_root root]
    simp [hbalanced, holder?, root]
  · cases hholder : holder? list tag with
    | none =>
      rw [editSiblings?_of_missing root hholder]
      exact iff_of_true balanced fun _ h => by cases h
    | some holder =>
      simp only [Option.mem_def, Option.some.injEq, forall_eq']
      cases made : edit holder.children with
      | none =>
        rw [editSiblings?_of_refused hholder made]
        exact iff_of_true balanced fun _ h => by cases h
      | some new =>
        obtain ⟨t, list', hedit, hr⟩ := exists_editSiblings? hholder made
        obtain ⟨hany, -, hold⟩ := balanced.of_holder? hholder
        have hnew := keeps _ new hany hold made
        rw [hedit, Option.getD_some, (hr.balanced_iff balanced).2.2, balanced_group]
        simp only [Option.some.injEq, forall_eq']
        exact and_iff_left hnew

/-! ### The edits -/

/-- Grouping keeps the balance. -/
theorem balanced_group? (balanced : Balanced list) (selected : List Nat) (operator : String)
    (fresh : Nat) : Balanced ((group? list selected operator fresh).getD list) := by
  cases selected with
  | nil => exact balanced
  | cons first others =>
    -- the new group is not empty, since the first selected one is among the siblings
    have hchosen : ∀ old : ExpressionList Nat, anyTagged first old = true →
        0 < (old.filter fun e => (first :: others).contains e.tag).length := by
      intro old hany
      obtain ⟨e, he, rfl⟩ := anyTagged_iff.mp hany
      exact List.length_pos_of_mem (List.mem_filter.mpr ⟨he, by simp⟩)
    refine (balanced_editSiblings? balanced fun old new hany hold hnew => ?_).mpr ?_
    · obtain ⟨few, before, after, rfl, hperm⟩ := exists_of_groupSiblings? hnew
      have hparts := hold.of_subset hperm.subset
      rw [balanced_append, balanced_append] at hparts
      rw [balanced_append, balanced_cons, balanced_group]
      refine ⟨hparts.1, ⟨?_, hparts.2.1⟩, hparts.2.2⟩
      have hpos := hchosen old hany
      by_cases unary : Operator.isUnary operator = true
      · have hfew := few unary
        rw [Operator.takes_unary unary]
        omega
      · exact (Operator.takes_other unary).mpr hpos
    · intro holder hholder new hnew
      obtain ⟨hany, takes, -⟩ := balanced.of_holder? hholder
      obtain ⟨-, before, after, rfl, hperm⟩ := exists_of_groupSiblings? hnew
      rw [← hperm.length_eq, List.length_append, List.length_append] at takes
      rw [List.length_append, List.length_cons]
      exact takes.merge (hchosen _ hany)

/-- Deleting keeps the balance unless it takes the only child of a group. -/
theorem balanced_delete? (balanced : Balanced list) :
    Balanced ((delete? list tag).getD list) ↔
      ∀ holder ∈ holder? list tag, holder.children.length ≠ 1 := by
  refine (balanced_editSiblings? balanced fun old new _ hold hnew => ?_).trans ?_
  · obtain rfl := Option.some.inj hnew
    exact hold.of_subset List.eraseP_subset
  · refine forall₂_congr fun holder hholder => ?_
    obtain ⟨hany, takes, -⟩ := balanced.of_holder? hholder
    obtain ⟨e, he, htag⟩ := anyTagged_iff.mp hany
    have hlength : (holder.children.eraseP fun e => e.tag == tag).length =
        holder.children.length - 1 := List.length_eraseP_of_mem he (by simp [htag])
    simp only [Option.mem_def, Option.some.injEq, forall_eq', hlength]
    exact takes.pred_iff

theorem exists_ungroupSiblings? {old : ExpressionList Nat} {t : Nat} {operator : String}
    {inner : ExpressionList Nat} (h : old.sibling? tag = some (.group t operator inner)) :
    ∃ new, ungroupSiblings? tag old = some new := by
  rw [sibling?_eq] at h
  obtain ⟨after, hdrop⟩ := List.head?_eq_some_iff.mp h
  exact ⟨_, by rw [ungroupSiblings?, hdrop]⟩

theorem takes_ungroupSiblings?_iff {old : ExpressionList Nat} {operator : String}
    (hold : Balanced old) (takes : Operator.Takes operator old.length) :
    (∀ new ∈ ungroupSiblings? tag old, Operator.Takes operator new.length) ↔
      ¬(Operator.isUnary operator = true ∧ ∃ e ∈ sibling? old tag, 1 < e.children.length) := by
  cases hnew : ungroupSiblings? tag old with
  | none =>
    refine iff_of_true (fun _ h => by cases h) ?_
    rintro ⟨-, e, he, several⟩
    cases e with
    | leaf | operand => cases several
    | group t operator' inner =>
      obtain ⟨new, h⟩ := exists_ungroupSiblings? he
      cases hnew.symm.trans h
  | some new =>
    obtain ⟨before, t, operator', inner, after, rfl, rfl, hfirst⟩ := exists_of_ungroupSiblings? hnew
    rw [balanced_append, balanced_cons, balanced_group] at hold
    rw [List.length_append, List.length_cons] at takes
    simp only [hfirst, Option.mem_def, Option.some.injEq, forall_eq', exists_eq_left']
    rw [List.append_assoc, List.length_append, List.length_append]
    exact takes.split_iff hold.2.1.1.pos

/-- Dissolving keeps the balance unless it puts several children in the place of the only child of a
negation. -/
theorem balanced_ungroup? (balanced : Balanced list) :
    Balanced ((ungroup? list tag).getD list) ↔
      ∀ holder ∈ holder? list tag, ¬(Operator.isUnary holder.operator = true ∧
        ∃ e ∈ sibling? holder.children tag, 1 < e.children.length) := by
  refine (balanced_editSiblings? balanced fun old new _ hold hnew => ?_).trans ?_
  · obtain ⟨before, t, operator, inner, after, rfl, rfl, -⟩ := exists_of_ungroupSiblings? hnew
    rw [balanced_append, balanced_cons, balanced_group] at hold
    rw [balanced_append, balanced_append]
    exact ⟨⟨hold.1, hold.2.1.2⟩, hold.2.2⟩
  · refine forall₂_congr fun holder hholder => ?_
    obtain ⟨-, takes, hold⟩ := balanced.of_holder? hholder
    exact takes_ungroupSiblings?_iff hold takes

/-- A new operator keeps the balance unless it negates several children. -/
theorem balanced_setOperator? (balanced : Balanced list) (operator : String) (fresh : Nat)
    (plain : ¬(Operator.isUnary operator = true ∧ ∃ e ∈ list.find? tag, 1 < e.children.length)) :
    Balanced ((setOperator? list tag operator fresh).getD list) := by
  cases h : setOperator? list tag operator fresh with
  | none => exact balanced
  | some list' =>
    obtain ⟨e, hfind, hr⟩ := Expression.replaced_of_updateEach? h
    obtain ⟨hold, -, hiff⟩ := hr.balanced_iff balanced
    rw [Option.getD_some, hiff]
    cases e with
    | leaf => exact balanced_leaf
    | operand => exact balanced_operand
    | group t operator' inner =>
      rw [balanced_group] at hold
      rw [Expression.setOperator, balanced_group]
      refine ⟨?_, hold.2⟩
      have hpos := hold.1.pos
      by_cases unary : Operator.isUnary operator = true
      · have hfew : ¬1 < inner.length := fun several => plain ⟨unary, _, hfind, several⟩
        rw [Operator.takes_unary unary]
        omega
      · exact (Operator.takes_other unary).mpr hpos

end ExpressionList

/-! ### Sequences of edits -/

namespace ExpressionEdit

open ExpressionList

/-- The edits that change operators or take expressions into groups and out of them. -/
def Regroups : ExpressionEdit → Prop
  | setOperator .. | group .. | ungroup _ | delete _ => True
  | push _ | restamp _ | copy _ => False

/-- The edit negates a group with several children. -/
def Negates (list : ExpressionList Nat) : ExpressionEdit → Prop
  | setOperator tag operator =>
    Operator.isUnary operator = true ∧ ∃ e ∈ list.find? tag, 1 < e.children.length
  | _ => False

/-- The edit takes the only child of a group, or dissolves a group with several children right
inside a negation. -/
def Loosens (list : ExpressionList Nat) : ExpressionEdit → Prop
  | delete tag => ∃ holder ∈ list.holder? tag, holder.children.length = 1
  | ungroup tag => ∃ holder ∈ list.holder? tag, Operator.isUnary holder.operator = true ∧
      ∃ e ∈ sibling? holder.children tag, 1 < e.children.length
  | _ => False

instance (list : ExpressionList Nat) : DecidablePred fun edit => Negates list edit
  | setOperator tag operator => inferInstanceAs
      (Decidable (Operator.isUnary operator = true ∧ ∃ e ∈ list.find? tag, 1 < e.children.length))
  | push _ | group .. | ungroup _ | delete _ | restamp _ | copy _ => .isFalse not_false

instance (list : ExpressionList Nat) : DecidablePred fun edit => Loosens list edit
  | delete tag => inferInstanceAs
      (Decidable (∃ holder ∈ list.holder? tag, holder.children.length = 1))
  | ungroup tag => inferInstanceAs (Decidable (∃ holder ∈ list.holder? tag,
      Operator.isUnary holder.operator = true ∧
        ∃ e ∈ sibling? holder.children tag, 1 < e.children.length))
  | push _ | group .. | setOperator .. | restamp _ | copy _ => .isFalse not_false

/-- The list and the next unused tag after the edit; one that does not apply changes nothing. -/
def run (state : ExpressionList Nat × Nat) (edit : ExpressionEdit) : ExpressionList Nat × Nat :=
  (edit.run? state.1 state.2).getD state

variable {state : ExpressionList Nat × Nat} {edit : ExpressionEdit}

/-- An edit keeps the balance exactly if it does not loosen a group. -/
theorem balanced_run_iff (balanced : Balanced state.1) (regroups : edit.Regroups)
    (plain : ¬edit.Negates state.1) :
    Balanced (edit.run state).1 ↔ ¬edit.Loosens state.1 := by
  -- only the list counts, not the next tag
  have hlist : ∀ (made : Option (ExpressionList Nat)) (next : Nat),
      ((made.map (·, next)).getD state).1 = made.getD state.1 := by
    intro made next
    cases made <;> rfl
  cases edit with
  | setOperator tag operator =>
    rw [run, run?, hlist]
    exact iff_of_true (balanced_setOperator? balanced operator state.2 plain) not_false
  | group selected operator =>
    rw [run, run?, hlist]
    exact iff_of_true (balanced_group? balanced selected operator state.2) not_false
  | ungroup tag =>
    rw [run, run?, hlist, balanced_ungroup? balanced, Loosens]
    simp only [not_exists, not_and]
  | delete tag =>
    rw [run, run?, hlist, balanced_delete? balanced, Loosens]
    simp only [not_exists, not_and, ne_eq]
  | push | restamp | copy => cases regroups

end ExpressionEdit

namespace ExpressionList

/-- The list and the next unused tag after the edits. -/
def after (state : ExpressionList Nat × Nat) (edits : List ExpressionEdit) :
    ExpressionList Nat × Nat := edits.foldl ExpressionEdit.run state

/-- Among the edits, one is carried out on a list to which it stands in the relation. -/
def Meets (kind : ExpressionList Nat → ExpressionEdit → Prop) (state : ExpressionList Nat × Nat)
    (edits : List ExpressionEdit) : Prop :=
  ∃ earlier edit, earlier ++ [edit] <+: edits ∧ kind (after state earlier).1 edit

variable {kind : ExpressionList Nat → ExpressionEdit → Prop} {state : ExpressionList Nat × Nat}

theorem meets_nil : ¬Meets kind state [] := by
  rintro ⟨earlier, edit, hprefix, -⟩
  simp at hprefix

theorem meets_cons {edit : ExpressionEdit} {edits : List ExpressionEdit} :
    Meets kind state (edit :: edits) ↔ kind state.1 edit ∨ Meets kind (edit.run state) edits := by
  constructor
  · rintro ⟨earlier, last, hprefix, hkind⟩
    cases earlier with
    | nil =>
      obtain ⟨rfl, -⟩ := List.cons_prefix_cons.mp hprefix
      exact .inl hkind
    | cons first rest =>
      obtain ⟨rfl, hrest⟩ := List.cons_prefix_cons.mp hprefix
      exact .inr ⟨rest, last, hrest, hkind⟩
  · rintro (here | ⟨earlier, last, hprefix, hkind⟩)
    · exact ⟨[], edit, List.cons_prefix_cons.mpr ⟨rfl, List.nil_prefix⟩, here⟩
    · exact ⟨edit :: earlier, last, List.cons_prefix_cons.mpr ⟨rfl, hprefix⟩, hkind⟩

instance decidableMeets (kind : ExpressionList Nat → ExpressionEdit → Prop)
    [∀ list, DecidablePred (kind list)] : (edits : List ExpressionEdit) →
    (state : ExpressionList Nat × Nat) → Decidable (Meets kind state edits)
  | [], _ => .isFalse meets_nil
  | edit :: rest, state =>
    have := decidableMeets kind rest (edit.run state)
    decidable_of_iff _ meets_cons.symm

/-- A balanced list stays balanced through any sequence of edits that change operators, group,
dissolve and delete, whatever they name, exactly if none of them takes the only child of a group or
dissolves a group with several children right inside a negation. The sequences are those in which no
group with several children is negated. -/
theorem balanced_throughout {edits : List ExpressionEdit} (balanced : Balanced state.1)
    (regroup : ∀ edit ∈ edits, edit.Regroups)
    (plain : ¬Meets (fun list edit => edit.Negates list) state edits) :
    (∀ earlier, earlier <+: edits → Balanced (after state earlier).1) ↔
      ¬Meets (fun list edit => edit.Loosens list) state edits := by
  induction edits generalizing state with
  | nil =>
    refine iff_of_true (fun earlier hprefix => ?_) meets_nil
    rw [List.prefix_nil.mp hprefix]
    exact balanced
  | cons edit rest ih =>
    rw [List.forall_mem_cons] at regroup
    rw [meets_cons, not_or] at plain
    rw [meets_cons, not_or, ← ExpressionEdit.balanced_run_iff balanced regroup.1 plain.1]
    constructor
    · intro h
      have hfirst : Balanced (edit.run state).1 :=
        h [edit] (List.cons_prefix_cons.mpr ⟨rfl, List.nil_prefix⟩)
      refine ⟨hfirst, (ih hfirst regroup.2 plain.2).mp fun earlier hprefix => ?_⟩
      exact h (edit :: earlier) (List.cons_prefix_cons.mpr ⟨rfl, hprefix⟩)
    · rintro ⟨hfirst, loose⟩ earlier hprefix
      cases earlier with
      | nil => exact balanced
      | cons first earlier =>
        obtain ⟨rfl, hrest⟩ := List.cons_prefix_cons.mp hprefix
        exact (ih hfirst regroup.2 plain.2).mpr loose earlier hrest

/-- Two operands go into a group of their own, a negation is dissolved, and of the two children that
are left in the outer group one is deleted. -/
theorem balanced_throughout_door :
    let operand (tag : Nat) (name : String) : Expression Nat :=
      .operand ⟨tag, .variable, .string name⟩
    let start : ExpressionList Nat × Nat := ([.group 1 "!" [operand 2 "door.open"],
      .group 3 "&&" [operand 4 "lamp.on", operand 5 "fan.on", operand 6 "door.open"]], 7)
    let edits : List ExpressionEdit :=
      [.group [4, 5] "||", .ungroup 1, .setOperator 3 "||", .delete 6]
    Balanced start.1 ∧ Balanced (after start edits).1 ∧
      (after start edits).1.render = "$door.open, (($lamp.on || $fan.on))" := by
  intro operand start edits
  have balanced : Balanced start.1 := by decide
  have regroup : ∀ edit ∈ edits, edit.Regroups := by
    simp [edits, ExpressionEdit.Regroups]
  have hall := (balanced_throughout balanced regroup (by decide)).mpr (by decide)
  exact ⟨balanced, hall edits List.prefix_rfl, by decide⟩

/-- A negation is left without a child when that is deleted. -/
theorem negation_emptied :
    let start : ExpressionList Nat × Nat :=
      ([.group 1 "!" [.operand ⟨2, .variable, .string "door.open"⟩]], 3)
    let edits : List ExpressionEdit := [.delete 2]
    Balanced start.1 ∧ (∀ edit ∈ edits, edit.Regroups) ∧ (after start edits).1.render = "!()" ∧
      ¬Balanced (after start edits).1 := by
  intro start edits
  exact ⟨by decide, by simp [edits, ExpressionEdit.Regroups], by decide, by decide⟩

end ExpressionList

end BlockScript
