import BlockScript.Proofs.Findings

/-! The diagnostics of a statement, told from where it stands and from its expressions. An analysis
finds exactly these, and beyond them at most that a call is cyclic. -/

namespace BlockScript

variable {ι : Type}

/-- In a block that stands in `outer`, the statement stands at some depth, right inside `parent` and
just after `previous`. -/
inductive Block.Stands (s : Statement ι) (parent previous : Option (Statement ι)) :
    Option (Statement ι) → Block ι → Prop
  | here (before after : Block ι) :
      previous = before.getLast? → Stands s parent previous parent (before ++ s :: after)
  | inside {outer : Option (Statement ι)} {head : Head ι} {block : Block ι}
      (before after : Block ι) : Stands s parent previous (some (.compound head block)) block →
      Stands s parent previous outer (before ++ .compound head block :: after)

/-! ### What is wrong with a statement -/

namespace Diagnostic

/-- The diagnostic, if the condition holds. -/
def when (diagnostic : Diagnostic) (condition : Prop) [Decidable condition] : List Diagnostic :=
  if condition then [diagnostic] else []

def isCyclic : Diagnostic → Bool
  | cyclicProcedure _ => true
  | _ => false

end Diagnostic

open Diagnostic in
/-- What is wrong with the place of a statement of the kind `id`, given the ids of the statement
around it and of the one before it: first what it asks of them, then what the former asks of it. -/
def Language.placementErrors (lang : Language) (d : Descriptor) (id : String)
    (parent previous : Option String) : List Diagnostic :=
  (missingPredecessor id d.previous.allowed previous).when
      (d.previous.allowed ≠ [] ∧ ∀ q ∈ previous, q ∉ d.previous.allowed) ++
    previous.toList.flatMap (fun q =>
      (forbiddenPredecessor id q).when (q ∈ d.previous.forbidden)) ++
    (invalidParent id d.parent.allowed parent).when
      (d.parent.allowed ≠ [] ∧ ∀ q ∈ parent, q ∉ d.parent.allowed) ++
    parent.toList.flatMap (fun q => (forbiddenParent id q).when (q ∈ d.parent.forbidden)) ++
    parent.toList.flatMap fun q => (disallowedNesting id q).when
      (∃ e ∈ lang.statement? q,
        e.nested.allowed ≠ [] ∧ id ∉ e.nested.allowed ∨ id ∈ e.nested.forbidden)

namespace Expression

/-- What is wrong with the operator of a node. -/
def operatorError? : Expression ι → Option Diagnostic
  | leaf _ operator _ _ =>
    if operator ∈ Operator.comparisons then none else some (.invalidComparison operator)
  | group _ operator _ =>
    if operator ∈ Operator.combinators then none else some (.invalidCombinator operator)
  | operand _ => none

/-- What a node is warned of: an operand is missing. Only negation does without a second one. -/
def incompleteness? : Expression ι → Option Diagnostic
  | leaf tag operator first second =>
    if first.isUnset ∨ operator ≠ "!" ∧ ∀ o ∈ second, o.isUnset then
      some (.unsetOperand (leaf tag operator first second).render)
    else none
  | group .. => none
  | operand o => if o.isUnset then some .unsetMember else none

end Expression

/-- All nodes of all expressions of a statement itself. -/
def Statement.expressionNodes (s : Statement ι) : List (Expression ι) :=
  s.arguments.flatMap fun a => Expression.nodesEach (a.expressions?.getD [])

/-! ### The rules find it -/

namespace Descriptor

variable (d : Descriptor) (id : String)

theorem checkPrevious_eq (previous : Option String) : d.checkPrevious id previous =
    (Diagnostic.missingPredecessor id d.previous.allowed previous).when
        (d.previous.allowed ≠ [] ∧ ∀ q ∈ previous, q ∉ d.previous.allowed) ++
      previous.toList.flatMap fun q =>
        (Diagnostic.forbiddenPredecessor id q).when (q ∈ d.previous.forbidden) := by
  cases previous with
  | none => by_cases h : d.previous.allowed = [] <;> simp [checkPrevious, Diagnostic.when, h]
  | some q =>
    by_cases h : d.previous.allowed = [] <;> by_cases hq : q ∈ d.previous.allowed <;>
      simp_all [checkPrevious, Diagnostic.when, Constraint.allows, Constraint.forbids]

theorem checkParent_eq (parent : Option String) : d.checkParent id parent =
    (Diagnostic.invalidParent id d.parent.allowed parent).when
        (d.parent.allowed ≠ [] ∧ ∀ q ∈ parent, q ∉ d.parent.allowed) ++
      parent.toList.flatMap fun q =>
        (Diagnostic.forbiddenParent id q).when (q ∈ d.parent.forbidden) := by
  cases parent with
  | none => by_cases h : d.parent.allowed = [] <;> simp [checkParent, Diagnostic.when, h]
  | some q =>
    by_cases h : d.parent.allowed = [] <;> by_cases hq : q ∈ d.parent.allowed <;>
      simp_all [checkParent, Diagnostic.when, Constraint.allows, Constraint.forbids]

end Descriptor

namespace Language

variable (lang : Language)

theorem checkNesting_eq (id : String) (parent : Option String) : lang.checkNesting id parent =
    parent.toList.flatMap fun q => (Diagnostic.disallowedNesting id q).when
      (∃ e ∈ lang.statement? q,
        e.nested.allowed ≠ [] ∧ id ∉ e.nested.allowed ∨ id ∈ e.nested.forbidden) := by
  cases parent with
  | none => rfl
  | some q =>
    cases he : lang.statement? q with
    | none => simp [checkNesting, Diagnostic.when, he]
    | some e =>
      by_cases h : e.nested.allowed = [] <;> by_cases hq : id ∈ e.nested.allowed <;>
        by_cases hf : id ∈ e.nested.forbidden <;>
          simp_all [checkNesting, Diagnostic.when, Constraint.allows, Constraint.forbids]

theorem checkSite_of_some {site : Site ι} {d : Descriptor}
    (h : lang.statement? site.statement.id = some d) : lang.checkSite site =
      lang.placementErrors d site.statement.id (site.parent.map Statement.id)
          (site.previous.map Statement.id) ++
        site.statement.arguments.flatMap Argument.check := by
  simp only [checkSite, h, Descriptor.checkPrevious_eq, Descriptor.checkParent_eq, checkNesting_eq,
    placementErrors, List.append_assoc]

theorem kind_of_mem_placementErrors {d : Descriptor} {id : String}
    {parent previous : Option String} {found : Diagnostic}
    (h : found ∈ lang.placementErrors d id parent previous) :
    found.severity = .error ∧ found.isCyclic = false := by
  have key : ∀ {diagnostic : Diagnostic} {condition : Prop} [Decidable condition],
      found ∈ diagnostic.when condition → found = diagnostic := by
    intro diagnostic condition _ hm
    rw [Diagnostic.when] at hm
    split at hm
    · exact List.mem_singleton.mp hm
    · cases hm
  simp only [placementErrors, List.mem_append, List.mem_flatMap] at h
  rcases h with (((h | ⟨_, _, h⟩) | h) | ⟨_, _, h⟩) | ⟨_, _, h⟩ <;> rw [key h] <;>
    exact ⟨rfl, rfl⟩

end Language

namespace Expression

theorem isCyclic_of_operatorError? {e : Expression ι} {found : Diagnostic}
    (h : e.operatorError? = some found) : found.isCyclic = false := by
  cases e with
  | leaf | group =>
    rw [operatorError?] at h
    split at h
    · cases h
    · obtain rfl := Option.some.inj h
      rfl
  | operand => cases h

theorem incompleteness?_leaf (tag : ι) (operator : String) (first : Operand ι)
    (second : Option (Operand ι)) : incompleteness? (leaf tag operator first second) =
      if lacksOperand operator first second then
        some (.unsetOperand (leaf tag operator first second).render)
      else none := by
  have hiff : lacksOperand operator first second = true ↔
      first.isUnset = true ∨ operator ≠ "!" ∧ ∀ o ∈ second, o.isUnset = true := by
    cases second <;> simp [lacksOperand, Operator.isUnary]
  simp only [incompleteness?, hiff]

mutual

theorem filter_error_check : (e : Expression ι) →
    e.check.filter (·.severity = .error) = e.nodes.filterMap operatorError?
  | leaf tag operator first second => by
    by_cases h : operator ∈ Operator.comparisons <;>
      by_cases hl : lacksOperand operator first second = true <;>
        simp [check, nodes, operatorError?, Operator.isComparison, h, hl]
  | group tag operator children => by
    have ih := filter_error_checkEach children
    by_cases h : operator ∈ Operator.combinators <;>
      simp [check, nodes, operatorError?, Operator.isCombinator, h, ih]
  | operand o => by by_cases h : o.isUnset = true <;> simp [check, nodes, operatorError?, h]

/-- The errors in expressions are those of their operators. -/
theorem filter_error_checkEach : (list : List (Expression ι)) →
    (checkEach list).filter (·.severity = .error) = (nodesEach list).filterMap operatorError?
  | [] => rfl
  | e :: rest => by
    rw [checkEach, nodesEach, List.filter_append, List.filterMap_append, filter_error_check e,
      filter_error_checkEach rest]

end

mutual

theorem filter_warning_check : (e : Expression ι) →
    e.check.filter (·.severity = .warning) = e.nodes.filterMap incompleteness?
  | leaf tag operator first second => by
    by_cases h : Operator.isComparison operator = true <;>
      by_cases hl : lacksOperand operator first second = true <;>
        simp [check, nodes, incompleteness?_leaf, h, hl]
  | group tag operator children => by
    have ih := filter_warning_checkEach children
    by_cases h : Operator.isCombinator operator = true <;>
      simp [check, nodes, List.filterMap_cons, incompleteness?, h, ih]
  | operand o => by by_cases h : o.isUnset = true <;> simp [check, nodes, incompleteness?, h]

/-- The warnings in expressions are those of missing operands. -/
theorem filter_warning_checkEach : (list : List (Expression ι)) →
    (checkEach list).filter (·.severity = .warning) = (nodesEach list).filterMap incompleteness?
  | [] => rfl
  | e :: rest => by
    rw [checkEach, nodesEach, List.filter_append, List.filterMap_append, filter_warning_check e,
      filter_warning_checkEach rest]

end

end Expression

namespace Argument

theorem filter_error_check (a : Argument ι) : a.check.filter (·.severity = .error) =
    (Expression.nodesEach (a.expressions?.getD [])).filterMap Expression.operatorError? := by
  cases a with
  | literal => rfl
  | expressions _ list => exact Expression.filter_error_checkEach list

theorem filter_warning_check (a : Argument ι) : a.check.filter (·.severity = .warning) =
    (Expression.nodesEach (a.expressions?.getD [])).filterMap Expression.incompleteness? := by
  cases a with
  | literal => rfl
  | expressions _ list => exact Expression.filter_warning_checkEach list

end Argument

/-! ### Every place is visited -/

namespace Statement

theorem sitesFrom_append (parent : Option (Statement ι)) (depth : Nat)
    (previous : Option (Statement ι)) (index : Nat) (before after : Block ι) :
    sitesFrom parent depth previous index (before ++ after) =
      sitesFrom parent depth previous index before ++
        sitesFrom parent depth (before.getLast?.or previous) (index + before.length) after := by
  induction before generalizing previous index with
  | nil => rfl
  | cons s rest ih =>
    have hlast : (s :: rest).getLast?.or previous = rest.getLast?.or (some s) := by
      rw [List.getLast?_cons]
      cases rest.getLast? <;> rfl
    have hlen : index + (s :: rest).length = index + 1 + rest.length := by
      simp only [List.length_cons]
      omega
    rw [List.cons_append, sitesFrom, sitesFrom, ih, hlast, hlen, List.cons_append,
      List.append_assoc]

end Statement

namespace Block

variable {s : Statement ι} {parent previous outer : Option (Statement ι)} {block : Block ι}

theorem Stands.exists_sitesFrom (h : Stands s parent previous outer block) (depth : Nat) :
    ∃ site ∈ Statement.sitesFrom outer depth none 0 block,
      site.statement = s ∧ site.parent = parent ∧ site.previous = previous := by
  induction h generalizing depth with
  | here before after hprev =>
    refine ⟨⟨s, parent, previous, 0 + before.length, depth⟩, ?_, rfl, rfl, rfl⟩
    rw [Statement.sitesFrom_append, Option.or_none, ← hprev, Statement.sitesFrom]
    exact List.mem_append_right _ List.mem_cons_self
  | inside before after _ ih =>
    obtain ⟨site, hm, hsite⟩ := ih (depth + 1)
    refine ⟨site, ?_, hsite⟩
    rw [Statement.sitesFrom_append, Statement.sitesFrom, Statement.sitesBelow]
    exact List.mem_append_right _ (List.mem_cons_of_mem _ (List.mem_append_left _ hm))

mutual

theorem exists_stands_at : (t : Statement ι) → s ∈ t.nodes → (outer : Option (Statement ι)) →
    (before after : Block ι) →
    ∃ parent previous, Stands s parent previous outer (before ++ t :: after)
  | .simple head, h, outer, before, after => by
    obtain rfl := List.mem_singleton.mp h
    exact ⟨outer, _, .here before after rfl⟩
  | .compound head block, h, outer, before, after => by
    rcases List.mem_cons.mp h with rfl | inside
    · exact ⟨outer, _, .here before after rfl⟩
    · obtain ⟨parent, previous, hs⟩ :=
        exists_stands_beside block inside (some (.compound head block)) []
      exact ⟨parent, previous, .inside before after hs⟩

theorem exists_stands_beside : (block : Block ι) → s ∈ Statement.nodesEach block →
    (outer : Option (Statement ι)) → (before : Block ι) →
    ∃ parent previous, Stands s parent previous outer (before ++ block)
  | t :: rest, h, outer, before => by
    rcases List.mem_append.mp h with here | later
    · exact exists_stands_at t here outer before rest
    · rw [List.append_cons]
      exact exists_stands_beside rest later outer (before ++ [t])

end

end Block

namespace Language

variable {lang : Language}

/-- Only a call of a procedure of the header is ever found to be reentrant. -/
theorem isProcedure_of_reentrant {pending : Table String (Block Nat)} {active : List String}
    {tasks : List Task} {visit : Visit} (h : visit ∈ lang.schedule pending active tasks)
    (reentrant : visit.reentrant = true) :
    lang.isProcedure visit.site.statement.id = true ∧
      (visit.site.statement.id ∈ active ∨ visit.site.statement.id ∈ pending.keys) := by
  fun_induction schedule lang pending active tasks with
  | case1 => cases h
  | case2 pending active site rest id hid hactive ih =>
    rcases List.mem_cons.mp h with rfl | later
    · exact ⟨hid, .inl (List.contains_iff_mem.mp hactive)⟩
    · exact ih later
  | case3 pending active site rest id hid hactive ih | case4 pending active site rest id hid ih =>
    rcases List.mem_cons.mp h with rfl | later
    · cases reentrant
    · exact ih later
  | case5 pending active id rest body found ih =>
    refine ⟨(ih h).1, ?_⟩
    have hid : id ∈ pending.keys := Table.mem_keys_of_get? found
    rcases (ih h).2 with hactive | hpending
    · rcases List.mem_cons.mp hactive with same | outside
      · exact .inr (same ▸ hid)
      · exact .inl outside
    · exact .inr (Table.mem_keys_erase.mp hpending).1
  | case6 pending active id rest found ih => exact ih h
  | case7 pending active rest ih =>
    exact ⟨(ih h).1, (ih h).2.imp_left List.mem_of_mem_tail⟩

theorem exists_visit (lang : Language) {p : Program} {body : Block Nat} (hbody : body ∈ p.blocks)
    {s : Statement Nat} {parent previous : Option (Statement Nat)}
    (h : Block.Stands s parent previous none body) :
    ∃ visit ∈ lang.visitProgram p, visit.site.statement = s ∧ visit.site.parent = parent ∧
      visit.site.previous = previous := by
  obtain ⟨site, hm, hsite⟩ := h.exists_sitesFrom 0
  have hall : site ∈ p.blocks.flatMap fun block => block.sites :=
    List.mem_flatMap.mpr ⟨body, hbody, hm⟩
  rw [← (lang.map_site_visitProgram p).mem_iff] at hall
  obtain ⟨visit, hvisit, rfl⟩ := List.mem_map.mp hall
  exact ⟨visit, hvisit, hsite⟩

variable {visit : Visit} {d : Descriptor}

theorem reentrant_of_statement?_eq_none {p : Program} (hvisit : visit ∈ lang.visitProgram p)
    (h : lang.statement? visit.site.statement.id = none) : visit.reentrant = false := by
  apply eq_false_of_ne_true
  intro reentrant
  have hcall := (isProcedure_of_reentrant hvisit reentrant).1
  simp [isProcedure, h] at hcall

theorem checkVisit_of_none {p : Program} (hvisit : visit ∈ lang.visitProgram p)
    (h : lang.statement? visit.site.statement.id = none) :
    lang.checkVisit visit = [.unknownStatement visit.site.statement.id] := by
  simp [checkVisit, checkSite, h, reentrant_of_statement?_eq_none hvisit h]

theorem filter_error_checkVisit (h : lang.statement? visit.site.statement.id = some d) :
    (lang.checkVisit visit).filter (·.severity = .error) =
      lang.placementErrors d visit.site.statement.id (visit.site.parent.map Statement.id)
          (visit.site.previous.map Statement.id) ++
        visit.site.statement.expressionNodes.filterMap Expression.operatorError? ++
        if visit.reentrant then [.cyclicProcedure visit.site.statement.id] else [] := by
  have hplace : (lang.placementErrors d visit.site.statement.id
      (visit.site.parent.map Statement.id) (visit.site.previous.map Statement.id)).filter
        (·.severity = .error) = _ :=
    List.filter_eq_self.mpr fun found hm =>
      decide_eq_true (lang.kind_of_mem_placementErrors hm).1
  have hcall : (if visit.reentrant then [Diagnostic.cyclicProcedure visit.site.statement.id]
      else []).filter (·.severity = .error) =
        if visit.reentrant then [.cyclicProcedure visit.site.statement.id] else [] := by
    split <;> simp
  rw [checkVisit, lang.checkSite_of_some h, List.filter_append, List.filter_append, hplace, hcall,
    List.filter_flatMap, Statement.expressionNodes, List.filterMap_flatMap]
  simp only [Argument.filter_error_check]

theorem filter_warning_checkVisit (h : lang.statement? visit.site.statement.id = some d) :
    (lang.checkVisit visit).filter (·.severity = .warning) =
      visit.site.statement.expressionNodes.filterMap Expression.incompleteness? := by
  have hplace : (lang.placementErrors d visit.site.statement.id
      (visit.site.parent.map Statement.id) (visit.site.previous.map Statement.id)).filter
        (·.severity = .warning) = [] :=
    List.filter_eq_nil_iff.mpr fun found hm => by
      simp [(lang.kind_of_mem_placementErrors hm).1]
  have hcall : (if visit.reentrant then [Diagnostic.cyclicProcedure visit.site.statement.id]
      else []).filter (·.severity = .warning) = [] := by
    split <;> simp
  rw [checkVisit, lang.checkSite_of_some h, List.filter_append, List.filter_append, hplace, hcall,
    List.nil_append, List.append_nil, List.filter_flatMap, Statement.expressionNodes,
    List.filterMap_flatMap]
  simp only [Argument.filter_warning_check]

/-- The diagnostics of a program with distinct tags. Each statement stands somewhere; wherever it
stands, an analysis finds that it is unknown, or what is wrong with its place and then with its
expressions and at most that the call is cyclic; and it finds nothing else. -/
theorem analyze_stands (lang : Language) {p : Program}
    (distinct : (p.nodes.map Statement.tag).Nodup) :
    (∀ s ∈ p.nodes, ∃ body ∈ p.blocks, ∃ parent previous,
      Block.Stands s parent previous none body) ∧
    (∀ body ∈ p.blocks, ∀ s parent previous, Block.Stands s parent previous none body →
      match lang.statement? s.id with
      | none =>
        (lang.analyze p).errorsOf s.tag = [.unknownStatement s.id] ∧
          (lang.analyze p).warningsOf s.tag = []
      | some d =>
        (∃ cyclic, (cyclic = [] ∨ cyclic = [.cyclicProcedure s.id] ∧ d.isProcedure = true ∧
            s.id ∈ p.procedures.keys) ∧
          (lang.analyze p).errorsOf s.tag =
            lang.placementErrors d s.id (parent.map Statement.id) (previous.map Statement.id) ++
              s.expressionNodes.filterMap Expression.operatorError? ++ cyclic) ∧
        (lang.analyze p).warningsOf s.tag =
          s.expressionNodes.filterMap Expression.incompleteness?) ∧
    ∀ tag, tag ∈ (lang.analyze p).errors.keys ∨ tag ∈ (lang.analyze p).warnings.keys →
      tag ∈ p.nodes.map Statement.tag := by
  refine ⟨fun s hs => ?_, fun body hbody s parent previous h => ?_, fun _ => lang.mem_keys_analyze⟩
  · obtain ⟨body, hbody, hs⟩ := List.mem_flatMap.mp hs
    exact ⟨body, hbody, Block.exists_stands_beside body hs none []⟩
  · obtain ⟨visit, hvisit, rfl, rfl, rfl⟩ := lang.exists_visit hbody h
    have herrors := lang.errorsOf_analyze distinct hvisit
    have hwarnings := lang.warningsOf_analyze distinct hvisit
    rw [Visit.tag] at herrors hwarnings
    rw [herrors, hwarnings]
    cases hd : lang.statement? visit.site.statement.id with
    | none =>
      rw [checkVisit_of_none hvisit hd]
      exact ⟨rfl, rfl⟩
    | some d =>
      refine ⟨⟨_, ?_, filter_error_checkVisit hd⟩, filter_warning_checkVisit hd⟩
      split
      · rename_i reentrant
        have hcall := isProcedure_of_reentrant hvisit reentrant
        refine .inr ⟨rfl, ?_, hcall.2.resolve_left List.not_mem_nil⟩
        simpa [isProcedure, hd] using hcall.1
      · exact .inl rfl

/-- A statement that must follow another one stands first in its block. -/
theorem analyze_stands_first :
    let stop : Descriptor :=
      { shape := .unit, group := .misc, label := "stop", previous := { allowed := ["start"] } }
    let lang := define {} "stop" stop
    let s : Statement Nat := .simple { id := "stop", tag := 7 }
    let p : Program := { block := [s], next := 8 }
    (p.nodes.map Statement.tag).Nodup ∧ (lang.analyze p).warningsOf 7 = [] ∧
      (lang.analyze p).errorsOf 7 = [.missingPredecessor "stop" ["start"] none] := by
  intro stop lang s p
  have distinct : (p.nodes.map Statement.tag).Nodup := by decide
  have h := (analyze_stands lang distinct).2.1 p.block List.mem_cons_self s none none
    (.here [] [] rfl)
  have hd : lang.statement? s.id = some stop := rfl
  rw [hd] at h
  obtain ⟨⟨cyclic, hcyclic, herrors⟩, hwarnings⟩ := h
  rcases hcyclic with rfl | ⟨-, hprocedure, -⟩
  · exact ⟨distinct, hwarnings, herrors⟩
  · cases hprocedure

end Language

end BlockScript
