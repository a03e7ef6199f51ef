import BlockScript.Language.Registry
import BlockScript.Proofs.Edits
import BlockScript.Proofs.RoundTrip
import Mathlib.Data.List.InsertIdx

/-! Documents of edited programs. What the readers, the languages and the constructors of
expressions make is well-formed, and every edit that takes in such parts only keeps a program
well-formed. So the document of a program is read back, whatever edits led to it. -/

namespace BlockScript

variable {ι : Type}

/-! ### What edits take in -/

/-- The expressions that can be built or read. -/
inductive Expression.Built : Expression Unit → Prop
  | leaf (operator : String) {first : Operand Unit} {second : Option (Operand Unit)} :
      first.value.Proper → (∀ o ∈ second, o.value.Proper) → Built (comparison operator first second)
  | group (operator : String) {children : ExpressionList Unit} :
      (∀ e ∈ children, Built e) → Built (.group () operator children)
  | operand {o : Operand Unit} : o.value.Proper → Built (.operand o)
  | read {path : Path} {value : Json} {e : Expression Unit} :
      value.Proper → ofJson path value = .ok e → Built e

/-- The statements that are read or are instances of a kind of statement, with any tags and
flags. -/
inductive Statement.Made (s : Statement ι) : Prop
  | read {path : Path} {value : Json} {template : Template} :
      value.Proper → ofJson path value = .ok template → s.plain = template.plain → Made s
  | instantiate {lang : Language} {id : String} {template : Template} :
      lang.instantiate? id = some template → s.plain = template.plain → Made s

def ExpressionEdit.Documented : ExpressionEdit → Prop
  | push e => e.Built
  | _ => True

/-- The edits that take in made statements, built expressions and literals only. A boolean
expression is no literal. -/
def Edit.Documented : Edit → Prop
  | add _ template | insert _ _ template => template.Made
  | setArgument _ _ argument =>
    ∃ type value, argument = .literal type value ∧ type ≠ .booleanExpression ∧ value.Proper
  | expressions _ _ edit => edit.Documented
  | addVariable _ _ value => value.Proper
  | addProcedure _ body => ∀ s ∈ body, s.Made
  | _ => True

/-- The edits that take in well-formed parts only. -/
def Edit.Sound : Edit → Prop
  | add _ template | insert _ _ template => template.WellFormed
  | setArgument _ _ argument => argument.WellFormed
  | expressions _ _ edit => edit.Documented
  | addVariable _ _ value => value.Proper
  | addProcedure _ body => Statement.WellFormedEach body
  | _ => True

theorem Expression.Built.wellFormed {e : Expression Unit} (h : e.Built) : e.WellFormed := by
  induction h with
  | leaf operator hf hs => exact wellFormed_comparison hf hs
  | group operator _ ih => exact wellFormedEach_iff.mpr ih
  | operand h => exact h
  | read hv hr => exact wellFormed_of_ofJson hv hr

theorem Statement.Made.wellFormed {s : Statement ι} (h : s.Made) : s.WellFormed := by
  rw [← wellFormed_plain]
  cases h with
  | read hv hr same =>
    rw [same, wellFormed_plain]
    exact wellFormed_of_ofJson hv hr
  | instantiate hi same =>
    obtain ⟨d, -, rfl⟩ := Option.map_eq_some_iff.mp hi
    rw [same, wellFormed_plain]
    exact d.wellFormed_instantiate _

theorem Edit.Documented.sound {edit : Edit} (h : edit.Documented) : edit.Sound := by
  cases edit with
  | add | insert => exact Statement.Made.wellFormed h
  | setArgument =>
    obtain ⟨type, value, rfl, hne, hv⟩ := h
    exact ⟨hne, hv⟩
  | expressions | addVariable => exact h
  | addProcedure id body =>
    exact Statement.wellFormedEach_iff.mpr fun s hs => (h s hs).wellFormed
  | remove | move | transfer | retype | removeVariable | removeProcedure | markInitialized
  | markSkeleton => trivial

/-! ### Expressions -/

namespace ExpressionList

open Expression

variable {old new list list' : ExpressionList Nat} {next next' : Nat}

theorem wellFormed_setOperator (operator : String) (fresh : Nat) {e : Expression Nat}
    (h : e.WellFormed) : (e.setOperator operator fresh).WellFormed := by
  cases e with
  | leaf t _ first second =>
    obtain ⟨-, hf, hs⟩ := h
    rw [setOperator]
    split
    · rename_i hu
      exact ⟨by simp [hu], hf, by simp⟩
    · rename_i hu
      refine ⟨by simp [hu], hf, ?_⟩
      intro o ho
      obtain rfl := Option.some.inj ho
      cases second with
      | none => exact Json.proper_null
      | some o => exact hs o rfl
  | group => exact h
  | operand => exact h

theorem wellFormed_groupSiblings {selected : List Nat} {operator : String} {fresh : Nat}
    (h : groupSiblings? selected operator fresh old = some new) (wf : WellFormedEach old) :
    WellFormedEach new := by
  obtain ⟨before, chosen, after, rfl, hperm⟩ := perm_of_groupSiblings? h
  have hall : WellFormedEach (before ++ (chosen ++ after)) := by
    rw [wellFormedEach_iff] at wf ⊢
    intro e he
    exact wf e (hperm.mem_iff.mp he)
  rw [wellFormedEach_append, wellFormedEach_append] at hall
  rw [wellFormedEach_append]
  exact hall

theorem wellFormed_ungroupSiblings {tag : Nat} (h : ungroupSiblings? tag old = some new)
    (wf : WellFormedEach old) : WellFormedEach new := by
  obtain ⟨before, t, operator, children, after, rfl, rfl⟩ := eq_of_ungroupSiblings? h
  rw [wellFormedEach_append] at wf
  rw [wellFormedEach_append, wellFormedEach_append]
  exact ⟨⟨wf.1, wf.2.1⟩, wf.2.2⟩

theorem wellFormed_push {e : Expression ι} (he : e.WellFormed) (wf : WellFormedEach list)
    (next : Nat) : WellFormedEach (push list e next) := by
  rw [push, wellFormedEach_append]
  exact ⟨wf, wellFormed_stamp.mpr he, trivial⟩

mutual

theorem wellFormed_of_mem_nodes {n : Expression Nat} :
    (e : Expression Nat) → e.WellFormed → n ∈ e.nodes → n.WellFormed
  | leaf .., wf, h | operand _, wf, h => by
    obtain rfl := List.mem_singleton.mp h
    exact wf
  | group _ _ children, wf, h => by
    rcases List.mem_cons.mp h with rfl | inside
    · exact wf
    · exact wellFormed_of_mem_nodesEach children wf inside

theorem wellFormed_of_mem_nodesEach {n : Expression Nat} :
    (list : ExpressionList Nat) → WellFormedEach list → n ∈ nodesEach list → n.WellFormed
  | e :: rest, wf, h => by
    rcases List.mem_append.mp h with here | later
    · exact wellFormed_of_mem_nodes e wf.1 here
    · exact wellFormed_of_mem_nodesEach rest wf.2 later

end

theorem wellFormed_of_makes {edit : ExpressionEdit} (documented : edit.Documented)
    (h : edit.Makes next old new next') (wf : WellFormedEach old) : WellFormedEach new := by
  cases h with
  | push e => exact wellFormed_push (Built.wellFormed documented) wf next
  | setOperator _ operator e => exact ⟨wellFormed_setOperator operator next wf.1, trivial⟩
  | group hnew => exact wellFormed_groupSiblings hnew wf
  | ungroup hnew => exact wellFormed_ungroupSiblings hnew wf
  | delete =>
    rw [wellFormedEach_iff] at wf ⊢
    intro e he
    exact wf e (List.mem_of_mem_eraseP he)
  | restamp => exact ⟨wellFormed_stamp.mpr wf.1, trivial⟩
  | copy _ hm => exact wellFormed_push (wellFormed_of_mem_nodesEach old wf hm) wf next

theorem wellFormed_of_run? {edit : ExpressionEdit} (documented : edit.Documented)
    (h : edit.run? list next = some (list', next')) (wf : WellFormedEach list) :
    WellFormedEach list' := by
  obtain ⟨old, new, made, hr⟩ := ExpressionEdit.makes_of_run? h
  exact hr.wellFormed wf (wellFormed_of_makes documented made (hr.wellFormed_old wf))

end ExpressionList

/-! ### Statements -/

theorem Head.WellFormed.put {head : Head Nat} {index : Nat} {argument : Argument Nat}
    (h : head.WellFormed) (ha : argument.WellFormed) : (head.put index argument).WellFormed := by
  cases hargs : head.arguments with
  | none => simp [Head.WellFormed, Head.put, hargs]
  | some arguments =>
    simp only [Head.WellFormed, Head.put, hargs, Option.map_some, Option.getD_some] at h ⊢
    intro a hm
    rcases List.mem_or_eq_of_mem_set hm with hold | rfl
    · exact h a hold
    · exact ha

namespace Statement

theorem WellFormed.mapHead {s : Statement Nat} {f : Head Nat → Head Nat} (h : s.WellFormed)
    (hf : ∀ head : Head Nat, head.WellFormed → (f head).WellFormed) :
    (s.mapHead f).WellFormed := by
  cases s with
  | simple head => exact hf head h
  | compound head block => exact ⟨hf head h.1, h.2⟩

theorem WellFormed.argument {s : Statement Nat} {a : Argument Nat} (h : s.WellFormed)
    (hm : a ∈ s.arguments) : a.WellFormed := by
  cases s with
  | simple head => exact h a hm
  | compound head block => exact h.1 a hm

theorem wellFormedEach_insertIdx {block : Block Nat} {s : Statement Nat} {index : Nat}
    (wf : WellFormedEach block) (hs : s.WellFormed) :
    WellFormedEach (block.insertIdx index s) := by
  rw [wellFormedEach_iff] at wf ⊢
  intro t ht
  rcases List.eq_or_mem_of_mem_insertIdx ht with rfl | hold
  · exact hs
  · exact wf t hold

theorem wellFormedEach_eraseIdx {block : Block Nat} (index : Nat) (wf : WellFormedEach block) :
    WellFormedEach (block.eraseIdx index) := by
  rw [wellFormedEach_iff] at wf ⊢
  intro t ht
  exact wf t (List.mem_of_mem_eraseIdx ht)

theorem WellFormedEach.getElem? {block : Block Nat} {s : Statement Nat} {index : Nat}
    (wf : WellFormedEach block) (h : block[index]? = some s) : s.WellFormed :=
  wellFormedEach_iff.mp wf s (List.mem_of_getElem? h)

end Statement

/-! ### Programs -/

namespace Program

open Statement

variable {p q : Program}

theorem Replaced.wellFormed_old {old new : Block Nat} (h : Replaced old new p q)
    (wf : p.WellFormed) : WellFormedEach old := by
  obtain ⟨before, block, block', after, hp, -, hr⟩ := h.blocks
  exact hr.wellFormed_old (wf.blocks block (by simp [hp]))

theorem Replaced.wellFormed {old new : Block Nat} (h : Replaced old new p q) (wf : p.WellFormed)
    (hnew : WellFormedEach old → WellFormedEach new) : q.WellFormed := by
  obtain ⟨before, block, block', after, hp, hq, hr⟩ := h.blocks
  have hblocks := wf.blocks
  simp only [hp, List.forall_mem_append, List.forall_mem_cons] at hblocks
  refine ⟨by rw [h.variables]; exact wf.proper, ?_⟩
  simp only [hq, List.forall_mem_append, List.forall_mem_cons]
  exact ⟨hblocks.1, hr.wellFormed hblocks.2.1 (hnew (hr.wellFormed_old hblocks.2.1)), hblocks.2.2⟩

theorem wellFormed_insert {place : Address} {index : Nat} {template : Statement ι}
    (h : p.insert place index template = .ok q) (wf : p.WellFormed) (sound : template.WellFormed) :
    q.WellFormed := by
  obtain ⟨block, r, -, -, hr, rfl⟩ := replaced_of_insert h
  have hs : (template.stamp p.next).WellFormed := wellFormed_stamp.mpr sound
  have hwf := hr.wellFormed wf fun hold => wellFormedEach_insertIdx hold hs
  exact ⟨hwf.proper, hwf.blocks⟩

theorem wellFormed_remove {place : Address} {index : Nat} {removed : Statement Nat}
    (h : p.remove place index = .ok (removed, q)) (wf : p.WellFormed) : q.WellFormed := by
  obtain ⟨block, r, -, -, hr, rfl⟩ := replaced_of_remove h
  have hwf := hr.wellFormed wf (wellFormedEach_eraseIdx index)
  exact ⟨hwf.proper, hwf.blocks⟩

theorem wellFormed_move {place : Address} {source target : Nat}
    (h : p.move place source target = .ok q) (wf : p.WellFormed) : q.WellFormed := by
  obtain ⟨block, s, -, hs, -, hr⟩ := replaced_of_move h
  refine hr.wellFormed wf fun hold => ?_
  exact wellFormedEach_insertIdx (wellFormedEach_eraseIdx source hold) (hold.getElem? hs)

theorem wellFormed_transfer {source target : Address} {sourceIndex targetIndex : Nat}
    (h : p.transfer source sourceIndex target targetIndex = .ok q) (wf : p.WellFormed) :
    q.WellFormed := by
  by_cases hsame : source = target
  · rw [transfer, if_pos hsame] at h
    exact wellFormed_move h wf
  · obtain ⟨block, moved, r, -, hmoved, hr, rfl⟩ := replaced_of_transfer hsame h
    have hwf := hr.wellFormed wf (wellFormedEach_eraseIdx sourceIndex)
    cases htarget : r.block? target with
    | none => rwa [modifyBlock_of_block?_eq_none htarget]
    | some destination =>
      have hput := replaced_of_modifyBlock htarget (·.insertIdx targetIndex moved)
      have hs : moved.WellFormed := (hr.wellFormed_old wf).getElem? hmoved
      exact hput.wellFormed hwf fun hold => wellFormedEach_insertIdx hold hs

theorem wellFormed_putArgument {tag index : Nat} {argument : Argument Nat}
    (h : p.putArgument? tag index argument = some q) (wf : p.WellFormed)
    (ha : ∀ old, p.argument? tag index = some old → old.WellFormed → argument.WellFormed) :
    q.WellFormed := by
  obtain ⟨s, old, hs, hold, hr⟩ := replaced_of_putArgument? h
  have hfound : p.argument? tag index = some old := by simp [argument?, hs, hold]
  refine hr.wellFormed wf fun hone => ⟨?_, trivial⟩
  have hold' : old.WellFormed := hone.1.argument (List.mem_of_getElem? hold)
  exact hone.1.mapHead fun head hh => hh.put (ha old hfound hold')

theorem wellFormed_editExpressions {tag index : Nat} {edit : ExpressionEdit}
    (documented : edit.Documented) (h : p.editExpressions? tag index edit = some q)
    (wf : p.WellFormed) : q.WellFormed := by
  obtain ⟨type, list, list', next, r, hlist, hrun, hr, rfl⟩ := putArgument?_of_editExpressions? h
  have hwf : r.WellFormed := wellFormed_putArgument hr wf fun old hold hw => by
    obtain rfl := Option.some.inj (hlist.symm.trans hold)
    exact ⟨hw.1, ExpressionList.wellFormed_of_run? documented hrun hw.2⟩
  exact ⟨hwf.proper, hwf.blocks⟩

theorem wellFormed_run? {edit : Edit} (sound : edit.Sound) (h : edit.run? p = some q)
    (wf : p.WellFormed) : q.WellFormed := by
  cases edit with
  | add place template =>
    obtain ⟨index, hi⟩ := insert_of_add (Except.toOption_eq_some_iff.mp h)
    exact wellFormed_insert hi wf sound
  | insert => exact wellFormed_insert (Except.toOption_eq_some_iff.mp h) wf sound
  | remove =>
    obtain ⟨⟨s, r⟩, hr, rfl⟩ := Option.map_eq_some_iff.mp h
    exact wellFormed_remove (Except.toOption_eq_some_iff.mp hr) wf
  | move => exact wellFormed_move (Except.toOption_eq_some_iff.mp h) wf
  | transfer => exact wellFormed_transfer (Except.toOption_eq_some_iff.mp h) wf
  | setArgument tag index argument =>
    obtain ⟨r, hr, rfl⟩ := putArgument?_of_setArgument? h
    have hwf := wellFormed_putArgument hr wf fun _ _ _ => Argument.wellFormed_stamp.mpr sound
    exact ⟨hwf.proper, hwf.blocks⟩
  | retype tag index type =>
    exact wellFormed_putArgument h wf fun _ _ _ => Argument.wellFormed_unset type
  | expressions => exact wellFormed_editExpressions sound h wf
  | addVariable name type value =>
    obtain rfl := addVariable_eq (Except.toOption_eq_some_iff.mp h)
    refine ⟨fun v hv => ?_, wf.blocks⟩
    rcases Table.mem_values_insert hv with rfl | hold
    · exact sound
    · exact wf.proper v hold
  | removeVariable name =>
    obtain rfl := Option.some.inj h
    exact ⟨fun v hv => wf.proper v ((List.filter_sublist.map _).subset hv), wf.blocks⟩
  | addProcedure id body =>
    obtain ⟨rfl, hblocks⟩ := blocks_addProcedure (Except.toOption_eq_some_iff.mp h)
    refine ⟨wf.proper, ?_⟩
    rw [hblocks, List.forall_mem_append, List.forall_mem_singleton]
    exact ⟨wf.blocks, wellFormedEach_stampEach.mpr sound⟩
  | removeProcedure id =>
    obtain rfl := Option.some.inj h
    refine ⟨?_, fun b hb => wf.blocks b ((blocks_removeProcedure_sublist p id).subset hb)⟩
    rw [variables_removeProcedure]
    exact wf.proper
  | markInitialized | markSkeleton =>
    obtain rfl := Option.some.inj h
    exact ⟨wf.proper, wf.blocks⟩

/-! ### Runs -/

theorem wellFormed_run {edit : Edit} (documented : edit.Documented) (wf : p.WellFormed) :
    (edit.run p).WellFormed := by
  rw [Edit.run]
  cases h : edit.run? p with
  | none => exact wf
  | some q => exact wellFormed_run? documented.sound h wf

theorem wellFormed_after {edits : List Edit} (documented : ∀ edit ∈ edits, edit.Documented)
    (wf : p.WellFormed) : (p.after edits).WellFormed := by
  induction edits generalizing p with
  | nil => exact wf
  | cons edit rest ih =>
    rw [List.forall_mem_cons] at documented
    rw [after_cons]
    exact ih documented.2 (wellFormed_run documented.1 wf)

theorem Initial.wellFormed (h : p.Initial) : p.WellFormed := by
  cases h with
  | new next =>
    constructor
    · intro v hv
      cases hv
    · intro block hb
      obtain rfl := List.mem_singleton.mp hb
      trivial
  | loaded next hread => exact wellFormed_ofDraft (Draft.wellFormed_of_read hread) next

/-- Well-formed programs with the same content are equal, up to their bookkeeping. -/
theorem sameAs_of_content (wf : p.WellFormed) (content : p.content = q.content)
    (skeletons : p.skeletons = q.skeletons) (initialized : p.initialized = q.initialized) :
    p.sameAs q = true := by
  have hvariables : p.variables = q.variables := congrArg Draft.variables content
  have hblock : plainEach p.block = plainEach q.block := congrArg Draft.block content
  have hprocedures : p.content.procedures.entries = q.content.procedures.entries := by rw [content]
  have hv : p.variables.agree Variable.sameAs q.variables = true := by
    rw [← hvariables]
    refine Table.agree_of_get? rfl fun name v hm => ?_
    refine ⟨v, Entries.lookup_of_mem p.variables.nodup hm, ?_⟩
    simp [Variable.sameAs, Json.sameAs_self (wf.proper v (List.mem_map_of_mem hm))]
  have hp : p.procedures.agree sameEach q.procedures = true := by
    refine Table.agree_of_get? ?_ fun id body hm => ?_
    · simpa [Program.content, Table.mapValues, Table.size] using congrArg List.length hprocedures
    · have hplain : (id, plainEach body) ∈ q.content.procedures.entries := by
        rw [← hprocedures]
        exact List.mem_map_of_mem (f := fun entry => (entry.1, plainEach entry.2)) hm
      obtain ⟨⟨id', body'⟩, hm', heq⟩ := List.mem_map.mp hplain
      obtain ⟨rfl, hbody⟩ := Prod.mk.inj heq
      refine ⟨body', Entries.lookup_of_mem q.procedures.nodup hm', ?_⟩
      have hwf := wf.blocks body (List.mem_cons_of_mem _ (List.mem_map_of_mem hm))
      exact sameEach_of_plainEach_eq hwf hbody.symm
  have hb : sameEach p.block q.block = true :=
    sameEach_of_plainEach_eq (wf.blocks p.block List.mem_cons_self) hblock
  simp [sameAs, hv, hp, hb, skeletons, initialized]

theorem keys_of_content (content : p.content = q.content) :
    p.variables.keys = q.variables.keys ∧ p.procedures.keys = q.procedures.keys := by
  refine ⟨congrArg (fun d => d.variables.keys) content, ?_⟩
  have hkeys := congrArg (fun d => d.procedures.keys) content
  simpa [Program.content, Table.mapValues, Table.keys, Function.comp_def] using hkeys

/-- Whatever documented edits lead to a program, its document is read back as an equal program, with
variables and procedures in the same order and with the same document. -/
theorem reload_after {start : Program} (h : start.Initial) {edits : List Edit}
    (documented : ∀ edit ∈ edits, edit.Documented) (next : Nat) :
    let p := start.after edits
    ∃ draft, Draft.ofJson p.toJson = .ok draft ∧
      (∀ text, Json.read text = .ok p.toJson → Draft.read text = .ok draft) ∧
      let q := ofDraft draft next
      { p with skeletons := [], initialized := [] }.sameAs q = true ∧
        q.variables.keys = p.variables.keys ∧ q.procedures.keys = p.procedures.keys ∧
        q.toJson = p.toJson := by
  intro p
  have wf : p.WellFormed := wellFormed_after documented h.wellFormed
  have hread : Draft.ofJson p.toJson = .ok p.content := Draft.ofJson_toJson wf
  have hcontent : (ofDraft p.content next).content = p.content := by
    rw [content_ofDraft, plain_content]
  refine ⟨p.content, hread, fun text ht => ?_, ?_, ?_⟩
  · rw [Draft.read, Draft.ofText, ht]
    simp only [hread, Except.mapError]
  · exact sameAs_of_content ⟨wf.proper, wf.blocks⟩ hcontent.symm rfl rfl
  · obtain ⟨hv, hp⟩ := keys_of_content hcontent
    exact ⟨hv, hp, toJson_congr hcontent⟩

/-- A statement with a condition is added, the condition gets a comparison that becomes a negation,
and a procedure is added. -/
theorem reload_after_condition :
    let condition : Template :=
      .simple { id := "when", tag := (), arguments := some [.unset .booleanExpression] }
    let x : Operand Unit := ⟨(), .variable, .string "x"⟩
    let edits : List Edit := [.add .root condition,
      .expressions 0 0 (.push (Expression.comparison "==" x none)),
      .expressions 0 0 (.setOperator 1 "!"), .addProcedure "idle" [condition]]
    let p := after {} edits
    p.nodes.map Statement.tag = [0, 5] ∧ ∃ draft, Draft.ofJson p.toJson = .ok draft ∧
      (ofDraft draft 0).toJson = p.toJson := by
  intro condition x edits p
  have made : condition.Made := by
    have hread : Statement.ofJson []
        (.object [("id", .string "when"),
          ("arguments", .array [.object [("type", .string "boolean_expression")]])]) =
          .ok condition := by rfl
    exact .read (by simp [Json.ProperFields, Json.ProperItems]) hread rfl
  have documented : ∀ edit ∈ edits, edit.Documented := by
    simp only [edits, List.forall_mem_cons, List.not_mem_nil, false_imp_iff, implies_true, and_true]
    exact ⟨made, .leaf "==" trivial (by simp), trivial, by simpa [Edit.Documented] using made⟩
  obtain ⟨draft, hread, -, -, -, -, hq⟩ := reload_after (.new 0) documented 0
  exact ⟨by decide, draft, hread, hq⟩

end Program

end BlockScript
