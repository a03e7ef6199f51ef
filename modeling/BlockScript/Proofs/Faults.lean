import BlockScript.Proofs.Acceptance
import BlockScript.Proofs.Demands

/-! A document is refused at the first fault. Every reader looks at the demands on its part one
after the other: it reports the first that is not met, with the place of the part and with what is
wrong there, and where all are met it returns a tree. -/

namespace BlockScript

open Json

/-- The fault that a part at a path has if it does not meet the demand. -/
def Demand.fault? (path : Path) (d : Demand) : Option Malformed :=
  (d.rule.cause? d.part).map (⟨path ++ d.path, ·⟩)

/-- What the reader of a part reports, if it reports a fault. -/
def Malformed.reported? {α : Type} : Except Malformed α → Option Malformed
  | .ok _ => none
  | .error fault => some fault

open Malformed (reported?)

/-- The reader of a part at a path reports the first fault, if there is any. -/
def Reports {α : Type} (path : Path) (demands : List Demand) (x : Except Malformed α) : Prop :=
  reported? x = demands.findSome? (Demand.fault? path)

section Reports

variable {α β : Type} {path : Path} {demands rest : List Demand} {v : Json}

theorem Demand.fault?_under (path : Path) (step : Path.Step) (d : Demand) :
    (d.under step).fault? path = d.fault? (path ++ [step]) := by
  simp [fault?, under]

theorem Reports.under {step : Path.Step} {x : Except Malformed α}
    (h : Reports (path ++ [step]) demands x) : Reports path (demands.map (.under step)) x := by
  have hfault : Demand.fault? path ∘ Demand.under step = Demand.fault? (path ++ [step]) :=
    funext fun d => d.fault?_under path step
  rw [Reports, List.findSome?_map, hfault]
  exact h

theorem reports_ok (a : α) : Reports path [] (.ok a) := rfl

theorem Reports.map {x : Except Malformed α} (h : Reports path demands x) (f : α → β) :
    Reports path demands (f <$> x) := by
  cases x <;> exact h

/-- Nothing is left to report. -/
theorem Reports.finish {x : Except Malformed α} {f : α → Except Malformed β}
    (h : Reports path demands x) (hf : ∀ a, x = .ok a → ∃ b, f a = .ok b) :
    Reports path demands (x >>= f) := by
  cases x with
  | error fault => exact h
  | ok a =>
    obtain ⟨b, hb⟩ := hf a rfl
    rw [Except.ok_bind, hb]
    exact h

theorem Reports.bind {x : Except Malformed α} {f : α → Except Malformed β}
    (first : Reports path demands x) (next : ∀ a, x = .ok a → Reports path rest (f a)) :
    Reports path (demands ++ rest) (x >>= f) := by
  rw [Reports, List.findSome?_append, ← first]
  cases x with
  | error fault => rfl
  | ok a => exact next a rfl

/-- Where a demand is met, what follows decides. -/
theorem Reports.met {rule : Demand.Rule} {x : Except Malformed α} (met : rule.cause? v = none)
    (h : Reports path rest x) : Reports path (v.must rule :: rest) x := by
  have hfault : (v.must rule).fault? path = none := by simp [Demand.fault?, must, met]
  rw [Reports, List.findSome?_cons, hfault]
  exact h

/-- Where a demand is not met, what follows does not matter. -/
theorem Reports.broken {rule : Demand.Rule} {cause : Malformed.Cause}
    (broken : rule.cause? v = some cause) :
    Reports path (v.must rule :: rest) (.error ⟨path, cause⟩ : Except Malformed α) := by
  have hfault : (v.must rule).fault? path = some ⟨path, cause⟩ := by
    simp [Demand.fault?, must, broken]
  rw [Reports, List.findSome?_cons, hfault]
  rfl

end Reports

section Reading

variable {α : Type} {path : Path} {v : Json} {fields : List (String × Json)}

/-! ### Values with a type -/

theorem Json.reports_fields {rest : List Demand} {f : List (String × Json) → Except Malformed α}
    (h : ∀ fields, v = .object fields → Reports path rest (f fields)) :
    Reports path (v.must .object :: rest) (v.fields path >>= f) := by
  cases v with
  | object fields => exact .met rfl (h fields rfl)
  | _ => exact .broken rfl

theorem ValueType.reports_ofFields :
    Reports path [must (.object fields) .type] (ValueType.ofFields path fields) := by
  unfold ofFields
  split
  · rename_i name hfield
    split
    · rename_i type hname
      exact .met (by simp [Demand.Rule.cause?, hfield, hname]) (reports_ok type)
    · rename_i hname
      exact .broken (by simp [Demand.Rule.cause?, hfield, hname])
  · rename_i hfield
    refine .broken ?_
    simp only [Demand.Rule.cause?, field?_object]

/-- Whatever is made of the type and the value of an object. -/
theorem reports_typed {f : List (String × Json) → ValueType → Except Malformed α}
    (h : ∀ fields type, Reports path [] (f fields type)) :
    Reports path v.typedDemands
      (v.fields path >>= fun fields => ValueType.ofFields path fields >>= f fields) :=
  reports_fields fun fields hv => hv ▸ ValueType.reports_ofFields.bind fun type _ => h fields type

theorem Variable.reports_ofJson : Reports path v.typedDemands (Variable.ofJson path v) :=
  reports_typed fun _ _ => reports_ok _

namespace Operand

theorem reports_ofFields :
    Reports path [must (.object fields) .type] (Operand.ofFields path fields) :=
  ValueType.reports_ofFields.bind fun _ _ => reports_ok _

theorem reports_ofJson : Reports path v.typedDemands (Operand.ofJson path v) :=
  reports_fields fun _ hv => hv ▸ reports_ofFields

end Operand

/-! ### Fields, items and tables -/

section Parts

variable {sub : Json → List Demand} {key : String}

/-- Items are read one after the other. -/
theorem reports_items (read : Path → Json → Except Malformed α)
    (readItems : Path → Nat → List Json → Except Malformed (List α))
    (nil : ∀ path place, readItems path place [] = .ok [])
    (cons : ∀ path place item rest, readItems path place (item :: rest) = do
      let a ← read (path ++ [.index place]) item
      return a :: (← readItems path (place + 1) rest))
    {items : List Json} (h : ∀ item ∈ items, ∀ path, Reports path (sub item) (read path item))
    (place : Nat) : Reports path (itemDemands sub place items) (readItems path place items) := by
  induction items generalizing place with
  | nil =>
    rw [nil]
    exact reports_ok []
  | cons item rest ih =>
    rw [List.forall_mem_cons] at h
    rw [cons, itemDemands]
    exact (h.1 _).under.bind fun a _ => (ih h.2 (place + 1)).finish fun list _ => ⟨_, rfl⟩

/-- The items of an array under a key are read if the key is there. -/
theorem reports_arrayField {read : List Json → Except Malformed (List α)}
    (h : ∀ items, fields.lookup key = some (.array items) →
      Reports (path ++ [.key key]) (itemDemands sub 0 items) (read items)) :
    Reports path (fieldDemands key (arrayDemands sub) (.object fields))
      (match fields.lookup key with
        | some (.array items) => some <$> read items
        | some _ => .error ⟨path ++ [.key key], .notArray⟩
        | none => .ok none) := by
  rw [fieldDemands, field?_object]
  cases hfield : fields.lookup key with
  | none => exact reports_ok none
  | some part =>
    refine .under ?_
    cases part with
    | array items => exact .met rfl ((h items hfield).map some)
    | _ => exact .broken rfl

variable {read : Path → Json → Except Malformed α}

theorem reports_ofFields (h : ∀ path part, Reports path (sub part) (read path part))
    (table : Table String α) :
    Reports path (fields.flatMap fun (key, part) => (sub part).map (.under (.key key)))
      (Table.ofFields read path fields table) := by
  induction fields generalizing table with
  | nil => exact reports_ok table
  | cons field rest ih => exact (h _ field.2).under.bind fun a _ => ih _

/-- A table under a key of a header is read if the key is there. -/
theorem Draft.reports_tableOfField (h : ∀ path part, Reports path (sub part) (read path part)) :
    Reports path (fieldDemands key (tableDemands sub) (.object fields))
      (Draft.tableOfField read path fields key) := by
  rw [fieldDemands, field?_object, tableOfField]
  cases fields.lookup key with
  | none => exact reports_ok ∅
  | some part =>
    refine .under (reports_fields fun fields hv => ?_)
    subst hv
    exact reports_ofFields h ∅

end Parts

/-! ### Expressions -/

theorem Operand.reports_ofField? {key : String} :
    Reports path (fieldDemands key typedDemands (.object fields))
      (Operand.ofField? path fields key) := by
  rw [fieldDemands, field?_object, Operand.ofField?]
  cases fields.lookup key with
  | none => exact reports_ok none
  | some part => exact .under (Operand.reports_ofJson.map some)

namespace Expression

theorem reports_comparisonOfFields (operator : String) :
    Reports path (comparisonDemands (.object fields))
      (comparisonOfFields path operator fields) := by
  rw [comparisonDemands, comparisonOfFields]
  cases hfirst : fields.lookup "opd1" with
  | none =>
    rw [Operand.ofField?, hfirst]
    exact .broken (by simp [Demand.Rule.cause?, hfirst])
  | some part =>
    refine .met (by simp [Demand.Rule.cause?, hfirst]) (Operand.reports_ofField?.bind ?_)
    intro first hread
    cases first with
    | none =>
      rw [Operand.ofField?_eq_ok_iff, rel_none_iff, hfirst] at hread
      cases hread
    | some first => exact Operand.reports_ofField?.finish fun second _ => ⟨_, rfl⟩

/-- The children of a group are smaller than the group. -/
theorem reports_ofJson (path : Path) (v : Json) : Reports path (demands v) (ofJson path v) := by
  cases v with
  | object fields =>
    by_cases hoperator : ∃ operator, fields.lookup "operator" = some (.string operator)
    · obtain ⟨operator, words⟩ := hoperator
      have hmet : Demand.Rule.operator.cause? (.object fields) = none := by
        simp [Demand.Rule.cause?, words]
      rw [ofJson]
      simp only [words]
      cases found : fields.lookup "operands" with
      | none =>
        have hnone : childrenOfFields path fields = .ok none := by
          rw [childrenOfFields_eq, found]
        rw [demands_comparison words found, hnone]
        exact .met rfl (.met hmet (reports_comparisonOfFields operator))
      | some part =>
        rw [demands_group words found]
        have hchildren : Reports path (fieldDemands "operands" (arrayDemands demands)
            (.object fields)) (childrenOfFields path fields) := by
          rw [childrenOfFields_eq]
          exact reports_arrayField fun items hitems =>
            reports_items ofJson ofItems (fun _ _ => rfl) (fun _ _ _ _ => rfl)
              (fun item hm path => reports_ofJson path item) 0
        rw [fieldDemands, field?_object, found] at hchildren
        refine .met rfl (.met hmet (hchildren.finish fun children hread => ?_))
        rw [childrenOfFields_eq_ok_iff, found] at hread
        cases children with
        | none => cases hread
        | some children => exact ⟨_, rfl⟩
    · have wordless := not_exists.mp hoperator
      rw [demands_operand wordless, ofJson]
      refine .met rfl ?_
      split
      · rename_i operator words
        exact absurd words (wordless operator)
      · split
        · rename_i htype
          refine .met ?_ (Operand.reports_ofFields.map _)
          simp [Demand.Rule.cause?, htype]
        · rename_i htype
          refine .broken ?_
          simp [Demand.Rule.cause?, htype]
  | _ => exact .broken rfl
termination_by sizeOf v
decreasing_by exact Json.sizeOf_item_lt hitems hm

end Expression

/-! ### Statements -/

theorem ExpressionList.reports_ofJson :
    Reports path (if v.isNull then [] else v.arrayDemands Expression.demands)
      (ExpressionList.ofJson path v) := by
  cases v with
  | null => exact reports_ok []
  | array items =>
    exact .met rfl (reports_items Expression.ofJson Expression.ofItems (fun _ _ => rfl)
      (fun _ _ _ _ => rfl) (fun item _ path => Expression.reports_ofJson path item) 0)
  | _ => exact .broken rfl

namespace Argument

theorem reports_ofJson (path : Path) (v : Json) : Reports path (demands v) (ofJson path v) := by
  refine reports_fields fun fields hv => ?_
  subst hv
  refine ValueType.reports_ofFields.bind fun type htype => ?_
  rw [ValueType.ofFields_eq_ok_iff] at htype
  have hknown : type? (.object fields) = some type := by
    simp [type?, htype, ValueType.toJson, string?, ValueType.ofName?_name]
  rw [hknown]
  split
  · rename_i hcondition
    obtain rfl := Option.some.inj hcondition
    rw [fieldDemands, field?_object, valueOr]
    cases fields.lookup "value" with
    | none => exact reports_ok (expressions .booleanExpression [])
    | some value =>
      exact .under (ExpressionList.reports_ofJson.map (expressions .booleanExpression))
  · rename_i hother
    split
    · exact absurd rfl hother
    · exact reports_ok _

theorem reports_ofFields :
    Reports path (fieldDemands "arguments" (arrayDemands demands) (.object fields))
      (Argument.ofFields path fields) :=
  reports_arrayField fun _ _ => reports_items ofJson ofItems (fun _ _ => rfl) (fun _ _ _ _ => rfl)
    (fun item _ path => reports_ofJson path item) 0

end Argument

namespace Statement

/-- The statements of a block are smaller than the statement that it stands in. -/
theorem reports_ofJson (path : Path) (v : Json) : Reports path (demands v) (ofJson path v) := by
  cases v with
  | object fields =>
    rw [demands, blockDemands_eq, ofJson]
    refine .met rfl ?_
    split
    · rename_i id hid
      have hblock : Reports path (fieldDemands "block" Block.demands (.object fields))
          (blockOfFields path fields) := by
        rw [blockOfFields_eq]
        exact reports_arrayField fun items hitems =>
          reports_items ofJson ofItems (fun _ _ => rfl) (fun _ _ _ _ => rfl)
            (fun item hm path => reports_ofJson path item) 0
      refine .met (by simp [Demand.Rule.cause?, hid]) ?_
      refine Argument.reports_ofFields.bind fun arguments _ => hblock.finish fun block _ => ?_
      cases block with
      | none => exact ⟨_, rfl⟩
      | some block => exact ⟨_, rfl⟩
    · rename_i hid
      refine .broken ?_
      simp only [Demand.Rule.cause?, field?_object]
  | _ => exact .broken rfl
termination_by sizeOf v
decreasing_by exact Json.sizeOf_item_lt hitems hm

end Statement

theorem Block.reports_ofJson (path : Path) (v : Json) :
    Reports path (demands v) (ofJson path v) := by
  cases v with
  | array items =>
    exact .met rfl (reports_items Statement.ofJson Statement.ofItems (fun _ _ => rfl)
      (fun _ _ _ _ => rfl) (fun item _ path => Statement.reports_ofJson path item) 0)
  | _ => exact .broken rfl

/-! ### Documents -/

namespace Draft

theorem reports_headerOfFields :
    Reports [] (fieldDemands "header" headerDemands (.object fields)) (headerOfFields fields) := by
  rw [fieldDemands, field?_object, headerOfFields]
  cases fields.lookup "header" with
  | none => exact reports_ok _
  | some header =>
    refine .under (reports_fields fun fields hheader => ?_)
    subst hheader
    refine (reports_tableOfField fun _ _ => Variable.reports_ofJson).bind fun vars _ => ?_
    exact (reports_tableOfField Block.reports_ofJson).finish fun procedures _ => ⟨_, rfl⟩

theorem reports_ofJson (v : Json) : Reports [] (demands v) (ofJson v) := by
  refine reports_fields fun fields hv => ?_
  subst hv
  refine reports_headerOfFields.bind fun header _ => ?_
  cases hblock : fields.lookup "block" with
  | none => exact .broken (by simp [Demand.Rule.cause?, hblock])
  | some block =>
    refine .met (by simp [Demand.Rule.cause?, hblock]) ?_
    rw [fieldDemands, field?_object, hblock]
    exact .under ((Block.reports_ofJson _ block).finish fun block _ => ⟨_, rfl⟩)

/-- The procedures of a header at a path. -/
theorem reports_source (path : Path) (v : Json) :
    Reports path (sourceDemands v) (do
      match (← v.fields path).lookup "userProcedures" with
      | some value => Table.ofJson Block.ofJson (path ++ [.key "userProcedures"]) value
      | none => .error ⟨path, .noProcedures⟩) := by
  refine reports_fields fun fields hv => ?_
  subst hv
  cases hprocedures : fields.lookup "userProcedures" with
  | none => exact .broken (by simp [Demand.Rule.cause?, hprocedures])
  | some value =>
    refine .met (by simp [Demand.Rule.cause?, hprocedures]) ?_
    have htable : Reports path
        (fieldDemands "userProcedures" (tableDemands Block.demands) (.object fields))
        (tableOfField Block.ofJson path fields "userProcedures") :=
      reports_tableOfField Block.reports_ofJson
    rwa [tableOfField, hprocedures] at htable

theorem reports_proceduresOfJson (v : Json) :
    Reports [] (procedureDemands v) (proceduresOfJson v) := by
  unfold proceduresOfJson procedureDemands headerPart
  cases v with
  | object fields =>
    dsimp only [field?_object]
    cases fields.lookup "header" with
    | none => exact reports_source [] _
    | some header => exact .under (reports_source [.key "header"] header)
  | _ => exact reports_source [] _

end Draft

end Reading

/-! ### The first fault -/

/-- The first demand that is not met is about the part at the path of the fault, and the fault says
what is wrong there. -/
def FirstFault (v : Json) (demands : List Demand) (fault : Malformed) : Prop :=
  ∃ before d after, demands = before ++ d :: after ∧ (∀ earlier ∈ before, earlier.Met) ∧
    fault.path = d.path ∧ fault.path.resolve? v = some d.part ∧
    d.rule.cause? d.part = some fault.cause

section FirstFault

variable {α : Type} {v : Json} {demands : List Demand} {x : Except Malformed α}

theorem Demand.fault?_eq_none_iff {path : Path} {d : Demand} : d.fault? path = none ↔ d.Met := by
  simp [fault?, Met]

theorem Demand.fault?_eq_some_iff {d : Demand} {fault : Malformed} :
    d.fault? [] = some fault ↔
      fault.path = d.path ∧ d.rule.cause? d.part = some fault.cause := by
  obtain ⟨path, cause⟩ := fault
  simp only [fault?, List.nil_append, Option.map_eq_some_iff, Malformed.mk.injEq]
  constructor
  · rintro ⟨_, hcause, rfl, rfl⟩
    exact ⟨rfl, hcause⟩
  · rintro ⟨rfl, hcause⟩
    exact ⟨cause, hcause, rfl, rfl⟩

theorem Reports.eq_error_iff (h : Reports [] demands x) (located : Demand.Located v demands)
    (fault : Malformed) : x = .error fault ↔ FirstFault v demands fault := by
  have hreported : x = .error fault ↔ reported? x = some fault := by
    cases x <;> simp [reported?]
  rw [hreported, h, List.findSome?_eq_some_iff]
  constructor
  · rintro ⟨before, d, after, rfl, hd, hbefore⟩
    obtain ⟨hpath, hcause⟩ := Demand.fault?_eq_some_iff.mp hd
    refine ⟨before, d, after, rfl, fun earlier hm => ?_, hpath, ?_, hcause⟩
    · exact Demand.fault?_eq_none_iff.mp (hbefore earlier hm)
    · rw [hpath]
      exact located d (by simp)
  · rintro ⟨before, d, after, rfl, hbefore, hpath, -, hcause⟩
    refine ⟨before, d, after, rfl, Demand.fault?_eq_some_iff.mpr ⟨hpath, hcause⟩, ?_⟩
    exact fun earlier hm => Demand.fault?_eq_none_iff.mpr (hbefore earlier hm)

theorem Reports.exists_ok_iff (h : Reports [] demands x) :
    (∃ a, x = .ok a) ↔ ∀ d ∈ demands, d.Met := by
  have hreported : (∃ a, x = .ok a) ↔ reported? x = none := by
    cases x <;> simp [reported?]
  rw [hreported, h, List.findSome?_eq_none_iff]
  simp only [Demand.fault?_eq_none_iff]

end FirstFault

theorem Path.text_eq (path : Path) : path.text = "$" ++ String.join (path.map Step.text) := by
  suffices ∀ start : String, path.foldl (fun s step => s ++ step.text) start =
      start ++ String.join (path.map Step.text) from this "$"
  induction path with
  | nil => simp
  | cons step rest ih =>
    intro start
    rw [List.foldl_cons, ih, List.map_cons, String.join_cons, String.append_assoc]

namespace Draft

theorem ofText_eq_malformed_iff {α : Type} {read : Json → Except Malformed α} {text : String}
    {v : Json} (htext : Json.read text = .ok v) {fault : Malformed} :
    ofText read text = .error (.malformed fault) ↔ read v = .error fault := by
  rw [ofText, htext]
  dsimp only
  cases read v <;> simp [Except.mapError]

/-- A JSON value is refused, as a document or as a source of procedures, exactly with its first
fault: there is a part at the path, the part breaks the rule for its place in the way that is said,
and all that is demanded before is met. -/
theorem malformed_exact (v : Json) :
    (v.Proper →
      (∀ d ∈ demands v ++ procedureDemands v, d.path.resolve? v = some d.part) ∧
      (∀ fault, ofJson v = .error fault ↔ FirstFault v (demands v) fault) ∧
      ∀ fault, proceduresOfJson v = .error fault ↔ FirstFault v (procedureDemands v) fault) ∧
    ((∃ d, ofJson v = .ok d) ↔ ∀ d ∈ demands v, d.Met) ∧
    ((∃ procedures, proceduresOfJson v = .ok procedures) ↔ ∀ d ∈ procedureDemands v, d.Met) ∧
    (∀ text, Json.read text = .ok v → v.Proper ∧ ∀ fault,
      (read text = .error (.malformed fault) ↔ ofJson v = .error fault) ∧
      (readProcedures text = .error (.malformed fault) ↔ proceduresOfJson v = .error fault)) ∧
    ∀ fault, (ImportError.malformed fault).message =
      "$" ++ String.join (fault.path.map Path.Step.text) ++ ": " ++ fault.cause.text := by
  refine ⟨fun proper => ⟨?_, fun fault => ?_, fun fault => ?_⟩, ?_, ?_, fun text htext => ?_,
    fun fault => ?_⟩
  · exact (located_demands proper).append (located_procedureDemands proper)
  · exact (reports_ofJson v).eq_error_iff (located_demands proper) fault
  · exact (reports_proceduresOfJson v).eq_error_iff (located_procedureDemands proper) fault
  · exact (reports_ofJson v).exists_ok_iff
  · exact (reports_proceduresOfJson v).exists_ok_iff
  · exact ⟨Json.proper_of_read htext, fun fault =>
      ⟨ofText_eq_malformed_iff htext, ofText_eq_malformed_iff htext⟩⟩
  · rw [← Path.text_eq]
    rfl

/-- A negation names an unknown type; the second operand and the block, which come later, are no
better. Procedures are missed where there are none, and a block has to be an array. -/
theorem malformed_exact_negation :
    let typed (type : String) : Json := .object [("type", .string type)]
    let negation : Json := .object
      [("operator", .string "!"), ("opd2", .null), ("opd1", typed "float")]
    let condition : Json := .object [("type", .string "boolean_expression"), ("value", .array
      [.object [("operator", .string "&&"), ("operands", .array [typed "boolean", negation])]])]
    let v : Json := .object
      [("block", .array [.object
          [("block", .null), ("id", .string "if"), ("arguments", .array [condition])]]),
        ("header", .object [("userVariables", .object [("x", typed "number")])])]
    let path : Path := [.key "block", .index 0, .key "arguments", .index 0, .key "value", .index 0,
      .key "operands", .index 1, .key "opd1"]
    v.Proper ∧ FirstFault v (demands v) ⟨path, .unknownType "float"⟩ ∧
      FirstFault v (procedureDemands v) ⟨[.key "header"], .noProcedures⟩ ∧
      (ImportError.malformed ⟨path, .unknownType "float"⟩).message =
        "$.block[0].arguments[0].value[0].operands[1].opd1: unknown type `float`" ∧
      read "\x7b\"block\": null\x7d" = .error (.malformed ⟨[.key "block"], .notArray⟩) := by
  intro typed negation condition v path
  have proper : v.Proper := by
    simp [v, condition, negation, typed, Json.ProperFields, Json.ProperItems]
  obtain ⟨hfaults, -, -, -, hmessage⟩ := malformed_exact v
  obtain ⟨-, hdocument, hprocedures⟩ := hfaults proper
  refine ⟨proper, (hdocument _).mp rfl, (hprocedures _).mp rfl, ?_, ?_⟩
  · rw [hmessage]
    decide
  · obtain ⟨-, -, -, htext, -⟩ := malformed_exact (.object [("block", .null)])
    exact (((htext _ rfl).2 _).1).mpr rfl

end Draft

end BlockScript
