import BlockScript.Proofs.WellFormed

/-! What a document has to be. Every part of it has to meet demands that depend on where it stands;
they are listed with their places, in the order in which the parts are read. The list of a value
does not stop at a demand that is not met, and says nothing of how a document is read. -/

namespace BlockScript

namespace Json

/-- The value under a key, if this is an object that has it. -/
def field? (key : String) : Json → Option Json
  | .object fields => fields.lookup key
  | _ => none

/-- The type that an object names. -/
def type? (v : Json) : Option ValueType := ((v.field? "type").bind string?).bind ValueType.ofName?

end Json

inductive Demand.Rule where
  | object
  | array
  /-- A document has a root block. -/
  | block
  /-- What procedures are taken from has them. -/
  | procedures
  /-- A statement has an id. -/
  | id
  | type
  /-- An expression has an operator in words, or it has a type as operands have. -/
  | operator
  /-- A comparison has a first operand. -/
  | operand

/-- A part of a value, the path to it, and what it has to be or to have. -/
structure Demand where
  path : Path
  rule : Demand.Rule
  part : Json

namespace Demand

/-- What is wrong with a value that breaks the rule. -/
def Rule.cause? (v : Json) : Rule → Option Malformed.Cause
  | object =>
    match v with
    | .object _ => none
    | _ => some .notObject
  | array =>
    match v with
    | .array _ => none
    | _ => some .notArray
  | block => if (v.field? "block").isSome then none else some .noBlock
  | procedures => if (v.field? "userProcedures").isSome then none else some .noProcedures
  | id =>
    match v.field? "id" with
    | some (.string _) => none
    | _ => some .noId
  | type =>
    match v.field? "type" with
    | some (.string name) =>
      if (ValueType.ofName? name).isSome then none else some (.unknownType name)
    | _ => some .noType
  | operator =>
    match v.field? "operator" with
    | some (.string _) => none
    | _ => if (v.field? "type").isSome then none else some .noOperator
  | operand => if (v.field? "opd1").isSome then none else some .noOperand

/-- The demand is met. -/
def Met (d : Demand) : Prop := d.rule.cause? d.part = none

/-- The demand on a part seen from one step above. -/
def under (step : Path.Step) (d : Demand) : Demand := { d with path := step :: d.path }

end Demand

namespace Json

/-- A demand on a value as a whole. -/
def must (v : Json) (rule : Demand.Rule) : Demand := ⟨[], rule, v⟩

/-- The demands on what stands under a key, if there is such a key. -/
def fieldDemands (key : String) (demands : Json → List Demand) (v : Json) : List Demand :=
  match v.field? key with
  | some part => (demands part).map (.under (.key key))
  | none => []

def itemDemands (demands : Json → List Demand) (place : Nat) : List Json → List Demand
  | [] => []
  | item :: rest =>
    (demands item).map (.under (.index place)) ++ itemDemands demands (place + 1) rest

/-- An array, and demands on each item. -/
def arrayDemands (demands : Json → List Demand) (v : Json) : List Demand :=
  v.must .array ::
    match v with
    | .array items => itemDemands demands 0 items
    | _ => []

/-- An object, and demands on what stands under each key. -/
def tableDemands (demands : Json → List Demand) (v : Json) : List Demand :=
  v.must .object ::
    match v with
    | .object fields => fields.flatMap fun (key, part) => (demands part).map (.under (.key key))
    | _ => []

/-- An object with a known type, as variables and operands are. -/
def typedDemands (v : Json) : List Demand := [v.must .object, v.must .type]

end Json

open Json

namespace Expression

def comparisonDemands (v : Json) : List Demand :=
  v.must .operand :: (v.fieldDemands "opd1" typedDemands ++ v.fieldDemands "opd2" typedDemands)

mutual

/-- An object with an operator in words is a group if it has `operands`, else a comparison; one
without it is an operand. -/
def demands : Json → List Demand
  | .object fields =>
    must (.object fields) .object :: must (.object fields) .operator ::
      match fields.lookup "operator" with
      | some (.string _) =>
        match childDemands? fields with
        | some children => children
        | none => comparisonDemands (.object fields)
      | _ => [must (.object fields) .type]
  | v => [v.must .object]

/-- The demands on the children of a group, if the fields are those of one. -/
def childDemands? : List (String × Json) → Option (List Demand)
  | [] => none
  | (key, value) :: rest =>
    if key = "operands" then
      some ((value.must .array ::
        match value with
        | .array items => demandsEach 0 items
        | _ => []).map (.under (.key "operands")))
    else childDemands? rest

def demandsEach (place : Nat) : List Json → List Demand
  | [] => []
  | item :: rest => (demands item).map (.under (.index place)) ++ demandsEach (place + 1) rest

end

end Expression

/-- Of a boolean expression, the value is a list of expressions, unless it is null. -/
def Argument.demands (v : Json) : List Demand :=
  typedDemands v ++
    if v.type? = some .booleanExpression then
      v.fieldDemands "value" fun value =>
        if value.isNull then [] else value.arrayDemands Expression.demands
    else []

namespace Statement

mutual

/-- First come the demands on the id, then those on the arguments, then those on the block. -/
def demands : Json → List Demand
  | .object fields =>
    must (.object fields) .object :: must (.object fields) .id ::
      (fieldDemands "arguments" (arrayDemands Argument.demands) (.object fields) ++
        blockDemands fields)
  | v => [v.must .object]

/-- The demands on the nested block, if there is one. -/
def blockDemands : List (String × Json) → List Demand
  | [] => []
  | (key, value) :: rest =>
    if key = "block" then
      (value.must .array ::
        match value with
        | .array items => demandsEach 0 items
        | _ => []).map (.under (.key "block"))
    else blockDemands rest

def demandsEach (place : Nat) : List Json → List Demand
  | [] => []
  | item :: rest => (demands item).map (.under (.index place)) ++ demandsEach (place + 1) rest

end

end Statement

def Block.demands : Json → List Demand := arrayDemands Statement.demands

namespace Draft

/-- The variables of a header come before its procedures. -/
def headerDemands (v : Json) : List Demand :=
  v.must .object ::
    (v.fieldDemands "userVariables" (tableDemands typedDemands) ++
      v.fieldDemands "userProcedures" (tableDemands Block.demands))

/-- The header comes before the root block. -/
def demands (v : Json) : List Demand :=
  v.must .object ::
    (v.fieldDemands "header" headerDemands ++ v.must .block :: v.fieldDemands "block" Block.demands)

/-- The demands on a header whose procedures alone are read. -/
def sourceDemands (v : Json) : List Demand :=
  v.must .object :: v.must .procedures ::
    v.fieldDemands "userProcedures" (tableDemands Block.demands)

/-- Procedures are taken from the header, or from the value itself if it has none. -/
def procedureDemands (v : Json) : List Demand :=
  match v.field? "header" with
  | some header => (sourceDemands header).map (.under (.key "header"))
  | none => sourceDemands v

end Draft

/-! ### Demands of parts -/

@[simp] theorem Json.field?_object (key : String) (fields : List (String × Json)) :
    field? key (.object fields) = fields.lookup key := rfl

theorem Json.fieldDemands_of_none {key : String} {demands : Json → List Demand} {v : Json}
    (h : v.field? key = none) : v.fieldDemands key demands = [] := by
  rw [fieldDemands, h]

theorem Json.fieldDemands_of_some {key : String} {demands : Json → List Demand} {v part : Json}
    (h : v.field? key = some part) :
    v.fieldDemands key demands = (demands part).map (.under (.key key)) := by
  rw [fieldDemands, h]

namespace Expression

theorem demandsEach_eq (place : Nat) (items : List Json) :
    demandsEach place items = itemDemands demands place items := by
  induction items generalizing place with
  | nil => rfl
  | cons item rest ih => rw [demandsEach, itemDemands, ih]

theorem childDemands?_eq (fields : List (String × Json)) :
    childDemands? fields = (fields.lookup "operands").map fun v =>
      (v.arrayDemands demands).map (.under (.key "operands")) := by
  induction fields with
  | nil => rfl
  | cons field rest ih =>
    obtain ⟨key, value⟩ := field
    by_cases hk : key = "operands"
    · subst hk
      rw [childDemands?.eq_def, List.lookup_cons_self]
      cases value <;> simp [arrayDemands, demandsEach_eq]
    · have hne : ("operands" == key) = false := beq_false_of_ne (Ne.symm hk)
      rw [childDemands?.eq_def, List.lookup_cons, hne]
      simpa [hk] using ih

section

variable {fields : List (String × Json)} {operator : String}

theorem demands_group {part : Json} (words : fields.lookup "operator" = some (.string operator))
    (found : fields.lookup "operands" = some part) :
    demands (.object fields) = must (.object fields) .object :: must (.object fields) .operator ::
      (part.arrayDemands demands).map (.under (.key "operands")) := by
  rw [demands, childDemands?_eq, words, found]
  rfl

theorem demands_comparison (words : fields.lookup "operator" = some (.string operator))
    (absent : fields.lookup "operands" = none) :
    demands (.object fields) = must (.object fields) .object :: must (.object fields) .operator ::
      comparisonDemands (.object fields) := by
  rw [demands, childDemands?_eq, words, absent]
  rfl

theorem demands_operand
    (wordless : ∀ operator, fields.lookup "operator" ≠ some (.string operator)) :
    demands (.object fields) = [must (.object fields) .object, must (.object fields) .operator,
      must (.object fields) .type] := by
  rw [demands]
  split
  · rename_i operator words
    exact absurd words (wordless operator)
  · rfl

end

end Expression

namespace Statement

theorem demandsEach_eq (place : Nat) (items : List Json) :
    demandsEach place items = itemDemands demands place items := by
  induction items generalizing place with
  | nil => rfl
  | cons item rest ih => rw [demandsEach, itemDemands, ih]

theorem blockDemands_eq (fields : List (String × Json)) :
    blockDemands fields = fieldDemands "block" Block.demands (.object fields) := by
  rw [fieldDemands, field?_object]
  induction fields with
  | nil => rfl
  | cons field rest ih =>
    obtain ⟨key, value⟩ := field
    by_cases hk : key = "block"
    · subst hk
      rw [blockDemands.eq_def, List.lookup_cons_self]
      cases value <;> simp [Block.demands, arrayDemands, demandsEach_eq]
    · have hne : ("block" == key) = false := beq_false_of_ne (Ne.symm hk)
      rw [blockDemands.eq_def, List.lookup_cons, hne]
      simpa [hk] using ih

end Statement

/-! ### Where the demands stand -/

/-- The paths of the demands lead to the parts of the value that they are about. -/
def Demand.Located (v : Json) (demands : List Demand) : Prop :=
  ∀ d ∈ demands, d.path.resolve? v = some d.part

namespace Demand

variable {v part : Json} {demands rest : List Demand} {sub : Json → List Demand}

theorem located_nil : Located v [] := nofun

theorem Located.append (first : Located v demands) (last : Located v rest) :
    Located v (demands ++ rest) :=
  List.forall_mem_append.mpr ⟨first, last⟩

theorem Located.must (rule : Rule) (h : Located v rest) : Located v (v.must rule :: rest) :=
  List.forall_mem_cons.mpr ⟨rfl, h⟩

theorem Located.under {step : Path.Step} (h : Located part demands)
    (hstep : Path.resolve? [step] v = some part) : Located v (demands.map (.under step)) := by
  intro d hd
  obtain ⟨d, hm, rfl⟩ := List.mem_map.mp hd
  have hpart := h d hm
  cases step with
  | key name =>
    cases v with
    | object fields =>
      obtain ⟨part', hlookup, hsame⟩ := Option.bind_eq_some_iff.mp hstep
      obtain rfl := Option.some.inj hsame
      exact Option.bind_eq_some_iff.mpr ⟨part', hlookup, hpart⟩
    | _ => cases hstep
  | index place =>
    cases v with
    | array items =>
      obtain ⟨part', hitem, hsame⟩ := Option.bind_eq_some_iff.mp hstep
      obtain rfl := Option.some.inj hsame
      exact Option.bind_eq_some_iff.mpr ⟨part', hitem, hpart⟩
    | _ => cases hstep

theorem located_typedDemands (v : Json) : Located v v.typedDemands :=
  .must _ (.must _ located_nil)

theorem located_fieldDemands {key : String}
    (h : ∀ part, v.field? key = some part → Located part (sub part)) :
    Located v (v.fieldDemands key sub) := by
  cases hfield : v.field? key with
  | none =>
    rw [fieldDemands_of_none hfield]
    exact located_nil
  | some part =>
    rw [fieldDemands_of_some hfield]
    refine (h part hfield).under ?_
    cases v with
    | object fields => exact Option.bind_eq_some_iff.mpr ⟨part, hfield, rfl⟩
    | _ => cases hfield

theorem located_itemDemands (before : List Json) {items : List Json}
    (h : ∀ item ∈ items, Located item (sub item)) :
    Located (.array (before ++ items)) (itemDemands sub before.length items) := by
  induction items generalizing before with
  | nil => exact located_nil
  | cons item rest ih =>
    rw [List.forall_mem_cons] at h
    refine .append (h.1.under ?_) ?_
    · simp [Path.resolve?]
    · have hrest := ih (before ++ [item]) h.2
      rwa [List.append_assoc, List.singleton_append, List.length_append] at hrest

theorem located_arrayDemands
    (h : ∀ items, v = .array items → ∀ item ∈ items, Located item (sub item)) :
    Located v (v.arrayDemands sub) := by
  refine .must _ ?_
  cases v with
  | array items => exact located_itemDemands [] (h items rfl)
  | _ => exact located_nil

/-- Of a key that is there twice, a path leads to the first place only. -/
theorem located_tableDemands (h : ∀ fields, v = .object fields →
    (fields.map Prod.fst).Nodup ∧ ∀ field ∈ fields, Located field.2 (sub field.2)) :
    Located v (v.tableDemands sub) := by
  refine .must _ ?_
  cases v with
  | object fields =>
    obtain ⟨distinct, hfields⟩ := h fields rfl
    intro d hd
    obtain ⟨field, hm, hd⟩ := List.mem_flatMap.mp hd
    refine (hfields field hm).under ?_ d hd
    exact Option.bind_eq_some_iff.mpr ⟨field.2, Entries.lookup_of_mem distinct hm, rfl⟩
  | _ => exact located_nil

end Demand

open Demand

theorem Json.sizeOf_item_lt {fields : List (String × Json)} {key : String} {items : List Json}
    {item : Json} (found : fields.lookup key = some (.array items)) (hm : item ∈ items) :
    sizeOf item < sizeOf (Json.object fields) := by
  have hitem := List.sizeOf_lt_of_mem hm
  have hfield := List.sizeOf_lt_of_mem (Entries.mem_of_lookup found)
  simp only [Prod.mk.sizeOf_spec, Json.array.sizeOf_spec, Json.object.sizeOf_spec] at *
  omega

theorem Expression.located_demands (v : Json) : Located v (Expression.demands v) := by
  cases v with
  | object fields =>
    by_cases hoperator : ∃ operator, fields.lookup "operator" = some (.string operator)
    · obtain ⟨operator, words⟩ := hoperator
      cases hpart : fields.lookup "operands" with
      | some part =>
        rw [demands_group words hpart]
        have hitems : Located part (part.arrayDemands Expression.demands) :=
          located_arrayDemands fun items hv item hm => located_demands item
        exact .must _ (.must _ (hitems.under (Option.bind_eq_some_iff.mpr ⟨part, hpart, rfl⟩)))
      | none =>
        rw [demands_comparison words hpart]
        refine .must _ (.must _ (.must _ (.append ?_ ?_))) <;>
          exact located_fieldDemands fun part _ => located_typedDemands part
    · rw [demands_operand (not_exists.mp hoperator)]
      exact .must _ (.must _ (.must _ located_nil))
  | _ => exact .must _ located_nil
termination_by sizeOf v
decreasing_by
  subst hv
  exact Json.sizeOf_item_lt hpart hm

theorem Argument.located_demands (v : Json) : Located v (Argument.demands v) := by
  refine (located_typedDemands v).append ?_
  split
  · refine located_fieldDemands fun value _ => ?_
    split
    · exact located_nil
    · exact located_arrayDemands fun _ _ item _ => Expression.located_demands item
  · exact located_nil

theorem Statement.located_demands (v : Json) : Located v (Statement.demands v) := by
  cases v with
  | object fields =>
    rw [Statement.demands, blockDemands_eq]
    refine .must _ (.must _ (.append ?_ ?_))
    · exact located_fieldDemands fun arguments _ =>
        located_arrayDemands fun _ _ item _ => Argument.located_demands item
    · exact located_fieldDemands fun block hblock =>
        located_arrayDemands fun items hv item hm => located_demands item
  | _ => exact .must _ located_nil
termination_by sizeOf v
decreasing_by
  subst hv
  exact Json.sizeOf_item_lt hblock hm

theorem Block.located_demands (v : Json) : Located v (Block.demands v) :=
  located_arrayDemands fun _ _ item _ => Statement.located_demands item

theorem Json.Proper.field? {v part : Json} {key : String} (proper : v.Proper)
    (h : v.field? key = some part) : part.Proper := by
  cases v with
  | object fields => exact proper.2.lookup h
  | _ => cases h

namespace Draft

variable {v : Json}

theorem located_tableDemands_under {key : String} {sub : Json → List Demand} (proper : v.Proper)
    (h : ∀ part, Located part (sub part)) : Located v (v.fieldDemands key (tableDemands sub)) :=
  located_fieldDemands fun _ hpart => located_tableDemands fun fields hv =>
    have hproper : Proper (.object fields) := hv ▸ proper.field? hpart
    ⟨hproper.1, fun field _ => h field.2⟩

theorem located_demands (proper : v.Proper) : Located v (demands v) := by
  refine .must _ (.append (located_fieldDemands fun header hheader => ?_) (.must _ ?_))
  · have hproper := proper.field? hheader
    exact .must _ (.append (located_tableDemands_under hproper located_typedDemands)
      (located_tableDemands_under hproper Block.located_demands))
  · exact located_fieldDemands fun block _ => Block.located_demands block

theorem located_procedureDemands (proper : v.Proper) : Located v (procedureDemands v) := by
  have hsource : ∀ source : Json, source.Proper → Located source (sourceDemands source) :=
    fun source hproper =>
      .must _ (.must _ (located_tableDemands_under hproper Block.located_demands))
  have hheader : procedureDemands v = v.fieldDemands "header" sourceDemands ∨
      procedureDemands v = sourceDemands v := by
    unfold procedureDemands fieldDemands
    split
    · exact .inl rfl
    · exact .inr rfl
  rcases hheader with h | h
  · rw [h]
    exact located_fieldDemands fun header hheader => hsource _ (proper.field? hheader)
  · rw [h]
    exact hsource v proper

end Draft

end BlockScript
