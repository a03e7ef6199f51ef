import BlockScript.Document.Draft
import BlockScript.Document.Export
import Mathlib.Data.List.Forall2

/-! The grammar of documents. `IsDocument` says which JSON values are documents, by what stands
under which key, and `ReadFrom` says of a tree that it is what a value stands for: the same parts in
the same order, nested in the same way. The values of the grammar are those that stand for a
tree. -/

namespace BlockScript

namespace Json

/-! ### The grammar -/

def IsArrayOf (P : Json → Prop) (v : Json) : Prop :=
  ∃ items, v = .array items ∧ ∀ item ∈ items, P item

def IsObjectOf (P : Json → Prop) (v : Json) : Prop :=
  ∃ fields, v = .object fields ∧ ∀ field ∈ fields, P field.2

/-- An object with a known type, as operands and variables are. -/
def IsTyped (v : Json) : Prop :=
  ∃ fields, v = .object fields ∧ ∃ type : ValueType, fields.lookup "type" = some type.toJson

/-- With an operator in words, an object with a key `operands` is a group, and one without it is a
comparison; without such an operator it is an operand. -/
inductive IsExpression : Json → Prop
  | group {fields : List (String × Json)} {operator : String} {items : List Json} :
      fields.lookup "operator" = some (.string operator) →
      fields.lookup "operands" = some (.array items) → (∀ item ∈ items, IsExpression item) →
        IsExpression (.object fields)
  | comparison {fields : List (String × Json)} {operator : String} {first : Json} :
      fields.lookup "operator" = some (.string operator) → fields.lookup "operands" = none →
      fields.lookup "opd1" = some first → IsTyped first →
      (∀ second ∈ fields.lookup "opd2", IsTyped second) → IsExpression (.object fields)
  | operand {fields : List (String × Json)} :
      (∀ operator, fields.lookup "operator" ≠ some (.string operator)) → IsTyped (.object fields) →
        IsExpression (.object fields)

/-- An object with a known type, whose value, if it is a boolean expression and has one that is not
null, is an array of expressions. -/
def IsArgument (v : Json) : Prop :=
  ∃ fields, v = .object fields ∧ ∃ type : ValueType, fields.lookup "type" = some type.toJson ∧
    (type = .booleanExpression →
      ∀ value ∈ fields.lookup "value", value = .null ∨ IsArrayOf IsExpression value)

/-- An object with an id; what stands under `arguments` is an array of arguments, and what stands
under `block` an array of statements. -/
inductive IsStatement : Json → Prop
  | object {fields : List (String × Json)} {id : String} :
      fields.lookup "id" = some (.string id) →
      (∀ arguments ∈ fields.lookup "arguments", IsArrayOf IsArgument arguments) →
      (∀ block ∈ fields.lookup "block", ∃ items, block = .array items) →
      (∀ items, fields.lookup "block" = some (.array items) → ∀ item ∈ items, IsStatement item) →
        IsStatement (.object fields)

def IsBlock : Json → Prop := IsArrayOf IsStatement

def IsHeader (v : Json) : Prop :=
  ∃ fields, v = .object fields ∧
    (∀ vars ∈ fields.lookup "userVariables", IsObjectOf IsTyped vars) ∧
    ∀ procedures ∈ fields.lookup "userProcedures", IsObjectOf IsBlock procedures

def IsDocument (v : Json) : Prop :=
  ∃ fields, v = .object fields ∧ (∀ header ∈ fields.lookup "header", IsHeader header) ∧
    ∃ block, fields.lookup "block" = some block ∧ IsBlock block

end Json

/-! ### What trees are read from -/

open Json

/-- Item by item. -/
def ReadFromItems {α : Type} (R : α → Json → Prop) (list : List α) (v : Json) : Prop :=
  ∃ items, v = .array items ∧ List.Forall₂ R list items

/-- The type and the value of an object; a value that is missing is null. -/
def ReadTyped (type : ValueType) (value v : Json) : Prop :=
  ∃ fields, v = .object fields ∧ fields.lookup "type" = some type.toJson ∧
    value = valueOr fields "value"

def Operand.ReadFrom (o : Operand Unit) (v : Json) : Prop := ReadTyped o.type o.value v

def Variable.ReadFrom (x : Variable) (v : Json) : Prop := ReadTyped x.type x.value v

namespace Expression

mutual

/-- Of a comparison, a second operand that is not given is unset, and one that the operator does not
take is left out. -/
def ReadFrom : Expression Unit → Json → Prop
  | leaf _ operator first second, v =>
    ∃ fields, v = .object fields ∧ fields.lookup "operator" = some (.string operator) ∧
      fields.lookup "operands" = none ∧
      (∃ first', fields.lookup "opd1" = some first' ∧ first.ReadFrom first') ∧
      ∃ given, Option.Rel Operand.ReadFrom given (fields.lookup "opd2") ∧
        second = if Operator.isUnary operator then none else some (given.getD (.unset ()))
  | group _ operator children, v =>
    ∃ fields, v = .object fields ∧ fields.lookup "operator" = some (.string operator) ∧
      ∃ items, fields.lookup "operands" = some (.array items) ∧ ReadFromEach children items
  | operand o, v =>
    (∀ fields, v = .object fields →
      ∀ operator, fields.lookup "operator" ≠ some (.string operator)) ∧ o.ReadFrom v

def ReadFromEach : List (Expression Unit) → List Json → Prop
  | [], [] => True
  | e :: rest, item :: items => e.ReadFrom item ∧ ReadFromEach rest items
  | _, _ => False

end

theorem readFromEach_iff : {list : List (Expression Unit)} → {items : List Json} →
    (ReadFromEach list items ↔ List.Forall₂ ReadFrom list items)
  | [], [] => by simp [ReadFromEach]
  | [], _ :: _ => by simp [ReadFromEach, List.forall₂_nil_left_iff]
  | _ :: _, [] => by simp [ReadFromEach, List.forall₂_nil_right_iff]
  | _ :: _, _ :: _ => by rw [ReadFromEach, List.forall₂_cons, readFromEach_iff]

end Expression

namespace Argument

/-- The list of a boolean expression without a value is empty. -/
def ReadFrom : Argument Unit → Json → Prop
  | literal type value, v => type ≠ .booleanExpression ∧ ReadTyped type value v
  | expressions type list, v =>
    type = .booleanExpression ∧ ∃ fields, v = .object fields ∧
      fields.lookup "type" = some ValueType.booleanExpression.toJson ∧
      (valueOr fields "value" = .null ∧ list = [] ∨
        ReadFromItems Expression.ReadFrom list (valueOr fields "value"))

end Argument

/-- A head has arguments exactly if their key is there. -/
def Head.ReadFrom (head : Head Unit) (fields : List (String × Json)) : Prop :=
  fields.lookup "id" = some (.string head.id) ∧ head.invalid = false ∧
    Option.Rel (ReadFromItems Argument.ReadFrom) head.arguments (fields.lookup "arguments")

namespace Statement

mutual

/-- A statement is compound exactly if the key of its block is there. -/
def ReadFrom : Template → Json → Prop
  | simple head, v =>
    ∃ fields, v = .object fields ∧ head.ReadFrom fields ∧ fields.lookup "block" = none
  | compound head block, v =>
    ∃ fields, v = .object fields ∧ head.ReadFrom fields ∧
      ∃ items, fields.lookup "block" = some (.array items) ∧ ReadFromEach block items

def ReadFromEach : List Template → List Json → Prop
  | [], [] => True
  | s :: rest, item :: items => s.ReadFrom item ∧ ReadFromEach rest items
  | _, _ => False

end

theorem readFromEach_iff : {block : Block Unit} → {items : List Json} →
    (ReadFromEach block items ↔ List.Forall₂ ReadFrom block items)
  | [], [] => by simp [ReadFromEach]
  | [], _ :: _ => by simp [ReadFromEach, List.forall₂_nil_left_iff]
  | _ :: _, [] => by simp [ReadFromEach, List.forall₂_nil_right_iff]
  | _ :: _, _ :: _ => by rw [ReadFromEach, List.forall₂_cons, readFromEach_iff]

end Statement

def Block.ReadFrom : Block Unit → Json → Prop := ReadFromItems Statement.ReadFrom

/-- The same keys in the same order; without an object the table is empty. -/
def Table.ReadFrom {α : Type} (R : α → Json → Prop) (t : Table String α) : Option Json → Prop
  | some v => ∃ fields, v = .object fields ∧
      List.Forall₂ (fun entry field => entry.1 = field.1 ∧ R entry.2 field.2) t.entries fields
  | none => t = ∅

/-- Without a header, or in an empty one, there are neither variables nor procedures. -/
def Draft.ReadFrom (d : Draft) (v : Json) : Prop :=
  ∃ fields, v = .object fields ∧
    (∃ header, ((fields.lookup "header").getD (.object [])) = .object header ∧
      d.variables.ReadFrom Variable.ReadFrom (header.lookup "userVariables") ∧
      d.procedures.ReadFrom Block.ReadFrom (header.lookup "userProcedures")) ∧
    ∃ block, fields.lookup "block" = some block ∧ Block.ReadFrom d.block block

/-! ### Values that stand for a tree -/

section Rel

variable {α β : Type} {R : α → β → Prop}

theorem rel_none_iff {b : Option β} : Option.Rel R none b ↔ b = none := by
  cases b <;> simp

theorem rel_some_iff {a : α} {b : Option β} :
    Option.Rel R (some a) b ↔ ∃ b', b = some b' ∧ R a b' := by
  cases b <;> simp

theorem exists_rel_iff {b : Option β} :
    (∃ a, Option.Rel R a b) ↔ ∀ b' ∈ b, ∃ a, R a b' := by
  cases b with
  | none => exact ⟨fun _ => nofun, fun _ => ⟨none, .none⟩⟩
  | some b =>
    simp only [Option.mem_some_iff, forall_eq']
    constructor
    · rintro ⟨_, ⟨h⟩⟩
      exact ⟨_, h⟩
    · rintro ⟨a, h⟩
      exact ⟨some a, .some h⟩

theorem exists_forall₂_iff {bs : List β} :
    (∃ as, List.Forall₂ R as bs) ↔ ∀ b ∈ bs, ∃ a, R a b := by
  induction bs with
  | nil => simp [List.forall₂_nil_right_iff]
  | cons b rest ih =>
    rw [List.forall_mem_cons, ← ih]
    simp only [List.forall₂_cons_right_iff]
    constructor
    · rintro ⟨_, a, as, ha, has, rfl⟩
      exact ⟨⟨a, ha⟩, as, has⟩
    · rintro ⟨⟨a, ha⟩, as, has⟩
      exact ⟨a :: as, a, as, ha, has, rfl⟩

end Rel

section Grammar

variable {v : Json} {items : List Json}

theorem exists_readFromItems_iff {α : Type} {R : α → Json → Prop} {P : Json → Prop}
    (h : ∀ v, (∃ a, R a v) ↔ P v) : (∃ list, ReadFromItems R list v) ↔ IsArrayOf P v := by
  simp only [ReadFromItems, IsArrayOf, ← h, ← exists_forall₂_iff]
  rw [exists_comm]
  simp only [exists_and_left]

theorem exists_readTyped_iff : (∃ type value, ReadTyped type value v) ↔ IsTyped v := by
  constructor
  · rintro ⟨type, value, fields, hv, htype, -⟩
    exact ⟨fields, hv, type, htype⟩
  · rintro ⟨fields, hv, type, htype⟩
    exact ⟨type, valueOr fields "value", fields, hv, htype, rfl⟩

theorem Operand.exists_readFrom_iff : (∃ o : Operand Unit, o.ReadFrom v) ↔ IsTyped v := by
  rw [← exists_readTyped_iff]
  exact ⟨fun ⟨o, h⟩ => ⟨o.type, o.value, h⟩, fun ⟨type, value, h⟩ => ⟨⟨(), type, value⟩, h⟩⟩

theorem Variable.exists_readFrom_iff : (∃ x : Variable, x.ReadFrom v) ↔ IsTyped v := by
  rw [← exists_readTyped_iff]
  exact ⟨fun ⟨x, h⟩ => ⟨x.type, x.value, h⟩, fun ⟨type, value, h⟩ => ⟨⟨type, value⟩, h⟩⟩

namespace Expression

mutual

theorem isExpression_of_readFrom : (e : Expression Unit) → {v : Json} → e.ReadFrom v →
    IsExpression v
  | leaf .., _, h => by
    obtain ⟨fields, rfl, hoperator, hnone, ⟨first, hfirst, hread⟩, given, hgiven, -⟩ := h
    refine .comparison hoperator hnone hfirst (Operand.exists_readFrom_iff.mp ⟨_, hread⟩) ?_
    intro second hsecond
    rw [← Operand.exists_readFrom_iff]
    exact exists_rel_iff.mp ⟨given, hgiven⟩ second hsecond
  | group _ _ children, _, h => by
    obtain ⟨fields, rfl, hoperator, items, hoperands, hread⟩ := h
    exact .group hoperator hoperands (isExpression_of_readFromEach children hread)
  | operand o, _, h => by
    obtain ⟨hoperator, fields, rfl, hread⟩ := h
    exact .operand (hoperator fields rfl) (Operand.exists_readFrom_iff.mp ⟨o, fields, rfl, hread⟩)

theorem isExpression_of_readFromEach : (list : List (Expression Unit)) → {items : List Json} →
    ReadFromEach list items → ∀ item ∈ items, IsExpression item
  | [], [], _ => by simp
  | e :: rest, _ :: _, h => List.forall_mem_cons.mpr
    ⟨isExpression_of_readFrom e h.1, isExpression_of_readFromEach rest h.2⟩

end

/-- Expressions of the grammar are those that stand for something. -/
theorem exists_readFrom_iff (v : Json) :
    (∃ e : Expression Unit, e.ReadFrom v) ↔ IsExpression v := by
  constructor
  · rintro ⟨e, h⟩
    exact isExpression_of_readFrom e h
  · intro h
    induction h with
    | @group fields operator items hoperator hoperands _ ih =>
      obtain ⟨children, hchildren⟩ := exists_forall₂_iff.mpr ih
      exact ⟨.group () operator children, fields, rfl, hoperator, items, hoperands,
        readFromEach_iff.mpr hchildren⟩
    | @comparison fields operator first hoperator hnone hfirst isTyped hsecond =>
      obtain ⟨first', hread⟩ := Operand.exists_readFrom_iff.mpr isTyped
      simp only [← Operand.exists_readFrom_iff] at hsecond
      obtain ⟨given, hgiven⟩ := exists_rel_iff.mpr hsecond
      exact ⟨comparison operator first' given, fields, rfl, hoperator, hnone,
        ⟨first, hfirst, hread⟩, given, hgiven, rfl⟩
    | @operand fields hoperator isTyped =>
      obtain ⟨o, hread⟩ := Operand.exists_readFrom_iff.mpr isTyped
      refine ⟨.operand o, ?_, hread⟩
      rintro _ ⟨⟩
      exact hoperator

end Expression

theorem Json.valueOr_of_lookup {fields : List (String × Json)} {key : String}
    (found : fields.lookup key = some v) : valueOr fields key = v := by
  rw [valueOr, found, Option.getD_some]

theorem Argument.exists_readFrom_iff (v : Json) :
    (∃ a : Argument Unit, a.ReadFrom v) ↔ IsArgument v := by
  have hlist (value : Json) := exists_readFromItems_iff Expression.exists_readFrom_iff (v := value)
  constructor
  · rintro ⟨a, h⟩
    cases a with
    | literal type value =>
      obtain ⟨hne, fields, hv, htype, -⟩ := h
      exact ⟨fields, hv, type, htype, fun e => absurd e hne⟩
    | expressions type list =>
      obtain ⟨-, fields, hv, htype, h⟩ := h
      refine ⟨fields, hv, _, htype, fun _ value found => ?_⟩
      rw [valueOr_of_lookup found] at h
      exact h.imp And.left fun h => (hlist value).mp ⟨list, h⟩
  · rintro ⟨fields, hv, type, htype, h⟩
    by_cases hne : type = .booleanExpression
    · subst hne
      have hread : valueOr fields "value" = .null ∨
          IsArrayOf IsExpression (valueOr fields "value") := by
        cases found : fields.lookup "value" with
        | none => exact .inl (by rw [valueOr, found, Option.getD_none])
        | some value =>
          rw [valueOr_of_lookup found]
          exact h rfl value found
      rcases hread with hnull | harray
      · exact ⟨.expressions .booleanExpression [], rfl, fields, hv, htype, .inl ⟨hnull, rfl⟩⟩
      · obtain ⟨list, h⟩ := (hlist _).mpr harray
        exact ⟨.expressions .booleanExpression list, rfl, fields, hv, htype, .inr h⟩
    · exact ⟨.literal type (valueOr fields "value"), hne, fields, hv, htype, rfl⟩

theorem Head.ReadFrom.isArgument {head : Head Unit} {fields : List (String × Json)}
    (h : head.ReadFrom fields) :
    ∀ arguments ∈ fields.lookup "arguments", IsArrayOf IsArgument arguments := by
  intro arguments found
  rw [← exists_readFromItems_iff Argument.exists_readFrom_iff]
  exact exists_rel_iff.mp ⟨head.arguments, h.2.2⟩ arguments found

namespace Statement

mutual

theorem isStatement_of_readFrom : (s : Template) → {v : Json} → s.ReadFrom v → IsStatement v
  | simple head, _, h => by
    obtain ⟨fields, rfl, hhead, hblock⟩ := h
    exact .object hhead.1 hhead.isArgument (by simp [hblock]) (by simp [hblock])
  | compound head block, _, h => by
    obtain ⟨fields, rfl, hhead, items, hblock, hread⟩ := h
    refine .object hhead.1 hhead.isArgument (by simp [hblock]) fun items' hitems => ?_
    obtain ⟨⟩ := hblock.symm.trans hitems
    exact isStatement_of_readFromEach block hread

theorem isStatement_of_readFromEach : (block : Block Unit) → {items : List Json} →
    ReadFromEach block items → ∀ item ∈ items, IsStatement item
  | [], [], _ => by simp
  | s :: rest, _ :: _, h => List.forall_mem_cons.mpr
    ⟨isStatement_of_readFrom s h.1, isStatement_of_readFromEach rest h.2⟩

end

theorem exists_readFrom_iff (v : Json) : (∃ s : Template, s.ReadFrom v) ↔ IsStatement v := by
  constructor
  · rintro ⟨s, h⟩
    exact isStatement_of_readFrom s h
  · intro h
    induction h with
    | @object fields id hid harguments hblock _ ih =>
      simp only [← exists_readFromItems_iff Argument.exists_readFrom_iff] at harguments
      obtain ⟨arguments, harguments⟩ := exists_rel_iff.mpr harguments
      have hhead : Head.ReadFrom { id, tag := (), arguments } fields := ⟨hid, rfl, harguments⟩
      cases found : fields.lookup "block" with
      | none => exact ⟨.simple _, fields, rfl, hhead, found⟩
      | some block =>
        obtain ⟨items, rfl⟩ := hblock block found
        obtain ⟨block, hread⟩ := exists_forall₂_iff.mpr (ih items found)
        exact ⟨.compound _ block, fields, rfl, hhead, items, found, readFromEach_iff.mpr hread⟩

end Statement

theorem Block.exists_readFrom_iff (v : Json) :
    (∃ block : Block Unit, block.ReadFrom v) ↔ IsBlock v :=
  exists_readFromItems_iff Statement.exists_readFrom_iff

end Grammar

end BlockScript
