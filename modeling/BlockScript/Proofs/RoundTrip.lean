import BlockScript.Proofs.Reading
import Mathlib.Control.Monad.Basic

/-! A document read back: the document of a well-formed program is read as the content of the
program, and so are its parts. -/

namespace BlockScript

variable {ι : Type}

@[simp] theorem ValueType.ofFields_toJson (path : Path) (type : ValueType)
    (rest : List (String × Json)) : ofFields path (("type", type.toJson) :: rest) = .ok type := by
  simp [ofFields, toJson, ofName?_name]

theorem Operand.ofFields_toJson (path : Path) (o : Operand ι) :
    ofFields path [("type", o.type.toJson), ("value", o.value)] = .ok o.plain := by
  simp [ofFields, Json.valueOr, List.lookup_cons, plain, retag]

@[simp] theorem Operand.ofJson_toJson (path : Path) (o : Operand ι) :
    ofJson path o.toJson = .ok o.plain :=
  ofFields_toJson path o

namespace Expression

/-- The children of a group are looked up like any other field. -/
theorem childrenOfFields_eq (path : Path) (fields : List (String × Json)) :
    childrenOfFields path fields =
      match fields.lookup "operands" with
      | some (.array items) => some <$> ofItems (path ++ [.key "operands"]) 0 items
      | some _ => .error ⟨path ++ [.key "operands"], .notArray⟩
      | none => .ok none := by
  induction fields with
  | nil => rfl
  | cons field rest ih =>
    obtain ⟨key, value⟩ := field
    by_cases hk : key = "operands"
    · subst hk
      rw [childrenOfFields.eq_def, List.lookup_cons_self]
      cases value <;> rfl
    · have hne : ("operands" == key) = false := beq_false_of_ne (Ne.symm hk)
      rw [childrenOfFields.eq_def, List.lookup_cons, hne]
      simpa [hk] using ih

theorem comparison_plain {tag : ι} {operator : String} {first : Operand ι}
    {second : Option (Operand ι)} (h : (leaf tag operator first second).WellFormed) :
    comparison operator first.plain (second.map Operand.plain) =
      (leaf tag operator first second).plain := by
  cases second with
  | none => simp_all [WellFormed, comparison, plain]
  | some o => simp_all [WellFormed, comparison, plain]

theorem ofJson_leaf {tag : ι} {operator : String} {first : Operand ι}
    {second : Option (Operand ι)} (h : (leaf tag operator first second).WellFormed) (path : Path) :
    ofJson path (leaf tag operator first second).toJson =
      .ok (leaf tag operator first second).plain := by
  rw [← comparison_plain h]
  cases second <;>
    simp [toJson, ofJson, List.lookup_cons, childrenOfFields_eq, comparisonOfFields,
      Operand.ofField?]

mutual

theorem ofJson_toJson : (e : Expression ι) → e.WellFormed → (path : Path) →
    ofJson path e.toJson = .ok e.plain
  | leaf .., h, path => ofJson_leaf h path
  | group _ operator children, h, path => by
    simp [toJson, ofJson, List.lookup_cons, childrenOfFields_eq, plain, ofItems_toItems children h]
  | operand o, _, path => by
    simp [toJson, Operand.toJson, ofJson, List.lookup_cons, Operand.ofFields_toJson, plain]

theorem ofItems_toItems : (list : List (Expression ι)) → WellFormedEach list → (path : Path) →
    (place : Nat) → ofItems path place (toItems list) = .ok (plainEach list)
  | [], _, _, _ => rfl
  | e :: rest, h, path, place => by
    simp [toItems, ofItems, plainEach, ofJson_toJson e h.1, ofItems_toItems rest h.2]

end

end Expression

namespace Argument

theorem ofJson_toJson {a : Argument ι} (h : a.WellFormed) (path : Path) :
    ofJson path a.toJson = .ok a.plain := by
  cases a with
  | literal type value =>
    have hne : type ≠ .booleanExpression := h.1
    cases type <;>
      simp_all [toJson, ofJson, Argument.type, Json.fields, Json.valueOr, List.lookup_cons, plain]
  | expressions type list =>
    obtain ⟨rfl, h⟩ := h
    simp [toJson, ofJson, Argument.type, Json.fields, Json.valueOr, List.lookup_cons, plain,
      ExpressionList.ofJson, Expression.ofItems_toItems list h]

theorem ofItems_toJson {list : List (Argument ι)} (h : ∀ a ∈ list, a.WellFormed) (path : Path)
    (place : Nat) : ofItems path place (list.map toJson) = .ok (list.map plain) := by
  induction list generalizing place with
  | nil => rfl
  | cons a rest ih =>
    simp only [List.forall_mem_cons] at h
    simp [ofItems, ofJson_toJson h.1, ih h.2]

/-- The arguments of a head are read back, whatever fields follow. -/
theorem ofFields_toFields {head : Head ι} (h : head.WellFormed) (path : Path)
    (rest : List (String × Json)) (hrest : rest.lookup "arguments" = none) :
    ofFields path (head.toFields ++ rest) = .ok head.plain.arguments := by
  cases hargs : head.arguments with
  | none => simp [ofFields, Head.toFields, hargs, List.lookup_cons, hrest, Head.plain]
  | some arguments =>
    have hall : ∀ a ∈ arguments, a.WellFormed := by simpa [Head.WellFormed, hargs] using h
    simp [ofFields, Head.toFields, hargs, List.lookup_cons, Head.plain, ofItems_toJson hall]

end Argument

theorem Head.lookup_id (head : Head ι) (rest : List (String × Json)) :
    (head.toFields ++ rest).lookup "id" = some (.string head.id) := by
  simp [toFields]

theorem Head.lookup_block (head : Head ι) (rest : List (String × Json)) :
    (head.toFields ++ rest).lookup "block" = rest.lookup "block" := by
  cases hargs : head.arguments <;> simp [toFields, hargs, List.lookup_cons]

namespace Statement

/-- The nested block of a statement is looked up like any other field. -/
theorem blockOfFields_eq (path : Path) (fields : List (String × Json)) :
    blockOfFields path fields =
      match fields.lookup "block" with
      | some (.array items) => some <$> ofItems (path ++ [.key "block"]) 0 items
      | some _ => .error ⟨path ++ [.key "block"], .notArray⟩
      | none => .ok none := by
  induction fields with
  | nil => rfl
  | cons field rest ih =>
    obtain ⟨key, value⟩ := field
    by_cases hk : key = "block"
    · subst hk
      rw [blockOfFields.eq_def, List.lookup_cons_self]
      cases value <;> rfl
    · have hne : ("block" == key) = false := beq_false_of_ne (Ne.symm hk)
      rw [blockOfFields.eq_def, List.lookup_cons, hne]
      simpa [hk] using ih

mutual

theorem ofJson_toJson : (s : Statement ι) → s.WellFormed → (path : Path) →
    ofJson path s.toJson = .ok s.plain
  | simple head, h, path => by
    have harguments := Argument.ofFields_toFields h path [] rfl
    have hid := head.lookup_id []
    have hblock := head.lookup_block []
    simp only [List.append_nil] at harguments hid hblock
    simp [toJson, ofJson, hid, harguments, blockOfFields_eq, hblock, plain, Head.plain]
  | compound head block, h, path => by
    have harguments := Argument.ofFields_toFields h.1 path [("block", .array (toItems block))] rfl
    simp [toJson, ofJson, head.lookup_id, harguments, blockOfFields_eq, head.lookup_block, plain,
      Head.plain, ofItems_toItems block h.2]

theorem ofItems_toItems : (block : Block ι) → WellFormedEach block → (path : Path) →
    (place : Nat) → ofItems path place (toItems block) = .ok (plainEach block)
  | [], _, _, _ => rfl
  | s :: rest, h, path, place => by
    simp [toItems, ofItems, plainEach, ofJson_toJson s h.1, ofItems_toItems rest h.2]

end

end Statement

theorem Block.ofJson_toJson {block : Block ι} (h : Statement.WellFormedEach block) (path : Path) :
    Block.ofJson path block.toJson = .ok (Statement.plainEach block) :=
  Statement.ofItems_toItems block h path 0

theorem Variable.ofJson_toJson (v : Variable) (path : Path) :
    Variable.ofJson path v.toJson = .ok v := by
  simp [ofJson, toJson, Json.fields, Json.valueOr, List.lookup_cons]

namespace Table

variable {α β : Type} {read : Path → Json → Except Malformed β} {write : α → Json} {f : α → β}

/-- A table is read back in its order if its values are. -/
theorem ofFields_map (path : Path) {entries : List (String × α)} (table : Table String β)
    (hread : ∀ entry ∈ entries, ∀ path, read path (write entry.2) = .ok (f entry.2))
    (distinct : (entries.map Prod.fst).Nodup)
    (fresh : ∀ key ∈ entries.map Prod.fst, key ∉ table.keys) :
    ∃ new, ofFields read path (entries.map fun (key, a) => (key, write a)) table = .ok new ∧
      new.entries = table.entries ++ entries.map fun (key, a) => (key, f a) := by
  induction entries generalizing table with
  | nil => exact ⟨table, rfl, by simp⟩
  | cons entry rest ih =>
    obtain ⟨key, a⟩ := entry
    simp only [List.map_cons, List.nodup_cons, List.forall_mem_cons] at hread distinct fresh
    have hkeys : (table.insert key (f a)).entries = table.entries ++ [(key, f a)] :=
      entries_insert_of_not_mem _ fresh.1
    obtain ⟨new, hnew, hentries⟩ := ih (table.insert key (f a)) hread.2 distinct.2
      fun k hk => by
        simp only [keys, hkeys, List.map_append, List.map_cons, List.map_nil, List.mem_append,
          List.mem_singleton, not_or]
        exact ⟨fresh.2 k hk, fun e => distinct.1 (e ▸ hk)⟩
    refine ⟨new, ?_, ?_⟩
    · simp [ofFields, hread.1, hnew]
    · simp [hentries, hkeys]

theorem ofJson_map {path : Path} {t : Table String α}
    (hread : ∀ entry ∈ t.entries, ∀ path, read path (write entry.2) = .ok (f entry.2)) :
    ofJson read path (.object (t.entries.map fun (key, a) => (key, write a))) =
      .ok (t.mapValues fun _ => f) := by
  obtain ⟨new, hnew, hentries⟩ := ofFields_map path ∅ hread t.nodup
    fun _ _ => List.not_mem_nil
  have : new = t.mapValues fun _ => f := ext (by rw [hentries]; rfl)
  rw [← this]
  exact hnew

end Table

namespace Draft

/-- Reading the document of a well-formed program gives the content of the program. -/
theorem ofJson_toJson {p : Program} (h : p.WellFormed) : ofJson p.toJson = .ok p.content := by
  have hvariables : Table.ofJson Variable.ofJson [.key "header", .key "userVariables"]
      (.object (p.variables.entries.map fun entry => (entry.1, entry.2.toJson))) =
        .ok p.variables := by
    rw [Table.ofJson_map (f := id) fun entry _ => Variable.ofJson_toJson entry.2]
    simp [Table.mapValues]
  have hprocedures : Table.ofJson Block.ofJson [.key "header", .key "userProcedures"]
      (.object (p.procedures.entries.map fun entry => (entry.1, entry.2.toJson))) =
        .ok p.content.procedures := by
    refine Table.ofJson_map fun entry hm path => Block.ofJson_toJson (h.blocks _ ?_) path
    exact List.mem_cons_of_mem _ (List.mem_map_of_mem hm)
  have hblock := Block.ofJson_toJson (h.blocks p.block List.mem_cons_self) [.key "block"]
  have hheader : headerOfFields
      [("header", .object
        [("userVariables",
            .object (p.variables.entries.map fun entry => (entry.1, entry.2.toJson))),
          ("userProcedures",
            .object (p.procedures.entries.map fun entry => (entry.1, entry.2.toJson)))]),
        ("block", p.block.toJson)] = .ok (p.variables, p.content.procedures) := by
    simp [headerOfFields, tableOfField, Json.fields, List.lookup_cons, hvariables, hprocedures]
  simp [ofJson, Program.toJson, Json.fields, hheader, List.lookup_cons, hblock, Program.content]

end Draft

end BlockScript
