import BlockScript.Proofs.Grammar
import BlockScript.Proofs.RoundTrip

/-! Documents are read exactly: the readers accept the values of the grammar and nothing else, and
what they return is the tree that the value stands for. Of every reader one statement says both,
that it returns a tree exactly if the value stands for that tree. -/

namespace BlockScript

open Json

/-! ### What is read -/

theorem Json.fields_eq_ok_iff {path : Path} {v : Json} {fields : List (String × Json)} :
    v.fields path = .ok fields ↔ v = .object fields :=
  ⟨Json.fields_eq_ok, fun h => by rw [h, Json.fields]⟩

theorem ValueType.ofFields_eq_ok_iff {path : Path} {fields : List (String × Json)}
    {type : ValueType} : ofFields path fields = .ok type ↔
      fields.lookup "type" = some type.toJson := by
  constructor
  · intro h
    unfold ofFields at h
    split at h
    · rename_i name hname
      split at h
      · rename_i type' htype
        obtain rfl := Except.ok.inj h
        rw [hname, toJson, name_of_ofName? htype]
      · cases h
    · cases h
  · intro h
    simp [ofFields, h, toJson, ofName?_name]

/-- An array under a key is read item by item, and nothing is read if there is no such key. -/
theorem ofArrayField_eq_ok_iff {α : Type} {read : List Json → Except Malformed (List α)}
    {fault : Malformed} {found : Option Json} {result : Option (List α)} :
    (match found with
      | some (.array items) => some <$> read items
      | some _ => .error fault
      | none => .ok none) = .ok result ↔
        Option.Rel (fun list v => ∃ items, v = .array items ∧ read items = .ok list)
          result found := by
  cases found with
  | none => cases result <;> simp
  | some v =>
    cases v with
    | array items =>
      simp only [Except.map_eq_ok_iff]
      cases result <;> simp
    | _ => cases result <;> simp

section Reading

variable {path : Path} {place : Nat} {v : Json} {fields : List (String × Json)}

namespace Operand

variable {o : Operand Unit}

theorem ofFields_eq_ok_iff : ofFields path fields = .ok o ↔ o.ReadFrom (.object fields) := by
  simp only [ofFields, Except.bind_eq_ok_iff, Except.pure_eq_ok_iff, ValueType.ofFields_eq_ok_iff]
  constructor
  · rintro ⟨type, htype, rfl⟩
    exact ⟨fields, rfl, htype, rfl⟩
  · rintro ⟨_, ⟨⟩, htype, hvalue⟩
    exact ⟨o.type, htype, by rw [← hvalue]⟩

theorem ofJson_eq_ok_iff : ofJson path v = .ok o ↔ o.ReadFrom v := by
  rw [ofJson, Except.bind_eq_ok_iff]
  constructor
  · rintro ⟨fields, hfields, h⟩
    obtain rfl := Json.fields_eq_ok hfields
    exact ofFields_eq_ok_iff.mp h
  · intro h
    obtain ⟨fields, hv, -⟩ := id h
    exact ⟨fields, Json.fields_eq_ok_iff.mpr hv, ofFields_eq_ok_iff.mpr (hv ▸ h)⟩

theorem ofField?_eq_ok_iff {key : String} {o : Option (Operand Unit)} :
    ofField? path fields key = .ok o ↔ Option.Rel ReadFrom o (fields.lookup key) := by
  unfold ofField?
  cases fields.lookup key with
  | none => cases o <;> simp
  | some v =>
    simp only [Except.map_eq_ok_iff, ofJson_eq_ok_iff]
    cases o <;> simp

end Operand

namespace Expression

theorem comparisonOfFields_eq_ok_iff {operator : String} {e : Expression Unit} :
    comparisonOfFields path operator fields = .ok e ↔
      ∃ first given, (∃ v, fields.lookup "opd1" = some v ∧ first.ReadFrom v) ∧
        Option.Rel Operand.ReadFrom given (fields.lookup "opd2") ∧
        e = comparison operator first given := by
  rw [comparisonOfFields, Except.bind_eq_ok_iff]
  constructor
  · rintro ⟨first, hfirst, h⟩
    cases first with
    | none => cases h
    | some first =>
      obtain ⟨given, hgiven, h⟩ := Except.bind_eq_ok_iff.mp h
      rw [Operand.ofField?_eq_ok_iff] at hfirst hgiven
      exact ⟨first, given, rel_some_iff.mp hfirst, hgiven, (Except.pure_eq_ok_iff.mp h).symm⟩
  · rintro ⟨first, given, hfirst, hgiven, rfl⟩
    refine ⟨some first, Operand.ofField?_eq_ok_iff.mpr (rel_some_iff.mpr hfirst), ?_⟩
    exact Except.bind_eq_ok_iff.mpr ⟨given, Operand.ofField?_eq_ok_iff.mpr hgiven, rfl⟩

theorem childrenOfFields_eq_ok_iff {children : Option (List (Expression Unit))} :
    childrenOfFields path fields = .ok children ↔
      Option.Rel (fun list v => ∃ items, v = .array items ∧
        ofItems (path ++ [.key "operands"]) 0 items = .ok list) children
          (fields.lookup "operands") := by
  rw [childrenOfFields_eq]
  exact ofArrayField_eq_ok_iff

/-- The three ways to read an expression from the fields of an object. -/
inductive Parsed (path : Path) (fields : List (String × Json)) : Expression Unit → Prop
  | group {operator : String} {items : List Json} {children : List (Expression Unit)} :
      fields.lookup "operator" = some (.string operator) →
      fields.lookup "operands" = some (.array items) →
      ofItems (path ++ [.key "operands"]) 0 items = .ok children →
        Parsed path fields (.group () operator children)
  | comparison {operator : String} {first : Operand Unit} {given : Option (Operand Unit)} :
      fields.lookup "operator" = some (.string operator) → fields.lookup "operands" = none →
      (∃ v, fields.lookup "opd1" = some v ∧ first.ReadFrom v) →
      Option.Rel Operand.ReadFrom given (fields.lookup "opd2") →
        Parsed path fields (.leaf () operator first
          (if Operator.isUnary operator then none else some (given.getD (.unset ()))))
  | operand {o : Operand Unit} :
      (∀ operator, fields.lookup "operator" ≠ some (.string operator)) →
      o.ReadFrom (.object fields) → Parsed path fields (.operand o)

theorem parsed_of_ofJson {e : Expression Unit} (h : ofJson path (.object fields) = .ok e) :
    Parsed path fields e := by
  rw [ofJson] at h
  split at h
  · rename_i operator hoperator
    obtain ⟨found, hfound, h⟩ := Except.bind_eq_ok_iff.mp h
    rw [childrenOfFields_eq_ok_iff] at hfound
    cases found with
    | none =>
      obtain ⟨first, given, hfirst, hgiven, rfl⟩ := comparisonOfFields_eq_ok_iff.mp h
      exact .comparison hoperator (rel_none_iff.mp hfound) hfirst hgiven
    | some children =>
      obtain ⟨_, hoperands, items, rfl, hitems⟩ := rel_some_iff.mp hfound
      obtain rfl := Except.pure_eq_ok_iff.mp h
      exact .group hoperator hoperands hitems
  · rename_i hoperator
    split at h
    · obtain ⟨o, ho, rfl⟩ := Except.map_eq_ok_iff.mp h
      exact .operand hoperator (Operand.ofFields_eq_ok_iff.mp ho)
    · cases h

theorem ofJson_of_parsed {e : Expression Unit} (h : Parsed path fields e) :
    ofJson path (.object fields) = .ok e := by
  rw [ofJson]
  cases h with
  | group hoperator hoperands hitems =>
    simp only [hoperator]
    refine Except.bind_eq_ok_iff.mpr ⟨some _, ?_, rfl⟩
    exact childrenOfFields_eq_ok_iff.mpr (rel_some_iff.mpr ⟨_, hoperands, _, rfl, hitems⟩)
  | comparison hoperator hnone hfirst hgiven =>
    simp only [hoperator]
    refine Except.bind_eq_ok_iff.mpr ⟨none, ?_, ?_⟩
    · exact childrenOfFields_eq_ok_iff.mpr (rel_none_iff.mpr hnone)
    · exact comparisonOfFields_eq_ok_iff.mpr ⟨_, _, hfirst, hgiven, rfl⟩
  | operand hoperator ho =>
    split
    · rename_i operator h
      exact absurd h (hoperator operator)
    · have htype : (fields.lookup "type").isSome := by
        obtain ⟨_, ⟨⟩, htype, -⟩ := id ho
        rw [htype]
        rfl
      rw [if_pos htype]
      exact Except.map_eq_ok_iff.mpr ⟨_, Operand.ofFields_eq_ok_iff.mpr ho, rfl⟩

theorem ofJson_object_eq_ok_iff {e : Expression Unit} :
    ofJson path (.object fields) = .ok e ↔ Parsed path fields e :=
  ⟨parsed_of_ofJson, ofJson_of_parsed⟩

mutual

/-- An expression is read from a value exactly if the value stands for it. -/
theorem ofJson_eq_ok_iff : (e : Expression Unit) → {path : Path} → {v : Json} →
    (ofJson path v = .ok e ↔ e.ReadFrom v)
  | leaf _ operator first second, path, v => by
    cases v with
    | object fields =>
      rw [ofJson_object_eq_ok_iff, ReadFrom]
      constructor
      · rintro (_ | ⟨hoperator, hnone, hfirst, hgiven⟩ | _)
        exact ⟨fields, rfl, hoperator, hnone, hfirst, _, hgiven, rfl⟩
      · rintro ⟨_, ⟨⟩, hoperator, hnone, hfirst, given, hgiven, rfl⟩
        exact .comparison hoperator hnone hfirst hgiven
    | _ => simp [ofJson, ReadFrom]
  | group _ operator children, path, v => by
    cases v with
    | object fields =>
      rw [ofJson_object_eq_ok_iff, ReadFrom]
      constructor
      · rintro ⟨hoperator, hoperands, hitems⟩
        exact ⟨fields, rfl, hoperator, _, hoperands, (ofItems_eq_ok_iff children).mp hitems⟩
      · rintro ⟨_, ⟨⟩, hoperator, items, hoperands, hitems⟩
        exact .group hoperator hoperands ((ofItems_eq_ok_iff children).mpr hitems)
    | _ => simp [ofJson, ReadFrom]
  | operand o, path, v => by
    cases v with
    | object fields =>
      rw [ofJson_object_eq_ok_iff, ReadFrom]
      constructor
      · rintro (_ | _ | ⟨hoperator, ho⟩)
        refine ⟨?_, ho⟩
        rintro _ ⟨⟩
        exact hoperator
      · rintro ⟨hoperator, ho⟩
        exact .operand (hoperator fields rfl) ho
    | _ => simp [ofJson, ReadFrom, Operand.ReadFrom, ReadTyped]

theorem ofItems_eq_ok_iff : (list : List (Expression Unit)) → {path : Path} → {place : Nat} →
    {items : List Json} → (ofItems path place items = .ok list ↔ ReadFromEach list items)
  | [], path, place, items => by
    cases items with
    | nil => simp [ofItems, ReadFromEach]
    | cons item rest => simp [ofItems, ReadFromEach, Except.bind_eq_ok_iff]
  | e :: rest, path, place, items => by
    cases items with
    | nil => simp [ofItems, ReadFromEach]
    | cons item items =>
      simp [ofItems, ReadFromEach, Except.bind_eq_ok_iff, ofJson_eq_ok_iff e,
        ofItems_eq_ok_iff rest]

end

end Expression

theorem ExpressionList.ofJson_eq_ok_iff {list : ExpressionList Unit} :
    ofJson path v = .ok list ↔
      v = .null ∧ list = [] ∨ ReadFromItems Expression.ReadFrom list v := by
  cases v with
  | null => simp [ofJson, ReadFromItems, eq_comm]
  | array items =>
    simp [ofJson, ReadFromItems, Expression.ofItems_eq_ok_iff, Expression.readFromEach_iff]
  | _ => simp [ofJson, ReadFromItems]

namespace Argument

theorem ofJson_eq_ok_iff {a : Argument Unit} : ofJson path v = .ok a ↔ a.ReadFrom v := by
  simp only [ofJson, Except.bind_eq_ok_iff, Json.fields_eq_ok_iff, ValueType.ofFields_eq_ok_iff]
  constructor
  · rintro ⟨fields, rfl, type, htype, h⟩
    split at h
    · obtain ⟨list, hlist, rfl⟩ := Except.map_eq_ok_iff.mp h
      exact ⟨rfl, fields, rfl, htype, ExpressionList.ofJson_eq_ok_iff.mp hlist⟩
    · rename_i hne
      obtain rfl := Except.pure_eq_ok_iff.mp h
      exact ⟨hne, fields, rfl, htype, rfl⟩
  · intro h
    cases a with
    | literal type value =>
      obtain ⟨hne, fields, rfl, htype, rfl⟩ := h
      refine ⟨fields, rfl, type, htype, ?_⟩
      split
      · exact absurd rfl hne
      · rfl
    | expressions type list =>
      obtain ⟨rfl, fields, rfl, htype, hlist⟩ := h
      refine ⟨fields, rfl, .booleanExpression, htype, ?_⟩
      exact Except.map_eq_ok_iff.mpr ⟨list, ExpressionList.ofJson_eq_ok_iff.mpr hlist, rfl⟩

theorem ofItems_eq_ok_iff {list : List (Argument Unit)} {items : List Json} :
    ofItems path place items = .ok list ↔ List.Forall₂ ReadFrom list items := by
  induction items generalizing place list with
  | nil => simp [ofItems, List.forall₂_nil_right_iff, eq_comm]
  | cons item items ih =>
    simp only [ofItems, Except.bind_eq_ok_iff, Except.pure_eq_ok_iff, ofJson_eq_ok_iff, ih,
      List.forall₂_cons_right_iff]
    constructor
    · rintro ⟨a, ha, rest, hrest, rfl⟩
      exact ⟨a, rest, ha, hrest, rfl⟩
    · rintro ⟨a, rest, ha, hrest, rfl⟩
      exact ⟨a, ha, rest, hrest, rfl⟩

theorem ofFields_eq_ok_iff {arguments : Option (List (Argument Unit))} :
    ofFields path fields = .ok arguments ↔
      Option.Rel (ReadFromItems ReadFrom) arguments (fields.lookup "arguments") := by
  refine ofArrayField_eq_ok_iff.trans ?_
  simp only [ofItems_eq_ok_iff]
  rfl

end Argument

namespace Statement

theorem blockOfFields_eq_ok_iff {block : Option (Block Unit)} :
    blockOfFields path fields = .ok block ↔
      Option.Rel (fun block v => ∃ items, v = .array items ∧
        ofItems (path ++ [.key "block"]) 0 items = .ok block) block (fields.lookup "block") := by
  rw [blockOfFields_eq]
  exact ofArrayField_eq_ok_iff

/-- A statement is read with its head, and with a block if there is one. -/
theorem ofJson_object_eq_ok_iff {s : Template} : ofJson path (.object fields) = .ok s ↔
    s.head.ReadFrom fields ∧ blockOfFields path fields = .ok s.block? := by
  rw [ofJson]
  constructor
  · intro h
    split at h
    · rename_i id hid
      obtain ⟨arguments, harguments, h⟩ := Except.bind_eq_ok_iff.mp h
      obtain ⟨block, hblock, h⟩ := Except.bind_eq_ok_iff.mp h
      have hhead := Argument.ofFields_eq_ok_iff.mp harguments
      cases block with
      | none =>
        obtain rfl := Except.pure_eq_ok_iff.mp h
        exact ⟨⟨hid, rfl, hhead⟩, hblock⟩
      | some block =>
        obtain rfl := Except.pure_eq_ok_iff.mp h
        exact ⟨⟨hid, rfl, hhead⟩, hblock⟩
    · cases h
  · rintro ⟨⟨hid, hinvalid, harguments⟩, hblock⟩
    rw [← Argument.ofFields_eq_ok_iff] at harguments
    have hhead : ({ id := s.head.id, tag := (), arguments := s.head.arguments } : Head Unit) =
        s.head := by
      rw [← hinvalid]
    simp only [hid]
    refine Except.bind_eq_ok_iff.mpr ⟨s.head.arguments, harguments, ?_⟩
    refine Except.bind_eq_ok_iff.mpr ⟨s.block?, hblock, ?_⟩
    rw [hhead]
    cases s <;> rfl

mutual

/-- A statement is read from a value exactly if the value stands for it. -/
theorem ofJson_eq_ok_iff : (s : Template) → {path : Path} → {v : Json} →
    (ofJson path v = .ok s ↔ s.ReadFrom v)
  | simple head, path, v => by
    cases v with
    | object fields =>
      rw [ofJson_object_eq_ok_iff, blockOfFields_eq_ok_iff, ReadFrom, block?, rel_none_iff]
      simp [Statement.head]
    | _ => simp [ofJson, ReadFrom]
  | compound head block, path, v => by
    cases v with
    | object fields =>
      rw [ofJson_object_eq_ok_iff, blockOfFields_eq_ok_iff, ReadFrom, block?, rel_some_iff]
      simp only [ofItems_eq_ok_iff block]
      simp [Statement.head]
    | _ => simp [ofJson, ReadFrom]

theorem ofItems_eq_ok_iff : (block : Block Unit) → {path : Path} → {place : Nat} →
    {items : List Json} → (ofItems path place items = .ok block ↔ ReadFromEach block items)
  | [], path, place, items => by
    cases items <;> simp [ofItems, ReadFromEach, Except.bind_eq_ok_iff]
  | s :: rest, path, place, items => by
    cases items <;>
      simp [ofItems, ReadFromEach, Except.bind_eq_ok_iff, ofJson_eq_ok_iff s,
        ofItems_eq_ok_iff rest]

end

end Statement

theorem Block.ofJson_eq_ok_iff (path : Path) (v : Json) (block : Block Unit) :
    ofJson path v = .ok block ↔ block.ReadFrom v := by
  cases v <;>
    simp [ofJson, Block.ReadFrom, ReadFromItems, Statement.ofItems_eq_ok_iff,
      Statement.readFromEach_iff]

theorem Variable.ofJson_eq_ok_iff (path : Path) (v : Json) (x : Variable) :
    ofJson path v = .ok x ↔ x.ReadFrom v := by
  simp only [ofJson, Except.bind_eq_ok_iff, Except.pure_eq_ok_iff, Json.fields_eq_ok_iff,
    ValueType.ofFields_eq_ok_iff]
  constructor
  · rintro ⟨fields, rfl, type, htype, rfl⟩
    exact ⟨fields, rfl, htype, rfl⟩
  · rintro ⟨fields, rfl, htype, hvalue⟩
    exact ⟨fields, rfl, x.type, htype, by rw [← hvalue]⟩

theorem Block.exists_ofJson_iff (path : Path) (v : Json) :
    (∃ block, ofJson path v = .ok block) ↔ IsBlock v := by
  simp only [Block.ofJson_eq_ok_iff, Block.exists_readFrom_iff]

theorem Variable.exists_ofJson_iff (path : Path) (v : Json) :
    (∃ x, ofJson path v = .ok x) ↔ IsTyped v := by
  simp only [Variable.ofJson_eq_ok_iff, Variable.exists_readFrom_iff]

/-! ### Tables -/

namespace Table

variable {α : Type} {read : Path → Json → Except Malformed α} {R : α → Json → Prop}

/-- Fields of distinct keys become entries one after the other. -/
theorem ofFields_eq_ok_iff (hread : ∀ path v a, read path v = .ok a ↔ R a v)
    {table t : Table String α} (distinct : (table.keys ++ fields.map Prod.fst).Nodup) :
    ofFields read path fields table = .ok t ↔ ∃ entries, t.entries = table.entries ++ entries ∧
      List.Forall₂ (fun entry field => entry.1 = field.1 ∧ R entry.2 field.2) entries fields := by
  induction fields generalizing table with
  | nil =>
    simp only [ofFields, Except.ok.injEq, List.forall₂_nil_right_iff, exists_eq_right,
      List.append_nil]
    exact ⟨fun h => by rw [h], fun h => (ext h).symm⟩
  | cons field rest ih =>
    obtain ⟨key, v⟩ := field
    have hfresh : key ∉ table.keys := fun hk =>
      (List.nodup_append.mp distinct).2.2 key hk key (by simp) rfl
    have hentries (a : α) : (table.insert key a).entries = table.entries ++ [(key, a)] :=
      entries_insert_of_not_mem a hfresh
    have hdistinct (a : α) : ((table.insert key a).keys ++ rest.map Prod.fst).Nodup := by
      simpa [keys, hentries] using distinct
    simp only [ofFields, Except.bind_eq_ok_iff, hread, ih (hdistinct _), hentries,
      List.append_assoc, List.singleton_append, List.forall₂_cons_right_iff]
    constructor
    · rintro ⟨a, ha, entries, ht, hall⟩
      exact ⟨(key, a) :: entries, ht, (key, a), entries, ⟨rfl, ha⟩, hall, rfl⟩
    · rintro ⟨_, ht, ⟨_, a⟩, entries, ⟨rfl, ha⟩, hall, rfl⟩
      exact ⟨a, ha, entries, ht, hall⟩

theorem exists_ofFields_iff {P : Json → Prop}
    (hread : ∀ path v, (∃ a, read path v = .ok a) ↔ P v) {table : Table String α} :
    (∃ t, ofFields read path fields table = .ok t) ↔ ∀ field ∈ fields, P field.2 := by
  induction fields generalizing table with
  | nil => simp [ofFields]
  | cons field rest ih =>
    obtain ⟨key, v⟩ := field
    rw [List.forall_mem_cons, ← hread (path ++ [.key key])]
    simp only [ofFields, Except.bind_eq_ok_iff]
    constructor
    · rintro ⟨t, a, ha, ht⟩
      exact ⟨⟨a, ha⟩, ih.mp ⟨t, ht⟩⟩
    · rintro ⟨⟨a, ha⟩, hrest⟩
      obtain ⟨t, ht⟩ := ih.mpr hrest
      exact ⟨t, a, ha, ht⟩

end Table

namespace Draft

variable {α : Type} {read : Path → Json → Except Malformed α} {R : α → Json → Prop} {key : String}

theorem tableOfField_eq_ok_iff (hread : ∀ path v a, read path v = .ok a ↔ R a v)
    (proper : ProperFields fields) {t : Table String α} :
    tableOfField read path fields key = .ok t ↔ t.ReadFrom R (fields.lookup key) := by
  unfold tableOfField
  cases found : fields.lookup key with
  | none => simp [Table.ReadFrom, eq_comm]
  | some v =>
    have hv : v.Proper := proper.lookup found
    simp only [Table.ReadFrom, Table.ofJson, Except.bind_eq_ok_iff, Json.fields_eq_ok_iff]
    refine exists_congr fun fields => and_congr_right fun hfields => ?_
    rw [hfields] at hv
    have distinct : ((∅ : Table String α).keys ++ fields.map Prod.fst).Nodup := hv.1
    rw [Table.ofFields_eq_ok_iff hread distinct]
    constructor
    · rintro ⟨_, ht, hall⟩
      rwa [ht]
    · exact fun hall => ⟨t.entries, rfl, hall⟩

theorem exists_tableOfField_iff {P : Json → Prop}
    (hread : ∀ path v, (∃ a, read path v = .ok a) ↔ P v) :
    (∃ t, tableOfField read path fields key = .ok t) ↔
      ∀ v ∈ fields.lookup key, IsObjectOf P v := by
  unfold tableOfField
  cases found : fields.lookup key with
  | none => simp
  | some v =>
    simp only [Option.mem_some_iff, forall_eq', Table.ofJson, Except.bind_eq_ok_iff,
      Json.fields_eq_ok_iff, IsObjectOf]
    constructor
    · rintro ⟨t, fields, hv, ht⟩
      exact ⟨fields, hv, (Table.exists_ofFields_iff hread).mp ⟨t, ht⟩⟩
    · rintro ⟨fields, hv, hall⟩
      rw [← Table.exists_ofFields_iff hread] at hall
      obtain ⟨t, ht⟩ := hall
      exact ⟨t, fields, hv, ht⟩

theorem headerOfFields_eq_ok_iff (proper : ProperFields fields) {vars : Table String Variable}
    {procedures : Table String (Block Unit)} :
    headerOfFields fields = .ok (vars, procedures) ↔
      ∃ header, (fields.lookup "header").getD (.object []) = .object header ∧
        vars.ReadFrom Variable.ReadFrom (header.lookup "userVariables") ∧
        procedures.ReadFrom Block.ReadFrom (header.lookup "userProcedures") := by
  unfold headerOfFields
  cases found : fields.lookup "header" with
  | none => simp [Table.ReadFrom, eq_comm]
  | some v =>
    have hv : v.Proper := proper.lookup found
    simp only [Except.bind_eq_ok_iff, Json.fields_eq_ok_iff, Except.pure_eq_ok_iff, Prod.mk.injEq,
      Option.getD_some]
    refine exists_congr fun header => and_congr_right fun hheader => ?_
    rw [hheader] at hv
    constructor
    · rintro ⟨_, hvars, _, hprocedures, rfl, rfl⟩
      rw [tableOfField_eq_ok_iff Variable.ofJson_eq_ok_iff hv.2] at hvars
      rw [tableOfField_eq_ok_iff Block.ofJson_eq_ok_iff hv.2] at hprocedures
      exact ⟨hvars, hprocedures⟩
    · rintro ⟨hvars, hprocedures⟩
      rw [← tableOfField_eq_ok_iff Variable.ofJson_eq_ok_iff hv.2] at hvars
      rw [← tableOfField_eq_ok_iff Block.ofJson_eq_ok_iff hv.2] at hprocedures
      exact ⟨vars, hvars, procedures, hprocedures, rfl, rfl⟩

/-- A document is read as the draft that it stands for. -/
theorem ofJson_eq_ok_iff (proper : v.Proper) {d : Draft} : ofJson v = .ok d ↔ d.ReadFrom v := by
  simp only [ofJson, Except.bind_eq_ok_iff, Json.fields_eq_ok_iff, ReadFrom]
  refine exists_congr fun fields => and_congr_right fun hv => ?_
  rw [hv] at proper
  constructor
  · rintro ⟨⟨vars, procedures⟩, hheader, h⟩
    split at h
    · rename_i block hblock
      obtain ⟨block', hread, h⟩ := Except.bind_eq_ok_iff.mp h
      obtain rfl := Except.pure_eq_ok_iff.mp h
      exact ⟨(headerOfFields_eq_ok_iff proper.2).mp hheader, block, hblock,
        (Block.ofJson_eq_ok_iff _ _ _).mp hread⟩
    · cases h
  · rintro ⟨hheader, block, hblock, hread⟩
    refine ⟨(d.variables, d.procedures), (headerOfFields_eq_ok_iff proper.2).mpr hheader, ?_⟩
    simp only [hblock]
    exact Except.bind_eq_ok_iff.mpr ⟨d.block, (Block.ofJson_eq_ok_iff _ _ _).mpr hread, rfl⟩

theorem exists_headerOfFields_iff : (∃ header, headerOfFields fields = .ok header) ↔
    ∀ header ∈ fields.lookup "header", IsHeader header := by
  unfold headerOfFields
  cases found : fields.lookup "header" with
  | none => simp
  | some v =>
    simp only [Option.mem_some_iff, forall_eq', Except.bind_eq_ok_iff, Json.fields_eq_ok_iff,
      Except.pure_eq_ok_iff, IsHeader]
    constructor
    · rintro ⟨_, header, hv, vars, hvars, procedures, hprocedures, -⟩
      have areTyped := (exists_tableOfField_iff Variable.exists_ofJson_iff).mp ⟨vars, hvars⟩
      have areBlocks := (exists_tableOfField_iff Block.exists_ofJson_iff).mp ⟨_, hprocedures⟩
      exact ⟨header, hv, areTyped, areBlocks⟩
    · rintro ⟨header, hv, hvars, hprocedures⟩
      rw [← exists_tableOfField_iff Variable.exists_ofJson_iff] at hvars
      rw [← exists_tableOfField_iff Block.exists_ofJson_iff] at hprocedures
      obtain ⟨vars, hvars⟩ := hvars
      obtain ⟨procedures, hprocedures⟩ := hprocedures
      exact ⟨_, header, hv, vars, hvars, procedures, hprocedures, rfl⟩

/-- Documents and nothing else are read. -/
theorem exists_ofJson_iff : (∃ d, ofJson v = .ok d) ↔ IsDocument v := by
  simp only [ofJson, Except.bind_eq_ok_iff, Json.fields_eq_ok_iff, IsDocument,
    ← exists_headerOfFields_iff]
  constructor
  · rintro ⟨d, fields, hv, header, hheader, h⟩
    split at h
    · rename_i block hblock
      obtain ⟨block', hread, -⟩ := Except.bind_eq_ok_iff.mp h
      exact ⟨fields, hv, ⟨header, hheader⟩, block, hblock,
        (Block.exists_ofJson_iff _ _).mp ⟨block', hread⟩⟩
    · cases h
  · rintro ⟨fields, hv, ⟨header, hheader⟩, block, hblock, isBlock⟩
    obtain ⟨block', hread⟩ := (Block.exists_ofJson_iff [.key "block"] block).mpr isBlock
    refine ⟨⟨header.1, header.2, block'⟩, fields, hv, header, hheader, ?_⟩
    simp only [hblock]
    exact Except.bind_eq_ok_iff.mpr ⟨block', hread, rfl⟩

end Draft

end Reading

/-! ### Trees without identity -/

namespace Expression

mutual

@[simp] theorem plain_self : (e : Expression Unit) → e.plain = e
  | leaf _ _ _ none | leaf _ _ _ (some _) => rfl
  | group _ _ children => by rw [plain, plainEach_self children]
  | operand _ => rfl

@[simp] theorem plainEach_self : (list : List (Expression Unit)) → plainEach list = list
  | [] => rfl
  | e :: rest => by rw [plainEach, plain_self e, plainEach_self rest]

end

end Expression

@[simp] theorem Argument.plain_self (a : Argument Unit) : a.plain = a := by
  cases a <;> simp [plain]

theorem Head.plain_self {head : Head Unit} (h : head.invalid = false) : head.plain = head := by
  have harguments : head.arguments.map (·.map Argument.plain) = head.arguments := by
    cases head.arguments <;> simp [List.map_id'']
  rw [plain, harguments, ← h]

namespace Statement

mutual

theorem plain_of_readFrom : (s : Template) → {v : Json} → s.ReadFrom v → s.plain = s
  | simple _, _, h => by
    obtain ⟨_, -, hhead, -⟩ := h
    rw [plain, Head.plain_self hhead.2.1]
  | compound _ block, _, h => by
    obtain ⟨_, -, hhead, _, -, hread⟩ := h
    rw [plain, Head.plain_self hhead.2.1, plainEach_of_readFromEach block hread]

theorem plainEach_of_readFromEach : (block : Block Unit) → {items : List Json} →
    ReadFromEach block items → plainEach block = block
  | [], [], _ => rfl
  | s :: rest, _ :: _, h => by
    rw [plainEach, plain_of_readFrom s h.1, plainEach_of_readFromEach rest h.2]

end

end Statement

theorem Block.plainEach_of_readFrom {block : Block Unit} {v : Json} (h : block.ReadFrom v) :
    Statement.plainEach block = block := by
  obtain ⟨items, -, hread⟩ := h
  exact Statement.plainEach_of_readFromEach block (Statement.readFromEach_iff.mpr hread)

theorem Table.ReadFrom.forall_values {α : Type} {R : α → Json → Prop} {P : α → Prop}
    {t : Table String α} {found : Option Json} (h : t.ReadFrom R found) (hR : ∀ a v, R a v → P a) :
    ∀ a ∈ t.values, P a := by
  cases found with
  | none =>
    rw [show t = ∅ from h]
    simp
  | some v =>
    obtain ⟨fields, -, hall⟩ := h
    rw [Table.forall_values]
    have hboth := hall.imp fun entry _ h => And.intro (hR entry.2 _ h.2) h
    exact ((List.forall₂_and_left _ _).mp hboth).1

namespace Draft

theorem plain_of_readFrom {d : Draft} {v : Json} (h : d.ReadFrom v) : d.plain = d := by
  obtain ⟨_, -, ⟨_, -, -, hprocedures⟩, block, -, hblock⟩ := h
  have hbodies := hprocedures.forall_values fun _ _ => Block.plainEach_of_readFrom
  rw [Table.forall_values] at hbodies
  have htable : (d.procedures.mapValues fun _ => Statement.plainEach) = d.procedures := by
    apply Table.ext
    calc (d.procedures.mapValues fun _ => Statement.plainEach).entries
        = d.procedures.entries.map id :=
          List.map_congr_left fun entry hm => Prod.ext rfl (hbodies entry hm)
      _ = d.procedures.entries := List.map_id _
  rw [plain, htable, Block.plainEach_of_readFrom hblock]

/-- A JSON value is read exactly if it is a document, and as the draft that it stands for; a program
that is made of the draft has it as its content. A text is read as its value is. -/
theorem read_exact (v : Json) :
    ((∃ d, ofJson v = .ok d) ↔ IsDocument v) ∧
    (v.Proper → ∀ d, (ofJson v = .ok d ↔ d.ReadFrom v) ∧
      (d.ReadFrom v → ∀ next, (Program.ofDraft d next).content = d)) ∧
    ∀ text, Json.read text = .ok v → v.Proper ∧ ∀ d, read text = .ok d ↔ ofJson v = .ok d := by
  refine ⟨exists_ofJson_iff, fun proper d => ⟨ofJson_eq_ok_iff proper, fun h next => ?_⟩,
    fun text htext => ⟨Json.proper_of_read htext, fun d => ?_⟩⟩
  · rw [Program.content_ofDraft, plain_of_readFrom h]
  · rw [read, ofText_eq_ok_iff]
    constructor
    · rintro ⟨v', hv, hd⟩
      rwa [Except.ok.inj (htext.symm.trans hv)]
    · exact fun hd => ⟨v, htext, hd⟩

/-- A null in the place of an expression list is read as an empty one, but in the place of the
arguments it is refused; the second operand of a negation is left out. -/
theorem read_exact_condition :
    let x : Json := .object [("type", .string "variable"), ("value", .string "x")]
    let negation : Json := .object [("operator", .string "!"), ("opd1", x), ("opd2", x)]
    let condition (value : Json) : Json :=
      .object [("type", .string "boolean_expression"), ("value", value)]
    let v : Json := .object
      [("header", .object
          [("userVariables", .object [("x", .object [("type", .string "number")])])]),
        ("block", .array [.object [("id", .string "if"), ("block", .array []),
          ("arguments", .array [condition .null, condition (.array [negation])])]])]
    let w : Json :=
      .object [("block", .array [.object [("id", .string "if"), ("arguments", .null)]])]
    v.Proper ∧ IsDocument v ∧ (∃ d, ofJson v = .ok d ∧ d.ReadFrom v) ∧ ¬ IsDocument w ∧
      ∃ d, read "\x7b\"block\": []\x7d" = .ok d := by
  intro x negation condition v w
  have proper : v.Proper := by
    simp [v, condition, negation, x, Json.ProperFields, Json.ProperItems]
  obtain ⟨hv, hread, -⟩ := read_exact v
  obtain ⟨d, hd⟩ : ∃ d, ofJson v = .ok d := ⟨_, rfl⟩
  refine ⟨proper, hv.mp ⟨d, hd⟩, ⟨d, hd, (hread proper d).1.mp hd⟩, ?_, ?_⟩
  · rw [← (read_exact w).1]
    rintro ⟨_, ⟨⟩⟩
  · obtain ⟨-, -, htext⟩ := read_exact (.object [("block", .array [])])
    exact ⟨_, ((htext _ rfl).2 _).mpr rfl⟩

end Draft

end BlockScript
