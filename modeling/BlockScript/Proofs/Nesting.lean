import BlockScript.Proofs.PrettyText
import BlockScript.Proofs.Reload

/-! How deep documents are nested. The document of a program that was read from another document is
nested at most one container deeper: the list of a boolean expression is written also where none was
read, and so is the header. -/

namespace BlockScript

variable {ι : Type}

/-! ### Proper documents -/

theorem Operand.proper_toJson {o : Operand ι} (h : o.value.Proper) : o.toJson.Proper := by
  simp [toJson, ValueType.toJson, Json.ProperFields, h]

namespace Expression

mutual

theorem proper_toJson : (e : Expression ι) → e.WellFormed → e.toJson.Proper
  | leaf _ _ first none, ⟨_, hf, _⟩ => by
    simp [toJson, Json.ProperFields, first.proper_toJson hf]
  | leaf _ _ first (some second), ⟨_, hf, hs⟩ => by
    simp [toJson, Json.ProperFields, first.proper_toJson hf, second.proper_toJson (hs second rfl)]
  | group _ _ children, h => by
    simp [toJson, Json.ProperFields, proper_toItems children h]
  | operand o, h => o.proper_toJson h

theorem proper_toItems : (list : List (Expression ι)) → WellFormedEach list →
    Json.ProperItems (toItems list)
  | [], _ => trivial
  | e :: rest, h => ⟨proper_toJson e h.1, proper_toItems rest h.2⟩

end

end Expression

theorem Argument.proper_toJson {a : Argument ι} (h : a.WellFormed) : a.toJson.Proper := by
  cases a with
  | literal type value => simp [toJson, ValueType.toJson, Json.ProperFields, h.2]
  | expressions type list =>
    simp [toJson, ValueType.toJson, Json.ProperFields, Expression.proper_toItems list h.2]

namespace Statement

/-- The fields of a head, and those of a block after them. -/
theorem proper_toFields {head : Head ι} (wf : head.WellFormed) (items : List Json)
    (h : Json.ProperItems items) : Json.Proper (.object head.toFields) ∧
      Json.Proper (.object (head.toFields ++ [("block", .array items)])) := by
  cases harguments : head.arguments with
  | none => simp [Head.toFields, harguments, Json.ProperFields, h]
  | some arguments =>
    have hall : ∀ a ∈ arguments, a.WellFormed := by simpa [Head.WellFormed, harguments] using wf
    have hitems : Json.ProperItems (arguments.map Argument.toJson) := by
      rw [Json.properItems_iff, List.forall_mem_map]
      exact fun a ha => Argument.proper_toJson (hall a ha)
    simp [Head.toFields, harguments, Json.ProperFields, hitems, h]

mutual

theorem proper_toJson : (s : Statement ι) → s.WellFormed → s.toJson.Proper
  | simple _, h => (proper_toFields h [] trivial).1
  | compound _ block, h => (proper_toFields h.1 _ (proper_toItems block h.2)).2

theorem proper_toItems : (block : Block ι) → WellFormedEach block →
    Json.ProperItems (toItems block)
  | [], _ => trivial
  | s :: rest, h => ⟨proper_toJson s h.1, proper_toItems rest h.2⟩

end

end Statement

theorem Json.properFields_map {α : Type} {entries : List (String × α)} {f : α → Json}
    (h : ∀ a ∈ entries.map Prod.snd, (f a).Proper) :
    ProperFields (entries.map fun (key, a) => (key, f a)) := by
  induction entries with
  | nil => trivial
  | cons entry rest ih =>
    rw [List.map_cons, List.forall_mem_cons] at h
    exact ⟨h.1, ih h.2⟩

/-- The object of a table. -/
theorem Table.proper_toJson {α : Type} {t : Table String α} {f : α → Json}
    (h : ∀ a ∈ t.values, (f a).Proper) :
    Json.Proper (.object (t.entries.map fun (key, a) => (key, f a))) := by
  refine ⟨?_, Json.properFields_map h⟩
  rw [List.map_map]
  exact t.nodup

theorem Program.proper_toJson {p : Program} (wf : p.WellFormed) : p.toJson.Proper := by
  have hv : ∀ v ∈ p.variables.values, v.toJson.Proper := by
    intro v hm
    simp [Variable.toJson, ValueType.toJson, Json.ProperFields, wf.proper v hm]
  have hb : ∀ block ∈ p.blocks, Block.toJson block |>.Proper :=
    fun block hm => Statement.proper_toItems block (wf.blocks block hm)
  rw [blocks, List.forall_mem_cons] at hb
  have hvariables := Table.proper_toJson hv
  have hprocedures := Table.proper_toJson hb.2
  have hroot := hb.1
  refine ⟨by simp, ⟨?_, hvariables, hprocedures, trivial⟩, hroot, trivial⟩
  simp

/-! ### Values that fit -/

namespace Json

/-- The value has legible numbers and nests at most `n` containers. -/
structure Fits (v : Json) (n : Nat) : Prop where
  depth : v.depth ≤ n
  legible : v.Legible

variable {n : Nat} {v : Json} {items : List Json} {fields : List (String × Json)}

theorem Fits.mono {m : Nat} (h : v.Fits m) (le : m ≤ n) : v.Fits n :=
  ⟨h.depth.trans le, h.legible⟩

@[simp] theorem fits_null : Fits .null n := ⟨Nat.zero_le _, trivial⟩

@[simp] theorem fits_string (s : String) : Fits (.string s) n := ⟨Nat.zero_le _, trivial⟩

theorem fits_iff : v.Fits n ↔ v.depth ≤ n ∧ v.Legible :=
  ⟨fun h => ⟨h.depth, h.legible⟩, fun h => ⟨h.1, h.2⟩⟩

theorem fitsItems_iff :
    depthItems items ≤ n ∧ LegibleItems items ↔ ∀ item ∈ items, item.Fits n := by
  induction items with
  | nil => simp [depthItems, LegibleItems]
  | cons item rest ih =>
    rw [List.forall_mem_cons, ← ih, fits_iff, depthItems, LegibleItems, Nat.max_le,
      and_and_and_comm]

theorem fitsFields_iff :
    depthFields fields ≤ n ∧ LegibleFields fields ↔ ∀ field ∈ fields, field.2.Fits n := by
  induction fields with
  | nil => simp [depthFields, LegibleFields]
  | cons field rest ih =>
    rw [List.forall_mem_cons, ← ih, fits_iff, depthFields, LegibleFields, Nat.max_le,
      and_and_and_comm]

@[simp] theorem fits_array : Fits (.array items) (n + 1) ↔ ∀ item ∈ items, item.Fits n := by
  rw [← fitsItems_iff, fits_iff, depth, Legible, Nat.add_le_add_iff_right]

@[simp] theorem fits_object : Fits (.object fields) (n + 1) ↔ ∀ field ∈ fields, field.2.Fits n := by
  rw [← fitsFields_iff, fits_iff, depth, Legible, Nat.add_le_add_iff_right]

/-- A container does not fit where nothing may be nested. -/
theorem Fits.of_array (h : Fits (.array items) n) :
    ∃ m, n = m + 1 ∧ ∀ item ∈ items, item.Fits m := by
  cases n with
  | zero => exact absurd h.depth (Nat.not_succ_le_zero _)
  | succ m => exact ⟨m, rfl, fits_array.mp h⟩

theorem Fits.of_object (h : Fits (.object fields) n) :
    ∃ m, n = m + 1 ∧ ∀ field ∈ fields, field.2.Fits m := by
  cases n with
  | zero => exact absurd h.depth (Nat.not_succ_le_zero _)
  | succ m => exact ⟨m, rfl, fits_object.mp h⟩

theorem fits_of_lookup {key : String} (h : ∀ field ∈ fields, field.2.Fits n)
    (found : fields.lookup key = some v) : v.Fits n :=
  h _ (Entries.mem_of_lookup found)

theorem fits_valueOr (h : ∀ field ∈ fields, field.2.Fits n) (key : String) :
    (valueOr fields key).Fits n := by
  cases found : fields.lookup key with
  | none => simp [valueOr, found]
  | some value => simpa [valueOr, found] using fits_of_lookup h found

end Json

/-! ### What is read and written again -/

@[simp] theorem ValueType.fits_toJson (type : ValueType) (n : Nat) : type.toJson.Fits n :=
  Json.fits_string _

section Reading

variable {n : Nat} {path : Path} {value : Json} {fields : List (String × Json)}

namespace Operand

theorem fits_of_ofFields {o : Operand Unit} (h : ∀ field ∈ fields, field.2.Fits n)
    (ho : ofFields path fields = .ok o) : o.toJson.Fits (n + 1) := by
  obtain ⟨type, -, ho⟩ := Except.bind_eq_ok_iff.mp ho
  obtain rfl := Except.pure_eq_ok_iff.mp ho
  simp [toJson, Json.fits_valueOr h]

theorem fits_of_ofField? {key : String} {o : Option (Operand Unit)}
    (h : ∀ field ∈ fields, field.2.Fits n) (ho : ofField? path fields key = .ok o) :
    ∀ o' ∈ o, o'.toJson.Fits n := by
  unfold ofField? at ho
  split at ho
  · rename_i value hv
    obtain ⟨o', ho', rfl⟩ := Except.map_eq_ok_iff.mp ho
    obtain ⟨inner, hf, ho'⟩ := Except.bind_eq_ok_iff.mp ho'
    obtain rfl := Json.fields_eq_ok hf
    obtain ⟨m, rfl, hinner⟩ := (Json.fits_of_lookup h hv).of_object
    rintro _ ⟨⟩
    exact fits_of_ofFields hinner ho'
  · obtain rfl := Except.ok.inj ho
    rintro _ ⟨⟩

end Operand

namespace Expression

theorem fits_of_comparisonOfFields {operator : String} {e : Expression Unit}
    (h : ∀ field ∈ fields, field.2.Fits n)
    (he : comparisonOfFields path operator fields = .ok e) : e.toJson.Fits (n + 1) := by
  obtain ⟨first, hf, he⟩ := Except.bind_eq_ok_iff.mp he
  have hfirst := Operand.fits_of_ofField? h hf
  cases first with
  | none => cases he
  | some first =>
    obtain ⟨second, hs, he⟩ := Except.bind_eq_ok_iff.mp he
    obtain rfl := Except.pure_eq_ok_iff.mp he
    -- an operand that is missing is written too, and nests no deeper than the first
    have hsecond := Operand.fits_of_ofField? h hs
    have hfirst := hfirst first rfl
    obtain ⟨m, rfl, -⟩ := hfirst.of_object
    have hunset : (Operand.unset () : Operand Unit).toJson.Fits (m + 1) := by
      simp [Operand.unset, Operand.toJson]
    rw [comparison]
    split
    · simp [toJson, hfirst]
    · cases second with
      | none => simp [toJson, hfirst, hunset]
      | some second => simp [toJson, hfirst, hsecond second rfl]

mutual

theorem fits_of_ofJson : {value : Json} → {n : Nat} → value.Fits n → {path : Path} →
    {e : Expression Unit} → ofJson path value = .ok e → e.toJson.Fits n
  | .object fields, _, h, path, e, he => by
    obtain ⟨n, rfl, hfields⟩ := h.of_object
    rw [ofJson] at he
    split at he
    · obtain ⟨children, hc, he⟩ := Except.bind_eq_ok_iff.mp he
      cases children with
      | none => exact fits_of_comparisonOfFields hfields he
      | some children =>
        obtain rfl := Except.pure_eq_ok_iff.mp he
        have hchildren := fits_of_childrenOfFields hfields hc
        simp [toJson, hchildren]
    · split at he
      · obtain ⟨o, ho, rfl⟩ := Except.map_eq_ok_iff.mp he
        exact Operand.fits_of_ofFields hfields ho
      · cases he
  | .null, _, _, _, _, he | .bool _, _, _, _, _, he | .number _, _, _, _, _, he
  | .string _, _, _, _, _, he | .array _, _, _, _, _, he => by cases he

theorem fits_of_childrenOfFields : {fields : List (String × Json)} → {n : Nat} →
    (∀ field ∈ fields, field.2.Fits n) → {path : Path} → {children : List (Expression Unit)} →
      childrenOfFields path fields = .ok (some children) → Json.Fits (.array (toItems children)) n
  | [], _, _, _, _, hc => by cases hc
  | (key, value) :: rest, n, h, path, children, hc => by
    rw [List.forall_mem_cons] at h
    rw [childrenOfFields.eq_def] at hc
    dsimp only at hc
    split at hc
    · split at hc
      · obtain ⟨list, hl, hs⟩ := Except.map_eq_ok_iff.mp hc
        obtain rfl := Option.some.inj hs
        obtain ⟨m, rfl, hitems⟩ := h.1.of_array
        exact Json.fits_array.mpr (fits_of_ofItems hitems hl)
      · cases hc
    · exact fits_of_childrenOfFields h.2 hc

theorem fits_of_ofItems : {items : List Json} → {n : Nat} → (∀ item ∈ items, item.Fits n) →
    {path : Path} → {place : Nat} → {list : List (Expression Unit)} →
      ofItems path place items = .ok list → ∀ item ∈ toItems list, item.Fits n
  | [], _, _, _, _, _, hl => by
    cases hl
    simp [toItems]
  | _ :: _, _, h, _, _, _, hl => by
    rw [List.forall_mem_cons] at h
    obtain ⟨e, he, hl⟩ := Except.bind_eq_ok_iff.mp hl
    obtain ⟨rest, hr, hl⟩ := Except.bind_eq_ok_iff.mp hl
    obtain rfl := Except.pure_eq_ok_iff.mp hl
    exact List.forall_mem_cons.mpr ⟨fits_of_ofJson h.1 he, fits_of_ofItems h.2 hr⟩

end

end Expression

namespace Argument

/-- An argument without a value is written with an empty list if it is a boolean expression. -/
theorem fits_of_ofJson {a : Argument Unit} (h : value.Fits n) (ha : ofJson path value = .ok a) :
    a.toJson.Fits (n + 1) := by
  obtain ⟨fields, hf, ht⟩ := Except.bind_eq_ok_iff.mp ha
  obtain rfl := Json.fields_eq_ok hf
  obtain ⟨m, rfl, hfields⟩ := h.of_object
  obtain ⟨type, -, hr⟩ := Except.bind_eq_ok_iff.mp ht
  have hv := Json.fits_valueOr hfields "value"
  split at hr
  · obtain ⟨list, hl, rfl⟩ := Except.map_eq_ok_iff.mp hr
    have hlist : Json.Fits (.array (Expression.toItems list)) (m + 1) := by
      cases hvalue : Json.valueOr fields "value" with
      | null =>
        rw [hvalue] at hl
        cases hl
        simp [Expression.toItems]
      | array items =>
        rw [hvalue] at hl hv
        obtain ⟨k, rfl, hitems⟩ := hv.of_array
        exact (Json.fits_array.mpr (Expression.fits_of_ofItems hitems hl)).mono (Nat.le_succ _)
      | _ =>
        rw [hvalue] at hl
        cases hl
    simp [toJson, hlist]
  · obtain rfl := Except.pure_eq_ok_iff.mp hr
    have hlarge := hv.mono (Nat.le_succ m)
    simp [toJson, hlarge]

theorem fits_of_ofItems {place : Nat} {items : List Json} {list : List (Argument Unit)}
    (h : ∀ item ∈ items, item.Fits n) (hl : ofItems path place items = .ok list) :
    ∀ a ∈ list, a.toJson.Fits (n + 1) := by
  induction items generalizing place list with
  | nil => cases hl; simp
  | cons item rest ih =>
    rw [List.forall_mem_cons] at h
    obtain ⟨a, ha, hl⟩ := Except.bind_eq_ok_iff.mp hl
    obtain ⟨list, hr, hl⟩ := Except.bind_eq_ok_iff.mp hl
    obtain rfl := Except.pure_eq_ok_iff.mp hl
    exact List.forall_mem_cons.mpr ⟨fits_of_ofJson h.1 ha, ih h.2 hr⟩

end Argument

namespace Statement

/-- The fields of a head fit if the arguments were read from fields that fit. -/
theorem fits_toFields (id : String) {arguments : Option (List (Argument Unit))}
    (h : ∀ field ∈ fields, field.2.Fits n) (ha : Argument.ofFields path fields = .ok arguments) :
    ∀ field ∈ Head.toFields { id, tag := (), arguments }, field.2.Fits (n + 1) := by
  unfold Argument.ofFields at ha
  split at ha
  · rename_i items hi
    obtain ⟨list, hl, rfl⟩ := Except.map_eq_ok_iff.mp ha
    obtain ⟨m, rfl, hitems⟩ := (Json.fits_of_lookup h hi).of_array
    have hlist := Argument.fits_of_ofItems hitems hl
    simpa [Head.toFields] using hlist
  · cases ha
  · cases ha
    simp [Head.toFields]

mutual

theorem fits_of_ofJson : {value : Json} → {n : Nat} → value.Fits n → {path : Path} →
    {s : Template} → ofJson path value = .ok s → s.toJson.Fits (n + 1)
  | .object fields, _, h, path, s, hs => by
    obtain ⟨n, rfl, hfields⟩ := h.of_object
    rw [ofJson] at hs
    split at hs
    · rename_i id _
      obtain ⟨arguments, ha, hs⟩ := Except.bind_eq_ok_iff.mp hs
      obtain ⟨block, hb, hs⟩ := Except.bind_eq_ok_iff.mp hs
      have hhead := fits_toFields id hfields ha
      cases block with
      | none =>
        obtain rfl := Except.pure_eq_ok_iff.mp hs
        exact Json.fits_object.mpr hhead
      | some block =>
        obtain rfl := Except.pure_eq_ok_iff.mp hs
        have hblock := fits_of_blockOfFields hfields hb
        rw [toJson, Json.fits_object, List.forall_mem_append, List.forall_mem_singleton]
        exact ⟨hhead, hblock⟩
    · cases hs
  | .null, _, _, _, _, hs | .bool _, _, _, _, _, hs | .number _, _, _, _, _, hs
  | .string _, _, _, _, _, hs | .array _, _, _, _, _, hs => by cases hs

theorem fits_of_blockOfFields : {fields : List (String × Json)} → {n : Nat} →
    (∀ field ∈ fields, field.2.Fits n) → {path : Path} → {block : Block Unit} →
      blockOfFields path fields = .ok (some block) → (Block.toJson block).Fits (n + 1)
  | [], _, _, _, _, hb => by cases hb
  | (key, value) :: rest, n, h, path, block, hb => by
    rw [List.forall_mem_cons] at h
    rw [blockOfFields.eq_def] at hb
    dsimp only at hb
    split at hb
    · split at hb
      · obtain ⟨list, hl, hs⟩ := Except.map_eq_ok_iff.mp hb
        obtain rfl := Option.some.inj hs
        obtain ⟨m, rfl, hitems⟩ := h.1.of_array
        exact Json.fits_array.mpr (fits_of_ofItems hitems hl)
      · cases hb
    · exact fits_of_blockOfFields h.2 hb

theorem fits_of_ofItems : {items : List Json} → {n : Nat} → (∀ item ∈ items, item.Fits n) →
    {path : Path} → {place : Nat} → {block : Block Unit} →
      ofItems path place items = .ok block → ∀ item ∈ toItems block, item.Fits (n + 1)
  | [], _, _, _, _, _, hb => by
    cases hb
    simp [toItems]
  | _ :: _, _, h, _, _, _, hb => by
    rw [List.forall_mem_cons] at h
    obtain ⟨s, hs, hb⟩ := Except.bind_eq_ok_iff.mp hb
    obtain ⟨rest, hr, hb⟩ := Except.bind_eq_ok_iff.mp hb
    obtain rfl := Except.pure_eq_ok_iff.mp hb
    exact List.forall_mem_cons.mpr ⟨fits_of_ofJson h.1 hs, fits_of_ofItems h.2 hr⟩

end

end Statement

theorem Block.fits_of_ofJson {block : Block Unit} (h : value.Fits n)
    (hb : Block.ofJson path value = .ok block) : block.toJson.Fits (n + 1) := by
  cases value with
  | array items =>
    obtain ⟨m, rfl, hitems⟩ := h.of_array
    exact Json.fits_array.mpr (Statement.fits_of_ofItems hitems hb)
  | _ => cases hb

theorem Variable.fits_of_ofJson {v : Variable} (h : value.Fits n)
    (hv : Variable.ofJson path value = .ok v) : v.toJson.Fits n := by
  obtain ⟨fields, hf, ht⟩ := Except.bind_eq_ok_iff.mp hv
  obtain rfl := Json.fields_eq_ok hf
  obtain ⟨m, rfl, hfields⟩ := h.of_object
  obtain ⟨type, -, hr⟩ := Except.bind_eq_ok_iff.mp ht
  obtain rfl := Except.pure_eq_ok_iff.mp hr
  simp [toJson, Json.fits_valueOr hfields]

namespace Draft

/-- The values of a table under a key of fields that fit. -/
theorem forall_of_tableOfField_fits {α : Type} {P : α → Prop}
    {read : Path → Json → Except Malformed α} {key : String} {table : Table String α}
    (hread : ∀ m, n = m + 1 → ∀ path value a, value.Fits m → read path value = .ok a → P a)
    (hf : ∀ field ∈ fields, field.2.Fits n) (h : tableOfField read path fields key = .ok table) :
    ∀ a ∈ table.values, P a := by
  unfold tableOfField at h
  split at h
  · rename_i value hv
    obtain ⟨inner, hi, hr⟩ := Except.bind_eq_ok_iff.mp h
    obtain rfl := Json.fields_eq_ok hi
    obtain ⟨m, hm, hinner⟩ := (Json.fits_of_lookup hf hv).of_object
    exact Table.forall_of_ofFields (hread m hm) hinner (by simp) hr
  · cases h
    simp

theorem fits_of_headerOfFields {vars : Table String Variable}
    {procedures : Table String (Block Unit)} (hf : ∀ field ∈ fields, field.2.Fits (n + 1))
    (h : headerOfFields fields = .ok (vars, procedures)) :
    (∀ v ∈ vars.values, v.toJson.Fits n) ∧ ∀ body ∈ procedures.values, body.toJson.Fits n := by
  unfold headerOfFields at h
  split at h
  · rename_i header hheader
    obtain ⟨inner, hi, hr⟩ := Except.bind_eq_ok_iff.mp h
    obtain rfl := Json.fields_eq_ok hi
    have hinner := Json.fits_object.mp (Json.fits_of_lookup hf hheader)
    obtain ⟨_, hv, hr⟩ := Except.bind_eq_ok_iff.mp hr
    obtain ⟨_, hp, hr⟩ := Except.bind_eq_ok_iff.mp hr
    obtain ⟨rfl, rfl⟩ := Prod.mk.inj (Except.pure_eq_ok_iff.mp hr)
    constructor
    · refine forall_of_tableOfField_fits (fun m hm _ value v hvalue hread => ?_) hinner hv
      exact (Variable.fits_of_ofJson hvalue hread).mono (hm ▸ Nat.le_succ m)
    · refine forall_of_tableOfField_fits (fun m hm _ value body hvalue hread => ?_) hinner hp
      rw [hm]
      exact Block.fits_of_ofJson hvalue hread
  · cases h
    simp

theorem fits_table {α : Type} {t : Table String α} {f : α → Json} :
    Json.Fits (.object (t.entries.map fun entry => (entry.1, f entry.2))) (n + 1) ↔
      ∀ a ∈ t.values, (f a).Fits n := by
  rw [Json.fits_object, List.forall_mem_map, Table.forall_values]

theorem fits_toJson {d : Draft} : d.toJson.Fits (n + 3) ↔
    (∀ v ∈ d.variables.values, v.toJson.Fits n) ∧
      (∀ body ∈ d.procedures.values, body.toJson.Fits n) ∧ d.block.toJson.Fits (n + 2) := by
  have hvariables := fits_table (n := n) (t := d.variables) (f := Variable.toJson)
  have hprocedures := fits_table (n := n) (t := d.procedures) (f := Block.toJson)
  rw [← hvariables, ← hprocedures]
  simp [toJson, and_assoc]

/-- Reading and writing nests a document one container deeper at most; written are at least the two
objects of the header and the document itself. -/
theorem fits_of_ofJson {document : Json} {d : Draft} (h : document.Fits n)
    (hd : ofJson document = .ok d) : d.toJson.Fits (max 3 (n + 1)) := by
  obtain ⟨fields, hf, hr⟩ := Except.bind_eq_ok_iff.mp hd
  obtain rfl := Json.fields_eq_ok hf
  obtain ⟨m, rfl, hfields⟩ := h.of_object
  obtain ⟨r, hr'⟩ : ∃ r, max 3 (m + 1 + 1) = r + 3 := ⟨max 3 (m + 1 + 1) - 3, by omega⟩
  have hlarge : ∀ field ∈ fields, field.2.Fits (r + 1) :=
    fun field hm => (hfields field hm).mono (by omega)
  obtain ⟨⟨vars, procedures⟩, hh, hr⟩ := Except.bind_eq_ok_iff.mp hr
  obtain ⟨hv, hp⟩ := fits_of_headerOfFields hlarge hh
  dsimp only at hr
  split at hr
  · rename_i block hblock
    obtain ⟨b, hb, hr⟩ := Except.bind_eq_ok_iff.mp hr
    obtain rfl := Except.pure_eq_ok_iff.mp hr
    rw [hr', fits_toJson]
    exact ⟨hv, hp, Block.fits_of_ofJson (Json.fits_of_lookup hlarge hblock) hb⟩
  · cases hr

/-- Procedures that stand alone get a header and a document around them. -/
theorem fits_of_proceduresOfJson {document : Json} {procedures : Table String (Block Unit)}
    (h : document.Fits (n + 1)) (hd : proceduresOfJson document = .ok procedures) :
    ∀ body ∈ procedures.values, body.toJson.Fits n := by
  have hpart : (headerPart document).2.Fits (n + 1) := by
    unfold headerPart
    split
    · split
      · rename_i header hheader
        exact (Json.fits_of_lookup (Json.fits_object.mp h) hheader).mono (Nat.le_succ n)
      · exact h
    · exact h
  cases hheader : headerPart document with
  | mk path header =>
    rw [hheader] at hpart
    rw [proceduresOfJson, hheader] at hd
    obtain ⟨fields, hf, hr⟩ := Except.bind_eq_ok_iff.mp hd
    obtain rfl := Json.fields_eq_ok hf
    have hfields := Json.fits_object.mp hpart
    split at hr
    · rename_i value hvalue
      obtain ⟨inner, hi, hr⟩ := Except.bind_eq_ok_iff.mp hr
      obtain rfl := Json.fields_eq_ok hi
      obtain ⟨m, rfl, hinner⟩ := (Json.fits_of_lookup hfields hvalue).of_object
      exact Table.forall_of_ofFields (fun _ _ _ => Block.fits_of_ofJson) hinner (by simp) hr
    · cases hr

end Draft

end Reading

end BlockScript
