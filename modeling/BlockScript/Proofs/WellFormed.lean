import BlockScript.Document.Draft
import BlockScript.Proofs.Content

/-! Well-formed trees: an argument is an expression list exactly if its type is that of boolean
expressions, a comparison has a second operand exactly if its operator is not unary, and no JSON
value has a key twice in one object. Stamping keeps trees well-formed, and a well-formed tree is the
same as itself. -/

namespace BlockScript

variable {ι κ : Type}

namespace Json

mutual

/-- No object has a key twice. -/
def Proper : Json → Prop
  | .array items => ProperItems items
  | .object fields => (fields.map Prod.fst).Nodup ∧ ProperFields fields
  | _ => True

def ProperItems : List Json → Prop
  | [] => True
  | item :: rest => item.Proper ∧ ProperItems rest

def ProperFields : List (String × Json) → Prop
  | [] => True
  | (_, value) :: rest => value.Proper ∧ ProperFields rest

end

@[simp] theorem proper_null : Proper .null := trivial

@[simp] theorem proper_string (s : String) : Proper (.string s) := trivial

@[simp] theorem proper_array {items : List Json} : Proper (.array items) ↔ ProperItems items :=
  Iff.rfl

@[simp] theorem proper_object {fields : List (String × Json)} :
    Proper (.object fields) ↔ (fields.map Prod.fst).Nodup ∧ ProperFields fields := Iff.rfl

theorem properItems_iff {items : List Json} : ProperItems items ↔ ∀ item ∈ items, item.Proper := by
  induction items with
  | nil => simp [ProperItems]
  | cons item rest ih => simp [ProperItems, ih]

theorem properFields_iff {fields : List (String × Json)} :
    ProperFields fields ↔ ∀ field ∈ fields, field.2.Proper := by
  induction fields with
  | nil => simp [ProperFields]
  | cons field rest ih => simp [ProperFields, ih]

theorem ProperFields.lookup {fields : List (String × Json)} {key : String} {value : Json}
    (h : ProperFields fields) (found : fields.lookup key = some value) : value.Proper := by
  induction fields with
  | nil => simp at found
  | cons field rest ih =>
    rw [List.lookup_cons] at found
    split at found
    · obtain rfl := Option.some.inj found
      exact h.1
    · exact ih h.2 found

theorem ProperFields.valueOr {fields : List (String × Json)} (h : ProperFields fields)
    (key : String) : (Json.valueOr fields key).Proper := by
  cases found : fields.lookup key with
  | none => simp [Json.valueOr, found]
  | some value => simpa [Json.valueOr, found] using h.lookup found

theorem ProperFields.put {fields : List (String × Json)} (h : ProperFields fields) (key : String)
    {value : Json} (hv : value.Proper) : ProperFields (Entries.put key value fields) := by
  induction fields with
  | nil => exact ⟨hv, trivial⟩
  | cons field rest ih =>
    rw [Entries.put]
    split
    · exact ⟨hv, h.2⟩
    · exact ⟨h.1, ih h.2⟩

theorem Number.sameAs_self : (n : Number) → n.sameAs n = true
  | .integer _ => by simp [Number.sameAs]
  | .binary _ => by simp [Number.sameAs, Binary64.sameAs]

mutual

theorem sameAs_self : {value : Json} → value.Proper → value.sameAs value = true
  | .null, _ => rfl
  | .bool _, _ => by simp [sameAs]
  | .number n, _ => by simp [sameAs, Number.sameAs_self n]
  | .string _, _ => by simp [sameAs]
  | .array items, h => by simp [sameAs, sameItems_self h]
  | .object fields, ⟨distinct, h⟩ => by
    have := sameFields_of_lookup h fun key value hm => Entries.lookup_of_mem distinct hm
    simp [sameAs, this]

theorem sameItems_self : {items : List Json} → ProperItems items → sameItems items items = true
  | [], _ => rfl
  | _ :: _, h => by simp [sameItems, sameAs_self h.1, sameItems_self h.2]

theorem sameFields_of_lookup {all : List (String × Json)} :
    {fields : List (String × Json)} → ProperFields fields →
      (∀ key value, (key, value) ∈ fields → all.lookup key = some value) →
        sameFields fields all = true
  | [], _, _ => rfl
  | (key, value) :: rest, h, found => by
    have hrest := sameFields_of_lookup h.2 fun k v hm => found k v (List.mem_cons_of_mem _ hm)
    simp [sameFields, found key value List.mem_cons_self, sameAs_self h.1, hrest]

end

end Json

theorem Operand.sameAs_self {o : Operand ι} (h : o.value.Proper) : o.sameAs o = true := by
  simp [Operand.sameAs, Json.sameAs_self h]

namespace Expression

mutual

/-- Every comparison has the operands that its operator takes. -/
def WellFormed : Expression ι → Prop
  | leaf _ operator first second =>
    second.isSome = !Operator.isUnary operator ∧ first.value.Proper ∧
      ∀ o ∈ second, o.value.Proper
  | group _ _ children => WellFormedEach children
  | operand o => o.value.Proper

def WellFormedEach : List (Expression ι) → Prop
  | [] => True
  | e :: rest => e.WellFormed ∧ WellFormedEach rest

end

theorem wellFormedEach_iff {list : List (Expression ι)} :
    WellFormedEach list ↔ ∀ e ∈ list, e.WellFormed := by
  induction list with
  | nil => simp [WellFormedEach]
  | cons e rest ih => simp [WellFormedEach, ih]

@[simp] theorem wellFormedEach_append {as bs : List (Expression ι)} :
    WellFormedEach (as ++ bs) ↔ WellFormedEach as ∧ WellFormedEach bs := by
  simp only [wellFormedEach_iff, List.forall_mem_append]

@[simp] theorem wellFormed_comparison {operator : String} {first : Operand Unit}
    {second : Option (Operand Unit)} (hf : first.value.Proper) (hs : ∀ o ∈ second, o.value.Proper) :
    (comparison operator first second).WellFormed := by
  by_cases hu : Operator.isUnary operator = true
  · simp [comparison, WellFormed, hu, hf]
  · cases second with
    | none => simp [comparison, WellFormed, hu, hf, Operand.unset]
    | some o => simpa [comparison, WellFormed, hu, hf] using hs

mutual

@[simp] theorem wellFormed_plain : (e : Expression ι) → (e.plain.WellFormed ↔ e.WellFormed)
  | leaf _ _ _ second => by cases second <;> simp [plain, WellFormed, Operand.plain, Operand.retag]
  | group _ _ children => by simp [plain, WellFormed, wellFormedEach_plainEach children]
  | operand _ => Iff.rfl

@[simp] theorem wellFormedEach_plainEach :
    (list : List (Expression ι)) → (WellFormedEach (plainEach list) ↔ WellFormedEach list)
  | [] => Iff.rfl
  | e :: rest => by
    simp [plainEach, WellFormedEach, wellFormed_plain e, wellFormedEach_plainEach rest]

end

@[simp] theorem wellFormed_stamp {next : Nat} {e : Expression ι} :
    (e.stamp next).WellFormed ↔ e.WellFormed := by
  rw [← wellFormed_plain, plain_stamp, wellFormed_plain]

@[simp] theorem wellFormedEach_stampEach {next : Nat} {list : List (Expression ι)} :
    WellFormedEach (stampEach next list) ↔ WellFormedEach list := by
  rw [← wellFormedEach_plainEach, plainEach_stampEach, wellFormedEach_plainEach]

mutual

theorem sameAs_self : {e : Expression ι} → e.WellFormed → e.sameAs e = true
  | leaf _ _ _ none, ⟨_, hf, _⟩ => by simp [sameAs, Operand.sameAs_self hf]
  | leaf _ _ _ (some o), ⟨_, hf, hs⟩ => by
    simp [sameAs, Operand.sameAs_self hf, Operand.sameAs_self (hs o rfl)]
  | group _ _ _, h => by
    have := sameEach_self h
    simp [sameAs, this]
  | operand _, h => Operand.sameAs_self h

theorem sameEach_self : {list : List (Expression ι)} → WellFormedEach list →
    sameEach list list = true
  | [], _ => rfl
  | _ :: _, h => by simp [sameEach, sameAs_self h.1, sameEach_self h.2]

end

end Expression

namespace Argument

/-- A boolean expression is given by a list of expressions, and nothing else is. -/
def WellFormed : Argument ι → Prop
  | literal type value => type ≠ .booleanExpression ∧ value.Proper
  | expressions type list => type = .booleanExpression ∧ Expression.WellFormedEach list

@[simp] theorem wellFormed_unset (type : ValueType) : (unset type : Argument ι).WellFormed := by
  cases type <;> simp [unset, WellFormed, Expression.WellFormedEach]

@[simp] theorem wellFormed_plain {a : Argument ι} : a.plain.WellFormed ↔ a.WellFormed := by
  cases a <;> simp [plain, WellFormed]

@[simp] theorem wellFormed_stamp {next : Nat} {a : Argument ι} :
    (a.stamp next).WellFormed ↔ a.WellFormed := by
  rw [← wellFormed_plain, plain_stamp, wellFormed_plain]

theorem sameAs_self {a : Argument ι} (h : a.WellFormed) : a.sameAs a = true := by
  cases a with
  | literal type value => simp [sameAs, Json.sameAs_self h.2]
  | expressions type list => simp [sameAs, Expression.sameEach_self h.2]

theorem sameEach_self {list : List (Argument ι)} (h : ∀ a ∈ list, a.WellFormed) :
    sameEach list list = true := by
  induction list with
  | nil => rfl
  | cons a rest ih =>
    simp only [List.forall_mem_cons] at h
    simp [sameEach, sameAs_self h.1, ih h.2]

end Argument

namespace Head

def WellFormed (h : Head ι) : Prop := ∀ a ∈ h.arguments.getD [], a.WellFormed

@[simp] theorem wellFormed_plain {h : Head ι} : h.plain.WellFormed ↔ h.WellFormed := by
  cases hargs : h.arguments <;> simp [WellFormed, plain, hargs]

theorem sameAs_self {h : Head ι} (wf : h.WellFormed) : h.sameAs h = true := by
  cases hargs : h.arguments with
  | none => simp [sameAs, hargs]
  | some arguments =>
    have hall : ∀ a ∈ arguments, a.WellFormed := by simpa [WellFormed, hargs] using wf
    simp [sameAs, hargs, Argument.sameEach_self hall]

end Head

namespace Statement

mutual

def WellFormed : Statement ι → Prop
  | simple head => head.WellFormed
  | compound head block => head.WellFormed ∧ WellFormedEach block

def WellFormedEach : Block ι → Prop
  | [] => True
  | s :: rest => s.WellFormed ∧ WellFormedEach rest

end

theorem wellFormedEach_iff {block : Block ι} :
    WellFormedEach block ↔ ∀ s ∈ block, s.WellFormed := by
  induction block with
  | nil => simp [WellFormedEach]
  | cons s rest ih => simp [WellFormedEach, ih]

@[simp] theorem wellFormedEach_append {as bs : Block ι} :
    WellFormedEach (as ++ bs) ↔ WellFormedEach as ∧ WellFormedEach bs := by
  simp only [wellFormedEach_iff, List.forall_mem_append]

mutual

@[simp] theorem wellFormed_plain : (s : Statement ι) → (s.plain.WellFormed ↔ s.WellFormed)
  | simple _ => by simp [plain, WellFormed]
  | compound _ block => by simp [plain, WellFormed, wellFormedEach_plainEach block]

@[simp] theorem wellFormedEach_plainEach :
    (block : Block ι) → (WellFormedEach (plainEach block) ↔ WellFormedEach block)
  | [] => Iff.rfl
  | s :: rest => by
    simp [plainEach, WellFormedEach, wellFormed_plain s, wellFormedEach_plainEach rest]

end

@[simp] theorem wellFormed_stamp {next : Nat} {s : Statement ι} :
    (s.stamp next).WellFormed ↔ s.WellFormed := by
  rw [← wellFormed_plain, plain_stamp, wellFormed_plain]

@[simp] theorem wellFormedEach_stampEach {next : Nat} {block : Block ι} :
    WellFormedEach (stampEach next block) ↔ WellFormedEach block := by
  rw [← wellFormedEach_plainEach, plainEach_stampEach, wellFormedEach_plainEach]

mutual

theorem sameAs_self : {s : Statement ι} → s.WellFormed → s.sameAs s = true
  | simple _, h => Head.sameAs_self h
  | compound _ _, h => by simp [sameAs, Head.sameAs_self h.1, sameEach_self h.2]

theorem sameEach_self : {block : Block ι} → WellFormedEach block → sameEach block block = true
  | [], _ => rfl
  | _ :: _, h => by simp [sameEach, sameAs_self h.1, sameEach_self h.2]

end

/-- Well-formed blocks with the same content are the same. -/
theorem sameEach_of_plainEach_eq {as : Block ι} {bs : Block κ} (h : WellFormedEach as)
    (content : plainEach as = plainEach bs) : sameEach as bs = true := by
  rw [← sameEach_plainEach, ← content]
  exact sameEach_self ((wellFormedEach_plainEach as).mpr h)

end Statement

structure Draft.WellFormed (d : Draft) : Prop where
  proper : ∀ v ∈ d.variables.values, v.value.Proper
  procedures : ∀ body ∈ d.procedures.values, Statement.WellFormedEach body
  block : Statement.WellFormedEach d.block

structure Program.WellFormed (p : Program) : Prop where
  proper : ∀ v ∈ p.variables.values, v.value.Proper
  blocks : ∀ block ∈ p.blocks, Statement.WellFormedEach block

theorem Table.forall_values_mapValues {α β : Type} {P : β → Prop} {f : String → α → β}
    {t : Table String α} :
    (∀ b ∈ (t.mapValues f).values, P b) ↔ ∀ entry ∈ t.entries, P (f entry.1 entry.2) := by
  simp only [values, mapValues, List.forall_mem_map]

theorem Table.forall_values {α : Type} {P : α → Prop} {t : Table String α} :
    (∀ a ∈ t.values, P a) ↔ ∀ entry ∈ t.entries, P entry.2 := by
  simp only [values, List.forall_mem_map]

theorem Table.agree_of_get? {α : Type} {related : α → α → Bool} {t u : Table String α}
    (size : t.size = u.size)
    (h : ∀ key a, (key, a) ∈ t.entries → ∃ b, u.get? key = some b ∧ related a b = true) :
    t.agree related u = true := by
  rw [agree, size, beq_self_eq_true, Bool.true_and, List.all_eq_true]
  rintro ⟨key, a⟩ hm
  obtain ⟨b, hb, hab⟩ := h key a hm
  simp [hb, hab]

theorem Draft.WellFormed.plain {d : Draft} (h : d.WellFormed) : d.plain.WellFormed where
  proper := h.proper
  procedures := by
    have := Table.forall_values.mp h.procedures
    simpa [Draft.plain, Table.forall_values_mapValues] using this
  block := by simpa [Draft.plain] using h.block

/-- Whether a program is well-formed shows in its content. -/
theorem Program.wellFormed_content_iff {p : Program} : p.content.WellFormed ↔ p.WellFormed := by
  have hprocedures : (∀ body ∈ p.content.procedures.values, Statement.WellFormedEach body) ↔
      ∀ body ∈ p.procedures.values, Statement.WellFormedEach body := by
    simp only [content, Table.forall_values_mapValues, Statement.wellFormedEach_plainEach,
      Table.forall_values]
  have hblock : Statement.WellFormedEach p.content.block ↔ Statement.WellFormedEach p.block :=
    Statement.wellFormedEach_plainEach ..
  constructor
  · rintro ⟨proper, procedures, block⟩
    refine ⟨proper, ?_⟩
    rw [blocks, List.forall_mem_cons]
    exact ⟨hblock.mp block, hprocedures.mp procedures⟩
  · rintro ⟨proper, hblocks⟩
    rw [blocks, List.forall_mem_cons] at hblocks
    exact ⟨proper, hprocedures.mpr hblocks.2, hblock.mpr hblocks.1⟩

theorem Program.wellFormed_ofDraft {d : Draft} (h : d.WellFormed) (next : Nat) :
    (ofDraft d next).WellFormed :=
  wellFormed_content_iff.mp (by rw [content_ofDraft]; exact h.plain)

end BlockScript
