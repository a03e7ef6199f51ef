import BlockScript.Proofs.Edits
import BlockScript.Proofs.Nesting
import BlockScript.Proofs.Changes
import Mathlib.Data.List.Perm.Subperm

/-! Equality of programs and equality of their documents come to the same, as no two kinds of nodes
are written alike. What is known of the one therefore holds of the other: that the order of fields
does not matter, that tags and flags do not, and that it is an equivalence. -/

namespace BlockScript

variable {ι κ : Type}

/-! ### Equality of values -/

namespace Json

theorem Number.sameAs_symm {m n : Number} (h : m.sameAs n = true) : n.sameAs m = true := by
  cases m <;> cases n <;>
    simp only [sameAs, Binary64.sameAs, Bool.or_eq_true, Bool.and_eq_true, beq_iff_eq,
      Bool.false_eq_true] at h ⊢
  · exact h.symm
  · exact h.imp Eq.symm And.symm

theorem Number.sameAs_trans {l m n : Number} (h : l.sameAs m = true) (h' : m.sameAs n = true) :
    l.sameAs n = true := by
  cases l <;> cases m <;> cases n <;>
    simp only [sameAs, Binary64.sameAs, Bool.or_eq_true, Bool.and_eq_true, beq_iff_eq,
      Bool.false_eq_true] at h h' ⊢
  · exact h.trans h'
  · rcases h with rfl | zero
    · exact h'
    · rcases h' with rfl | zero'
      · exact .inr zero
      · exact .inr ⟨zero.1, zero'.2⟩

theorem sameFields_iff {as bs : List (String × Json)} : sameFields as bs = true ↔
    ∀ key a, (key, a) ∈ as → ∃ b, bs.lookup key = some b ∧ a.sameAs b = true := by
  induction as with
  | nil => simp [sameFields]
  | cons field rest ih =>
    obtain ⟨key, a⟩ := field
    cases found : bs.lookup key <;> simp [sameFields, ih, found, or_imp, forall_and]

/-- Objects of the same two keys. -/
theorem sameAs_pair {k l : String} (distinct : l ≠ k) (a b c d : Json) :
    sameAs (.object [(k, a), (l, b)]) (.object [(k, c), (l, d)]) = (a.sameAs c && b.sameAs d) := by
  simp [sameAs, sameFields, List.lookup_cons, beq_false_of_ne distinct]

/-- As many fields with the same values are fields of the same keys. -/
theorem exists_of_sameFields {as bs : List (String × Json)} {key : String} {b : Json}
    (distinct : (as.map Prod.fst).Nodup) (size : as.length = bs.length)
    (h : sameFields as bs = true) (hm : (key, b) ∈ bs) : ∃ a, (key, a) ∈ as := by
  have hsub : as.map Prod.fst ⊆ bs.map Prod.fst := by
    intro k hk
    obtain ⟨⟨k, a⟩, ha, rfl⟩ := List.mem_map.mp hk
    obtain ⟨b, hb, -⟩ := sameFields_iff.mp h k a ha
    exact List.mem_map.mpr ⟨(k, b), Entries.mem_of_lookup hb, rfl⟩
  have hperm : (as.map Prod.fst).Perm (bs.map Prod.fst) :=
    (List.subperm_of_subset distinct hsub).perm_of_length_le (by simp [size])
  have hkey : key ∈ as.map Prod.fst := hperm.mem_iff.mpr (List.mem_map_of_mem hm)
  obtain ⟨⟨k, a⟩, ha, rfl⟩ := List.mem_map.mp hkey
  exact ⟨a, ha⟩

mutual

theorem sameAs_symm : {a b : Json} → a.Proper → b.Proper → a.sameAs b = true → b.sameAs a = true
  | .object as, b, ha, hb, h => by
    cases b with
    | object bs =>
      simp only [sameAs, Bool.and_eq_true, beq_iff_eq] at h ⊢
      refine ⟨h.1.symm, sameFields_iff.mpr fun key b hm => ?_⟩
      obtain ⟨a, hma⟩ := exists_of_sameFields ha.1 h.1 h.2 hm
      have hb' := Entries.lookup_of_mem hb.1 hm
      exact ⟨a, Entries.lookup_of_mem ha.1 hma, sameFields_symm ha.2 hb.2 h.2 hma hb'⟩
    | _ => simp [sameAs] at h
  | .array as, b, ha, hb, h => by
    cases b with
    | array bs =>
      rw [sameAs] at h ⊢
      exact sameItems_symm ha hb h
    | _ => simp [sameAs] at h
  | .number m, b, _, _, h => by
    cases b with
    | number n =>
      rw [sameAs] at h ⊢
      exact Number.sameAs_symm h
    | _ => simp [sameAs] at h
  | .null, b, _, _, h | .bool _, b, _, _, h | .string _, b, _, _, h => by
    cases b <;> simp_all [sameAs]

theorem sameItems_symm : {as bs : List Json} → ProperItems as → ProperItems bs →
    sameItems as bs = true → sameItems bs as = true
  | [], [], _, _, _ => rfl
  | _ :: _, _ :: _, ha, hb, h => by
    simp only [sameItems, Bool.and_eq_true] at h ⊢
    exact ⟨sameAs_symm ha.1 hb.1 h.1, sameItems_symm ha.2 hb.2 h.2⟩
  | [], _ :: _, _, _, h | _ :: _, [], _, _, h => by simp [sameItems] at h

theorem sameFields_symm {key : String} {a b : Json} : {as bs : List (String × Json)} →
    ProperFields as → ProperFields bs → sameFields as bs = true → (key, a) ∈ as →
      bs.lookup key = some b → b.sameAs a = true
  | (k, v) :: rest, bs, ha, hb, h, hm, found => by
    simp only [sameFields, Bool.and_eq_true] at h
    rcases List.mem_cons.mp hm with here | later
    · obtain ⟨rfl, rfl⟩ := Prod.mk.inj here
      rw [found] at h
      exact sameAs_symm ha.1 (hb.lookup found) h.1
    · exact sameFields_symm ha.2 hb h.2 later found

end

mutual

theorem sameAs_trans : {a b c : Json} → a.sameAs b = true → b.sameAs c = true → a.sameAs c = true
  | .object as, b, c, h, h' => by
    cases b with
    | object bs =>
      cases c with
      | object cs =>
        simp only [sameAs, Bool.and_eq_true, beq_iff_eq] at h h' ⊢
        exact ⟨h.1.trans h'.1, sameFields_trans h.2 h'.2⟩
      | _ => simp [sameAs] at h'
    | _ => simp [sameAs] at h
  | .array as, b, c, h, h' => by
    cases b with
    | array bs =>
      cases c with
      | array cs =>
        rw [sameAs] at h h' ⊢
        exact sameItems_trans h h'
      | _ => simp [sameAs] at h'
    | _ => simp [sameAs] at h
  | .number l, b, c, h, h' => by
    cases b with
    | number m =>
      cases c with
      | number n =>
        rw [sameAs] at h h' ⊢
        exact Number.sameAs_trans h h'
      | _ => simp [sameAs] at h'
    | _ => simp [sameAs] at h
  | .null, b, c, h, h' | .bool _, b, c, h, h' | .string _, b, c, h, h' => by
    cases b <;> cases c <;> simp_all [sameAs]

theorem sameItems_trans : {as bs cs : List Json} → sameItems as bs = true →
    sameItems bs cs = true → sameItems as cs = true
  | [], [], [], _, _ => rfl
  | _ :: _, _ :: _, _ :: _, h, h' => by
    simp only [sameItems, Bool.and_eq_true] at h h' ⊢
    exact ⟨sameAs_trans h.1 h'.1, sameItems_trans h.2 h'.2⟩
  | [], _ :: _, _, h, _ | _ :: _, [], _, h, _ => by simp [sameItems] at h
  | _, [], _ :: _, _, h | _, _ :: _, [], _, h => by simp [sameItems] at h

theorem sameFields_trans : {as bs cs : List (String × Json)} → sameFields as bs = true →
    sameFields bs cs = true → sameFields as cs = true
  | [], _, _, _, _ => rfl
  | (key, a) :: rest, bs, cs, h, h' => by
    obtain ⟨b, hb, hab⟩ := sameFields_iff.mp h key a List.mem_cons_self
    obtain ⟨c, hc, hbc⟩ := sameFields_iff.mp h' key b (Entries.mem_of_lookup hb)
    simp only [sameFields, hb, Bool.and_eq_true] at h
    simp only [sameFields, hc, Bool.and_eq_true]
    exact ⟨sameAs_trans hab hbc, sameFields_trans h.2 h'⟩

end

end Json

/-! ### Expressions -/

theorem ValueType.name_injective : Function.Injective name := fun s t h =>
  Option.some.inj (by rw [← ofName?_name s, h, ofName?_name t])

@[simp] theorem ValueType.sameAs_toJson (s t : ValueType) :
    s.toJson.sameAs t.toJson = (s == t) := by
  rw [Bool.eq_iff_iff]
  simp [toJson, Json.sameAs, name_injective.eq_iff]

@[simp] theorem Operand.sameAs_toJson (a : Operand ι) (b : Operand κ) :
    a.toJson.sameAs b.toJson = a.sameAs b := by
  rw [toJson, toJson, Json.sameAs_pair (by decide), ValueType.sameAs_toJson, sameAs]

namespace Expression

mutual

/-- A comparison has a first operand, a group has a list of operands, and an operand has a type. -/
@[simp] theorem sameAs_toJson :
    (e : Expression ι) → (f : Expression κ) → e.toJson.sameAs f.toJson = e.sameAs f
  | leaf _ _ _ second, leaf _ _ _ second' => by
    cases second <;> cases second' <;>
      simp [toJson, Json.sameAs, Json.sameFields, sameAs, List.lookup_cons, Bool.and_assoc]
  | group _ _ children, group _ _ children' => by
    rw [toJson, toJson, Json.sameAs_pair (by decide), Json.sameAs, Json.sameAs,
      sameItems_toItems children children', sameAs]
  | operand o, operand o' => by simp [toJson, sameAs]
  | leaf _ _ _ second, group .. | leaf _ _ _ second, operand _ => by
    cases second <;>
      simp [toJson, Operand.toJson, Json.sameAs, Json.sameFields, sameAs, List.lookup_cons]
  | group .., leaf _ _ _ second | operand _, leaf _ _ _ second => by
    cases second <;>
      simp [toJson, Operand.toJson, Json.sameAs, Json.sameFields, sameAs, List.lookup_cons]
  | group .., operand _ | operand _, group .. => by
    simp [toJson, Operand.toJson, Json.sameAs, Json.sameFields, sameAs, List.lookup_cons]

@[simp] theorem sameItems_toItems : (as : List (Expression ι)) → (bs : List (Expression κ)) →
    Json.sameItems (toItems as) (toItems bs) = sameEach as bs
  | [], [] | [], _ :: _ | _ :: _, [] => rfl
  | a :: as, b :: bs => by
    simp [toItems, Json.sameItems, sameEach, sameAs_toJson a b, sameItems_toItems as bs]

end

end Expression

/-! ### Statements -/

/-- An argument is given by a list of expressions exactly if it is a boolean expression. -/
def Argument.Typed (a : Argument ι) : Prop :=
  a.expressions?.isSome = true ↔ a.type = .booleanExpression

instance (a : Argument ι) : Decidable a.Typed := inferInstanceAs (Decidable (_ ↔ _))

def Head.Typed (h : Head ι) : Prop := ∀ a ∈ h.arguments.getD [], a.Typed

/-- All arguments of the block are typed, at any depth. -/
def Block.Typed (block : Block ι) : Prop :=
  ∀ s ∈ Statement.nodesEach block, ∀ a ∈ s.arguments, a.Typed

namespace Argument

@[simp] theorem typed_literal {type : ValueType} {value : Json} :
    (literal type value : Argument ι).Typed ↔ type ≠ .booleanExpression := by
  simp [Typed, expressions?, Argument.type]

@[simp] theorem typed_expressions {type : ValueType} {list : ExpressionList ι} :
    (expressions type list).Typed ↔ type = .booleanExpression := by
  simp [Typed, expressions?, Argument.type]

theorem WellFormed.typed {a : Argument ι} (h : a.WellFormed) : a.Typed := by
  cases a with
  | literal type value => exact typed_literal.mpr h.1
  | expressions type list => exact typed_expressions.mpr h.1

/-- Only the list of a boolean expression is written under its type. -/
theorem sameAs_toJson {a : Argument ι} {b : Argument κ} (ha : a.Typed) (hb : b.Typed) :
    a.toJson.sameAs b.toJson = a.sameAs b := by
  cases a with
  | literal type value =>
    cases b with
    | literal type' value' => simp [toJson, Argument.type, Json.sameAs_pair, sameAs]
    | expressions type' list' =>
      obtain rfl := typed_expressions.mp hb
      have hne := beq_false_of_ne (typed_literal.mp ha)
      simp [toJson, Argument.type, Json.sameAs_pair, sameAs, hne]
  | expressions type list =>
    cases b with
    | literal type' value' =>
      obtain rfl := typed_expressions.mp ha
      have hne := beq_false_of_ne (typed_literal.mp hb).symm
      simp [toJson, Argument.type, Json.sameAs_pair, sameAs, hne]
    | expressions type' list' =>
      simp [toJson, Argument.type, Json.sameAs_pair, Json.sameAs, sameAs]

theorem sameItems_map_toJson : {as : List (Argument ι)} → {bs : List (Argument κ)} →
    (∀ a ∈ as, a.Typed) → (∀ b ∈ bs, b.Typed) →
      Json.sameItems (as.map toJson) (bs.map toJson) = sameEach as bs
  | [], [], _, _ | [], _ :: _, _, _ | _ :: _, [], _, _ => rfl
  | a :: as, b :: bs, ha, hb => by
    rw [List.forall_mem_cons] at ha hb
    simp [Json.sameItems, sameEach, sameAs_toJson ha.1 hb.1, sameItems_map_toJson ha.2 hb.2]

end Argument

namespace Head

variable {a : Head ι} {b : Head κ}

theorem sameAs_toFields (ha : a.Typed) (hb : b.Typed) :
    Json.sameAs (.object a.toFields) (.object b.toFields) = a.sameAs b := by
  cases has : a.arguments <;> cases hbs : b.arguments <;>
    simp_all [Typed, toFields, Json.sameAs, Json.sameFields, sameAs,
      List.lookup_cons, Argument.sameItems_map_toJson]

/-- A block after the fields of a head. -/
theorem sameAs_toFields_append (ha : a.Typed) (hb : b.Typed) (as bs : List Json) :
    Json.sameAs (.object (a.toFields ++ [("block", .array as)]))
      (.object (b.toFields ++ [("block", .array bs)])) = (a.sameAs b && Json.sameItems as bs) := by
  cases has : a.arguments <;> cases hbs : b.arguments <;>
    simp_all [Typed, toFields, Json.sameAs, Json.sameFields, sameAs,
      List.lookup_cons, Argument.sameItems_map_toJson, Bool.and_assoc]

end Head

/-- All arguments of the statement and of those nested in it are typed. -/
def Statement.Typed (s : Statement ι) : Prop := ∀ n ∈ s.nodes, ∀ a ∈ n.arguments, a.Typed

namespace Statement

@[simp] theorem typed_simple {head : Head ι} : (simple head).Typed ↔ head.Typed := by
  simp [Typed, nodes, Head.Typed, arguments, Statement.head]

@[simp] theorem typed_compound {head : Head ι} {block : Block ι} :
    (compound head block).Typed ↔ head.Typed ∧ Block.Typed block := by
  simp [Typed, nodes, Head.Typed, Block.Typed, arguments, Statement.head]

@[simp] theorem typed_cons {s : Statement ι} {rest : Block ι} :
    Block.Typed (s :: rest) ↔ s.Typed ∧ Block.Typed rest := by
  simp [Block.Typed, Typed, nodesEach, or_imp, forall_and]

mutual

/-- Only a compound statement has a block. -/
theorem sameAs_toJson : {s : Statement ι} → {t : Statement κ} → s.Typed → t.Typed →
    s.toJson.sameAs t.toJson = s.sameAs t
  | simple _, simple _, hs, ht => by
    rw [toJson, toJson, Head.sameAs_toFields (typed_simple.mp hs) (typed_simple.mp ht), sameAs]
  | compound _ as, compound _ bs, hs, ht => by
    rw [typed_compound] at hs ht
    rw [toJson, toJson, Head.sameAs_toFields_append hs.1 ht.1, sameItems_toItems hs.2 ht.2, sameAs]
  | simple a, compound b _, _, _ | compound a _, simple b, _, _ => by
    cases has : a.arguments <;> cases hbs : b.arguments <;>
      simp [toJson, Head.toFields, has, hbs, Json.sameAs, Json.sameFields, sameAs, List.lookup_cons]

theorem sameItems_toItems : {as : Block ι} → {bs : Block κ} → Block.Typed as → Block.Typed bs →
    Json.sameItems (toItems as) (toItems bs) = sameEach as bs
  | [], [], _, _ | [], _ :: _, _, _ | _ :: _, [], _, _ => rfl
  | a :: as, b :: bs, ha, hb => by
    rw [typed_cons] at ha hb
    rw [toItems, toItems, Json.sameItems, sameAs_toJson ha.1 hb.1, sameItems_toItems ha.2 hb.2,
      sameEach]

end

mutual

theorem WellFormed.typed : {s : Statement ι} → s.WellFormed → s.Typed
  | simple _, h => typed_simple.mpr fun a ha => (h a ha).typed
  | compound _ _, h => typed_compound.mpr ⟨fun a ha => (h.1 a ha).typed, WellFormedEach.typed h.2⟩

theorem WellFormedEach.typed : {block : Block ι} → WellFormedEach block → Block.Typed block
  | [], _ => by simp [Block.Typed, nodesEach]
  | _ :: _, h => typed_cons.mpr ⟨WellFormed.typed h.1, WellFormedEach.typed h.2⟩

end

end Statement

/-! ### Programs -/

@[simp] theorem Variable.sameAs_toJson (v w : Variable) :
    v.toJson.sameAs w.toJson = v.sameAs w := by
  rw [toJson, toJson, Json.sameAs_pair (by decide), ValueType.sameAs_toJson, sameAs]

theorem Table.agree_iff {α : Type} {related : α → α → Bool} {t u : Table String α} :
    t.agree related u = true ↔ t.size = u.size ∧
      ∀ key a, (key, a) ∈ t.entries → ∃ b, u.get? key = some b ∧ related a b = true := by
  refine ⟨fun h => ?_, fun h => agree_of_get? h.1 h.2⟩
  rw [agree, Bool.and_eq_true, beq_iff_eq, List.all_eq_true] at h
  refine ⟨h.1, fun key a hm => ?_⟩
  have hfound := h.2 (key, a) hm
  cases hb : u.get? key with
  | none => simp [hb] at hfound
  | some b => exact ⟨b, rfl, by simpa [hb] using hfound⟩

/-- The objects of two tables. -/
theorem Table.sameAs_toJson {α : Type} {f : α → Json} {related : α → α → Bool}
    {t u : Table String α}
    (h : ∀ a ∈ t.values, ∀ b ∈ u.values, (f a).sameAs (f b) = related a b) :
    Json.sameAs (.object (t.entries.map fun (key, a) => (key, f a)))
      (.object (u.entries.map fun (key, a) => (key, f a))) = t.agree related u := by
  have hlookup (key : String) : (u.entries.map fun (key, a) => (key, f a)).lookup key =
      (u.get? key).map f := get?_mapValues (fun _ => f) u key
  rw [Bool.eq_iff_iff, agree_iff, Json.sameAs, Bool.and_eq_true, beq_iff_eq, List.length_map,
    List.length_map, Json.sameFields_iff]
  refine and_congr_right fun _ => ⟨fun hall key a hm => ?_, fun hall _ _ hentry => ?_⟩
  · obtain ⟨c, hc, hac⟩ := hall key (f a) (List.mem_map.mpr ⟨(key, a), hm, rfl⟩)
    obtain ⟨b, hb, rfl⟩ := Option.map_eq_some_iff.mp ((hlookup key).symm.trans hc)
    exact ⟨b, hb, by rw [← h a (List.mem_map_of_mem hm) b (mem_values_of_get? hb), hac]⟩
  · obtain ⟨⟨key, a⟩, hm, heq⟩ := List.mem_map.mp hentry
    obtain ⟨rfl, rfl⟩ := Prod.mk.inj heq
    obtain ⟨b, hb, hab⟩ := hall key a hm
    refine ⟨f b, by rw [hlookup, hb, Option.map_some], ?_⟩
    rw [h a (List.mem_map_of_mem hm) b (mem_values_of_get? hb), hab]

namespace Program

variable {p q r : Program}

/-- An argument anywhere in the program is given by a list of expressions exactly if it is a boolean
expression. -/
def Typed (p : Program) : Prop := ∀ s ∈ p.nodes, ∀ a ∈ s.arguments, a.Typed

instance (p : Program) : Decidable p.Typed :=
  inferInstanceAs (Decidable (∀ s ∈ p.nodes, ∀ a ∈ s.arguments, a.Typed))

/-- The program without the two lists about its statements. -/
def withoutBookkeeping (p : Program) : Program := { p with skeletons := [], initialized := [] }

theorem Typed.blocks (h : p.Typed) : ∀ block ∈ p.blocks, Block.Typed block :=
  fun block hb s hs => h s (List.mem_flatMap.mpr ⟨block, hb, hs⟩)

theorem sameAs_eq (p q : Program) : p.sameAs q = (p.skeletons == q.skeletons &&
    p.initialized == q.initialized && p.withoutBookkeeping.sameAs q.withoutBookkeeping) := by
  simp only [sameAs, withoutBookkeeping, BEq.rfl, Bool.and_true]
  ac_rfl

theorem sameAs_toJson (hp : p.Typed) (hq : q.Typed) :
    p.toJson.sameAs q.toJson = p.withoutBookkeeping.sameAs q.withoutBookkeeping := by
  have hps := hp.blocks
  have hqs := hq.blocks
  rw [blocks, List.forall_mem_cons] at hps hqs
  have hvariables := Table.sameAs_toJson fun v (_ : v ∈ p.variables.values) w
    (_ : w ∈ q.variables.values) => v.sameAs_toJson w
  have hprocedures : ∀ b ∈ p.procedures.values, ∀ c ∈ q.procedures.values,
      (Block.toJson b).sameAs (Block.toJson c) = Statement.sameEach b c := fun b hb c hc => by
    rw [Block.toJson, Block.toJson, Json.sameAs,
      Statement.sameItems_toItems (hps.2 b hb) (hqs.2 c hc)]
  rw [toJson, toJson, Json.sameAs_pair (by decide), Json.sameAs_pair (by decide), hvariables,
    Table.sameAs_toJson hprocedures, Block.toJson, Block.toJson, Json.sameAs,
    Statement.sameItems_toItems hps.1 hqs.1]
  simp [sameAs, withoutBookkeeping]

end Program

/-! ### What equality does not see -/

theorem Table.agree_mapValues {α β : Type} (f : α → β) (related : β → β → Bool)
    (t u : Table String α) : (t.mapValues fun _ => f).agree related (u.mapValues fun _ => f) =
      t.agree (fun a b => related (f a) (f b)) u := by
  have hentries (g : String × β → Bool) : (t.mapValues fun _ => f).entries.all g =
      t.entries.all fun entry => g (entry.1, f entry.2) := List.all_map
  have hsize (t : Table String α) : (t.mapValues fun _ => f).size = t.size := List.length_map _
  rw [agree, agree, hentries, hsize, hsize]
  congr
  funext entry
  obtain ⟨key, a⟩ := entry
  dsimp only
  rw [get?_mapValues]
  cases u.get? key <;> rfl

theorem Table.ext_of_keys_values {α : Type} {t u : Table String α} (keys : t.keys = u.keys)
    (values : t.values = u.values) : t = u :=
  ext ((List.zip_of_prod keys values).trans (List.zip_of_prod rfl rfl).symm)

namespace ExpressionList

open Expression

variable {old new list list' : ExpressionList ι}

@[simp] theorem plainEach_append (as bs : ExpressionList ι) :
    plainEach (as ++ bs) = plainEach as ++ plainEach bs := by
  induction as with
  | nil => rfl
  | cons a as ih => simp [plainEach, ih]

theorem Replaced.plainEach_eq (h : Replaced old new list list')
    (same : plainEach new = plainEach old) : plainEach list' = plainEach list := by
  induction h with
  | here => exact same
  | beside before after _ ih => simp [ih]
  | inside tag operator _ ih => simp [plainEach, Expression.plain, ih]

/-- New tags for a node leave the content of the list. -/
theorem plainEach_of_restamp {node next next' : Nat} {list list' : ExpressionList Nat}
    (h : (ExpressionEdit.restamp node).run? list next = some (list', next')) :
    plainEach list' = plainEach list := by
  obtain ⟨old, new, made, hr⟩ := ExpressionEdit.makes_of_run? h
  cases made with
  | restamp tag e => exact hr.plainEach_eq (by simp [plainEach])

end ExpressionList

namespace Block

open Statement

variable {old new block block' : Block ι}

@[simp] theorem plainEach_append (as bs : Block ι) :
    plainEach (as ++ bs) = plainEach as ++ plainEach bs := by
  induction as with
  | nil => rfl
  | cons a as ih => simp [plainEach, ih]

theorem Replaced.plainEach_eq (h : Replaced old new block block')
    (same : plainEach new = plainEach old) : plainEach block' = plainEach block := by
  induction h with
  | here => exact same
  | beside before after _ ih => simp [ih]
  | inside head _ ih => simp [plainEach, Statement.plain, ih]

end Block

/-- An argument in the place of one with the same content. -/
theorem Head.plain_put {head : Head ι} {index : Nat} {a b : Argument ι}
    (found : (head.arguments.getD [])[index]? = some a) (same : b.plain = a.plain) :
    (head.put index b).plain = head.plain := by
  cases harguments : head.arguments with
  | none => simp [put, plain, harguments]
  | some arguments =>
    rw [harguments, Option.getD_some] at found
    obtain ⟨h, rfl⟩ := List.getElem?_eq_some_iff.mp found
    have hset : (arguments.set index b).map Argument.plain = arguments.map Argument.plain := by
      rw [List.map_set, same, ← List.getElem_map Argument.plain (h := by simpa using h),
        List.set_getElem_self]
    simp [put, plain, harguments, hset]

theorem Statement.plain_put {s : Statement ι} {index : Nat} {a b : Argument ι}
    (found : s.arguments[index]? = some a) (same : b.plain = a.plain) :
    (s.mapHead (.put index b)).plain = s.plain := by
  have hhead : (s.head.put index b).plain = s.head.plain := Head.plain_put found same
  cases s with
  | simple head => exact congrArg simple hhead
  | compound head block => exact congrArg (compound · (plainEach block)) hhead

namespace Program

variable {p q r : Program}

theorem Replaced.content_eq {old new : Block Nat} (h : Replaced old new p q)
    (same : Statement.plainEach new = Statement.plainEach old) : q.content = p.content := by
  obtain ⟨before, block, block', after, hp, hq, hr⟩ := h.blocks
  have hblocks : q.blocks.map Statement.plainEach = p.blocks.map Statement.plainEach := by
    simp [hp, hq, hr.plainEach_eq same]
  rw [Program.blocks, Program.blocks, List.map_cons, List.map_cons, List.cons.injEq] at hblocks
  have hprocedures : (q.procedures.mapValues fun _ => Statement.plainEach) =
      p.procedures.mapValues fun _ => Statement.plainEach := by
    apply Table.ext_of_keys_values
    · rw [Table.keys_mapValues, Table.keys_mapValues, h.keys]
    · rw [Table.values_mapValues, Table.values_mapValues, hblocks.2]
  rw [content, content, h.variables, hprocedures, hblocks.1]

/-- Equality sees of the trees only their content. -/
theorem sameAs_content (p q : Program) : p.sameAs q =
    (p.variables.agree Variable.sameAs q.variables &&
      p.content.procedures.agree Statement.sameEach q.content.procedures &&
      p.skeletons == q.skeletons && p.initialized == q.initialized &&
      Statement.sameEach p.content.block q.content.block) := by
  rw [content, content, Table.agree_mapValues]
  simp only [Statement.sameEach_plainEach, sameAs]

theorem sameAs_congr (content : q.content = p.content) (skeletons : q.skeletons = p.skeletons)
    (initialized : q.initialized = p.initialized) (r : Program) :
    q.sameAs r = p.sameAs r ∧ r.sameAs q = r.sameAs p := by
  have hvariables : q.variables = p.variables := congrArg Draft.variables content
  simp only [sameAs_content, content, hvariables, skeletons, initialized, and_self]

/-- New tags for a statement, or for a node of an expression list, and for all below it. -/
inductive Restamped (p : Program) : Program → Prop
  | statement {tag : Nat} {q : Program} : p.restamp? tag = some q → Restamped p q
  | expression {tag index node : Nat} {q : Program} :
      p.editExpressions? tag index (.restamp node) = some q → Restamped p q

theorem Restamped.unchanged (h : p.Restamped q) : q.content = p.content ∧
    q.skeletons = p.skeletons ∧ q.initialized = p.initialized := by
  cases h with
  | statement h =>
    obtain ⟨s, -, h⟩ := Option.bind_eq_some_iff.mp h
    obtain ⟨r, hr, hq⟩ := Option.bind_eq_some_iff.mp h
    obtain rfl := Option.some.inj hq
    obtain ⟨old, -, hr⟩ := replaced_of_update? hr
    exact ⟨hr.content_eq (by simp [Statement.plainEach]), hr.skeletons, hr.initialized⟩
  | expression h =>
    obtain ⟨type, list, list', next, r, hlist, hrun, hr, rfl⟩ := putArgument?_of_editExpressions? h
    obtain ⟨s, old, hs, hold, hr⟩ := replaced_of_putArgument? hr
    obtain rfl : .expressions type list = old := by simpa [argument?, hs, hold] using hlist.symm
    have hlists := ExpressionList.plainEach_of_restamp hrun
    have hargument : (Argument.expressions type list').plain =
        (Argument.expressions type list).plain :=
      congrArg (Argument.expressions type) hlists
    have hput := Statement.plain_put hold hargument
    have hcontent := hr.content_eq (by simp [Statement.plainEach, hput])
    exact ⟨hcontent, hr.skeletons, hr.initialized⟩

/-! ### Programs and their documents -/

theorem WellFormed.typed (wf : p.WellFormed) : p.Typed := fun s hs => by
  obtain ⟨block, hb, hs⟩ := List.mem_flatMap.mp hs
  exact (wf.blocks block hb).typed s hs

theorem sameAs_iff (hp : p.Typed) (hq : q.Typed) : p.sameAs q = true ↔ p.skeletons = q.skeletons ∧
    p.initialized = q.initialized ∧ p.toJson.sameAs q.toJson = true := by
  rw [sameAs_eq, sameAs_toJson hp hq, Bool.and_eq_true, Bool.and_eq_true, beq_iff_eq, beq_iff_eq,
    and_assoc]

theorem equivalence_sameAs :
    Equivalence fun p q : {p : Program // p.Typed ∧ p.toJson.Proper} => p.1.sameAs q.1 where
  refl p := (sameAs_iff p.2.1 p.2.1).mpr ⟨rfl, rfl, Json.sameAs_self p.2.2⟩
  symm {p q} h := by
    obtain ⟨hs, hi, hd⟩ := (sameAs_iff p.2.1 q.2.1).mp h
    exact (sameAs_iff q.2.1 p.2.1).mpr ⟨hs.symm, hi.symm, Json.sameAs_symm p.2.2 q.2.2 hd⟩
  trans {p q r} h h' := by
    obtain ⟨hs, hi, hd⟩ := (sameAs_iff p.2.1 q.2.1).mp h
    obtain ⟨hs', hi', hd'⟩ := (sameAs_iff q.2.1 r.2.1).mp h'
    exact (sameAs_iff p.2.1 r.2.1).mpr ⟨hs.trans hs', hi.trans hi', Json.sameAs_trans hd hd'⟩

/-- Whatever documented edits lead to two programs, they are equal exactly if their documents
are. -/
theorem sameAs_toJson_after {start start' : Program} (h : start.Initial) (h' : start'.Initial)
    {edits edits' : List Edit} (documented : ∀ edit ∈ edits, edit.Documented)
    (documented' : ∀ edit ∈ edits', edit.Documented) :
    let p := start.after edits
    let q := start'.after edits'
    p.toJson.sameAs q.toJson = p.withoutBookkeeping.sameAs q.withoutBookkeeping :=
  sameAs_toJson (wellFormed_after documented h.wellFormed).typed
    (wellFormed_after documented' h'.wellFormed).typed

/-- But for their bookkeeping, typed programs are equal exactly if their documents are. Equality is
an equivalence that sees neither tags nor flags, and no document stands for two different
programs. -/
theorem toJson_faithful :
    (∀ p q : Program, p.Typed → q.Typed →
      (p.withoutBookkeeping.sameAs q.withoutBookkeeping = true ↔ p.toJson.sameAs q.toJson = true)) ∧
    (Equivalence fun p q : {p : Program // p.Typed ∧ p.toJson.Proper} => p.1.sameAs q.1 = true) ∧
    (Equivalence fun p q : {p : Program // p.Typed ∧ p.toJson.Proper} =>
      p.1.withoutBookkeeping.sameAs q.1.withoutBookkeeping = true) ∧
    (∀ p q r : Program, p.Restamped q → q.sameAs r = p.sameAs r ∧ r.sameAs q = r.sameAs p) ∧
    (∀ (p r : Program) (a : Analysis),
      (p.mark a).sameAs r = p.sameAs r ∧ r.sameAs (p.mark a) = r.sameAs p) ∧
    ∀ p q : Program, p.Typed → q.Typed → p.toJson.Proper → p.toJson = q.toJson →
      p.withoutBookkeeping.sameAs q.withoutBookkeeping = true := by
  refine ⟨fun p q hp hq => ?_, equivalence_sameAs, ?_, fun p q r h => ?_, fun p r a => ?_,
    fun p q hp hq proper same => ?_⟩
  · rw [sameAs_toJson hp hq]
  · exact equivalence_sameAs.comap
      fun p : {p : Program // p.Typed ∧ p.toJson.Proper} => ⟨p.1.withoutBookkeeping, p.2⟩
  · obtain ⟨hcontent, hskeletons, hinitialized⟩ := h.unchanged
    exact sameAs_congr hcontent hskeletons hinitialized r
  · exact sameAs_congr (content_mark p a) rfl rfl r
  · rw [← sameAs_toJson hp hq, ← same, Json.sameAs_self proper]

/-- Variables in another order and other tags, also after new ones. -/
theorem toJson_faithful_reordered :
    let x : String × Variable := ("x", ⟨.number, .null⟩)
    let y : String × Variable := ("y", ⟨.string, .string "on"⟩)
    let condition : Argument Unit :=
      .expressions .booleanExpression [.comparison "==" ⟨(), .variable, .string "x"⟩ none]
    let block : Block Unit :=
      [.compound { id := "if", tag := (), arguments := some [condition] } [], .simple
        { id := "break", tag := () }]
    let p := ofDraft ⟨.ofList [x, y], ∅, block⟩
    let q := ofDraft ⟨.ofList [y, x], ∅, block⟩ 7
    p.variables.keys ≠ q.variables.keys ∧ p.toJson.sameAs q.toJson = true ∧
      ∃ r, p.restamp? 0 = some r ∧ r.sameAs q = true := by
  intro x y condition block p q
  obtain ⟨hsame, -, -, hrestamped, -⟩ := toJson_faithful
  have hp : p.Typed := by decide
  have hq : q.Typed := by decide
  refine ⟨by decide, (hsame p q hp hq).mp (by decide), ?_⟩
  obtain ⟨r, hr⟩ : ∃ r, p.restamp? 0 = some r := ⟨_, rfl⟩
  refine ⟨r, hr, ?_⟩
  rw [(hrestamped p r q (.statement hr)).1]
  decide

end Program

end BlockScript
