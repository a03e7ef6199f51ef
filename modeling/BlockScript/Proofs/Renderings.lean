import BlockScript.Proofs.Equality
import BlockScript.Proofs.PrettyText

/-! Renderings of equal expressions. A rendering shows the values of operands as they are written,
while equality of values does not regard the order of fields and the sign of a zero. So equal
expressions render equally exactly if the values that are shown are written alike. -/

namespace BlockScript

variable {ι κ : Type}

/-! ### Texts that start alike -/

/-- Something can follow the two texts so that they become one: one of them is the beginning of the
other. -/
def StartAlike (a b : List Char) : Prop := ∃ more more', a ++ more = b ++ more'

namespace StartAlike

variable {a b c d : List Char}

theorem of_eq (h : a = b) : StartAlike a b := ⟨[], [], by rw [h]⟩

theorem of_append (h : StartAlike (a ++ c) (b ++ d)) : StartAlike a b := by
  obtain ⟨more, more', h⟩ := h
  exact ⟨c ++ more, d ++ more', by simpa using h⟩

theorem cancel (h : StartAlike (a ++ c) (a ++ d)) : StartAlike c d := by
  obtain ⟨more, more', h⟩ := h
  rw [List.append_assoc, List.append_assoc] at h
  exact ⟨more, more', List.append_cancel_left h⟩

theorem prepend (h : StartAlike c d) (a : List Char) : StartAlike (a ++ c) (a ++ d) := by
  obtain ⟨more, more', h⟩ := h
  exact ⟨more, more', by rw [List.append_assoc, List.append_assoc, h]⟩

theorem isPrefix_or (h : StartAlike a b) : a <+: b ∨ b <+: a := by
  obtain ⟨more, more', h⟩ := h
  exact List.prefix_or_prefix_of_prefix ⟨more, h⟩ ⟨more', rfl⟩

end StartAlike

/-- The parts one after the other, the separator before each of them. -/
def listed (separator : String) (parts : List String) : List Char :=
  parts.flatMap fun part => separator.toList ++ part.toList

theorem listed_cons (separator part : String) (parts : List String) :
    listed separator (part :: parts) =
      separator.toList ++ (part.toList ++ listed separator parts) := by
  rw [listed, List.flatMap_cons, List.append_assoc]
  rfl

theorem append_intercalate (separator first : String) (rest : List String) :
    separator.toList ++ (separator.intercalate (first :: rest)).toList =
      listed separator (first :: rest) := by
  rw [listed_cons, Json.toList_intercalate]
  rfl

/-- Between the brackets of two containers that both have parts, or both have none, the parts start
alike. -/
theorem StartAlike.listed {separator opening closing : String} {parts parts' : List String}
    (size : parts.length = parts'.length)
    (h : StartAlike (opening ++ separator.intercalate parts ++ closing).toList
      (opening ++ separator.intercalate parts' ++ closing).toList) :
    StartAlike (listed separator parts) (listed separator parts') := by
  cases parts with
  | nil =>
    obtain rfl := List.eq_nil_of_length_eq_zero size.symm
    exact .of_eq rfl
  | cons part parts =>
    cases parts' with
    | nil => cases size
    | cons part' parts' =>
      simp only [String.toList_append, List.append_assoc] at h
      rw [← append_intercalate, ← append_intercalate]
      exact h.cancel.of_append.prepend separator.toList

/-! ### Texts of values -/

namespace Binary64

theorem eq_zero {x : Binary64} (h : x.isZero = true) : x = zero x.negative := by
  obtain ⟨negative, significand, exponent, canonical⟩ := x
  obtain rfl : significand = 0 := by simpa [isZero] using h
  obtain rfl : exponent = -1074 := canonical.2.2.2.resolve_left (by decide)
  rfl

theorem binaryText_zero (negative : Bool) : Json.binaryText (zero negative) =
    if negative then ['-', '0', '.', '0'] else ['0', '.', '0'] := by
  cases negative <;> rfl

/-- Texts of zeros with different signs differ in their first characters. -/
theorem eq_of_zero_startAlike {x y : Binary64} (hx : x.isZero = true) (hy : y.isZero = true)
    (h : StartAlike (Json.binaryText x) (Json.binaryText y)) : x = y := by
  obtain ⟨more, more', h⟩ := h
  rw [eq_zero hx, eq_zero hy] at h ⊢
  rw [binaryText_zero, binaryText_zero] at h
  cases hsign : x.negative <;> cases hsign' : y.negative <;> simp_all

end Binary64

namespace Json

/-- Equal numbers are one number or two zeros. -/
theorem Number.eq_or_zeros {m n : Number} (same : m.sameAs n = true) :
    m = n ∨ ∃ x y, m = .binary x ∧ n = .binary y ∧ x.isZero = true ∧ y.isZero = true := by
  cases m <;> cases n
  case integer.integer a b => exact .inl (by rw [eq_of_beq same])
  case binary.binary x y =>
    rw [sameAs, Binary64.sameAs, Bool.or_eq_true, Bool.and_eq_true] at same
    rcases same with equal | zeros
    · exact .inl (by rw [eq_of_beq equal])
    · exact .inr ⟨x, y, rfl, rfl, zeros⟩
  all_goals cases same

theorem Number.eq_of_startAlike {m n : Number} (same : m.sameAs n = true)
    (h : StartAlike m.text.toList n.text.toList) : m = n := by
  obtain rfl | ⟨x, y, rfl, rfl, hx, hy⟩ := Number.eq_or_zeros same
  · rfl
  · rw [Number.text, Number.text, String.toList_ofList, String.toList_ofList] at h
    rw [Binary64.eq_of_zero_startAlike hx hy h]

theorem Machine.step?_finished (value : Json) (c : Char) :
    (⟨[], .finished value⟩ : Machine).step? c =
      if isBlank c then some ⟨[], .finished value⟩ else none := rfl

/-- After a whole value only blanks are read. -/
theorem Machine.eq_of_run?_finished {value : Json} {m : Machine} {chars : List Char}
    (h : (⟨[], .finished value⟩ : Machine).run? chars = some m) : m = ⟨[], .finished value⟩ := by
  induction chars with
  | nil => exact (Option.some.inj h).symm
  | cons c rest ih =>
    rw [run?_cons, Option.bind_eq_some_iff] at h
    obtain ⟨next, hstep, h⟩ := h
    rw [step?_finished] at hstep
    split at hstep
    · obtain rfl := Option.some.inj hstep
      exact ih h
    · cases hstep

/-- The machine that reads a string stops at its last quote. -/
theorem eq_of_quote_begins {s t : String} (h : (quote s).toList <+: (quote t).toList) : s = t := by
  obtain ⟨rest, h⟩ := h
  rw [toList_quote, toList_quote, List.cons_append, List.append_assoc] at h
  have hrun := congrArg (Machine.run? ⟨[], .text false [] .none⟩) (List.cons.inj h).2
  rw [List.singleton_append, Machine.run?_text, Machine.run?_text, Machine.run?_nil] at hrun
  have hsame := Machine.eq_of_run?_finished hrun
  cases hsame
  rfl

theorem eq_of_quote_startAlike {s t : String}
    (h : StartAlike (quote s).toList (quote t).toList) : s = t := by
  rcases h.isPrefix_or with first | second
  · exact eq_of_quote_begins first
  · exact (eq_of_quote_begins second).symm

theorem length_compactItems : (items : List Json) → (compactItems items).length = items.length
  | [] => rfl
  | _ :: rest => congrArg (· + 1) (length_compactItems rest)

theorem length_compactFields :
    (fields : List (String × Json)) → (compactFields fields).length = fields.length
  | [] => rfl
  | _ :: rest => congrArg (· + 1) (length_compactFields rest)

theorem length_eq_of_sameItems :
    {as bs : List Json} → sameItems as bs = true → as.length = bs.length
  | [], [], _ => rfl
  | a :: as, b :: bs, h => by
    rw [sameItems, Bool.and_eq_true] at h
    exact congrArg (· + 1) (length_eq_of_sameItems h.2)
  | [], _ :: _, h | _ :: _, [], h => by simp [sameItems] at h

theorem sameFields_tail {key : String} {w : Json} {as bs : List (String × Json)}
    (absent : key ∉ as.map Prod.fst) (h : sameFields as ((key, w) :: bs) = true) :
    sameFields as bs = true := by
  refine sameFields_iff.mpr fun k a hm => ?_
  obtain ⟨b, hb, same⟩ := sameFields_iff.mp h k a hm
  have hne : k ≠ key := fun e => absent (e ▸ List.mem_map_of_mem hm)
  rw [List.lookup_cons, beq_false_of_ne hne] at hb
  exact ⟨b, hb, same⟩

mutual

/-- Values that are equal are told apart by their texts, whatever follows. -/
theorem eq_of_compact_startAlike : {v w : Json} → v.Proper → v.sameAs w = true →
    StartAlike v.compact.toList w.compact.toList → v = w
  | .object as, w, proper, same, h => by
    cases w with
    | object bs =>
      rw [sameAs, Bool.and_eq_true, beq_iff_eq] at same
      have size : (compactFields as).length = (compactFields bs).length := by
        rw [length_compactFields, length_compactFields, same.1]
      rw [compact, compact] at h
      rw [fields_eq_of_startAlike proper.1 proper.2 same.1 same.2 (h.listed size)]
    | _ => simp [sameAs] at same
  | .array as, w, proper, same, h => by
    cases w with
    | array bs =>
      rw [sameAs] at same
      have size : (compactItems as).length = (compactItems bs).length := by
        rw [length_compactItems, length_compactItems, length_eq_of_sameItems same]
      rw [compact, compact] at h
      rw [items_eq_of_startAlike proper same (h.listed size)]
    | _ => simp [sameAs] at same
  | .number m, w, _, same, h => by
    cases w with
    | number n => rw [Number.eq_of_startAlike same h]
    | _ => simp [sameAs] at same
  | .null, w, _, same, _ | .bool _, w, _, same, _ | .string _, w, _, same, _ => by
    cases w <;> simp_all [sameAs]

theorem items_eq_of_startAlike : {as bs : List Json} → ProperItems as → sameItems as bs = true →
    StartAlike (listed "," (compactItems as)) (listed "," (compactItems bs)) → as = bs
  | [], [], _, _, _ => rfl
  | v :: as, w :: bs, proper, same, h => by
    rw [sameItems, Bool.and_eq_true] at same
    rw [compactItems, compactItems, listed_cons, listed_cons] at h
    obtain rfl := eq_of_compact_startAlike proper.1 same.1 h.cancel.of_append
    rw [items_eq_of_startAlike proper.2 same.2 h.cancel.cancel]
  | [], _ :: _, _, same, _ | _ :: _, [], _, same, _ => by simp [sameItems] at same

theorem fields_eq_of_startAlike : {as bs : List (String × Json)} → (as.map Prod.fst).Nodup →
    ProperFields as → as.length = bs.length → sameFields as bs = true →
      StartAlike (listed "," (compactFields as)) (listed "," (compactFields bs)) → as = bs
  | [], [], _, _, _, _, _ => rfl
  | (key, v) :: as, (key', w) :: bs, distinct, proper, size, same, h => by
    rw [compactFields, compactFields, listed_cons, listed_cons] at h
    simp only [String.toList_append, List.append_assoc] at h
    obtain rfl := eq_of_quote_startAlike h.cancel.of_append
    replace h := h.cancel.cancel.cancel
    rw [sameFields, List.lookup_cons_self, Bool.and_eq_true] at same
    obtain rfl := eq_of_compact_startAlike proper.1 same.1 h.of_append
    obtain ⟨absent, distinct⟩ := List.nodup_cons.mp distinct
    have hrest := sameFields_tail absent same.2
    rw [fields_eq_of_startAlike distinct proper.2 (Nat.succ.inj size) hrest h.cancel]

end

mutual

/-- The value contains neither a zero among the binary numbers nor an object of several
fields. -/
def Rigid : Json → Prop
  | .number (.binary x) => x.isZero = false
  | .array items => RigidItems items
  | .object fields => fields.length ≤ 1 ∧ RigidFields fields
  | _ => True

def RigidItems : List Json → Prop
  | [] => True
  | item :: rest => item.Rigid ∧ RigidItems rest

def RigidFields : List (String × Json) → Prop
  | [] => True
  | (_, value) :: rest => value.Rigid ∧ RigidFields rest

end

theorem Number.eq_of_rigid {m n : Number} (rigid : Rigid (.number m)) (same : m.sameAs n = true) :
    m = n := by
  obtain rfl | ⟨x, y, rfl, rfl, hx, -⟩ := Number.eq_or_zeros same
  · rfl
  · cases rigid.symm.trans hx

mutual

/-- A rigid value is equal to itself only. -/
theorem Rigid.eq : {v w : Json} → v.Rigid → v.sameAs w = true → v = w
  | .object as, w, rigid, same => by
    cases w with
    | object bs =>
      rw [sameAs, Bool.and_eq_true, beq_iff_eq] at same
      rw [RigidFields.eq rigid.2 rigid.1 same.1 same.2]
    | _ => simp [sameAs] at same
  | .array as, w, rigid, same => by
    cases w with
    | array bs =>
      rw [sameAs] at same
      rw [RigidItems.eq rigid same]
    | _ => simp [sameAs] at same
  | .number m, w, rigid, same => by
    cases w with
    | number n => rw [Number.eq_of_rigid rigid same]
    | _ => simp [sameAs] at same
  | .null, w, _, same | .bool _, w, _, same | .string _, w, _, same => by
    cases w <;> simp_all [sameAs]

theorem RigidItems.eq : {as bs : List Json} → RigidItems as → sameItems as bs = true → as = bs
  | [], [], _, _ => rfl
  | a :: as, b :: bs, rigid, same => by
    rw [sameItems, Bool.and_eq_true] at same
    rw [Rigid.eq rigid.1 same.1, RigidItems.eq rigid.2 same.2]
  | [], _ :: _, _, same | _ :: _, [], _, same => by simp [sameItems] at same

theorem RigidFields.eq : {as bs : List (String × Json)} → RigidFields as → as.length ≤ 1 →
    as.length = bs.length → sameFields as bs = true → as = bs
  | [], [], _, _, _, _ => rfl
  | [(key, a)], [(key', b)], rigid, _, _, same => by
    obtain ⟨c, hc, same⟩ := sameFields_iff.mp same key a List.mem_cons_self
    rw [Rigid.eq rigid.1 same, List.mem_singleton.mp (Entries.mem_of_lookup hc)]

end

theorem eq_of_forall₂_sameAs {vs ws : List Json}
    (same : List.Forall₂ (fun v w => v.sameAs w = true) vs ws) (rigid : ∀ v ∈ vs, v.Rigid) :
    vs = ws := by
  induction same with
  | nil => rfl
  | cons first _ ih =>
    rw [List.forall_mem_cons] at rigid
    rw [rigid.1.eq first, ih rigid.2]

end Json

/-! ### Renderings -/

/-- What stands for a value that is not missing: a string reads its own characters. -/
def Json.plainText : Json → String
  | .string s => s
  | value => value.compact

theorem Json.eq_of_plainText_startAlike {v w : Json} (proper : v.Proper) (same : v.sameAs w = true)
    (h : StartAlike v.plainText.toList w.plainText.toList) : v = w := by
  cases v <;> cases w
  case string.string s t => rw [eq_of_beq same]
  case null.null | bool.bool | number.number | array.array | object.object =>
    exact Json.eq_of_compact_startAlike proper same h
  all_goals simp [sameAs] at same

theorem Json.eq_null_of_isNull {v : Json} (h : v.isNull = true) : v = .null := by
  cases v with
  | null => rfl
  | _ => cases h

theorem Json.isNull_congr {v w : Json} (same : v.sameAs w = true) : v.isNull = w.isNull := by
  cases v <;> cases w <;> first | rfl | simp [sameAs] at same

namespace Operand

theorem render_eq (o : Operand ι) : o.render = if o.value.isNull then "?" else
    (if o.type = .variable then "$" else "") ++ o.value.plainText := by
  have h : o.render = if o.value.isNull then "?" else
      if o.type = .variable then "$" ++ o.value.plainText else o.value.plainText := rfl
  rw [h]
  split
  · rfl
  · split
    · rfl
    · exact String.empty_append.symm

variable {a : Operand ι} {b : Operand κ}

theorem render_congr (same : a.sameAs b = true) (h : a.value = b.value) : a.render = b.render := by
  rw [sameAs, Bool.and_eq_true, beq_iff_eq] at same
  rw [render_eq, render_eq, same.1, h]

theorem sameAs_value (same : a.sameAs b = true) : a.value.sameAs b.value = true := by
  rw [sameAs, Bool.and_eq_true] at same
  exact same.2

theorem value_eq_of_startAlike (proper : a.value.Proper) (same : a.sameAs b = true)
    (h : StartAlike a.render.toList b.render.toList) : a.value = b.value := by
  rw [sameAs, Bool.and_eq_true, beq_iff_eq] at same
  obtain ⟨htype, same⟩ := same
  have hmissing := Json.isNull_congr same
  rw [render_eq, render_eq, htype, hmissing] at h
  by_cases missing : b.value.isNull
  · rw [Json.eq_null_of_isNull (hmissing.trans missing), Json.eq_null_of_isNull missing]
  · rw [if_neg missing, if_neg missing, String.toList_append, String.toList_append] at h
    exact Json.eq_of_plainText_startAlike proper same h.cancel

end Operand

namespace Expression

mutual

/-- The values that a rendering shows. Of a comparison under a unary operator it is the first
operand only. -/
def shown : Expression ι → List Json
  | leaf _ operator first second =>
    match second with
    | some second =>
      if Operator.isUnary operator then [first.value] else [first.value, second.value]
    | none => [first.value]
  | group _ _ children => shownEach children
  | operand o => [o.value]

def shownEach : List (Expression ι) → List Json
  | [] => []
  | e :: rest => e.shown ++ shownEach rest

end

/-- What is equal to a comparison is one under the same operator with as many operands. -/
theorem exists_of_sameAs_leaf {tag : ι} {operator : String} {first : Operand ι}
    {second : Option (Operand ι)} {b : Expression κ}
    (same : (leaf tag operator first second).sameAs b = true) :
    ∃ tag' first' second', b = leaf tag' operator first' second' ∧ first.sameAs first' = true ∧
      Option.Rel (fun o o' => o.sameAs o' = true) second second' := by
  cases b with
  | leaf tag' operator' first' second' =>
    cases second <;> cases second' <;>
      simp only [sameAs, Bool.and_eq_true, Bool.and_false, Bool.false_eq_true, beq_iff_eq] at same
    · obtain ⟨⟨rfl, hfirst⟩, -⟩ := same
      exact ⟨tag', first', none, rfl, hfirst, .none⟩
    · obtain ⟨⟨rfl, hfirst⟩, hsecond⟩ := same
      exact ⟨tag', first', some _, rfl, hfirst, .some hsecond⟩
  | _ => simp [sameAs] at same

theorem exists_of_sameAs_group {tag : ι} {operator : String} {children : List (Expression ι)}
    {b : Expression κ} (same : (group tag operator children).sameAs b = true) :
    ∃ tag' children', b = group tag' operator children' ∧ sameEach children children' = true := by
  cases b with
  | group tag' operator' children' =>
    rw [sameAs, Bool.and_eq_true, beq_iff_eq] at same
    obtain ⟨rfl, hchildren⟩ := same
    exact ⟨tag', children', rfl, hchildren⟩
  | _ => simp [sameAs] at same

theorem exists_of_sameAs_operand {o : Operand ι} {b : Expression κ}
    (same : (operand o).sameAs b = true) : ∃ o', b = operand o' ∧ o.sameAs o' = true := by
  cases b with
  | operand o' => exact ⟨o', rfl, same⟩
  | _ => simp [sameAs] at same

mutual

/-- Equal expressions show equal values. -/
theorem forall₂_shown : (a : Expression ι) → {b : Expression κ} → a.sameAs b = true →
    List.Forall₂ (fun v w => v.sameAs w = true) a.shown b.shown
  | leaf _ operator first second, b, same => by
    obtain ⟨tag', first', second', rfl, hfirst, hsecond⟩ := exists_of_sameAs_leaf same
    cases hsecond with
    | none => exact .cons (Operand.sameAs_value hfirst) .nil
    | some hsecond =>
      rw [shown, shown]
      split
      · exact .cons (Operand.sameAs_value hfirst) .nil
      · exact .cons (Operand.sameAs_value hfirst) (.cons (Operand.sameAs_value hsecond) .nil)
  | group _ _ children, b, same => by
    obtain ⟨tag', children', rfl, hchildren⟩ := exists_of_sameAs_group same
    exact forall₂_shownEach children hchildren
  | operand _, b, same => by
    obtain ⟨o', rfl, hsame⟩ := exists_of_sameAs_operand same
    exact .cons (Operand.sameAs_value hsame) .nil

theorem forall₂_shownEach : (as : List (Expression ι)) → {bs : List (Expression κ)} →
    sameEach as bs = true →
      List.Forall₂ (fun v w => v.sameAs w = true) (shownEach as) (shownEach bs)
  | [], [], _ => .nil
  | a :: as, b :: bs, same => by
    rw [sameEach, Bool.and_eq_true] at same
    exact List.rel_append (forall₂_shown a same.1) (forall₂_shownEach as same.2)
  | [], _ :: _, same | _ :: _, [], same => by simp [sameEach] at same

end

mutual

/-- Equal expressions that show the same values read the same. -/
theorem render_congr : (a : Expression ι) → {b : Expression κ} → a.sameAs b = true →
    a.shown = b.shown → a.render = b.render
  | leaf _ operator first second, b, same, h => by
    obtain ⟨tag', first', second', rfl, hfirst, hsecond⟩ := exists_of_sameAs_leaf same
    cases hsecond with
    | none => rw [render, render, first.render_congr hfirst (List.cons.inj h).1]
    | @some second second' hsecond =>
      rw [shown, shown] at h
      rw [render, render]
      split
      · rename_i unary
        rw [if_pos unary, if_pos unary] at h
        rw [first.render_congr hfirst (List.cons.inj h).1]
      · rename_i binary
        rw [if_neg binary, if_neg binary] at h
        obtain ⟨hvalue, hrest⟩ := List.cons.inj h
        rw [first.render_congr hfirst hvalue, second.render_congr hsecond (List.cons.inj hrest).1]
  | group _ operator children, b, same, h => by
    obtain ⟨tag', children', rfl, hchildren⟩ := exists_of_sameAs_group same
    rw [render, render, renderEach_congr children hchildren h]
  | operand o, b, same, h => by
    obtain ⟨o', rfl, hsame⟩ := exists_of_sameAs_operand same
    exact o.render_congr hsame (List.cons.inj h).1

theorem renderEach_congr : (as : List (Expression ι)) → {bs : List (Expression κ)} →
    sameEach as bs = true → shownEach as = shownEach bs → renderEach as = renderEach bs
  | [], [], _, _ => rfl
  | a :: as, b :: bs, same, h => by
    rw [sameEach, Bool.and_eq_true] at same
    rw [shownEach, shownEach] at h
    obtain ⟨hfirst, hrest⟩ := List.append_inj h (forall₂_shown a same.1).length_eq
    rw [renderEach, renderEach, render_congr a same.1 hfirst, renderEach_congr as same.2 hrest]
  | [], _ :: _, same, _ | _ :: _, [], same, _ => by simp [sameEach] at same

end

theorem length_renderEach (list : List (Expression ι)) :
    (renderEach list).length = list.length := by
  induction list with
  | nil => rfl
  | cons _ _ ih => exact congrArg (· + 1) ih

theorem length_eq_of_sameEach : {as : List (Expression ι)} → {bs : List (Expression κ)} →
    sameEach as bs = true → as.length = bs.length
  | [], [], _ => rfl
  | a :: as, b :: bs, same => by
    rw [sameEach, Bool.and_eq_true] at same
    exact congrArg (· + 1) (length_eq_of_sameEach same.2)
  | [], _ :: _, same | _ :: _, [], same => by simp [sameEach] at same

theorem length_renderEach_congr {as : List (Expression ι)} {bs : List (Expression κ)}
    (same : sameEach as bs = true) : (renderEach as).length = (renderEach bs).length := by
  rw [length_renderEach, length_renderEach, length_eq_of_sameEach same]

mutual

/-- The texts of equal expressions start alike only if they show the same values. -/
theorem shown_eq_of_startAlike : (a : Expression ι) → {b : Expression κ} →
    (∀ v ∈ a.shown, v.Proper) → a.sameAs b = true →
      StartAlike a.render.toList b.render.toList → a.shown = b.shown
  | leaf _ operator first second, b, proper, same, h => by
    obtain ⟨tag', first', second', rfl, hfirst, hsecond⟩ := exists_of_sameAs_leaf same
    cases hsecond with
    | none =>
      rw [render, render, String.toList_append, String.toList_append] at h
      have hvalue := first.value_eq_of_startAlike (proper _ List.mem_cons_self) hfirst h.cancel
      rw [shown, shown, hvalue]
    | @some second second' hsecond =>
      rw [shown] at proper
      rw [render, render] at h
      rw [shown, shown]
      split
      · rename_i unary
        rw [if_pos unary] at proper
        rw [if_pos unary, if_pos unary, String.toList_append, String.toList_append] at h
        rw [first.value_eq_of_startAlike (proper _ List.mem_cons_self) hfirst h.cancel]
      · rename_i binary
        rw [if_neg binary] at proper
        rw [if_neg binary, if_neg binary] at h
        simp only [String.toList_append, List.append_assoc] at h
        have hvalue := first.value_eq_of_startAlike (proper _ List.mem_cons_self) hfirst h.of_append
        rw [first.render_congr hfirst hvalue] at h
        have hproper := proper _ (List.mem_cons_of_mem _ List.mem_cons_self)
        rw [hvalue, second.value_eq_of_startAlike hproper hsecond h.cancel.cancel.cancel.cancel]
  | group _ operator children, b, proper, same, h => by
    obtain ⟨tag', children', rfl, hchildren⟩ := exists_of_sameAs_group same
    have size := length_renderEach_congr hchildren
    rw [render, render] at h
    split at h
    · exact shownEach_eq_of_startAlike children proper hchildren (h.listed size)
    · exact shownEach_eq_of_startAlike children proper hchildren (h.listed size)
  | operand o, b, proper, same, h => by
    obtain ⟨o', rfl, hsame⟩ := exists_of_sameAs_operand same
    have hvalue := o.value_eq_of_startAlike (proper _ List.mem_cons_self) hsame h
    rw [shown, shown, hvalue]

theorem shownEach_eq_of_startAlike {separator : String} : (as : List (Expression ι)) →
    {bs : List (Expression κ)} → (∀ v ∈ shownEach as, v.Proper) → sameEach as bs = true →
      StartAlike (listed separator (renderEach as)) (listed separator (renderEach bs)) →
        shownEach as = shownEach bs
  | [], [], _, _, _ => rfl
  | a :: as, b :: bs, proper, same, h => by
    rw [shownEach, List.forall_mem_append] at proper
    rw [sameEach, Bool.and_eq_true] at same
    rw [renderEach, renderEach, listed_cons, listed_cons] at h
    replace h := h.cancel
    have hfirst := shown_eq_of_startAlike a proper.1 same.1 h.of_append
    rw [render_congr a same.1 hfirst] at h
    rw [shownEach, shownEach, hfirst, shownEach_eq_of_startAlike as proper.2 same.2 h.cancel]
  | [], _ :: _, _, same, _ | _ :: _, [], _, same, _ => by simp [sameEach] at same

end

end Expression

open Expression in
theorem StartAlike.of_render_eq {as : ExpressionList ι} {bs : ExpressionList κ}
    (same : sameEach as bs = true) (h : as.render = bs.render) :
    StartAlike (BlockScript.listed ", " (renderEach as))
      (BlockScript.listed ", " (renderEach bs)) := by
  have hbare : "" ++ as.render ++ "" = "" ++ bs.render ++ "" := by rw [h]
  exact (StartAlike.of_eq (congrArg String.toList hbare)).listed (length_renderEach_congr same)

namespace Expression

/-- Two numbers, and two objects, that are equal but read differently: zeros have a sign and fields
an order. -/
theorem render_of_sameAs_distinct :
    let zero (negative : Bool) : Expression Unit :=
      .operand ⟨(), .number, .number (.binary (.zero negative))⟩
    let field (key : String) : String × Json := (key, .bool true)
    let object (fields : List (String × Json)) : Expression Unit :=
      .operand ⟨(), .unknown, .object fields⟩
    (zero false).sameAs (zero true) = true ∧
      (zero false).render = "0.0" ∧ (zero true).render = "-0.0" ∧
      (object [field "on", field "lit"]).sameAs (object [field "lit", field "on"]) = true ∧
      (object [field "on", field "lit"]).render = "\x7b\"on\":true,\"lit\":true\x7d" ∧
      (object [field "lit", field "on"]).render = "\x7b\"lit\":true,\"on\":true\x7d" ∧
      sameEach [zero false] [zero true] = true ∧
      ExpressionList.render [zero false] ≠ ExpressionList.render [zero true] := by
  decide

/-- Equal expressions need not read the same. They do exactly if the values that they show are
written alike, with fields in the same order and zeros with the same sign; so they do if no shown
value contains a zero among the binary numbers or an object of several fields. The same holds of
lists. -/
theorem render_eq_iff :
    (∀ (a : Expression ι) (b : Expression κ), a.sameAs b = true →
      ((∀ v ∈ a.shown, v.Proper) → (a.render = b.render ↔ a.shown = b.shown)) ∧
      ((∀ v ∈ a.shown, v.Rigid) → a.render = b.render)) ∧
    ∀ (as : ExpressionList ι) (bs : ExpressionList κ), sameEach as bs = true →
      ((∀ v ∈ shownEach as, v.Proper) → (as.render = bs.render ↔ shownEach as = shownEach bs)) ∧
      ((∀ v ∈ shownEach as, v.Rigid) → as.render = bs.render) := by
  constructor
  · intro a b same
    refine ⟨fun proper => ⟨fun h => ?_, a.render_congr same⟩, fun rigid => ?_⟩
    · exact a.shown_eq_of_startAlike proper same (.of_eq (congrArg String.toList h))
    · exact a.render_congr same (Json.eq_of_forall₂_sameAs (a.forall₂_shown same) rigid)
  · intro as bs same
    have hlist (h : shownEach as = shownEach bs) : as.render = bs.render := by
      rw [ExpressionList.render, ExpressionList.render, renderEach_congr as same h]
    refine ⟨fun proper => ⟨fun h => ?_, hlist⟩, fun rigid => ?_⟩
    · exact shownEach_eq_of_startAlike as proper same (.of_render_eq same h)
    · exact hlist (Json.eq_of_forall₂_sameAs (forall₂_shownEach as same) rigid)

/-- A level below zero, which is written with a sign or without, beside an open door. -/
theorem render_eq_iff_signed :
    let level : Operand Unit := ⟨(), .variable, .string "hall.level"⟩
    let door : Expression Unit := .operand ⟨(), .variable, .string "door.open"⟩
    let below (negative : Bool) : Expression Unit :=
      .leaf () "<" level (some ⟨(), .number, .number (.binary (.zero negative))⟩)
    let both (negative : Bool) : Expression Unit := .group () "&&" [door, below negative]
    (both false).sameAs (both true) = true ∧ (∀ v ∈ (both false).shown, v.Proper) ∧
      (both false).render ≠ (both true).render ∧
      sameEach [both false] [both true] = true ∧
      (∀ v ∈ shownEach [both false], v.Proper) ∧
      ExpressionList.render [both false] ≠ ExpressionList.render [both true] ∧
      door.sameAs (door.stamp 7) = true ∧ (∀ v ∈ door.shown, v.Rigid) ∧
      door.render = (door.stamp 7).render ∧
      sameEach [door] [door.stamp 7] = true ∧ (∀ v ∈ shownEach [door], v.Rigid) ∧
      ExpressionList.render [door] = ExpressionList.render [door.stamp 7] := by
  intro level door below both
  have same : (both false).sameAs (both true) = true := by decide
  have proper : ∀ v ∈ (both false).shown, v.Proper := by
    simp [both, door, below, level, shown, shownEach, Operator.isUnary, Json.Proper]
  have differ : (both false).shown ≠ (both true).shown := by
    simp [both, door, below, level, shown, shownEach, Operator.isUnary, Binary64.zero]
  have sameList : sameEach [both false] [both true] = true := by decide
  have hlist (negative : Bool) : shownEach [both negative] = (both negative).shown :=
    List.append_nil _
  have properList : ∀ v ∈ shownEach [both false], v.Proper := by rwa [hlist]
  have sameDoor : door.sameAs (door.stamp 7) = true := by decide
  have rigid : ∀ v ∈ door.shown, v.Rigid := by
    simp [door, shown, Json.Rigid]
  have sameDoors : sameEach [door] [door.stamp 7] = true := by decide
  refine ⟨same, proper, fun h => differ ?_, sameList, properList, fun h => differ ?_,
    sameDoor, rigid, (render_eq_iff.1 door (door.stamp 7) sameDoor).2 rigid,
    sameDoors, rigid, (render_eq_iff.2 [door] [door.stamp 7] sameDoors).2 rigid⟩
  · exact ((render_eq_iff.1 (both false) (both true) same).1 proper).mp h
  · have hsame := ((render_eq_iff.2 [both false] [both true] sameList).1 properList).mp h
    rwa [hlist, hlist] at hsame

end Expression

end BlockScript
