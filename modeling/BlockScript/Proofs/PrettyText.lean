import BlockScript.Json.Printer
import BlockScript.Proofs.Reading

/-! Printed values are read back. The machine that reads a text takes the text of a value to the
point where the value has been delivered, if the containers that are open and those of the value
are not too many together; else it stops at the first container too many. -/

namespace BlockScript.Json

/-! ### Characters of printed values -/

theorem toList_intercalate (separator first : String) (rest : List String) :
    (separator.intercalate (first :: rest)).toList =
      first.toList ++ rest.flatMap fun s => separator.toList ++ s.toList := by
  induction rest generalizing first with
  | nil => exact (List.append_nil _).symm
  | cons next rest ih =>
    have hmerge : separator.intercalate (first :: next :: rest) =
        separator.intercalate ((first ++ separator ++ next) :: rest) := rfl
    rw [hmerge, ih, List.flatMap_cons]
    simp

/-- The characters of a new line. -/
def lineChars (level : Nat) : List Char := '\n' :: List.replicate (2 * level) ' '

/-- The lines after the first one of a container, and its end. -/
def tailChars (level : Nat) (closing : Char) (lines : List String) : List Char :=
  (lines.flatMap fun line => ',' :: (lineChars (level + 1) ++ line.toList)) ++
    (lineChars level ++ [closing])

theorem toList_newline (level : Nat) : (newline level).toList = lineChars level := by
  simp [newline, lineChars]

theorem toList_bracket_cons (level : Nat) (opening closing : Char) (line : String)
    (lines : List String) :
    (bracket level (String.singleton opening) (String.singleton closing) (line :: lines)).toList =
      opening :: (lineChars (level + 1) ++ (line.toList ++ tailChars level closing lines)) := by
  simp only [bracket, tailChars, String.toList_append, toList_intercalate, toList_newline]
  simp

theorem toList_quote (s : String) :
    (quote s).toList = '"' :: (s.toList.flatMap escape ++ ['"']) := by
  simp [quote]

/-! ### Runs of the machine -/

namespace Machine

variable {stack : List Frame} {m : Machine} {chars rest : List Char}

/-- The machine after some characters. -/
def run? (m : Machine) (chars : List Char) : Option Machine := chars.foldlM step? m

@[simp] theorem run?_nil (m : Machine) : m.run? [] = some m := rfl

theorem run?_cons (m : Machine) (c : Char) (rest : List Char) :
    m.run? (c :: rest) = (m.step? c).bind fun next => next.run? rest :=
  List.foldlM_cons

theorem run?_cons_of_step {next : Machine} {c : Char} (h : m.step? c = some next) :
    m.run? (c :: rest) = next.run? rest := by
  rw [run?_cons, h]
  rfl

theorem run?_cons_of_stuck {c : Char} (h : m.step? c = none) : m.run? (c :: rest) = none := by
  rw [run?_cons, h]
  rfl

theorem run?_append (m : Machine) (chars rest : List Char) :
    m.run? (chars ++ rest) = (m.run? chars).bind fun next => next.run? rest :=
  List.foldlM_append

theorem run?_append_of_run {next : Machine} (h : m.run? chars = some next) :
    m.run? (chars ++ rest) = next.run? rest := by
  rw [run?_append, h]
  rfl

/-- A machine that passes over blanks passes over a new line. -/
theorem run?_lineChars (waits : ∀ c, isBlank c = true → m.step? c = some m) (level : Nat)
    (rest : List Char) : m.run? (lineChars level ++ rest) = m.run? rest := by
  have hblanks : ∀ n, m.run? (List.replicate n ' ') = some m := by
    intro n
    induction n with
    | zero => rfl
    | succ n ih =>
      rw [List.replicate_succ, run?_cons_of_step (waits ' ' rfl)]
      exact ih
  rw [lineChars, List.cons_append, run?_cons_of_step (waits '\n' rfl)]
  exact run?_append_of_run (hblanks _)

theorem step?_value_blank (opened : Bool) {c : Char} (h : isBlank c = true) :
    (⟨stack, .value opened⟩ : Machine).step? c = some ⟨stack, .value opened⟩ := by
  simp [step?, h]

theorem step?_key_blank (opened : Bool) {c : Char} (h : isBlank c = true) :
    (⟨stack, .key opened⟩ : Machine).step? c = some ⟨stack, .key opened⟩ := by
  simp [step?, h]

theorem step?_separator_blank {c : Char} (h : isBlank c = true) :
    (⟨stack, .separator⟩ : Machine).step? c = some ⟨stack, .separator⟩ := by
  simp [step?, h]

/-! ### Strings -/

theorem hexCode?_control {n : Nat} (h : n < 32) :
    hexCode? ['0', '0', Nat.digitChar (n / 16), Nat.digitChar (n % 16)] = some n := by
  revert n
  decide

theorem takeCode?_control (chars : List Char) {n : Nat} (h : n < 32) :
    takeCode? none chars n = some (Char.ofNat n :: chars, .none) := by
  have hlow : isLowSurrogate n = false := by
    rw [isLowSurrogate, Bool.and_eq_false_iff]
    exact .inl (decide_eq_false (by omega))
  have hhigh : isHighSurrogate n = false := by
    rw [isHighSurrogate, Bool.and_eq_false_iff]
    exact .inl (decide_eq_false (by omega))
  simp [takeCode?, hlow, hhigh]

theorem utf8Size_digitChar {n : Nat} (h : n < 16) : (Nat.digitChar n).utf8Size = 1 := by
  revert n
  decide

theorem step?_text {isKey : Bool} {chars chars' : List Char} {c : Char} {escape escape' : Escape}
    (h : takeText? chars c escape = some (chars', escape'))
    (inside : escape = .none → c ≠ '"') :
    (⟨stack, .text isKey chars escape⟩ : Machine).step? c =
      some ⟨stack, .text isKey chars' escape'⟩ := by
  cases escape with
  | none => simp [step?, inside rfl, h]
  | _ => simp [step?, h]

/-- A control character is written with its code. -/
theorem run?_control (isKey : Bool) (chars : List Char) {c : Char} (h : c.toNat < 32) :
    (⟨stack, .text isKey chars .none⟩ : Machine).run?
        ['\\', 'u', '0', '0', Nat.digitChar (c.toNat / 16), Nat.digitChar (c.toNat % 16)] =
      some ⟨stack, .text isKey (c :: chars) .none⟩ := by
  have hthird : takeText? chars (Nat.digitChar (c.toNat / 16)) (.code none ['0', '0']) =
      some (chars, .code none [Nat.digitChar (c.toNat / 16), '0', '0']) := by
    have hsize := utf8Size_digitChar (n := c.toNat / 16) (by omega)
    have hzero : '0'.utf8Size = 1 := rfl
    simp [takeText?, hsize, hzero]
  have hfourth : takeText? chars (Nat.digitChar (c.toNat % 16))
      (.code none [Nat.digitChar (c.toNat / 16), '0', '0']) = some (c :: chars, .none) := by
    have hsize := utf8Size_digitChar (n := c.toNat / 16) (by omega)
    have hsize' := utf8Size_digitChar (n := c.toNat % 16) (by omega)
    have hzero : '0'.utf8Size = 1 := rfl
    have hcode := hexCode?_control h
    have hchar := takeCode?_control chars h
    rw [Char.ofNat_toNat] at hchar
    simp [takeText?, hsize, hsize', hzero, hcode, hchar]
  have hfirst : (⟨stack, .text isKey chars .none⟩ : Machine).run? ['\\', 'u', '0', '0'] =
      some ⟨stack, .text isKey chars (.code none ['0', '0'])⟩ := rfl
  show (⟨stack, .text isKey chars .none⟩ : Machine).run? (['\\', 'u', '0', '0'] ++
    [Nat.digitChar (c.toNat / 16), Nat.digitChar (c.toNat % 16)]) = _
  rw [run?_append_of_run hfirst, run?_cons_of_step (step?_text hthird fun h => by cases h),
    run?_cons_of_step (step?_text hfourth fun h => by cases h), run?_nil]

theorem run?_escape (isKey : Bool) (chars : List Char) (c : Char) :
    (⟨stack, .text isKey chars .none⟩ : Machine).run? (escape c) =
      some ⟨stack, .text isKey (c :: chars) .none⟩ := by
  unfold escape
  split
  · rename_i same
    subst same
    rfl
  rename_i hquote
  split
  · rename_i same
    subst same
    rfl
  rename_i hbackslash
  iterate 5
    split
    · rename_i same
      subst same
      rfl
  split
  · rename_i hcontrol
    exact run?_control isKey chars hcontrol
  · rename_i hplain
    have htake : takeText? chars c .none = some (c :: chars, .none) := by
      simp [takeText?, hbackslash, hplain]
    rw [run?_cons_of_step (step?_text htake fun _ => hquote), run?_nil]

theorem run?_escapes (isKey : Bool) (chars string : List Char) :
    (⟨stack, .text isKey chars .none⟩ : Machine).run? (string.flatMap escape) =
      some ⟨stack, .text isKey (string.reverse ++ chars) .none⟩ := by
  induction string generalizing chars with
  | nil => rfl
  | cons c rest ih =>
    rw [List.flatMap_cons, run?_append_of_run (run?_escape isKey chars c), ih]
    simp

/-- After its first quote, a string is read to its last. -/
theorem run?_text (isKey : Bool) (s : String) (rest : List Char) :
    (⟨stack, .text isKey [] .none⟩ : Machine).run? (s.toList.flatMap escape ++ '"' :: rest) =
      (endText isKey s stack).run? rest := by
  rw [run?_append_of_run (run?_escapes isKey [] s.toList), List.append_nil]
  apply run?_cons_of_step
  simp [step?, String.ofList_toList]

/-! ### Words and numbers -/

theorem step?_begin (stack : List Frame) (opened : Bool) {c : Char} (visible : isBlank c = false)
    (opens : c ≠ ']') :
    (⟨stack, .value opened⟩ : Machine).step? c = beginValue? stack c := by
  simp only [step?, visible]
  rw [if_neg Bool.false_ne_true]
  split
  · exact absurd rfl opens
  · rfl

theorem run?_word (opened : Bool) {c : Char} {word : List Char} {value : Json}
    (visible : isBlank c = false) (opens : c ≠ ']')
    (begins : beginValue? stack c = some ⟨stack, .word word value⟩)
    (ends : (⟨stack, .word word value⟩ : Machine).run? word = some (deliver value stack)) :
    (⟨stack, .value opened⟩ : Machine).run? (c :: word ++ rest) =
      (deliver value stack).run? rest := by
  rw [List.cons_append, run?_cons_of_step ((step?_begin stack opened visible opens).trans begins),
    run?_append_of_run ends]

end Machine

/-- The numeral that the characters spell. -/
def Numeral.ofChars? : List Char → Option Numeral
  | [] => none
  | c :: rest => do rest.foldlM extend? (← start? c)

/-- The text of the number is a numeral that stands for it. -/
def Number.ReadBack (n : Number) : Prop :=
  ∃ numeral, Numeral.ofChars? n.text.toList = some numeral ∧ numeral.complete = true ∧
    numeral.value? = some n

instance (n : Number) : Decidable n.ReadBack :=
  decidable_of_iff (∃ numeral ∈ Numeral.ofChars? n.text.toList,
    numeral.complete = true ∧ numeral.value? = some n) Iff.rfl

namespace Machine

variable {stack : List Frame} {m : Machine} {chars rest : List Char}

theorem beginValue?_numeral {c : Char} {n : Numeral} (h : Numeral.start? c = some n) :
    beginValue? stack c = some ⟨stack, .numeral n⟩ := by
  unfold beginValue?
  split
  case h_7 => rw [h, Option.map_some]
  all_goals simp [Numeral.start?, Numeral.digit?] at h

theorem visible_of_start? {c : Char} {n : Numeral} (h : Numeral.start? c = some n) :
    isBlank c = false ∧ c ≠ ']' := by
  constructor
  · rw [Bool.eq_false_iff]
    intro blank
    simp only [isBlank, Bool.or_eq_true, beq_iff_eq] at blank
    rcases blank with ((same | same) | same) | same <;>
      simp [same, Numeral.start?, Numeral.digit?] at h
  · intro same
    simp [same, Numeral.start?, Numeral.digit?] at h

theorem run?_numeral {first last : Numeral} (h : chars.foldlM Numeral.extend? first = some last) :
    (⟨stack, .numeral first⟩ : Machine).run? chars = some ⟨stack, .numeral last⟩ := by
  induction chars generalizing first with
  | nil =>
    obtain rfl := Option.some.inj h
    rfl
  | cons c rest ih =>
    rw [List.foldlM_cons] at h
    obtain ⟨next, hnext, h⟩ := Option.bind_eq_some_iff.mp h
    have hstep : (⟨stack, .numeral first⟩ : Machine).step? c = some ⟨stack, .numeral next⟩ := by
      simp [step?, hnext]
    rw [run?_cons_of_step hstep, ih h]

/-- A number is read up to its last character, and delivered with the next one. -/
theorem run?_number (stack : List Frame) (opened : Bool) {n : Number} (h : n.ReadBack) :
    ∃ numeral : Numeral, numeral.complete = true ∧ numeral.value? = some n ∧
      (⟨stack, .value opened⟩ : Machine).run? n.text.toList = some ⟨stack, .numeral numeral⟩ := by
  obtain ⟨last, hlast, hcomplete, hvalue⟩ := h
  refine ⟨last, hcomplete, hvalue, ?_⟩
  cases htext : n.text.toList with
  | nil =>
    rw [htext] at hlast
    cases hlast
  | cons c rest =>
    rw [htext] at hlast
    obtain ⟨first, hfirst, hrest⟩ := Option.bind_eq_some_iff.mp hlast
    obtain ⟨visible, opens⟩ := visible_of_start? hfirst
    have hstep := (step?_begin stack opened visible opens).trans (beginValue?_numeral hfirst)
    rw [run?_cons_of_step hstep, run?_numeral hrest]

/-- What follows a value in a container. -/
def Continues (rest : List Char) : Prop := ∃ c more, rest = c :: more ∧ (c = ',' ∨ c = '\n')

theorem extend?_of_continues (n : Numeral) {c : Char} (hc : c = ',' ∨ c = '\n') :
    n.extend? c = none := by
  obtain ⟨phase, _, _, _, _, _⟩ := n
  rcases hc with rfl | rfl <;> cases phase <;> rfl

/-- A number is delivered with the character that ends it, and the character is read again. -/
theorem step?_numeral_end {numeral : Numeral} {n : Number} (complete : numeral.complete = true)
    (value : numeral.value? = some n) {c : Char} (h : numeral.extend? c = none) :
    (⟨stack, .numeral numeral⟩ : Machine).step? c =
      if isBlank c then some (deliver (.number n) stack)
      else afterValue? (deliver (.number n) stack).stack c := by
  have hguard : (guard (numeral.complete = true) : Option Unit) = some () := if_pos complete
  unfold step?
  dsimp only
  rw [h]
  dsimp only
  rw [hguard, value]
  rfl

theorem run?_numeral_end {numeral : Numeral} {n : Number} (complete : numeral.complete = true)
    (value : numeral.value? = some n) (inside : stack ≠ []) (h : Continues rest) :
    (⟨stack, .numeral numeral⟩ : Machine).run? rest = (deliver (.number n) stack).run? rest := by
  obtain ⟨c, more, rfl, hc⟩ := h
  rw [run?_cons, run?_cons, step?_numeral_end complete value (extend?_of_continues numeral hc)]
  congr 1
  cases stack with
  | nil => exact absurd rfl inside
  | cons frame below =>
    cases frame <;> rcases hc with rfl | rfl <;> rfl

end Machine

/-! ### Integers -/

/-- Integers of 64 bits, signed below zero and unsigned above. -/
def FitsWord (z : Int) : Prop := -((1 <<< 63 : Nat) : Int) ≤ z ∧ z < ((1 <<< 64 : Nat) : Int)

instance (z : Int) : Decidable (FitsWord z) := inferInstanceAs (Decidable (_ ∧ _))

namespace Numeral

theorem digit?_digitChar {d : Nat} (h : d < 10) : digit? (Nat.digitChar d) = some d := by
  revert d
  decide

theorem extend?_whole (n : Numeral) (whole : n.phase = .whole) {d : Nat} (h : d < 10) :
    n.extend? (Nat.digitChar d) = some { n with whole := d :: n.whole } := by
  rw [extend?, digit?_digitChar h, whole]

theorem ofDigits_append (digits : List Nat) (d : Nat) :
    ofDigits (digits ++ [d]) = ofDigits digits * 10 + d := by
  rw [ofDigits, List.foldl_append]
  rfl

/-- The digits of a positive number: the first is not zero, and they spell the number. -/
theorem spells_toDigits (n : Nat) (positive : 0 < n) :
    ∃ d rest digits, d < 10 ∧ 0 < d ∧ Nat.toDigits 10 n = Nat.digitChar d :: rest ∧
      ofDigits digits.reverse = n ∧ ∀ negative,
        rest.foldlM extend? { phase := .whole, negative, whole := [d] } =
          some { phase := .whole, negative, whole := digits } := by
  induction n using Nat.strongRecOn with
  | ind n ih =>
    by_cases small : n < 10
    · exact ⟨n, [], [n], small, positive, Nat.toDigits_of_lt_base small, by simp [ofDigits],
        fun _ => rfl⟩
    · obtain ⟨d, rest, digits, hd, hpos, htext, hvalue, hspell⟩ := ih (n / 10) (by omega) (by omega)
      have hlast : n % 10 < 10 := Nat.mod_lt n (by decide)
      have hsplit := Nat.toDigits_append_toDigits (b := 10) (n := n / 10) (d := n % 10) (by decide)
        (by omega) hlast
      rw [Nat.div_add_mod, htext, Nat.toDigits_of_lt_base hlast, List.cons_append] at hsplit
      refine ⟨d, rest ++ [Nat.digitChar (n % 10)], n % 10 :: digits, hd, hpos, hsplit.symm, ?_, ?_⟩
      · rw [List.reverse_cons, ofDigits_append, hvalue]
        omega
      · intro negative
        rw [List.foldlM_append, hspell]
        have hnext := extend?_whole { phase := .whole, negative, whole := digits } rfl hlast
        show [Nat.digitChar (n % 10)].foldlM extend? _ = _
        rw [List.foldlM_cons, hnext]
        rfl

theorem start?_digitChar {d : Nat} (h : d < 10) (positive : 0 < d) :
    start? (Nat.digitChar d) = some { phase := .whole, whole := [d] } := by
  have hsign : Nat.digitChar d ≠ '-' := by
    revert d
    decide
  rw [start?, if_neg hsign, digit?_digitChar h, Option.map_some, if_neg (by omega)]

end Numeral

theorem readBack_integer {z : Int} (h : FitsWord z) : (Number.integer z).ReadBack := by
  obtain ⟨least, greatest⟩ := h
  cases z with
  | ofNat n =>
    have htext : (Number.integer (.ofNat n)).text.toList = Nat.toDigits 10 n := by
      simp [Number.text]
    rw [Number.ReadBack, htext]
    by_cases zero : n = 0
    · subst zero
      exact ⟨_, rfl, rfl, rfl⟩
    · obtain ⟨d, rest, digits, hd, hpos, hdigits, hvalue, hspell⟩ :=
        Numeral.spells_toDigits n (by omega)
      refine ⟨{ phase := .whole, whole := digits }, ?_, rfl, ?_⟩
      · rw [hdigits, Numeral.ofChars?, Numeral.start?_digitChar hd hpos]
        exact hspell false
      · have hbound : n < 1 <<< 64 := Int.ofNat_lt.mp greatest
        rw [Numeral.value?, hvalue, if_pos ⟨.inr rfl, rfl, hbound⟩]
        rfl
  | negSucc n =>
    obtain ⟨d, rest, digits, hd, hpos, hdigits, hvalue, hspell⟩ :=
      Numeral.spells_toDigits (n + 1) (by omega)
    have htext : (Number.integer (.negSucc n)).text.toList = '-' :: Nat.toDigits 10 (n + 1) := by
      simp [Number.text]
    rw [Number.ReadBack, htext, hdigits]
    refine ⟨{ phase := .whole, negative := true, whole := digits }, ?_, rfl, ?_⟩
    · have hsecond : Numeral.extend? { phase := .sign, negative := true } (Nat.digitChar d) =
          some { phase := .whole, negative := true, whole := [d] } := by
        rw [Numeral.extend?, Numeral.digit?_digitChar hd]
        simp only [if_neg (show d ≠ 0 by omega)]
      show (Nat.digitChar d :: rest).foldlM Numeral.extend? { phase := .sign, negative := true } = _
      rw [List.foldlM_cons, hsecond]
      exact hspell true
    · have hbound : n + 1 ≤ 1 <<< 63 := by
        rw [Int.negSucc_eq] at least
        omega
      rw [Numeral.value?, hvalue, if_neg fun h => Bool.noConfusion h.2.1,
        if_pos ⟨.inr rfl, rfl, Nat.succ_pos n, hbound⟩]
      rfl

/-! ### Values -/

namespace Number

/-- Integers of 64 bits are legible, and all other numbers that are read back. -/
def Legible : Number → Prop
  | .integer z => FitsWord z
  | .binary x => (binary x).ReadBack

instance : (n : Number) → Decidable n.Legible
  | .integer z => inferInstanceAs (Decidable (FitsWord z))
  | .binary x => inferInstanceAs (Decidable (binary x).ReadBack)

theorem Legible.readBack : {n : Number} → n.Legible → n.ReadBack
  | .integer _, h => readBack_integer h
  | .binary _, h => h

end Number

mutual

/-- All numbers are legible. -/
def Legible : Json → Prop
  | .number n => n.Legible
  | .array items => LegibleItems items
  | .object fields => LegibleFields fields
  | _ => True

def LegibleItems : List Json → Prop
  | [] => True
  | item :: rest => item.Legible ∧ LegibleItems rest

def LegibleFields : List (String × Json) → Prop
  | [] => True
  | (_, value) :: rest => value.Legible ∧ LegibleFields rest

end

mutual

def decideLegible : (v : Json) → Decidable v.Legible
  | .number n => inferInstanceAs (Decidable n.Legible)
  | .array items => decideLegibleItems items
  | .object fields => decideLegibleFields fields
  | .null | .bool _ | .string _ => .isTrue trivial

def decideLegibleItems : (items : List Json) → Decidable (LegibleItems items)
  | [] => .isTrue trivial
  | item :: rest => @instDecidableAnd _ _ (decideLegible item) (decideLegibleItems rest)

def decideLegibleFields : (fields : List (String × Json)) → Decidable (LegibleFields fields)
  | [] => .isTrue trivial
  | (_, value) :: rest => @instDecidableAnd _ _ (decideLegible value) (decideLegibleFields rest)

end

instance (v : Json) : Decidable v.Legible := v.decideLegible

namespace Machine

variable {stack : List Frame} {rest : List Char}

theorem tailChars_cons (level : Nat) (closing : Char) (line : String) (lines : List String) :
    tailChars level closing (line :: lines) =
      ',' :: (lineChars (level + 1) ++ (line.toList ++ tailChars level closing lines)) := by
  simp [tailChars]

theorem continues_tailChars (level : Nat) (closing : Char) (lines : List String)
    (rest : List Char) : Continues (tailChars level closing lines ++ rest) := by
  cases lines with
  | nil => exact ⟨'\n', _, rfl, .inr rfl⟩
  | cons line lines => exact ⟨',', _, by rw [tailChars_cons, List.cons_append], .inl rfl⟩

/-- The last line of a container is its closing bracket. -/
theorem run?_tailChars_nil (level : Nat) {closing : Char} {next : Machine}
    (closes : (⟨stack, .separator⟩ : Machine).step? closing = some next) :
    (⟨stack, .separator⟩ : Machine).run? (tailChars level closing [] ++ rest) = next.run? rest := by
  have hsplit : tailChars level closing [] ++ rest = lineChars level ++ (closing :: rest) := by
    simp [tailChars]
  rw [hsplit, run?_lineChars fun _ => step?_separator_blank, run?_cons_of_step closes]

/-- The first character of a container opens it, if there is room. -/
theorem run?_open (stack : List Frame) (opened : Bool) (c : Char) {frame : Frame} {mode : Mode}
    (visible : isBlank c = false) (opens : c ≠ ']')
    (begins : beginValue? stack c = push? frame mode stack) (rest : List Char) :
    (⟨stack, .value opened⟩ : Machine).run? (c :: rest) =
      if stack.length < maxNesting then (⟨frame :: stack, mode⟩ : Machine).run? rest else none := by
  have hstep := (step?_begin stack opened visible opens).trans begins
  rw [push?] at hstep
  split
  · rename_i room
    rw [if_pos room] at hstep
    exact run?_cons_of_step hstep
  · rename_i full
    rw [if_neg full] at hstep
    exact run?_cons_of_stuck hstep

theorem ite_max {α : Type} (n d e : Nat) (x : Option α) :
    (if n + 1 + d ≤ maxNesting then if n + 1 + e ≤ maxNesting then x else none else none) =
      if n + 1 + max d e ≤ maxNesting then x else none := by
  split
  · split
    · rw [if_pos (by omega)]
    · rw [if_neg (by omega)]
  · rw [if_neg (by omega)]

/-- A field is read up to its value. -/
theorem run?_field (opened : Bool) (fields : List (String × Json)) (last key : String)
    (value : String) :
    (⟨.object fields last :: stack, .key opened⟩ : Machine).run?
        ((quote key ++ ": " ++ value).toList ++ rest) =
      (⟨.object fields key :: stack, .value false⟩ : Machine).run? (value.toList ++ rest) := by
  have hsplit : (quote key ++ ": " ++ value).toList ++ rest =
      '"' :: (key.toList.flatMap escape ++ '"' :: ':' :: ' ' :: (value.toList ++ rest)) := by
    simp [toList_quote]
  have hquote : (⟨.object fields last :: stack, .key opened⟩ : Machine).step? '"' =
      some ⟨.object fields last :: stack, .text true [] .none⟩ := by
    cases opened <;> rfl
  rw [hsplit, run?_cons_of_step hquote, run?_text]
  rfl

mutual

/-- The machine delivers the value and goes on, or there is a container too many. -/
theorem run?_prettyAt : (v : Json) → v.Proper → v.Legible → ∀ (level : Nat) (stack : List Frame)
    (opened : Bool) (rest : List Char), stack.length ≤ maxNesting →
    (stack ≠ [] ∧ Continues rest ∨ ∀ n, v ≠ .number n) →
      (⟨stack, .value opened⟩ : Machine).run? ((v.prettyAt level).toList ++ rest) =
        if stack.length + v.depth ≤ maxNesting then (deliver v stack).run? rest else none
  | .null, _, _ => by
    intro level stack opened rest room _
    have htext : (Json.null.prettyAt level).toList = 'n' :: ['u', 'l', 'l'] := by simp [prettyAt]
    rw [htext, run?_word opened rfl (by decide) rfl rfl]
    exact (if_pos room).symm
  | .bool true, _, _ => by
    intro level stack opened rest room _
    have htext : ((Json.bool true).prettyAt level).toList = 't' :: ['r', 'u', 'e'] := by
      simp [prettyAt]
    rw [htext, run?_word opened rfl (by decide) rfl rfl]
    exact (if_pos room).symm
  | .bool false, _, _ => by
    intro level stack opened rest room _
    have htext : ((Json.bool false).prettyAt level).toList = 'f' :: ['a', 'l', 's', 'e'] := by
      simp [prettyAt]
    rw [htext, run?_word opened rfl (by decide) rfl rfl]
    exact (if_pos room).symm
  | .number n, _, legible => by
    intro level stack opened rest room ends
    obtain ⟨inside, continues⟩ := ends.resolve_right fun other => other n rfl
    obtain ⟨numeral, complete, value, hrun⟩ := run?_number stack opened legible.readBack
    have hnumber := (run?_append_of_run hrun).trans
      (run?_numeral_end complete value inside continues)
    exact hnumber.trans (if_pos room).symm
  | .string s, _, _ => by
    intro level stack opened rest room _
    have htext : ((Json.string s).prettyAt level).toList ++ rest =
        '"' :: (s.toList.flatMap escape ++ '"' :: rest) := by
      simp [prettyAt, toList_quote]
    have hquote : (⟨stack, .value opened⟩ : Machine).step? '"' =
        some ⟨stack, .text false [] .none⟩ := step?_begin stack opened rfl (by decide)
    have hend : endText false s stack = deliver (.string s) stack := by
      unfold endText
      split <;> rfl
    rw [htext, run?_cons_of_step hquote, run?_text, hend]
    exact (if_pos room).symm
  | .array items, proper, legible => by
    intro level stack opened rest _ _
    have hopen := run?_open stack opened '[' rfl (by decide) rfl
    have hdepth : stack.length + (Json.array items).depth =
        stack.length + 1 + depthItems items := by
      rw [depth]
      omega
    rw [hdepth]
    cases items with
    | nil =>
      have htext : ((Json.array []).prettyAt level).toList ++ rest = '[' :: ']' :: rest := by
        simp [prettyAt, prettyItems, bracket]
      rw [htext, hopen, run?_cons_of_step rfl]
      rfl
    | cons v vs =>
      have htext : ((Json.array (v :: vs)).prettyAt level).toList = _ :=
        toList_bracket_cons level '[' ']' (v.prettyAt (level + 1)) (prettyItems (level + 1) vs)
      rw [htext, List.cons_append, List.append_assoc, List.append_assoc, hopen, depthItems]
      by_cases room : stack.length < maxNesting
      · have hvalue := run?_prettyAt v proper.1 legible.1 (level + 1) (.array [] :: stack) true
          (tailChars level ']' (prettyItems (level + 1) vs) ++ rest) room
          (.inl ⟨List.cons_ne_nil _ _, continues_tailChars ..⟩)
        have hrest := run?_items vs proper.2 legible.2 level [v] stack rest room
        rw [if_pos room, run?_lineChars fun _ => step?_value_blank true, hvalue, deliver, hrest]
        exact ite_max ..
      · rw [if_neg room, if_neg (by omega)]
  | .object fields, proper, legible => by
    intro level stack opened rest _ _
    have hopen := run?_open stack opened '\x7b' rfl (by decide) rfl
    have hdepth : stack.length + (Json.object fields).depth =
        stack.length + 1 + depthFields fields := by
      rw [depth]
      omega
    rw [hdepth]
    cases fields with
    | nil =>
      have htext : ((Json.object []).prettyAt level).toList ++ rest = '\x7b' :: '\x7d' :: rest := by
        simp [prettyAt, prettyFields, bracket]
      rw [htext, hopen, run?_cons_of_step rfl]
      rfl
    | cons field fields =>
      obtain ⟨key, v⟩ := field
      have htext : ((Json.object ((key, v) :: fields)).prettyAt level).toList = _ :=
        toList_bracket_cons level '\x7b' '\x7d' (quote key ++ ": " ++ v.prettyAt (level + 1))
          (prettyFields (level + 1) fields)
      rw [htext, List.cons_append, List.append_assoc, List.append_assoc, hopen, depthFields]
      by_cases room : stack.length < maxNesting
      · have hvalue := run?_prettyAt v proper.2.1 legible.1 (level + 1) (.object [] key :: stack)
          false (tailChars level '\x7d' (prettyFields (level + 1) fields) ++ rest) room
          (.inl ⟨List.cons_ne_nil _ _, continues_tailChars ..⟩)
        have hrest := run?_fields fields proper.2.2 legible.2 level [(key, v)] key stack rest
          proper.1 room
        rw [if_pos room, run?_lineChars fun _ => step?_key_blank true, run?_field, hvalue, deliver,
          Entries.put, hrest]
        exact ite_max ..
      · rw [if_neg room, if_neg (by omega)]

theorem run?_items : (items : List Json) → ProperItems items → LegibleItems items →
    ∀ (level : Nat) (read : List Json) (stack : List Frame) (rest : List Char),
      stack.length < maxNesting →
      (⟨.array read :: stack, .separator⟩ : Machine).run?
          (tailChars level ']' (prettyItems (level + 1) items) ++ rest) =
        if stack.length + 1 + depthItems items ≤ maxNesting then
          (deliver (.array (read.reverse ++ items)) stack).run? rest
        else none
  | [], _, _ => by
    intro level read stack rest room
    rw [depthItems, if_pos (by omega), List.append_nil]
    exact run?_tailChars_nil level rfl
  | v :: vs, proper, legible => by
    intro level read stack rest room
    have hcomma : (⟨.array read :: stack, .separator⟩ : Machine).step? ',' =
        some ⟨.array read :: stack, .value false⟩ := rfl
    rw [prettyItems, tailChars_cons, List.cons_append, List.append_assoc, List.append_assoc,
      run?_cons_of_step hcomma, run?_lineChars fun _ => step?_value_blank false]
    have hvalue := run?_prettyAt v proper.1 legible.1 (level + 1) (.array read :: stack) false
      (tailChars level ']' (prettyItems (level + 1) vs) ++ rest) room
      (.inl ⟨List.cons_ne_nil _ _, continues_tailChars ..⟩)
    have hrest := run?_items vs proper.2 legible.2 level (v :: read) stack rest room
    rw [hvalue, deliver, hrest, List.reverse_cons, List.append_assoc, List.singleton_append,
      depthItems]
    exact ite_max ..

theorem run?_fields : (fields : List (String × Json)) → ProperFields fields →
    LegibleFields fields → ∀ (level : Nat) (read : List (String × Json)) (last : String)
      (stack : List Frame) (rest : List Char), ((read ++ fields).map Prod.fst).Nodup →
      stack.length < maxNesting →
      (⟨.object read last :: stack, .separator⟩ : Machine).run?
          (tailChars level '\x7d' (prettyFields (level + 1) fields) ++ rest) =
        if stack.length + 1 + depthFields fields ≤ maxNesting then
          (deliver (.object (read ++ fields)) stack).run? rest
        else none
  | [], _, _ => by
    intro level read last stack rest _ room
    rw [depthFields, if_pos (by omega), List.append_nil]
    exact run?_tailChars_nil level rfl
  | (key, v) :: fields, proper, legible => by
    intro level read last stack rest distinct room
    have hcomma : (⟨.object read last :: stack, .separator⟩ : Machine).step? ',' =
        some ⟨.object read last :: stack, .key false⟩ := rfl
    rw [prettyFields, tailChars_cons, List.cons_append, List.append_assoc, List.append_assoc,
      run?_cons_of_step hcomma, run?_lineChars fun _ => step?_key_blank false, run?_field]
    have hvalue := run?_prettyAt v proper.1 legible.1 (level + 1) (.object read key :: stack) false
      (tailChars level '\x7d' (prettyFields (level + 1) fields) ++ rest) room
      (.inl ⟨List.cons_ne_nil _ _, continues_tailChars ..⟩)
    have hnew : key ∉ read.map Prod.fst := by
      intro hm
      rw [List.map_append, List.nodup_append] at distinct
      exact distinct.2.2 key hm key List.mem_cons_self rfl
    have hsplit : read ++ (key, v) :: fields = (read ++ [(key, v)]) ++ fields := by simp
    rw [hsplit] at distinct ⊢
    have hrest := run?_fields fields proper.2 legible.2 level (read ++ [(key, v)]) key stack rest
      distinct room
    rw [hvalue, deliver, Entries.put_of_not_mem hnew, hrest, depthFields]
    exact ite_max ..

end

end Machine

theorem readChars_of_run {m : Machine} {chars : List Char}
    (h : (⟨[], .value false⟩ : Machine).run? chars = some m) : readChars chars = m.finish := by
  rw [Machine.run?] at h
  rw [readChars, h]

theorem readChars_of_stuck {chars : List Char}
    (h : (⟨[], .value false⟩ : Machine).run? chars = none) :
    readChars chars = .error .invalid := by
  rw [Machine.run?] at h
  rw [readChars, h]

/-- What is printed is read back, unless more containers are nested than a reader keeps open. -/
theorem read_pretty {v : Json} (proper : v.Proper) (legible : v.Legible) :
    Json.read v.pretty = if v.depth ≤ maxNesting then .ok v else .error .invalid := by
  rw [read, pretty]
  by_cases number : ∃ n, v = .number n
  · obtain ⟨n, rfl⟩ := number
    obtain ⟨numeral, complete, value, hrun⟩ :=
      Machine.run?_number [] false (n := n) legible.readBack
    have hfinish : (⟨[], .numeral numeral⟩ : Machine).finish = .ok (.number n) := by
      simp [Machine.finish, complete, value]
    exact (readChars_of_run hrun).trans (hfinish.trans (if_pos (Nat.zero_le _)).symm)
  · have hrun := Machine.run?_prettyAt v proper legible 0 [] false [] (Nat.zero_le _)
      (.inr fun n same => number ⟨n, same⟩)
    rw [List.append_nil, List.length_nil, Nat.zero_add] at hrun
    by_cases fits : v.depth ≤ maxNesting
    · rw [if_pos fits] at hrun ⊢
      exact readChars_of_run hrun
    · rw [if_neg fits] at hrun ⊢
      exact readChars_of_stuck hrun

end BlockScript.Json
