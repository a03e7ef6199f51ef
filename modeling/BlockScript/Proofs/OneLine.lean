import BlockScript.Listing
import BlockScript.Proofs.Diagnostics
import BlockScript.Proofs.Renderings

/-! Texts on one line. A printed value and a quoted text have no new line in them. What is taken
over as it is, such as an id, an operator, a name or the string of an operand, may have one, and so
an expression, an argument and a message are on one line exactly if all that they take over is. -/

namespace BlockScript

/-! ### Lines of a text -/

/-- The lines of a text: what stands before, between and after its new lines. -/
def textLines (text : String) : List String := (text.toList.splitOn '\n').map String.ofList

/-- There is no new line in the text. -/
def OneLine (text : String) : Prop := '\n' ∉ text.toList

instance (text : String) : Decidable (OneLine text) := inferInstanceAs (Decidable (¬ _))

theorem not_mem_of_mem_splitOn {c : Char} {part : List Char} :
    {chars : List Char} → part ∈ chars.splitOn c → c ∉ part
  | [], h => by
    rw [List.splitOn_nil, List.mem_singleton] at h
    simp [h]
  | d :: chars, h => by
    rw [List.splitOn_cons_eq_if_modifyHead] at h
    split at h
    · rcases List.mem_cons.mp h with rfl | h
      · exact List.not_mem_nil
      · exact not_mem_of_mem_splitOn h
    · rename_i other
      obtain ⟨first, rest, hsplit⟩ := List.exists_cons_of_ne_nil (List.splitOn_ne_nil c chars)
      rw [hsplit, List.modifyHead_cons] at h
      have hfirst : first ∈ chars.splitOn c := hsplit ▸ List.mem_cons_self
      rcases List.mem_cons.mp h with rfl | h
      · simp only [List.mem_cons, not_or]
        exact ⟨fun e => other (by simp [e]), not_mem_of_mem_splitOn hfirst⟩
      · exact not_mem_of_mem_splitOn (hsplit ▸ List.mem_cons_of_mem _ h)

theorem oneLine_of_mem_textLines {line text : String} (h : line ∈ textLines text) :
    OneLine line := by
  obtain ⟨part, hpart, rfl⟩ := List.mem_map.mp h
  rw [OneLine, String.toList_ofList]
  exact not_mem_of_mem_splitOn hpart

theorem textLines_append {line : String} (h : OneLine line) (text : String) :
    textLines (line ++ "\n" ++ text) = line :: textLines text := by
  have hchars : (line ++ "\n" ++ text).toList = line.toList ++ '\n' :: text.toList := by simp
  rw [textLines, hchars, List.splitOn_append_cons_self, List.splitOn_eq_singleton h]
  simp [textLines]

/-- Lines that are ended by new lines are read back exactly if each of them is one line. -/
theorem textLines_join_iff {lines : List String} :
    textLines (.join (lines.map (· ++ "\n"))) = lines ++ [""] ↔ ∀ line ∈ lines, OneLine line := by
  constructor
  · intro h line hm
    exact oneLine_of_mem_textLines (h ▸ List.mem_append_left _ hm)
  · intro h
    induction lines with
    | nil => decide
    | cons line rest ih =>
      rw [List.forall_mem_cons] at h
      rw [List.map_cons, String.join_cons, textLines_append h.1, ih h.2, List.cons_append]

@[simp] theorem oneLine_append {s t : String} : OneLine (s ++ t) ↔ OneLine s ∧ OneLine t := by
  simp [OneLine]

@[simp] theorem oneLine_join {parts : List String} :
    OneLine (.join parts) ↔ ∀ part ∈ parts, OneLine part := by
  simp [OneLine]

/-- The separator counts if there is something to separate. -/
theorem oneLine_intercalate {separator : String} : {parts : List String} →
    (OneLine (separator.intercalate parts) ↔
      (2 ≤ parts.length → OneLine separator) ∧ ∀ part ∈ parts, OneLine part)
  | [] => by simp [OneLine]
  | [part] => by simp
  | first :: second :: rest => by
    rw [List.forall_mem_cons, OneLine, Json.toList_intercalate, List.mem_append, not_or]
    constructor
    · rintro ⟨hfirst, hrest⟩
      have hpart (part : String) (hm : part ∈ second :: rest) :
          OneLine (separator ++ part) := fun h => by
        rw [String.toList_append] at h
        exact hrest (List.mem_flatMap.mpr ⟨part, hm, h⟩)
      refine ⟨fun _ => ?_, hfirst, fun part hm => (oneLine_append.mp (hpart part hm)).2⟩
      exact (oneLine_append.mp (hpart second List.mem_cons_self)).1
    · rintro ⟨hseparator, hfirst, hrest⟩
      refine ⟨hfirst, fun h => ?_⟩
      obtain ⟨part, hm, h⟩ := List.mem_flatMap.mp h
      rcases List.mem_append.mp h with h | h
      · exact hseparator (by simp) h
      · exact hrest part hm h

/-! ### Texts of values -/

namespace Json

theorem digitChar_ne_newline {n : Nat} (h : n < 16) : Nat.digitChar n ≠ '\n' := by
  revert n
  decide

theorem newline_not_mem_escape (c : Char) : '\n' ∉ escape c := by
  unfold escape
  iterate 2
    split
    · decide
  iterate 2
    split
    · decide
  split
  · decide
  rename_i other
  iterate 2
    split
    · decide
  split
  · rename_i control
    have hhigh := digitChar_ne_newline (n := c.toNat / 16) (by omega)
    have hlow := digitChar_ne_newline (n := c.toNat % 16) (by omega)
    simp [hhigh.symm, hlow.symm]
  · simp [Ne.symm other]

theorem oneLine_quote (s : String) : OneLine (quote s) := by
  simp [OneLine, toList_quote, newline_not_mem_escape]

theorem newline_not_mem_toDigits (n : Nat) : '\n' ∉ Nat.toDigits 10 n := fun h =>
  absurd (Nat.isDigit_of_mem_toDigits (by decide) (by decide) h) (by decide)

theorem newline_not_mem_placed {ds : List Char} (h : '\n' ∉ ds) (power : Int) :
    '\n' ∉ placed ds power := by
  have hfront (n : Nat) : '\n' ∉ ds.take n := fun hm => h (List.mem_of_mem_take hm)
  have hback (n : Nat) : '\n' ∉ ds.drop n := fun hm => h (List.mem_of_mem_drop hm)
  have hzeros (n : Nat) : '\n' ∉ List.replicate n '0' := fun hm =>
    absurd (List.eq_of_mem_replicate hm) (by decide)
  have hexponent : '\n' ∉ 'e' :: (if power < 0 then '-' else '+') ::
      Nat.toDigits 10 power.natAbs := by
    rw [List.mem_cons, List.mem_cons, not_or, not_or]
    refine ⟨by decide, ?_, newline_not_mem_toDigits _⟩
    split <;> decide
  unfold placed
  split
  · simp only
    split
    · simp [h, hzeros]
    · simp [hfront, hback]
  · split
    · simp [h, hzeros]
    · split <;> simp_all

theorem newline_not_mem_binaryText (x : Binary64) : '\n' ∉ binaryText x := by
  have hdigits : '\n' ∉ stripZeros (Nat.toDigits 10 (Decimal.shortest x).digits) := fun h => by
    rw [stripZeros, List.mem_reverse] at h
    have hm := List.mem_reverse.mp ((List.dropWhile_sublist _).subset h)
    exact newline_not_mem_toDigits _ hm
  have hplaced := newline_not_mem_placed hdigits
  unfold binaryText
  simp only
  split
  · split <;> simp [hplaced]
  · split <;> simp [hplaced]

theorem oneLine_number (n : Number) : OneLine n.text := by
  unfold Number.text OneLine
  split
  · rw [String.toList_ofList]
    exact newline_not_mem_toDigits _
  · rw [String.toList_ofList]
    simp [newline_not_mem_toDigits]
  · rw [String.toList_ofList]
    exact newline_not_mem_binaryText _

mutual

/-- A printed value is one line. -/
theorem oneLine_compact : (v : Json) → OneLine v.compact
  | .null => by decide
  | .bool true => by decide
  | .bool false => by decide
  | .number n => oneLine_number n
  | .string s => oneLine_quote s
  | .array items => by
    rw [compact, oneLine_append, oneLine_append, oneLine_intercalate]
    exact ⟨⟨by decide, fun _ => by decide, oneLine_compactItems items⟩, by decide⟩
  | .object fields => by
    rw [compact, oneLine_append, oneLine_append, oneLine_intercalate]
    exact ⟨⟨by decide, fun _ => by decide, oneLine_compactFields fields⟩, by decide⟩

theorem oneLine_compactItems : (items : List Json) → ∀ text ∈ compactItems items, OneLine text
  | [] => by simp [compactItems]
  | item :: rest => by
    rw [compactItems, List.forall_mem_cons]
    exact ⟨oneLine_compact item, oneLine_compactItems rest⟩

theorem oneLine_compactFields :
    (fields : List (String × Json)) → ∀ text ∈ compactFields fields, OneLine text
  | [] => by simp [compactFields]
  | (key, value) :: rest => by
    rw [compactFields, List.forall_mem_cons, oneLine_append, oneLine_append]
    exact ⟨⟨⟨oneLine_quote key, by decide⟩, oneLine_compact value⟩, oneLine_compactFields rest⟩

end

end Json

/-! ### Texts taken over as they are -/

variable {ι : Type}

/-- The characters of a string where it is not quoted. -/
def Json.verbatim : Json → List String
  | .string s => [s]
  | _ => []

theorem Json.oneLine_plainText (v : Json) :
    OneLine v.plainText ↔ ∀ text ∈ v.verbatim, OneLine text := by
  cases v with
  | string s => simp [plainText, verbatim]
  | _ => simpa [plainText, verbatim] using Json.oneLine_compact _

theorem Operand.oneLine_render (o : Operand ι) :
    OneLine o.render ↔ ∀ text ∈ o.value.verbatim, OneLine text := by
  rw [← Json.oneLine_plainText, render_eq]
  split
  · rename_i missing
    rw [Json.eq_null_of_isNull missing]
    decide
  · have hsign : OneLine (if o.type = .variable then "$" else "") := by
      split <;> decide
    rw [oneLine_append]
    exact and_iff_right hsign

namespace Expression

mutual

/-- The texts that a rendering takes over: the strings of the operands that it shows, and operators
where they stand beside an operand. -/
def verbatim : Expression ι → List String
  | leaf _ operator first second =>
    operator :: (first.value.verbatim ++
      match second with
      | some second => if Operator.isUnary operator then [] else second.value.verbatim
      | none => [])
  | group _ operator children =>
    (if 2 ≤ children.length then [operator] else []) ++ verbatimEach children
  | operand o => o.value.verbatim

def verbatimEach : List (Expression ι) → List String
  | [] => []
  | e :: rest => e.verbatim ++ verbatimEach rest

end

theorem oneLine_of_isUnary {operator : String} (unary : Operator.isUnary operator = true) :
    OneLine operator := by
  rw [eq_of_beq unary]
  decide

theorem oneLine_leaf (tag : ι) (operator : String) (first : Operand ι)
    (second : Option (Operand ι)) : OneLine (leaf tag operator first second).render ↔
      ∀ text ∈ (leaf tag operator first second).verbatim, OneLine text := by
  have hblank : OneLine " " := by decide
  unfold verbatim
  rw [List.forall_mem_cons, List.forall_mem_append, ← first.oneLine_render]
  cases second with
  | none => simp [render]
  | some second =>
    rw [render]
    simp only
    split
    · simp
    · rw [← second.oneLine_render]
      simp only [oneLine_append, hblank, and_true]
      tauto

mutual

/-- A rendering is one line exactly if all texts are that it takes over. -/
theorem oneLine_render : (e : Expression ι) →
    (OneLine e.render ↔ ∀ text ∈ e.verbatim, OneLine text)
  | leaf tag operator first second => oneLine_leaf tag operator first second
  | group _ operator children => by
    have hopening : OneLine "(" := by decide
    have hclosing : OneLine ")" := by decide
    have hblank : OneLine " " := by decide
    have hcomma : OneLine ", " := by decide
    have hshown : (∀ text ∈ if 2 ≤ children.length then [operator] else [], OneLine text) ↔
        (2 ≤ children.length → OneLine operator) := by
      split
      · rename_i several
        simp [several]
      · rename_i few
        exact ⟨fun _ several => absurd several few, by simp⟩
    rw [render, verbatim, List.forall_mem_append, hshown, ← oneLine_renderEach children]
    split
    · rename_i unary
      have hoperator := oneLine_of_isUnary unary
      simp only [oneLine_append, oneLine_intercalate, hopening, hclosing, hcomma, hoperator,
        implies_true, true_and, and_true]
    · simp only [oneLine_append, oneLine_intercalate, length_renderEach, hopening, hclosing, hblank,
        true_and, and_true]
  | operand o => o.oneLine_render

theorem oneLine_renderEach : (list : List (Expression ι)) →
    ((∀ text ∈ renderEach list, OneLine text) ↔ ∀ text ∈ verbatimEach list, OneLine text)
  | [] => by simp [renderEach, verbatimEach]
  | e :: rest => by
    rw [renderEach, verbatimEach, List.forall_mem_cons, List.forall_mem_append, oneLine_render e,
      oneLine_renderEach rest]

end

end Expression

namespace Argument

def verbatim : Argument ι → List String
  | .literal type value => if type = .variable then value.verbatim else []
  | .expressions _ list => Expression.verbatimEach list

theorem oneLine_listed (a : Argument ι) :
    OneLine a.listed ↔ ∀ text ∈ a.verbatim, OneLine text := by
  have hunset : OneLine "?" := by decide
  have hsign : OneLine "$" := by decide
  have hcomma : OneLine ", " := by decide
  cases a with
  | expressions _ list =>
    cases list with
    | nil => simpa [listed, verbatim, Expression.verbatimEach] using hunset
    | cons e rest =>
      rw [listed, ExpressionList.render, oneLine_intercalate, verbatim,
        ← Expression.oneLine_renderEach]
      · exact and_iff_right fun _ => hcomma
      · simp
  | literal type value =>
    cases value with
    | null => simp [listed, verbatim, Json.verbatim, hunset]
    | string name =>
      by_cases htype : type = .variable
      · simp [listed, verbatim, Json.verbatim, htype, hsign]
      · simp [listed, verbatim, htype, Json.oneLine_compact]
    | _ => simp [listed, verbatim, Json.verbatim, Json.oneLine_compact]

end Argument

namespace Diagnostic

/-- The texts that a message names. -/
def verbatim : Diagnostic → List String
  | unknownStatement id | cyclicProcedure id => [id]
  | missingPredecessor id allowed neighbour | invalidParent id allowed neighbour =>
    id :: (allowed ++ neighbour.toList)
  | forbiddenPredecessor id neighbour | forbiddenParent id neighbour => [id, neighbour]
  | disallowedNesting id parent => [parent, id]
  | invalidComparison operator | invalidCombinator operator => [operator]
  | unsetOperand text => [text]
  | unsetMember => []

theorem oneLine_kind (d : Diagnostic) : OneLine d.kind := by
  cases d <;> unfold kind <;> dsimp only <;> decide

theorem oneLine_iff_true {text : String} (h : OneLine text) : OneLine text ↔ True :=
  iff_true_intro h

theorem oneLine_oneOf (ids : List String) : OneLine (oneOf ids) ↔ ∀ id ∈ ids, OneLine id := by
  unfold oneOf
  dsimp only [toString]
  simp (disch := decide) only [oneLine_intercalate, oneLine_append, oneLine_iff_true, implies_true,
    List.forall_mem_map, true_and, and_true]

/-- The words of a message are on one line, and so it is exactly if what it names is. -/
theorem oneLine_message (d : Diagnostic) :
    OneLine d.message ↔ ∀ text ∈ d.verbatim, OneLine text := by
  rcases d with _ | ⟨id, allowed, _ | neighbour⟩ | _ | ⟨id, allowed, _ | neighbour⟩ | _ | _ | _ |
    _ | _ | _ | _ <;> unfold message verbatim <;> dsimp only [toString] <;>
  simp (disch := decide) only [oneLine_append, oneLine_oneOf, oneLine_iff_true, Option.toList,
    List.append_nil, List.forall_mem_cons, List.forall_mem_append, List.not_mem_nil,
    IsEmpty.forall_iff, implies_true, true_and, and_true, and_assoc]

theorem oneLine_of_mem_when {d found : Diagnostic} {condition : Prop} [Decidable condition]
    (hd : ∀ text ∈ d.verbatim, OneLine text) (h : found ∈ d.when condition) :
    OneLine found.message := by
  unfold Diagnostic.when at h
  split at h
  · obtain rfl := List.mem_singleton.mp h
    exact found.oneLine_message.mpr hd
  · cases h

end Diagnostic

end BlockScript
