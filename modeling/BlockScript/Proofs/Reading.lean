import BlockScript.Language.Descriptor
import BlockScript.Proofs.WellFormed

/-! What readers return is well-formed: the values of a JSON text have no key twice in one object,
and the drafts, statements and expressions of such values are well-formed. New statements of a
language are too. -/

namespace BlockScript

namespace Except

variable {ε α β : Type}

@[simp] theorem pure_eq_ok (a : α) : (pure a : Except ε α) = .ok a := rfl

@[simp] theorem ok_bind (a : α) (f : α → Except ε β) : (Except.ok a >>= f) = f a := rfl

theorem bind_eq_ok_iff {x : Except ε α} {f : α → Except ε β} {b : β} :
    (x >>= f) = .ok b ↔ ∃ a, x = .ok a ∧ f a = .ok b := by
  cases x with
  | error e =>
    constructor
    · intro h
      cases h
    · rintro ⟨_, h, -⟩
      cases h
  | ok a =>
    constructor
    · intro h
      exact ⟨a, rfl, h⟩
    · rintro ⟨_, h, hf⟩
      rwa [← Except.ok.inj h] at hf

theorem pure_eq_ok_iff {a b : α} : (pure a : Except ε α) = .ok b ↔ a = b :=
  ⟨Except.ok.inj, fun h => congrArg _ h⟩

theorem map_eq_ok_iff {x : Except ε α} {f : α → β} {b : β} :
    (f <$> x) = .ok b ↔ ∃ a, x = .ok a ∧ f a = b := by
  have hbind : (f <$> x) = x >>= fun a => pure (f a) := by
    cases x <;> rfl
  rw [hbind, bind_eq_ok_iff]
  simp only [pure_eq_ok_iff]

end Except

/-! ### JSON texts -/

namespace Json

def Frame.Proper : Frame → Prop
  | .array items => ProperItems items
  | .object fields _ => (Json.object fields).Proper

def Mode.Proper : Mode → Prop
  | .word _ v | .finished v => v.Proper
  | _ => True

namespace Machine

/-- All that has been read so far is proper. -/
structure Proper (m : Machine) : Prop where
  stack : ∀ frame ∈ m.stack, frame.Proper
  mode : m.mode.Proper

variable {stack : List Frame} {c : Char} {m m' : Machine}

theorem Proper.deliver {value : Json} (hv : value.Proper) (h : ∀ frame ∈ stack, frame.Proper) :
    (Machine.deliver value stack).Proper := by
  match stack with
  | [] => exact ⟨h, hv⟩
  | .array items :: rest =>
    simp only [List.forall_mem_cons] at h
    exact ⟨List.forall_mem_cons.mpr ⟨⟨hv, h.1⟩, h.2⟩, trivial⟩
  | .object fields key :: rest =>
    simp only [List.forall_mem_cons] at h
    obtain ⟨⟨distinct, hf⟩, hrest⟩ := h
    exact ⟨List.forall_mem_cons.mpr ⟨⟨Entries.nodup_put distinct, hf.put key hv⟩, hrest⟩, trivial⟩

theorem Proper.push? {frame : Frame} {mode : Mode} (h : ∀ frame ∈ stack, frame.Proper)
    (hp : push? frame mode stack = some m) (hf : frame.Proper) (hm : mode.Proper) :
    m.Proper := by
  rw [Machine.push?] at hp
  split at hp
  · obtain rfl := Option.some.inj hp
    exact ⟨List.forall_mem_cons.mpr ⟨hf, h⟩, hm⟩
  · cases hp

theorem Proper.beginValue? (h : ∀ frame ∈ stack, frame.Proper)
    (hb : beginValue? stack c = some m) : m.Proper := by
  rw [Machine.beginValue?.eq_def] at hb
  split at hb
  · exact Proper.push? h hb trivial trivial
  · exact Proper.push? h hb ⟨.nil, trivial⟩ trivial
  · obtain rfl := Option.some.inj hb
    exact ⟨h, trivial⟩
  · obtain rfl := Option.some.inj hb
    exact ⟨h, trivial⟩
  · obtain rfl := Option.some.inj hb
    exact ⟨h, trivial⟩
  · obtain rfl := Option.some.inj hb
    exact ⟨h, trivial⟩
  · obtain ⟨n, -, rfl⟩ := Option.map_eq_some_iff.mp hb
    exact ⟨h, trivial⟩

theorem Proper.afterValue? (h : ∀ frame ∈ stack, frame.Proper)
    (ha : afterValue? stack c = some m) : m.Proper := by
  match stack with
  | [] => cases ha
  | .array items :: rest =>
    simp only [Machine.afterValue?] at ha
    split at ha
    · obtain rfl := Option.some.inj ha
      exact ⟨h, trivial⟩
    · split at ha
      · obtain rfl := Option.some.inj ha
        simp only [List.forall_mem_cons] at h
        have hitems : ProperItems items.reverse := properItems_iff.mpr fun item hm =>
          properItems_iff.mp h.1 item (List.mem_reverse.mp hm)
        exact Proper.deliver hitems h.2
      · cases ha
  | .object fields key :: rest =>
    simp only [Machine.afterValue?] at ha
    split at ha
    · obtain rfl := Option.some.inj ha
      exact ⟨h, trivial⟩
    · split at ha
      · obtain rfl := Option.some.inj ha
        simp only [List.forall_mem_cons] at h
        exact Proper.deliver h.1 h.2
      · cases ha

theorem Proper.endText {isKey : Bool} {s : String} (h : ∀ frame ∈ stack, frame.Proper) :
    (Machine.endText isKey s stack).Proper := by
  rw [Machine.endText.eq_def]
  split
  · split
    · simp only [List.forall_mem_cons] at h
      exact ⟨List.forall_mem_cons.mpr h, trivial⟩
    · exact Proper.deliver trivial h
  · exact Proper.deliver trivial h

theorem Proper.step? (h : m.Proper) (hs : m.step? c = some m') : m'.Proper := by
  obtain ⟨stack, mode⟩ := m
  have hstack : ∀ frame ∈ stack, frame.Proper := h.stack
  cases mode with
  | value opened =>
    simp only [Machine.step?] at hs
    split at hs
    · exact Option.some.inj hs ▸ h
    · split at hs
      · obtain rfl := Option.some.inj hs
        exact Proper.deliver trivial (List.forall_mem_cons.mp hstack).2
      · exact Proper.beginValue? hstack hs
  | key opened =>
    simp only [Machine.step?] at hs
    split at hs
    · exact Option.some.inj hs ▸ h
    · split at hs
      · obtain rfl := Option.some.inj hs
        exact Proper.deliver ⟨.nil, trivial⟩ (List.forall_mem_cons.mp hstack).2
      · obtain rfl := Option.some.inj hs
        exact ⟨hstack, trivial⟩
      · cases hs
  | colon =>
    simp only [Machine.step?] at hs
    split at hs
    · exact Option.some.inj hs ▸ h
    · split at hs
      · obtain rfl := Option.some.inj hs
        exact ⟨hstack, trivial⟩
      · cases hs
  | separator =>
    simp only [Machine.step?] at hs
    split at hs
    · exact Option.some.inj hs ▸ h
    · exact Proper.afterValue? hstack hs
  | word rest v =>
    have hv : v.Proper := h.mode
    cases rest with
    | nil => cases hs
    | cons w rest =>
      simp only [Machine.step?] at hs
      split at hs
      · cases hs
      · split at hs
        · exact Option.some.inj hs ▸ Proper.deliver hv hstack
        · exact Option.some.inj hs ▸ ⟨hstack, hv⟩
  | numeral n =>
    unfold Machine.step? at hs
    dsimp only at hs
    split at hs
    · exact Option.some.inj hs ▸ ⟨hstack, trivial⟩
    · obtain ⟨-, -, hs⟩ := Option.bind_eq_some_iff.mp hs
      obtain ⟨value, -, hs⟩ := Option.bind_eq_some_iff.mp hs
      have hafter : (Machine.deliver (.number value) stack).Proper := Proper.deliver trivial hstack
      split at hs
      · exact Option.some.inj hs ▸ hafter
      · exact Proper.afterValue? hafter.stack hs
  | text isKey chars escape =>
    have htake : ∀ escape, (takeText? chars c escape).map
        (fun taken => (⟨stack, .text isKey taken.1 taken.2⟩ : Machine)) = some m' → m'.Proper := by
      intro escape hs
      obtain ⟨taken, -, rfl⟩ := Option.map_eq_some_iff.mp hs
      exact ⟨hstack, trivial⟩
    cases escape with
    | none =>
      simp only [Machine.step?] at hs
      split at hs
      · exact Option.some.inj hs ▸ Proper.endText hstack
      · exact htake _ hs
    | _ => exact htake _ hs
  | finished v =>
    simp only [Machine.step?] at hs
    split at hs
    · exact Option.some.inj hs ▸ h
    · cases hs

theorem Proper.run {chars : List Char} (h : m.Proper)
    (hr : chars.foldlM Machine.step? m = some m') : m'.Proper := by
  induction chars generalizing m with
  | nil => exact Option.some.inj hr ▸ h
  | cons c rest ih =>
    rw [List.foldlM_cons] at hr
    obtain ⟨next, hs, hr⟩ := Option.bind_eq_some_iff.mp hr
    exact ih (h.step? hs) hr

theorem Proper.finish {value : Json} (h : m.Proper) (hf : m.finish = .ok value) :
    value.Proper := by
  obtain ⟨stack, mode⟩ := m
  cases mode with
  | finished v => exact Except.ok.inj hf ▸ h.mode
  | numeral n =>
    simp only [Machine.finish] at hf
    split at hf
    · split at hf
      · exact Except.ok.inj hf ▸ trivial
      · cases hf
      · cases hf
    · cases hf
  | _ => cases hf

end Machine

/-- A value read from a text is proper. -/
theorem proper_of_read {text : String} {value : Json} (h : Json.read text = .ok value) :
    value.Proper := by
  simp only [read, readChars] at h
  split at h
  · rename_i m hm
    have start : (⟨[], .value false⟩ : Machine).Proper := ⟨by simp, trivial⟩
    exact (start.run hm).finish h
  · cases h

end Json

/-! ### Documents -/

theorem Json.fields_eq_ok {path : Path} {value : Json} {fields : List (String × Json)}
    (h : value.fields path = .ok fields) : value = .object fields := by
  cases value with
  | object _ => rw [Except.ok.inj h]
  | _ => cases h

namespace Operand

variable {path : Path} {fields : List (String × Json)}

theorem proper_of_ofFields {o : Operand Unit} (h : Json.ProperFields fields)
    (ho : ofFields path fields = .ok o) : o.value.Proper := by
  obtain ⟨type, -, ho⟩ := Except.bind_eq_ok_iff.mp ho
  obtain rfl := Except.pure_eq_ok_iff.mp ho
  exact h.valueOr "value"

theorem proper_of_ofJson {value : Json} {o : Operand Unit} (h : value.Proper)
    (ho : ofJson path value = .ok o) : o.value.Proper := by
  obtain ⟨fields, hf, ho⟩ := Except.bind_eq_ok_iff.mp ho
  obtain rfl := Json.fields_eq_ok hf
  exact proper_of_ofFields h.2 ho

theorem proper_of_ofField? {key : String} {o : Option (Operand Unit)}
    (h : Json.ProperFields fields) (ho : ofField? path fields key = .ok o) :
    ∀ o' ∈ o, o'.value.Proper := by
  unfold ofField? at ho
  split at ho
  · rename_i value hv
    obtain ⟨o', ho', rfl⟩ := Except.map_eq_ok_iff.mp ho
    rintro _ ⟨⟩
    exact proper_of_ofJson (h.lookup hv) ho'
  · obtain rfl := Except.ok.inj ho
    rintro _ ⟨⟩

end Operand

namespace Expression

theorem wellFormed_of_comparisonOfFields {path : Path} {operator : String}
    {fields : List (String × Json)} {e : Expression Unit} (h : Json.ProperFields fields)
    (he : comparisonOfFields path operator fields = .ok e) : e.WellFormed := by
  obtain ⟨first, hf, he⟩ := Except.bind_eq_ok_iff.mp he
  have hfirst := Operand.proper_of_ofField? h hf
  cases first with
  | none => cases he
  | some first =>
    obtain ⟨second, hs, he⟩ := Except.bind_eq_ok_iff.mp he
    obtain rfl := Except.pure_eq_ok_iff.mp he
    exact wellFormed_comparison (hfirst first rfl) (Operand.proper_of_ofField? h hs)

mutual

theorem wellFormed_of_ofJson : {value : Json} → value.Proper → {path : Path} →
    {e : Expression Unit} → ofJson path value = .ok e → e.WellFormed
  | .object fields, h, path, e, he => by
    rw [ofJson] at he
    split at he
    · obtain ⟨children, hc, he⟩ := Except.bind_eq_ok_iff.mp he
      cases children with
      | none => exact wellFormed_of_comparisonOfFields h.2 he
      | some children =>
        obtain rfl := Except.pure_eq_ok_iff.mp he
        exact wellFormedEach_of_childrenOfFields h.2 hc
    · split at he
      · obtain ⟨o, ho, rfl⟩ := Except.map_eq_ok_iff.mp he
        exact Operand.proper_of_ofFields h.2 ho
      · cases he
  | .null, _, _, _, he | .bool _, _, _, _, he | .number _, _, _, _, he | .string _, _, _, _, he
  | .array _, _, _, _, he => by cases he

theorem wellFormedEach_of_childrenOfFields : {fields : List (String × Json)} →
    Json.ProperFields fields → {path : Path} → {children : List (Expression Unit)} →
      childrenOfFields path fields = .ok (some children) → WellFormedEach children
  | [], _, _, _, hc => by cases hc
  | (key, value) :: rest, h, path, children, hc => by
    rw [childrenOfFields.eq_def] at hc
    dsimp only at hc
    split at hc
    · split at hc
      · obtain ⟨list, hl, hs⟩ := Except.map_eq_ok_iff.mp hc
        obtain rfl := Option.some.inj hs
        exact wellFormedEach_of_ofItems h.1 hl
      · cases hc
    · exact wellFormedEach_of_childrenOfFields h.2 hc

theorem wellFormedEach_of_ofItems : {items : List Json} → Json.ProperItems items →
    {path : Path} → {place : Nat} → {list : List (Expression Unit)} →
      ofItems path place items = .ok list → WellFormedEach list
  | [], _, _, _, _, hl => by cases hl; trivial
  | _ :: _, h, _, _, _, hl => by
    obtain ⟨e, he, hl⟩ := Except.bind_eq_ok_iff.mp hl
    obtain ⟨rest, hr, hl⟩ := Except.bind_eq_ok_iff.mp hl
    obtain rfl := Except.pure_eq_ok_iff.mp hl
    exact ⟨wellFormed_of_ofJson h.1 he, wellFormedEach_of_ofItems h.2 hr⟩

end

theorem wellFormedEach_of_list {path : Path} {value : Json} {list : ExpressionList Unit}
    (h : value.Proper) (hl : ExpressionList.ofJson path value = .ok list) :
    WellFormedEach list := by
  cases value with
  | null => cases hl; trivial
  | array items => exact wellFormedEach_of_ofItems h hl
  | _ => cases hl

end Expression

namespace Argument

theorem wellFormed_of_ofJson {path : Path} {value : Json} {a : Argument Unit} (h : value.Proper)
    (ha : ofJson path value = .ok a) : a.WellFormed := by
  obtain ⟨fields, hf, ht⟩ := Except.bind_eq_ok_iff.mp ha
  obtain rfl := Json.fields_eq_ok hf
  obtain ⟨type, -, hr⟩ := Except.bind_eq_ok_iff.mp ht
  have hv := h.2.valueOr "value"
  split at hr
  · obtain ⟨list, hl, rfl⟩ := Except.map_eq_ok_iff.mp hr
    exact ⟨rfl, Expression.wellFormedEach_of_list hv hl⟩
  · rename_i hne
    obtain rfl := Except.pure_eq_ok_iff.mp hr
    exact ⟨hne, hv⟩

theorem wellFormed_of_ofItems {path : Path} {place : Nat} {items : List Json}
    {list : List (Argument Unit)} (h : Json.ProperItems items)
    (hl : ofItems path place items = .ok list) : ∀ a ∈ list, a.WellFormed := by
  induction items generalizing place list with
  | nil => cases hl; simp
  | cons item rest ih =>
    obtain ⟨a, ha, hl⟩ := Except.bind_eq_ok_iff.mp hl
    obtain ⟨list, hr, hl⟩ := Except.bind_eq_ok_iff.mp hl
    obtain rfl := Except.pure_eq_ok_iff.mp hl
    exact List.forall_mem_cons.mpr ⟨wellFormed_of_ofJson h.1 ha, ih h.2 hr⟩

theorem wellFormed_of_ofFields {path : Path} {fields : List (String × Json)}
    {arguments : Option (List (Argument Unit))} (h : Json.ProperFields fields)
    (ha : ofFields path fields = .ok arguments) : ∀ a ∈ arguments.getD [], a.WellFormed := by
  unfold ofFields at ha
  split at ha
  · rename_i items hi
    obtain ⟨list, hl, rfl⟩ := Except.map_eq_ok_iff.mp ha
    exact wellFormed_of_ofItems (h.lookup hi) hl
  · cases ha
  · cases ha; simp

end Argument

namespace Statement

mutual

theorem wellFormed_of_ofJson : {value : Json} → value.Proper → {path : Path} → {s : Template} →
    ofJson path value = .ok s → s.WellFormed
  | .object fields, h, path, s, hs => by
    rw [ofJson] at hs
    split at hs
    · obtain ⟨arguments, ha, hs⟩ := Except.bind_eq_ok_iff.mp hs
      obtain ⟨block, hb, hs⟩ := Except.bind_eq_ok_iff.mp hs
      have harguments := Argument.wellFormed_of_ofFields h.2 ha
      cases block with
      | none =>
        obtain rfl := Except.pure_eq_ok_iff.mp hs
        exact harguments
      | some block =>
        obtain rfl := Except.pure_eq_ok_iff.mp hs
        exact ⟨harguments, wellFormedEach_of_blockOfFields h.2 hb⟩
    · cases hs
  | .null, _, _, _, hs | .bool _, _, _, _, hs | .number _, _, _, _, hs | .string _, _, _, _, hs
  | .array _, _, _, _, hs => by cases hs

theorem wellFormedEach_of_blockOfFields : {fields : List (String × Json)} →
    Json.ProperFields fields → {path : Path} → {block : Block Unit} →
      blockOfFields path fields = .ok (some block) → WellFormedEach block
  | [], _, _, _, hb => by cases hb
  | (key, value) :: rest, h, path, block, hb => by
    rw [blockOfFields.eq_def] at hb
    dsimp only at hb
    split at hb
    · split at hb
      · obtain ⟨list, hl, hs⟩ := Except.map_eq_ok_iff.mp hb
        obtain rfl := Option.some.inj hs
        exact wellFormedEach_of_ofItems h.1 hl
      · cases hb
    · exact wellFormedEach_of_blockOfFields h.2 hb

theorem wellFormedEach_of_ofItems : {items : List Json} → Json.ProperItems items →
    {path : Path} → {place : Nat} → {block : Block Unit} →
      ofItems path place items = .ok block → WellFormedEach block
  | [], _, _, _, _, hb => by cases hb; trivial
  | _ :: _, h, _, _, _, hb => by
    obtain ⟨s, hs, hb⟩ := Except.bind_eq_ok_iff.mp hb
    obtain ⟨rest, hr, hb⟩ := Except.bind_eq_ok_iff.mp hb
    obtain rfl := Except.pure_eq_ok_iff.mp hb
    exact ⟨wellFormed_of_ofJson h.1 hs, wellFormedEach_of_ofItems h.2 hr⟩

end

end Statement

theorem Block.wellFormed_of_ofJson {path : Path} {value : Json} {block : Block Unit}
    (h : value.Proper) (hb : Block.ofJson path value = .ok block) :
    Statement.WellFormedEach block := by
  cases value with
  | array items => exact Statement.wellFormedEach_of_ofItems h hb
  | _ => cases hb

theorem Variable.proper_of_ofJson {path : Path} {value : Json} {v : Variable} (h : value.Proper)
    (hv : Variable.ofJson path value = .ok v) : v.value.Proper := by
  obtain ⟨fields, hf, ht⟩ := Except.bind_eq_ok_iff.mp hv
  obtain rfl := Json.fields_eq_ok hf
  obtain ⟨type, -, hr⟩ := Except.bind_eq_ok_iff.mp ht
  obtain rfl := Except.pure_eq_ok_iff.mp hr
  exact h.2.valueOr "value"

namespace Table

variable {α : Type} {P : α → Prop} {read : Path → Json → Except Malformed α}

/-- If what is read of values that satisfy `Q` satisfies `P`, so do all values of a table read from
fields with such values. -/
theorem forall_of_ofFields {Q : Json → Prop}
    (hread : ∀ path value a, Q value → read path value = .ok a → P a)
    {path : Path} {fields : List (String × Json)} {table new : Table String α}
    (hf : ∀ field ∈ fields, Q field.2) (ht : ∀ a ∈ table.values, P a)
    (h : ofFields read path fields table = .ok new) : ∀ a ∈ new.values, P a := by
  induction fields generalizing table with
  | nil => cases h; exact ht
  | cons field rest ih =>
    rw [List.forall_mem_cons] at hf
    obtain ⟨a, ha, hr⟩ := Except.bind_eq_ok_iff.mp h
    refine ih hf.2 (fun b hb => ?_) hr
    rcases mem_values_insert hb with rfl | old
    · exact hread _ _ _ hf.1 ha
    · exact ht b old

theorem forall_of_ofJson (hread : ∀ path value a, value.Proper → read path value = .ok a → P a)
    {path : Path} {value : Json} {table : Table String α} (hv : value.Proper)
    (h : ofJson read path value = .ok table) : ∀ a ∈ table.values, P a := by
  obtain ⟨fields, hf, hr⟩ := Except.bind_eq_ok_iff.mp h
  obtain rfl := Json.fields_eq_ok hf
  exact forall_of_ofFields hread (Json.properFields_iff.mp hv.2) (by simp) hr

end Table

namespace Draft

theorem forall_of_tableOfField {α : Type} {P : α → Prop} {read : Path → Json → Except Malformed α}
    (hread : ∀ path value a, value.Proper → read path value = .ok a → P a) {path : Path}
    {fields : List (String × Json)} {key : String} {table : Table String α}
    (hf : Json.ProperFields fields) (h : tableOfField read path fields key = .ok table) :
    ∀ a ∈ table.values, P a := by
  unfold tableOfField at h
  split at h
  · rename_i value hv
    exact Table.forall_of_ofJson hread (hf.lookup hv) h
  · cases h; simp

theorem wellFormed_of_headerOfFields {fields : List (String × Json)}
    {vars : Table String Variable} {procedures : Table String (Block Unit)}
    (hf : Json.ProperFields fields) (h : headerOfFields fields = .ok (vars, procedures)) :
    (∀ v ∈ vars.values, v.value.Proper) ∧
      ∀ body ∈ procedures.values, Statement.WellFormedEach body := by
  unfold headerOfFields at h
  split at h
  · rename_i header hheader
    obtain ⟨inner, hi, hr⟩ := Except.bind_eq_ok_iff.mp h
    obtain rfl := Json.fields_eq_ok hi
    have hinner : Json.ProperFields inner := (hf.lookup hheader).2
    obtain ⟨_, hv, hr⟩ := Except.bind_eq_ok_iff.mp hr
    obtain ⟨_, hp, hr⟩ := Except.bind_eq_ok_iff.mp hr
    obtain ⟨rfl, rfl⟩ := Prod.mk.inj (Except.pure_eq_ok_iff.mp hr)
    exact ⟨forall_of_tableOfField (fun _ _ _ => Variable.proper_of_ofJson) hinner hv,
      forall_of_tableOfField (fun _ _ _ => Block.wellFormed_of_ofJson) hinner hp⟩
  · cases h
    simp

theorem wellFormed_of_ofJson {document : Json} {d : Draft} (h : document.Proper)
    (hd : ofJson document = .ok d) : d.WellFormed := by
  obtain ⟨fields, hf, hr⟩ := Except.bind_eq_ok_iff.mp hd
  obtain rfl := Json.fields_eq_ok hf
  obtain ⟨⟨vars, procedures⟩, hh, hr⟩ := Except.bind_eq_ok_iff.mp hr
  obtain ⟨hv, hp⟩ := wellFormed_of_headerOfFields h.2 hh
  dsimp only at hr
  split at hr
  · rename_i block hblock
    obtain ⟨b, hb, hr⟩ := Except.bind_eq_ok_iff.mp hr
    obtain rfl := Except.pure_eq_ok_iff.mp hr
    exact ⟨hv, hp, Block.wellFormed_of_ofJson (h.2.lookup hblock) hb⟩
  · cases hr

theorem ofText_eq_ok_iff {α : Type} {read : Json → Except Malformed α} {text : String} {a : α} :
    ofText read text = .ok a ↔
      ∃ document, Json.read text = .ok document ∧ read document = .ok a := by
  rw [ofText]
  constructor
  · intro h
    split at h
    · rename_i document hdocument
      cases hd : read document with
      | ok a' =>
        rw [hd] at h
        exact ⟨document, hdocument, hd.trans (congrArg _ (Except.ok.inj h))⟩
      | error e => rw [hd] at h; cases h
    · cases h
  · rintro ⟨document, hdocument, hd⟩
    rw [hdocument]
    show (read document).mapError ImportError.malformed = _
    rw [hd]
    rfl

theorem wellFormed_of_read {text : String} {d : Draft} (h : read text = .ok d) : d.WellFormed := by
  obtain ⟨document, hdocument, hd⟩ := ofText_eq_ok_iff.mp h
  exact wellFormed_of_ofJson (Json.proper_of_read hdocument) hd

theorem proper_headerPart {document : Json} (h : document.Proper) :
    (headerPart document).2.Proper := by
  unfold headerPart
  split
  · split
    · rename_i header hheader
      exact h.2.lookup hheader
    · exact h
  · exact h

theorem wellFormed_of_readProcedures {text : String} {procedures : Table String (Block Unit)}
    (h : readProcedures text = .ok procedures) :
    ∀ body ∈ procedures.values, Statement.WellFormedEach body := by
  obtain ⟨document, hdocument, hd⟩ := ofText_eq_ok_iff.mp h
  have hproper := proper_headerPart (Json.proper_of_read hdocument)
  cases hpart : headerPart document with
  | mk path header =>
    rw [hpart] at hproper
    rw [proceduresOfJson, hpart] at hd
    obtain ⟨fields, hf, hr⟩ := Except.bind_eq_ok_iff.mp hd
    obtain rfl := Json.fields_eq_ok hf
    split at hr
    · rename_i value hvalue
      exact Table.forall_of_ofJson (fun _ _ _ => Block.wellFormed_of_ofJson)
        (hproper.2.lookup hvalue) hr
    · cases hr

end Draft

/-! ### New statements -/

theorem Descriptor.wellFormed_instantiate (d : Descriptor) (id : String) :
    (d.instantiate id).WellFormed := by
  have hhead : ∀ a ∈ (if d.shape.hasArguments then
      some (d.arguments.map fun spec => (Argument.unset spec.type : Argument Unit))
      else none).getD [], a.WellFormed := by
    split
    · simp
    · simp
  rw [instantiate]
  split
  · exact ⟨hhead, trivial⟩
  · exact hhead

end BlockScript
