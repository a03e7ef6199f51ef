import BlockScript.Proofs.Changes
import BlockScript.Proofs.Nesting

/-! Which exports are taken in again. The text of a program is read back exactly if no more
containers are nested in it than a reader keeps open. Nothing that is done in a session sees to
that, and a document that is itself read can be written as one that is not. -/

namespace BlockScript

variable {n : Nat}

/-! ### Nesting of programs -/

namespace Program

theorem toJson_ofDraft (d : Draft) (next : Nat) : (ofDraft d next).toJson = d.toJson := by
  rw [← toJson_content, content_ofDraft]
  simp [Draft.toJson, Draft.plain, Table.mapValues, Block.toJson, Function.comp_def]

theorem fits_toJson {p : Program} : p.toJson.Fits (n + 3) ↔
    (∀ v ∈ p.variables.values, v.toJson.Fits n) ∧
      (∀ body ∈ p.procedures.values, body.toJson.Fits n) ∧ p.block.toJson.Fits (n + 2) := by
  have hbodies : (∀ body ∈ p.content.procedures.values, body.toJson.Fits n) ↔
      ∀ body ∈ p.procedures.values, body.toJson.Fits n := by
    simp [content, Table.forall_values_mapValues, Table.forall_values, Block.toJson]
  have hblock : p.content.block.toJson = p.block.toJson := by simp [content, Block.toJson]
  rw [← toJson_content, Draft.fits_toJson, hbodies, hblock]
  rfl

theorem fits_putProcedure {p : Program} {body : Block Unit} (h : p.toJson.Fits (n + 3))
    (hb : body.toJson.Fits n) (id : String) : (p.putProcedure id body).toJson.Fits (n + 3) := by
  obtain ⟨hv, hp, hroot⟩ := fits_toJson.mp h
  refine fits_toJson.mpr ⟨hv, fun other hm => ?_, hroot⟩
  rcases Table.mem_values_insert hm with rfl | old
  · have hstamp : Block.toJson (Statement.stampEach p.next body) = body.toJson := by
      rw [Block.toJson, ← Statement.toItems_plainEach, Statement.plainEach_stampEach,
        Statement.toItems_plainEach, Block.toJson]
    rwa [hstamp]
  · exact hp other old

end Program

/-! ### Sessions -/

namespace Session

variable {s t : Session} {text : String} {document : Json}

/-- What any session makes of the text of a program. -/
theorem importDocument_exportDocument (t : Session) (wf : s.program.WellFormed)
    (legible : s.program.toJson.Legible) : t.importDocument s.exportDocument =
      if s.program.toJson.depth ≤ Json.maxNesting then
        .ok (t.replace (.ofDraft s.program.content t.program.next))
      else .error (.json .invalid) := by
  have hread : Json.read s.exportDocument = _ :=
    Json.read_pretty (Program.proper_toJson wf) legible
  split
  · rename_i room
    rw [if_pos room] at hread
    exact importDocument_toJson wf hread t
  · rename_i full
    rw [if_neg full] at hread
    rw [importDocument, Draft.read, Draft.ofText, hread]
    rfl

/-- Any session takes in the text of the program, and has its content then. -/
def Reimportable (s : Session) : Prop :=
  ∀ t : Session, ∃ u, t.importDocument s.exportDocument = .ok u ∧
    u.program.content = s.program.content

theorem reimportable_of_fits (wf : s.program.WellFormed)
    (fits : s.program.toJson.Fits Json.maxNesting) : s.Reimportable := fun t =>
  ⟨_, (importDocument_exportDocument t wf fits.legible).trans (if_pos fits.depth),
    content_replace ..⟩

theorem reimportable_iff (wf : s.program.WellFormed) (legible : s.program.toJson.Legible) :
    s.Reimportable ↔ s.program.toJson.depth ≤ Json.maxNesting := by
  constructor
  · intro h
    by_contra full
    obtain ⟨u, himport, -⟩ := h s
    rw [importDocument_exportDocument s wf legible, if_neg full] at himport
    cases himport
  · exact fun room => reimportable_of_fits wf ⟨room, legible⟩

theorem fits_of_importDocument (hread : Json.read text = .ok document) (fits : document.Fits n)
    (done : s.importDocument text = .ok t) : t.program.toJson.Fits (max 3 (n + 1)) := by
  obtain ⟨draft, hdraft, done⟩ := Except.bind_eq_ok_iff.mp done
  obtain rfl := Except.pure_eq_ok_iff.mp done
  obtain ⟨document', hread', hd⟩ := Draft.ofText_eq_ok_iff.mp hdraft
  obtain rfl := Except.ok.inj (hread.symm.trans hread')
  rw [replace_eq, toJson_refresh, take, Program.toJson_ofDraft]
  exact Draft.fits_of_ofJson fits hd

theorem fits_putProcedures {entries : List (String × Block Unit)}
    (h : s.program.toJson.Fits (n + 3))
    (bodies : ∀ entry ∈ entries, entry.2.toJson.Fits n) :
    (s.putProcedures entries).program.toJson.Fits (n + 3) := by
  induction entries generalizing s with
  | nil => exact h
  | cons entry rest ih =>
    rw [List.forall_mem_cons] at bodies
    have first : (s.putProcedure entry.1 entry.1 none [] entry.2).program.toJson.Fits (n + 3) :=
      Program.fits_putProcedure h bodies.1 entry.1
    exact ih first bodies.2

theorem fits_of_importProcedures (hread : Json.read text = .ok document)
    (fits : document.Fits (n + 1)) (h : s.program.toJson.Fits (n + 3))
    (done : s.importProcedures text = .ok t) : t.program.toJson.Fits (n + 3) := by
  obtain ⟨procedures, hprocedures, done⟩ := Except.bind_eq_ok_iff.mp done
  obtain ⟨document', hread', hd⟩ := Draft.ofText_eq_ok_iff.mp hprocedures
  obtain rfl := Except.ok.inj (hread.symm.trans hread')
  split at done
  · obtain rfl := Except.pure_eq_ok_iff.mp done
    rw [toJson_refresh]
    exact fits_putProcedures h (Table.forall_values.mp (Draft.fits_of_proceduresOfJson fits hd))
  · cases done

/-- After regular operations, the text of the program can be taken in again exactly if no more
containers are nested in it than a reader keeps open; any session refuses it else. It can be taken
in at least after a document with one container less has been read, and after procedures with two
containers less have been added to a program that could be read. -/
theorem reimport_exact (language : Language) {program : Program} (wf : program.WellFormed)
    {operations : List Operation} (regular : ∀ operation ∈ operations, operation.Regular) :
    let s := (start language program).after operations
    (s.program.toJson.Legible →
      (s.Reimportable ↔ s.program.toJson.depth ≤ Json.maxNesting) ∧
      (Json.maxNesting < s.program.toJson.depth →
        ∀ t : Session, t.importDocument s.exportDocument = .error (.json .invalid))) ∧
    ∀ text document, Json.read text = .ok document → document.Legible →
      (document.depth < Json.maxNesting →
        ∀ t, s.importDocument text = .ok t → t.Reimportable) ∧
      (document.depth + 1 < Json.maxNesting → s.program.toJson.Fits Json.maxNesting →
        ∀ t, s.importProcedures text = .ok t → t.Reimportable) := by
  intro s
  have hs : s.program.WellFormed := wellFormed_after regular (Program.wellFormed_mark _ _ wf)
  refine ⟨fun legible => ⟨reimportable_iff hs legible, fun full t => ?_⟩,
    fun text document hread legible => ⟨fun room t done => ?_, fun room fits t done => ?_⟩⟩
  · rw [importDocument_exportDocument t hs legible, if_neg (Nat.not_le.mpr full)]
  · have ht : t.program.WellFormed := by
      have hrun : ((Operation.importDocument text).run s).2.program.WellFormed :=
        wellFormed_run trivial hs
      rwa [Operation.run, done] at hrun
    have hdocument : document.Fits 126 := ⟨Nat.le_of_lt_succ room, legible⟩
    exact reimportable_of_fits ht (fits_of_importDocument hread hdocument done)
  · have ht : t.program.WellFormed := by
      have hrun : ((Operation.importProcedures text).run s).2.program.WellFormed :=
        wellFormed_run trivial hs
      rwa [Operation.run, done] at hrun
    have hdocument : document.Fits 125 :=
      ⟨Nat.le_of_lt_succ (Nat.lt_of_succ_lt_succ room), legible⟩
    exact reimportable_of_fits ht (fits_of_importProcedures hread hdocument fits done)

/-- A statement with a condition is added, and one inside it; the text is taken in by the same
session. -/
theorem reimport_exact_condition :
    let operations : List Operation := [.add .root "if", .add (.inside 0) "while"]
    let s := (start (.build [])).after operations
    s.program.nodes.map Statement.tag = [0, 1] ∧ s.program.toJson.depth = 8 ∧
      ∃ t, s.importDocument s.exportDocument = .ok t ∧ t.program.content = s.program.content := by
  intro operations s
  have regular : ∀ operation ∈ operations, operation.Regular := by
    simp [operations, Operation.Regular]
  have empty : ({} : Program).WellFormed := (Program.Initial.new 0).wellFormed
  obtain ⟨hexport, -⟩ := reimport_exact (.build []) empty regular
  obtain ⟨hexact, -⟩ := hexport (by decide +kernel)
  exact ⟨by decide, by decide +kernel, hexact.mpr (by decide +kernel) s⟩

end Session

/-! ### A document that is read and cannot be written so that it is read again -/

namespace Json

/-- Statements nested in each other, each with the same argument. -/
def ladder (argument : Json) : Nat → List Json
  | 0 => []
  | n + 1 =>
    [.object [("id", .string "if"), ("arguments", .array [argument]),
      ("block", .array (ladder argument n))]]

variable {argument : Json}

theorem depthItems_ladder_succ (n : Nat) : depthItems (ladder argument (n + 1)) =
    max argument.depth (depthItems (ladder argument n)) + 2 := by
  simp only [ladder, depthItems, depth, depthFields]
  omega

theorem depthItems_ladder (nested : 0 < argument.depth) (n : Nat) :
    depthItems (ladder argument (n + 1)) = 2 * n + argument.depth + 2 := by
  induction n with
  | zero =>
    rw [depthItems_ladder_succ, ladder, depthItems]
    omega
  | succ n ih =>
    rw [depthItems_ladder_succ, ih]
    omega

theorem properItems_ladder (h : argument.Proper) (n : Nat) : ProperItems (ladder argument n) := by
  induction n with
  | zero => trivial
  | succ n ih => simp [ladder, ProperItems, ProperFields, h, ih]

theorem legibleItems_ladder (h : argument.Legible) (n : Nat) :
    LegibleItems (ladder argument n) := by
  induction n with
  | zero => trivial
  | succ n ih => exact ⟨⟨trivial, ⟨h, trivial⟩, ih, trivial⟩, trivial⟩

end Json

/-- Statements nested in each other, each with an empty condition. -/
def Statement.ladder : Nat → Block Unit
  | 0 => []
  | n + 1 =>
    [.compound { id := "if", tag := (), arguments := some [.unset .booleanExpression] } (ladder n)]

/-- A condition without a value, and one that is written with its value. -/
def bareCondition : Json := .object [("type", .string "boolean_expression")]

def emptyCondition : Json :=
  .object [("type", .string "boolean_expression"), ("value", .array [])]

theorem Statement.ofItems_ladder (path : Path) (place n : Nat) :
    ofItems path place (Json.ladder bareCondition n) = .ok (ladder n) := by
  induction n generalizing path place with
  | zero => rfl
  | succ n ih =>
    let inner := path ++ [.index place]
    let fields : List (String × Json) := [("id", .string "if"),
      ("arguments", .array [bareCondition]), ("block", .array (Json.ladder bareCondition n))]
    have harguments :
        Argument.ofFields inner fields = .ok (some [.unset .booleanExpression]) := rfl
    have hblock : blockOfFields inner fields = .ok (some (ladder n)) := by
      simp [fields, blockOfFields, ih]
    have hfirst : ofJson inner (.object fields) = .ok (.compound
        { id := "if", tag := (), arguments := some [.unset .booleanExpression] } (ladder n)) := by
      have hid : fields.lookup "id" = some (.string "if") := rfl
      rw [ofJson, hid]
      simp only [harguments, hblock, Except.ok_bind]
      rfl
    rw [Json.ladder, ofItems, hfirst]
    rfl

theorem Statement.toItems_ladder (n : Nat) :
    toItems (ladder n) = Json.ladder emptyCondition n := by
  induction n with
  | zero => rfl
  | succ n ih =>
    rw [ladder, toItems, toJson, ih]
    rfl

namespace Draft

def ladder (n : Nat) : Draft := ⟨∅, ∅, Statement.ladder n⟩

theorem ofJson_ladder (n : Nat) :
    ofJson (.object [("block", .array (Json.ladder bareCondition n))]) = .ok (ladder n) := by
  have hblock : Block.ofJson [.key "block"] (.array (Json.ladder bareCondition n)) =
      .ok (Statement.ladder n) := Statement.ofItems_ladder ..
  show (do return ⟨∅, ∅, ← Block.ofJson _ _⟩ : Except Malformed Draft) = _
  rw [hblock]
  rfl

theorem toJson_ladder (n : Nat) : (ladder n).toJson = .object [
    ("header", .object [("userVariables", .object []), ("userProcedures", .object [])]),
    ("block", .array (Json.ladder emptyCondition n))] := by
  rw [← Statement.toItems_ladder]
  rfl

end Draft

/-- A document of 127 nested containers is taken in, and what is exported then is refused. -/
theorem Session.export_refused :
    let document : Json := .object [("block", .array (Json.ladder bareCondition 62))]
    document.depth = 127 ∧ ∃ t, (start (.build [])).importDocument document.pretty = .ok t ∧
      t.importDocument t.exportDocument = .error (.json .invalid) := by
  intro document
  have hdepth : document.depth = 127 := by
    have hladder : Json.depthItems (Json.ladder bareCondition 62) = 125 :=
      Json.depthItems_ladder (by decide) 61
    simp [document, Json.depth, Json.depthFields, hladder]
  have hread : Json.read document.pretty = .ok document := by
    have hproper : bareCondition.Proper := ⟨by decide, trivial, trivial⟩
    have hpretty := Json.read_pretty (v := document)
      ⟨by decide, Json.properItems_ladder hproper 62, trivial⟩
      ⟨Json.legibleItems_ladder (by decide) 62, trivial⟩
    exact hpretty.trans (if_pos hdepth.le)
  have hdraft : Draft.read document.pretty = .ok (.ladder 62) :=
    Draft.ofText_eq_ok_iff.mpr ⟨document, hread, Draft.ofJson_ladder 62⟩
  let loaded : Program := .ofDraft (.ladder 62) (start (.build [])).program.next
  let t := (start (.build [])).replace loaded
  have hdone : (start (.build [])).importDocument document.pretty = .ok t := by
    rw [importDocument, hdraft]
    rfl
  have hjson : t.program.toJson = (Draft.ladder 62).toJson :=
    (toJson_refresh ((start (.build [])).take loaded)).trans (Program.toJson_ofDraft _ _)
  rw [Draft.toJson_ladder] at hjson
  have hfull : t.program.toJson.depth = 128 := by
    have hladder : Json.depthItems (Json.ladder emptyCondition 62) = 126 :=
      Json.depthItems_ladder (by decide) 61
    simp [hjson, Json.depth, Json.depthFields, hladder]
  have wf : t.program.WellFormed :=
    Program.wellFormed_mark _ _ (Program.wellFormed_ofDraft (Draft.wellFormed_of_read hdraft) _)
  have legible : t.program.toJson.Legible := by
    rw [hjson]
    exact ⟨⟨trivial, trivial, trivial⟩, Json.legibleItems_ladder (by decide) 62, trivial⟩
  refine ⟨hdepth, t, hdone, ?_⟩
  rw [importDocument_exportDocument t wf legible, hfull]
  rfl

end BlockScript
