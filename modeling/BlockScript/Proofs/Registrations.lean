import BlockScript.Proofs.Forgetting

/-! Nothing stays registered that the program no longer has. The language knows as variables of a
user exactly those of the program, each with its type, and as procedures only those of the program,
whatever has been added, removed, replaced or refused before. -/

namespace BlockScript

namespace Session

variable {operation : Operation} {s t : Session}

/-- The language knows exactly the variables of the program as those of a user. -/
def Tallies (s : Session) : Prop :=
  ∀ name type, s.language.knownVariable? name = some ⟨type, .user⟩ ↔
    listed s.program name = some ⟨type, .user⟩

theorem listed_eq_some_iff {p : Program} {name : String} {type : ValueType} :
    listed p name = some ⟨type, .user⟩ ↔ ∃ v, p.variables.get? name = some v ∧ v.type = type := by
  simp [listed, Option.map_eq_some_iff]

theorem Tallies.knows (h : s.Tallies) : s.Knows := by
  intro name present
  obtain ⟨known, hknown⟩ := exists_listed present
  obtain ⟨v, -, rfl⟩ := Option.map_eq_some_iff.mp hknown
  rw [hknown]
  exact (h name v.type).mpr hknown

/-- A user variable of the old program that the new one lacks is no longer known, so a known one
that the new program does not list would have been unlisted before. -/
theorem Follows.tallies (h : s.Follows t) (hs : s.Tallies) : t.Tallies := by
  intro name type
  rw [h.known]
  cases hlisted : listed t.program name with
  | some known => rw [Option.some_or]
  | none =>
    rw [Option.none_or]
    constructor
    · intro hknown
      split at hknown
      · cases hknown
      · rename_i absent
        have hold := (hs name type).mp hknown
        rw [listed_eq_none_iff.mpr absent] at hold
        cases hold
    · intro hknown
      cases hknown

theorem tallies_new {base : Language} (pristine : base.Pristine) :
    Tallies { language := base } := by
  intro name type
  constructor
  · intro hknown
    exact absurd ⟨type, hknown⟩ (pristine.variables name)
  · intro hlisted
    cases hlisted

theorem tallies_start {base : Language} (pristine : base.Pristine) (program : Program) :
    (start base program).Tallies :=
  (follows_start base program).tallies (tallies_new pristine)

theorem tallies_after {operations : List Operation} (h : s.Tallies)
    (ordinary : ∀ operation ∈ operations, operation.Ordinary) : (s.after operations).Tallies :=
  preserved_after ordinary (fun _ _ _ _ hc hs => (Follows.change hs.knows hc).tallies hs)
    (fun _ hs => ((Follows.refl hs.knows).congr rfl rfl).tallies hs) h

theorem settle_eq_of_refused {ε : Type} {answer : Except ε Session}
    (h : (s.settle answer).1 = .refused) : s.settle answer = (.refused, s) := by
  cases answer with
  | error => rfl
  | ok => cases h

/-- In a session on the language of some devices, after any ordinary operations, the variables that
the language knows as those of a user are the variables of the program with their types, and every
procedure that it knows is one of the program. Where procedures are refused step by step, the
language comes back to what it was. -/
theorem registrations_after (devices : List Device) (program : Program)
    {operations : List Operation} (ordinary : ∀ operation ∈ operations, operation.Ordinary) :
    let s := (start (.build devices) program).after operations
    (∀ name type, s.language.knownVariable? name = some ⟨type, .user⟩ ↔
      ∃ v, s.program.variables.get? name = some v ∧ v.type = type) ∧
    (∀ id, s.language.isProcedure id = true → id ∈ s.program.procedures.keys) ∧
    (∀ (ι : Type) id label icon colors (body : Block ι),
      (s.registerInPlace id label icon colors body).1 = .refused →
        s.registerInPlace id label icon colors body = (.refused, s)) ∧
    ∀ text, (s.importInPlace text).1 = .refused → s.importInPlace text = (.refused, s) := by
  intro s
  have pristine : (Language.build devices).Pristine := Language.pristine_build devices
  have hs : s.Serves (.build devices) := serves_after pristine program ordinary
  have htallies : s.Tallies := tallies_after (tallies_start pristine program) ordinary
  refine ⟨fun name type => ?_, fun id registered => ?_, ?_, fun text refused => ?_⟩
  · rw [htallies, listed_eq_some_iff]
  · exact ((hs.isProcedure_iff pristine).mp registered).1
  · intro ι id label icon colors body refused
    rw [registerInPlace_eq] at refused ⊢
    exact settle_eq_of_refused refused
  · rw [importInPlace_eq] at refused ⊢
    exact settle_eq_of_refused refused

/-- A procedure is removed, another one goes with the program that a document replaces, and a
variable that takes the name of an attribute is removed: none of them is known any more. -/
theorem registrations_after_import :
    let lamp : Device := { name := "lamp", attributes := [⟨"on", .boolean⟩] }
    let text := "\x7b\"header\":\x7b\"userProcedures\":\x7b\"nod\":[]\x7d\x7d,\"block\":[]\x7d"
    let operations : List Operation :=
      [.addVariable "lamp.on" .number (.number (.integer 1)),
        .registerProcedure "blink" "Blink" none [] ([] : Block Unit),
        .registerProcedure "wink" "Wink" none [] ([] : Block Unit), .unregisterProcedure "blink",
        .removeVariable "lamp.on",
        .importDocument text]
    let s := (start (.build [lamp])).after operations
    s.program.procedures.keys = ["nod"] ∧ ¬ s.language.isProcedure "blink" = true ∧
      ¬ s.language.isProcedure "wink" = true ∧
      ∀ type, s.language.knownVariable? "lamp.on" ≠ some ⟨type, .user⟩ := by
  intro lamp text operations s
  have ordinary : ∀ operation ∈ operations, operation.Ordinary := by
    simp [operations, Operation.Ordinary]
  obtain ⟨hvariables, hprocedures, -⟩ := registrations_after [lamp] {} ordinary
  have hkeys : s.program.procedures.keys = ["nod"] := by decide
  have hgone : ∀ id, id ≠ "nod" → ¬ s.language.isProcedure id = true := by
    intro id hne registered
    have hid : id ∈ s.program.procedures.keys := hprocedures id registered
    rw [hkeys] at hid
    exact hne (List.mem_singleton.mp hid)
  refine ⟨hkeys, hgone _ (by decide), hgone _ (by decide), fun type hknown => ?_⟩
  obtain ⟨v, hv, -⟩ := (hvariables "lamp.on" type).mp hknown
  have hnone : s.program.variables.get? "lamp.on" = none := by decide
  cases hnone.symm.trans hv

end Session

end BlockScript
