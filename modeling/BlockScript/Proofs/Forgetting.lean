import BlockScript.Proofs.Callable

/-! What a language remembers of earlier programs. Procedures go without a trace. A variable takes
its name also from a device, and does not give it back: once the name has been that of a variable of
the program, the language knows it only as long as such a variable is there. -/

namespace BlockScript

namespace Session

variable {base : Language} {operation : Operation} {s t : Session}

/-- What a language says of a variable of the program. -/
def listed (p : Program) (name : String) : Option KnownVariable :=
  (p.variables.get? name).map fun v => ⟨v.type, .user⟩

/-- The language knows the variables of the program as those of a user. -/
def Knows (s : Session) : Prop :=
  ∀ name ∈ s.program.variables.keys, s.language.knownVariable? name = listed s.program name

theorem listed_eq_none_iff {p : Program} {name : String} :
    listed p name = none ↔ name ∉ p.variables.keys := by
  rw [listed, Option.map_eq_none_iff, Table.get?_eq_none_iff]

theorem exists_listed {p : Program} {name : String} (present : name ∈ p.variables.keys) :
    ∃ v, listed p name = some v := by
  rw [← Option.ne_none_iff_exists', ne_eq, listed_eq_none_iff]
  exact not_not_intro present

theorem Knows.isUserVariable (h : s.Knows) {name : String}
    (present : name ∈ s.program.variables.keys) : s.language.IsUserVariable name := by
  obtain ⟨known, hknown⟩ := exists_listed present
  obtain ⟨v, -, rfl⟩ := Option.map_eq_some_iff.mp hknown
  exact ⟨v.type, (h name present).trans hknown⟩

/-- What the language says of a name after the program has been changed: first what the new program
says, then what the language has said, unless that was about a variable of the old program. -/
structure Follows (s t : Session) : Prop where
  known : ∀ name, t.language.knownVariable? name = (listed t.program name).or
    (if name ∈ s.program.variables.keys then none else s.language.knownVariable? name)

namespace Follows

theorem knows (h : s.Follows t) : t.Knows := by
  intro name present
  obtain ⟨v, hv⟩ := exists_listed present
  rw [h.known, hv, Option.some_or]

theorem refl (h : s.Knows) : s.Follows s where
  known name := by
    by_cases present : name ∈ s.program.variables.keys
    · rw [if_pos present, Option.or_none]
      exact h name present
    · rw [if_neg present, listed_eq_none_iff.mpr present, Option.none_or]

theorem congr (h : s.Follows t) {u : Session}
    (language : u.language.variables = t.language.variables)
    (program : u.program.variables = t.program.variables) : s.Follows u where
  known name := by
    have hlisted : listed u.program name = listed t.program name := by
      rw [listed, program, listed]
    rw [Language.knownVariable?, language, hlisted]
    exact h.known name

theorem addVariable (h : s.Knows) {name : String} {type : ValueType} {value : Json}
    {program : Program} (done : s.program.addVariable name type value = .ok program) :
    s.Follows { s with program, language := s.language.registerVariable name type } where
  known k := by
    rw [Program.addVariable_eq done]
    show (s.language.registerVariable name type).knownVariable? k = _
    rw [Language.knownVariable?_registerVariable, listed]
    show _ = (((s.program.variables.insert name ⟨type, value⟩).get? k).map _).or _
    rw [Table.get?_insert]
    by_cases same : k = name
    · rw [if_pos same, if_pos same]
      rfl
    · rw [if_neg same, if_neg same]
      exact (refl h).known k

theorem removeVariable (h : s.Knows) {name : String} (present : name ∈ s.program.variables.keys) :
    s.Follows { s with
      program := s.program.removeVariable name
      language := s.language.unregisterVariable name } where
  known k := by
    show (s.language.unregisterVariable name).knownVariable? k =
      (((s.program.variables.erase name).get? k).map _).or _
    rw [Language.unregisterVariable_of_user (h.isUserVariable present), Table.get?_erase]
    by_cases same : k = name
    · rw [if_pos same, if_pos same, if_pos (same ▸ present)]
      rfl
    · rw [if_neg same, if_neg same]
      exact (refl h).known k

theorem take (h : s.Knows) (program : Program) : s.Follows (s.take program) where
  known name := by
    show ((s.language.forget s.program).learn program).knownVariable? name = _
    rw [Language.knownVariable?_learn, Language.knownVariable?_forget]
    have hgone : name ∈ s.program.variables.keys ∧ s.language.IsUserVariable name ↔
        name ∈ s.program.variables.keys :=
      ⟨And.left, fun present => ⟨present, h.isUserVariable present⟩⟩
    by_cases present : name ∈ s.program.variables.keys
    · rw [if_pos (hgone.mpr present), if_pos present]
      rfl
    · rw [if_neg (mt hgone.mp present), if_neg present]
      rfl

theorem change (h : s.Knows) (hc : Change operation s t) : s.Follows t := by
  cases hc with
  | rearrange _ rearranges _ done =>
    exact (refl h).congr rfl (Program.header_of_rearranges rearranges done).1
  | addVariable _ done => exact addVariable h done
  | removeVariable present => exact removeVariable h present
  | putProcedures puts =>
    induction puts with
    | refl => exact refl h
    | tail _ put ih =>
      cases put
      exact ih.congr rfl rfl
  | removeProcedure id =>
    exact (refl h).congr (Language.variables_unregisterProcedure ..)
      (Program.variables_removeProcedure ..)
  | load => exact take h _

theorem run (h : s.Knows) (ordinary : operation.Ordinary) : s.Follows (operation.run s).2 := by
  rcases leads_run s ordinary with same | ⟨t, hc, same⟩
  · rw [same]
    exact refl h
  · rw [same]
    exact (change h hc).congr rfl rfl

end Follows

theorem follows_start (base : Language) (program : Program) :
    Follows { language := base } (start base program) := by
  have hnew : Knows { language := base } := by
    intro name present
    cases present
  exact (Follows.take hnew program).congr rfl rfl

theorem knownVariable?_start (base : Language) (program : Program) (name : String) :
    (start base program).language.knownVariable? name =
      (listed program name).or (base.knownVariable? name) :=
  (follows_start base program).known name

theorem knownVariable?_replace (h : s.Knows) (next : Program) (name : String) :
    (s.replace next).language.knownVariable? name = (listed next name).or
      (if name ∈ s.program.variables.keys then none else s.language.knownVariable? name) :=
  (Follows.take h next).known name

theorem knows_start (base : Language) (program : Program) : (start base program).Knows :=
  (follows_start base program).knows

theorem knows_after {operations : List Operation} (h : s.Knows)
    (ordinary : ∀ operation ∈ operations, operation.Ordinary) : (s.after operations).Knows :=
  preserved_after ordinary (fun _ _ _ _ hc hs => (Follows.change hs hc).knows)
    (fun _ hs => ((Follows.refl hs).congr rfl rfl).knows) h

/-! ### Names that have been used -/

/-- At some time, from the session on to its state after the operations, there has been a variable
of that name. -/
def Used (s : Session) (operations : List Operation) (name : String) : Prop :=
  ∃ earlier, earlier <+: operations ∧ name ∈ (s.after earlier).program.variables.keys

theorem used_nil {name : String} : s.Used [] name ↔ name ∈ s.program.variables.keys := by
  constructor
  · rintro ⟨earlier, hprefix, present⟩
    rwa [List.prefix_nil.mp hprefix] at present
  · intro present
    exact ⟨[], List.prefix_rfl, present⟩

theorem used_cons {operations : List Operation} {name : String} :
    s.Used (operation :: operations) name ↔
      name ∈ s.program.variables.keys ∨ (operation.run s).2.Used operations name := by
  constructor
  · rintro ⟨earlier, hprefix, present⟩
    cases earlier with
    | nil => exact .inl present
    | cons first rest =>
      obtain ⟨rfl, hrest⟩ := List.cons_prefix_cons.mp hprefix
      exact .inr ⟨rest, hrest, present⟩
  · rintro (present | ⟨earlier, hprefix, present⟩)
    · exact ⟨[], List.nil_prefix, present⟩
    · exact ⟨operation :: earlier, List.cons_prefix_cons.mpr ⟨rfl, hprefix⟩, present⟩

/-- A name that has been used is known by the variable of the program alone, any other as it was. -/
theorem knownVariable?_after {operations : List Operation} (h : s.Knows)
    (ordinary : ∀ operation ∈ operations, operation.Ordinary) (name : String) :
    let t := s.after operations
    (s.Used operations name → t.language.knownVariable? name = listed t.program name) ∧
      (¬ s.Used operations name →
        t.language.knownVariable? name = s.language.knownVariable? name) := by
  induction operations generalizing s with
  | nil =>
    constructor
    · intro used
      exact h name (used_nil.mp used)
    · intro
      rfl
  | cons operation rest ih =>
    rw [List.forall_mem_cons] at ordinary
    have hfirst : s.Follows (operation.run s).2 := .run h ordinary.1
    obtain ⟨hused, hunused⟩ := ih hfirst.knows ordinary.2
    rw [used_cons]
    by_cases later : (operation.run s).2.Used rest name
    · exact ⟨fun _ => hused later, fun unused => absurd (.inr later) unused⟩
    · have habsent : listed (operation.run s).2.program name = none :=
        listed_eq_none_iff.mpr fun present => later ⟨[], List.nil_prefix, present⟩
      have hend : listed ((operation.run s).2.after rest).program name = none :=
        listed_eq_none_iff.mpr fun present => later ⟨rest, List.prefix_rfl, present⟩
      have hknown := (hunused later).trans (hfirst.known name)
      rw [habsent, Option.none_or] at hknown
      constructor
      · rintro (present | used)
        · rw [if_pos present] at hknown
          exact hknown.trans hend.symm
        · exact absurd used later
      · intro unused
        rwa [if_neg fun present => unused (.inl present)] at hknown

/-! ### What is forgotten -/

/-- A variable that comes and goes takes with it what the language has said of its name, and that
only. -/
theorem knownVariable?_addVariable_removeVariable {name : String} {type : ValueType} {value : Json}
    (done : s.addVariable name type value = .ok t) (k : String) :
    (t.removeVariable name).language.knownVariable? k =
      if k = name then none else s.language.knownVariable? k := by
  obtain ⟨program, hp, ht⟩ := Except.bind_eq_ok_iff.mp done
  obtain rfl := Except.pure_eq_ok_iff.mp ht
  obtain rfl := Program.addVariable_eq hp
  have present : (s.program.variables.insert name ⟨type, value⟩).contains name = true := by
    rw [Table.contains, Table.get?_insert_self]
    rfl
  rw [removeVariable, refresh, Program.mark, if_pos present]
  show ((s.language.registerVariable name type).unregisterVariable name).knownVariable? k = _
  have user : (s.language.registerVariable name type).IsUserVariable name :=
    ⟨type, by rw [Language.knownVariable?_registerVariable, if_pos rfl]⟩
  rw [Language.unregisterVariable_of_user user, Language.knownVariable?_registerVariable]
  split <;> rfl

/-- In a session on the language of some devices, after any ordinary operations:
* Another program gives the statements that it would give in a new session.
* It gives the variables that it would give in a new session, but for those of devices whose name
  has been that of a variable of a user and is not one of the new program.
* A variable that is added and removed leaves its name unknown and all other names as they were.
* A name that is not one of the program's variables is known as that of the devices, unless it has
  been that of a variable of a user; then it is unknown. -/
theorem forgetting_exact (devices : List Device) (program : Program) {operations : List Operation}
    (ordinary : ∀ operation ∈ operations, operation.Ordinary) :
    let base := Language.build devices
    let s := (start base program).after operations
    (∀ next id, (s.replace next).language.statement? id =
      (start base next).language.statement? id) ∧
    (∀ next name, (s.replace next).language.knownVariable? name =
        (start base next).language.knownVariable? name ↔
      name ∈ next.variables.keys ∨ base.knownVariable? name = none ∨
        ¬ (start base program).Used operations name) ∧
    (∀ name type value t, s.addVariable name type value = .ok t → ∀ k,
      (t.removeVariable name).language.knownVariable? k =
        if k = name then none else s.language.knownVariable? k) ∧
    ∀ name, name ∉ s.program.variables.keys →
      ((start base program).Used operations name → s.language.knownVariable? name = none) ∧
      (¬ (start base program).Used operations name →
        s.language.knownVariable? name = base.knownVariable? name) := by
  intro base s
  have pristine : base.Pristine := Language.pristine_build devices
  have hs : s.Serves base := serves_after pristine program ordinary
  have hknows : s.Knows := knows_after (knows_start base program) ordinary
  have hused : ∀ name, (start base program).Used operations name →
      s.language.knownVariable? name = listed s.program name := fun name =>
    (knownVariable?_after (knows_start base program) ordinary name).1
  have hunused : ∀ name, ¬ (start base program).Used operations name →
      name ∉ s.program.variables.keys ∧
        s.language.knownVariable? name = base.knownVariable? name := by
    intro name unused
    have hstart : name ∉ program.variables.keys := fun present =>
      unused ⟨[], List.nil_prefix, present⟩
    have hkept := (knownVariable?_after (knows_start base program) ordinary name).2 unused
    rw [knownVariable?_start, listed_eq_none_iff.mpr hstart, Option.none_or] at hkept
    exact ⟨fun present => unused ⟨operations, List.prefix_rfl, present⟩, hkept⟩
  refine ⟨fun next id => ?_, fun next name => ?_, ?_, fun name absent => ⟨fun used => ?_, ?_⟩⟩
  · show (s.take next).language.statement? id =
      (take { language := base } next).language.statement? id
    rw [hs.statement?_take pristine, (Serves.new base).statement?_take pristine]
  · rw [knownVariable?_replace hknows, knownVariable?_start]
    by_cases present : name ∈ next.variables.keys
    · obtain ⟨v, hv⟩ := exists_listed present
      simp [hv, present]
    · rw [listed_eq_none_iff.mpr present, Option.none_or, Option.none_or]
      by_cases used : (start base program).Used operations name
      · -- nothing is left of the name, whether it still is that of a variable or not
        have hnone : (if name ∈ s.program.variables.keys then none
            else s.language.knownVariable? name) = none := by
          split
          · rfl
          · rename_i absent
            exact (hused name used).trans (listed_eq_none_iff.mpr absent)
        rw [hnone]
        simp [present, used, eq_comm]
      · obtain ⟨absent, hkept⟩ := hunused name used
        rw [if_neg absent, hkept]
        simp [used]
  · intro name type value t done k
    exact knownVariable?_addVariable_removeVariable done k
  · exact (hused name used).trans (listed_eq_none_iff.mpr absent)
  · intro unused
    exact (hunused name unused).2

/-- A variable takes the name of an attribute of a device, which does not come back; the other
attribute stays. -/
theorem forgetting_exact_lamp :
    let lamp : Device := { name := "lamp", attributes := [⟨"on", .boolean⟩, ⟨"level", .number⟩] }
    let operations : List Operation :=
      [.addVariable "lamp.on" .number (.number (.integer 1)), .removeVariable "lamp.on"]
    let s := (start (.build [lamp])).after operations
    s.language.knownVariable? "lamp.on" = none ∧
      s.language.knownVariable? "lamp.level" = some ⟨.number, .device "lamp"⟩ ∧
      ∀ id, (s.replace {}).language.statement? id =
        (start (.build [lamp])).language.statement? id := by
  intro lamp operations s
  have ordinary : ∀ operation ∈ operations, operation.Ordinary := by
    simp [operations, Operation.Ordinary]
  obtain ⟨hstatement, -, -, hknown⟩ := forgetting_exact [lamp] {} ordinary
  have used : (start (.build [lamp])).Used operations "lamp.on" :=
    used_cons.mpr (.inr (used_cons.mpr (.inl (by decide))))
  have unused : ¬ (start (.build [lamp])).Used operations "lamp.level" := by
    simp only [operations, used_cons, used_nil]
    decide
  exact ⟨(hknown "lamp.on" (by decide)).1 used, (hknown "lamp.level" (by decide)).2 unused,
    hstatement {}⟩

/-- A user variable that takes the name of an attribute of a device takes it away for good: neither
its removal nor another program brings the attribute back. -/
theorem device_variable_lost :
    let lamp : Device := { name := "lamp", attributes := [⟨"on", .boolean⟩] }
    let s := start (.build [lamp])
    ∃ t, s.addVariable "lamp.on" .number (.number (.integer 1)) = .ok t ∧
      s.language.knownVariable? "lamp.on" = some ⟨.boolean, .device "lamp"⟩ ∧
      (t.removeVariable "lamp.on").program.variables.keys = [] ∧
      (t.removeVariable "lamp.on").language.knownVariable? "lamp.on" = none ∧
      (t.replace {}).language.knownVariable? "lamp.on" = none := by
  intro lamp s
  exact ⟨_, rfl, by decide, by decide, by decide, by decide⟩

end Session

end BlockScript
