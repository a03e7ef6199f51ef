import BlockScript.Proofs.Changes

/-! Which procedures of a program can be called. A procedure is callable unless its name is that of
a statement that the language was built with; such a name is refused wherever single procedures come
in, but a whole program may bring it along, and then the statement keeps its meaning. -/

namespace BlockScript

namespace Session

variable {base : Language} {operation : Operation} {s t : Session} {id : String}

/-- The language of a session says of the names of `base` what `base` says, and knows of all other
names exactly those of the program's procedures. -/
structure Serves (base : Language) (s : Session) : Prop where
  builtin : ∀ id d, base.statement? id = some d → s.language.statement? id = some d
  stored : ∀ id ∈ s.program.procedures.keys, base.statement? id = none →
    ∃ label icon colors,
      s.language.statement? id = some (Language.procedureDescriptor label icon colors)
  unknown : ∀ id, id ∉ s.program.procedures.keys → base.statement? id = none →
    s.language.statement? id = none

namespace Serves

theorem isTaken (h : s.Serves base) (present : base.statement? id ≠ none) :
    s.isTaken id = true := by
  obtain ⟨d, hd⟩ := Option.ne_none_iff_exists'.mp present
  have hlanguage : s.language.statements.contains id = true := by
    rw [Table.contains, ← Language.statement?, h.builtin id d hd]
    rfl
  rw [Session.isTaken, hlanguage, Bool.or_true]

/-- Neither names of procedures nor statements matter but by look-up. -/
theorem congr (h : s.Serves base)
    (language : ∀ id, t.language.statement? id = s.language.statement? id)
    (keys : t.program.procedures.keys = s.program.procedures.keys) : t.Serves base := by
  constructor
  · intro id d hd
    rw [language]
    exact h.builtin id d hd
  · intro id hid hnone
    rw [language]
    exact h.stored id (keys ▸ hid) hnone
  · intro id hid hnone
    rw [language]
    exact h.unknown id (keys ▸ hid) hnone

/-- A procedure that the language knows is one of the program. -/
theorem isProcedure_iff (h : s.Serves base) (pristine : base.Pristine) :
    s.language.isProcedure id = true ↔
      id ∈ s.program.procedures.keys ∧ base.statement? id = none := by
  cases hbase : base.statement? id with
  | some d =>
    have hd := pristine.procedures id
    rw [Language.isProcedure_of_statement? hbase] at hd
    rw [Language.isProcedure_of_statement? (h.builtin id d hbase), hd]
    simp
  | none =>
    by_cases hid : id ∈ s.program.procedures.keys
    · obtain ⟨label, icon, colors, hd⟩ := h.stored id hid hbase
      rw [Language.isProcedure_of_statement? hd]
      simp [hid, Language.procedureDescriptor]
    · rw [Language.isProcedure_of_unknown (h.unknown id hid hbase)]
      simp [hid]

theorem not_isProcedure (h : s.Serves base) (pristine : base.Pristine) {d : Descriptor}
    (hd : base.statement? id = some d) : ¬ s.language.isProcedure id = true := by
  intro hp
  have hnone := ((h.isProcedure_iff pristine).mp hp).2
  rw [hd] at hnone
  cases hnone

theorem putProcedure {ι : Type} (h : s.Serves base) (free : s.isTaken id = false) (label : String)
    (icon : Option String) (colors : List String) (body : Block ι) :
    (s.putProcedure id label icon colors body).Serves base := by
  have hlanguage : ∀ k, (s.putProcedure id label icon colors body).language.statement? k =
      if k = id then some (Language.procedureDescriptor label icon colors)
      else s.language.statement? k := fun k =>
    s.language.statement?_define id k _
  have hkeys : ∀ {k}, k ∈ (s.putProcedure id label icon colors body).program.procedures.keys ↔
      k = id ∨ k ∈ s.program.procedures.keys := Table.mem_keys_insert
  constructor
  · intro k d hd
    have hne : k ≠ id := by
      intro same
      subst same
      rw [h.isTaken (by rw [hd]; exact Option.some_ne_none d)] at free
      cases free
    rw [hlanguage, if_neg hne]
    exact h.builtin k d hd
  · intro k hk hnone
    rw [hlanguage]
    by_cases same : k = id
    · exact ⟨label, icon, colors, if_pos same⟩
    · rw [if_neg same]
      exact h.stored k ((hkeys.mp hk).resolve_left same) hnone
  · intro k hk hnone
    rw [hkeys, not_or] at hk
    rw [hlanguage, if_neg hk.1]
    exact h.unknown k hk.2 hnone

theorem puts (h : s.Serves base) (puts : Relation.ReflTransGen (Puts operation) s t) :
    t.Serves base := by
  induction puts with
  | refl => exact h
  | tail _ put ih =>
    obtain ⟨-, free⟩ := put
    exact ih.putProcedure free ..

/-- Only a procedure that can be called leaves the language. -/
theorem removeProcedure (h : s.Serves base) (pristine : base.Pristine) (id : String) :
    Serves base { s with
      language := s.language.unregisterProcedure id
      program := s.program.removeProcedure id } := by
  have hlanguage := s.language.statement?_unregisterProcedure id
  constructor
  · intro k d hd
    rw [hlanguage, if_neg fun gone => h.not_isProcedure pristine hd gone.2]
    exact h.builtin k d hd
  · intro k hk hnone
    obtain ⟨hk, hne⟩ := Program.mem_keys_removeProcedure.mp hk
    rw [hlanguage, if_neg (fun gone => hne gone.1)]
    exact h.stored k hk hnone
  · intro k hk hnone
    rw [hlanguage]
    split
    · rfl
    · rename_i hstays
      apply h.unknown k ?_ hnone
      intro hold
      -- a stored procedure with a free name is registered, so only `id` can be missing
      have hp := (h.isProcedure_iff pristine).mpr ⟨hold, hnone⟩
      have hsame : k = id := by
        by_contra hne
        exact hk (Program.mem_keys_removeProcedure.mpr ⟨hold, hne⟩)
      exact hstays ⟨hsame, hp⟩

theorem statement?_forget (h : s.Serves base) (pristine : base.Pristine) (k : String) :
    (s.language.forget s.program).statement? k = base.statement? k := by
  rw [Language.statement?_forget]
  cases hbase : base.statement? k with
  | some d =>
    rw [if_neg fun gone => h.not_isProcedure pristine hbase gone.2]
    exact h.builtin k d hbase
  | none =>
    split
    · rfl
    · rename_i hstays
      apply h.unknown k ?_ hbase
      intro hold
      exact hstays ⟨hold, (h.isProcedure_iff pristine).mpr ⟨hold, hbase⟩⟩

/-- The procedures of the old program leave the language, and those of the new one take the names
that are free then. -/
theorem statement?_take (h : s.Serves base) (pristine : base.Pristine) (program : Program)
    (k : String) : (s.take program).language.statement? k = (base.statement? k).or
      (if k ∈ program.procedures.keys then some (Language.procedureDescriptor k none [])
      else none) := by
  show ((s.language.forget s.program).learn program).statement? k = _
  rw [Language.statement?_learn, h.statement?_forget pristine]

theorem take (h : s.Serves base) (pristine : base.Pristine) (program : Program) :
    (s.take program).Serves base := by
  have htake := h.statement?_take pristine program
  constructor
  · intro k d hd
    rw [htake, hd, Option.some_or]
  · intro k hk hnone
    rw [htake, hnone, Option.none_or]
    exact ⟨k, none, [], if_pos hk⟩
  · intro k hk hnone
    rw [htake, hnone, Option.none_or]
    exact if_neg hk

theorem change (h : s.Serves base) (pristine : base.Pristine) (hc : Change operation s t) :
    t.Serves base := by
  cases hc with
  | rearrange _ rearranges _ done =>
    exact h.congr (fun _ => rfl) (Program.header_of_rearranges rearranges done).2
  | addVariable _ done =>
    refine h.congr (fun _ => rfl) ?_
    rw [Program.addVariable_eq done]
  | removeVariable =>
    refine h.congr (fun id => ?_) rfl
    rw [Language.statement?, Language.statements_unregisterVariable, Language.statement?]
  | putProcedures puts => exact h.puts puts
  | removeProcedure id => exact h.removeProcedure pristine id
  | load => exact h.take pristine _

theorem refresh (h : s.Serves base) : s.refresh.Serves base :=
  h.congr (fun _ => rfl) (Program.keys_mark ..)

theorem new (base : Language) : Serves base { language := base } where
  builtin _ _ hd := hd
  stored _ hid := nomatch hid
  unknown _ _ hnone := hnone

theorem start (pristine : base.Pristine) (program : Program) :
    (Session.start base program).Serves base :=
  ((new base).take pristine program).refresh

end Serves

theorem serves_after {operations : List Operation} (pristine : base.Pristine) (program : Program)
    (ordinary : ∀ operation ∈ operations, operation.Ordinary) :
    ((start base program).after operations).Serves base :=
  preserved_after ordinary (fun _ _ _ _ hc h => h.change pristine hc) (fun _ h => h.refresh)
    (.start pristine program)

/-- In a session that serves a language, no change but loading a document brings in a procedure
under a name of that language. -/
theorem Change.mem_keys (h : Change operation s t) (hs : s.Serves base)
    (single : ∀ text, operation ≠ .importDocument text) (present : base.statement? id ≠ none)
    (hid : id ∈ t.program.procedures.keys) : id ∈ s.program.procedures.keys := by
  cases h with
  | rearrange _ rearranges _ done =>
    have hkeys := (Program.header_of_rearranges rearranges done).2
    exact hkeys ▸ hid
  | addVariable _ done =>
    rw [Program.addVariable_eq done] at hid
    exact hid
  | removeVariable => exact hid
  | putProcedures puts =>
    induction puts with
    | refl => exact hid
    | tail earlier put ih =>
      obtain ⟨-, free⟩ := put
      rcases Table.mem_keys_insert.mp hid with rfl | hold
      · rw [(hs.puts earlier).isTaken present] at free
        cases free
      · exact ih hold
  | removeProcedure => exact (Program.mem_keys_removeProcedure.mp hid).1
  | load same => exact absurd same (single _)

theorem mem_keys_run (hs : s.Serves base) (pristine : base.Pristine)
    (ordinary : operation.Ordinary) (single : ∀ text, operation ≠ .importDocument text)
    (present : base.statement? id ≠ none)
    (hid : id ∈ (operation.run s).2.program.procedures.keys) :
    id ∈ s.program.procedures.keys := by
  have kept : (operation.run s).2.Serves base ∧
      (id ∈ (operation.run s).2.program.procedures.keys → id ∈ s.program.procedures.keys) := by
    refine (leads_run s ordinary).preserves (P := fun t => t.Serves base ∧
      (id ∈ t.program.procedures.keys → id ∈ s.program.procedures.keys)) ?_ ?_ ⟨hs, fun hm => hm⟩
    · rintro t u hc ⟨ht, back⟩
      exact ⟨ht.change pristine hc, fun hm => back (hc.mem_keys ht single present hm)⟩
    · rintro t ⟨ht, back⟩
      refine ⟨ht.refresh, fun hm => back ?_⟩
      rwa [refresh, Program.keys_mark] at hm
  exact kept.2 hid

/-- After any ordinary operations of a session on the language of some devices: a stored procedure
is registered as such exactly if its name is not one of a base or device statement, and those
statements keep their own descriptors. Single procedures and the procedures of a document are
refused if they have such a name, so that only a whole program can bring it in. -/
theorem callable_after (devices : List Device) (program : Program) {operations : List Operation}
    (ordinary : ∀ operation ∈ operations, operation.Ordinary) :
    let base := Language.build devices
    let s := (start base program).after operations
    (∀ id ∈ s.program.procedures.keys,
      (s.language.isProcedure id = true ↔ base.statement? id = none)) ∧
    ∀ id, base.statement? id ≠ none →
      s.language.statement? id = base.statement? id ∧
      (∀ (ι : Type) label icon colors (body : Block ι),
        s.registerProcedure id label icon colors body = .error ⟨id⟩) ∧
      (∀ text procedures, Draft.readProcedures text = .ok procedures → id ∈ procedures.keys →
        ∃ taken, id ∈ taken ∧ s.importProcedures text = .error (.duplicateProcedures taken)) ∧
      ∀ operation : Operation, operation.Ordinary →
        (∀ text, operation ≠ .importDocument text) →
        id ∈ (operation.run s).2.program.procedures.keys → id ∈ s.program.procedures.keys := by
  intro base s
  have pristine : base.Pristine := Language.pristine_build devices
  have hs : s.Serves base := serves_after pristine program ordinary
  constructor
  · intro id hid
    rw [hs.isProcedure_iff pristine]
    exact ⟨And.right, fun free => ⟨hid, free⟩⟩
  · intro id present
    have htaken : s.isTaken id = true := hs.isTaken present
    refine ⟨?_, ?_, ?_, ?_⟩
    · obtain ⟨d, hd⟩ := Option.ne_none_iff_exists'.mp present
      rw [hd]
      exact hs.builtin id d hd
    · intro ι label icon colors body
      rw [registerProcedure, if_pos htaken]
    · intro text procedures hread hid
      have hmem : id ∈ procedures.keys.filter s.isTaken := List.mem_filter.mpr ⟨hid, htaken⟩
      rw [importProcedures, hread]
      simp only [bind, Except.bind]
      split
      · rename_i hnone
        rw [hnone] at hmem
        cases hmem
      · exact ⟨_, hmem, rfl⟩
    · intro operation hordinary single hid
      exact mem_keys_run hs pristine hordinary single present hid

/-- A program brings in a procedure `if`, which stays out of reach; `blink` can be called. -/
theorem callable_after_blink :
    let program : Program := { procedures := ⟨[("if", [])], by decide⟩ }
    let operations : List Operation :=
      [.registerProcedure "blink" "Blink" none [] ([] : Block Unit), .removeVariable "x"]
    let s := (start (.build []) program).after operations
    s.program.procedures.keys = ["if", "blink"] ∧ s.language.isProcedure "blink" = true ∧
      ¬ s.language.isProcedure "if" = true ∧
      s.registerProcedure "while" "While" none [] ([] : Block Unit) = .error ⟨"while"⟩ := by
  intro program operations s
  have ordinary : ∀ operation ∈ operations, operation.Ordinary := by
    simp [operations, Operation.Ordinary]
  obtain ⟨hstored, hbuiltin⟩ := callable_after [] program ordinary
  have hkeys : s.program.procedures.keys = ["if", "blink"] := by decide
  refine ⟨hkeys, (hstored "blink" ?_).mpr rfl, ?_, (hbuiltin "while" (by decide)).2.1 ..⟩
  · show "blink" ∈ s.program.procedures.keys
    rw [hkeys]
    decide
  · intro registered
    have hif : "if" ∈ s.program.procedures.keys := by
      rw [hkeys]
      decide
    have hnone := (hstored "if" hif).mp registered
    exact absurd hnone (by decide)

/-- A document with a procedure `if` is taken in, and that procedure is not registered. -/
theorem stored_not_callable :
    ∃ t, (start (.build [])).importDocument
        "\x7b\"header\":\x7b\"userProcedures\":\x7b\"if\":[]\x7d\x7d,\"block\":[]\x7d" = .ok t ∧
      "if" ∈ t.program.procedures.keys ∧ t.language.isProcedure "if" = false :=
  ⟨_, rfl, by decide, by decide⟩

end Session

end BlockScript
