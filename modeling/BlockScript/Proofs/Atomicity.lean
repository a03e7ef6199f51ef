import BlockScript.Proofs.Changes

/-! Registering procedures is all or nothing. A procedure is put into the language and into the
program, and a document brings several of them, one after the other. Whether that will go through is
told before the first step, from the names alone, whatever a free edit has put into the program; so
either all entries are added to both tables, or the session stays as it is. -/

namespace BlockScript

open Statement

variable {ι : Type}

namespace Session

/-- The name of a procedure, and its body without tags and flags. -/
def bare (entry : String × Block ι) : String × Block Unit := (entry.1, plainEach entry.2)

/-- The second session is the first one with entries added at the end of both tables, in their
order: a descriptor of each name in the language, and a copy of each body in the program. -/
structure Adds (s : Session) (descriptor : String → Descriptor) (entries : List (String × Block ι))
    (t : Session) : Prop where
  language : ∃ statements, t.language = { s.language with statements } ∧
    statements.entries = s.language.statements.entries ++
      entries.map fun entry => (entry.1, descriptor entry.1)
  program : ∃ procedures next copies, t.program = { s.program with procedures, next } ∧
    procedures.entries = s.program.procedures.entries ++ copies ∧
      copies.map bare = entries.map bare

/-- The entries are added, the program is analyzed, and its statements are flagged; nothing else is
done. -/
def Gains (s : Session) (descriptor : String → Descriptor) (entries : List (String × Block ι))
    (t : Session) : Prop :=
  ∃ added, s.Adds descriptor entries added ∧ t.language = added.language ∧
    t.program = added.program.mark t.analysis ∧ t.analysis = t.language.analyze t.program

variable {s t u : Session} {descriptor : String → Descriptor}
  {entries entries' : List (String × Block ι)} {id : String} {body : Block ι}

/-! ### Names -/

theorem isTaken_iff : s.isTaken id = true ↔
    id ∈ s.program.procedures.keys ∨ id ∈ s.language.statements.keys := by
  rw [isTaken, Bool.or_eq_true, Table.contains_iff, Table.contains_iff]

theorem isTaken_eq_false_iff : s.isTaken id = false ↔
    id ∉ s.program.procedures.keys ∧ id ∉ s.language.statements.keys := by
  rw [← Bool.not_eq_true, isTaken_iff, not_or]

/-! ### What is added -/

theorem Adds.refl (s : Session) (descriptor : String → Descriptor) :
    s.Adds descriptor ([] : List (String × Block ι)) s where
  language := ⟨_, rfl, by simp⟩
  program := ⟨_, _, [], rfl, by simp, rfl⟩

theorem Adds.trans (h : s.Adds descriptor entries t) (h' : t.Adds descriptor entries' u) :
    s.Adds descriptor (entries ++ entries') u := by
  obtain ⟨statements, hlanguage, hstatements⟩ := h.language
  obtain ⟨statements', hlanguage', hstatements'⟩ := h'.language
  obtain ⟨procedures, next, copies, hprogram, hprocedures, hcopies⟩ := h.program
  obtain ⟨procedures', next', copies', hprogram', hprocedures', hcopies'⟩ := h'.program
  refine ⟨⟨statements', ?_, ?_⟩, ⟨procedures', next', copies ++ copies', ?_, ?_, ?_⟩⟩
  · rw [hlanguage', hlanguage]
  · rw [hstatements', hlanguage, hstatements, List.map_append, List.append_assoc]
  · rw [hprogram', hprogram]
  · rw [hprocedures', hprogram, hprocedures, List.append_assoc]
  · rw [List.map_append, List.map_append, hcopies, hcopies']

/-- A procedure with a free name is added at the end of both tables. -/
theorem adds_putProcedure (free : s.isTaken id = false) {label : String} {icon : Option String}
    {colors : List String}
    (describes : descriptor id = Language.procedureDescriptor label icon colors)
    (body : Block ι) :
    s.Adds descriptor [(id, body)] (s.putProcedure id label icon colors body) := by
  obtain ⟨hprogram, hlanguage⟩ := isTaken_eq_false_iff.mp free
  refine ⟨⟨_, rfl, ?_⟩, ⟨_, _, _, rfl, Table.entries_insert_of_not_mem _ hprogram, ?_⟩⟩
  · rw [List.map_singleton, describes]
    exact Table.entries_insert_of_not_mem _ hlanguage
  · rw [List.map_singleton, List.map_singleton, bare, bare, plainEach_stampEach]

/-- The descriptor of the procedures of a document. -/
def plainDescriptor (id : String) : Descriptor := Language.procedureDescriptor id none []

/-- Names that are distinct and free stay free while others of them are taken. -/
theorem free_of_putProcedure (distinct : (((id, body) :: entries).map Prod.fst).Nodup)
    (free : ∀ k ∈ ((id, body) :: entries).map Prod.fst, s.isTaken k = false) :
    ∀ k ∈ entries.map Prod.fst, (s.putProcedure id id none [] body).isTaken k = false := by
  intro k hk
  rw [List.map_cons, List.nodup_cons] at distinct
  have hne : k ≠ id := fun e => distinct.1 (e ▸ hk)
  rw [isTaken_putProcedure hne]
  exact free k (List.mem_cons_of_mem _ hk)

theorem adds_putProcedures (distinct : (entries.map Prod.fst).Nodup)
    (free : ∀ id ∈ entries.map Prod.fst, s.isTaken id = false) :
    s.Adds plainDescriptor entries (s.putProcedures entries) := by
  induction entries generalizing s with
  | nil => exact .refl s _
  | cons entry rest ih =>
    have hfirst : s.Adds plainDescriptor [(entry.1, entry.2)]
        (s.putProcedure entry.1 entry.1 none [] entry.2) :=
      adds_putProcedure (free entry.1 (by simp)) rfl entry.2
    exact hfirst.trans (ih distinct.of_cons (free_of_putProcedure distinct free))

theorem Adds.gains (h : s.Adds descriptor entries t) : s.Gains descriptor entries t.refresh :=
  ⟨t, h, rfl, rfl, (current_refresh t).analysis⟩

/-- What the program has under the name of an added procedure is a copy of its body. -/
theorem Gains.get? (h : s.Gains descriptor entries t) {entry : String × Block ι}
    (he : entry ∈ entries) : ∃ body, t.program.procedures.get? entry.1 = some body ∧
      plainEach body = plainEach entry.2 := by
  obtain ⟨added, hadds, -, hprogram, -⟩ := h
  obtain ⟨procedures, next, copies, hadded, hprocedures, hcopies⟩ := hadds.program
  obtain ⟨copy, hcopy, hbare⟩ := List.mem_map.mp (hcopies ▸ List.mem_map_of_mem he)
  obtain ⟨hname, hcontent⟩ := Prod.mk.inj hbare
  have hmem : (entry.1, copy.2) ∈ procedures.entries := by
    rw [hprocedures, ← hname]
    exact List.mem_append_right _ hcopy
  refine ⟨markEach t.analysis.errors.contains copy.2, ?_, ?_⟩
  · rw [hprogram, Program.procedures_mark, markBodies, Table.get?_mapValues, hadded, Table.get?,
      Entries.lookup_of_mem procedures.nodup hmem, Option.map_some]
  · rw [plainEach_markEach, hcontent]

/-! ### Documents -/

theorem readProcedures_ne_duplicate {text : String} {taken : List String} :
    Draft.readProcedures text ≠ .error (.duplicateProcedures taken) := by
  intro h
  rw [Draft.readProcedures, Draft.ofText] at h
  split at h
  · rename_i document _
    cases hread : Draft.proceduresOfJson document with
    | error | ok =>
      rw [hread] at h
      cases h
  · cases h

/-- The procedures of a document whose names are taken, in its order. -/
def collisions (s : Session) (procedures : Table String (Block Unit)) : List String :=
  procedures.keys.filter fun id =>
    id ∈ s.program.procedures.keys ∨ id ∈ s.language.statements.keys

theorem filter_isTaken (s : Session) (procedures : Table String (Block Unit)) :
    procedures.keys.filter s.isTaken = s.collisions procedures :=
  List.filter_congr fun _ _ => Bool.eq_iff_iff.mpr (isTaken_iff.trans decide_eq_true_iff.symm)

section Import

variable {text : String} {procedures : Table String (Block Unit)}

theorem importProcedures_of_unread {fault : ImportError}
    (h : Draft.readProcedures text = .error fault) : s.importProcedures text = .error fault := by
  rw [importProcedures, h]
  rfl

theorem importProcedures_of_taken (h : Draft.readProcedures text = .ok procedures)
    (taken : s.collisions procedures ≠ []) :
    s.importProcedures text = .error (.duplicateProcedures (s.collisions procedures)) := by
  rw [importProcedures, h]
  simp only [bind, Except.bind, filter_isTaken]

theorem importProcedures_of_free (h : Draft.readProcedures text = .ok procedures)
    (free : s.collisions procedures = []) :
    s.importProcedures text = .ok (s.putProcedures procedures.entries).refresh := by
  rw [importProcedures, h]
  simp only [bind, Except.bind, filter_isTaken, free]
  rfl

/-- Collisions are the one error besides those of reading. -/
theorem importProcedures_eq_duplicate_iff {taken : List String} :
    s.importProcedures text = .error (.duplicateProcedures taken) ↔
      ∃ procedures, Draft.readProcedures text = .ok procedures ∧
        s.collisions procedures ≠ [] ∧ taken = s.collisions procedures := by
  cases h : Draft.readProcedures text with
  | error fault =>
    rw [importProcedures_of_unread h]
    constructor
    · intro e
      exact absurd (h.trans (congrArg Except.error (Except.error.inj e)))
        readProcedures_ne_duplicate
    · rintro ⟨_, e, -⟩
      cases e
  | ok procedures =>
    by_cases free : s.collisions procedures = []
    · rw [importProcedures_of_free h free]
      constructor
      · intro e
        cases e
      · rintro ⟨_, e, hne, -⟩
        exact absurd (Except.ok.inj e ▸ free) hne
    · rw [importProcedures_of_taken h free]
      constructor
      · intro e
        have hsame := ImportError.duplicateProcedures.inj (Except.error.inj e)
        exact ⟨procedures, rfl, free, hsame.symm⟩
      · rintro ⟨_, e, -, rfl⟩
        rw [Except.ok.inj e]

theorem free_of_collisions (free : s.collisions procedures = []) :
    ∀ id ∈ procedures.entries.map Prod.fst, s.isTaken id = false := by
  intro id hid
  rw [← filter_isTaken, List.filter_eq_nil_iff] at free
  exact Bool.not_eq_true _ ▸ free id hid

end Import

/-! ### The merge never stops early -/

/-- The two steps that put a procedure with a free name in place. -/
theorem steps_of_free (free : s.isTaken id = false) (body : Block ι) :
    (∃ language, s.language.registerProcedure id id = .ok language) ∧
      ∃ program, s.program.addProcedure id body = .ok program := by
  obtain ⟨hprogram, hlanguage⟩ := Bool.or_eq_false_iff.mp free
  exact ⟨⟨_, by rw [Language.registerProcedure, hlanguage]; rfl⟩,
    ⟨_, by rw [Program.addProcedure, hprogram]; rfl⟩⟩

/-- The merge comes to every entry, with all entries before it in place, and can take its steps. -/
theorem mergeInPlace_reaches {before after : List (String × Block ι)}
    (distinct : ((before ++ (id, body) :: after).map Prod.fst).Nodup)
    (free : ∀ k ∈ (before ++ (id, body) :: after).map Prod.fst, s.isTaken k = false) :
    let reached := s.putProcedures before
    s.mergeInPlace (before ++ (id, body) :: after) = reached.mergeInPlace ((id, body) :: after) ∧
      (∃ language, reached.language.registerProcedure id id = .ok language) ∧
      ∃ program, reached.program.addProcedure id body = .ok program := by
  induction before generalizing s with
  | nil => exact ⟨rfl, steps_of_free (free id (by simp)) body⟩
  | cons entry rest ih =>
    obtain ⟨k, first⟩ := entry
    have hk : s.isTaken k = false := free k (by simp)
    obtain ⟨hprogram, hlanguage⟩ := Bool.or_eq_false_iff.mp hk
    have hstep : s.mergeInPlace ((k, first) :: (rest ++ (id, body) :: after)) =
        (s.putProcedure k k none [] first).mergeInPlace (rest ++ (id, body) :: after) := by
      rw [mergeInPlace, Language.registerProcedure, Program.addProcedure, hlanguage, hprogram]
      rfl
    obtain ⟨hreached, hsteps⟩ := ih distinct.of_cons (free_of_putProcedure distinct free)
    exact ⟨hstep.trans hreached, hsteps⟩

/-- Registering procedures is all or nothing, in any session. Carried out step by step, it answers
an error with the session as it was, or all entries are added to the language and to the program in
their order. Procedures of a document that can be read are refused exactly if names are taken, and
the error lists these in the order of the document. A single procedure is refused exactly if its
name is taken. Where no name is taken, the merge never stops on its way. -/
theorem procedures_all_or_none (s : Session) :
    (∀ text,
      s.importInPlace text = s.settle (s.importProcedures text) ∧
      (∀ fault, Draft.readProcedures text = .error fault →
        s.importProcedures text = .error fault) ∧
      (∀ taken, s.importProcedures text = .error (.duplicateProcedures taken) ↔
        ∃ procedures, Draft.readProcedures text = .ok procedures ∧
          s.collisions procedures ≠ [] ∧ taken = s.collisions procedures) ∧
      ∀ procedures, Draft.readProcedures text = .ok procedures → s.collisions procedures = [] →
        (∃ t, s.importProcedures text = .ok t ∧
          s.Gains plainDescriptor procedures.entries t ∧
          ∀ entry ∈ procedures.entries, ∃ body,
            t.program.procedures.get? entry.1 = some body ∧ sameEach body entry.2 = true) ∧
        ∀ before id body after, procedures.entries = before ++ (id, body) :: after →
          let reached := s.putProcedures before
          s.mergeInPlace procedures.entries = reached.mergeInPlace ((id, body) :: after) ∧
          (∃ language, reached.language.registerProcedure id id = .ok language) ∧
          ∃ program, reached.program.addProcedure id body = .ok program) ∧
    ∀ (ι : Type) id label icon colors (body : Block ι),
      s.registerInPlace id label icon colors body =
        s.settle (s.registerProcedure id label icon colors body) ∧
      (∀ fault, s.registerProcedure id label icon colors body = .error fault ↔
        fault = ⟨id⟩ ∧ (id ∈ s.program.procedures.keys ∨ id ∈ s.language.statements.keys)) ∧
      ∀ t, s.registerProcedure id label icon colors body = .ok t →
        s.Gains (fun _ => Language.procedureDescriptor label icon colors) [(id, body)] t := by
  refine ⟨fun text => ⟨importInPlace_eq s text, fun _ => importProcedures_of_unread,
    fun _ => importProcedures_eq_duplicate_iff, fun procedures hread free => ?_⟩,
    fun ι id label icon colors body => ⟨registerInPlace_eq s id label icon colors body, ?_⟩⟩
  · have hfree := free_of_collisions free
    have hgains := (adds_putProcedures procedures.nodup hfree).gains
    refine ⟨⟨_, importProcedures_of_free hread free, hgains, fun entry he => ?_⟩, ?_⟩
    · obtain ⟨body, hbody, hcontent⟩ := hgains.get? he
      have wf : WellFormedEach entry.2 :=
        Table.forall_values.mp (Draft.wellFormed_of_readProcedures hread) entry he
      refine ⟨body, hbody, sameEach_of_plainEach_eq ?_ hcontent⟩
      rwa [← wellFormedEach_plainEach, hcontent, wellFormedEach_plainEach]
    · intro before id body after hsplit
      have distinct := procedures.nodup
      rw [hsplit] at distinct hfree ⊢
      exact mergeInPlace_reaches distinct hfree
  · rw [registerProcedure]
    by_cases taken : s.isTaken id = true
    · rw [if_pos taken]
      constructor
      · intro fault
        rw [Except.error.injEq, eq_comm, ← isTaken_iff]
        exact (and_iff_left taken).symm
      · intro t e
        cases e
    · rw [if_neg taken]
      constructor
      · intro fault
        refine iff_of_false (fun e => ?_) fun h => taken (isTaken_iff.mpr h.2)
        cases e
      · intro t e
        obtain rfl := Except.ok.inj e
        exact (adds_putProcedure (Bool.eq_false_iff.mpr taken) rfl body).gains

/-- A free edit has put `warm` into the program, and the language does not know of it. -/
theorem procedures_all_or_none_warm :
    let s := ((start (.build [])).edit fun p => ((), p.putProcedure "warm" ([] : Block Unit))).2
    let taken := "\x7b\"userProcedures\":\x7b\"nod\":[],\"warm\":[],\"if\":[]\x7d\x7d"
    let free := "\x7b\"userProcedures\":\x7b\"nod\":[],\"wink\":[]\x7d\x7d"
    s.language.statement? "warm" = none ∧
      s.registerInPlace "warm" "Warm" none [] ([] : Block Unit) = (.refused, s) ∧
      s.importProcedures taken = .error (.duplicateProcedures ["warm", "if"]) ∧
      s.importInPlace taken = (.refused, s) ∧
      ∃ procedures t, Draft.readProcedures free = .ok procedures ∧
        s.importInPlace free = (.done, t) ∧ s.Gains plainDescriptor procedures.entries t ∧
        procedures.keys = ["nod", "wink"] := by
  intro s taken free
  obtain ⟨himport, hregister⟩ := procedures_all_or_none s
  have hread : ∀ text keys, (Draft.readProcedures text).toOption.map Table.keys = some keys →
      ∃ procedures, Draft.readProcedures text = .ok procedures ∧ procedures.keys = keys := by
    intro text keys h
    cases hp : Draft.readProcedures text with
    | error => simp [hp, Except.toOption] at h
    | ok procedures => exact ⟨procedures, rfl, by simpa [hp, Except.toOption] using h⟩
  refine ⟨by decide, ?_, ?_⟩
  · obtain ⟨hplace, hiff, -⟩ := hregister Unit "warm" "Warm" none [] []
    rw [hplace, (hiff ⟨"warm"⟩).mpr ⟨rfl, .inl (by decide)⟩]
    rfl
  · obtain ⟨procedures, hprocedures, hkeys⟩ := hread taken ["nod", "warm", "if"] (by decide)
    have hcollisions : s.collisions procedures = ["warm", "if"] := by
      rw [collisions, hkeys]
      decide
    obtain ⟨hplace, -, hduplicate, -⟩ := himport taken
    have hrefused := (hduplicate ["warm", "if"]).mpr
      ⟨procedures, hprocedures, by simp [hcollisions], hcollisions.symm⟩
    refine ⟨hrefused, by rw [hplace, hrefused]; rfl, ?_⟩
    obtain ⟨procedures, hprocedures, hkeys⟩ := hread free ["nod", "wink"] (by decide)
    have hcollisions : s.collisions procedures = [] := by
      rw [collisions, hkeys]
      decide
    obtain ⟨hplace, -, -, hfree⟩ := himport free
    obtain ⟨⟨t, ht, hgains, -⟩, -⟩ := hfree procedures hprocedures hcollisions
    exact ⟨procedures, t, hprocedures, by rw [hplace, ht]; rfl, hgains, hkeys⟩

end Session

end BlockScript
