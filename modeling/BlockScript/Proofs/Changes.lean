import BlockScript.Proofs.Identity
import BlockScript.Proofs.Registry
import BlockScript.Proofs.Reload
import BlockScript.Proofs.Sessions
import Mathlib.Logic.Relation

/-! What the operations of a session change. All operations but free edits go through a few changes
of the program and of the language with it, and what each of these does is said once here. -/

namespace BlockScript

open Statement

variable {ι : Type}

/-! ### Flags -/

namespace Statement

variable (invalid : ι → Bool)

mutual

theorem plain_mark : (s : Statement ι) → (s.mark invalid).plain = s.plain
  | simple _ => rfl
  | compound _ block => by
    rw [mark, plain, plain, plainEach_markEach block]
    rfl

theorem plainEach_markEach : (block : Block ι) →
    plainEach (markEach invalid block) = plainEach block
  | [] => rfl
  | s :: rest => by rw [markEach, plainEach, plainEach, plain_mark s, plainEach_markEach rest]

end

variable (invalid : Nat → Bool)

mutual

theorem tags_mark : (s : Statement Nat) → (s.mark invalid).tags = s.tags
  | simple _ => rfl
  | compound _ block => by
    rw [mark, tags, tags, tagsEach_markEach block]
    rfl

theorem tagsEach_markEach : (block : Block Nat) →
    tagsEach (markEach invalid block) = tagsEach block
  | [] => rfl
  | s :: rest => by rw [markEach, tagsEach, tagsEach, tags_mark s, tagsEach_markEach rest]

end

end Statement

namespace Program

variable (p : Program) (a : Analysis)

theorem blocks_mark : (p.mark a).blocks = p.blocks.map (markEach a.errors.contains) := by
  rw [blocks, procedures_mark, markBodies, Table.values_mapValues, blocks, List.map_cons, mark,
    Block.mark_eq_markEach]

theorem content_mark : (p.mark a).content = p.content := by
  rw [content, procedures_mark, mark, Block.mark_eq_markEach, plainEach_markEach]
  simp [content, markBodies, Table.mapValues, Function.comp_def, plainEach_markEach]

theorem tags_mark : (p.mark a).tags = p.tags := by
  rw [tags, blocks_mark, List.flatMap_map, tags]
  simp only [tagsEach_markEach]

theorem evolves_mark : p.Evolves (p.mark a) :=
  .of_le rfl fun tag => by rw [tags_mark]

theorem wellFormed_mark (wf : p.WellFormed) : (p.mark a).WellFormed := by
  constructor
  · exact wf.proper
  · rw [blocks_mark, List.forall_mem_map]
    intro block hb
    rw [← wellFormedEach_plainEach, plainEach_markEach, wellFormedEach_plainEach]
    exact wf.blocks block hb

end Program

/-! ### Operations -/

/-- The edits by which sessions rearrange the statements of a program. -/
def Edit.Rearranges : Edit → Prop
  | add .. | insert .. | remove .. | move .. | transfer .. => True
  | _ => False

namespace Program

variable {p q : Program}

/-- Rearranging statements leaves the header as it is, procedure bodies aside. -/
theorem header_of_rearranges {edit : Edit} (rearranges : edit.Rearranges)
    (h : edit.run? p = some q) :
    q.variables = p.variables ∧ q.procedures.keys = p.procedures.keys := by
  have hinsert : ∀ {ι : Type} {place : Address} {index : Nat} {template : Statement ι},
      p.insert place index template = .ok q →
        q.variables = p.variables ∧ q.procedures.keys = p.procedures.keys := by
    intro ι place index template hi
    obtain ⟨block, r, -, -, hr, rfl⟩ := replaced_of_insert hi
    exact ⟨hr.variables, hr.keys⟩
  have hmove : ∀ {place : Address} {source target : Nat}, p.move place source target = .ok q →
      q.variables = p.variables ∧ q.procedures.keys = p.procedures.keys := by
    intro place source target hm
    obtain ⟨block, s, -, -, -, hr⟩ := replaced_of_move hm
    exact ⟨hr.variables, hr.keys⟩
  cases edit with
  | add place template =>
    obtain ⟨index, hi⟩ := insert_of_add (Except.toOption_eq_some_iff.mp h)
    exact hinsert hi
  | insert => exact hinsert (Except.toOption_eq_some_iff.mp h)
  | remove =>
    obtain ⟨⟨removed, r⟩, hremove, rfl⟩ := Option.map_eq_some_iff.mp h
    obtain ⟨block, r, -, -, hr, rfl⟩ := replaced_of_remove (Except.toOption_eq_some_iff.mp hremove)
    exact ⟨hr.variables, hr.keys⟩
  | move => exact hmove (Except.toOption_eq_some_iff.mp h)
  | transfer source sourceIndex target targetIndex =>
    have h := Except.toOption_eq_some_iff.mp h
    by_cases hsame : source = target
    · rw [transfer, if_pos hsame] at h
      exact hmove h
    · obtain ⟨block, moved, r, -, -, hr, rfl⟩ := replaced_of_transfer hsame h
      cases htarget : r.block? target with
      | none =>
        rw [modifyBlock_of_block?_eq_none htarget]
        exact ⟨hr.variables, hr.keys⟩
      | some destination =>
        have hput := replaced_of_modifyBlock htarget (·.insertIdx targetIndex moved)
        exact ⟨hput.variables.trans hr.variables, hput.keys.trans hr.keys⟩
  | _ => exact rearranges.elim

theorem keys_mark (p : Program) (a : Analysis) :
    (p.mark a).procedures.keys = p.procedures.keys :=
  Table.keys_mapValues ..

theorem mem_keys_removeProcedure {id k : String} :
    k ∈ (p.removeProcedure id).procedures.keys ↔ k ∈ p.procedures.keys ∧ k ≠ id := by
  cases h : p.procedures.get? id with
  | none =>
    have hne : k ∈ p.procedures.keys → k ≠ id := fun hk e =>
      Table.get?_eq_none_iff.mp h (e ▸ hk)
    simp only [removeProcedure, h]
    exact ⟨fun hk => ⟨hk, hne hk⟩, And.left⟩
  | some body =>
    simp only [removeProcedure, h]
    exact Table.mem_keys_erase

end Program

namespace Operation

/-- The operations that do not change the program behind the back of the language. -/
def Ordinary : Operation → Prop
  | edit _ => False
  | _ => True

/-- The ordinary operations that take in well-formed parts only. -/
def Regular : Operation → Prop
  | addTemplate _ template => template.WellFormed
  | addVariable _ _ value => value.Proper
  | registerProcedure _ _ _ _ body => WellFormedEach body
  | edit _ => False
  | _ => True

theorem Regular.ordinary {operation : Operation} (h : operation.Regular) :
    operation.Ordinary := by
  cases operation with
  | edit => exact h
  | _ => trivial

end Operation

namespace Session

variable {operation : Operation} {s t : Session}

/-- The session with another program, whose procedures and variables take the place of the old ones
in the language, before the refresh. -/
def take (s : Session) (program : Program) : Session :=
  { s with language := (s.language.forget s.program).learn program, program }

theorem replace_eq (s : Session) (program : Program) :
    s.replace program = (s.take program).refresh := rfl

/-- A procedure comes in under a free name. -/
inductive Puts (operation : Operation) (s : Session) : Session → Prop
  | put {ι : Type} {id label : String} {icon : Option String} {colors : List String}
      {body : Block ι} : (operation.Regular → WellFormedEach body) → s.isTaken id = false →
        Puts operation s (s.putProcedure id label icon colors body)

/-- What an operation may do to a session before it ends in a refresh. -/
inductive Change (operation : Operation) (s : Session) : Session → Prop
  | rearrange (edit : Edit) {program : Program} : edit.Rearranges →
      (operation.Regular → edit.Sound) → edit.run? s.program = some program →
        Change operation s { s with program }
  | addVariable {name : String} {type : ValueType} {value : Json} {program : Program} :
      (operation.Regular → value.Proper) →
      s.program.addVariable name type value = .ok program →
        Change operation s
          { s with program, language := s.language.registerVariable name type }
  | removeVariable {name : String} : name ∈ s.program.variables.keys →
      Change operation s
        { s with
          program := s.program.removeVariable name
          language := s.language.unregisterVariable name }
  | putProcedures {t : Session} : Relation.ReflTransGen (Puts operation) s t →
      Change operation s t
  | removeProcedure (id : String) :
      Change operation s
        { s with
          language := s.language.unregisterProcedure id
          program := s.program.removeProcedure id }
  | load {text : String} {draft : Draft} : operation = .importDocument text →
      Draft.read text = .ok draft →
        Change operation s (s.take (.ofDraft draft s.program.next))

/-- Procedures with distinct and free names come in one after the other. -/
theorem puts_putProcedures {entries : List (String × Block Unit)}
    (sound : operation.Regular → ∀ entry ∈ entries, WellFormedEach entry.2)
    (distinct : (entries.map Prod.fst).Nodup)
    (free : ∀ id ∈ entries.map Prod.fst, s.isTaken id = false) :
    Relation.ReflTransGen (Puts operation) s (s.putProcedures entries) := by
  induction entries generalizing s with
  | nil => exact .refl
  | cons entry rest ih =>
    obtain ⟨id, body⟩ := entry
    rw [List.map_cons, List.nodup_cons] at distinct
    rw [List.map_cons, List.forall_mem_cons] at free
    have first : Puts operation s (s.putProcedure id id none [] body) :=
      .put (fun regular => sound regular _ List.mem_cons_self) free.1
    refine .head first (ih (fun regular entry hm => ?_) distinct.2 fun k hk => ?_)
    · exact sound regular entry (List.mem_cons_of_mem _ hm)
    · have hne : k ≠ id := fun e => distinct.1 (e ▸ hk)
      rw [isTaken_putProcedure hne]
      exact free.2 k hk

/-- The session that an operation leaves: the old one, or a refreshed one after a change. -/
def Leads (operation : Operation) (s u : Session) : Prop :=
  u = s ∨ ∃ t, Change operation s t ∧ u = t.refresh

theorem Leads.change (h : Change operation s t) : Leads operation s t.refresh :=
  .inr ⟨t, h, rfl⟩

/-- An operation that goes through where its first step does. -/
theorem Leads.settle {ε α : Type} {first : Except ε α} {finish : α → Session}
    (h : ∀ a, first = .ok a → Leads operation s (finish a)) :
    Leads operation s (s.settle (do return finish (← first))).2 := by
  cases first with
  | error => exact .inl rfl
  | ok a => exact h a rfl

/-- An ordinary operation makes at most one change. -/
theorem leads_run (s : Session) (ordinary : operation.Ordinary) :
    Leads operation s (operation.run s).2 := by
  cases operation with
  | add place id =>
    rw [Operation.run, add?]
    cases hi : s.language.instantiate? id with
    | none => exact .inl rfl
    | some template =>
      refine .settle fun program h => .change (.rearrange (.add place template) trivial ?_ ?_)
      · intro _
        obtain ⟨d, -, rfl⟩ := Option.map_eq_some_iff.mp hi
        exact d.wellFormed_instantiate id
      · exact Except.toOption_eq_some_iff.mpr h
  | addTemplate place template =>
    refine .settle fun program h => .change (.rearrange (.add place template) trivial id ?_)
    exact Except.toOption_eq_some_iff.mpr h
  | remove place index =>
    rw [Operation.run, remove]
    cases h : s.program.remove place index with
    | error => exact .inl rfl
    | ok answer =>
      refine .change (.rearrange (.remove place index) trivial (fun _ => trivial) ?_)
      rw [Edit.run?, h]
      rfl
  | move place source target =>
    refine .settle fun program h =>
      .change (.rearrange (.move place source target) trivial (fun _ => trivial) ?_)
    exact Except.toOption_eq_some_iff.mpr h
  | transfer source sourceIndex target targetIndex =>
    refine .settle fun program h => .change (.rearrange
      (.transfer source sourceIndex target targetIndex) trivial (fun _ => trivial) ?_)
    exact Except.toOption_eq_some_iff.mpr h
  | addVariable name type value => exact .settle fun program h => .change (.addVariable id h)
  | removeVariable name =>
    rw [Operation.run, removeVariable]
    split
    · rename_i present
      exact .change (.removeVariable (Table.contains_iff.mp present))
    · exact .inl rfl
  | registerProcedure id label icon colors body =>
    rw [Operation.run, registerProcedure]
    cases free : s.isTaken id with
    | true => exact .inl rfl
    | false => exact .change (.putProcedures (.single (.put (fun sound => sound) free)))
  | unregisterProcedure id => exact .change (.removeProcedure id)
  | importDocument text => exact .settle fun draft h => .change (.load rfl h)
  | importProcedures text =>
    rw [Operation.run, importProcedures]
    cases h : Draft.readProcedures text with
    | error => exact .inl rfl
    | ok procedures =>
      simp only [bind, Except.bind]
      split
      · rename_i free
        refine .change (.putProcedures (puts_putProcedures (fun _ => ?_) procedures.nodup ?_))
        · exact Table.forall_values.mp (Draft.wellFormed_of_readProcedures h)
        · intro id hid
          simpa using List.filter_eq_nil_iff.mp free id hid
      · exact .inl rfl
  | edit change => exact ordinary.elim

/-- What every change and every refresh keeps, every ordinary operation keeps. -/
theorem Leads.preserves {P : Session → Prop} {u : Session} (h : Leads operation s u)
    (change : ∀ s t, Change operation s t → P s → P t) (refresh : ∀ s, P s → P s.refresh)
    (hs : P s) : P u := by
  rcases h with rfl | ⟨t, changed, rfl⟩
  · exact hs
  · exact refresh t (change s t changed hs)

/-- What every change and every refresh keeps holds after any ordinary operations. -/
theorem preserved_after {P : Session → Prop} {operations : List Operation}
    (ordinary : ∀ operation ∈ operations, operation.Ordinary)
    (change : ∀ operation ∈ operations, ∀ s t, Change operation s t → P s → P t)
    (refresh : ∀ s, P s → P s.refresh) (hs : P s) : P (s.after operations) := by
  induction operations generalizing s with
  | nil => exact hs
  | cons operation rest ih =>
    rw [List.forall_mem_cons] at ordinary change
    have hfirst := (leads_run s ordinary.1).preserves change.1 refresh hs
    exact ih ordinary.2 change.2 hfirst

/-! ### Programs -/

/-- One edit of a program, sound if the operation that makes it is regular. -/
def Edited (operation : Operation) (p q : Program) : Prop :=
  ∃ edit : Edit, (operation.Regular → edit.Sound) ∧ edit.run? p = some q

theorem Puts.edited (h : Puts operation s t) : Edited operation s.program t.program := by
  cases h with
  | @put _ id _ _ _ body sound free =>
    refine ⟨.addProcedure id body, sound, ?_⟩
    have habsent : s.program.procedures.contains id = false := (Bool.or_eq_false_iff.mp free).1
    rw [Edit.run?, Program.addProcedure, habsent]
    rfl

/-- A change goes through edits of the program, or puts that of a document in its place. -/
theorem Change.edits (h : Change operation s t) :
    Relation.ReflTransGen (Edited operation) s.program t.program ∨
      ∃ text draft, Draft.read text = .ok draft ∧ t.program = .ofDraft draft s.program.next := by
  cases h with
  | rearrange edit _ sound done => exact .inl (.single ⟨edit, sound, done⟩)
  | @addVariable name type value _ sound done =>
    exact .inl (.single ⟨.addVariable name type value, sound,
      Except.toOption_eq_some_iff.mpr done⟩)
  | @removeVariable name => exact .inl (.single ⟨.removeVariable name, fun _ => trivial, rfl⟩)
  | putProcedures puts => exact .inl (puts.lift program fun _ _ put => put.edited)
  | removeProcedure id => exact .inl (.single ⟨.removeProcedure id, fun _ => trivial, rfl⟩)
  | @load text draft _ hread => exact .inr ⟨text, draft, hread, rfl⟩

theorem Change.wellFormed (h : Change operation s t) (regular : operation.Regular)
    (wf : s.program.WellFormed) : t.program.WellFormed := by
  rcases h.edits with edits | ⟨text, draft, hread, hload⟩
  · generalize t.program = q at edits ⊢
    induction edits with
    | refl => exact wf
    | tail _ edited ih =>
      obtain ⟨edit, sound, done⟩ := edited
      exact Program.wellFormed_run? (sound regular) done ih
  · rw [hload]
    exact Program.wellFormed_ofDraft (Draft.wellFormed_of_read hread) _

theorem Change.evolves (h : Change operation s t) : s.program.Evolves t.program := by
  rcases h.edits with edits | ⟨text, draft, -, hload⟩
  · generalize t.program = q at edits ⊢
    induction edits with
    | refl => exact .refl _
    | tail _ edited ih =>
      obtain ⟨edit, -, done⟩ := edited
      exact ih.trans (Program.evolves_run? done)
  · rw [hload]
    constructor
    · show s.program.next ≤ s.program.next + _ + _
      omega
    · intro tag
      rw [Program.tags_ofDraft]
      exact Nat.le_add_left ..

theorem wellFormed_after {operations : List Operation}
    (regular : ∀ operation ∈ operations, operation.Regular) (hs : s.program.WellFormed) :
    (s.after operations).program.WellFormed :=
  preserved_after (fun operation hm => (regular operation hm).ordinary)
    (fun operation hm _ _ change => change.wellFormed (regular operation hm))
    (fun s wf => Program.wellFormed_mark s.program _ wf) hs

theorem identified_after {operations : List Operation}
    (ordinary : ∀ operation ∈ operations, operation.Ordinary) (hs : s.program.Identified) :
    (s.after operations).program.Identified :=
  preserved_after ordinary (fun _ _ _ _ change => change.evolves.identified)
    (fun s => (s.program.evolves_mark _).identified) hs

theorem wellFormed_run (regular : operation.Regular) (hs : s.program.WellFormed) :
    (operation.run s).2.program.WellFormed := by
  have hall : ∀ o ∈ [operation], o.Regular := by simpa using regular
  exact wellFormed_after hall hs

theorem identified_run (ordinary : operation.Ordinary) (hs : s.program.Identified) :
    (operation.run s).2.program.Identified := by
  have hall : ∀ o ∈ [operation], o.Ordinary := by simpa using ordinary
  exact identified_after hall hs

/-! ### Documents -/

/-- Any session takes in a text that is read as the document of a well-formed program. -/
theorem importDocument_toJson {p : Program} (wf : p.WellFormed) {text : String}
    (hread : Json.read text = .ok p.toJson) (t : Session) :
    t.importDocument text = .ok (t.replace (.ofDraft p.content t.program.next)) := by
  have hdraft : Draft.read text = .ok p.content :=
    Draft.ofText_eq_ok_iff.mpr ⟨_, hread, Draft.ofJson_toJson wf⟩
  rw [importDocument, hdraft]
  rfl

/-- What a session takes in is well-formed, whatever the session has been before. -/
theorem wellFormed_of_importDocument {text : String} {t : Session}
    (h : s.importDocument text = .ok t) : t.program.WellFormed := by
  rw [importDocument] at h
  cases hread : Draft.read text with
  | error e =>
    rw [hread] at h
    cases h
  | ok draft =>
    rw [hread] at h
    obtain rfl := Except.ok.inj h
    have hdraft : draft.WellFormed := Draft.wellFormed_of_read hread
    exact Program.wellFormed_mark _ _ (Program.wellFormed_ofDraft hdraft s.program.next)

theorem toJson_refresh (s : Session) : s.refresh.program.toJson = s.program.toJson :=
  Program.toJson_congr (Program.content_mark _ _)

theorem content_replace (t : Session) (p : Program) (next : Nat) :
    (t.replace (.ofDraft p.content next)).program.content = p.content := by
  show ((Program.ofDraft p.content next).mark _).content = _
  rw [Program.content_mark, Program.content_ofDraft, Program.plain_content]

end Session

end BlockScript
