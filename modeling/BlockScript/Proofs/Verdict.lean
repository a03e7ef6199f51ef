import BlockScript.Proofs.Bookkeeping
import BlockScript.Proofs.Callable
import BlockScript.Proofs.Mirrors
import BlockScript.Proofs.Nesting

/-! The verdict survives a reload. A session that takes in the document of another one finds the
same errors and warnings, for the statements at the same places, if the program is well-formed. A
body that is registered as a procedure need not be. -/

namespace BlockScript

open Statement (plainEach nodesEach nodesEach_plainEach tag)

variable {rename : Nat → Nat}

/-! ### Places -/

/-- What stands in the second list where an item first stands in the first list. -/
def counterpart (as bs : List Nat) (a : Nat) : Nat := bs.getD (as.idxOf a) 0

theorem map_counterpart {as bs : List Nat} (distinct : as.Nodup) (length : bs.length = as.length) :
    as.map (counterpart as bs) = bs := by
  refine List.ext_getElem (by rw [List.length_map, length]) fun i hi hi' => ?_
  rw [List.getElem_map, counterpart, distinct.idxOf_getElem, List.getD_eq_getElem?_getD,
    List.getElem?_eq_getElem hi', Option.getD_some]

theorem Entries.rel_lookup {α : Type} {related : α → α → Prop} (key : String)
    {entries entries' : List (String × α)} (keys : entries'.map Prod.fst = entries.map Prod.fst)
    (values : List.Forall₂ related (entries.map Prod.snd) (entries'.map Prod.snd)) :
    Option.Rel related (entries.lookup key) (entries'.lookup key) := by
  induction entries generalizing entries' with
  | nil =>
    obtain rfl := List.map_eq_nil_iff.mp keys
    exact .none
  | cons entry rest ih =>
    obtain ⟨entry', rest', rfl, hkey, hkeys⟩ := List.map_eq_cons_iff.mp keys
    obtain ⟨hvalue, hvalues⟩ := List.forall₂_cons.mp values
    rw [List.lookup_cons, List.lookup_cons, hkey]
    split
    · exact .some hvalue
    · exact ih hkeys hvalues

namespace Program

variable {p q : Program}

theorem map_plainEach_blocks (h : q.content = p.content) :
    q.blocks.map plainEach = p.blocks.map plainEach := by
  have hblock : plainEach q.block = plainEach p.block := congrArg Draft.block h
  have hprocedures : q.procedures.values.map plainEach = p.procedures.values.map plainEach := by
    rw [← Table.values_mapValues, ← Table.values_mapValues]
    exact congrArg (fun d => d.procedures.values) h
  rw [blocks, blocks, List.map_cons, List.map_cons, hblock, hprocedures]

theorem length_nodes_of_content (h : q.content = p.content) :
    q.nodes.length = p.nodes.length := by
  have hnodes : ∀ p : Program,
      p.nodes.length = ((p.blocks.map plainEach).flatMap nodesEach).length := by
    intro p
    rw [nodes, List.flatMap_map]
    simp only [List.length_flatMap, nodesEach_plainEach, List.length_map]
  rw [hnodes, hnodes, map_plainEach_blocks h]

/-- Programs with the same content mirror each other, if a renaming takes the tags of one to those
of the other. -/
theorem mirrors_of_content (content : q.content = p.content)
    (tags : q.nodes.map tag = p.nodes.map fun s => rename s.tag) : p.Mirrors rename q := by
  have hcontent := map_plainEach_blocks content
  have htags : q.blocks.map (fun block => (nodesEach block).map tag) =
      p.blocks.map fun block => (nodesEach block).map fun s => rename s.tag := by
    -- the blocks have as many statements as their counterparts
    refine List.eq_iff_flatten_eq.mpr ⟨?_, ?_⟩
    · rw [← List.flatMap_def, ← List.flatMap_def, ← List.map_flatMap, ← List.map_flatMap]
      exact tags
    · have hlengths := congrArg (List.map fun block => (nodesEach block).length) hcontent
      simpa [nodesEach_plainEach, Function.comp_def] using hlengths
  have hblocks : List.Forall₂ (Block.Mirrors rename) p.blocks q.blocks :=
    (forall₂_of_map_eq hcontent htags).imp fun _ _ h => ⟨h.1, h.2⟩
  obtain ⟨hroot, hvalues⟩ := List.forall₂_cons.mp hblocks
  obtain ⟨-, hkeys⟩ := keys_of_content content
  exact ⟨hroot, fun id => Entries.rel_lookup id hkeys hvalues, hkeys⟩

/-- Programs with the same content, in both of which the statements are told apart by their tags,
mirror each other under one renaming at least. -/
theorem exists_renaming (hp : p.Identified) (hq : q.Identified) (content : q.content = p.content) :
    ∃ rename : Nat → Nat, q.nodes.map tag = p.nodes.map (fun statement => rename statement.tag) ∧
      p.Mirrors rename q ∧ ∀ a ∈ p.nodes.map tag, ∀ b ∈ p.nodes.map tag,
        rename a = rename b → a = b := by
  let rename := counterpart (p.nodes.map tag) (q.nodes.map tag)
  have hrename : (p.nodes.map tag).map rename = q.nodes.map tag := by
    refine map_counterpart hp.nodup_nodes ?_
    rw [List.length_map, List.length_map, length_nodes_of_content content]
  have htags : q.nodes.map tag = p.nodes.map fun statement => rename statement.tag := by
    rw [← hrename, List.map_map]
    rfl
  refine ⟨rename, htags, mirrors_of_content content htags, fun a ha b hb same => ?_⟩
  have hdistinct := hq.nodup_nodes
  rw [← hrename] at hdistinct
  exact List.inj_on_of_nodup_map hdistinct ha hb same

end Program

namespace Session

variable {base : Language} {s t : Session}

/-- Sessions that serve the same language agree, whatever they call their procedures. -/
theorem Serves.agrees (h : s.Serves base) (h' : t.Serves base)
    (keys : t.program.procedures.keys = s.program.procedures.keys) :
    s.language.Agrees t.language := by
  intro id
  cases hbase : base.statement? id with
  | some d => rw [h.builtin id d hbase, h'.builtin id d hbase]
  | none =>
    by_cases hid : id ∈ s.program.procedures.keys
    · obtain ⟨label, icon, colors, hd⟩ := h.stored id hid hbase
      obtain ⟨label', icon', colors', hd'⟩ := h'.stored id (keys ▸ hid) hbase
      rw [hd, hd']
      rfl
    · rw [h.unknown id hid hbase, h'.unknown id (keys ▸ hid) hbase]

/-- In a session that starts empty, after ordinary operations: another session that starts on the
language of the same devices reads the document of the program as the same content exactly if the
program is well-formed, as it is if all that the operations take in is. Then the errors and warnings
there are those here in the same order, each about the statement at the same place. -/
theorem verdict_kept (devices : List Device) {operations : List Operation}
    (ordinary : ∀ operation ∈ operations, operation.Ordinary) :
    let fresh := start (.build devices)
    let s := fresh.after operations
    ((∀ operation ∈ operations, operation.Regular) → s.program.WellFormed) ∧
    ∀ text, Json.read text = .ok s.program.toJson →
      (s.program.WellFormed ↔
        ∃ t, fresh.importDocument text = .ok t ∧ t.program.content = s.program.content) ∧
      (s.program.WellFormed →
        ∃ t, fresh.importDocument text = .ok t ∧ t.program.content = s.program.content ∧
          (s.program.nodes.map tag).Nodup ∧ (t.program.nodes.map tag).Nodup ∧
          ∃ rename : Nat → Nat,
            t.program.nodes.map tag =
              s.program.nodes.map (fun statement => rename statement.tag) ∧
            t.analysis.errors.entries = s.analysis.errors.entries.map (Prod.map rename id) ∧
            t.analysis.warnings.entries =
              s.analysis.warnings.entries.map (Prod.map rename id)) := by
  intro fresh s
  have pristine := Language.pristine_build devices
  have hempty : fresh.program.WellFormed ∧ fresh.program.Identified := by
    constructor
    · exact Program.wellFormed_mark _ _ (Program.Initial.new 0).wellFormed
    · exact (Program.evolves_mark {} _).identified (Program.Initial.new 0).identified
  refine ⟨fun regular => wellFormed_after regular hempty.1, fun text hread => ?_⟩
  let t := fresh.replace (.ofDraft s.program.content fresh.program.next)
  have himport : s.program.WellFormed → fresh.importDocument text = .ok t :=
    fun wf => importDocument_toJson wf hread fresh
  have hcontent : t.program.content = s.program.content := content_replace ..
  refine ⟨⟨fun wf => ⟨t, himport wf, hcontent⟩, ?_⟩, fun wf => ?_⟩
  · rintro ⟨u, hu, same⟩
    rw [← Program.wellFormed_content_iff, ← same, Program.wellFormed_content_iff]
    exact wellFormed_of_importDocument hu
  have hs : s.program.Identified := identified_after ordinary hempty.2
  have ht : t.program.Identified := by
    have hrun : ((Operation.importDocument text).run fresh).2.program.Identified :=
      identified_run trivial hempty.2
    rwa [Operation.run, himport wf] at hrun
  have hagrees : s.language.Agrees t.language := by
    have hfresh : fresh.Serves (.build devices) := .start pristine {}
    refine (serves_after pristine {} ordinary).agrees (hfresh.take pristine _).refresh ?_
    exact (Program.keys_of_content hcontent).2
  obtain ⟨rename, htags, hmirrors, injective⟩ := Program.exists_renaming hs ht hcontent
  obtain ⟨herrors, hwarnings⟩ := Language.analyze_of_mirrors hagrees hmirrors injective
  -- either analysis is the one that its session has made already
  have hcurrent : s.Current := current_after (current_start ..)
  have hcurrent' : t.Current := current_refresh _
  rw [← hcurrent.analysis, ← hcurrent'.analysis] at herrors hwarnings
  exact ⟨t, himport wf, hcontent, hs.nodup_nodes, ht.nodup_nodes, rename, htags, herrors,
    hwarnings⟩

/-- A procedure that calls itself and a statement that the language lacks; the first of the two
statements of the root block is removed again. -/
theorem verdict_kept_blink :
    let body : Block Unit :=
      [.simple { id := "blink", tag := () }, .simple { id := "dim", tag := () }]
    let operations : List Operation := [.registerProcedure "blink" "Blink" none [] body,
      .add .root "blink", .add .root "while", .remove .root 0]
    let fresh := start (.build [])
    let s := fresh.after operations
    s.program.nodes.map tag = [3, 0, 1] ∧
      s.analysis.errors.entries =
        [(0, [.cyclicProcedure "blink"]), (1, [.unknownStatement "dim"])] ∧
      ∃ t, ∃ rename : Nat → Nat, fresh.importDocument s.exportDocument = .ok t ∧
        t.program.nodes.map tag = [rename 3, rename 0, rename 1] ∧
        (t.program.nodes.map tag).Nodup ∧ t.analysis.errors.entries =
          [(rename 0, [.cyclicProcedure "blink"]), (rename 1, [.unknownStatement "dim"])] := by
  intro body operations fresh s
  have regular : ∀ operation ∈ operations, operation.Regular := by
    simp [operations, Operation.Regular, body, Statement.WellFormedEach, Statement.WellFormed,
      Head.WellFormed]
  obtain ⟨hregular, hreload⟩ := verdict_kept [] fun operation hm => (regular operation hm).ordinary
  have wf : s.program.WellFormed := hregular regular
  have hread : Json.read s.exportDocument = .ok s.program.toJson := by
    have hpretty := Json.read_pretty (Program.proper_toJson wf) (by decide +kernel)
    exact hpretty.trans (if_pos (by decide +kernel))
  have hnodes : s.program.nodes.map tag = [3, 0, 1] := by decide
  have hfound : s.analysis.errors.entries =
      [(0, [.cyclicProcedure "blink"]), (1, [.unknownStatement "dim"])] := by decide +kernel
  obtain ⟨t, himport, -, -, distinct, rename, htags, herrors, -⟩ :=
    (hreload s.exportDocument hread).2 wf
  have hplaces : s.program.nodes.map (fun node => rename node.tag) =
      [rename 3, rename 0, rename 1] :=
    (List.map_map (g := rename) (f := tag)).symm.trans (congrArg (List.map rename) hnodes)
  refine ⟨hnodes, hfound, t, rename, himport, htags.trans hplaces, distinct, ?_⟩
  rw [herrors, hfound]
  rfl

/-- A body whose argument is a literal of the type of boolean expressions is registered. The
document is read, but not taken in. -/
theorem registered_not_reloaded :
    let body : Block Unit := [.simple
      { id := "when", tag := (), arguments := some [.literal .booleanExpression (.string "s")] }]
    let operation : Operation := .registerProcedure "blink" "Blink" none [] body
    let fresh := start (.build [])
    let s := (operation.run fresh).2
    operation.Ordinary ∧ (operation.run fresh).1 = .done ∧
      Json.read s.exportDocument = .ok s.program.toJson ∧
      ∃ e, fresh.importDocument s.exportDocument = .error e ∧ e.message =
        "$.header.userProcedures.blink[0].arguments[0].value: expected an array" := by
  intro body operation fresh s
  let document : Json := .object
    [("header", .object [("userVariables", .object []), ("userProcedures", .object
      [("blink", .array [.object [("id", .string "when"), ("arguments", .array
        [.object [("type", .string "boolean_expression"), ("value", .string "s")]])]])])]),
      ("block", .array [])]
  have hdocument : s.program.toJson = document := rfl
  have hread : Json.read s.exportDocument = .ok s.program.toJson := by
    have proper : document.Proper := by simp [document, Json.ProperFields, Json.ProperItems]
    have hpretty := Json.read_pretty proper (by decide +kernel)
    rw [exportDocument, Program.document, hdocument]
    exact hpretty.trans (if_pos (by decide +kernel))
  let fault : Malformed := ⟨[.key "header", .key "userProcedures", .key "blink", .index 0,
    .key "arguments", .index 0, .key "value"], .notArray⟩
  have hrefused : Draft.ofJson document = .error fault := rfl
  refine ⟨trivial, rfl, hread, .malformed fault, ?_, by decide +kernel⟩
  rw [importDocument, Draft.read, Draft.ofText, hread, hdocument]
  simp only [bind, Except.bind, hrefused]
  rfl

end Session

end BlockScript
