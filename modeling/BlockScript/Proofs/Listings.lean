import BlockScript.Proofs.Bookkeeping
import BlockScript.Proofs.Flags
import BlockScript.Proofs.OneLine

/-! The lines of a listing. Split at its new lines, a listing has one line for each procedure, one
for the root block and one for each statement, if none of the texts that are taken over as they are
has a new line in it. What an analysis finds stands in the line of its statement only. -/

namespace BlockScript

variable {ι : Type}

/-! ### Lines -/

namespace Listing

/-- What a line is about. -/
inductive Entry where
  | procedure (id : String)
  | root
  | statement (depth : Nat) (s : Statement Nat)

/-- The tag of the statement that a line is about. -/
def Entry.tag? : Entry → Option Nat
  | statement _ s => some s.tag
  | _ => none

/-- The line of an entry. For a statement: two blanks for each block around it and two more, the id,
the arguments, and then the errors and the warnings under its tag. -/
def Entry.text (a : Analysis) : Entry → String
  | procedure id => "procedure " ++ id ++ ":"
  | root => "block:"
  | statement depth s =>
    String.ofList (List.replicate (2 * (depth + 1)) ' ') ++ s.id ++
      .join (s.arguments.map fun argument => " " ++ argument.listed) ++
      .join ((a.errorsOf s.tag ++ a.warningsOf s.tag).map fun d =>
        "  # " ++ d.kind ++ ": " ++ d.message)

/-- The texts that a line takes over. -/
def Entry.verbatim (a : Analysis) : Entry → List String
  | procedure id => [id]
  | root => []
  | statement _ s =>
    s.id :: (s.arguments.flatMap Argument.verbatim ++
      (a.errorsOf s.tag ++ a.warningsOf s.tag).flatMap Diagnostic.verbatim)

mutual

/-- The entries of a statement and of all nested in it, each before those in its block. -/
def entriesAt (depth : Nat) : Statement Nat → List Entry
  | .simple head => [.statement depth (.simple head)]
  | .compound head block =>
    .statement depth (.compound head block) :: entriesEach (depth + 1) block

def entriesEach (depth : Nat) : List (Statement Nat) → List Entry
  | [] => []
  | s :: rest => entriesAt depth s ++ entriesEach depth rest

end

/-- The entries of a program: each procedure with its body, and then the root block. -/
def entries (p : Program) : List Entry :=
  (p.procedures.entries.flatMap fun (id, body) => .procedure id :: entriesEach 0 body) ++
    .root :: entriesEach 0 p.block

variable {p : Program} (a : Analysis)

mutual

theorem map_text_entriesAt (depth : Nat) : (s : Statement Nat) →
    (parent previous : Option (Statement Nat)) → (index : Nat) →
      (entriesAt depth s).map (Entry.text a) =
        line a ⟨s, parent, previous, index, depth⟩ :: (s.sitesBelow depth).map (line a)
  | .simple head, _, _, _ => rfl
  | .compound head block, parent, previous, index => by
    rw [entriesAt, List.map_cons, Statement.sitesBelow, map_text_entriesEach (depth + 1) block]
    rfl

/-- A walk writes the lines of the entries. -/
theorem map_text_entriesEach (depth : Nat) : (block : Block Nat) →
    {parent previous : Option (Statement Nat)} → {index : Nat} →
      (entriesEach depth block).map (Entry.text a) =
        (Statement.sitesFrom parent depth previous index block).map (line a)
  | [], _, _, _ => rfl
  | s :: rest, parent, previous, index => by
    rw [entriesEach, Statement.sitesFrom, List.map_append, List.map_cons, List.map_append,
      map_text_entriesAt depth s parent previous index, map_text_entriesEach depth rest]
    rfl

end

theorem lines_eq (p : Program) : lines p a = (entries p).map (Entry.text a) := by
  have hblock (block : Block Nat) : blockLines a block = (entriesEach 0 block).map (Entry.text a) :=
    (map_text_entriesEach a 0 block).symm
  rw [lines, entries, List.map_append, List.map_flatMap, hblock]
  simp only [hblock]
  rfl

theorem oneLine_text (e : Entry) : OneLine (e.text a) ↔ ∀ text ∈ e.verbatim a, OneLine text := by
  cases e with
  | procedure id =>
    have hbefore : OneLine "procedure " := by decide
    have hafter : OneLine ":" := by decide
    simp [Entry.text, Entry.verbatim, hbefore, hafter]
  | root => simp +decide [Entry.text, Entry.verbatim]
  | statement depth s =>
    have hindent : OneLine (String.ofList (List.replicate (2 * (depth + 1)) ' ')) := by
      rw [OneLine, String.toList_ofList]
      exact fun h => absurd (List.eq_of_mem_replicate h) (by decide)
    have harguments : OneLine (.join (s.arguments.map fun argument => " " ++ argument.listed)) ↔
        ∀ text ∈ s.arguments.flatMap Argument.verbatim, OneLine text := by
      have hblank : OneLine " " := by decide
      simp only [oneLine_join, List.forall_mem_map, oneLine_append, hblank, true_and,
        Argument.oneLine_listed, List.forall_mem_flatMap]
    have hremarks (found : List Diagnostic) :
        OneLine (.join (found.map fun d => "  # " ++ d.kind ++ ": " ++ d.message)) ↔
          ∀ text ∈ found.flatMap Diagnostic.verbatim, OneLine text := by
      have hmark : OneLine "  # " := by decide
      have hcolon : OneLine ": " := by decide
      simp only [oneLine_join, List.forall_mem_map, oneLine_append, hmark, hcolon, true_and,
        and_true, Diagnostic.oneLine_kind, Diagnostic.oneLine_message, List.forall_mem_flatMap]
    rw [Entry.text, Entry.verbatim, oneLine_append, oneLine_append, oneLine_append, harguments,
      hremarks, List.forall_mem_cons, List.forall_mem_append]
    tauto

/-- Split at its new lines, a listing is its entries exactly if no text that it takes over has a new
line. -/
theorem textLines_listing_iff (p : Program) :
    textLines (p.listing a) = (entries p).map (Entry.text a) ++ [""] ↔
      ∀ text ∈ (entries p).flatMap (Entry.verbatim a), OneLine text := by
  rw [Program.listing, lines_eq, textLines_join_iff, List.forall_mem_map, List.forall_mem_flatMap]
  exact forall₂_congr fun e _ => oneLine_text a e

/-! ### Findings -/

mutual

theorem filterMap_tag?_entriesAt (depth : Nat) : (s : Statement Nat) →
    (entriesAt depth s).filterMap Entry.tag? = s.nodes.map Statement.tag
  | .simple _ => rfl
  | .compound head block =>
    congrArg (head.tag :: ·) (filterMap_tag?_entriesEach (depth + 1) block)

theorem filterMap_tag?_entriesEach (depth : Nat) : (block : Block Nat) →
    (entriesEach depth block).filterMap Entry.tag? = (Statement.nodesEach block).map Statement.tag
  | [] => rfl
  | s :: rest => by
    rw [entriesEach, Statement.nodesEach, List.filterMap_append, List.map_append,
      filterMap_tag?_entriesAt depth s, filterMap_tag?_entriesEach depth rest]

end

/-- There is a line for each statement. -/
theorem filterMap_tag?_entries (p : Program) :
    ((entries p).filterMap Entry.tag?).Perm (p.nodes.map Statement.tag) := by
  have hbodies (bodies : List (String × Block Nat)) :
      (bodies.flatMap fun (id, body) => .procedure id :: entriesEach 0 body).filterMap Entry.tag? =
        ((bodies.map Prod.snd).flatMap Statement.nodesEach).map Statement.tag := by
    induction bodies with
    | nil => rfl
    | cons entry rest ih =>
      rw [List.flatMap_cons, List.filterMap_append, ih, List.map_cons, List.flatMap_cons,
        List.map_append, ← filterMap_tag?_entriesEach 0 entry.2]
      rfl
  rw [entries, List.filterMap_append, hbodies, Program.nodes, Program.blocks, List.flatMap_cons,
    List.map_append, ← filterMap_tag?_entriesEach 0 p.block]
  exact List.perm_append_comm

/-- A tag that is listed once is that of one entry. -/
theorem exists_single_entry {list : List Entry} {tag : Nat}
    (distinct : (list.filterMap Entry.tag?).Nodup) (h : tag ∈ list.filterMap Entry.tag?) :
    ∃ before e after, list = before ++ e :: after ∧ e.tag? = some tag ∧
      ∀ other ∈ before ++ after, other.tag? ≠ some tag := by
  obtain ⟨e, hm, he⟩ := List.mem_filterMap.mp h
  obtain ⟨before, after, rfl⟩ := List.append_of_mem hm
  refine ⟨before, e, after, rfl, he, fun other hother same => ?_⟩
  rw [List.filterMap_append, List.filterMap_cons_some he] at distinct
  have hrest := (List.nodup_middle.mp distinct)
  rw [List.nodup_cons, ← List.filterMap_append] at hrest
  exact hrest.1 (List.mem_filterMap.mpr ⟨other, hother, same⟩)

end Listing

/-! ### Programs without new lines -/

namespace Expression

mutual

/-- The operators and the strings in an expression. -/
def names : Expression ι → List String
  | leaf _ operator first second =>
    operator :: (first.value.verbatim ++
      match second with
      | some second => second.value.verbatim
      | none => [])
  | group _ operator children => operator :: namesEach children
  | operand o => o.value.verbatim

def namesEach : List (Expression ι) → List String
  | [] => []
  | e :: rest => e.names ++ namesEach rest

end

mutual

theorem verbatim_subset_names : (e : Expression ι) → e.verbatim ⊆ e.names
  | leaf _ operator first second => by
    unfold verbatim names
    refine List.cons_subset_cons _ fun text hm => ?_
    rw [List.mem_append] at hm ⊢
    refine hm.imp_right fun hm => ?_
    cases second with
    | none => exact hm
    | some second =>
      simp only at hm
      split at hm
      · cases hm
      · exact hm
  | group _ operator children => by
    have hchildren := verbatimEach_subset_namesEach children
    rw [verbatim, names]
    split
    · exact List.cons_subset_cons _ hchildren
    · exact List.subset_cons_of_subset _ hchildren
  | operand o => List.Subset.refl _

theorem verbatimEach_subset_namesEach :
    (list : List (Expression ι)) → verbatimEach list ⊆ namesEach list
  | [] => List.Subset.refl _
  | e :: rest => by
    rw [verbatimEach, namesEach]
    exact List.append_subset.mpr
      ⟨List.subset_append_of_subset_left _ (verbatim_subset_names e),
        List.subset_append_of_subset_right _ (verbatimEach_subset_namesEach rest)⟩

end

mutual

/-- What is found in an expression names nothing but its operators and what it reads. -/
theorem oneLine_of_mem_check : (e : Expression ι) → (∀ name ∈ e.names, OneLine name) →
    ∀ d ∈ e.check, OneLine d.message
  | leaf tag operator first second, h => by
    have hoperator : OneLine operator := h operator List.mem_cons_self
    have hrender : OneLine (leaf tag operator first second).render :=
      (oneLine_render _).mpr fun text hm => h text (verbatim_subset_names _ hm)
    simp only [check, List.forall_mem_append, Diagnostic.oneLine_message]
    constructor
    · split <;> simp [Diagnostic.verbatim, hoperator]
    · split <;> simp [Diagnostic.verbatim, hrender]
  | group _ operator children, h => by
    rw [names, List.forall_mem_cons] at h
    rw [check, List.forall_mem_append]
    refine ⟨?_, oneLine_of_mem_checkEach children h.2⟩
    split <;> simp [Diagnostic.oneLine_message, Diagnostic.verbatim, h.1]
  | operand o, _ => by
    rw [check]
    split <;> simp [Diagnostic.oneLine_message, Diagnostic.verbatim]

theorem oneLine_of_mem_checkEach : (list : List (Expression ι)) →
    (∀ name ∈ namesEach list, OneLine name) → ∀ d ∈ checkEach list, OneLine d.message
  | [], _ => by simp [checkEach]
  | e :: rest, h => by
    rw [namesEach, List.forall_mem_append] at h
    rw [checkEach, List.forall_mem_append]
    exact ⟨oneLine_of_mem_check e h.1, oneLine_of_mem_checkEach rest h.2⟩

end

end Expression

namespace Argument

/-- The operators and the strings in an argument, but not those that are quoted. -/
def names : Argument ι → List String
  | .literal type value => if type = .variable then value.verbatim else []
  | .expressions _ list => Expression.namesEach list

theorem verbatim_subset_names : (a : Argument ι) → a.verbatim ⊆ a.names
  | .literal .. => List.Subset.refl _
  | .expressions _ list => Expression.verbatimEach_subset_namesEach list

theorem oneLine_of_mem_check {a : Argument ι} (h : ∀ name ∈ a.names, OneLine name) :
    ∀ d ∈ a.check, OneLine d.message := by
  cases a with
  | literal => simp [check]
  | expressions _ list => exact Expression.oneLine_of_mem_checkEach list h

end Argument

/-- The id of a statement and the names in its arguments. -/
def Statement.names (s : Statement ι) : List String := s.id :: s.arguments.flatMap Argument.names

/-- All names in a program. -/
def Program.names (p : Program) : List String :=
  p.procedures.keys ++ p.nodes.flatMap Statement.names

/-- The ids that a language asks for beside or around a statement. -/
def Language.neighbours (lang : Language) : List String :=
  lang.statements.values.flatMap fun d => d.previous.allowed ++ d.parent.allowed

namespace Statement

variable {P : Statement ι → Prop}

mutual

theorem forall_sitesBelow (depth : Nat) : (s : Statement ι) → (∀ t ∈ s.nodes, P t) →
    ∀ site ∈ s.sitesBelow depth,
      P site.statement ∧ (∀ t ∈ site.parent, P t) ∧ ∀ t ∈ site.previous, P t
  | simple _, _ => by simp [sitesBelow]
  | compound head block, h => by
    rw [nodes, List.forall_mem_cons] at h
    exact forall_sitesFrom _ _ _ _ block h.2 (by simpa using h.1) (by simp)

/-- On a walk a statement and those around it have a property that all statements have. -/
theorem forall_sitesFrom (parent : Option (Statement ι)) (depth : Nat)
    (previous : Option (Statement ι)) (index : Nat) : (block : Block ι) →
    (∀ t ∈ nodesEach block, P t) → (∀ t ∈ parent, P t) → (∀ t ∈ previous, P t) →
      ∀ site ∈ sitesFrom parent depth previous index block,
        P site.statement ∧ (∀ t ∈ site.parent, P t) ∧ ∀ t ∈ site.previous, P t
  | [], _, _, _ => by simp [sitesFrom]
  | s :: rest, h, hparent, hprevious => by
    rw [nodesEach, List.forall_mem_append] at h
    have hs : P s := h.1 s (by cases s <;> simp [nodes])
    rw [sitesFrom, List.forall_mem_cons, List.forall_mem_append]
    exact ⟨⟨hs, hparent, hprevious⟩, forall_sitesBelow depth s h.1,
      forall_sitesFrom parent depth (some s) (index + 1) rest h.2 hparent (by simpa using hs)⟩

end

end Statement

namespace Language

variable {lang : Language} {p : Program} {id : String}

/-- What is wrong with the place of a statement names the statement, those beside and around it and
those that the language asks for there. -/
theorem oneLine_of_mem_placementErrors {d : Descriptor} {parent previous : Option String}
    (hid : OneLine id) (hprevious : ∀ other ∈ previous, OneLine other)
    (hparent : ∀ other ∈ parent, OneLine other)
    (hallowed : ∀ other ∈ d.previous.allowed ++ d.parent.allowed, OneLine other) :
    ∀ found ∈ lang.placementErrors d id parent previous, OneLine found.message := by
  intro found h
  rw [List.forall_mem_append] at hallowed
  simp only [placementErrors, List.mem_append, List.mem_flatMap, Option.mem_toList] at h
  obtain (((h | ⟨other, hother, h⟩) | h) | ⟨other, hother, h⟩) | ⟨other, hother, h⟩ := h <;>
    refine Diagnostic.oneLine_of_mem_when ?_ h <;>
    simp only [Diagnostic.verbatim, List.forall_mem_cons, List.forall_mem_append,
      Option.mem_toList, List.not_mem_nil, IsEmpty.forall_iff, implies_true, and_true]
  · exact ⟨hid, hallowed.1, hprevious⟩
  · exact ⟨hid, hprevious other hother⟩
  · exact ⟨hid, hallowed.2, hparent⟩
  · exact ⟨hid, hparent other hother⟩
  · exact ⟨hparent other hother, hid⟩

theorem oneLine_of_mem_checkSite {site : Site ι} (hlang : ∀ id ∈ lang.neighbours, OneLine id)
    (hs : ∀ name ∈ site.statement.names, OneLine name)
    (hparent : ∀ other ∈ site.parent.map Statement.id, OneLine other)
    (hprevious : ∀ other ∈ site.previous.map Statement.id, OneLine other) :
    ∀ d ∈ lang.checkSite site, OneLine d.message := by
  rw [Statement.names, List.forall_mem_cons, List.forall_mem_flatMap] at hs
  obtain ⟨hid, harguments⟩ := hs
  cases hd : lang.statement? site.statement.id with
  | none =>
    simp [checkSite, hd, Diagnostic.oneLine_message, Diagnostic.verbatim, hid]
  | some d =>
    have hallowed := List.forall_mem_flatMap.mp hlang d (Table.mem_values_of_get? hd)
    rw [lang.checkSite_of_some hd, List.forall_mem_append, List.forall_mem_flatMap]
    exact ⟨oneLine_of_mem_placementErrors hid hprevious hparent hallowed,
      fun a ha => Argument.oneLine_of_mem_check (harguments a ha)⟩

/-- If the names in a program and those that the language asks for are on one line, so is what an
analysis says. -/
theorem oneLine_of_mem_checkVisit {visit : Visit} (hlang : ∀ id ∈ lang.neighbours, OneLine id)
    (hp : ∀ name ∈ p.names, OneLine name) (h : visit ∈ lang.visitProgram p) :
    ∀ d ∈ lang.checkVisit visit, OneLine d.message := by
  rw [Program.names, List.forall_mem_append, List.forall_mem_flatMap] at hp
  have hsite : visit.site ∈ p.blocks.flatMap fun block => block.sites :=
    (lang.map_site_visitProgram p).mem_iff.mp (List.mem_map_of_mem h)
  obtain ⟨block, hblock, hsite⟩ := List.mem_flatMap.mp hsite
  have hnodes : ∀ s ∈ Statement.nodesEach block, ∀ name ∈ s.names, OneLine name :=
    fun s hs => hp.2 s (List.mem_flatMap.mpr ⟨block, hblock, hs⟩)
  obtain ⟨hs, hparent, hprevious⟩ :=
    Statement.forall_sitesFrom none 0 none 0 block hnodes (by simp) (by simp) _ hsite
  have hid : OneLine visit.site.statement.id := hs _ List.mem_cons_self
  rw [checkVisit, List.forall_mem_append]
  refine ⟨oneLine_of_mem_checkSite hlang hs ?_ ?_, ?_⟩
  · simpa using fun t ht => hparent t ht _ List.mem_cons_self
  · simpa using fun t ht => hprevious t ht _ List.mem_cons_self
  · split <;> simp [Diagnostic.oneLine_message, Diagnostic.verbatim, hid]

theorem oneLine_of_mem_found {tag : Nat} {d : Diagnostic}
    (hlang : ∀ id ∈ lang.neighbours, OneLine id) (hp : ∀ name ∈ p.names, OneLine name)
    (h : d ∈ (lang.analyze p).errorsOf tag ++ (lang.analyze p).warningsOf tag) :
    OneLine d.message := by
  have hfound : d ∈ ((lang.findings (lang.visitProgram p)).filter (·.1 = tag)).map Prod.snd := by
    rw [analyze, Analysis.errorsOf_ofFindings, Analysis.warningsOf_ofFindings] at h
    rcases List.mem_append.mp h with h | h
    · exact List.mem_of_mem_filter h
    · exact List.mem_of_mem_filter h
  rw [lang.filter_findings] at hfound
  obtain ⟨visit, hvisit, hd⟩ := List.mem_flatMap.mp hfound
  exact oneLine_of_mem_checkVisit hlang hp (List.mem_of_mem_filter hvisit) d hd

end Language

namespace Listing

variable {e : Entry} {p : Program}

mutual

theorem exists_of_mem_entriesAt (depth : Nat) : (s : Statement Nat) → e ∈ entriesAt depth s →
    ∃ outer t, e = .statement outer t ∧ t ∈ s.nodes
  | .simple head, h => ⟨depth, .simple head, List.mem_singleton.mp h, List.mem_cons_self⟩
  | .compound head block, h => by
    rcases List.mem_cons.mp h with rfl | h
    · exact ⟨depth, .compound head block, rfl, List.mem_cons_self⟩
    · obtain ⟨outer, t, rfl, ht⟩ := exists_of_mem_entriesEach (depth + 1) block h
      exact ⟨outer, t, rfl, List.mem_cons_of_mem _ ht⟩

theorem exists_of_mem_entriesEach (depth : Nat) : (block : Block Nat) →
    e ∈ entriesEach depth block → ∃ outer t, e = .statement outer t ∧ t ∈ Statement.nodesEach block
  | s :: rest, h => by
    rcases List.mem_append.mp h with h | h
    · obtain ⟨outer, t, rfl, ht⟩ := exists_of_mem_entriesAt depth s h
      exact ⟨outer, t, rfl, List.mem_append_left _ ht⟩
    · obtain ⟨outer, t, rfl, ht⟩ := exists_of_mem_entriesEach depth rest h
      exact ⟨outer, t, rfl, List.mem_append_right _ ht⟩

end

/-- An entry is that of a procedure of the program, of the root block or of a statement of the
program. -/
theorem cases_of_mem_entries (h : e ∈ entries p) : (∃ id ∈ p.procedures.keys, e = .procedure id) ∨
    e = .root ∨ ∃ depth, ∃ s ∈ p.nodes, e = .statement depth s := by
  have hblock {block : Block Nat} (hblock : block ∈ p.blocks) (hm : e ∈ entriesEach 0 block) :
      ∃ depth, ∃ s ∈ p.nodes, e = .statement depth s := by
    obtain ⟨depth, s, rfl, hs⟩ := exists_of_mem_entriesEach 0 block hm
    exact ⟨depth, s, List.mem_flatMap.mpr ⟨block, hblock, hs⟩, rfl⟩
  rcases List.mem_append.mp h with h | h
  · obtain ⟨⟨id, body⟩, hbody, h⟩ := List.mem_flatMap.mp h
    rcases List.mem_cons.mp h with rfl | h
    · exact .inl ⟨id, List.mem_map_of_mem hbody, rfl⟩
    · exact .inr (.inr (hblock (List.mem_cons_of_mem _ (List.mem_map_of_mem hbody)) h))
  · rcases List.mem_cons.mp h with rfl | h
    · exact .inr (.inl rfl)
    · exact .inr (.inr (hblock List.mem_cons_self h))

theorem oneLine_of_names {lang : Language} (hlang : ∀ id ∈ lang.neighbours, OneLine id)
    (hp : ∀ name ∈ p.names, OneLine name) :
    ∀ text ∈ (entries p).flatMap (Entry.verbatim (lang.analyze p)), OneLine text := by
  rw [List.forall_mem_flatMap]
  intro e he
  have hnames := List.forall_mem_append.mp hp
  rcases cases_of_mem_entries he with ⟨id, hid, rfl⟩ | rfl | ⟨depth, s, hs, rfl⟩
  · simpa [Entry.verbatim] using hnames.1 id hid
  · simp [Entry.verbatim]
  · have hstatement := List.forall_mem_flatMap.mp hnames.2 s hs
    rw [Statement.names, List.forall_mem_cons, List.forall_mem_flatMap] at hstatement
    rw [Entry.verbatim, List.forall_mem_cons, List.forall_mem_append, List.forall_mem_flatMap,
      List.forall_mem_flatMap]
    refine ⟨hstatement.1, fun a ha text hm => ?_, fun d hd => ?_⟩
    · exact hstatement.2 a ha text (a.verbatim_subset_names hm)
    · exact d.oneLine_message.mp (Language.oneLine_of_mem_found hlang hp hd)

end Listing

/-! ### Listings of analyzed programs -/

theorem Listing.blockLines_markEach (a : Analysis) (invalid : Nat → Bool) (block : Block Nat) :
    blockLines a (Statement.markEach invalid block) = blockLines a block := by
  rw [blockLines, Block.sites_markEach, List.map_map]
  exact List.map_congr_left fun site _ => by simp [line, Site.mark]

/-- Flags are not listed. -/
theorem Program.listing_mark (p : Program) (a b : Analysis) :
    (p.mark a).listing b = p.listing b := by
  have hlines : Listing.lines (p.mark a) b = Listing.lines p b := by
    rw [Listing.lines, procedures_mark, mark, Block.mark_eq_markEach, Listing.blockLines_markEach,
      markBodies, Table.mapValues, List.flatMap_map]
    simp only [Listing.blockLines_markEach]
    rfl
  rw [listing, hlines, listing]

namespace Language

/-- A string with a new line, compared with a variable: the listing has two lines for one
statement. -/
theorem listing_split :
    let text : Operand Unit := ⟨(), .string, .string "line 1\nline 2"⟩
    let test : Expression Unit :=
      .leaf () "==" ⟨(), .variable, .string "msg"⟩ (some text)
    let condition : Argument Unit := .expressions .booleanExpression [test]
    let draft : Draft :=
      { «variables» := ∅, procedures := ∅
        block := [.compound { id := "if", tag := (), arguments := some [condition] } []] }
    let p := Program.ofDraft draft
    let a := (build []).analyze p
    a.errors.keys = [] ∧ a.warnings.keys = [] ∧ p.nodes.length = 1 ∧
      textLines (p.listing a) = ["block:", "  if $msg == line 1", "line 2", ""] := by
  intro text test condition draft p a
  let site : Site Nat :=
    { statement := .compound { id := "if", tag := 0, arguments := some [condition.stamp 1] } []
      parent := none, previous := none, index := 0, depth := 0 }
  have hvisits : (build []).visitProgram p = [⟨site, false⟩] := by
    have hplain : (build []).isProcedure site.statement.id = false := by decide
    exact (schedule_plain [] hplain).trans (by rw [schedule_nil])
  have hsite : (build []).checkSite site = [] := by decide
  have ha : a = {} := by
    show analyze _ _ = _
    rw [analyze, hvisits, findings, List.flatMap_singleton, checkVisit, hsite]
    rfl
  rw [ha]
  refine ⟨rfl, rfl, rfl, ?_⟩
  decide

/-- A listing is that of its entries, line by line, exactly if no text that it takes over has a new
line in it; so it is if no name in the program and none that the language asks for has one. Quoted
strings may have any. The errors and warnings of a statement stand in one line only. -/
theorem listing_exact (lang : Language) (draft : Draft) (next : Nat) :
    let p := Program.ofDraft draft next
    let a := lang.analyze p
    let written := (Listing.entries p).map (Listing.Entry.text a) ++ [""]
    (p.mark a).listing a = p.listing a ∧
      (textLines (p.listing a) = written ↔
        ∀ text ∈ (Listing.entries p).flatMap (Listing.Entry.verbatim a), OneLine text) ∧
      ((∀ name ∈ p.names ++ lang.neighbours, OneLine name) → textLines (p.listing a) = written) ∧
      ∀ tag, tag ∈ a.errors.keys ∨ tag ∈ a.warnings.keys →
        ∃ before e after, Listing.entries p = before ++ e :: after ∧ e.tag? = some tag ∧
          ∀ other ∈ before ++ after, other.tag? ≠ some tag := by
  intro p a written
  refine ⟨p.listing_mark a a, Listing.textLines_listing_iff a p, fun h => ?_, fun tag h => ?_⟩
  · obtain ⟨hp, hlang⟩ := List.forall_mem_append.mp h
    exact (Listing.textLines_listing_iff a p).mpr (Listing.oneLine_of_names hlang hp)
  · have hm : tag ∈ p.nodes.map Statement.tag := lang.mem_keys_analyze h
    have hperm := Listing.filterMap_tag?_entries p
    have distinct := (Program.identified_ofDraft draft next).nodup_nodes
    exact Listing.exists_single_entry (hperm.nodup_iff.mpr distinct) (hperm.mem_iff.mpr hm)

/-- A procedure, and an `else` that follows nothing. -/
theorem listing_exact_misplaced :
    let wait : Statement Unit :=
      .simple { id := "wait", tag := (), arguments := some [.unset .number] }
    let draft : Draft :=
      { «variables» := ∅, procedures := .ofList [("blink", [wait])]
        block := [.compound { id := "else", tag := () } []] }
    let p := Program.ofDraft draft
    let a := (build []).analyze p
    (∀ name ∈ p.names ++ (build []).neighbours, OneLine name) ∧
      textLines (p.listing a) =
        ["procedure blink:", "  wait ?", "block:",
          "  else  # MissingPredecessor: `else` must follow `if`, `elseif`", ""] ∧
      0 ∈ a.errors.keys ∧ ∃ before e after, Listing.entries p = before ++ e :: after ∧
        e.tag? = some 0 ∧ ∀ other ∈ before ++ after, other.tag? ≠ some 0 := by
  intro wait draft p a
  have hnames : ∀ name ∈ p.names ++ (build []).neighbours, OneLine name := by decide
  let first : Site Nat :=
    { statement := .compound { id := "else", tag := 0 } []
      parent := none, previous := none, index := 0, depth := 0 }
  let second : Site Nat :=
    { statement := .simple { id := "wait", tag := 1, arguments := some [.unset .number] }
      parent := none, previous := none, index := 0, depth := 0 }
  have hvisits : (build []).visitProgram p = [⟨first, false⟩, ⟨second, false⟩] := by
    have hfirst : (build []).isProcedure first.statement.id = false := by decide
    have hsecond : (build []).isProcedure second.statement.id = false := by decide
    have hbody : p.procedures.get? "blink" = some [second.statement] := rfl
    refine (schedule_plain [.enter "blink"] hfirst).trans (congrArg (List.cons _) ?_)
    refine (schedule_enter [] hbody).trans ((schedule_plain [.leave] hsecond).trans ?_)
    rw [schedule_leave, schedule_nil]
  have ha : a =
      { errors := .ofList [(0, [.missingPredecessor "else" ["if", "elseif"] none])] } := by
    show analyze _ _ = _
    rw [analyze, hvisits]
    decide
  have hkey : 0 ∈ a.errors.keys := by
    rw [ha]
    decide
  obtain ⟨-, -, hlines, hplaces⟩ := listing_exact (build []) draft 0
  refine ⟨hnames, (hlines hnames).trans ?_, hkey, hplaces 0 (.inl hkey)⟩
  show _ ++ [""] = _
  rw [show (build []).analyze (Program.ofDraft draft 0) = _ from ha]
  decide

end Language

end BlockScript
