import BlockScript.Proofs.Content
import BlockScript.Proofs.Findings
import BlockScript.Proofs.Registry
import Mathlib.Data.List.Forall2

/-! What an analysis sees. It uses tags only to say which statement a finding is about, and of a
language only what the rules ask of each statement. So in two programs with the same content it
finds the same, each time about the statement at the same place. -/

namespace BlockScript

variable {ι : Type}

/-! ### Rules and tags -/

namespace Expression

mutual

theorem render_plain : (e : Expression ι) → e.plain.render = e.render
  | leaf _ _ _ second => by cases second <;> rfl
  | group _ _ children => by rw [plain, render, render, renderEach_plainEach children]
  | operand _ => rfl

theorem renderEach_plainEach : (list : List (Expression ι)) →
    renderEach (plainEach list) = renderEach list
  | [] => rfl
  | e :: rest => by
    rw [plainEach, renderEach, renderEach, render_plain e, renderEach_plainEach rest]

end

mutual

theorem check_plain : (e : Expression ι) → e.plain.check = e.check
  | leaf tag operator first second => by
    have hrender := render_plain (leaf tag operator first second)
    rw [plain] at hrender
    rw [plain, check, check, hrender]
    cases second <;> rfl
  | group _ _ children => by rw [plain, check, check, checkEach_plainEach children]
  | operand _ => rfl

theorem checkEach_plainEach : (list : List (Expression ι)) →
    checkEach (plainEach list) = checkEach list
  | [] => rfl
  | e :: rest => by rw [plainEach, checkEach, checkEach, check_plain e, checkEach_plainEach rest]

end

end Expression

theorem Argument.check_plain (a : Argument ι) : a.plain.check = a.check := by
  cases a with
  | literal => rfl
  | expressions _ list => exact Expression.checkEach_plainEach list

namespace Statement

variable (s : Statement ι)

theorem id_plain : s.plain.id = s.id := by cases s <;> rfl

theorem arguments_plain : s.plain.arguments = s.arguments.map Argument.plain := by
  cases s with
  | simple head | compound head =>
    show ((head.arguments.map (·.map Argument.plain)).getD []) =
      (head.arguments.getD []).map Argument.plain
    cases head.arguments <;> rfl

mutual

theorem nodes_plain : (s : Statement ι) → s.plain.nodes = s.nodes.map plain
  | simple _ => rfl
  | compound head block => by
    rw [nodes, List.map_cons, plain, nodes, nodesEach_plainEach block]

theorem nodesEach_plainEach : (block : Block ι) →
    nodesEach (plainEach block) = (nodesEach block).map plain
  | [] => rfl
  | s :: rest => by
    rw [plainEach, nodesEach, nodesEach, List.map_append, nodes_plain s, nodesEach_plainEach rest]

end

end Statement

/-- The site without tags and flags. -/
def Site.plain (site : Site ι) : Site Unit where
  statement := site.statement.plain
  parent := site.parent.map Statement.plain
  previous := site.previous.map Statement.plain
  index := site.index
  depth := site.depth

namespace Statement

mutual

theorem sitesBelow_plain (depth : Nat) : (s : Statement ι) →
    s.plain.sitesBelow depth = (s.sitesBelow depth).map Site.plain
  | simple _ => rfl
  | compound head block => by
    rw [plain, sitesBelow, sitesBelow, ← sitesFrom_plainEach _ _ _ _ block]
    rfl

theorem sitesFrom_plainEach (parent : Option (Statement ι)) (depth : Nat)
    (previous : Option (Statement ι)) (index : Nat) : (block : Block ι) →
    sitesFrom (parent.map plain) depth (previous.map plain) index (plainEach block) =
      (sitesFrom parent depth previous index block).map Site.plain
  | [] => rfl
  | s :: rest => by
    rw [plainEach, sitesFrom, sitesFrom, List.map_cons, List.map_append, sitesBelow_plain depth s,
      ← sitesFrom_plainEach parent depth (some s) (index + 1) rest]
    rfl

end

end Statement

theorem Block.sites_plainEach (block : Block ι) :
    Block.sites (Statement.plainEach block) = block.sites.map Site.plain :=
  Statement.sitesFrom_plainEach none 0 none 0 block

/-- No rule looks at a tag. -/
theorem Language.checkSite_plain (lang : Language) (site : Site ι) :
    lang.checkSite site.plain = lang.checkSite site := by
  have hids : ∀ neighbour : Option (Statement ι),
      (neighbour.map Statement.plain).map Statement.id = neighbour.map Statement.id := by
    intro neighbour
    rw [Option.map_map]
    exact Option.map_congr fun s _ => s.id_plain
  have harguments : site.statement.plain.arguments.flatMap Argument.check =
      site.statement.arguments.flatMap Argument.check := by
    rw [Statement.arguments_plain, List.flatMap_map]
    simp only [Argument.check_plain]
  simp only [checkSite, Site.plain, hids, Statement.id_plain, harguments]

/-! ### Languages with the same rules -/

/-- What an analysis asks of a kind of statement. -/
structure Rules where
  previous : Constraint
  parent : Constraint
  nested : Constraint
  isProcedure : Bool

def Descriptor.rules (d : Descriptor) : Rules := ⟨d.previous, d.parent, d.nested, d.isProcedure⟩

/-- The languages have the same statements under the same rules. -/
def Language.Agrees (lang lang' : Language) : Prop :=
  ∀ id, (lang'.statement? id).map Descriptor.rules = (lang.statement? id).map Descriptor.rules

namespace Language.Agrees

variable {lang lang' : Language} (h : lang.Agrees lang') (id : String)

include h

/-- Either both languages lack the statement, or both have it with the same rules. -/
theorem cases : (lang.statement? id = none ∧ lang'.statement? id = none) ∨
    ∃ d d', lang.statement? id = some d ∧ lang'.statement? id = some d' ∧ d'.rules = d.rules := by
  have hid := h id
  cases hd : lang.statement? id with
  | none =>
    rw [hd, Option.map_none, Option.map_eq_none_iff] at hid
    exact .inl ⟨rfl, hid⟩
  | some d =>
    rw [hd, Option.map_some, Option.map_eq_some_iff] at hid
    obtain ⟨d', hd', hrules⟩ := hid
    exact .inr ⟨d, d', rfl, hd', hrules⟩

theorem isProcedure : lang'.isProcedure id = lang.isProcedure id := by
  rcases h.cases id with ⟨hd, hd'⟩ | ⟨d, d', hd, hd', hrules⟩
  · rw [Language.isProcedure, Language.isProcedure, hd, hd']
  · rw [Language.isProcedure, Language.isProcedure, hd, hd']
    exact congrArg Rules.isProcedure hrules

theorem checkNesting (parent : Option String) :
    lang'.checkNesting id parent = lang.checkNesting id parent := by
  cases parent with
  | none => rfl
  | some parent =>
    rw [Language.checkNesting, Language.checkNesting]
    rcases h.cases parent with ⟨hd, hd'⟩ | ⟨d, d', hd, hd', hrules⟩
    · rw [hd, hd']
    · have hnested : d'.nested = d.nested := congrArg Rules.nested hrules
      simp only [hd, hd', hnested]

theorem checkSite (site : Site ι) : lang'.checkSite site = lang.checkSite site := by
  rw [Language.checkSite, Language.checkSite]
  rcases h.cases site.statement.id with ⟨hd, hd'⟩ | ⟨d, d', hd, hd', hrules⟩
  · rw [hd, hd']
  · have hprevious : d'.previous = d.previous := congrArg Rules.previous hrules
    have hparent : d'.parent = d.parent := congrArg Rules.parent hrules
    simp only [hd, hd', h.checkNesting, Descriptor.checkPrevious, Descriptor.checkParent,
      hprevious, hparent]

end Language.Agrees

/-! ### Visits -/

section

variable (rename : Nat → Nat)

/-- The second site has the content of the first, and its tag is the renamed one. -/
structure Site.Mirrors (site site' : Site Nat) : Prop where
  content : site'.plain = site.plain
  tag : site'.statement.tag = rename site.statement.tag

/-- The second block has the content of the first, and its tags are the renamed ones. -/
structure Block.Mirrors (block block' : Block Nat) : Prop where
  content : Statement.plainEach block' = Statement.plainEach block
  tags : (Statement.nodesEach block').map Statement.tag =
    (Statement.nodesEach block).map fun s => rename s.tag

inductive Task.Mirrors : Task → Task → Prop
  | visit {site site' : Site Nat} : site.Mirrors rename site' → Mirrors (visit site) (visit site')
  | enter (id : String) : Mirrors (enter id) (enter id)
  | leave : Mirrors leave leave

structure Visit.Mirrors (visit visit' : Visit) : Prop where
  site : visit.site.Mirrors rename visit'.site
  reentrant : visit'.reentrant = visit.reentrant

end

variable {rename : Nat → Nat}

theorem Site.Mirrors.id_eq {site site' : Site Nat} (h : site.Mirrors rename site') :
    site'.statement.id = site.statement.id := by
  have hstatement : site'.statement.plain = site.statement.plain :=
    congrArg Site.statement h.content
  rw [← Statement.id_plain, hstatement, Statement.id_plain]

/-- Lists with the same images under two maps are related by both. -/
theorem forall₂_of_map_eq {α α' β γ : Type} {f : α → β} {f' : α' → β} {g : α → γ} {g' : α' → γ}
    {as : List α} {as' : List α'} (hf : as'.map f' = as.map f) (hg : as'.map g' = as.map g) :
    List.Forall₂ (fun a a' => f' a' = f a ∧ g' a' = g a) as as' := by
  induction as generalizing as' with
  | nil =>
    obtain rfl := List.map_eq_nil_iff.mp hf
    exact .nil
  | cons a rest ih =>
    obtain ⟨a', rest', rfl, hfirst, hrest⟩ := List.map_eq_cons_iff.mp hf
    obtain ⟨hsecond, hg⟩ := List.cons.inj hg
    exact .cons ⟨hfirst, hsecond⟩ (ih hrest hg)

theorem Block.Mirrors.sites {block block' : Block Nat} (h : block.Mirrors rename block') :
    List.Forall₂ (Site.Mirrors rename) block.sites block'.sites := by
  have hcontent : block'.sites.map Site.plain = block.sites.map Site.plain := by
    rw [← sites_plainEach, h.content, sites_plainEach]
  have htags : block'.sites.map (fun site => site.statement.tag) =
      block.sites.map fun site => rename site.statement.tag := by
    have h := h.tags
    rw [← map_statement_sites block' none, ← map_statement_sites block none, List.map_map,
      List.map_map] at h
    exact h
  exact (forall₂_of_map_eq hcontent htags).imp fun _ _ h => ⟨h.1, h.2⟩

theorem Task.mirrors_ofBlock {block block' : Block Nat} (h : block.Mirrors rename block') :
    List.Forall₂ (Task.Mirrors rename) (ofBlock block) (ofBlock block') := by
  rw [ofBlock, ofBlock, List.forall₂_map_left_iff, List.forall₂_map_right_iff]
  exact h.sites.imp fun _ _ => .visit

/-- The tables have the same keys, and under each of them blocks that mirror each other. -/
def MirrorBodies (rename : Nat → Nat) (bodies bodies' : Table String (Block Nat)) : Prop :=
  ∀ id, Option.Rel (Block.Mirrors rename) (bodies.get? id) (bodies'.get? id)

theorem MirrorBodies.erase {bodies bodies' : Table String (Block Nat)}
    (h : MirrorBodies rename bodies bodies') (id : String) :
    MirrorBodies rename (bodies.erase id) (bodies'.erase id) := by
  intro k
  rw [Table.get?_erase, Table.get?_erase]
  split
  · exact .none
  · exact h k

namespace Language

variable {lang lang' : Language}

/-- An analysis of what mirrors each other goes the same way. -/
theorem mirrors_schedule (agrees : lang.Agrees lang') (pending : Table String (Block Nat))
    (active : List String) (tasks : List Task) :
    ∀ {pending' : Table String (Block Nat)} {tasks' : List Task},
      MirrorBodies rename pending pending' → List.Forall₂ (Task.Mirrors rename) tasks tasks' →
        List.Forall₂ (Visit.Mirrors rename) (lang.schedule pending active tasks)
          (lang'.schedule pending' active tasks') := by
  fun_induction schedule lang pending active tasks with
  | case1 =>
    intro pending' tasks' _ h
    cases h
    rw [schedule_nil]
    exact .nil
  | case2 =>
    rename_i pending active site rest id procedure again ih
    intro pending' tasks' bodies h
    obtain _ | ⟨⟨hsite⟩, hrest⟩ := h
    have hid : _ = id := hsite.id_eq
    rw [schedule_reentrant _ (by rwa [hid, agrees.isProcedure])
      (by rw [hid]; exact List.contains_iff_mem.mp again)]
    exact .cons ⟨hsite, rfl⟩ (ih bodies hrest)
  | case3 =>
    rename_i pending active site rest id procedure fresh ih
    intro pending' tasks' bodies h
    obtain _ | ⟨⟨hsite⟩, hrest⟩ := h
    have hid : _ = id := hsite.id_eq
    rw [schedule_call _ (by rwa [hid, agrees.isProcedure])
      (by rw [hid]; exact fun hm => fresh (List.contains_iff_mem.mpr hm)), hid]
    exact .cons ⟨hsite, rfl⟩ (ih bodies (.cons (.enter id) hrest))
  | case4 =>
    rename_i pending active site rest id other ih
    intro pending' tasks' bodies h
    obtain _ | ⟨⟨hsite⟩, hrest⟩ := h
    have hid : _ = id := hsite.id_eq
    rw [schedule_plain _ (by rw [hid, agrees.isProcedure]; exact Bool.eq_false_iff.mpr other)]
    exact .cons ⟨hsite, rfl⟩ (ih bodies hrest)
  | case5 pending active id rest body found ih =>
    intro pending' tasks' bodies h
    obtain _ | ⟨⟨⟩, hrest⟩ := h
    have hbody := bodies id
    rw [found] at hbody
    cases hfound : pending'.get? id with
    | none =>
      rw [hfound] at hbody
      cases hbody
    | some body' =>
      rw [hfound] at hbody
      obtain ⟨hbody⟩ := hbody
      rw [schedule_enter _ hfound]
      refine ih (bodies.erase id) ?_
      exact List.rel_append (Task.mirrors_ofBlock hbody) (.cons .leave hrest)
  | case6 pending active id rest begun ih =>
    intro pending' tasks' bodies h
    obtain _ | ⟨⟨⟩, hrest⟩ := h
    have hbegun := bodies id
    rw [begun] at hbegun
    cases hfound : pending'.get? id with
    | none =>
      rw [schedule_skip _ hfound]
      exact ih bodies hrest
    | some body' =>
      rw [hfound] at hbegun
      cases hbegun
  | case7 pending active rest ih =>
    intro pending' tasks' bodies h
    obtain _ | ⟨⟨⟩, hrest⟩ := h
    rw [schedule_leave]
    exact ih bodies hrest

/-! ### Findings -/

theorem checkVisit_of_mirrors (agrees : lang.Agrees lang') {visit visit' : Visit}
    (h : visit.Mirrors rename visit') : lang'.checkVisit visit' = lang.checkVisit visit := by
  have hsite : lang'.checkSite visit'.site = lang.checkSite visit.site := by
    rw [agrees.checkSite, ← checkSite_plain, h.site.content, checkSite_plain]
  rw [checkVisit, checkVisit, hsite, h.reentrant, h.site.id_eq]

theorem findings_of_mirrors (agrees : lang.Agrees lang') {visits visits' : List Visit}
    (h : List.Forall₂ (Visit.Mirrors rename) visits visits') :
    lang'.findings visits' = (lang.findings visits).map (Prod.map rename id) := by
  induction h with
  | nil => rfl
  | @cons visit visit' rest rest' hvisit _ ih =>
    have hsplit : ∀ (lang : Language) (visit : Visit) (rest : List Visit),
        lang.findings (visit :: rest) =
          (lang.checkVisit visit).map (visit.site.statement.tag, ·) ++ lang.findings rest :=
      fun _ _ _ => List.flatMap_cons
    rw [hsplit, hsplit, List.map_append, ih, checkVisit_of_mirrors agrees hvisit,
      hvisit.site.tag, List.map_map]
    rfl

end Language

/-! ### Tables of findings -/

section

variable {κ κ' α : Type} [DecidableEq κ] [DecidableEq κ'] {f : κ → κ'}

theorem Entries.lookup_map {key : κ} {entries : List (κ × α)}
    (injective : ∀ k ∈ entries.map Prod.fst, f k = f key → k = key) :
    (entries.map (Prod.map f id)).lookup (f key) = entries.lookup key := by
  induction entries with
  | nil => rfl
  | cons entry rest ih =>
    obtain ⟨k, value⟩ := entry
    rw [List.map_cons, List.forall_mem_cons] at injective
    rw [List.map_cons, Prod.map_apply, List.lookup_cons, List.lookup_cons, ih injective.2]
    by_cases same : key = k
    · rw [same, beq_self_eq_true, beq_self_eq_true]
      rfl
    · have hne : f key ≠ f k := fun e => same (injective.1 e.symm).symm
      rw [beq_false_of_ne same, beq_false_of_ne hne]

theorem Entries.put_map {key : κ} (value : α) {entries : List (κ × α)}
    (injective : ∀ k ∈ entries.map Prod.fst, f k = f key → k = key) :
    put (f key) value (entries.map (Prod.map f id)) =
      (put key value entries).map (Prod.map f id) := by
  induction entries with
  | nil => rfl
  | cons entry rest ih =>
    obtain ⟨k, old⟩ := entry
    rw [List.map_cons, List.forall_mem_cons] at injective
    by_cases same : k = key
    · simp [put, same]
    · have hne : f k ≠ f key := fun e => same (injective.1 e)
      simp [put, same, hne, ih injective.2]

theorem Table.entries_push_map {t : Table κ (List α)} {t' : Table κ' (List α)} {key : κ}
    (h : t'.entries = t.entries.map (Prod.map f id))
    (injective : ∀ k ∈ t.keys, f k = f key → k = key) (a : α) :
    (t'.push (f key) a).entries = (t.push key a).entries.map (Prod.map f id) := by
  have hold : t'.get? (f key) = t.get? key := by
    rw [get?, h]
    exact Entries.lookup_map injective
  show Entries.put _ _ t'.entries = _
  rw [hold, h]
  exact Entries.put_map _ injective

theorem Table.entries_foldl_push_map {pairs : List (κ × α)} {t : Table κ (List α)}
    {t' : Table κ' (List α)} (h : t'.entries = t.entries.map (Prod.map f id))
    (injective : ∀ k ∈ t.keys ++ pairs.map Prod.fst, ∀ k' ∈ pairs.map Prod.fst,
      f k = f k' → k = k') :
    ((pairs.map (Prod.map f id)).foldl (fun t pair => t.push pair.1 pair.2) t').entries =
      (pairs.foldl (fun t pair => t.push pair.1 pair.2) t).entries.map (Prod.map f id) := by
  induction pairs generalizing t t' with
  | nil => exact h
  | cons pair rest ih =>
    obtain ⟨key, a⟩ := pair
    have hkey : key ∈ ((key, a) :: rest).map Prod.fst := List.mem_cons_self
    have hpush : (t'.push (f key) a).entries = (t.push key a).entries.map (Prod.map f id) :=
      entries_push_map h (fun k hk => injective k (List.mem_append_left _ hk) key hkey) a
    refine ih hpush fun k hk k' hk' => injective k ?_ k' (List.mem_cons_of_mem _ hk')
    rcases List.mem_append.mp hk with old | later
    · rcases mem_keys_insert.mp old with rfl | old
      · exact List.mem_append_right _ hkey
      · exact List.mem_append_left _ old
    · exact List.mem_append_right _ (List.mem_cons_of_mem _ later)

/-- Renaming keys, without making two of them one, renames the keys of what is collected. -/
theorem Table.entries_collect_map {pairs : List (κ × α)}
    (injective : ∀ k ∈ pairs.map Prod.fst, ∀ k' ∈ pairs.map Prod.fst, f k = f k' → k = k') :
    (collect (pairs.map (Prod.map f id))).entries =
      (collect pairs).entries.map (Prod.map f id) := by
  have empty : (∅ : Table κ' (List α)).entries =
      (∅ : Table κ (List α)).entries.map (Prod.map f id) := rfl
  exact entries_foldl_push_map empty injective

end

/-! ### Programs -/

/-- The second program has the content of the first, and its tags are the renamed ones. -/
structure Program.Mirrors (rename : Nat → Nat) (p q : Program) : Prop where
  root : p.block.Mirrors rename q.block
  bodies : MirrorBodies rename p.procedures q.procedures
  keys : q.procedures.keys = p.procedures.keys

/-- In programs that mirror each other, whose statements are told apart by their tags, the same
errors and warnings are found in the same order, under the renamed tags. -/
theorem Language.analyze_of_mirrors {lang lang' : Language} (agrees : lang.Agrees lang')
    {p q : Program} (h : p.Mirrors rename q)
    (injective : ∀ a ∈ p.nodes.map Statement.tag, ∀ b ∈ p.nodes.map Statement.tag,
      rename a = rename b → a = b) :
    (lang'.analyze q).errors.entries = (lang.analyze p).errors.entries.map (Prod.map rename id) ∧
      (lang'.analyze q).warnings.entries =
        (lang.analyze p).warnings.entries.map (Prod.map rename id) := by
  have hvisits : List.Forall₂ (Visit.Mirrors rename) (lang.visitProgram p)
      (lang'.visitProgram q) := by
    refine mirrors_schedule agrees _ _ _ h.bodies ?_
    rw [h.keys]
    refine List.rel_append (Task.mirrors_ofBlock h.root) ?_
    rw [List.forall₂_map_left_iff, List.forall₂_map_right_iff]
    exact List.forall₂_same.mpr fun id _ => .enter id
  have hcollect : ∀ severity : Severity,
      (Table.collect ((lang'.findings (lang'.visitProgram q)).filter
        (·.2.severity = severity))).entries =
      (Table.collect ((lang.findings (lang.visitProgram p)).filter
        (·.2.severity = severity))).entries.map (Prod.map rename id) := by
    intro severity
    have hmem : ∀ a ∈ ((lang.findings (lang.visitProgram p)).filter
        (·.2.severity = severity)).map Prod.fst, a ∈ p.nodes.map Statement.tag := by
      intro a ha
      rw [← (lang.map_tag_visitProgram p).mem_iff]
      exact lang.mem_map_fst_findings ((List.filter_sublist.map _).subset ha)
    rw [findings_of_mirrors agrees hvisits, List.filter_map]
    exact Table.entries_collect_map fun a ha b hb => injective a (hmem a ha) b (hmem b hb)
  exact ⟨hcollect .error, hcollect .warning⟩

end BlockScript
