import BlockScript.Proofs.Diagnostics
import BlockScript.Proofs.Layout
import BlockScript.Proofs.Splicing

/-! The analysis of a single block. It visits the block and then the bodies of the procedures that
calls lead to, and where these calls come back to the body around the block, it visits the block a
second time. So what it says of a statement is what the analysis of the program says, once or
twice. -/

namespace BlockScript

variable {ι : Type}

/-! ### Sites of a nested block -/

/-- The site with its depth counted from further out. -/
def Site.sink (levels : Nat) (site : Site ι) : Site ι :=
  { site with depth := site.depth + levels }

theorem Language.checkSite_sink (lang : Language) (levels : Nat) (site : Site ι) :
    lang.checkSite (site.sink levels) = lang.checkSite site := rfl

namespace Statement

mutual

theorem sitesBelow_add (depth levels : Nat) : (s : Statement ι) →
    s.sitesBelow (depth + levels) = (s.sitesBelow depth).map (Site.sink levels)
  | simple _ => rfl
  | compound head block => by
    rw [sitesBelow, sitesBelow, Nat.add_right_comm, sitesFrom_add _ _ levels _ _ block]

theorem sitesFrom_add (parent : Option (Statement ι)) (depth levels : Nat)
    (previous : Option (Statement ι)) (index : Nat) : (block : Block ι) →
    sitesFrom parent (depth + levels) previous index block =
      (sitesFrom parent depth previous index block).map (Site.sink levels)
  | [] => rfl
  | s :: rest => by
    rw [sitesFrom, sitesFrom, List.map_cons, List.map_append, sitesBelow_add depth levels s,
      sitesFrom_add parent depth levels _ _ rest]
    rfl

end

variable {head : Head ι} {block : Block ι}

mutual

theorem exists_sitesBelow (depth : Nat) : (s : Statement ι) → compound head block ∈ s.nodes →
    ∃ levels, ∀ site ∈ block.sites (some (compound head block)),
      site.sink levels ∈ s.sitesBelow depth
  | simple _, h => by
    cases List.mem_singleton.mp h
  | compound outer inner, h => by
    rw [sitesBelow]
    rcases List.mem_cons.mp h with same | inside
    · obtain ⟨rfl, rfl⟩ := Statement.compound.inj same
      have hsites := sitesFrom_add (some (compound head block)) 0 (depth + 1) none 0 block
      rw [Nat.zero_add] at hsites
      refine ⟨depth + 1, fun site hsite => ?_⟩
      rw [hsites]
      exact List.mem_map_of_mem hsite
    · exact exists_sitesFrom _ _ _ _ inner inside

/-- A walk over a block comes through every block nested in it. -/
theorem exists_sitesFrom (parent : Option (Statement ι)) (depth : Nat)
    (previous : Option (Statement ι)) (index : Nat) : (list : Block ι) →
    compound head block ∈ nodesEach list →
    ∃ levels, ∀ site ∈ block.sites (some (compound head block)),
      site.sink levels ∈ sitesFrom parent depth previous index list
  | s :: rest, h => by
    rw [sitesFrom]
    rcases List.mem_append.mp h with here | later
    · obtain ⟨levels, hsites⟩ := exists_sitesBelow depth s here
      refine ⟨levels, fun site hsite => List.mem_cons_of_mem _ ?_⟩
      exact List.mem_append_left _ (hsites site hsite)
    · obtain ⟨levels, hsites⟩ := exists_sitesFrom parent depth (some s) (index + 1) rest later
      refine ⟨levels, fun site hsite => List.mem_cons_of_mem _ ?_⟩
      exact List.mem_append_right _ (hsites site hsite)

end

end Statement

theorem Block.map_tag_sites (block : Block Nat) (parent : Option (Statement Nat)) :
    (block.sites parent).map (fun site => site.statement.tag) =
      (Statement.nodesEach block).map Statement.tag := by
  rw [← Block.map_statement_sites block parent, List.map_map]
  rfl

theorem Block.exists_site {block : Block ι} {s : Statement ι} (h : s ∈ Statement.nodesEach block)
    (parent : Option (Statement ι)) : ∃ site ∈ block.sites parent, site.statement = s := by
  rw [← Block.map_statement_sites block parent] at h
  exact List.mem_map.mp h

theorem Block.statement_mem {block : Block ι} {parent : Option (Statement ι)} {site : Site ι}
    (h : site ∈ block.sites parent) : site.statement ∈ Statement.nodesEach block := by
  rw [← Block.map_statement_sites block parent]
  exact List.mem_map_of_mem h

namespace Program

variable {p : Program} {place : Address} {block : Block Nat}

/-- The statement whose block stands under the address. -/
def owner? (p : Program) : Address → Option (Statement Nat)
  | .root | .procedure _ => none
  | .inside tag => p.find? tag

/-- The sites of all blocks of a program. -/
def sites (p : Program) : List (Site Nat) := p.blocks.flatMap fun block => block.sites

theorem map_statement_sites (p : Program) : p.sites.map Site.statement = p.nodes := by
  rw [sites, nodes, List.map_flatMap]
  simp only [Block.map_statement_sites]

theorem map_tag_sites (p : Program) :
    p.sites.map (fun site => site.statement.tag) = p.nodes.map Statement.tag := by
  rw [← p.map_statement_sites, List.map_map]
  rfl

/-- With distinct tags, a program has one site for each tag. -/
theorem site_unique (distinct : (p.nodes.map Statement.tag).Nodup) {a b : Site Nat}
    (ha : a ∈ p.sites) (hb : b ∈ p.sites) (same : a.statement.tag = b.statement.tag) : a = b := by
  rw [← map_tag_sites] at distinct
  exact List.inj_on_of_nodup_map distinct ha hb same

/-- The sites of any block are those of the program, but for the depth. -/
theorem exists_sink (h : p.block? place = some block) {site : Site Nat}
    (hsite : site ∈ block.sites (p.owner? place)) : ∃ levels, site.sink levels ∈ p.sites := by
  cases place with
  | root =>
    obtain rfl := Option.some.inj h
    exact ⟨0, List.mem_flatMap.mpr ⟨p.block, List.mem_cons_self, hsite⟩⟩
  | procedure id =>
    have hbody : block ∈ p.procedures.values := Table.mem_values_of_get? h
    exact ⟨0, List.mem_flatMap.mpr ⟨block, List.mem_cons_of_mem _ hbody, hsite⟩⟩
  | inside tag =>
    obtain ⟨s, hs, hblock⟩ := Option.bind_eq_some_iff.mp h
    rw [owner?, hs] at hsite
    cases s with
    | simple head => cases hblock
    | compound head inner =>
      obtain rfl := Option.some.inj hblock
      obtain ⟨body, hbody, hnode⟩ := List.mem_flatMap.mp (List.mem_of_find?_eq_some hs)
      obtain ⟨levels, hsites⟩ := Statement.exists_sitesFrom none 0 none 0 body hnode
      exact ⟨levels, List.mem_flatMap.mpr ⟨body, hbody, hsites site hsite⟩⟩

theorem nodup_nodesEach (distinct : (p.nodes.map Statement.tag).Nodup)
    (h : p.block? place = some block) : ((Statement.nodesEach block).map Statement.tag).Nodup := by
  obtain ⟨before, after, hheads, -⟩ := (replaced_of_modifyBlock h id).heads
  rw [map_tag_nodes, hheads, List.map_append, List.map_append] at distinct
  have hblock := (List.nodup_append.mp (List.nodup_append.mp distinct).1).2.1
  rw [List.map_map] at hblock
  exact hblock

end Program

/-! ### Procedures that calls lead to -/

namespace Program

/-- Calls in the block lead to the procedure, directly or through others. -/
def Leads (p : Program) (lang : Language) (block : Block Nat) (id : String) : Prop :=
  ∃ s ∈ Statement.nodesEach block, s.id ∈ p.procedures.keys ∧ lang.isProcedure s.id = true ∧
    ∃ path, p.CallPath lang s.id path id

/-- Calls in the block lead back to the body in which the statement stands. -/
def ComesBack (p : Program) (lang : Language) (block : Block Nat) (s : Statement Nat) : Prop :=
  ∃ id, p.Owns id s ∧ p.Leads lang block id

/-- The body of a procedure, empty if there is none. -/
def body (p : Program) (id : String) : Block Nat := (p.procedures.get? id).getD []

variable {p : Program} {lang : Language}

theorem owns_iff {id : String} {s : Statement Nat} :
    p.Owns id s ↔ s ∈ Statement.nodesEach (p.body id) := by
  rw [Owns, body]
  cases p.procedures.get? id <;> simp [Statement.nodesEach]

/-- Procedures that have all that they call have all that calls lead to. -/
theorem CallPath.mem {ids : List String} {caller callee : String} {path : List (Statement Nat)}
    (h : p.CallPath lang caller path callee)
    (closed : ∀ caller s callee, p.Calls lang caller s callee → caller ∈ ids → callee ∈ ids)
    (hcaller : caller ∈ ids) : callee ∈ ids := by
  induction h with
  | nil => exact hcaller
  | cons call _ ih => exact ih (closed _ _ _ call hcaller)

end Program

namespace Language

variable {lang : Language} {p : Program} {begun after : List String}
  {sites order : List (Site Nat)}

/-- A procedure is entered because a call in the sites leads to it. -/
def EnteredFrom (lang : Language) (p : Program) (sites : List (Site Nat)) (id : String) : Prop :=
  ∃ site ∈ sites, site.statement.id ∈ p.procedures.keys ∧
    lang.isProcedure site.statement.id = true ∧ ∃ path, p.CallPath lang site.statement.id path id

theorem EnteredFrom.tail {site : Site Nat} {id : String} (h : lang.EnteredFrom p sites id) :
    lang.EnteredFrom p (site :: sites) id := by
  obtain ⟨caller, hcaller, hcall⟩ := h
  exact ⟨caller, List.mem_cons_of_mem _ hcaller, hcall⟩

/-- What is entered from the body of a called procedure is entered from the call. -/
theorem EnteredFrom.call {site : Site Nat} {body : Block Nat} {id : String}
    (procedure : lang.isProcedure site.statement.id = true)
    (found : p.procedures.get? site.statement.id = some body)
    (h : lang.EnteredFrom p body.sites id) : lang.EnteredFrom p (site :: sites) id := by
  obtain ⟨inner, hinner, hkey, hprocedure, path, hpath⟩ := h
  have howns : p.Owns site.statement.id inner.statement := ⟨body, found, Block.statement_mem hinner⟩
  refine ⟨site, List.mem_cons_self, Table.mem_keys_of_get? found, procedure, ?_⟩
  exact ⟨inner.statement :: path, .cons ⟨howns, rfl, hkey, hprocedure⟩ hpath⟩

namespace Splices

theorem subset (h : lang.Splices p.procedures begun sites order after) : begun ⊆ after := by
  induction h with
  | nil => exact List.Subset.refl _
  | plain _ _ ih => exact ih
  | body _ _ _ _ _ ihbody ih =>
    exact List.Subset.trans (List.subset_cons_self ..) (List.Subset.trans ihbody ih)

/-- The order has the sites and those of the bodies that have been entered meanwhile; each is
entered once, because a call leads to it. -/
theorem exists_entered (h : lang.Splices p.procedures begun sites order after) :
    ∃ entered, after = entered ++ begun ∧ (begun.Nodup → after.Nodup) ∧
      order.Perm (sites ++ entered.flatMap fun id => (p.body id).sites) ∧
      ∀ id ∈ entered, lang.EnteredFrom p sites id := by
  induction h with
  | nil begun => exact ⟨[], rfl, fun h => h, .refl _, by simp⟩
  | @plain begun after site rest order _ _ ih =>
    obtain ⟨entered, hafter, hdistinct, hperm, hentered⟩ := ih
    exact ⟨entered, hafter, hdistinct, hperm.cons site, fun id hid => (hentered id hid).tail⟩
  | @body begun between after site body rest inner order procedure found fresh _ _ ihbody ih =>
    obtain ⟨first, rfl, hfirst, hinner, hfrom⟩ := ihbody
    obtain ⟨second, rfl, hsecond, horder, hrest⟩ := ih
    have hsites : (p.body site.statement.id).sites = body.sites := by
      rw [Program.body, found, Option.getD_some]
    refine ⟨second ++ (first ++ [site.statement.id]), by simp, fun distinct => ?_, ?_, ?_⟩
    · exact hsecond (hfirst (List.nodup_cons.mpr ⟨fresh, distinct⟩))
    · -- the sites of the body and of the rest change places
      refine .cons site ((hinner.append horder).trans ?_)
      simp only [List.flatMap_append, List.flatMap_cons, List.flatMap_nil, List.append_nil, hsites]
      refine List.perm_append_comm.trans ?_
      rw [List.append_assoc]
      exact .append_left rest (.append_left _ List.perm_append_comm)
    · intro id hid
      rcases List.mem_append.mp hid with later | earlier
      · exact (hrest id later).tail
      · rcases List.mem_append.mp earlier with inside | called
        · exact (hfrom id inside).call procedure found
        · obtain rfl := List.mem_singleton.mp called
          exact ⟨site, List.mem_cons_self, Table.mem_keys_of_get? found, procedure, [], .nil _⟩

/-- Every call that is visited leads into a body that has been begun. -/
theorem begun_of_call (h : lang.Splices p.procedures begun sites order after) :
    ∀ site ∈ order, lang.isProcedure site.statement.id = true →
      site.statement.id ∈ p.procedures.keys → site.statement.id ∈ after := by
  induction h with
  | nil => exact List.forall_mem_nil _
  | @plain begun after site rest order known hrest ih =>
    rw [List.forall_mem_cons]
    exact ⟨fun procedure hkey => hrest.subset (known procedure hkey), ih⟩
  | @body begun between after site body rest inner order procedure _ _ hbody hrest ihbody ih =>
    rw [List.forall_mem_cons, List.forall_mem_append]
    refine ⟨fun _ _ => hrest.subset (hbody.subset List.mem_cons_self), fun site hsite => ?_, ih⟩
    exact fun hprocedure hkey => hrest.subset (ihbody site hsite hprocedure hkey)

end Splices

variable (lang) {place : Address} {block : Block Nat}

/-- The analysis of a block visits its sites, and those of the bodies to which calls in it lead. -/
theorem exists_visited (p : Program) (block : Block Nat) (parent : Option (Statement Nat)) :
    ∃ entered : List String, entered.Nodup ∧ (∀ id, id ∈ entered ↔ p.Leads lang block id) ∧
      ((lang.visitBlock p.procedures block parent).map Visit.site).Perm
        (block.sites parent ++ entered.flatMap fun id => (p.body id).sites) := by
  obtain ⟨order, left, after, hsplices, hyields⟩ := exists_splices lang [] p.procedures
    (block.sites parent) (.init p.procedures) (List.nil_subset _)
  have hvisits := hyields.visits []
  rw [schedule_nil, List.map_nil, List.append_nil, List.append_nil] at hvisits
  obtain ⟨entered, hafter, hdistinct, hperm, hfrom⟩ := hsplices.exists_entered
  rw [List.append_nil] at hafter
  subst hafter
  refine ⟨after, hdistinct .nil, fun id => ⟨fun hid => ?_, ?_⟩, ?_⟩
  · obtain ⟨site, hsite, hcall⟩ := hfrom id hid
    exact ⟨site.statement, Block.statement_mem hsite, hcall⟩
  · rintro ⟨s, hs, hkey, procedure, path, hpath⟩
    have hbegun : ∀ site ∈ block.sites parent ++ after.flatMap (fun id => (p.body id).sites),
        lang.isProcedure site.statement.id = true → site.statement.id ∈ p.procedures.keys →
          site.statement.id ∈ after := fun site hsite =>
      hsplices.begun_of_call site (hperm.mem_iff.mpr hsite)
    obtain ⟨site, hsite, rfl⟩ := Block.exists_site hs parent
    refine hpath.mem (fun caller s callee call hcaller => ?_)
      (hbegun site (List.mem_append_left _ hsite) procedure hkey)
    obtain ⟨inner, hinner, rfl⟩ := Block.exists_site (Program.owns_iff.mp call.owns) none
    have hmem : inner ∈ after.flatMap fun id => (p.body id).sites :=
      List.mem_flatMap.mpr ⟨caller, hcaller, hinner⟩
    have hnext := hbegun inner (List.mem_append_right _ hmem)
    rw [call.id] at hnext
    exact hnext call.procedure call.known
  · show ((lang.schedule p.procedures [] (Task.ofBlock block parent)).map Visit.site).Perm _
    rw [Task.ofBlock, hvisits]
    exact hperm

end Language

namespace Program

variable {p : Program} {lang : Language} {place : Address} {block : Block Nat} {s t : Statement Nat}
  {id : String}

/-- With distinct tags, the bodies of different procedures have different tags. -/
theorem nodup_bodies (distinct : (p.nodes.map Statement.tag).Nodup) {ids : List String}
    (hids : ids.Nodup) : ((ids.flatMap fun id => (p.body id).sites).map fun site =>
      site.statement.tag).Nodup := by
  rw [List.map_flatMap]
  simp only [Block.map_tag_sites]
  refine List.nodup_flatMap.mpr ⟨fun id _ => ?_, hids.imp fun {a b} hne tag ha hb => hne ?_⟩
  · cases hbody : p.procedures.get? id with
    | none => simp [body, hbody, Statement.nodesEach]
    | some found =>
      have hplace : p.block? (.procedure id) = some found := hbody
      rw [body, hbody, Option.getD_some]
      exact nodup_nodesEach distinct hplace
  · obtain ⟨s, hs, rfl⟩ := List.mem_map.mp ha
    obtain ⟨t, ht, same⟩ := List.mem_map.mp hb
    have howns := owns_iff.mpr hs
    have howns' := owns_iff.mpr ht
    have heq := List.inj_on_of_nodup_map distinct (mem_nodes_of_owns howns')
      (mem_nodes_of_owns howns) same
    exact owns_unique distinct howns (heq ▸ howns')

/-- A block stands in one body as a whole. -/
theorem owns_of_block (distinct : (p.nodes.map Statement.tag).Nodup)
    (h : p.block? place = some block) (hs : s ∈ Statement.nodesEach block)
    (ht : t ∈ Statement.nodesEach block) (howns : p.Owns id s) : p.Owns id t := by
  obtain ⟨before, body, _, after, hblocks, -, hr⟩ := (replaced_of_modifyBlock h fun b => b).blocks
  have hmem : body ∈ p.block :: p.procedures.values := by
    show body ∈ p.blocks
    simp [hblocks]
  have hs' := hr.symm.mem_nodesEach hs
  rcases List.mem_cons.mp hmem with rfl | hvalue
  · exact absurd howns (not_owns_of_mem_block distinct hs')
  · obtain ⟨⟨caller, _⟩, hentry, rfl⟩ := List.mem_map.mp hvalue
    have hget := Entries.lookup_of_mem p.procedures.nodup hentry
    rw [owns_unique distinct howns ⟨_, hget, hs'⟩]
    exact ⟨_, hget, hr.symm.mem_nodesEach ht⟩

/-- Calls that come back to the body around them close a cycle. -/
theorem ComesBack.exists_cycle (distinct : (p.nodes.map Statement.tag).Nodup)
    (h : p.block? place = some block) (hs : s ∈ Statement.nodesEach block)
    (back : p.ComesBack lang block s) : ∃ id path, path ≠ [] ∧ p.CallPath lang id path id := by
  obtain ⟨id, howns, call, hcall, hkey, procedure, path, hpath⟩ := back
  have howns' := owns_of_block distinct h hs hcall howns
  exact ⟨id, call :: path, List.cons_ne_nil _ _, .cons ⟨howns', rfl, hkey, procedure⟩ hpath⟩

end Program

/-! ### What is found on visits -/

/-- The errors of a statement but for that of a cyclic call. -/
def Analysis.localErrorsOf (a : Analysis) (tag : Nat) : List Diagnostic :=
  (a.errorsOf tag).filter fun d => !d.isCyclic

theorem Argument.isCyclic_of_mem_check {a : Argument ι} {d : Diagnostic} (h : d ∈ a.check) :
    d.isCyclic = false := by
  by_contra cyclic
  have hsevere : d.severity = .error := by
    cases d <;> simp_all [Diagnostic.isCyclic]
  have hm : d ∈ a.check.filter (·.severity = .error) :=
    List.mem_filter.mpr ⟨h, decide_eq_true hsevere⟩
  rw [filter_error_check] at hm
  obtain ⟨e, -, he⟩ := List.mem_filterMap.mp hm
  exact cyclic (Expression.isCyclic_of_operatorError? he)

namespace Language

variable (lang : Language) (visits : List Visit) (dangling : List Dangling) (tag : Nat)

theorem isCyclic_of_mem_checkSite {site : Site ι} {d : Diagnostic} (h : d ∈ lang.checkSite site) :
    d.isCyclic = false := by
  cases hd : lang.statement? site.statement.id with
  | none =>
    rw [checkSite, hd] at h
    rw [List.mem_singleton.mp h]
    rfl
  | some descriptor =>
    rw [lang.checkSite_of_some hd, List.mem_append, List.mem_flatMap] at h
    rcases h with placed | ⟨a, -, ha⟩
    · exact (lang.kind_of_mem_placementErrors placed).2
    · exact Argument.isCyclic_of_mem_check ha

/-- What the rules find at the sites of a statement, of one severity. -/
def foundAt (severity : Severity) (sites : List (Site Nat)) : List Diagnostic :=
  (sites.filter fun site => site.statement.tag = tag).flatMap fun site =>
    (lang.checkSite site).filter (·.severity = severity)

theorem flatMap_checkVisit_sites (found : Site Nat → List Diagnostic) :
    (visits.filter (·.tag = tag)).flatMap (fun visit => found visit.site) =
      ((visits.map Visit.site).filter fun site => site.statement.tag = tag).flatMap found := by
  rw [List.filter_map, List.flatMap_map]
  rfl

theorem warningsOf_ofFindings :
    (Analysis.ofFindings (lang.findings visits) dangling).warningsOf tag =
      lang.foundAt tag .warning (visits.map Visit.site) := by
  have hvisit : ∀ visit : Visit, (lang.checkVisit visit).filter (·.severity = .warning) =
      (lang.checkSite visit.site).filter (·.severity = .warning) := by
    intro visit
    rw [checkVisit]
    split <;> simp
  rw [Analysis.warningsOf_ofFindings, filter_findings, List.filter_flatMap, foundAt,
    ← flatMap_checkVisit_sites]
  simp only [hvisit]

theorem localErrorsOf_ofFindings :
    (Analysis.ofFindings (lang.findings visits) dangling).localErrorsOf tag =
      lang.foundAt tag .error (visits.map Visit.site) := by
  have hvisit : ∀ visit : Visit, ((lang.checkVisit visit).filter (·.severity = .error)).filter
      (fun d => !d.isCyclic) = (lang.checkSite visit.site).filter (·.severity = .error) := by
    intro visit
    have hsite : ((lang.checkSite visit.site).filter (·.severity = .error)).filter
        (fun d => !d.isCyclic) = (lang.checkSite visit.site).filter (·.severity = .error) :=
      List.filter_eq_self.mpr fun d hd => by
        simp [lang.isCyclic_of_mem_checkSite (List.mem_filter.mp hd).1]
    rw [checkVisit, List.filter_append, List.filter_append, hsite]
    split <;> simp [Diagnostic.isCyclic]
  rw [Analysis.localErrorsOf, Analysis.errorsOf_ofFindings, filter_findings, List.filter_flatMap,
    List.filter_flatMap, foundAt, ← flatMap_checkVisit_sites]
  simp only [hvisit]

variable {lang tag}

/-- Where all sites of a statement look the same, the same is found as often as there are sites. -/
theorem foundAt_eq_replicate {site : Site Nat} {sites : List (Site Nat)} {n : Nat}
    (same : ∀ other ∈ sites, other.statement.tag = tag → lang.checkSite other = lang.checkSite site)
    (times : (sites.map fun site => site.statement.tag).count tag = n) (severity : Severity) :
    lang.foundAt tag severity sites =
      (List.replicate n ((lang.checkSite site).filter (·.severity = severity))).flatten := by
  have hlength : (sites.filter fun site => site.statement.tag = tag).length = n := by
    rw [← times, List.count_eq_countP, List.countP_map, List.countP_eq_length_filter]
    congr 2
  rw [foundAt, ← hlength, List.flatMap_def]
  congr 1
  refine List.map_eq_replicate_iff.mpr fun other hother => ?_
  obtain ⟨hmem, htag⟩ := List.mem_filter.mp hother
  rw [same other hmem (of_decide_eq_true htag)]

variable {p : Program} {place : Address} {block : Block Nat} {s : Statement Nat}

/-- What the analysis of a block visits, that of the program visits too. -/
theorem exists_sink_of_visited (h : p.block? place = some block) {site : Site Nat}
    {ids : List String} (hsite : site ∈ block.sites (p.owner? place) ++
      ids.flatMap fun id => (p.body id).sites) : ∃ levels, site.sink levels ∈ p.sites := by
  rcases List.mem_append.mp hsite with own | called
  · exact Program.exists_sink h own
  · obtain ⟨id, -, hbody⟩ := List.mem_flatMap.mp called
    rw [Program.body] at hbody
    cases hget : p.procedures.get? id with
    | none =>
      rw [hget] at hbody
      cases hbody
    | some body =>
      have hplace : p.block? (.procedure id) = some body := hget
      rw [hget] at hbody
      exact Program.exists_sink hplace hbody

/-- The bodies that are entered have the statement if calls come back to it. -/
theorem count_entered (distinct : (p.nodes.map Statement.tag).Nodup) (hs : s ∈ p.nodes)
    {ids : List String} (hids : ids.Nodup) (leads : ∀ id, id ∈ ids ↔ p.Leads lang block id) :
    let times := ((ids.flatMap fun id => (p.body id).sites).map fun site =>
      site.statement.tag).count s.tag
    times = 0 ∧ ¬p.ComesBack lang block s ∨ times = 1 ∧ p.ComesBack lang block s := by
  intro times
  by_cases back : p.ComesBack lang block s
  · obtain ⟨id, howns, hleads⟩ := id back
    obtain ⟨site, hsite, rfl⟩ := Block.exists_site (Program.owns_iff.mp howns) none
    refine .inr ⟨List.count_eq_one_of_mem (Program.nodup_bodies distinct hids) ?_, back⟩
    exact List.mem_map.mpr
      ⟨site, List.mem_flatMap.mpr ⟨id, (leads id).mpr hleads, hsite⟩, rfl⟩
  · refine .inl ⟨List.count_eq_zero.mpr fun hm => back ?_, back⟩
    obtain ⟨site, hsite, same⟩ := List.mem_map.mp hm
    obtain ⟨id, hid, hbody⟩ := List.mem_flatMap.mp hsite
    have howns := Program.owns_iff.mpr (Block.statement_mem hbody)
    have heq := List.inj_on_of_nodup_map distinct (Program.mem_nodes_of_owns howns) hs same
    exact ⟨id, heq ▸ howns, (leads id).mp hid⟩

/-- The analysis of a program finds at a statement what the rules find at the one site of it. -/
theorem foundAt_visitProgram (distinct : (p.nodes.map Statement.tag).Nodup) {site : Site Nat}
    {levels : Nat} (h : site.sink levels ∈ p.sites) (severity : Severity) :
    lang.foundAt site.statement.tag severity ((lang.visitProgram p).map Visit.site) =
      (lang.checkSite site).filter (·.severity = severity) := by
  have hperm : ((lang.visitProgram p).map Visit.site).Perm p.sites := lang.map_site_visitProgram p
  have hsame : ∀ other ∈ (lang.visitProgram p).map Visit.site,
      other.statement.tag = site.statement.tag → lang.checkSite other = lang.checkSite site := by
    intro other hother same
    rw [Program.site_unique distinct (hperm.mem_iff.mp hother) h same, checkSite_sink]
  have htimes : (((lang.visitProgram p).map Visit.site).map fun site => site.statement.tag).count
      site.statement.tag = 1 := by
    rw [(hperm.map _).count_eq]
    exact List.count_eq_one_of_mem (p.map_tag_sites ▸ distinct)
      (List.mem_map.mpr ⟨site.sink levels, h, rfl⟩)
  rw [foundAt_eq_replicate hsame htimes, List.replicate_one, List.flatten_singleton]

/-- The analysis of a block comes to the site of a statement once, and once more where calls in the
block come back to it. -/
theorem foundAt_visitBlock (distinct : (p.nodes.map Statement.tag).Nodup)
    (h : p.block? place = some block) {site : Site Nat}
    (hsite : site ∈ block.sites (p.owner? place)) :
    ∃ n, (n = 1 ∧ ¬p.ComesBack lang block site.statement ∨
        n = 2 ∧ p.ComesBack lang block site.statement) ∧
      ∀ severity, lang.foundAt site.statement.tag severity
          ((lang.visitBlock p.procedures block (p.owner? place)).map Visit.site) =
        (List.replicate n ((lang.checkSite site).filter (·.severity = severity))).flatten := by
  obtain ⟨levels, hsink⟩ := Program.exists_sink h hsite
  obtain ⟨ids, hids, leads, hperm⟩ := lang.exists_visited p block (p.owner? place)
  have hsame : ∀ other ∈ (lang.visitBlock p.procedures block (p.owner? place)).map Visit.site,
      other.statement.tag = site.statement.tag → lang.checkSite other = lang.checkSite site := by
    intro other hother same
    obtain ⟨outer, hinto⟩ := exists_sink_of_visited h (hperm.mem_iff.mp hother)
    rw [← lang.checkSite_sink outer other, Program.site_unique distinct hinto hsink same,
      checkSite_sink]
  have hown : ((block.sites (p.owner? place)).map fun site => site.statement.tag).count
      site.statement.tag = 1 := by
    rw [Block.map_tag_sites]
    exact List.count_eq_one_of_mem (Program.nodup_nodesEach distinct h)
      (List.mem_map_of_mem (Block.statement_mem hsite))
  have htimes := (hperm.map fun site => site.statement.tag).count_eq site.statement.tag
  rw [List.map_append, List.count_append, hown] at htimes
  refine ⟨_, ?_, foundAt_eq_replicate hsame htimes⟩
  have hnode : site.statement ∈ p.nodes := by
    rw [← p.map_statement_sites]
    exact List.mem_map.mpr ⟨site.sink levels, hsink, rfl⟩
  rcases count_entered distinct hnode hids leads with ⟨hzero, back⟩ | ⟨hone, back⟩
  · rw [hzero]
    exact .inl ⟨rfl, back⟩
  · rw [hone]
    exact .inr ⟨rfl, back⟩

variable (lang)

/-- The analysis of a block and that of the program agree. Of a statement anywhere in the block both
say the same, in the same order, but for the error of a cyclic call; only where calls in the block
come back to the body around it, on a cycle of calls, does the former say it twice over. -/
theorem analyzeBlock_exact (distinct : (p.nodes.map Statement.tag).Nodup)
    (h : p.block? place = some block) (hs : s ∈ Statement.nodesEach block) :
    let part := lang.analyzeBlock p.procedures block (p.owner? place)
    let whole := lang.analyze p
    (¬p.ComesBack lang block s → part.warningsOf s.tag = whole.warningsOf s.tag ∧
      part.localErrorsOf s.tag = whole.localErrorsOf s.tag) ∧
    (p.ComesBack lang block s →
      part.warningsOf s.tag = whole.warningsOf s.tag ++ whole.warningsOf s.tag ∧
      part.localErrorsOf s.tag = whole.localErrorsOf s.tag ++ whole.localErrorsOf s.tag ∧
      ∃ id path, path ≠ [] ∧ p.CallPath lang id path id) := by
  intro part whole
  obtain ⟨site, hsite, rfl⟩ := Block.exists_site hs (p.owner? place)
  obtain ⟨levels, hsink⟩ := Program.exists_sink h hsite
  obtain ⟨n, hn, hpart⟩ := lang.foundAt_visitBlock distinct h hsite
  have hwarnings : part.warningsOf site.statement.tag =
      (List.replicate n (whole.warningsOf site.statement.tag)).flatten := by
    simp only [part, whole, analyzeBlock, analyze, warningsOf_ofFindings, hpart,
      foundAt_visitProgram distinct hsink]
  have herrors : part.localErrorsOf site.statement.tag =
      (List.replicate n (whole.localErrorsOf site.statement.tag)).flatten := by
    simp only [part, whole, analyzeBlock, analyze, localErrorsOf_ofFindings, hpart,
      foundAt_visitProgram distinct hsink]
  rw [hwarnings, herrors]
  refine ⟨fun straight => ?_, fun back => ?_⟩
  · obtain ⟨rfl, -⟩ := hn.resolve_right fun hback => straight hback.2
    simp
  · obtain ⟨rfl, -⟩ := hn.resolve_left fun hstraight => hstraight.2 back
    exact ⟨by simp, by simp, back.exists_cycle distinct h hs⟩

/-- A procedure calls itself and then has an unknown statement: the statement is reported once in
the program and twice in the body. -/
theorem analyzeBlock_exact_recursive :
    let lang := define {} "loop" (procedureDescriptor "loop" none [])
    let lost : Statement Nat := .simple { id := "nope", tag := 2 }
    let body : Block Nat := [.simple { id := "loop", tag := 1 }, lost]
    let p : Program := { procedures := .ofList [("loop", body)], block := [], next := 3 }
    (p.nodes.map Statement.tag).Nodup ∧ p.block? (.procedure "loop") = some body ∧
      lost ∈ Statement.nodesEach body ∧ p.ComesBack lang body lost ∧
      (lang.analyzeBlock p.procedures body).localErrorsOf 2 =
        (lang.analyze p).localErrorsOf 2 ++ (lang.analyze p).localErrorsOf 2 := by
  intro lang lost body p
  have distinct : (p.nodes.map Statement.tag).Nodup := by decide
  have hbody : p.block? (.procedure "loop") = some body := rfl
  have hlost : lost ∈ Statement.nodesEach body := List.mem_cons_of_mem _ List.mem_cons_self
  have back : p.ComesBack lang body lost :=
    ⟨"loop", ⟨body, rfl, hlost⟩, _, List.mem_cons_self, by decide, by decide, [], .nil _⟩
  exact ⟨distinct, hbody, hlost, back,
    ((lang.analyzeBlock_exact distinct hbody hlost).2 back).2.1⟩

/-- The analysis of the body of a recursive procedure is not that of the program: an unknown
statement after the call is reported a second time. -/
theorem recursive_body_twice :
    let lang := define {} "loop" (procedureDescriptor "loop" none [])
    let lost : Statement Nat := .simple { id := "nope", tag := 2 }
    let body : Block Nat := [.simple { id := "loop", tag := 1 }, lost]
    let p : Program := { procedures := .ofList [("loop", body)], block := [], next := 3 }
    (p.nodes.map Statement.tag).Nodup ∧ p.block? (.procedure "loop") = some body ∧
      (lang.analyze p).localErrorsOf 2 = [.unknownStatement "nope"] ∧
      (lang.analyzeBlock p.procedures body).localErrorsOf 2 =
        [.unknownStatement "nope", .unknownStatement "nope"] := by
  intro lang lost body p
  have distinct : (p.nodes.map Statement.tag).Nodup := by decide
  have hbody : p.block? (.procedure "loop") = some body := rfl
  let site : Site Nat := ⟨lost, none, some (.simple { id := "loop", tag := 1 }), 1, 0⟩
  have hsite : site ∈ body.sites := List.mem_cons_of_mem _ List.mem_cons_self
  have hcheck : (lang.checkSite site).filter (·.severity = .error) =
      [.unknownStatement "nope"] := rfl
  have back : p.ComesBack lang body lost :=
    ⟨"loop", ⟨body, rfl, List.mem_cons_of_mem _ List.mem_cons_self⟩, _, List.mem_cons_self,
      by decide, by decide, [], .nil _⟩
  refine ⟨distinct, hbody, ?_, ?_⟩
  · have hsink : site.sink 0 ∈ p.sites :=
      List.mem_flatMap.mpr ⟨body, List.mem_cons_of_mem _ List.mem_cons_self, hsite⟩
    rw [analyze, localErrorsOf_ofFindings, ← hcheck]
    exact foundAt_visitProgram distinct hsink .error
  · obtain ⟨n, hn, hfound⟩ := lang.foundAt_visitBlock distinct hbody hsite
    obtain ⟨rfl, -⟩ := hn.resolve_left fun hstraight => hstraight.2 back
    rw [analyzeBlock, localErrorsOf_ofFindings]
    refine (hfound .error).trans ?_
    rw [hcheck]
    rfl

end Language

end BlockScript
