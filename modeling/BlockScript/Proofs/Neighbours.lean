import BlockScript.Proofs.Partial
import BlockScript.Proofs.Undo

/-! Edits change diagnostics only next door. The rules look at a statement, at the one before it and
at the one around it, and of the latter two only at what they are themselves. So an edit of one
block leaves the outline of every site but the moved one and the ones just after it, however deep,
and an analysis finds there what it found before. -/

namespace BlockScript

open Statement

variable {ι : Type}

/-! ### Outlines of sites -/

/-- What the rules see of a site: the statements in it, each with nothing in its block. -/
def Site.outline (site : Site ι) : Site ι where
  statement := site.statement.bare
  parent := site.parent.map bare
  previous := site.previous.map bare
  index := 0
  depth := 0

theorem Statement.head_bare (s : Statement ι) : s.bare.head = s.head := by cases s <;> rfl

theorem Statement.id_bare (s : Statement ι) : s.bare.id = s.id := congrArg Head.id s.head_bare

theorem Statement.tag_bare (s : Statement ι) : s.bare.tag = s.tag := congrArg Head.tag s.head_bare

theorem Statement.arguments_bare (s : Statement ι) : s.bare.arguments = s.arguments :=
  congrArg (fun head => head.arguments.getD []) s.head_bare

theorem Language.checkSite_outline (lang : Language) (site : Site ι) :
    lang.checkSite site.outline = lang.checkSite site := by
  have hid (o : Option (Statement ι)) : (o.map bare).map Statement.id = o.map Statement.id := by
    cases o with
    | none => rfl
    | some s => exact congrArg some s.id_bare
  simp only [checkSite, Site.outline, hid, id_bare, arguments_bare]

namespace Statement

mutual

theorem map_outline_sitesBelow (depth depth' : Nat) : (s : Statement ι) →
    (s.sitesBelow depth).map Site.outline = (s.sitesBelow depth').map Site.outline
  | simple _ => rfl
  | compound head block => by
    rw [sitesBelow, sitesBelow]
    exact map_outline_sitesFrom _ _ _ _ rfl rfl block

/-- The outlines of the sites in a block depend on what stands around and before it only through
the outlines of these. -/
theorem map_outline_sitesFrom {parent parent' previous previous' : Option (Statement ι)}
    (depth depth' index index' : Nat) (hparent : parent.map bare = parent'.map bare)
    (hprevious : previous.map bare = previous'.map bare) : (block : Block ι) →
    (sitesFrom parent depth previous index block).map Site.outline =
      (sitesFrom parent' depth' previous' index' block).map Site.outline
  | [] => rfl
  | s :: rest => by
    rw [sitesFrom, sitesFrom, List.map_cons, List.map_cons, List.map_append, List.map_append,
      map_outline_sitesBelow depth depth' s,
      map_outline_sitesFrom depth depth' (index + 1) (index' + 1) hparent rfl rest]
    simp only [Site.outline, hparent, hprevious]

end

/-- The outlines of the sites inside a statement. -/
def outlines (s : Statement ι) : List (Site ι) := (s.sitesBelow 0).map Site.outline

end Statement

namespace Block

variable {parent parent' previous previous' : Option (Statement ι)}

/-- The outlines of the sites of a block that stands in `parent`, the first after `previous`. -/
def outlines (parent previous : Option (Statement ι)) (block : Block ι) : List (Site ι) :=
  (sitesFrom parent 0 previous 0 block).map Site.outline

theorem outlines_congr (hparent : parent.map bare = parent'.map bare)
    (hprevious : previous.map bare = previous'.map bare) (block : Block ι) :
    outlines parent previous block = outlines parent' previous' block :=
  map_outline_sitesFrom 0 0 0 0 hparent hprevious block

theorem outlines_cons (parent previous : Option (Statement ι)) (s : Statement ι) (rest : Block ι) :
    outlines parent previous (s :: rest) =
      ⟨s.bare, parent.map bare, previous.map bare, 0, 0⟩ ::
        (s.outlines ++ outlines parent (some s) rest) := by
  rw [outlines, sitesFrom, List.map_cons, List.map_append,
    map_outline_sitesFrom 0 0 (0 + 1) 0 rfl rfl rest]
  rfl

theorem outlines_append (parent previous : Option (Statement ι)) (as bs : Block ι) :
    outlines parent previous (as ++ bs) =
      outlines parent previous as ++ outlines parent (as.getLast?.or previous) bs := by
  rw [outlines, sitesFrom_append, List.map_append,
    map_outline_sitesFrom 0 0 (0 + as.length) 0 rfl rfl bs]
  rfl

theorem outlines_compound (parent previous : Option (Statement ι)) (head : Head ι)
    (block : Block ι) : outlines parent previous [.compound head block] =
      ⟨bare (.compound head block), parent.map bare, previous.map bare, 0, 0⟩ ::
        outlines (some (.compound head block)) none block := by
  rw [outlines_cons, Statement.outlines, sitesBelow,
    map_outline_sitesFrom (0 + 1) 0 0 0 rfl rfl block, outlines, sitesFrom, List.map_nil,
    List.append_nil]
  rfl

/-- What stands in the block of the statement around plays no part. -/
theorem outlines_inside (head : Head ι) (inner inner' block : Block ι) :
    outlines (some (.compound head inner)) none block =
      outlines (some (.compound head inner')) none block := by
  apply outlines_congr
  · rfl
  · rfl

/-- An edit of the block of a statement leaves the outlines outside that block. -/
theorem Replaced.outlines {head : Head ι} {old new block block' : Block ι}
    (h : Replaced [.compound head old] [.compound head new] block block')
    (parent previous : Option (Statement ι)) :
    block'.getLast?.map bare = block.getLast?.map bare ∧ ∃ before after,
      Block.outlines parent previous block =
        before ++ Block.outlines (some (.compound head old)) none old ++ after ∧
      Block.outlines parent previous block' =
        before ++ Block.outlines (some (.compound head old)) none new ++ after := by
  induction h generalizing parent previous with
  | here =>
    refine ⟨rfl, [⟨bare (.compound head old), parent.map bare, previous.map bare, 0, 0⟩], [],
      ?_, ?_⟩
    · simp [outlines_compound]
    · rw [outlines_compound, outlines_inside head new old, List.append_nil]
      rfl
  | @beside block block' before after _ ih =>
    obtain ⟨hlast, b, a, hb, hb'⟩ := ih parent (before.getLast?.or previous)
    have hwhole : (before ++ block' ++ after).getLast?.map bare =
        (before ++ block ++ after).getLast?.map bare := by
      simp only [List.getLast?_append, Option.map_or, hlast]
    refine ⟨hwhole, Block.outlines parent previous before ++ b,
      a ++ Block.outlines parent ((before ++ block).getLast?.or previous) after, ?_, ?_⟩
    · rw [outlines_append, outlines_append, hb]
      simp only [List.append_assoc]
    · have hprevious : ((before ++ block').getLast?.or previous).map bare =
          ((before ++ block).getLast?.or previous).map bare := by
        simp only [List.getLast?_append, Option.map_or, hlast]
      have hafter : Block.outlines parent ((before ++ block').getLast?.or previous) after =
          Block.outlines parent ((before ++ block).getLast?.or previous) after :=
        outlines_congr rfl hprevious after
      rw [outlines_append, outlines_append, hb', hafter]
      simp only [List.append_assoc]
  | @inside block block' outer _ ih =>
    obtain ⟨-, b, a, hb, hb'⟩ := ih (some (.compound outer block)) none
    refine ⟨rfl, ⟨bare (.compound outer block), parent.map bare, previous.map bare, 0, 0⟩ :: b, a,
      ?_, ?_⟩
    · rw [outlines_compound, hb]
      rfl
    · rw [outlines_compound, outlines_inside outer block' block, hb']
      rfl

end Block

/-! ### A statement more or less -/

/-- The first list has the outlines of the second one, and those of the statement `s` with all
inside it. Of the others only that of the statement just after it may differ. -/
def Site.Joins (s : Statement ι) (next : Option (Statement ι)) (whole part : List (Site ι)) :
    Prop :=
  ∃ seat old new rest, whole.Perm (seat :: (s.outlines ++ (old ++ rest))) ∧
    part.Perm (new ++ rest) ∧ seat.statement.tag = s.tag ∧
    old.map (·.statement.tag) = next.toList.map tag ∧
    new.map (·.statement.tag) = next.toList.map tag

namespace Site.Joins

variable {s : Statement ι} {next : Option (Statement ι)} {whole part : List (Site ι)} {o : Site ι}

theorem around (h : Joins s next whole part) (before after : List (Site ι)) :
    Joins s next (before ++ whole ++ after) (before ++ part ++ after) := by
  obtain ⟨seat, old, new, rest, hwhole, hpart, hseat, hold, hnew⟩ := h
  refine ⟨seat, old, new, rest ++ (before ++ after), ?_, ?_, hseat, hold, hnew⟩
  · have hout : (before ++ whole ++ after).Perm (whole ++ (before ++ after)) := by
      rw [List.append_assoc]
      exact List.perm_append_comm_assoc before whole after
    have hin := hout.trans (hwhole.append_right (before ++ after))
    simpa only [List.cons_append, List.append_assoc] using hin
  · have hout : (before ++ part ++ after).Perm (part ++ (before ++ after)) := by
      rw [List.append_assoc]
      exact List.perm_append_comm_assoc before part after
    have hin := hout.trans (hpart.append_right (before ++ after))
    simpa only [List.append_assoc] using hin

theorem inner (h : Joins s next whole part) (ho : o ∈ s.outlines) : o ∈ whole := by
  obtain ⟨seat, old, new, rest, hwhole, -⟩ := h
  rw [hwhole.mem_iff]
  exact List.mem_cons_of_mem _ (List.mem_append_left _ ho)

theorem mem_whole (h : Joins s next whole part) (ho : o ∈ part)
    (other : o.statement.tag ∉ next.toList.map tag) : o ∈ whole := by
  obtain ⟨seat, old, new, rest, hwhole, hpart, -, -, hnew⟩ := h
  rw [hpart.mem_iff] at ho
  rcases List.mem_append.mp ho with after | stays
  · exact absurd (hnew ▸ List.mem_map_of_mem after) other
  · rw [hwhole.mem_iff]
    exact List.mem_cons_of_mem _ (List.mem_append_right _ (List.mem_append_right _ stays))

theorem mem_part (h : Joins s next whole part) (ho : o ∈ whole) (hs : o.statement.tag ≠ s.tag)
    (other : o.statement.tag ∉ next.toList.map tag) : o ∈ s.outlines ∨ o ∈ part := by
  obtain ⟨seat, old, new, rest, hwhole, hpart, hseat, hold, -⟩ := h
  rw [hwhole.mem_iff] at ho
  rcases List.mem_cons.mp ho with rfl | ho
  · exact absurd hseat hs
  · rcases List.mem_append.mp ho with inside | ho
    · exact .inl inside
    · rcases List.mem_append.mp ho with after | stays
      · exact absurd (hold ▸ List.mem_map_of_mem after) other
      · exact .inr (hpart.mem_iff.mpr (List.mem_append_right _ stays))

/-- With distinct tags, neither the statement nor anything inside it is in the part that lacks
it. -/
theorem apart (h : Joins s next whole part) (distinct : (whole.map (·.statement.tag)).Nodup)
    {t : ι} (ht : t = s.tag ∨ t ∈ s.outlines.map (·.statement.tag)) :
    t ∉ part.map (·.statement.tag) := by
  obtain ⟨seat, old, new, rest, hwhole, hpart, hseat, hold, hnew⟩ := h
  have htags : (whole.map (·.statement.tag)).Perm
      (s.tag :: (s.outlines.map (·.statement.tag) ++ (new ++ rest).map (·.statement.tag))) := by
    refine (hwhole.map _).trans (.of_eq ?_)
    rw [List.map_cons, List.map_append, List.map_append, List.map_append, hseat, hold, hnew]
  rw [htags.nodup_iff, List.nodup_cons, List.nodup_append] at distinct
  rw [(hpart.map _).mem_iff]
  intro hm
  rcases ht with rfl | inside
  · exact distinct.1 (List.mem_append_right _ hm)
  · exact distinct.2.2.2 t inside t hm rfl

end Site.Joins

namespace Block

variable {block : Block ι} {index : Nat} {s : Statement ι}

/-- Only the first of the siblings sees what stands before them. -/
theorem exists_outlines (parent : Option (Statement ι)) (block : Block ι) :
    ∃ rest, ∀ previous, ∃ first, outlines parent previous block = first ++ rest ∧
      first.map (·.statement.tag) = block.head?.toList.map tag := by
  cases block with
  | nil => exact ⟨[], fun _ => ⟨[], rfl, rfl⟩⟩
  | cons s rest =>
    refine ⟨s.outlines ++ outlines parent (some s) rest, fun previous =>
      ⟨[⟨s.bare, parent.map bare, previous.map bare, 0, 0⟩],
        outlines_cons parent previous s rest, ?_⟩⟩
    simp [tag_bare]

/-- Taking a statement out of a block takes its outlines out. -/
theorem joins_eraseIdx (parent : Option (Statement ι)) (h : block[index]? = some s) :
    Site.Joins s block[index + 1]? (outlines parent none block)
      (outlines parent none (block.eraseIdx index)) := by
  obtain ⟨hlt, rfl⟩ := List.getElem?_eq_some_iff.mp h
  set before := block.take index
  set after := block.drop (index + 1)
  have hsplit : block = before ++ block[index] :: after := by
    rw [← List.drop_eq_getElem_cons hlt, List.take_append_drop]
  have herase : block.eraseIdx index = before ++ after := List.eraseIdx_eq_take_drop_succ ..
  have hnext : block[index + 1]? = after.head? := by rw [List.head?_drop]
  obtain ⟨rest, hrest⟩ := exists_outlines parent after
  obtain ⟨old, hold, holdtags⟩ := hrest (some block[index])
  obtain ⟨new, hnew, hnewtags⟩ := hrest (before.getLast?.or none)
  rw [hnext, herase, outlines_append, hnew]
  refine ⟨⟨bare block[index], parent.map bare, (before.getLast?.or none).map bare, 0, 0⟩, old, new,
    outlines parent none before ++ rest, ?_, ?_, tag_bare _, holdtags, hnewtags⟩
  · have hwhole : outlines parent none block = outlines parent none before ++
        ⟨bare block[index], parent.map bare, (before.getLast?.or none).map bare, 0, 0⟩ ::
          (block[index].outlines ++ (old ++ rest)) := by
      conv_lhs => rw [hsplit]
      rw [outlines_append, outlines_cons, hold]
    rw [hwhole]
    refine List.perm_middle.trans (.cons _ ?_)
    refine (List.perm_append_comm_assoc ..).trans (.append_left _ ?_)
    exact List.perm_append_comm_assoc ..
  · exact List.perm_append_comm_assoc ..

/-- Putting a statement into a block puts its outlines in. -/
theorem joins_insertIdx (parent : Option (Statement ι)) (h : index ≤ block.length)
    (s : Statement ι) : Site.Joins s (block.insertIdx index s)[index + 1]?
      (outlines parent none (block.insertIdx index s)) (outlines parent none block) := by
  have hs : (block.insertIdx index s)[index]? = some s := by
    rw [List.getElem?_insertIdx_self, if_pos h]
  have hjoins := joins_eraseIdx parent hs
  rwa [List.eraseIdx_insertIdx_self] at hjoins

end Block

/-! ### Outlines of a program -/

namespace Program

variable {p q : Program} {place : Address} {block : Block Nat} {index : Nat} {s : Statement Nat}
  {o : Site Nat}

/-- The outlines of all sites of a program. -/
def outlines (p : Program) : List (Site Nat) := p.sites.map Site.outline

theorem map_tag_outlines (p : Program) :
    p.outlines.map (·.statement.tag) = p.nodes.map Statement.tag := by
  rw [← map_tag_sites, outlines, List.map_map]
  exact List.map_congr_left fun site _ => tag_bare site.statement

theorem outlines_eq (p : Program) : p.outlines = p.blocks.flatMap (Block.outlines none none) := by
  rw [outlines, sites, List.map_flatMap]
  rfl

theorem exists_outline {tag : Nat} (h : tag ∈ p.nodes.map Statement.tag) :
    ∃ o ∈ p.outlines, o.statement.tag = tag := by
  rw [← map_tag_outlines] at h
  exact List.mem_map.mp h

/-- An edit of a block leaves the outlines outside that block. -/
theorem outlines_modifyBlock (h : p.block? place = some block) (f : Block Nat → Block Nat) :
    ∃ before after,
      p.outlines = before ++ Block.outlines (p.owner? place) none block ++ after ∧
      (p.modifyBlock place f).outlines =
        before ++ Block.outlines (p.owner? place) none (f block) ++ after := by
  simp only [outlines_eq]
  cases place with
  | root =>
    obtain rfl := Option.some.inj h
    exact ⟨[], p.procedures.values.flatMap (Block.outlines none none), rfl, rfl⟩
  | procedure name =>
    have hget : p.procedures.get? name = some block := h
    obtain ⟨before, after, hb, hb'⟩ := Entries.put_of_lookup (f block) hget
    refine ⟨Block.outlines none none p.block ++
        (before.map Prod.snd).flatMap (Block.outlines none none),
      (after.map Prod.snd).flatMap (Block.outlines none none), ?_, ?_⟩
    · simp [blocks, Table.values, hb, owner?]
    · simp [blocks, Table.values, modifyBlock, hget, Table.insert, hb', owner?]
  | inside tag =>
    obtain ⟨s, hs, hblock⟩ := Option.bind_eq_some_iff.mp h
    have hsome : p.update? tag (mapBlock f) ≠ none :=
      fun hnone => by simp [update?_eq_none_iff.mp hnone] at hs
    obtain ⟨q, hq⟩ := Option.ne_none_iff_exists'.mp hsome
    obtain ⟨s', hs', hr⟩ := replaced_of_update? hq
    obtain rfl := Option.some.inj (hs.symm.trans hs')
    cases s with
    | simple head => cases hblock
    | compound head inner =>
      obtain rfl := Option.some.inj hblock
      obtain ⟨before, body, body', after, hp, hq', hr⟩ := hr.blocks
      obtain ⟨-, b, a, hb, hb'⟩ := Block.Replaced.outlines hr none none
      simp only [modifyBlock, hq, Option.getD_some, owner?, hs]
      refine ⟨before.flatMap (Block.outlines none none) ++ b,
        a ++ after.flatMap (Block.outlines none none), ?_, ?_⟩
      · simp [hp, hb]
      · simp [hq', hb']

theorem joins_eraseIdx (h : p.block? place = some block) (hs : block[index]? = some s) :
    Site.Joins s block[index + 1]? p.outlines
      (p.modifyBlock place (·.eraseIdx index)).outlines := by
  obtain ⟨before, after, hp, hq⟩ := outlines_modifyBlock h (·.eraseIdx index)
  rw [hp, hq]
  exact (Block.joins_eraseIdx _ hs).around before after

theorem joins_insertIdx (h : p.block? place = some block) (hindex : index ≤ block.length)
    (s : Statement Nat) : Site.Joins s (block.insertIdx index s)[index + 1]?
      (p.modifyBlock place (·.insertIdx index s)).outlines p.outlines := by
  obtain ⟨before, after, hp, hq⟩ := outlines_modifyBlock h (·.insertIdx index s)
  rw [hp, hq]
  exact (Block.joins_insertIdx _ hindex s).around before after

/-- A move within a block is a removal and then an insertion. -/
theorem joins_relocate {source target : Nat} (h : p.block? place = some block)
    (hs : block[source]? = some s) (htarget : target < block.length) : ∃ part,
      Site.Joins s block[source + 1]? p.outlines part ∧
      Site.Joins s (block.relocate source target)[target + 1]?
        (p.modifyBlock place (Block.relocate source target)).outlines part := by
  have hlength : target ≤ (block.eraseIdx source).length := by
    have hsource := (List.getElem?_eq_some_iff.mp hs).1
    rw [List.length_eraseIdx_of_lt hsource]
    omega
  obtain ⟨before, after, hp, hq⟩ := outlines_modifyBlock h (Block.relocate source target)
  rw [hp, hq, Block.relocate_of_getElem? hs]
  exact ⟨_, (Block.joins_eraseIdx _ hs).around before after,
    (Block.joins_insertIdx _ hlength s).around before after⟩

end Program

/-! ### The same findings -/

theorem not_mem_tags_of_ne {next : Option (Statement ι)} {t : ι} (h : some t ≠ next.map tag) :
    t ∉ next.toList.map tag := by
  cases next with
  | none => exact List.not_mem_nil
  | some s => simpa using h

theorem exists_outline_inside {s inner : Statement ι} (h : inner ∈ nodesEach (s.block?.getD [])) :
    ∃ o ∈ s.outlines, o.statement.tag = inner.tag := by
  have hnodes : s.nodes = s :: nodesEach (s.block?.getD []) := by cases s <;> rfl
  rw [← map_statement_sitesBelow 0] at hnodes
  rw [← List.tail_eq_of_cons_eq hnodes] at h
  obtain ⟨site, hsite, rfl⟩ := List.mem_map.mp h
  exact ⟨site.outline, List.mem_map_of_mem hsite, tag_bare _⟩

/-- Two analyses say the same of a statement, but for the error of a cyclic call. -/
structure Analysis.AgreeOn (a b : Analysis) (tag : Nat) : Prop where
  warnings : b.warningsOf tag = a.warningsOf tag
  errors : b.localErrorsOf tag = a.localErrorsOf tag

/-- Between the two programs the diagnostics change at most of statements with the tags `near`.
Statements that stand directly in a block that is none of `places` are not among these. -/
structure Language.ChangesOnly (lang : Language) (p q : Program) (near : List (Option Nat))
    (places : List Address) : Prop where
  far : ∀ t ∈ p.nodes.map tag, t ∈ q.nodes.map tag → some t ∉ near →
    (lang.analyze p).AgreeOn (lang.analyze q) t
  elsewhere : ∀ place block, place ∉ places → p.block? place = some block →
    ∀ s ∈ block, s.tag ∈ q.nodes.map tag → (lang.analyze p).AgreeOn (lang.analyze q) s.tag

namespace Program

variable {p q : Program} {place other : Address} {block : Block Nat} {index : Nat}
  {s : Statement Nat}

theorem exists_of_insert {template : Statement ι} (h : p.insert place index template = .ok q) :
    ∃ block, p.block? place = some block ∧ index ≤ block.length ∧
      q = { p.modifyBlock place (·.insertIdx index (template.stamp p.next)) with
        next := p.next + template.count } := by
  rw [insert] at h
  split at h
  · cases h
  · rename_i block hblock
    split at h
    · rename_i hindex
      exact ⟨block, hblock, hindex, (Except.ok.inj h).symm⟩
    · cases h

theorem exists_of_remove {removed : Statement Nat} (h : p.remove place index = .ok (removed, q)) :
    ∃ block, p.block? place = some block ∧
      q = (p.modifyBlock place (·.eraseIdx index)).forget removed.subtree := by
  rw [remove] at h
  split at h
  · cases h
  · rename_i block hblock
    split at h
    · obtain ⟨rfl, rfl⟩ := Prod.mk.inj (Except.ok.inj h)
      exact ⟨block, hblock, rfl⟩
    · cases h

theorem Edited.nodup {new : Block Nat} {gone come : List (Statement Nat)}
    (h : Edited p q place new gone come)
    (distinct : (p.nodes.map Statement.tag ++ come.map Statement.tag).Nodup) :
    (q.nodes.map Statement.tag).Nodup := by
  have htags := h.others.map Statement.tag
  have hbare (list : List (Statement Nat)) : (list.map bare).map Statement.tag =
      list.map Statement.tag := by
    rw [List.map_map]
    exact List.map_congr_left fun s _ => tag_bare s
  rw [List.map_append, List.map_append, hbare, hbare, hbare, hbare] at htags
  exact (List.nodup_append.mp (htags.nodup_iff.mpr distinct)).1

/-- The statement at a place of a block. -/
def statementAt? (p : Program) (place : Address) (index : Nat) : Option (Statement Nat) :=
  (p.block? place).bind fun block => block[index]?

def tagAt? (p : Program) (place : Address) (index : Nat) : Option Nat :=
  (p.statementAt? place index).map Statement.tag

theorem tagAt?_eq (h : p.block? place = some block) (index : Nat) :
    p.tagAt? place index = block[index]?.map Statement.tag := by
  rw [tagAt?, statementAt?, h, Option.bind_some]

theorem mem_nodesEach_of_mem {s : Statement Nat} (h : s ∈ block) : s ∈ nodesEach block := by
  rw [nodesEach_eq_flatMap]
  refine List.mem_flatMap.mpr ⟨s, h, ?_⟩
  cases s <;> exact List.mem_cons_self

/-- A statement directly in a block has a site with the owner of the block around it. -/
theorem exists_site_of_mem (h : p.block? place = some block) (hs : s ∈ block) :
    ∃ site ∈ p.sites, site.statement = s ∧ site.parent = p.owner? place := by
  obtain ⟨before, after, rfl⟩ := List.append_of_mem hs
  have hstands : Block.Stands s (p.owner? place) before.getLast? (p.owner? place)
      (before ++ s :: after) := .here before after rfl
  obtain ⟨site, hsite, hstatement, hparent, -⟩ := hstands.exists_sitesFrom 0
  obtain ⟨levels, hsink⟩ := exists_sink h hsite
  exact ⟨_, hsink, hstatement, hparent⟩

theorem exists_owner {tag : Nat} (h : p.block? (.inside tag) = some block) :
    ∃ s, p.owner? (.inside tag) = some s ∧ s.tag = tag := by
  obtain ⟨s, hs, -⟩ := Option.bind_eq_some_iff.mp h
  exact ⟨s, hs, by simpa using List.find?_some hs⟩

/-- With distinct tags, a statement stands directly in one block. -/
theorem place_unique (distinct : (p.nodes.map Statement.tag).Nodup) {block' : Block Nat}
    {t : Statement Nat} (h : p.block? place = some block) (hs : s ∈ block)
    (h' : p.block? other = some block') (ht : t ∈ block') (same : s.tag = t.tag) :
    place = other := by
  obtain ⟨site, hsite, rfl, hparent⟩ := exists_site_of_mem h hs
  obtain ⟨site', hsite', rfl, hparent'⟩ := exists_site_of_mem h' ht
  obtain rfl := site_unique distinct hsite hsite' same
  have howner : p.owner? place = p.owner? other := hparent.symm.trans hparent'
  cases place with
  | root =>
    obtain rfl := Option.some.inj h
    cases other with
    | root => rfl
    | procedure name =>
      have howns : p.Owns name site.statement := ⟨block', h', mem_nodesEach_of_mem ht⟩
      exact absurd howns (not_owns_of_mem_block distinct (mem_nodesEach_of_mem hs))
    | inside tag =>
      obtain ⟨owner, hsome, -⟩ := exists_owner h'
      cases howner.trans hsome
  | procedure name =>
    have howns : p.Owns name site.statement := ⟨block, h, mem_nodesEach_of_mem hs⟩
    cases other with
    | root =>
      obtain rfl := Option.some.inj h'
      exact absurd howns (not_owns_of_mem_block distinct (mem_nodesEach_of_mem ht))
    | procedure name' =>
      rw [owns_unique distinct howns ⟨block', h', mem_nodesEach_of_mem ht⟩]
    | inside tag =>
      obtain ⟨owner, hsome, -⟩ := exists_owner h'
      cases howner.trans hsome
  | inside tag =>
    obtain ⟨owner, hsome, rfl⟩ := exists_owner h
    cases other with
    | root | procedure => cases hsome.symm.trans howner
    | inside tag' =>
      obtain ⟨owner', hsome', rfl⟩ := exists_owner h'
      rw [Option.some.inj (hsome.symm.trans (howner.trans hsome'))]

theorem tagAt?_ne (distinct : (p.nodes.map Statement.tag).Nodup) (h : p.block? place = some block)
    (hs : s ∈ block) (hne : place ≠ other) (index : Nat) : some s.tag ≠ p.tagAt? other index := by
  intro same
  obtain ⟨t, ht, htag⟩ := Option.map_eq_some_iff.mp same.symm
  obtain ⟨block', h', ht⟩ := Option.bind_eq_some_iff.mp ht
  exact hne (place_unique distinct h hs h' (List.mem_of_getElem? ht) htag.symm)

/-- Where a block keeps its children, its statements do not stand in another one afterwards. -/
theorem tagAt?_ne_of_children? (qdistinct : (q.nodes.map Statement.tag).Nodup)
    (h : p.block? place = some block) (same : q.children? place = p.children? place)
    (hs : s ∈ block) (hne : place ≠ other) (index : Nat) : some s.tag ≠ q.tagAt? other index := by
  rw [children?, children?, h, Option.map_some] at same
  obtain ⟨block', h', hchildren⟩ := Option.map_eq_some_iff.mp same
  have hbare : s.bare ∈ Block.children block' := hchildren ▸ List.mem_map_of_mem hs
  obtain ⟨t, ht, hst⟩ := List.mem_map.mp hbare
  have htag : t.tag = s.tag := by rw [← tag_bare t, hst, tag_bare]
  rw [← htag]
  exact tagAt?_ne qdistinct h' ht hne index

end Program

namespace Language

variable (lang : Language) {p q : Program} {o : Site Nat}

/-- An analysis finds at a statement what the rules find at its outline. -/
theorem findings_of_outline (distinct : (p.nodes.map Statement.tag).Nodup) (ho : o ∈ p.outlines) :
    (lang.analyze p).warningsOf o.statement.tag =
        (lang.checkSite o).filter (·.severity = .warning) ∧
      (lang.analyze p).localErrorsOf o.statement.tag =
        (lang.checkSite o).filter (·.severity = .error) := by
  obtain ⟨site, hsite, rfl⟩ := List.mem_map.mp ho
  have hsink : site.sink 0 ∈ p.sites := hsite
  have htag : site.outline.statement.tag = site.statement.tag := tag_bare _
  rw [htag, checkSite_outline, analyze, warningsOf_ofFindings, localErrorsOf_ofFindings]
  exact ⟨foundAt_visitProgram distinct hsink _, foundAt_visitProgram distinct hsink _⟩

theorem agreeOn_of_mem (distinct : (p.nodes.map Statement.tag).Nodup)
    (qdistinct : (q.nodes.map Statement.tag).Nodup) (hp : o ∈ p.outlines) (hq : o ∈ q.outlines) :
    (lang.analyze p).AgreeOn (lang.analyze q) o.statement.tag := by
  obtain ⟨hwarnings, herrors⟩ := lang.findings_of_outline distinct hp
  obtain ⟨hwarnings', herrors'⟩ := lang.findings_of_outline qdistinct hq
  exact ⟨hwarnings'.trans hwarnings.symm, herrors'.trans herrors.symm⟩

theorem changesOnly_of {near : List (Option Nat)} {places : List Address}
    (far : ∀ t ∈ p.nodes.map tag, t ∈ q.nodes.map tag → some t ∉ near →
      (lang.analyze p).AgreeOn (lang.analyze q) t)
    (inside : ∀ place block, place ∉ places → p.block? place = some block → ∀ s ∈ block,
      s.tag ∈ q.nodes.map tag → some s.tag ∉ near) :
    lang.ChangesOnly p q near places where
  far := far
  elsewhere place block hplace hblock s hs hq := by
    obtain ⟨site, hsite, rfl, -⟩ := Program.exists_site_of_mem hblock hs
    have hnode : site.statement ∈ p.nodes := by
      rw [← p.map_statement_sites]
      exact List.mem_map_of_mem hsite
    exact far _ (List.mem_map_of_mem hnode) hq (inside place block hplace hblock _ hs hq)

variable {place source target : Address} {block destination : Block Nat}
  {index sourceIndex targetIndex : Nat} {moved removed : Statement Nat}

theorem changesOnly_insert {template : Statement ι} (distinct : (p.nodes.map Statement.tag).Nodup)
    (fresh : ∀ s ∈ p.nodes, s.tag < p.next) (h : p.insert place index template = .ok q) :
    lang.ChangesOnly p q [q.tagAt? place (index + 1)] [place] := by
  obtain ⟨block, hblock, hindex, hq⟩ := Program.exists_of_insert h
  have done := Program.edited_insert distinct fresh hblock h
  have qdistinct := done.nodup (Program.nodup_tags_with_stamp distinct fresh template)
  have hjoins := Program.joins_insertIdx hblock hindex (template.stamp p.next)
  have houtlines : q.outlines = (p.modifyBlock place
      (·.insertIdx index (template.stamp p.next))).outlines := by
    rw [hq]
    rfl
  refine lang.changesOnly_of (fun t ht _ hnear => ?_) fun other block' hother hblock' s hs _ => ?_
  · obtain ⟨o, ho, rfl⟩ := Program.exists_outline ht
    rw [List.mem_singleton, Program.tagAt?_eq done.edited] at hnear
    refine lang.agreeOn_of_mem distinct qdistinct ho ?_
    rw [houtlines]
    exact hjoins.mem_whole ho (not_mem_tags_of_ne hnear)
  · rw [List.mem_singleton] at hother ⊢
    refine Program.tagAt?_ne_of_children? qdistinct hblock' (done.elsewhere other hother ?_) hs
      hother _
    -- the owner of an old block is not new
    rintro c hc rfl
    obtain ⟨owner, howner, -⟩ := Program.exists_owner hblock'
    cases howner.symm.trans (done.arrived c hc).1

theorem changesOnly_remove (distinct : (p.nodes.map Statement.tag).Nodup)
    (h : p.remove place index = .ok (removed, q)) :
    lang.ChangesOnly p q [p.tagAt? place (index + 1)] [place] := by
  obtain ⟨block, hblock, hq⟩ := Program.exists_of_remove h
  obtain ⟨hremoved, done⟩ := Program.edited_remove distinct hblock h
  have qdistinct := done.nodup (by simpa using distinct)
  have hjoins := Program.joins_eraseIdx hblock hremoved
  have houtlines : q.outlines = (p.modifyBlock place (·.eraseIdx index)).outlines := by
    rw [hq]
    rfl
  rw [← houtlines] at hjoins
  refine lang.changesOnly_of (fun t ht hqt hnear => ?_) fun other block' hother hblock' s hs _ => ?_
  · obtain ⟨o, ho, rfl⟩ := Program.exists_outline ht
    rw [List.mem_singleton, Program.tagAt?_eq hblock] at hnear
    refine lang.agreeOn_of_mem distinct qdistinct ho ?_
    rw [← Program.map_tag_outlines] at hqt
    have wdistinct := p.map_tag_outlines ▸ distinct
    have hne : o.statement.tag ≠ removed.tag := fun same =>
      hjoins.apart wdistinct (.inl same) hqt
    rcases hjoins.mem_part ho hne (not_mem_tags_of_ne hnear) with inside | stays
    · exact absurd hqt (hjoins.apart wdistinct (.inr (List.mem_map_of_mem inside)))
    · exact stays
  · rw [List.mem_singleton] at hother ⊢
    exact Program.tagAt?_ne distinct hblock' hs hother _

/-- A statement that is taken out at one place and put in at another is seen otherwise, and so are
the statements just after the two places; all other statements are seen as before, also those inside
it. -/
theorem changesOnly_of_joins (distinct : (p.nodes.map Statement.tag).Nodup)
    (qdistinct : (q.nodes.map Statement.tag).Nodup) {filled : Block Nat} {part : List (Site Nat)}
    (hblock : p.block? source = some block) (hmoved : block[sourceIndex]? = some moved)
    (hfilled : q.block? target = some filled)
    (out : Site.Joins moved block[sourceIndex + 1]? p.outlines part)
    (back : Site.Joins moved filled[targetIndex + 1]? q.outlines part) {places : List Address}
    (hsource : source ∈ places) (htarget : target ∈ places)
    (same : ∀ other, other ∉ places → q.children? other = p.children? other) :
    lang.ChangesOnly p q [p.tagAt? source sourceIndex, p.tagAt? source (sourceIndex + 1),
      q.tagAt? target (targetIndex + 1)] places ∧
    ∀ moved ∈ p.statementAt? source sourceIndex, ∀ inner ∈ nodesEach (moved.block?.getD []),
      (lang.analyze p).AgreeOn (lang.analyze q) inner.tag := by
  refine ⟨lang.changesOnly_of (fun t ht _ far => ?_) fun other block' hother hblock' s hs _ => ?_,
    fun moved' hmoved' inner hinner => ?_⟩
  · obtain ⟨o, ho, rfl⟩ := Program.exists_outline ht
    rw [Program.tagAt?_eq hblock, Program.tagAt?_eq hblock, Program.tagAt?_eq hfilled, hmoved,
      Option.map_some] at far
    simp only [List.mem_cons, List.not_mem_nil, or_false, not_or, Option.some.injEq] at far
    refine lang.agreeOn_of_mem distinct qdistinct ho ?_
    rcases out.mem_part ho far.1 (not_mem_tags_of_ne far.2.1) with inside | stays
    · exact back.inner inside
    · exact back.mem_whole stays (not_mem_tags_of_ne far.2.2)
  · have hne : other ≠ source := fun e => hother (e ▸ hsource)
    have hne' : other ≠ target := fun e => hother (e ▸ htarget)
    simp only [List.mem_cons, List.not_mem_nil, or_false, not_or]
    exact ⟨Program.tagAt?_ne distinct hblock' hs hne _, Program.tagAt?_ne distinct hblock' hs hne _,
      Program.tagAt?_ne_of_children? qdistinct hblock' (same other hother) hs hne' _⟩
  · rw [Option.mem_def, Program.statementAt?, hblock, Option.bind_some, hmoved] at hmoved'
    obtain rfl := Option.some.inj hmoved'
    obtain ⟨o, ho, htag⟩ := exists_outline_inside hinner
    rw [← htag]
    exact lang.agreeOn_of_mem distinct qdistinct (out.inner ho) (back.inner ho)

theorem changesOnly_move (distinct : (p.nodes.map Statement.tag).Nodup)
    (h : p.move place sourceIndex targetIndex = .ok q) :
    lang.ChangesOnly p q [p.tagAt? place sourceIndex, p.tagAt? place (sourceIndex + 1),
      q.tagAt? place (targetIndex + 1)] [place] ∧
    ∀ moved ∈ p.statementAt? place sourceIndex, ∀ inner ∈ nodesEach (moved.block?.getD []),
      (lang.analyze p).AgreeOn (lang.analyze q) inner.tag := by
  obtain ⟨block, hblock, -, htarget, hq⟩ := Program.exists_of_move h
  obtain ⟨moved, hmoved, done⟩ := Program.edited_move distinct hblock h
  obtain ⟨part, out, back⟩ := Program.joins_relocate hblock hmoved htarget
  rw [← hq, Block.relocate_of_getElem? hmoved] at back
  refine lang.changesOnly_of_joins distinct (done.nodup (by simpa using distinct)) hblock hmoved
    done.edited out back (List.mem_singleton_self place) (List.mem_singleton_self place)
    fun other hother => done.elsewhere other ?_ (by simp)
  exact List.mem_singleton.not.mp hother

theorem changesOnly_transfer (distinct : (p.nodes.map Statement.tag).Nodup)
    (h : p.transfer source sourceIndex target targetIndex = .ok q) :
    lang.ChangesOnly p q [p.tagAt? source sourceIndex, p.tagAt? source (sourceIndex + 1),
      q.tagAt? target (targetIndex + 1)] [source, target] ∧
    ∀ moved ∈ p.statementAt? source sourceIndex, ∀ inner ∈ nodesEach (moved.block?.getD []),
      (lang.analyze p).AgreeOn (lang.analyze q) inner.tag := by
  by_cases hne : source = target
  · subst hne
    rw [Program.transfer, if_pos rfl] at h
    obtain ⟨hchanges, hinside⟩ := lang.changesOnly_move distinct h
    refine ⟨⟨hchanges.far, fun other block hother => ?_⟩, hinside⟩
    exact hchanges.elsewhere other block (by simpa using hother)
  · obtain ⟨block, moved, destination, ht, rfl⟩ := Program.exists_transferable hne h
    have done := ht.transferred distinct hne
    have qdistinct := Program.nodup_of_heads_perm [] distinct done.heads.symm
    obtain ⟨kept, hkept, hchildren⟩ := ht.block?_target distinct hne
    have hindex : targetIndex ≤ kept.length := by
      have hlength := congrArg List.length hchildren
      rw [Block.children, Block.children, List.length_map, List.length_map] at hlength
      rw [hlength]
      exact ht.fits
    refine lang.changesOnly_of_joins distinct qdistinct ht.found ht.taken
      (Program.block?_modifyBlock qdistinct hkept) (Program.joins_eraseIdx ht.found ht.taken)
      (Program.joins_insertIdx hkept hindex moved) (by simp) (by simp) fun other hother => ?_
    simp only [List.mem_cons, List.not_mem_nil, or_false, not_or] at hother
    exact done.elsewhere other hother.1 hother.2

/-- Edits change diagnostics only next door. Take the statements that are in a program with distinct
tags both before and after an insertion, a removal, a move or a transfer. The warnings, and the
errors but for that of a cyclic call, stay the same for all of them, save the moved statement and
the ones just after its old place and its new one; so they do inside the moved statement, at any
depth, and in every block but those two. -/
theorem edits_stay_local (lang : Language) {p : Program}
    (distinct : (p.nodes.map Statement.tag).Nodup) :
    (∀ (ι : Type) place index (template : Statement ι) q, (∀ s ∈ p.nodes, s.tag < p.next) →
      p.insert place index template = .ok q →
        lang.ChangesOnly p q [q.tagAt? place (index + 1)] [place]) ∧
    (∀ place index removed q, p.remove place index = .ok (removed, q) →
      lang.ChangesOnly p q [p.tagAt? place (index + 1)] [place]) ∧
    (∀ place source target q, p.move place source target = .ok q →
      lang.ChangesOnly p q [p.tagAt? place source, p.tagAt? place (source + 1),
        q.tagAt? place (target + 1)] [place] ∧
      ∀ moved ∈ p.statementAt? place source, ∀ inner ∈ nodesEach (moved.block?.getD []),
        (lang.analyze p).AgreeOn (lang.analyze q) inner.tag) ∧
    ∀ source sourceIndex target targetIndex q,
      p.transfer source sourceIndex target targetIndex = .ok q →
      lang.ChangesOnly p q [p.tagAt? source sourceIndex, p.tagAt? source (sourceIndex + 1),
        q.tagAt? target (targetIndex + 1)] [source, target] ∧
      ∀ moved ∈ p.statementAt? source sourceIndex, ∀ inner ∈ nodesEach (moved.block?.getD []),
        (lang.analyze p).AgreeOn (lang.analyze q) inner.tag :=
  ⟨fun _ _ _ _ _ fresh h => lang.changesOnly_insert distinct fresh h,
    fun _ _ _ _ h => lang.changesOnly_remove distinct h,
    fun _ _ _ _ h => lang.changesOnly_move distinct h,
    fun _ _ _ _ _ h => lang.changesOnly_transfer distinct h⟩

/-- A loop is moved one place down: nothing is said otherwise of the statements in it, nor of the
one at the end. Neither is it when the statement after the loop is removed, when another one is
inserted before the loop, and when the first statement of the loop is put in front of it. -/
theorem edits_stay_local_loop :
    let lang := build []
    let plain (id : String) (tag : Nat) : Statement Nat := .simple { id, tag }
    let loop (block : Block Nat) : Statement Nat := .compound { id := "while", tag := 0 } block
    let start (block : Block Nat) (next : Nat) : Program := { block, next }
    let inner := [plain "wait" 1, plain "else" 2, plain "wait" 3]
    let p := start [loop inner, plain "if" 4, plain "else" 5, plain "wait" 6] 7
    let moved := start [plain "if" 4, loop inner, plain "else" 5, plain "wait" 6] 7
    let removed := start [loop inner, plain "else" 5, plain "wait" 6] 7
    let inserted :=
      start [plain "wait" 7, loop inner, plain "if" 4, plain "else" 5, plain "wait" 6] 8
    let transferred := start [plain "wait" 1, loop [plain "else" 2, plain "wait" 3], plain "if" 4,
      plain "else" 5, plain "wait" 6] 7
    (p.nodes.map tag).Nodup ∧ (∀ s ∈ p.nodes, s.tag < p.next) ∧
      p.move .root 0 1 = .ok moved ∧ (lang.analyze p).AgreeOn (lang.analyze moved) 6 ∧
      (lang.analyze p).AgreeOn (lang.analyze moved) 2 ∧
      p.remove .root 1 = .ok (plain "if" 4, removed) ∧
      (lang.analyze p).AgreeOn (lang.analyze removed) 6 ∧
      p.insert .root 0 (plain "wait" 0) = .ok inserted ∧
      (lang.analyze p).AgreeOn (lang.analyze inserted) 5 ∧
      p.transfer (.inside 0) 0 .root 0 = .ok transferred ∧
      (lang.analyze p).AgreeOn (lang.analyze transferred) 3 := by
  intro lang plain loop start inner p moved removed inserted transferred
  have distinct : (p.nodes.map tag).Nodup := by decide
  have fresh : ∀ s ∈ p.nodes, s.tag < p.next := by decide
  obtain ⟨hinsert, hremove, hmove, htransfer⟩ := lang.edits_stay_local distinct
  have moving : p.move .root 0 1 = .ok moved := rfl
  have removing : p.remove .root 1 = .ok (plain "if" 4, removed) := rfl
  have inserting : p.insert .root 0 (plain "wait" 0) = .ok inserted := rfl
  have transferring : p.transfer (.inside 0) 0 .root 0 = .ok transferred := rfl
  obtain ⟨hmoved, hinside⟩ := hmove _ _ _ _ moving
  refine ⟨distinct, fresh, moving, hmoved.far 6 (by decide) (by decide) (by decide), ?_, removing,
    (hremove _ _ _ _ removing).far 6 (by decide) (by decide) (by decide), inserting,
    (hinsert Nat _ _ _ _ fresh inserting).far 5 (by decide) (by decide) (by decide), transferring,
    (htransfer _ _ _ _ _ transferring).1.far 3 (by decide) (by decide) (by decide)⟩
  exact hinside (loop inner) rfl (plain "else" 2) (List.mem_cons_of_mem _ List.mem_cons_self)

end Language

end BlockScript
