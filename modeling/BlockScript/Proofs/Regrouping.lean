import BlockScript.Proofs.ExpressionEdits
import Mathlib.Data.List.Perm.Subperm

/-! Groups made and dissolved again. Dissolving the group that was just made leaves what was
selected side by side, where the first of it stood, which is the list as it was exactly if it stood
side by side before; and what a group held, grouped again after the group was dissolved, is the
group. Of the order of a selection only its first tag matters, and that only for whether it is the
tag of a node. -/

namespace BlockScript

namespace Expression

variable {ι : Type}

@[simp] theorem tag_bare (e : Expression ι) : e.bare.tag = e.tag := by cases e <;> rfl

theorem nodesEach_eq_flatMap (list : ExpressionList ι) : nodesEach list = list.flatMap nodes := by
  induction list with
  | nil => rfl
  | cons e rest ih => rw [nodesEach, List.flatMap_cons, ih]

end Expression

namespace ExpressionList

open Expression

/-! ### Two edits at one place -/

section Place

variable {ι : Type} {old mid new list list' : ExpressionList ι}

/-- The tags of the nodes around those of the edited siblings stay, in their order. -/
theorem Edited.map_tag (h : Edited old new list list') : ∃ before after,
    (nodesEach list).map tag = before ++ (nodesEach old).map tag ++ after ∧
      (nodesEach list').map tag = before ++ (nodesEach new).map tag ++ after := by
  have hbare (nodes : ExpressionList ι) : (nodes.map bare).map tag = nodes.map tag := by
    rw [List.map_map]
    exact List.map_congr_left fun e _ => e.tag_bare
  obtain ⟨before, after, hlist, hlist'⟩ := h.others
  refine ⟨before.map tag, after.map tag, ?_, ?_⟩
  · rw [← hbare, hlist, List.map_append, List.map_append, hbare]
  · rw [← hbare, hlist', List.map_append, List.map_append, hbare]

/-- Tags stay distinct if the new siblings have none that the old ones lack, except `added` ones
that are new to the list. -/
theorem Edited.nodup (h : Edited old new list list') (added : List ι)
    (distinct : (added ++ (nodesEach list).map tag).Nodup)
    (htags : ((nodesEach new).map tag).Subperm (added ++ (nodesEach old).map tag)) :
    ((nodesEach list').map tag).Nodup := by
  obtain ⟨before, after, hlist, hlist'⟩ := h.map_tag
  have hpart : (before ++ (nodesEach new).map tag ++ after).Subperm
      (before ++ (added ++ (nodesEach old).map tag) ++ after) :=
    (List.subperm_append_right after).mpr ((List.subperm_append_left before).mpr htags)
  have hmoved : (before ++ (added ++ (nodesEach old).map tag) ++ after).Perm
      (added ++ (before ++ (nodesEach old).map tag ++ after)) := by
    rw [← List.append_assoc before, ← List.append_assoc added, ← List.append_assoc added]
    exact (List.perm_append_comm.append_right _).append_right _
  rw [hlist] at distinct
  obtain ⟨tags, hperm, hsublist⟩ := hpart.trans hmoved.subperm
  rw [hlist']
  exact hperm.nodup_iff.mp (distinct.sublist hsublist)

theorem SiblingsReplaced.symm (h : SiblingsReplaced old new list list') :
    SiblingsReplaced new old list' list := by
  induction h with
  | root => exact .root
  | under before t operator after _ ih => exact .under before t operator after ih

theorem Edited.symm (h : Edited old new list list') : Edited new old list' list :=
  h.place.symm.edited

theorem SiblingsReplaced.mem_siblingLists (h : SiblingsReplaced old new list list') :
    new ∈ list'.siblingLists := by
  induction h with
  | root => exact List.mem_cons_self
  | @under _ inner before t operator after _ ih =>
    rcases List.mem_cons.mp ih with rfl | below
    · exact List.mem_cons_of_mem _ (List.mem_map_of_mem (f := children)
        (a := .group t operator new) (by simp [nodesEach_append, nodesEach, nodes]))
    · refine List.mem_cons_of_mem _ (List.map_subset children (fun e he => ?_) below)
      simp [nodesEach_append, nodesEach, nodes, he]

/-- The list is as it was exactly if the siblings are. -/
theorem SiblingsReplaced.eq_iff (h : SiblingsReplaced old new list list') :
    list' = list ↔ new = old := by
  induction h with
  | root => rfl
  | under before t operator after _ ih => rw [← ih]; simp

end Place

section Putting

variable {old mid list list' before inner after : ExpressionList Nat} {tag u : Nat}
  {operator : String}

theorem mem_nodesEach_of_mem {e : Expression Nat} (h : e ∈ list) : e ∈ nodesEach list :=
  mem_nodesEach_iff.mpr ⟨list, List.mem_cons_self, h⟩

theorem siblingsEach?_eq_none (h : tag ∉ (nodesEach list).map Expression.tag) :
    siblingsEach? tag list = none := by
  have hnone : siblings? list tag = none := by
    by_contra hsome
    obtain ⟨e, he, hetag⟩ := exists_siblings?_iff.mp (Option.ne_none_iff_exists'.mp hsome)
    exact h (hetag ▸ List.mem_map_of_mem he)
  rw [siblings?] at hnone
  split at hnone
  · cases hnone
  · exact hnone

theorem replaceSiblingsEach?_append {new : ExpressionList Nat}
    (h : replaceSiblingsEach? tag new before = none) :
    replaceSiblingsEach? tag new (before ++ after) =
      (replaceSiblingsEach? tag new after).map (before ++ ·) := by
  induction before with
  | nil => simp
  | cons e rest ih =>
    rw [replaceSiblingsEach?] at h
    split at h
    · cases h
    · rename_i he
      rw [List.cons_append, replaceSiblingsEach?, he]
      simp only [ih (Option.map_eq_none_iff.mp h), Option.map_map]
      rfl

theorem replaceSiblings?_group (h : tag ∈ (nodesEach inner).map Expression.tag)
    (new : ExpressionList Nat) : (Expression.group u operator inner).replaceSiblings? tag new =
      some (.group u operator (putSiblings inner tag new)) := by
  by_cases here : anyTagged tag inner = true
  · simp [replaceSiblings?, putSiblings, here]
  · obtain ⟨siblings, hsiblings⟩ := exists_siblings?_iff.mpr (List.mem_map.mp h)
    rw [siblings?, if_neg here] at hsiblings
    have hsome : replaceSiblingsEach? tag new inner ≠ none := fun hnone => by
      cases hsiblings.symm.trans ((replaceSiblingsEach?_eq_none_iff inner).mp hnone)
    obtain ⟨inner', hinner⟩ := Option.ne_none_iff_exists'.mp hsome
    simp [replaceSiblings?, putSiblings, here, hinner]

theorem map_tag_nodesEach_under :
    (nodesEach (before ++ .group u operator inner :: after)).map Expression.tag =
      (nodesEach before).map Expression.tag ++ u :: ((nodesEach inner).map Expression.tag ++
        (nodesEach after).map Expression.tag) := by
  simp [nodesEach_append, nodesEach, nodes]

/-- With distinct tags a tag below a group is looked for in that group only. -/
theorem putSiblings_under
    (distinct : ((nodesEach (before ++ .group u operator inner :: after)).map Expression.tag).Nodup)
    (h : tag ∈ (nodesEach inner).map Expression.tag) (new : ExpressionList Nat) :
    putSiblings (before ++ .group u operator inner :: after) tag new =
      before ++ .group u operator (putSiblings inner tag new) :: after := by
  simp only [map_tag_nodesEach_under, List.nodup_append, List.nodup_cons, List.mem_append,
    List.mem_cons] at distinct
  obtain ⟨-, ⟨hu, -, -, hafter⟩, hbefore⟩ := distinct
  have outside : tag ∉ (nodesEach before).map Expression.tag := fun hm =>
    hbefore tag hm tag (.inr (.inl h)) rfl
  have root : ¬anyTagged tag (before ++ .group u operator inner :: after) = true := by
    rw [anyTagged_iff]
    rintro ⟨e, he, rfl⟩
    rcases List.mem_append.mp he with he | he
    · exact outside (List.mem_map_of_mem (mem_nodesEach_of_mem he))
    · rcases List.mem_cons.mp he with rfl | he
      · exact hu (.inl h)
      · exact hafter _ h _ (List.mem_map_of_mem (mem_nodesEach_of_mem he)) rfl
  have hnone : replaceSiblingsEach? tag new before = none :=
    (replaceSiblingsEach?_eq_none_iff before).mpr (siblingsEach?_eq_none outside)
  rw [putSiblings, if_neg root, replaceSiblingsEach?_append hnone, replaceSiblingsEach?,
    replaceSiblings?_group h new]
  rfl

/-- Siblings that were put in place and are then replaced have the old ones replaced by the last. -/
theorem SiblingsReplaced.putSiblings (h : SiblingsReplaced old mid list list')
    (distinct : ((nodesEach list').map Expression.tag).Nodup)
    (htag : tag ∈ mid.map Expression.tag) (new : ExpressionList Nat) :
    SiblingsReplaced old new list (putSiblings list' tag new) := by
  induction h with
  | root =>
    rw [ExpressionList.putSiblings, if_pos (anyTagged_iff_mem.mpr htag)]
    exact .root
  | @under _ inner' before u operator after hinner ih =>
    have hbelow : tag ∈ (nodesEach inner').map Expression.tag := by
      obtain ⟨e, he, rfl⟩ := List.mem_map.mp htag
      exact List.mem_map_of_mem (mem_nodesEach_iff.mpr ⟨mid, hinner.mem_siblingLists, he⟩)
    rw [putSiblings_under distinct hbelow]
    rw [map_tag_nodesEach_under] at distinct
    have hinside := (List.nodup_cons.mp (List.nodup_append.mp distinct).2.1).2
    exact .under before u operator after (ih (List.nodup_append.mp hinside).1)

/-- An edit of siblings that an edit has put in place. -/
theorem Edited.editSiblings? {edit : ExpressionList Nat → Option (ExpressionList Nat)}
    (h : Edited old mid list list') (distinct : ((nodesEach list').map Expression.tag).Nodup)
    (htag : tag ∈ mid.map Expression.tag) {new : ExpressionList Nat} (made : edit mid = some new) :
    ∃ result, ExpressionList.editSiblings? list' tag edit = some result ∧
      Edited old new list result := by
  have hsiblings : siblings? list' tag = some mid :=
    (siblings?_eq_some_iff distinct).mpr ⟨h.place.mem_siblingLists, htag⟩
  refine ⟨_, by rw [editSiblings?_eq hsiblings, made, Option.map_some], ?_⟩
  exact (h.place.putSiblings distinct htag new).edited

mutual

theorem replaceSiblings?_congr {tag' : Nat} (new : ExpressionList Nat) : (e : Expression Nat) →
    (∀ n ∈ e.nodes, anyTagged tag n.children = anyTagged tag' n.children) →
      e.replaceSiblings? tag new = e.replaceSiblings? tag' new
  | .leaf .., _ | .operand _, _ => rfl
  | .group _ _ list, h => by
    rw [nodes, List.forall_mem_cons] at h
    have hhere : anyTagged tag list = anyTagged tag' list := h.1
    rw [replaceSiblings?, replaceSiblings?, hhere, replaceSiblingsEach?_congr new list h.2]

theorem replaceSiblingsEach?_congr {tag' : Nat} (new : ExpressionList Nat) :
    (list : ExpressionList Nat) →
    (∀ n ∈ nodesEach list, anyTagged tag n.children = anyTagged tag' n.children) →
      replaceSiblingsEach? tag new list = replaceSiblingsEach? tag' new list
  | [], _ => rfl
  | e :: rest, h => by
    rw [nodesEach, List.forall_mem_append] at h
    rw [replaceSiblingsEach?, replaceSiblingsEach?, replaceSiblings?_congr new e h.1,
      replaceSiblingsEach?_congr new rest h.2]

end

/-- For an edit of siblings it does not matter which of them it is told. -/
theorem editSiblings?_congr {siblings : ExpressionList Nat} {tag' : Nat}
    (distinct : ((nodesEach list).map Expression.tag).Nodup) (h : siblings ∈ list.siblingLists)
    (htag : tag ∈ siblings.map Expression.tag) (htag' : tag' ∈ siblings.map Expression.tag)
    (edit : ExpressionList Nat → Option (ExpressionList Nat)) :
    ExpressionList.editSiblings? list tag edit = ExpressionList.editSiblings? list tag' edit := by
  have hsame : ∀ other ∈ list.siblingLists, anyTagged tag other = anyTagged tag' other := by
    intro other hother
    rw [Bool.eq_iff_iff, anyTagged_iff_mem, anyTagged_iff_mem]
    exact ⟨fun hm => siblings_unique distinct h hother htag hm ▸ htag',
      fun hm => siblings_unique distinct h hother htag' hm ▸ htag⟩
  rw [siblingLists, List.forall_mem_cons, List.forall_mem_map] at hsame
  rw [editSiblings?_eq ((siblings?_eq_some_iff distinct).mpr ⟨h, htag⟩),
    editSiblings?_eq ((siblings?_eq_some_iff distinct).mpr ⟨h, htag'⟩)]
  refine congrArg (Option.map · (edit siblings)) (funext fun new => ?_)
  rw [ExpressionList.putSiblings, ExpressionList.putSiblings, hsame.1,
    replaceSiblingsEach?_congr new list hsame.2]

end Putting

/-! ### A group made and dissolved -/

section Undone

variable {list grouped siblings before after : ExpressionList Nat} {e : Expression Nat}
  {selected : List Nat} {operator : String} {fresh t : Nat}

/-- The selected ones of the siblings stand side by side. -/
def Adjacent (selected : List Nat) (siblings : ExpressionList Nat) : Prop :=
  ∃ before chosen after, siblings = before ++ chosen ++ after ∧ (∀ e ∈ chosen, e.tag ∈ selected) ∧
    ∀ e ∈ before ++ after, e.tag ∉ selected

/-- Of the siblings the selected ones stand side by side, in their order, from where the first of
them stood, and the others stay beside them. -/
def Gathered (selected : List Nat) (siblings gathered : ExpressionList Nat) : Prop :=
  ∃ before e after, siblings = before ++ e :: after ∧ (∀ b ∈ before, b.tag ∉ selected) ∧
    e.tag ∈ selected ∧
      let chosen := e :: after.filter fun e => selected.contains e.tag
      let others := after.filter fun e => !selected.contains e.tag
      gathered = before ++ chosen ++ others

theorem filter_split {chosen others : ExpressionList Nat} (hchosen : ∀ e ∈ chosen, e.tag ∈ selected)
    (hothers : ∀ e ∈ others, e.tag ∉ selected) :
    (chosen ++ others).filter (fun e => selected.contains e.tag) = chosen ∧
      (chosen ++ others).filter (fun e => !selected.contains e.tag) = others := by
  have hall : chosen.filter (fun e => selected.contains e.tag) = chosen :=
    List.filter_eq_self.mpr (by simpa using hchosen)
  have hnone : others.filter (fun e => selected.contains e.tag) = [] :=
    List.filter_eq_nil_iff.mpr (by simpa using hothers)
  have hall' : others.filter (fun e => !selected.contains e.tag) = others :=
    List.filter_eq_self.mpr (by simpa using hothers)
  have hnone' : chosen.filter (fun e => !selected.contains e.tag) = [] :=
    List.filter_eq_nil_iff.mpr (by simpa using hchosen)
  rw [List.filter_append, List.filter_append, hall, hnone, hall', hnone']
  exact ⟨List.append_nil _, rfl⟩

/-- Gathering siblings changes nothing exactly if they stand side by side. -/
theorem Gathered.eq_iff {gathered : ExpressionList Nat} (h : Gathered selected siblings gathered) :
    gathered = siblings ↔ Adjacent selected siblings := by
  obtain ⟨before, e, after, rfl, hbefore, he, rfl⟩ := h
  constructor
  · intro same
    refine ⟨before, _, _, same.symm, ?_, ?_⟩
    · simp [he]
    · simpa [or_imp, forall_and] using hbefore
  · rintro ⟨first, chosen, last, hsplit, hchosen, hothers⟩
    rw [List.forall_mem_append] at hothers
    have hmem : e ∈ chosen := by
      have hm : e ∈ first ++ chosen ++ last := hsplit ▸ by simp
      rcases List.mem_append.mp hm with hm | hm
      · exact (List.mem_append.mp hm).resolve_left fun hm => hothers.1 e hm he
      · exact absurd he (hothers.2 e hm)
    obtain ⟨c, rest, rfl⟩ := List.exists_cons_of_ne_nil (List.ne_nil_of_mem hmem)
    rw [List.append_assoc, List.cons_append] at hsplit
    -- both splits are at the first selected sibling
    have hfirst : before = first := by
      have hc : c.tag ∈ selected := hchosen c List.mem_cons_self
      have htake : (before ++ e :: after).takeWhile (fun e => !selected.contains e.tag) = before :=
        takeWhile_split (by simpa using hbefore) (by simp [he])
      rw [← htake, hsplit]
      exact takeWhile_split (by simpa using hothers.1) (by simp [hc])
    subst hfirst
    obtain ⟨rfl, rfl⟩ := List.cons.inj (List.append_cancel_left hsplit)
    obtain ⟨hrest, hlast⟩ := filter_split (List.forall_mem_cons.mp hchosen).2 hothers.2
    rw [hrest, hlast, List.append_assoc, List.cons_append]

theorem map_tag_grouped_perm (operator : String) (fresh : Nat) (selected : List Nat)
    (before : ExpressionList Nat) (e : Expression Nat) (after : ExpressionList Nat) :
    ((nodesEach (before ++ .group fresh operator
        (e :: after.filter fun e => selected.contains e.tag) ::
          after.filter fun e => !selected.contains e.tag)).map Expression.tag).Perm
      (fresh :: (nodesEach (before ++ e :: after)).map Expression.tag) := by
  have hparts := (List.filter_append_perm (fun e => selected.contains e.tag) after).cons e
  have hnodes := (hparts.flatMap_right nodes).map Expression.tag
  rw [map_tag_nodesEach_under, nodesEach_append, List.map_append, ← List.map_append,
    ← nodesEach_append, nodesEach_eq_flatMap (_ ++ _), nodesEach_eq_flatMap (e :: after)]
  exact List.perm_middle.trans ((hnodes.append_left _).cons fresh)

/-- A group that was just made can be dissolved, and then the siblings are gathered. -/
theorem ungroup?_of_group? (distinct : ((nodesEach list).map Expression.tag).Nodup)
    (unused : fresh ∉ (nodesEach list).map Expression.tag)
    (h : group? list selected operator fresh = some grouped) :
    ∃ first ∈ selected.head?, ∃ siblings ∈ list.siblingLists,
      first ∈ siblings.map Expression.tag ∧ ∃ gathered list',
        Gathered selected siblings gathered ∧ ungroup? grouped fresh = some list' ∧
          Edited siblings gathered list list' := by
  obtain ⟨first, hfirst, before, e, after, hmem, hbefore, he, edited⟩ := grouped_of_group? h
  have hsiblings := edited.place.symm.mem_siblingLists
  have hdistinct := edited.nodup [fresh] (List.nodup_cons.mpr ⟨unused, distinct⟩)
    (map_tag_grouped_perm ..).subperm
  have hother : ∀ b ∈ before, b.tag ≠ fresh := by
    rintro b hb rfl
    exact unused (List.mem_map_of_mem (mem_nodesEach_iff.mpr ⟨_, hsiblings, by simp [hb]⟩))
  have hgroup : fresh ∈ (before ++ .group fresh operator
      (e :: after.filter fun e => selected.contains e.tag) ::
        after.filter fun e => !selected.contains e.tag).map Expression.tag := by simp
  obtain ⟨list', hlist', hedited⟩ := edited.editSiblings? hdistinct hgroup
    (ungroupSiblings?_split hother rfl)
  exact ⟨first, hfirst, _, hsiblings, hmem, _, list', ⟨before, e, after, rfl, hbefore, he, rfl⟩,
    hlist', hedited⟩

end Undone

/-! ### A group dissolved and made -/

section Redone

variable {list siblings children before after : ExpressionList Nat} {operator : String}
  {fresh t : Nat}

/-- The second list is the first one with another tag at one group. -/
def Retagged (t t' : Nat) (list list' : ExpressionList Nat) : Prop :=
  ∃ before operator children after, Edited (before ++ .group t operator children :: after)
    (before ++ .group t' operator children :: after) list list'

theorem Retagged.eq {list' : ExpressionList Nat} (h : Retagged t t list list') : list' = list := by
  obtain ⟨_, _, _, _, edited⟩ := h
  exact edited.place.eq_of_self

theorem nodup_map_tag (distinct : ((nodesEach list).map Expression.tag).Nodup)
    (h : siblings ∈ list.siblingLists) : (siblings.map Expression.tag).Nodup := by
  have hall : (list.siblingLists.flatten.map Expression.tag).Nodup :=
    ((nodesEach_perm list).map Expression.tag).nodup_iff.mp distinct
  exact hall.sublist ((List.sublist_flatten_of_mem h).map _)

/-- All children of a dissolved group, selected, go under a group in the place of the old one. -/
theorem groupSiblings?_children
    (distinct : ((before ++ children ++ after).map Expression.tag).Nodup) (nonempty : children ≠ [])
    (fits : Operator.isUnary operator = true → children.length = 1) (fresh : Nat) :
    groupSiblings? (children.map Expression.tag) operator fresh (before ++ children ++ after) =
      some (before ++ .group fresh operator children :: after) := by
  simp only [List.map_append, List.nodup_append, List.mem_append] at distinct
  obtain ⟨⟨-, -, hbefore⟩, -, hafter⟩ := distinct
  have hnotBefore : ∀ b ∈ before, b.tag ∉ children.map Expression.tag := fun b hb hm =>
    hbefore _ (List.mem_map_of_mem hb) _ hm rfl
  have hnotAfter : ∀ a ∈ after, a.tag ∉ children.map Expression.tag := fun a ha hm =>
    hafter _ (.inr hm) _ (List.mem_map_of_mem ha) rfl
  obtain ⟨c, rest, rfl⟩ := List.exists_cons_of_ne_nil nonempty
  have hmem : ∀ e ∈ c :: rest, e.tag ∈ (c :: rest).map Expression.tag := fun e =>
    List.mem_map_of_mem
  obtain ⟨hrest, hlast⟩ := filter_split (List.forall_mem_cons.mp hmem).2 hnotAfter
  have hfew : ¬(Operator.isUnary operator = true ∧ 1 < (c :: rest).length) := fun ⟨unary, many⟩ =>
    many.ne' (fits unary)
  rw [List.append_assoc, List.cons_append,
    groupSiblings?_split operator fresh hnotBefore (hmem c List.mem_cons_self)]
  simp only [hrest, hlast, if_neg hfew]

/-- A group can be dissolved, and then its children stand in its place. -/
theorem ungroup?_of_mem (distinct : ((nodesEach list).map Expression.tag).Nodup)
    (h : .group t operator children ∈ nodesEach list) :
    ∃ before after flat, ungroup? list t = some flat ∧
      Edited (before ++ .group t operator children :: after) (before ++ children ++ after) list
        flat := by
  obtain ⟨flat, hflat⟩ := Option.isSome_iff_exists.mp
    ((isSome_ungroup?_iff distinct).mpr ⟨operator, children, h⟩)
  obtain ⟨before, operator', children', after, edited⟩ := dissolved_of_ungroup? hflat
  have hgroup : Expression.group t operator' children' ∈ nodesEach list :=
    mem_nodesEach_iff.mpr ⟨_, edited.place.symm.mem_siblingLists, by simp⟩
  -- no other node has the tag
  obtain ⟨-, rfl, rfl⟩ := Expression.group.inj (eq_of_tag_eq distinct hgroup h rfl)
  exact ⟨before, after, flat, hflat, edited⟩

/-- What was in a dissolved group can be grouped again. -/
theorem group?_of_ungroup? (distinct : ((nodesEach list).map Expression.tag).Nodup)
    (h : .group t operator children ∈ nodesEach list) (nonempty : children ≠ [])
    (fits : Operator.isUnary operator = true → children.length = 1) :
    ∃ flat, ungroup? list t = some flat ∧ ∀ fresh, ∃ list',
      group? flat (children.map Expression.tag) operator fresh = some list' ∧
        Retagged t fresh list list' := by
  obtain ⟨before, after, flat, hflat, edited⟩ := ungroup?_of_mem distinct h
  have hpart : ((nodesEach (before ++ children ++ after)).map Expression.tag).Sublist
      ((nodesEach (before ++ .group t operator children :: after)).map Expression.tag) := by
    rw [map_tag_nodesEach_under, List.append_assoc, nodesEach_append, nodesEach_append,
      List.map_append, List.map_append]
    exact (List.sublist_cons_self t _).append_left _
  have hdistinct := edited.nodup [] distinct hpart.subperm
  refine ⟨flat, hflat, fun fresh => ?_⟩
  have hmade := groupSiblings?_children (nodup_map_tag hdistinct edited.place.mem_siblingLists)
    nonempty fits fresh
  have hfirst : ∃ first, (children.map Expression.tag).head? = some first ∧
      first ∈ (before ++ children ++ after).map Expression.tag := by
    obtain ⟨c, rest, rfl⟩ := List.exists_cons_of_ne_nil nonempty
    exact ⟨c.tag, rfl, by simp⟩
  obtain ⟨first, hhead, hmem⟩ := hfirst
  obtain ⟨list', hlist', hedited⟩ := edited.editSiblings? hdistinct hmem hmade
  refine ⟨list', ?_, before, operator, children, after, hedited⟩
  rw [group?_eq, hhead, Option.bind_some, hlist']

/-- For a list whose nodes have distinct tags: dissolving the group that was just made of a
selection gathers the selected siblings and leaves all else as it is, so that the list is the one
before exactly if they stood side by side. And a group that has children, as many as its operator
takes, comes back when it is dissolved and its children are grouped under its operator: under its
old tag the list is the one before, under another one it differs in that tag only. -/
theorem group_ungroup_inverse (distinct : ((nodesEach list).map Expression.tag).Nodup) :
    (∀ selected operator fresh grouped, fresh ∉ (nodesEach list).map Expression.tag →
      group? list selected operator fresh = some grouped →
        ∃ first ∈ selected.head?, ∃ siblings ∈ list.siblingLists,
          first ∈ siblings.map Expression.tag ∧ ∃ gathered list',
            Gathered selected siblings gathered ∧ ungroup? grouped fresh = some list' ∧
              Edited siblings gathered list list' ∧
                (list' = list ↔ Adjacent selected siblings)) ∧
    ∀ t operator children, .group t operator children ∈ nodesEach list → children ≠ [] →
      Operator.isUnary operator = false ∨ children.length = 1 →
        ∃ flat, ungroup? list t = some flat ∧
          group? flat (children.map Expression.tag) operator t = some list ∧
          ∀ fresh, ∃ list', group? flat (children.map Expression.tag) operator fresh = some list' ∧
            Retagged t fresh list list' := by
  refine ⟨fun selected operator fresh grouped unused h => ?_,
    fun t operator children h nonempty fits => ?_⟩
  · obtain ⟨first, hfirst, siblings, hsiblings, hmem, gathered, list', hgathered, hlist', edited⟩ :=
      ungroup?_of_group? distinct unused h
    exact ⟨first, hfirst, siblings, hsiblings, hmem, gathered, list', hgathered, hlist', edited,
      edited.place.eq_iff.trans hgathered.eq_iff⟩
  · obtain ⟨flat, hflat, hagain⟩ := group?_of_ungroup? distinct h nonempty fun unary =>
      fits.resolve_left (by simp [unary])
    obtain ⟨same, hsame, hretagged⟩ := hagain t
    exact ⟨flat, hflat, hretagged.eq ▸ hsame, hagain⟩

/-- Of two groups made of children of a group, one takes a gap away and one does not; the group
itself is dissolved and made again. -/
theorem group_ungroup_inverse_nested :
    let operand (tag : Nat) (name : String) : Expression Nat :=
      .operand ⟨tag, .variable, .string name⟩
    let children : ExpressionList Nat := [operand 4 "lamp.on", operand 5 "fan.on",
      .group 6 "||" [operand 7 "tv.on"], operand 8 "ac.on"]
    let list : ExpressionList Nat := [operand 1 "door.open", .group 2 "!" [.group 3 "&&" children]]
    ((nodesEach list).map Expression.tag).Nodup ∧ 9 ∉ (nodesEach list).map Expression.tag ∧
      (∃ grouped, group? list [6, 99, 5] "||" 9 = some grouped ∧ ungroup? grouped 9 = some list ∧
        ∃ siblings ∈ list.siblingLists, Adjacent [6, 99, 5] siblings) ∧
      (∃ grouped list', group? list [8, 5] "||" 9 = some grouped ∧
        ungroup? grouped 9 = some list' ∧
        list'.render = "$door.open, !(($lamp.on && $fan.on && $ac.on && ($tv.on)))" ∧
        ∃ siblings ∈ list.siblingLists, ¬Adjacent [8, 5] siblings) ∧
      ∃ flat, ungroup? list 3 = some flat ∧
        flat.render = "$door.open, !($lamp.on, $fan.on, ($tv.on), $ac.on)" ∧
        group? flat [4, 5, 6, 8] "&&" 3 = some list := by
  intro operand children list
  have distinct : ((nodesEach list).map Expression.tag).Nodup := by decide
  have unused : 9 ∉ (nodesEach list).map Expression.tag := by decide
  obtain ⟨hundone, hredone⟩ := group_ungroup_inverse distinct
  refine ⟨distinct, unused, ?_, ?_, ?_⟩
  · obtain ⟨-, -, siblings, hsiblings, -, -, list', -, hlist', -, hiff⟩ :=
      hundone [6, 99, 5] "||" 9 _ unused rfl
    exact ⟨_, rfl, rfl, siblings, hsiblings, hiff.mp (Option.some.inj (hlist'.symm.trans rfl))⟩
  · obtain ⟨-, -, siblings, hsiblings, -, -, list', -, hlist', -, hiff⟩ :=
      hundone [8, 5] "||" 9 _ unused rfl
    have hrender : list'.render = "$door.open, !(($lamp.on && $fan.on && $ac.on && ($tv.on)))" := by
      obtain rfl := Option.some.inj hlist'
      decide
    refine ⟨_, list', rfl, hlist', hrender, siblings, hsiblings, fun adjacent => ?_⟩
    rw [hiff.mpr adjacent] at hrender
    exact absurd hrender (by decide)
  · obtain ⟨flat, hflat, hagain, -⟩ := hredone 3 "&&" children (by simp [list, nodesEach, nodes])
      (by simp [children]) (.inl (by decide))
    refine ⟨flat, hflat, ?_, hagain⟩
    obtain rfl := Option.some.inj hflat
    decide

end Redone

/-! ### The order of a selection -/

section Order

variable {list a b : ExpressionList Nat} {selected selected' : List Nat} {operator : String}
  {fresh fresh' : Nat}

/-- All nodes with a selected tag are siblings of each other. -/
def Together (selected : List Nat) (list : ExpressionList Nat) : Prop :=
  ∃ siblings ∈ list.siblingLists, ∀ e ∈ nodesEach list, e.tag ∈ selected → e ∈ siblings

/-- The first selected tag is that of a node. -/
def Leads (selected : List Nat) (list : ExpressionList Nat) : Prop :=
  ∃ first ∈ selected.head?, ∃ e ∈ nodesEach list, e.tag = first

/-- The nodes with a selected tag. -/
def chosenNodes (selected : List Nat) (list : ExpressionList Nat) : List (Expression Nat) :=
  (nodesEach list).filter fun e => selected.contains e.tag

theorem chosenNodes_perm (distinct : ((nodesEach list).map Expression.tag).Nodup)
    {siblings : ExpressionList Nat} (h : siblings ∈ list.siblingLists)
    (hall : ∀ e ∈ nodesEach list, e.tag ∈ selected → e ∈ siblings) :
    (chosenNodes selected list).Perm (siblings.filter fun e => selected.contains e.tag) := by
  refine (List.perm_ext_iff_of_nodup (distinct.of_map.filter _)
    ((nodup_map_tag distinct h).of_map.filter _)).mpr fun e => ?_
  simp only [List.mem_filter, List.contains_iff_mem]
  exact ⟨fun ⟨he, hs⟩ => ⟨hall e he hs, hs⟩, fun ⟨he, hs⟩ => ⟨mem_nodesEach_iff.mpr ⟨_, h, he⟩, hs⟩⟩

theorem isSome_group?_of_together (distinct : ((nodesEach list).map Expression.tag).Nodup)
    (together : Together selected list) : (group? list selected operator fresh).isSome ↔
      Leads selected list ∧
        ¬(Operator.isUnary operator = true ∧ 1 < (chosenNodes selected list).length) := by
  obtain ⟨siblings, hsiblings, hall⟩ := together
  rw [isSome_group?_iff distinct, (chosenNodes_perm distinct hsiblings hall).length_eq]
  constructor
  · rintro ⟨first, hfirst, siblings', hsiblings', hmem, hfew⟩
    obtain ⟨e, he, rfl⟩ := List.mem_map.mp hmem
    have hnode : e ∈ nodesEach list := mem_nodesEach_iff.mpr ⟨_, hsiblings', he⟩
    have hsame : siblings' = siblings := siblings_unique distinct hsiblings' hsiblings hmem
      (List.mem_map_of_mem (hall e hnode (List.mem_of_mem_head? hfirst)))
    exact ⟨⟨_, hfirst, e, hnode, rfl⟩, hsame ▸ hfew⟩
  · rintro ⟨⟨first, hfirst, e, he, rfl⟩, hfew⟩
    exact ⟨_, hfirst, siblings, hsiblings,
      List.mem_map_of_mem (hall e he (List.mem_of_mem_head? hfirst)), hfew⟩

/-- A selection given in another order groups the same siblings. -/
theorem groupSiblings?_perm (perm : selected.Perm selected') :
    groupSiblings? selected operator fresh = groupSiblings? selected' operator fresh := by
  have hsame : (fun e : Expression Nat => selected.contains e.tag) =
      fun e => selected'.contains e.tag := funext fun e => perm.contains_eq
  have hsame' : (fun e : Expression Nat => !selected.contains e.tag) =
      fun e => !selected'.contains e.tag := funext fun e => congrArg (!·) perm.contains_eq
  funext siblings
  simp only [groupSiblings?, hsame, hsame']

/-- Selections that both begin with the tag of a node are grouped alike, in whatever order. -/
theorem group?_perm (distinct : ((nodesEach list).map Expression.tag).Nodup)
    (together : Together selected list) (perm : selected.Perm selected')
    (leads : Leads selected list) (leads' : Leads selected' list) :
    group? list selected operator fresh = group? list selected' operator fresh := by
  obtain ⟨siblings, hsiblings, hall⟩ := together
  obtain ⟨_, hfirst, e, he, rfl⟩ := leads
  obtain ⟨_, hfirst', e', he', rfl⟩ := leads'
  have hmem : e ∈ siblings := hall e he (List.mem_of_mem_head? hfirst)
  have hmem' : e' ∈ siblings := hall e' he' (perm.mem_iff.mpr (List.mem_of_mem_head? hfirst'))
  rw [group?_eq, group?_eq, hfirst, hfirst', Option.bind_some, Option.bind_some,
    groupSiblings?_perm perm]
  exact editSiblings?_congr distinct hsiblings (List.mem_map_of_mem hmem)
    (List.mem_map_of_mem hmem') _

/-- The tag of the new group is all that may differ. -/
theorem retagged_of_group? (distinct : ((nodesEach list).map Expression.tag).Nodup)
    (ha : group? list selected operator fresh = some a)
    (hb : group? list selected operator fresh' = some b) : Retagged fresh fresh' a b := by
  obtain ⟨first, hfirst, before, e, after, hmem, hbefore, he, edited⟩ := grouped_of_group? ha
  rw [group?_eq, hfirst, Option.bind_some] at hb
  obtain ⟨siblings, new, hsiblings, made, -⟩ := exists_of_editSiblings? hb
  obtain rfl := Option.some.inj (hsiblings.symm.trans ((siblings?_eq_some_iff distinct).mpr
    ⟨edited.place.symm.mem_siblingLists, hmem⟩))
  obtain ⟨b', hb', hedited⟩ := edited.symm.editSiblings? distinct hmem made
  obtain rfl := Option.some.inj (hb'.symm.trans hb)
  rw [groupSiblings?_split operator fresh' hbefore he] at made
  obtain rfl := Option.some.inj (Option.ite_none_left_eq_some.mp made).2
  exact ⟨before, operator, _, _, hedited⟩

/-- For a list whose nodes have distinct tags and selections, one a rearrangement of the other, in
which the tags of nodes are those of siblings: a selection is refused exactly if its first tag is
that of no node or its operator is unary and several nodes are selected. Two that are not refused
give the same list, up to the tag of the new group; so the order matters exactly where one of the
two begins with a tag of no node and the other does not. -/
theorem group_rearranged (distinct : ((nodesEach list).map Expression.tag).Nodup)
    (together : Together selected list) (perm : selected.Perm selected') (operator : String) :
    (∀ fresh, group? list selected operator fresh = none ↔ ¬Leads selected list ∨
      Operator.isUnary operator = true ∧ 1 < (chosenNodes selected list).length) ∧
    (∀ fresh a, group? list selected operator fresh = some a →
      (Leads selected' list → group? list selected' operator fresh = some a) ∧
        (¬Leads selected' list → group? list selected' operator fresh = none)) ∧
    ∀ fresh fresh' a b, group? list selected operator fresh = some a →
      group? list selected' operator fresh' = some b → Retagged fresh fresh' a b := by
  have hrefused : ∀ fresh, group? list selected operator fresh = none ↔ ¬Leads selected list ∨
      Operator.isUnary operator = true ∧ 1 < (chosenNodes selected list).length := fun fresh => by
    rw [← Option.not_isSome_iff_eq_none, isSome_group?_of_together distinct together,
      not_and_or, not_not]
  have together' : Together selected' list := by
    obtain ⟨siblings, hsiblings, hall⟩ := together
    exact ⟨siblings, hsiblings, fun e he hs => hall e he (perm.mem_iff.mpr hs)⟩
  have hleads : ∀ {selected fresh a}, Together selected list →
      group? list selected operator fresh = some a → Leads selected list := fun together ha =>
    ((isSome_group?_of_together distinct together).mp (Option.isSome_of_eq_some ha)).1
  refine ⟨hrefused, fun fresh a ha => ⟨fun leads' => ?_, fun stale => ?_⟩,
    fun fresh fresh' a b ha hb => ?_⟩
  · rwa [← group?_perm distinct together perm (hleads together ha) leads']
  · by_contra hsome
    obtain ⟨b, hb⟩ := Option.ne_none_iff_exists'.mp hsome
    exact stale (hleads together' hb)
  · rw [← group?_perm distinct together perm (hleads together ha) (hleads together' hb)] at hb
    exact retagged_of_group? distinct ha hb

/-- Three nodes and a tag of none, in two orders that both begin with the tag of a node. -/
theorem group_rearranged_nested :
    let operand (tag : Nat) (name : String) : Expression Nat :=
      .operand ⟨tag, .variable, .string name⟩
    let list : ExpressionList Nat := [operand 1 "door.open", .group 2 "!" [.group 3 "&&"
      [operand 4 "lamp.on", operand 5 "fan.on", .group 6 "||" [operand 7 "tv.on"]]]]
    ((nodesEach list).map Expression.tag).Nodup ∧ Together [6, 99, 4] list ∧
      [6, 99, 4].Perm [4, 6, 99] ∧
      (∃ a, group? list [6, 99, 4] "||" 8 = some a ∧ group? list [4, 6, 99] "||" 8 = some a ∧
        a.render = "$door.open, !((($lamp.on || ($tv.on)) && $fan.on))" ∧
        ∃ b, group? list [4, 6, 99] "||" 9 = some b ∧ Retagged 8 9 a b) ∧
      ∀ fresh, group? list [6, 99, 4] "!" fresh = none := by
  intro operand list
  have distinct : ((nodesEach list).map Expression.tag).Nodup := by decide
  have together : Together [6, 99, 4] list :=
    ⟨[operand 4 "lamp.on", operand 5 "fan.on", .group 6 "||" [operand 7 "tv.on"]],
      by simp [list, siblingLists, nodesEach, nodes, children],
      by simp [list, nodesEach, nodes, operand]⟩
  have perm : [6, 99, 4].Perm [4, 6, 99] := by decide
  obtain ⟨-, hsame, hretagged⟩ := group_rearranged distinct together perm "||"
  obtain ⟨hrefused, -, -⟩ := group_rearranged distinct together perm "!"
  have leads : Leads [4, 6, 99] list := ⟨4, rfl, operand 4 "lamp.on",
    by simp [list, nodesEach, nodes, operand], rfl⟩
  refine ⟨distinct, together, perm, ⟨_, rfl, (hsame 8 _ rfl).1 leads, by decide, _, rfl,
    hretagged 8 9 _ _ rfl rfl⟩, fun fresh => (hrefused fresh).mpr (.inr ⟨rfl, ?_⟩)⟩
  decide

/-- A selection that begins with a tag of no node is refused, although another one of its tags is
that of a node and alone would be grouped. -/
theorem stale_tag_first :
    let list : ExpressionList Nat := [.operand ⟨1, .variable, .string "door.open"⟩]
    ((nodesEach list).map Expression.tag).Nodup ∧ Together [9, 1] list ∧ [9, 1].Perm [1, 9] ∧
      Operator.isUnary "&&" = false ∧ chosenNodes [9, 1] list = list ∧
      group? list [9, 1] "&&" 2 = none ∧ group? list [1, 9] "&&" 2 = some [.group 2 "&&" list] := by
  refine ⟨by decide, ⟨_, List.mem_cons_self, ?_⟩, by decide, by decide, rfl, rfl, rfl⟩
  simp [nodesEach, nodes]

end Order

end ExpressionList

end BlockScript
