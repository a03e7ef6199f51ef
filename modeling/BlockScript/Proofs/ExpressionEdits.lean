import BlockScript.Proofs.Arity
import Mathlib.Data.List.Flatten
import Mathlib.Data.List.InsertIdx
import Mathlib.Data.List.Nodup
import Mathlib.Data.List.Pairwise
import Mathlib.Data.List.Perm.Basic

/-! Deleting, dissolving and grouping, place by place. Each of the three edits gives one list of
siblings, the expression list itself or the children of a group at some depth, other members, and
leaves everything around it as it is. With distinct tags the list of siblings is the one that the
tag stands in, and what the edit makes of it is told here exactly. The edits are also carried out
step by step, with removals and insertions at counted places, and come to the same. -/

namespace BlockScript

variable {ι : Type}

/-- The expression with nothing in its group. -/
def Expression.bare : Expression ι → Expression ι
  | .group tag operator _ => .group tag operator []
  | e => e

namespace ExpressionList

open Expression

/-! ### Siblings -/

/-- The list itself and the children of every node in it. -/
def siblingLists (list : ExpressionList ι) : List (ExpressionList ι) :=
  list :: (nodesEach list).map children

/-- The second list is the first one with the whole of one list of siblings, `old`, replaced by
`new`. -/
inductive SiblingsReplaced (old new : ExpressionList ι) :
    ExpressionList ι → ExpressionList ι → Prop
  | root : SiblingsReplaced old new old new
  | under {inner inner' : ExpressionList ι} (before : ExpressionList ι) (tag : ι)
      (operator : String) (after : ExpressionList ι) : SiblingsReplaced old new inner inner' →
        SiblingsReplaced old new (before ++ group tag operator inner :: after)
          (before ++ group tag operator inner' :: after)

/-- One list of siblings is replaced, and the other nodes at all depths have the tags, operators and
operands that they had, in the order that they had. -/
structure Edited (old new list list' : ExpressionList ι) : Prop where
  place : SiblingsReplaced old new list list'
  others : ∃ before after,
    (nodesEach list).map bare = before ++ (nodesEach old).map bare ++ after ∧
      (nodesEach list').map bare = before ++ (nodesEach new).map bare ++ after

namespace SiblingsReplaced

variable {old new list list' : ExpressionList ι}

theorem edited (h : SiblingsReplaced old new list list') : Edited old new list list' := by
  refine ⟨h, ?_⟩
  induction h with
  | root => exact ⟨[], [], by simp, by simp⟩
  | under before tag operator after _ ih =>
    obtain ⟨first, last, hlist, hlist'⟩ := ih
    refine ⟨(nodesEach before).map bare ++ group tag operator [] :: first,
      last ++ (nodesEach after).map bare, ?_, ?_⟩
    · simp [nodesEach_append, nodesEach, nodes, bare, hlist]
    · simp [nodesEach_append, nodesEach, nodes, bare, hlist']

/-- Siblings replaced by themselves change nothing. -/
theorem eq_of_self (h : SiblingsReplaced old old list list') : list' = list := by
  induction h with
  | root => rfl
  | under before tag operator after _ ih => rw [ih]

/-- New children for one group replace the siblings in it. -/
theorem of_replaced {tag : ι} {operator : String}
    (h : Replaced [.group tag operator old] [.group tag operator new] list list') :
    SiblingsReplaced old new list list' := by
  -- the replaced siblings stand under some member of the list, whatever is put beside that
  have hunder : ∃ before t o inner inner' after, list = before ++ group t o inner :: after ∧
      list' = before ++ group t o inner' :: after ∧ SiblingsReplaced old new inner inner' := by
    induction h with
    | here => exact ⟨[], tag, operator, old, new, [], rfl, rfl, .root⟩
    | beside before after _ ih =>
      obtain ⟨first, t, o, inner, inner', last, rfl, rfl, hinner⟩ := ih
      exact ⟨before ++ first, t, o, inner, inner', last ++ after, by simp, by simp, hinner⟩
    | inside t o _ ih =>
      obtain ⟨first, t', o', inner, inner', last, rfl, rfl, hinner⟩ := ih
      exact ⟨[], t, o, _, _, [], rfl, rfl, .under first t' o' last hinner⟩
  obtain ⟨before, t, o, inner, inner', after, rfl, rfl, hinner⟩ := hunder
  exact .under before t o after hinner

end SiblingsReplaced

end ExpressionList

namespace Expression

open ExpressionList

mutual

theorem nodes_perm : (e : Expression ι) → e.nodes.Perm (e :: (e.nodes.map children).flatten)
  | leaf .. | operand _ => by simp [nodes, children]
  | group tag operator list => by
    simpa [nodes, children, siblingLists] using nodesEach_perm list

/-- Every node stands in one list of siblings, once. -/
theorem nodesEach_perm : (list : ExpressionList ι) →
    (nodesEach list).Perm list.siblingLists.flatten
  | [] => by simp [nodesEach, siblingLists]
  | e :: rest => by
    rw [siblingLists, nodesEach, List.flatten_cons, List.map_append, List.flatten_append,
      List.cons_append]
    refine ((nodes_perm e).append (nodesEach_perm rest)).trans ?_
    -- the first node stays in front; the rest of the list goes before what is below the first node
    rw [siblingLists, List.flatten_cons, List.cons_append, List.perm_cons, ← List.append_assoc,
      ← List.append_assoc]
    exact List.perm_append_comm.append_right _

end

end Expression

namespace ExpressionList

open Expression

variable {list : ExpressionList ι} {a b : ExpressionList ι}

theorem mem_nodesEach_iff {e : Expression ι} :
    e ∈ nodesEach list ↔ ∃ siblings ∈ list.siblingLists, e ∈ siblings := by
  rw [(nodesEach_perm list).mem_iff, List.mem_flatten]

/-- Two lists of siblings in which one tag stands are the same list. -/
theorem siblings_unique (distinct : ((nodesEach list).map tag).Nodup)
    (ha : a ∈ list.siblingLists) (hb : b ∈ list.siblingLists) {t : ι} (hta : t ∈ a.map tag)
    (htb : t ∈ b.map tag) : a = b := by
  have hnodup : (list.siblingLists.map (List.map tag)).flatten.Nodup := by
    rw [← List.map_flatten]
    exact ((nodesEach_perm list).map tag).nodup_iff.mp distinct
  have hdisjoint := List.pairwise_map.mp (List.nodup_flatten.mp hnodup).2
  have : Std.Symm fun a b : ExpressionList ι => (a.map tag).Disjoint (b.map tag) :=
    ⟨fun _ _ h _ hb ha => h ha hb⟩
  by_contra hne
  exact hdisjoint.forall ha hb hne hta htb

theorem eq_of_tag_eq (distinct : ((nodesEach list).map tag).Nodup) {e e' : Expression ι}
    (he : e ∈ nodesEach list) (he' : e' ∈ nodesEach list) (h : e.tag = e'.tag) : e = e' :=
  List.inj_on_of_nodup_map distinct he he' h

/-! ### An edit among siblings -/

section EditSiblings

variable {list siblings new : ExpressionList Nat} {tag : Nat}
  {edit : ExpressionList Nat → Option (ExpressionList Nat)}

theorem anyTagged_iff_mem : anyTagged tag siblings = true ↔ tag ∈ siblings.map Expression.tag := by
  rw [anyTagged_iff, List.mem_map]

theorem mem_siblingLists (h : siblings? list tag = some siblings) :
    siblings ∈ list.siblingLists ∧ tag ∈ siblings.map Expression.tag := by
  rw [siblings?] at h
  split at h
  · rename_i root
    obtain rfl := Option.some.inj h
    exact ⟨List.mem_cons_self, anyTagged_iff_mem.mp root⟩
  · rw [siblingsEach?_eq] at h
    obtain ⟨holder, hholder, rfl⟩ := Option.map_eq_some_iff.mp h
    have hany := List.find?_some hholder
    have hmem := List.mem_map_of_mem (f := children) (List.mem_of_find?_eq_some hholder)
    exact ⟨List.mem_cons_of_mem _ hmem, anyTagged_iff_mem.mp hany⟩

theorem siblings?_eq_none_iff : siblings? list tag = none ↔
    ∀ siblings ∈ list.siblingLists, tag ∉ siblings.map Expression.tag := by
  simp only [← anyTagged_iff_mem, siblingLists, List.forall_mem_cons, List.forall_mem_map]
  by_cases root : anyTagged tag list = true
  · simp [siblings?, root]
  · simp [siblings?, root, siblingsEach?_eq]

/-- The search finds the only list of siblings in which the tag stands. -/
theorem siblings?_eq_some_iff (distinct : ((nodesEach list).map Expression.tag).Nodup) :
    siblings? list tag = some siblings ↔
      siblings ∈ list.siblingLists ∧ tag ∈ siblings.map Expression.tag := by
  refine ⟨mem_siblingLists, fun ⟨hmem, htag⟩ => ?_⟩
  cases h : siblings? list tag with
  | none => exact absurd htag (siblings?_eq_none_iff.mp h siblings hmem)
  | some found =>
    obtain ⟨hfound, hfoundTag⟩ := mem_siblingLists h
    rw [siblings_unique distinct hfound hmem hfoundTag htag]

/-- The list with `new` in the place of the siblings of the tag. -/
def putSiblings (list : ExpressionList Nat) (tag : Nat) (new : ExpressionList Nat) :
    ExpressionList Nat :=
  if anyTagged tag list then new else (replaceSiblingsEach? tag new list).getD list

theorem edited_putSiblings (h : siblings? list tag = some siblings) (new : ExpressionList Nat) :
    Edited siblings new list (putSiblings list tag new) := by
  by_cases root : anyTagged tag list = true
  · rw [siblings?, if_pos root] at h
    obtain rfl := Option.some.inj h
    rw [putSiblings, if_pos root]
    exact SiblingsReplaced.root.edited
  · rw [siblings?, if_neg root, siblingsEach?_eq] at h
    obtain ⟨holder, hfound, rfl⟩ := Option.map_eq_some_iff.mp h
    obtain ⟨t, operator, old, list', rfl, hlist, hr⟩ := exists_replaceSiblingsEach? new hfound
    rw [putSiblings, if_neg root, hlist, Option.getD_some]
    exact (SiblingsReplaced.of_replaced hr).edited

theorem exists_siblings?_iff :
    (∃ siblings, siblings? list tag = some siblings) ↔ ∃ e ∈ nodesEach list, e.tag = tag := by
  constructor
  · rintro ⟨siblings, h⟩
    obtain ⟨hmem, htag⟩ := mem_siblingLists h
    obtain ⟨e, he, rfl⟩ := List.mem_map.mp htag
    exact ⟨e, mem_nodesEach_iff.mpr ⟨siblings, hmem, he⟩, rfl⟩
  · rintro ⟨e, he, rfl⟩
    obtain ⟨siblings, hmem, he⟩ := mem_nodesEach_iff.mp he
    refine Option.ne_none_iff_exists'.mp fun hnone => ?_
    exact siblings?_eq_none_iff.mp hnone siblings hmem (List.mem_map_of_mem he)

/-- An edit that applies to the siblings that the search finds puts its result in their place. -/
theorem editSiblings?_eq (h : siblings? list tag = some siblings) :
    editSiblings? list tag edit = (edit siblings).map (putSiblings list tag) := by
  by_cases root : anyTagged tag list = true
  · rw [siblings?, if_pos root] at h
    obtain rfl := Option.some.inj h
    rw [editSiblings?_of_root root]
    cases edit list <;> simp [putSiblings, root]
  · have hfound := h
    rw [siblings?, if_neg root, siblingsEach?_eq] at hfound
    obtain ⟨holder, hholder, rfl⟩ := Option.map_eq_some_iff.mp hfound
    cases made : edit holder.children with
    | none => simp [editSiblings?, h, made]
    | some new =>
      obtain ⟨t, operator, old, list', -, hlist, -⟩ := exists_replaceSiblingsEach? new hholder
      simp [editSiblings?, h, made, root, putSiblings, hlist]

theorem editSiblings?_eq_none (h : siblings? list tag = none) :
    editSiblings? list tag edit = none := by
  simp [editSiblings?, h]

theorem isSome_editSiblings?_iff : (editSiblings? list tag edit).isSome ↔
    ∃ siblings, siblings? list tag = some siblings ∧ (edit siblings).isSome := by
  cases h : siblings? list tag with
  | none => simp [editSiblings?_eq_none h]
  | some siblings => simp [editSiblings?_eq h]

theorem exists_of_editSiblings? {list' : ExpressionList Nat}
    (h : editSiblings? list tag edit = some list') :
    ∃ siblings new, siblings? list tag = some siblings ∧ edit siblings = some new ∧
      Edited siblings new list list' := by
  cases hsiblings : siblings? list tag with
  | none => cases (editSiblings?_eq_none hsiblings).symm.trans h
  | some siblings =>
    rw [editSiblings?_eq hsiblings] at h
    obtain ⟨new, made, rfl⟩ := Option.map_eq_some_iff.mp h
    exact ⟨siblings, new, rfl, made, edited_putSiblings hsiblings new⟩

end EditSiblings

/-! ### What becomes of the siblings -/

section Siblings

variable {siblings before after : ExpressionList Nat} {e : Expression Nat} {tag : Nat}
  {selected : List Nat}

theorem exists_split {p : Expression Nat → Prop} [DecidablePred p] (h : ∃ e ∈ siblings, p e) :
    ∃ before e after, siblings = before ++ e :: after ∧ (∀ b ∈ before, ¬p b) ∧ p e := by
  obtain ⟨e, hfind⟩ := Option.isSome_iff_exists.mp
    (List.find?_isSome (p := fun e => decide (p e)).mpr (by simpa using h))
  obtain ⟨he, before, after, rfl, hbefore⟩ := List.find?_eq_some_iff_append.mp hfind
  exact ⟨before, e, after, rfl, by simpa using hbefore, by simpa using he⟩

theorem takeWhile_split {p : Expression Nat → Bool} (hbefore : ∀ b ∈ before, p b = true)
    (he : p e = false) : (before ++ e :: after).takeWhile p = before := by
  rw [List.takeWhile_append_of_pos hbefore, List.takeWhile_cons_of_neg (by simp [he]),
    List.append_nil]

/-- The first sibling with the tag goes. -/
theorem eraseP_split (hbefore : ∀ b ∈ before, b.tag ≠ tag) (he : e.tag = tag) :
    (before ++ e :: after).eraseP (fun e => e.tag == tag) = before ++ after := by
  rw [List.eraseP_append_right _ (by simpa using hbefore), List.eraseP_cons_of_pos (by simp [he])]

theorem ungroupSiblings?_split (hbefore : ∀ b ∈ before, b.tag ≠ tag) (he : e.tag = tag) :
    ungroupSiblings? tag (before ++ e :: after) = match e with
      | .group _ _ children => some (before ++ children ++ after)
      | _ => none := by
  have htake : (before ++ e :: after).takeWhile (fun e => e.tag != tag) = before :=
    takeWhile_split (by simpa using hbefore) (by simp [he])
  rw [ungroupSiblings?]
  simp only [htake, List.drop_left]
  cases e <;> rfl

/-- The selected siblings go under a new group in the place of the first of them, and the others
stay beside it. -/
theorem groupSiblings?_split (operator : String) (fresh : Nat)
    (hbefore : ∀ b ∈ before, b.tag ∉ selected) (he : e.tag ∈ selected) :
    groupSiblings? selected operator fresh (before ++ e :: after) =
      let chosen := e :: after.filter fun e => selected.contains e.tag
      if Operator.isUnary operator ∧ 1 < chosen.length then none
      else some (before ++ .group fresh operator chosen ::
        after.filter fun e => !selected.contains e.tag) := by
  have hselected : selected.contains e.tag = true := List.contains_iff_mem.mpr he
  have htake : (before ++ e :: after).takeWhile (fun e => !selected.contains e.tag) = before :=
    takeWhile_split (by simpa using hbefore) (by simp [he])
  have hchosen : before.filter (fun e => selected.contains e.tag) = [] :=
    List.filter_eq_nil_iff.mpr (by simpa using hbefore)
  simp only [groupSiblings?, htake, List.drop_left, List.filter_append, hchosen, List.nil_append,
    List.filter_cons, hselected, Bool.not_true, Bool.false_eq_true, if_true, if_false]

end Siblings

/-! ### Step by step -/

/-- The edit carried out at the siblings of the tag, with an answer whether it was done. -/
def editInPlace (list : ExpressionList Nat) (tag : Nat)
    (edit : ExpressionList Nat → Bool × ExpressionList Nat) : Bool × ExpressionList Nat :=
  match siblings? list tag with
  | none => (false, list)
  | some siblings => ((edit siblings).1, putSiblings list tag (edit siblings).2)

/-- The sibling at the first place with the tag is removed. -/
def deleteAtPlace (tag : Nat) (siblings : ExpressionList Nat) : Bool × ExpressionList Nat :=
  match siblings.findIdx? (·.tag == tag) with
  | none => (false, siblings)
  | some place => (true, siblings.eraseIdx place)

/-- The children inserted one after the other, from the place on. -/
def insertEach (children : ExpressionList Nat) (place : Nat) (siblings : ExpressionList Nat) :
    ExpressionList Nat :=
  children.zipIdx.foldl (fun siblings (child, offset) => siblings.insertIdx (place + offset) child)
    siblings

/-- The sibling at the first place with the tag is removed, if it is a group, and its children are
inserted from there on. -/
def ungroupAtPlace (tag : Nat) (siblings : ExpressionList Nat) : Bool × ExpressionList Nat :=
  match siblings.findIdx? (·.tag == tag) with
  | none => (false, siblings)
  | some place =>
    match siblings[place]? with
    | some (.group _ _ children) => (true, insertEach children place (siblings.eraseIdx place))
    | _ => (false, siblings)

/-- The places of the selected siblings. -/
def places (selected : List Nat) (siblings : ExpressionList Nat) (start : Nat) : List Nat :=
  ((siblings.zipIdx start).filter fun entry => selected.contains entry.1.tag).map Prod.snd

/-- What stands at the places, and the siblings without it. The last place comes first, so that the
earlier ones stay where they are. -/
def takeOut (places : List Nat) (siblings : ExpressionList Nat) :
    ExpressionList Nat × ExpressionList Nat :=
  places.foldr (fun place (taken, rest) => (rest[place]?.toList ++ taken, rest.eraseIdx place))
    ([], siblings)

/-- The selected siblings are taken out, and a new group of them is inserted at the first of their
places. -/
def groupAtPlaces (selected : List Nat) (operator : String) (fresh : Nat)
    (siblings : ExpressionList Nat) : Bool × ExpressionList Nat :=
  match places selected siblings 0 with
  | [] => (false, siblings)
  | first :: others =>
    if Operator.isUnary operator ∧ 1 < (first :: others).length then (false, siblings)
    else
      let (taken, rest) := takeOut (first :: others) siblings
      (true, rest.insertIdx first (.group fresh operator taken))

/-- The answer of an edit and the list after it; one that is refused leaves the list as it was. -/
def outcome (list : ExpressionList Nat) (made : Option (ExpressionList Nat)) :
    Bool × ExpressionList Nat := (made.isSome, made.getD list)

section InPlace

variable {list siblings before after : ExpressionList Nat} {e : Expression Nat} {tag : Nat}
  {selected : List Nat}

/-- An edit is the same in place if it is the same on all siblings of the tag. -/
theorem editInPlace_eq {atPlace : ExpressionList Nat → Bool × ExpressionList Nat}
    {edit : ExpressionList Nat → Option (ExpressionList Nat)}
    (h : ∀ siblings, (∃ e ∈ siblings, e.tag = tag) →
      atPlace siblings = outcome siblings (edit siblings)) :
    editInPlace list tag atPlace = outcome list (editSiblings? list tag edit) := by
  cases hsiblings : siblings? list tag with
  | none => rw [editInPlace, hsiblings, editSiblings?_eq_none hsiblings]; rfl
  | some siblings =>
    rw [editInPlace, hsiblings, editSiblings?_eq hsiblings]
    simp only [h siblings (List.mem_map.mp (mem_siblingLists hsiblings).2)]
    cases edit siblings with
    | none =>
      -- the siblings are put back as they were
      have hsame := (edited_putSiblings hsiblings siblings).place.eq_of_self
      exact Prod.ext rfl hsame
    | some new => rfl

theorem findIdx?_split (hbefore : ∀ b ∈ before, b.tag ≠ tag) (he : e.tag = tag) :
    (before ++ e :: after).findIdx? (·.tag == tag) = some before.length := by
  rw [List.findIdx?_append, List.findIdx?_eq_none_iff.mpr (by simpa using hbefore)]
  simp [List.findIdx?_cons, he]

theorem eraseIdx_split (e : Expression Nat) (before after : ExpressionList Nat) :
    (before ++ e :: after).eraseIdx before.length = before ++ after := by
  simp [List.eraseIdx_append_of_length_le]

theorem insertIdx_split (e : Expression Nat) (before after : ExpressionList Nat) :
    (before ++ after).insertIdx before.length e = before ++ e :: after :=
  List.modifyTailIdx_add (List.cons e) 0 before after

theorem deleteAtPlace_eq (h : ∃ e ∈ siblings, e.tag = tag) : deleteAtPlace tag siblings =
    outcome siblings (some (siblings.eraseP fun e => e.tag == tag)) := by
  obtain ⟨before, e, after, rfl, hbefore, he⟩ := exists_split h
  rw [eraseP_split hbefore he, deleteAtPlace, findIdx?_split hbefore he]
  simp only [eraseIdx_split]
  rfl

theorem insertEach_eq (children before after : ExpressionList Nat) :
    insertEach children before.length (before ++ after) = before ++ children ++ after := by
  -- the induction is on what is still to be inserted, with the inserted part in between
  have hrun : ∀ done : ExpressionList Nat, (children.zipIdx done.length).foldl
      (fun siblings (child, offset) => siblings.insertIdx (before.length + offset) child)
        (before ++ done ++ after) = before ++ (done ++ children) ++ after := by
    induction children with
    | nil => simp
    | cons child rest ih =>
      intro done
      have hinsert : (before ++ done ++ after).insertIdx (before.length + done.length) child =
          before ++ (done ++ [child]) ++ after := by
        rw [← List.length_append, insertIdx_split]
        simp
      have hrest := ih (done ++ [child])
      rw [List.length_append, List.length_singleton, List.append_assoc done] at hrest
      rw [List.zipIdx_cons, List.foldl_cons]
      simp only [hinsert]
      exact hrest
  have hall := hrun []
  rwa [List.append_nil, List.nil_append] at hall

theorem ungroupAtPlace_eq (h : ∃ e ∈ siblings, e.tag = tag) :
    ungroupAtPlace tag siblings = outcome siblings (ungroupSiblings? tag siblings) := by
  obtain ⟨before, e, after, rfl, hbefore, he⟩ := exists_split h
  rw [ungroupSiblings?_split hbefore he, ungroupAtPlace, findIdx?_split hbefore he]
  simp only [List.getElem?_append_right (Nat.le_refl _), Nat.sub_self, List.getElem?_cons_zero]
  cases e with
  | group t operator children =>
    simp only [eraseIdx_split, insertEach_eq]
    rfl
  | leaf | operand => rfl

theorem places_append (before after : ExpressionList Nat) (start : Nat) :
    places selected (before ++ after) start =
      places selected before start ++ places selected after (start + before.length) := by
  rw [places, List.zipIdx_append, List.filter_append, List.map_append]
  rfl

theorem places_cons (e : Expression Nat) (after : ExpressionList Nat) (start : Nat) :
    places selected (e :: after) start =
      if selected.contains e.tag then start :: places selected after (start + 1)
      else places selected after (start + 1) := by
  rw [places, List.zipIdx_cons, List.filter_cons]
  split <;> rfl

theorem places_eq_nil (h : ∀ b ∈ before, b.tag ∉ selected) (start : Nat) :
    places selected before start = [] := by
  induction before generalizing start with
  | nil => rfl
  | cons b rest ih =>
    rw [List.forall_mem_cons] at h
    rw [places_cons, if_neg (by simpa using h.1), ih h.2]

theorem length_places (siblings : ExpressionList Nat) (start : Nat) :
    (places selected siblings start).length =
      (siblings.filter fun e => selected.contains e.tag).length := by
  induction siblings generalizing start with
  | nil => rfl
  | cons e rest ih =>
    rw [places_cons, List.filter_cons]
    split <;> simp [ih]

/-- Taking out the selected ones after `before` leaves what was before and the others after it. -/
theorem takeOut_eq (selected : List Nat) (before after : ExpressionList Nat) :
    takeOut (places selected after before.length) (before ++ after) =
      (after.filter fun e => selected.contains e.tag,
        before ++ after.filter fun e => !selected.contains e.tag) := by
  induction after generalizing before with
  | nil => rfl
  | cons e rest ih =>
    have hrest := ih (before ++ [e])
    rw [List.length_append, List.length_singleton, List.append_assoc, List.append_assoc,
      List.singleton_append, List.singleton_append] at hrest
    rw [places_cons, List.filter_cons, List.filter_cons]
    by_cases he : selected.contains e.tag = true
    · rw [if_pos he, if_pos he, takeOut, List.foldr_cons, ← takeOut, hrest]
      simp only [he, Bool.not_true, Bool.false_eq_true, if_false]
      simp [eraseIdx_split]
    · rw [if_neg he, if_neg he, hrest]
      simp only [he, Bool.not_false, if_true]

theorem groupAtPlaces_eq (operator : String) (fresh : Nat) (h : ∃ e ∈ siblings, e.tag ∈ selected) :
    groupAtPlaces selected operator fresh siblings =
      outcome siblings (groupSiblings? selected operator fresh siblings) := by
  obtain ⟨before, e, after, rfl, hbefore, he⟩ := exists_split h
  have hplaces : places selected (before ++ e :: after) 0 =
      before.length :: places selected after (before.length + 1) := by
    rw [places_append, places_eq_nil hbefore, places_cons, if_pos (List.contains_iff_mem.mpr he)]
    simp
  have htaken : takeOut (before.length :: places selected after (before.length + 1))
      (before ++ e :: after) = (e :: after.filter fun e => selected.contains e.tag,
        before ++ after.filter fun e => !selected.contains e.tag) := by
    have hselected : selected.contains e.tag = true := List.contains_iff_mem.mpr he
    have hall := takeOut_eq selected before (e :: after)
    simpa only [places_cons, List.filter_cons, hselected, Bool.not_true, Bool.false_eq_true,
      if_true, if_false] using hall
  rw [groupSiblings?_split operator fresh hbefore he, groupAtPlaces, hplaces]
  simp only [List.length_cons, length_places, htaken, insertIdx_split]
  split <;> rfl

end InPlace

/-! ### The edits -/

section Edits

variable {list list' : ExpressionList Nat} {tag : Nat} {selected : List Nat} {operator : String}
  {fresh : Nat}

def deleteInPlace (list : ExpressionList Nat) (tag : Nat) : Bool × ExpressionList Nat :=
  editInPlace list tag (deleteAtPlace tag)

def ungroupInPlace (list : ExpressionList Nat) (tag : Nat) : Bool × ExpressionList Nat :=
  editInPlace list tag (ungroupAtPlace tag)

def groupInPlace (list : ExpressionList Nat) (selected : List Nat) (operator : String)
    (fresh : Nat) : Bool × ExpressionList Nat :=
  match selected with
  | [] => (false, list)
  | first :: _ => editInPlace list first (groupAtPlaces selected operator fresh)

/-- One node with the tag, with all below it, is taken out of its siblings. -/
def Deleted (tag : Nat) (list list' : ExpressionList Nat) : Prop :=
  ∃ before e after, e.tag = tag ∧ Edited (before ++ e :: after) (before ++ after) list list'

/-- The children of one group with the tag stand among its siblings in its place. -/
def Dissolved (tag : Nat) (list list' : ExpressionList Nat) : Prop :=
  ∃ before operator children after, Edited (before ++ .group tag operator children :: after)
    (before ++ children ++ after) list list'

/-- Of the siblings of the first selected node the selected ones, no others, are under a new group,
in their order; it stands where the first of them in the list stood. -/
def Grouped (selected : List Nat) (operator : String) (fresh : Nat)
    (list list' : ExpressionList Nat) : Prop :=
  ∃ first ∈ selected.head?, ∃ before e after,
    first ∈ (before ++ e :: after).map Expression.tag ∧ (∀ b ∈ before, b.tag ∉ selected) ∧
      e.tag ∈ selected ∧
        let chosen := e :: after.filter fun e => selected.contains e.tag
        let others := after.filter fun e => !selected.contains e.tag
        Edited (before ++ e :: after) (before ++ .group fresh operator chosen :: others) list list'

theorem isSome_delete?_iff :
    (delete? list tag).isSome ↔ ∃ e ∈ nodesEach list, e.tag = tag := by
  rw [delete?, isSome_editSiblings?_iff, ← exists_siblings?_iff]
  simp only [Option.isSome_some, and_true]

theorem deleted_of_delete? (h : list' ∈ delete? list tag) : Deleted tag list list' := by
  obtain ⟨siblings, new, hsiblings, made, edited⟩ := exists_of_editSiblings? h
  obtain rfl := Option.some.inj made
  obtain ⟨before, e, after, rfl, hbefore, he⟩ :=
    exists_split (List.mem_map.mp (mem_siblingLists hsiblings).2)
  rw [eraseP_split hbefore he] at edited
  exact ⟨before, e, after, he, edited⟩

theorem isSome_ungroup?_iff (distinct : ((nodesEach list).map Expression.tag).Nodup) :
    (ungroup? list tag).isSome ↔
      ∃ operator children, .group tag operator children ∈ nodesEach list := by
  rw [ungroup?, isSome_editSiblings?_iff]
  constructor
  · rintro ⟨siblings, hsiblings, made⟩
    obtain ⟨hmem, htag⟩ := mem_siblingLists hsiblings
    obtain ⟨before, e, after, rfl, hbefore, rfl⟩ := exists_split (List.mem_map.mp htag)
    rw [ungroupSiblings?_split hbefore rfl] at made
    cases e with
    | group tag operator children =>
      exact ⟨operator, children, mem_nodesEach_iff.mpr ⟨_, hmem, by simp⟩⟩
    | leaf | operand => cases made
  · rintro ⟨operator, children, hgroup⟩
    obtain ⟨siblings, hsiblings⟩ : ∃ siblings, siblings? list tag = some siblings :=
      exists_siblings?_iff.mpr ⟨_, hgroup, rfl⟩
    obtain ⟨hmem, htag⟩ := mem_siblingLists hsiblings
    obtain ⟨before, e, after, rfl, hbefore, he⟩ := exists_split (List.mem_map.mp htag)
    -- no other node has the tag, so the sibling with it is the group
    have hnode : e ∈ nodesEach list := mem_nodesEach_iff.mpr ⟨_, hmem, by simp⟩
    obtain rfl := eq_of_tag_eq distinct hnode hgroup he
    exact ⟨_, hsiblings, by rw [ungroupSiblings?_split hbefore he, Option.isSome_some]⟩

theorem dissolved_of_ungroup? (h : list' ∈ ungroup? list tag) : Dissolved tag list list' := by
  obtain ⟨siblings, new, hsiblings, made, edited⟩ := exists_of_editSiblings? h
  obtain ⟨before, e, after, rfl, hbefore, rfl⟩ :=
    exists_split (List.mem_map.mp (mem_siblingLists hsiblings).2)
  rw [ungroupSiblings?_split hbefore rfl] at made
  cases e with
  | group tag operator children =>
    obtain rfl := Option.some.inj made
    exact ⟨before, operator, children, after, edited⟩
  | leaf | operand => cases made

theorem isSome_groupSiblings?_iff {siblings : ExpressionList Nat} :
    (groupSiblings? selected operator fresh siblings).isSome ↔
      ¬(Operator.isUnary operator = true ∧
        1 < (siblings.filter fun e => selected.contains e.tag).length) := by
  rw [groupSiblings?]
  split
  · rename_i refused
    exact iff_of_false Bool.false_ne_true (not_not_intro refused)
  · rename_i taken
    exact iff_of_true rfl taken

theorem group?_eq : group? list selected operator fresh = selected.head?.bind fun first =>
    editSiblings? list first (groupSiblings? selected operator fresh) := rfl

theorem isSome_group?_iff (distinct : ((nodesEach list).map Expression.tag).Nodup) :
    (group? list selected operator fresh).isSome ↔ ∃ first ∈ selected.head?,
      ∃ siblings ∈ list.siblingLists, first ∈ siblings.map Expression.tag ∧
        ¬(Operator.isUnary operator = true ∧
          1 < (siblings.filter fun e => selected.contains e.tag).length) := by
  rw [group?_eq]
  cases selected.head? with
  | none => simp
  | some first =>
    simp only [Option.bind_some, isSome_editSiblings?_iff, siblings?_eq_some_iff distinct,
      isSome_groupSiblings?_iff, and_assoc, Option.mem_def, Option.some.injEq, exists_eq_left']

theorem grouped_of_group? (h : list' ∈ group? list selected operator fresh) :
    Grouped selected operator fresh list list' := by
  obtain ⟨first, hfirst, h⟩ := Option.bind_eq_some_iff.mp h
  obtain ⟨siblings, new, hsiblings, made, edited⟩ := exists_of_editSiblings? h
  have htag := (mem_siblingLists hsiblings).2
  obtain ⟨e', he', rfl⟩ := List.mem_map.mp htag
  have hselected : ∃ e ∈ siblings, e.tag ∈ selected :=
    ⟨e', he', List.mem_of_mem_head? hfirst⟩
  obtain ⟨before, e, after, rfl, hbefore, he⟩ := exists_split hselected
  rw [groupSiblings?_split operator fresh hbefore he] at made
  obtain rfl := Option.some.inj (Option.ite_none_left_eq_some.mp made).2
  exact ⟨_, hfirst, before, e, after, htag, hbefore, he, edited⟩

/-- For a list whose nodes have distinct tags: deletion applies to the tags of nodes and takes out
that node; dissolving applies to the tags of groups and puts the children of that group in its
place; grouping applies where the first selected tag is that of a node, unless a unary operator is
given several of its siblings, and puts the selected siblings of it under one new group. All around
stays as it is. Carried out in place, with removals and insertions one after the other, the edits
answer the same, and refused ones leave the list as it was. -/
theorem edits_exact (distinct : ((nodesEach list).map Expression.tag).Nodup) :
    (∀ tag, ((delete? list tag).isSome ↔ ∃ e ∈ nodesEach list, e.tag = tag) ∧
      ∀ list' ∈ delete? list tag, Deleted tag list list') ∧
    (∀ tag, ((ungroup? list tag).isSome ↔
        ∃ operator children, .group tag operator children ∈ nodesEach list) ∧
      ∀ list' ∈ ungroup? list tag, Dissolved tag list list') ∧
    (∀ selected operator fresh, ((group? list selected operator fresh).isSome ↔
        ∃ first ∈ selected.head?, ∃ siblings ∈ list.siblingLists,
          first ∈ siblings.map Expression.tag ∧ ¬(Operator.isUnary operator = true ∧
            1 < (siblings.filter fun e => selected.contains e.tag).length)) ∧
      ∀ list' ∈ group? list selected operator fresh,
        Grouped selected operator fresh list list') ∧
    (∀ tag, deleteInPlace list tag = outcome list (delete? list tag)) ∧
    (∀ tag, ungroupInPlace list tag = outcome list (ungroup? list tag)) ∧
    ∀ selected operator fresh, groupInPlace list selected operator fresh =
      outcome list (group? list selected operator fresh) := by
  refine ⟨fun tag => ⟨isSome_delete?_iff, fun _ => deleted_of_delete?⟩,
    fun tag => ⟨isSome_ungroup?_iff distinct, fun _ => dissolved_of_ungroup?⟩,
    fun selected operator fresh => ⟨isSome_group?_iff distinct, fun _ => grouped_of_group?⟩,
    fun tag => editInPlace_eq fun _ => deleteAtPlace_eq,
    fun tag => editInPlace_eq fun _ => ungroupAtPlace_eq, fun selected operator fresh => ?_⟩
  cases selected with
  | nil => rfl
  | cons first others =>
    refine editInPlace_eq fun siblings h => groupAtPlaces_eq operator fresh ?_
    obtain ⟨e, he, rfl⟩ := h
    exact ⟨e, he, List.mem_cons_self⟩

/-- Of the selected tags two are those of siblings, one of these given twice; the others stand
elsewhere or nowhere. -/
theorem edits_exact_nested :
    let operand (tag : Nat) (name : String) : Expression Nat :=
      .operand ⟨tag, .variable, .string name⟩
    let list : ExpressionList Nat := [operand 1 "door.open", .group 2 "!" [.group 3 "&&"
      [operand 4 "lamp.on", operand 5 "fan.on", .group 6 "||" [operand 7 "tv.on"],
        operand 8 "ac.on"]]]
    let selected := [8, 7, 5, 99, 5, 1]
    ((nodesEach list).map Expression.tag).Nodup ∧
      (∃ list', delete? list 6 = some list' ∧ Deleted 6 list list' ∧
        list'.render = "$door.open, !(($lamp.on && $fan.on && $ac.on))") ∧
      (∃ list', ungroup? list 3 = some list' ∧ Dissolved 3 list list' ∧
        list'.render = "$door.open, !($lamp.on, $fan.on, ($tv.on), $ac.on)") ∧
      (∃ list', group? list selected "||" 9 = some list' ∧ Grouped selected "||" 9 list list' ∧
        list'.render = "$door.open, !(($lamp.on && ($fan.on || $ac.on) && ($tv.on)))") ∧
      groupInPlace list [8, 5] "!" 9 = (false, list) := by
  intro operand list selected
  have distinct : ((nodesEach list).map Expression.tag).Nodup := by decide
  obtain ⟨hdelete, hungroup, hgroup, -, -, hinPlace⟩ := edits_exact distinct
  exact ⟨distinct, ⟨_, rfl, (hdelete 6).2 _ rfl, by decide⟩,
    ⟨_, rfl, (hungroup 3).2 _ rfl, by decide⟩,
    ⟨_, rfl, (hgroup selected "||" 9).2 _ rfl, by decide⟩, (hinPlace [8, 5] "!" 9).trans rfl⟩

end Edits

end ExpressionList

end BlockScript
