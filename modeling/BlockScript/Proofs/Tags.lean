import BlockScript.Proofs.Edits
import Mathlib.Data.List.Flatten
import Mathlib.Data.List.Nodup
import Mathlib.Data.List.Perm.Basic

/-! The tags of trees. A stamped tree has the tags that are issued for it, each once, and an edit of
an expression list or of a block keeps or drops tags and adds those issued for it; this is counted
tag by tag. -/

namespace BlockScript

variable {ι : Type}

/-- The tags that are handed out while the next unused one goes from `first` to `next`. -/
def issued (first next : Nat) : List Nat := List.range' first (next - first)

theorem mem_issued {first next tag : Nat} : tag ∈ issued first next ↔ first ≤ tag ∧ tag < next := by
  rw [issued, List.mem_range'_1]
  omega

theorem issued_add (first n : Nat) : issued first (first + n) = List.range' first n := by
  rw [issued, Nat.add_sub_cancel_left]

theorem nodup_issued (first next : Nat) : (issued first next).Nodup := List.nodup_range'

theorem issued_append {first mid next : Nat} (h : first ≤ mid) (h' : mid ≤ next) :
    issued first mid ++ issued mid next = issued first next := by
  have hmid : mid = first + (mid - first) := by omega
  have hlen : next - first = (mid - first) + (next - mid) := by omega
  rw [issued, issued, issued, hlen, ← List.range'_append_1, ← hmid]

theorem count_flatMap_set {α : Type} (f : α → List Nat) {old : α} (new : α) (tag : Nat) :
    {list : List α} → {index : Nat} → list[index]? = some old →
      ((list.set index new).flatMap f).count tag + (f old).count tag =
        (list.flatMap f).count tag + (f new).count tag
  | a :: rest, 0, h => by
    obtain rfl := Option.some.inj h
    simp only [List.set_cons_zero, List.flatMap_cons, List.count_append]
    omega
  | a :: rest, index + 1, h => by
    have hrest : rest[index]? = some old := h
    have ih := count_flatMap_set f new tag hrest
    simp only [List.set_cons_succ, List.flatMap_cons, List.count_append]
    omega

/-! ### Expressions -/

namespace Expression

mutual

theorem tags_stamp : (next : Nat) → (e : Expression ι) →
    (e.stamp next).tags = List.range' next e.count
  | _, leaf _ _ _ second => by cases second <;> rfl
  | next, group _ _ children => by
    rw [stamp, tags, count, List.range'_succ, tagsEach_stampEach (next + 1) children]
  | _, operand _ => rfl

theorem tagsEach_stampEach : (next : Nat) → (list : List (Expression ι)) →
    tagsEach (stampEach next list) = List.range' next (countEach list)
  | _, [] => rfl
  | next, e :: rest => by
    rw [stampEach, tagsEach, countEach, tags_stamp next e,
      tagsEach_stampEach (next + e.count) rest, List.range'_append_1]

end

theorem tagsEach_eq_flatMap (list : List (Expression ι)) : tagsEach list = list.flatMap tags := by
  induction list with
  | nil => rfl
  | cons e rest ih => rw [tagsEach, ih, List.flatMap_cons]

theorem count_tagsEach_perm {as bs : List (Expression Nat)} (h : as.Perm bs) (tag : Nat) :
    (tagsEach as).count tag = (tagsEach bs).count tag := by
  rw [tagsEach_eq_flatMap, tagsEach_eq_flatMap]
  exact (h.flatMap_right tags).count_eq tag

theorem count_tagsEach_sublist {as bs : List (Expression Nat)} (h : as.Sublist bs) (tag : Nat) :
    (tagsEach as).count tag ≤ (tagsEach bs).count tag := by
  rw [tagsEach_eq_flatMap, tagsEach_eq_flatMap]
  exact (h.flatMap tags).count_le tag

theorem count_tags_setOperator (operator : String) (fresh : Nat) (e : Expression Nat) (tag : Nat) :
    (e.setOperator operator fresh).tags.count tag ≤ e.tags.count tag + [fresh].count tag := by
  cases e with
  | leaf t _ first second =>
    rw [setOperator]
    split
    · have h : (leaf t operator first none).tags.Sublist (leaf t operator first second).tags := by
        simp [tags]
      exact Nat.le_trans (h.count_le tag) (Nat.le_add_right ..)
    · cases second with
      | some o => exact Nat.le_add_right ..
      | none =>
        simp only [tags, Operand.unset, Option.getD_none, Option.map_some, Option.map_none,
          Option.toList_some, Option.toList_none, List.count_cons, List.count_nil]
        omega
  | group => exact Nat.le_add_right ..
  | operand => exact Nat.le_add_right ..

end Expression

namespace ExpressionList

open Expression

variable {old new list list' : ExpressionList Nat} {next next' tag : Nat}

theorem Replaced.count_tags (h : Replaced old new list list') (tag : Nat) :
    (tagsEach list').count tag + (tagsEach old).count tag =
      (tagsEach list).count tag + (tagsEach new).count tag := by
  obtain ⟨before, after, hl, hl'⟩ := h.tags
  rw [hl, hl']
  simp only [List.count_append]
  omega

theorem count_tags_groupSiblings {selected : List Nat} {operator : String} {fresh : Nat}
    (h : groupSiblings? selected operator fresh old = some new) (tag : Nat) :
    (tagsEach new).count tag = (tagsEach old).count tag + [fresh].count tag := by
  obtain ⟨before, chosen, after, rfl, hperm⟩ := perm_of_groupSiblings? h
  have hold := count_tagsEach_perm hperm tag
  simp only [tagsEach_append, tagsEach, Expression.tags, List.count_append, List.count_cons,
    List.count_nil] at hold ⊢
  omega

theorem count_tags_ungroupSiblings {t : Nat} (h : ungroupSiblings? t old = some new) (tag : Nat) :
    (tagsEach new).count tag ≤ (tagsEach old).count tag := by
  obtain ⟨before, t', operator, children, after, rfl, rfl⟩ := eq_of_ungroupSiblings? h
  simp only [tagsEach_append, tagsEach, Expression.tags, List.count_append, List.count_cons]
  omega

theorem count_tags_push (list : ExpressionList Nat) (e : Expression ι) (next tag : Nat) :
    (tagsEach (push list e next)).count tag =
      (tagsEach list).count tag + (issued next (next + e.count)).count tag := by
  rw [push, tagsEach_append, List.count_append, issued_add]
  simp [tagsEach, tags_stamp]

theorem count_tags_of_makes {edit : ExpressionEdit} (h : edit.Makes next old new next')
    (tag : Nat) : next ≤ next' ∧
      (tagsEach new).count tag ≤ (tagsEach old).count tag + (issued next next').count tag := by
  have one : issued next (next + 1) = [next] := issued_add next 1
  cases h with
  | push e => exact ⟨Nat.le_add_right .., Nat.le_of_eq (count_tags_push old e next tag)⟩
  | setOperator _ operator e =>
    simp only [tagsEach, List.append_nil, one]
    exact ⟨Nat.le_add_right .., count_tags_setOperator operator next e tag⟩
  | group hnew =>
    rw [one]
    exact ⟨Nat.le_add_right .., Nat.le_of_eq (count_tags_groupSiblings hnew tag)⟩
  | ungroup hnew =>
    exact ⟨Nat.le_refl _, Nat.le_add_right_of_le (count_tags_ungroupSiblings hnew tag)⟩
  | delete t =>
    have hkept : (old.eraseP fun e => e.tag == t).Sublist old := List.eraseP_sublist
    exact ⟨Nat.le_refl _, Nat.le_add_right_of_le (count_tagsEach_sublist hkept tag)⟩
  | restamp _ e =>
    simp only [tagsEach, List.append_nil, tags_stamp, issued_add]
    exact ⟨Nat.le_add_right .., Nat.le_add_left ..⟩
  | copy _ hm => exact ⟨Nat.le_add_right .., Nat.le_of_eq (count_tags_push old _ next tag)⟩

/-- An edit of a list adds no tag but those it is given. -/
theorem count_tags_of_run? {edit : ExpressionEdit} (h : edit.run? list next = some (list', next'))
    (tag : Nat) : next ≤ next' ∧
      (tagsEach list').count tag ≤ (tagsEach list).count tag + (issued next next').count tag := by
  obtain ⟨old, new, made, hr⟩ := ExpressionEdit.makes_of_run? h
  obtain ⟨hnext, hmade⟩ := count_tags_of_makes made tag
  have hcount := hr.count_tags tag
  exact ⟨hnext, by omega⟩

end ExpressionList

/-! ### Statements -/

namespace Argument

@[simp] theorem tags_stamp (next : Nat) (a : Argument ι) :
    (a.stamp next).tags = List.range' next a.count := by
  cases a with
  | literal => rfl
  | expressions _ list => exact Expression.tagsEach_stampEach next list

theorem flatMap_tags_stampEach : (next : Nat) → (list : List (Argument ι)) →
    (stampEach next list).flatMap tags = List.range' next (countEach list)
  | _, [] => rfl
  | next, a :: rest => by
    rw [stampEach, countEach, List.flatMap_cons, tags_stamp,
      flatMap_tags_stampEach (next + a.count) rest, List.range'_append_1]

end Argument

theorem Head.tags_stamp (next : Nat) (h : Head ι) :
    (h.stamp next).tags = List.range' next h.count := by
  cases hargs : h.arguments with
  | none => simp [tags, stamp, count, hargs, Argument.countEach]
  | some arguments =>
    simp [tags, stamp, count, hargs, Argument.flatMap_tags_stampEach, List.range'_succ]

theorem Head.count_tags_put (head : Head Nat) {index : Nat} {old new : Argument Nat}
    (h : (head.arguments.getD [])[index]? = some old) (tag : Nat) :
    (head.put index new).tags.count tag + old.tags.count tag =
      head.tags.count tag + new.tags.count tag := by
  cases hargs : head.arguments with
  | none => simp [hargs] at h
  | some arguments =>
    rw [hargs, Option.getD_some] at h
    have := count_flatMap_set Argument.tags new tag h
    simp only [put, tags, hargs, Option.map_some, Option.getD_some, List.count_cons]
    omega

namespace Statement

mutual

theorem tags_stamp : (next : Nat) → (s : Statement ι) →
    (s.stamp next).tags = List.range' next s.count
  | next, simple head => head.tags_stamp next
  | next, compound head block => by
    rw [stamp, tags, count, head.tags_stamp next, tagsEach_stampEach (next + head.count) block,
      List.range'_append_1]

theorem tagsEach_stampEach : (next : Nat) → (block : Block ι) →
    tagsEach (stampEach next block) = List.range' next (countEach block)
  | _, [] => rfl
  | next, s :: rest => by
    rw [stampEach, tagsEach, countEach, tags_stamp next s,
      tagsEach_stampEach (next + s.count) rest, List.range'_append_1]

end

theorem flatMap_tagsEach_stampBodies : (next : Nat) → (bodies : List (String × Block ι)) →
    ((stampBodies next bodies).map Prod.snd).flatMap tagsEach =
      List.range' next (countBodies bodies)
  | _, [] => rfl
  | next, (_, body) :: rest => by
    rw [stampBodies, countBodies, List.map_cons, List.flatMap_cons, tagsEach_stampEach,
      flatMap_tagsEach_stampBodies (next + countEach body) rest, List.range'_append_1]

theorem tagsEach_eq_flatMap (block : Block ι) : tagsEach block = block.flatMap tags := by
  induction block with
  | nil => rfl
  | cons s rest ih => rw [tagsEach, ih, List.flatMap_cons]

variable {block : Block Nat} {s : Statement Nat} {index : Nat}

theorem count_tagsEach_perm {as bs : Block Nat} (h : as.Perm bs) (tag : Nat) :
    (tagsEach as).count tag = (tagsEach bs).count tag := by
  rw [tagsEach_eq_flatMap, tagsEach_eq_flatMap]
  exact (h.flatMap_right tags).count_eq tag

theorem count_tagsEach_eraseIdx (h : block[index]? = some s) (tag : Nat) :
    (tagsEach (block.eraseIdx index)).count tag + s.tags.count tag =
      (tagsEach block).count tag := by
  obtain ⟨hlt, rfl⟩ := List.getElem?_eq_some_iff.mp h
  have := count_tagsEach_perm (List.getElem_cons_eraseIdx_perm hlt) tag
  rw [tagsEach, List.count_append] at this
  omega

theorem count_tagsEach_insertIdx (h : index ≤ block.length) (s : Statement Nat) (tag : Nat) :
    (tagsEach (block.insertIdx index s)).count tag =
      (tagsEach block).count tag + s.tags.count tag := by
  have := count_tagsEach_perm (List.perm_insertIdx s block h) tag
  rw [tagsEach, List.count_append] at this
  omega

/-- Beyond the end of a block nothing is inserted. -/
theorem count_tagsEach_insertIdx_le (block : Block Nat) (index : Nat) (s : Statement Nat)
    (tag : Nat) : (tagsEach (block.insertIdx index s)).count tag ≤
      (tagsEach block).count tag + s.tags.count tag := by
  by_cases h : index ≤ block.length
  · exact Nat.le_of_eq (count_tagsEach_insertIdx h s tag)
  · rw [List.insertIdx_of_length_lt (by omega)]
    exact Nat.le_add_right ..

theorem count_tags_put {old new : Argument Nat} (h : s.arguments[index]? = some old) (tag : Nat) :
    (s.mapHead (.put index new)).tags.count tag + old.tags.count tag =
      s.tags.count tag + new.tags.count tag := by
  cases s with
  | simple head => exact head.count_tags_put h tag
  | compound head block =>
    have : (head.put index new).tags.count tag + old.tags.count tag =
        head.tags.count tag + new.tags.count tag := head.count_tags_put h tag
    simp only [mapHead, tags, List.count_append]
    omega

end Statement

end BlockScript
