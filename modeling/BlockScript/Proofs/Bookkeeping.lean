import BlockScript.Proofs.Identity
import BlockScript.Proofs.Transfer

/-! Bookkeeping follows the statements. Every edit but a mark keeps the entries about statements
that stay and drops those about statements that leave; so in a run whose marks name statements that
are there, no entry is ever left behind. -/

namespace BlockScript

open Statement

variable {ι : Type}

namespace Program

variable {p q : Program} {gone : List Nat} {dropped : Option String}

/-- Every entry is about a statement of the program. -/
structure Grounded (p : Program) : Prop where
  skeletons : ∀ tag ∈ p.skeletons, tag ∈ p.nodes.map Statement.tag
  initialized : ∀ entry ∈ p.initialized, entry.tag ∈ p.nodes.map Statement.tag

theorem dangling_eq_nil_iff : p.dangling = [] ↔ p.Grounded := by
  have hall : p.dangling = [] ↔
      (∀ tag ∈ p.skeletons, tag ∈ p.nodes.map Statement.tag) ∧
        ∀ entry ∈ p.initialized, entry.tag ∈ p.nodes.map Statement.tag := by
    rw [dangling, List.filter_eq_nil_iff]
    simp only [List.forall_mem_append, List.forall_mem_map, Bool.not_eq_true', Bool.not_eq_false,
      List.contains_iff_mem]
  rw [hall]
  exact ⟨fun h => ⟨h.1, h.2⟩, fun h => ⟨h.skeletons, h.initialized⟩⟩

/-- The tags `gone` are those that leave the program, and exactly the entries about them go, besides
those that name the procedure `dropped`; all other entries stay, in their order. -/
structure Prunes (p q : Program) (gone : List Nat) (dropped : Option String) : Prop where
  leave : ∀ tag, tag ∈ gone ↔ tag ∈ p.nodes.map Statement.tag ∧ tag ∉ q.nodes.map Statement.tag
  skeletons : q.skeletons = p.skeletons.filter fun tag => tag ∉ gone
  initialized : q.initialized = p.initialized.filter fun entry =>
    entry.tag ∉ gone ∧ some entry.procedure ≠ dropped

theorem Prunes.grounded (h : p.Prunes q gone dropped) (hp : p.Grounded) : q.Grounded := by
  have stays : ∀ tag ∈ p.nodes.map Statement.tag, tag ∉ gone → tag ∈ q.nodes.map Statement.tag := by
    intro tag hm hkept
    by_contra hleft
    exact hkept ((h.leave tag).mpr ⟨hm, hleft⟩)
  constructor
  · intro tag hm
    rw [h.skeletons, List.mem_filter, decide_eq_true_eq] at hm
    exact stays tag (hp.skeletons tag hm.1) hm.2
  · intro entry hm
    rw [h.initialized, List.mem_filter, decide_eq_true_eq] at hm
    exact stays entry.tag (hp.initialized entry hm.1) hm.2.1

/-- Where no statement leaves, all entries stay. -/
theorem Prunes.of_subset
    (keeps : ∀ tag ∈ p.nodes.map Statement.tag, tag ∈ q.nodes.map Statement.tag)
    (skeletons : q.skeletons = p.skeletons) (initialized : q.initialized = p.initialized) :
    p.Prunes q [] none where
  leave tag := by
    constructor
    · intro hm
      cases hm
    · rintro ⟨hm, hleft⟩
      exact absurd (keeps tag hm) hleft
  skeletons := by simp [skeletons]
  initialized := by simp [initialized]

/-- With distinct tags, what leaves is apart from what stays. -/
theorem mem_gone_iff (distinct : (p.nodes.map Statement.tag).Nodup)
    (h : (p.nodes.map Statement.tag).Perm (gone ++ q.nodes.map Statement.tag)) (tag : Nat) :
    tag ∈ gone ↔ tag ∈ p.nodes.map Statement.tag ∧ tag ∉ q.nodes.map Statement.tag := by
  have happ := List.nodup_append.mp (h.nodup_iff.mp distinct)
  rw [h.mem_iff, List.mem_append]
  constructor
  · intro hm
    exact ⟨.inl hm, fun hq => happ.2.2 tag hm tag hq rfl⟩
  · rintro ⟨hm | hm, hleft⟩
    · exact hm
    · exact absurd hm hleft

theorem Replaced.prunes {old new : Block Nat} (h : Replaced old new p q)
    (keeps : ∀ tag ∈ (nodesEach old).map Statement.tag, tag ∈ (nodesEach new).map Statement.tag) :
    p.Prunes q [] none := by
  obtain ⟨before, after, hp, hq⟩ := h.heads
  refine .of_subset (fun tag hm => ?_) h.skeletons h.initialized
  rw [map_tag_nodes, hp] at hm
  rw [map_tag_nodes, hq]
  simp only [List.map_append, List.map_map, List.mem_append] at hm ⊢
  rcases hm with (hm | hm) | hm
  · exact .inl (.inl hm)
  · exact .inl (.inr (keeps tag hm))
  · exact .inr hm

/-! ### Edits -/

theorem prunes_insert {place : Address} {index : Nat} {template : Statement ι}
    (h : p.insert place index template = .ok q) : p.Prunes q [] none := by
  obtain ⟨block, r, -, hindex, hr, rfl⟩ := replaced_of_insert h
  have hprunes : p.Prunes r [] none := hr.prunes fun tag hm => by
    rw [((nodesEach_insertIdx_perm hindex _).map Statement.tag).mem_iff, List.map_append]
    exact List.mem_append_right _ hm
  exact ⟨hprunes.leave, hprunes.skeletons, hprunes.initialized⟩

theorem skeletons_forget (p : Program) (gone : List Nat) :
    (p.forget gone).skeletons = p.skeletons.filter fun tag => tag ∉ gone := by
  simp [forget]

theorem initialized_forget (p : Program) (gone : List Nat) :
    (p.forget gone).initialized = p.initialized.filter fun entry => entry.tag ∉ gone := by
  simp [forget]

theorem prunes_remove {place : Address} {index : Nat} {removed : Statement Nat}
    (distinct : (p.nodes.map Statement.tag).Nodup) (h : p.remove place index = .ok (removed, q)) :
    p.Prunes q (removed.nodes.map Statement.tag) none := by
  obtain ⟨block, r, -, hs, hr, rfl⟩ := replaced_of_remove h
  have htags := (hr.heads_perm (nodesEach_eraseIdx_perm hs)).map Head.tag
  rw [List.map_append, ← map_tag_nodes, ← map_tag_nodes, List.map_map] at htags
  refine ⟨mem_gone_iff distinct htags, ?_, ?_⟩
  · rw [skeletons_forget, hr.skeletons]
    rfl
  · rw [initialized_forget, hr.initialized]
    simp [Statement.subtree]

theorem prunes_move {place : Address} {source target : Nat}
    (h : p.move place source target = .ok q) : p.Prunes q [] none := by
  obtain ⟨block, s, -, hs, htarget, hr⟩ := replaced_of_move h
  have hlt := (List.getElem?_eq_some_iff.mp hs).1
  have hlen : target ≤ (block.eraseIdx source).length := by
    rw [List.length_eraseIdx_of_lt hlt]
    omega
  have hperm := (nodesEach_eraseIdx_perm hs).trans (nodesEach_insertIdx_perm hlen s).symm
  exact hr.prunes fun tag hm => (hperm.map Statement.tag).mem_iff.mp hm

theorem prunes_transfer {source target : Address} {sourceIndex targetIndex : Nat}
    (distinct : (p.nodes.map Statement.tag).Nodup)
    (h : p.transfer source sourceIndex target targetIndex = .ok q) : p.Prunes q [] none := by
  by_cases hsame : source = target
  · rw [transfer, if_pos hsame] at h
    exact prunes_move h
  · rcases transferable_or_refused p source sourceIndex target targetIndex with
      ⟨block, moved, destination, hok⟩ | ⟨e, hrefused⟩
    · obtain rfl := Except.ok.inj ((hok.transfer_eq hsame).symm.trans h)
      have hdone := hok.transferred distinct hsame
      refine .of_subset (fun tag hm => ?_) hdone.skeletons hdone.initialized
      rw [map_tag_nodes] at hm ⊢
      exact (hdone.heads.map Head.tag).mem_iff.mpr hm
    · cases (hrefused.eq_error hsame).1.symm.trans h

theorem prunes_putArgument {tag index : Nat} {argument : Argument Nat}
    (h : p.putArgument? tag index argument = some q) : p.Prunes q [] none := by
  obtain ⟨s, old, -, -, hr⟩ := replaced_of_putArgument? h
  refine hr.prunes fun tag hm => ?_
  cases s with
  | simple | compound => simpa [mapHead, nodesEach, Statement.nodes, Head.put] using hm

theorem prunes_addProcedure {id : String} {body : Block ι} (h : p.addProcedure id body = .ok q) :
    p.Prunes q [] none := by
  obtain ⟨rfl, hblocks⟩ := blocks_addProcedure h
  refine .of_subset (fun tag hm => ?_) rfl rfl
  rw [nodes, hblocks, List.flatMap_append, List.map_append]
  exact List.mem_append_left _ hm

theorem prunes_removeProcedure {id : String} {body : Block Nat}
    (distinct : (p.nodes.map Statement.tag).Nodup) (h : p.procedures.get? id = some body) :
    p.Prunes (p.removeProcedure id) ((nodesEach body).map Statement.tag) (some id) := by
  have hgone : body.flatMap subtree = (nodesEach body).map Statement.tag := by
    rw [nodesEach_eq_flatMap, List.map_flatMap]
    rfl
  have hnodes : p.nodes.Perm (nodesEach body ++ (p.removeProcedure id).nodes) := by
    have hvalues := (Table.values_perm_erase h).flatMap_right nodesEach
    simp only [removeProcedure, h, nodes, blocks, List.flatMap_cons]
    exact (hvalues.append_left _).trans (List.perm_append_comm_assoc ..)
  have htags := hnodes.map Statement.tag
  rw [List.map_append] at htags
  refine ⟨mem_gone_iff distinct htags, ?_, ?_⟩
  · simp only [removeProcedure, h, hgone, skeletons_forget]
  · simp only [removeProcedure, h, hgone, initialized_forget, List.filter_filter]
    refine List.filter_congr fun entry _ => ?_
    rw [Bool.and_comm, Bool.decide_and]
    simp [bne, Bool.beq_eq_decide_eq]

theorem removeProcedure_of_absent {id : String} (h : p.procedures.get? id = none) :
    p.removeProcedure id = p := by
  simp [removeProcedure, h]

end Program

/-! ### Runs -/

namespace Statement

mutual

theorem map_tag_nodes_sublist : (s : Statement ι) → (s.nodes.map tag).Sublist s.tags
  | simple head => by
    rw [nodes, tags, Head.tags]
    exact (List.nil_sublist _).cons_cons _
  | compound head block => by
    rw [nodes, tags, Head.tags, List.map_cons, List.cons_append]
    have hbelow := map_tag_nodesEach_sublist block
    exact (hbelow.trans (List.sublist_append_right ..)).cons_cons _

theorem map_tag_nodesEach_sublist : (block : Block ι) →
    ((nodesEach block).map tag).Sublist (tagsEach block)
  | [] => .slnil
  | s :: rest => by
    rw [nodesEach, tagsEach, List.map_append]
    exact (map_tag_nodes_sublist s).append (map_tag_nodesEach_sublist rest)

end

end Statement

theorem Program.Identified.nodup_nodes {p : Program} (h : p.Identified) :
    (p.nodes.map Statement.tag).Nodup := by
  refine h.nodup.sublist ?_
  rw [Program.nodes, Program.tags]
  induction p.blocks with
  | nil => exact .slnil
  | cons block rest ih =>
    rw [List.flatMap_cons, List.flatMap_cons, List.map_append]
    exact (map_tag_nodesEach_sublist block).append ih

/-- A mark names a statement of the program. -/
def Edit.Named (p : Program) : Edit → Prop
  | markInitialized tag _ | markSkeleton tag => tag ∈ p.nodes.map Statement.tag
  | _ => True

instance Edit.decidableNamed (p : Program) : (edit : Edit) → Decidable (edit.Named p)
  | markInitialized tag _ | markSkeleton tag =>
    inferInstanceAs (Decidable (tag ∈ p.nodes.map Statement.tag))
  | add .. | insert .. | remove .. | move .. | transfer .. | setArgument .. | retype ..
  | expressions .. | addVariable .. | removeVariable .. | addProcedure .. | removeProcedure .. =>
    isTrue trivial

namespace Program

variable {p q : Program} {edit : Edit}

/-- Each mark of a run names a statement that is there at that moment. -/
def Names : Program → List Edit → Prop
  | _, [] => True
  | p, edit :: rest => edit.Named p ∧ (edit.run p).Names rest

instance decidableNames : (p : Program) → (edits : List Edit) → Decidable (p.Names edits)
  | _, [] => isTrue trivial
  | p, edit :: rest =>
    have := decidableNames (edit.run p) rest
    inferInstanceAs (Decidable (edit.Named p ∧ (edit.run p).Names rest))

theorem grounded_run? (distinct : (p.nodes.map Statement.tag).Nodup) (named : edit.Named p)
    (h : edit.run? p = some q) (hp : p.Grounded) : q.Grounded := by
  cases edit with
  | add place template =>
    obtain ⟨index, hi⟩ := insert_of_add (Except.toOption_eq_some_iff.mp h)
    exact (prunes_insert hi).grounded hp
  | insert => exact (prunes_insert (Except.toOption_eq_some_iff.mp h)).grounded hp
  | remove =>
    obtain ⟨⟨s, r⟩, hr, rfl⟩ := Option.map_eq_some_iff.mp h
    exact (prunes_remove distinct (Except.toOption_eq_some_iff.mp hr)).grounded hp
  | move => exact (prunes_move (Except.toOption_eq_some_iff.mp h)).grounded hp
  | transfer => exact (prunes_transfer distinct (Except.toOption_eq_some_iff.mp h)).grounded hp
  | setArgument =>
    obtain ⟨r, hr, rfl⟩ := putArgument?_of_setArgument? h
    have hput := (prunes_putArgument hr).grounded hp
    exact ⟨hput.skeletons, hput.initialized⟩
  | retype => exact (prunes_putArgument h).grounded hp
  | expressions =>
    obtain ⟨type, list, list', next, r, -, -, hr, rfl⟩ := putArgument?_of_editExpressions? h
    have hput := (prunes_putArgument hr).grounded hp
    exact ⟨hput.skeletons, hput.initialized⟩
  | addVariable =>
    obtain rfl := addVariable_eq (Except.toOption_eq_some_iff.mp h)
    exact ⟨hp.skeletons, hp.initialized⟩
  | removeVariable =>
    obtain rfl := Option.some.inj h
    exact ⟨hp.skeletons, hp.initialized⟩
  | addProcedure => exact (prunes_addProcedure (Except.toOption_eq_some_iff.mp h)).grounded hp
  | removeProcedure id =>
    obtain rfl := Option.some.inj h
    cases hbody : p.procedures.get? id with
    | none => rwa [removeProcedure_of_absent hbody]
    | some body => exact (prunes_removeProcedure distinct hbody).grounded hp
  | markInitialized tag procedure =>
    obtain rfl := Option.some.inj h
    refine ⟨hp.skeletons, fun entry hm => ?_⟩
    rcases List.mem_append.mp hm with hold | hnew
    · exact hp.initialized entry hold
    · obtain rfl := List.mem_singleton.mp hnew
      exact named
  | markSkeleton tag =>
    obtain rfl := Option.some.inj h
    refine ⟨fun marked hm => ?_, hp.initialized⟩
    rcases List.mem_append.mp hm with hold | hnew
    · exact hp.skeletons marked hold
    · obtain rfl := List.mem_singleton.mp hnew
      exact named

theorem grounded_run (distinct : (p.nodes.map Statement.tag).Nodup) (named : edit.Named p)
    (hp : p.Grounded) : (edit.run p).Grounded := by
  rw [Edit.run]
  cases h : edit.run? p with
  | none => exact hp
  | some q => exact grounded_run? distinct named h hp

theorem grounded_after {edits : List Edit} (hid : p.Identified) (named : p.Names edits)
    (hp : p.Grounded) : (p.after edits).Grounded := by
  induction edits generalizing p with
  | nil => exact hp
  | cons edit rest ih =>
    rw [after_cons]
    have hnext : (edit.run p).Identified := (evolves_run p edit).identified hid
    exact ih hnext named.2 (grounded_run hid.nodup_nodes named.1 hp)

theorem Initial.grounded (h : p.Initial) : p.Grounded := by
  cases h with
  | new | loaded =>
    constructor
    · intro tag hm
      cases hm
    · intro entry hm
      cases hm

/-- In every run whose marks name statements that are there, no entry is ever left without its
statement, and so none is reported. With distinct tags, removing a statement prunes exactly the
entries about it and about all nested in it, and removing a procedure exactly those about the
statements of its body and those that name it; removing an absent procedure changes nothing. -/
theorem dangling_after :
    (∀ start : Program, start.Initial → ∀ edits, start.Names edits →
      (start.after edits).Grounded ∧ (start.after edits).dangling = []) ∧
    ∀ p : Program, (p.nodes.map Statement.tag).Nodup →
      (∀ place index removed q, p.remove place index = .ok (removed, q) →
        p.Prunes q (removed.nodes.map Statement.tag) none) ∧
      (∀ id body, p.procedures.get? id = some body →
        p.Prunes (p.removeProcedure id) ((nodesEach body).map Statement.tag) (some id)) ∧
      ∀ id, p.procedures.get? id = none → p.removeProcedure id = p := by
  refine ⟨fun start h edits named => ?_, fun p distinct => ⟨?_, ?_, ?_⟩⟩
  · have grounded := grounded_after h.identified named h.grounded
    exact ⟨grounded, dangling_eq_nil_iff.mpr grounded⟩
  · intro place index removed q h
    exact prunes_remove distinct h
  · intro id body h
    exact prunes_removeProcedure distinct h
  · intro id h
    exact removeProcedure_of_absent h

/-- A marked statement moves into the body of a procedure and goes with it. -/
theorem dangling_after_transfer :
    let halt : Template := .simple { id := "halt", tag := () }
    let first : List Edit := [.add .root halt, .add .root halt, .addProcedure "idle" [halt],
      .markInitialized 0 "idle", .markSkeleton 0, .markSkeleton 1,
      .transfer .root 0 (.procedure "idle") 1]
    let p := after {} first
    p.skeletons = [0, 1] ∧ p.initialized = [⟨0, "idle"⟩] ∧
      (after {} (first ++ [.removeProcedure "idle"])).dangling = [] ∧
      (p.removeProcedure "idle").skeletons = [1] ∧ (p.removeProcedure "idle").initialized = [] := by
  intro halt first p
  obtain ⟨hrun, hprune⟩ := dangling_after
  have named : Names {} (first ++ [.removeProcedure "idle"]) := by decide
  have hbody : p.procedures.get? "idle" = some
      [.simple { id := "halt", tag := 2 }, .simple { id := "halt", tag := 0 }] := rfl
  have pruned := (hprune p (by decide)).2.1 "idle" _ hbody
  exact ⟨rfl, rfl, (hrun {} (.new 0) _ named).2, pruned.skeletons, pruned.initialized⟩

end Program

end BlockScript
