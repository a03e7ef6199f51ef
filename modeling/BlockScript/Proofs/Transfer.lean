import BlockScript.Proofs.Edits
import BlockScript.Proofs.Layout

/-! Transfers between two blocks. A transfer goes through exactly under its five conditions and is
otherwise refused with the first of them that fails; it takes the whole statement from one place to
the other and touches no other list of children. The statement is taken out before the target is
looked up again, and with distinct tags the target is always found then. -/

namespace BlockScript

open Statement

theorem Address.within_iff {place : Address} {s : Statement Nat} :
    place.within s = true ↔ ∃ inner ∈ s.nodes, place = .inside inner.tag := by
  cases place with
  | root | procedure => simp [within]
  | inside tag => simp [within, subtree, eq_comm]

namespace Program

section Conditions

variable (p : Program) (source : Address) (sourceIndex : Nat) (target : Address) (targetIndex : Nat)

/-- The conditions of a transfer, in the order in which they are checked. -/
structure Transferable (block : Block Nat) (moved : Statement Nat) (destination : Block Nat) :
    Prop where
  found : p.block? source = some block
  taken : block[sourceIndex]? = some moved
  outside : ∀ inner ∈ moved.nodes, target ≠ .inside inner.tag
  reached : p.block? target = some destination
  fits : targetIndex ≤ destination.length

/-- The first condition of a transfer that fails, with the error that reports it. -/
inductive TransferRefused : EditError → Prop
  | noSource : p.block? source = none → TransferRefused (.blockNotFound source)
  | noStatement {block : Block Nat} : p.block? source = some block → block.length ≤ sourceIndex →
      TransferRefused (.indexOutOfRange sourceIndex block.length)
  | inside {block : Block Nat} {moved inner : Statement Nat} : p.block? source = some block →
      block[sourceIndex]? = some moved → inner ∈ moved.nodes → target = .inside inner.tag →
      TransferRefused (.cyclicMove moved.tag)
  | noTarget {block : Block Nat} {moved : Statement Nat} : p.block? source = some block →
      block[sourceIndex]? = some moved → (∀ inner ∈ moved.nodes, target ≠ .inside inner.tag) →
      p.block? target = none → TransferRefused (.blockNotFound target)
  | noPlace {block : Block Nat} {moved : Statement Nat} {destination : Block Nat} :
      p.block? source = some block → block[sourceIndex]? = some moved →
      (∀ inner ∈ moved.nodes, target ≠ .inside inner.tag) → p.block? target = some destination →
      destination.length < targetIndex →
      TransferRefused (.indexOutOfRange targetIndex destination.length)

/-- The transfer as steps on one program: the answer, and the program as the steps leave it. The
target is looked up again once the statement has been taken out. -/
def transferInPlace : Except EditError Unit × Program :=
  match p.block? source with
  | none => (.error (.blockNotFound source), p)
  | some block =>
    match block[sourceIndex]? with
    | none => (.error (.indexOutOfRange sourceIndex block.length), p)
    | some moved =>
      if target.within moved then (.error (.cyclicMove moved.tag), p)
      else match p.block? target with
        | none => (.error (.blockNotFound target), p)
        | some destination =>
          if targetIndex ≤ destination.length then
            let cut := p.modifyBlock source (·.eraseIdx sourceIndex)
            match cut.block? target with
            | none => (.error (.blockNotFound target), cut)
            | some _ => (.ok (), cut.modifyBlock target (·.insertIdx targetIndex moved))
          else (.error (.indexOutOfRange targetIndex destination.length), p)

end Conditions

variable {p : Program} {source target : Address} {sourceIndex targetIndex : Nat}
  {block destination : Block Nat} {moved : Statement Nat} {e : EditError}

/-! ### When a transfer goes through -/

theorem transferable_or_refused (p : Program) (source : Address) (sourceIndex : Nat)
    (target : Address) (targetIndex : Nat) :
    (∃ block moved destination,
      p.Transferable source sourceIndex target targetIndex block moved destination) ∨
    ∃ e, p.TransferRefused source sourceIndex target targetIndex e := by
  cases hblock : p.block? source with
  | none => exact .inr ⟨_, .noSource hblock⟩
  | some block =>
    cases hmoved : block[sourceIndex]? with
    | none => exact .inr ⟨_, .noStatement hblock (List.getElem?_eq_none_iff.mp hmoved)⟩
    | some moved =>
      by_cases hwithin : ∃ inner ∈ moved.nodes, target = .inside inner.tag
      · obtain ⟨inner, hinner, hplace⟩ := hwithin
        exact .inr ⟨_, .inside hblock hmoved hinner hplace⟩
      · have houtside : ∀ inner ∈ moved.nodes, target ≠ .inside inner.tag :=
          fun inner hinner hplace => hwithin ⟨inner, hinner, hplace⟩
        cases htarget : p.block? target with
        | none => exact .inr ⟨_, .noTarget hblock hmoved houtside htarget⟩
        | some destination =>
          by_cases hindex : targetIndex ≤ destination.length
          · exact .inl ⟨block, moved, destination, hblock, hmoved, houtside, htarget, hindex⟩
          · exact .inr ⟨_, .noPlace hblock hmoved houtside htarget (by omega)⟩

theorem not_within (outside : ∀ inner ∈ moved.nodes, target ≠ .inside inner.tag) :
    ¬target.within moved = true := by
  rw [Address.within_iff]
  rintro ⟨inner, hinner, hplace⟩
  exact outside inner hinner hplace

theorem Transferable.transfer_eq (hne : source ≠ target)
    (h : p.Transferable source sourceIndex target targetIndex block moved destination) :
    p.transfer source sourceIndex target targetIndex =
      .ok ((p.modifyBlock source (·.eraseIdx sourceIndex)).modifyBlock target
        (·.insertIdx targetIndex moved)) := by
  rw [transfer, if_neg hne]
  simp only [h.found, h.taken, if_neg (not_within h.outside), h.reached, if_pos h.fits]

/-- A refusal is the same done at once and step by step. -/
theorem TransferRefused.eq_error (hne : source ≠ target)
    (h : p.TransferRefused source sourceIndex target targetIndex e) :
    p.transfer source sourceIndex target targetIndex = .error e ∧
      p.transferInPlace source sourceIndex target targetIndex = (.error e, p) := by
  rw [transfer, if_neg hne, transferInPlace]
  cases h with
  | noSource hblock => simp only [hblock, and_self]
  | noStatement hblock hlen => simp only [hblock, List.getElem?_eq_none hlen, and_self]
  | inside hblock hmoved hinner hplace =>
    have hwithin := Address.within_iff.mpr ⟨_, hinner, hplace⟩
    simp only [hblock, hmoved, if_pos hwithin, and_self]
  | noTarget hblock hmoved outside htarget =>
    simp only [hblock, hmoved, if_neg (not_within outside), htarget, and_self]
  | noPlace hblock hmoved outside htarget hlen =>
    have hindex := Nat.not_le.mpr hlen
    simp only [hblock, hmoved, if_neg (not_within outside), htarget, if_neg hindex, and_self]

/-! ### Taking out and putting in -/

section Steps

variable {place other : Address} {index : Nat} {s : Statement Nat} {children : Block Nat}

theorem heads_eraseIdx_perm (h : p.block? place = some block) (hs : block[index]? = some s) :
    (p.nodes.map Statement.head).Perm (s.nodes.map Statement.head ++
      (p.modifyBlock place (·.eraseIdx index)).nodes.map Statement.head) :=
  (replaced_of_modifyBlock h (·.eraseIdx index)).heads_perm (nodesEach_eraseIdx_perm hs)

theorem heads_insertIdx_perm (h : p.block? place = some block) (hindex : index ≤ block.length)
    (s : Statement Nat) : ((p.modifyBlock place (·.insertIdx index s)).nodes.map
      Statement.head).Perm (s.nodes.map Statement.head ++ p.nodes.map Statement.head) :=
  (replaced_of_modifyBlock h (·.insertIdx index s)).symm.heads_perm
    (nodesEach_insertIdx_perm hindex s)

/-- Taking a statement out takes the entries of the blocks inside it out of the layout. -/
theorem mem_layout_eraseIdx (h : p.block? place = some block) (hs : block[index]? = some s)
    (hne : other ≠ place) : (other, children) ∈ p.layout ↔
      (other, children) ∈ Block.layout [s] ∨
        (other, children) ∈ (p.modifyBlock place (·.eraseIdx index)).layout := by
  have hperm : (nodesEach (block.eraseIdx index) ++ s.nodes).Perm (nodesEach block ++ []) := by
    rw [List.append_nil]
    exact List.perm_append_comm.trans (nodesEach_eraseIdx_perm hs).symm
  have hm : (other, children) ∈ (p.modifyBlock place (·.eraseIdx index)).layout ∨ _ ↔ _ :=
    mem_layout_modifyBlock h hperm hne
  simpa [Block.layout, nodesEach, or_comm] using hm.symm

theorem mem_layout_insertIdx (h : p.block? place = some block) (hindex : index ≤ block.length)
    (hne : other ≠ place) :
    (other, children) ∈ (p.modifyBlock place (·.insertIdx index s)).layout ↔
      (other, children) ∈ Block.layout [s] ∨ (other, children) ∈ p.layout := by
  have hperm : (nodesEach (block.insertIdx index s) ++ []).Perm (nodesEach block ++ s.nodes) := by
    rw [List.append_nil]
    exact (nodesEach_insertIdx_perm hindex s).trans List.perm_append_comm
  have hm : (other, children) ∈ (p.modifyBlock place (·.insertIdx index s)).layout ∨ _ ↔ _ :=
    mem_layout_modifyBlock h hperm hne
  simpa [Block.layout, nodesEach, or_comm] using hm

end Steps

/-! ### What a transfer leaves -/

/-- The second program is the first one with the statement `moved` taken from one block to another.
Only these two blocks have other children than before; blocks inside the moved statement count among
the others. -/
structure Transferred (p q : Program) (source : Address) (sourceIndex : Nat) (target : Address)
    (targetIndex : Nat) (block : Block Nat) (moved : Statement Nat) (destination : Block Nat) :
    Prop where
  arrived : ∃ filled, q.block? target = some filled ∧ filled[targetIndex]? = some moved
  filled : q.children? target = some (destination.children.insertIdx targetIndex moved.bare)
  emptied : q.children? source = some (block.children.eraseIdx sourceIndex)
  elsewhere : ∀ other, other ≠ source → other ≠ target → q.children? other = p.children? other
  heads : (q.nodes.map Statement.head).Perm (p.nodes.map Statement.head)
  keys : q.procedures.keys = p.procedures.keys
  «variables» : q.variables = p.variables
  skeletons : q.skeletons = p.skeletons
  initialized : q.initialized = p.initialized
  next : q.next = p.next

theorem nodup_of_heads_perm {p q : Program} (gone : List (Head Nat))
    (distinct : (p.nodes.map Statement.tag).Nodup)
    (h : (p.nodes.map Statement.head).Perm (gone ++ q.nodes.map Statement.head)) :
    (q.nodes.map Statement.tag).Nodup := by
  have htags := h.map Head.tag
  rw [List.map_append, ← map_tag_nodes, ← map_tag_nodes] at htags
  exact (List.nodup_append.mp (htags.nodup_iff.mp distinct)).2.1

/-- With distinct tags, taking a statement out leaves every block that is outside it, and the target
of a transfer is one. -/
theorem Transferable.block?_target (distinct : (p.nodes.map Statement.tag).Nodup)
    (hne : source ≠ target)
    (h : p.Transferable source sourceIndex target targetIndex block moved destination) :
    ∃ kept, (p.modifyBlock source (·.eraseIdx sourceIndex)).block? target = some kept ∧
      kept.children = destination.children := by
  have hcut := nodup_of_heads_perm _ distinct (heads_eraseIdx_perm h.found h.taken)
  have hm : (target, destination.children) ∈ p.layout := by
    rw [mem_layout_iff distinct, children?, h.reached]
    rfl
  rcases (mem_layout_eraseIdx h.found h.taken hne.symm).mp hm with inside | outside
  · obtain ⟨inner, hinner, -, -, hplace, -⟩ := Block.mem_layout.mp inside
    exact absurd hplace (h.outside inner (by simpa [nodesEach] using hinner))
  · exact Option.map_eq_some_iff.mp ((mem_layout_iff hcut).mp outside)

theorem Transferable.transferred (distinct : (p.nodes.map Statement.tag).Nodup)
    (hne : source ≠ target)
    (h : p.Transferable source sourceIndex target targetIndex block moved destination) :
    Transferred p ((p.modifyBlock source (·.eraseIdx sourceIndex)).modifyBlock target
      (·.insertIdx targetIndex moved)) source sourceIndex target targetIndex block moved
      destination := by
  obtain ⟨kept, hkept, hchildren⟩ := h.block?_target distinct hne
  have hindex : targetIndex ≤ kept.length := by
    have hlen : kept.length = destination.length := by
      simpa [Block.children] using congrArg List.length hchildren
    have := h.fits
    omega
  have hcut := heads_eraseIdx_perm h.found h.taken
  have hput := heads_insertIdx_perm hkept hindex moved
  have hout := replaced_of_modifyBlock h.found (·.eraseIdx sourceIndex)
  have hin := replaced_of_modifyBlock hkept (·.insertIdx targetIndex moved)
  have rdistinct := nodup_of_heads_perm _ distinct hcut
  have hheads := hput.trans hcut.symm
  have qdistinct := nodup_of_heads_perm [] distinct hheads.symm
  have hfilled := block?_modifyBlock qdistinct hkept
  constructor
  case arrived =>
    refine ⟨_, hfilled, ?_⟩
    rw [List.getElem?_insertIdx_self, if_pos hindex]
  case filled =>
    rw [children?, hfilled, Option.map_some, Block.children_insertIdx, hchildren]
  case emptied =>
    rw [← mem_layout_iff qdistinct, mem_layout_insertIdx hkept hindex hne]
    apply Or.inr
    rw [mem_layout_iff rdistinct, children?, block?_modifyBlock rdistinct h.found, Option.map_some,
      Block.children_eraseIdx]
  case elsewhere =>
    intro other hsource htarget
    apply Option.eq_of_eq_some
    intro children
    rw [← mem_layout_iff qdistinct, ← mem_layout_iff distinct,
      mem_layout_insertIdx hkept hindex htarget, mem_layout_eraseIdx h.found h.taken hsource]
  case heads => exact hheads
  case keys => exact hin.keys.trans hout.keys
  case «variables» => exact hin.variables.trans hout.variables
  case skeletons => exact hin.skeletons.trans hout.skeletons
  case initialized => exact hin.initialized.trans hout.initialized
  case next => exact hin.next.trans hout.next

theorem Transferable.transferInPlace_eq (distinct : (p.nodes.map Statement.tag).Nodup)
    (hne : source ≠ target)
    (h : p.Transferable source sourceIndex target targetIndex block moved destination) :
    p.transferInPlace source sourceIndex target targetIndex =
      (.ok (), (p.modifyBlock source (·.eraseIdx sourceIndex)).modifyBlock target
        (·.insertIdx targetIndex moved)) := by
  obtain ⟨kept, hkept, -⟩ := h.block?_target distinct hne
  unfold transferInPlace
  simp only [h.found, h.taken, if_neg (not_within h.outside), h.reached, if_pos h.fits, hkept]

/-- Transfers between two blocks of a program with distinct tags. A transfer is refused with the
first of its conditions that fails, and goes through if none does; then it loses and duplicates
nothing. Done step by step it comes to the same: a refusal leaves the program as it was. -/
theorem transfer_exact (distinct : (p.nodes.map Statement.tag).Nodup) (hne : source ≠ target)
    (sourceIndex targetIndex : Nat) :
    (∀ e, p.transfer source sourceIndex target targetIndex = .error e ↔
      p.TransferRefused source sourceIndex target targetIndex e) ∧
    ((∃ q, p.transfer source sourceIndex target targetIndex = .ok q) ↔
      ∃ block moved destination,
        p.Transferable source sourceIndex target targetIndex block moved destination) ∧
    (∀ q block moved destination, p.transfer source sourceIndex target targetIndex = .ok q →
      p.Transferable source sourceIndex target targetIndex block moved destination →
      Transferred p q source sourceIndex target targetIndex block moved destination) ∧
    p.transferInPlace source sourceIndex target targetIndex =
      match p.transfer source sourceIndex target targetIndex with
      | .ok q => (.ok (), q)
      | .error e => (.error e, p) := by
  rcases transferable_or_refused p source sourceIndex target targetIndex with
    ⟨block, moved, destination, h⟩ | ⟨e, h⟩
  · have hok := h.transfer_eq hne
    refine ⟨fun e => ?_, ?_, ?_, ?_⟩
    · constructor
      · intro herror
        cases hok.symm.trans herror
      · intro hrefused
        cases hok.symm.trans (hrefused.eq_error hne).1
    · exact ⟨fun _ => ⟨block, moved, destination, h⟩, fun _ => ⟨_, hok⟩⟩
    · intro q block' moved' destination' hq h'
      obtain rfl := Except.ok.inj ((h'.transfer_eq hne).symm.trans hq)
      exact h'.transferred distinct hne
    · rw [hok, h.transferInPlace_eq distinct hne]
  · obtain ⟨herror, hsteps⟩ := h.eq_error hne
    refine ⟨fun e' => ?_, ?_, ?_, ?_⟩
    · constructor
      · intro herror'
        obtain rfl := Except.error.inj (herror.symm.trans herror')
        exact h
      · intro hrefused
        exact (hrefused.eq_error hne).1
    · constructor
      · rintro ⟨q, hq⟩
        cases herror.symm.trans hq
      · rintro ⟨block, moved, destination, h'⟩
        exact ⟨_, h'.transfer_eq hne⟩
    · intro q block moved destination hq
      cases herror.symm.trans hq
    · rw [herror, hsteps]

/-- A statement is put into the block of its sibling; the sibling cannot be put into its own
block. -/
theorem transfer_exact_sibling :
    let halt : Statement Nat := .simple { id := "halt", tag := 2 }
    let wait : Statement Nat := .simple { id := "wait", tag := 1 }
    let loop : Block Nat → Statement Nat := .compound { id := "while", tag := 0 }
    let p : Program := { block := [loop [wait], halt], next := 3 }
    (p.nodes.map Statement.tag).Nodup ∧ Address.root ≠ .inside 0 ∧
      (∃ q, p.transfer .root 1 (.inside 0) 0 = .ok q ∧ q.children? .root = some [loop []] ∧
        q.children? (.inside 0) = some [halt, wait]) ∧
      p.transfer .root 0 (.inside 0) 0 = .error (.cyclicMove 0) := by
  intro halt wait loop p
  have distinct : (p.nodes.map Statement.tag).Nodup := by decide
  have hne : Address.root ≠ .inside 0 := by decide
  refine ⟨distinct, hne, ?_, ?_⟩
  · obtain ⟨-, hok, hdone, -⟩ := transfer_exact distinct hne 1 0
    have h : p.Transferable .root 1 (.inside 0) 0 p.block halt [wait] :=
      ⟨rfl, rfl, by simp [halt, Statement.nodes], rfl, by decide⟩
    obtain ⟨q, hq⟩ := hok.mpr ⟨_, _, _, h⟩
    have done := hdone q _ _ _ hq h
    exact ⟨q, hq, done.emptied, done.filled⟩
  · obtain ⟨hrefused, -⟩ := transfer_exact distinct hne 0 0
    have h : p.TransferRefused .root 0 (.inside 0) 0 (.cyclicMove (loop [wait]).tag) :=
      .inside rfl rfl List.mem_cons_self rfl
    exact (hrefused _).mpr h

end Program

end BlockScript
