import BlockScript.Proofs.Replaced

/-! Updates of one program, one after the other. An update under a tag leaves the tag where it was
first found, so the next update under it comes to the same statement, and two edits of one block are
one edit. -/

namespace BlockScript

theorem Entries.put_put {κ α : Type} [DecidableEq κ] (key : κ) (first second : α) :
    (entries : List (κ × α)) → put key second (put key first entries) = put key second entries
  | [] => by simp [put]
  | (k, v) :: rest => by
    by_cases hk : k = key
    · simp [put, hk]
    · simp [put, hk, put_put key first second rest]

theorem Table.insert_insert {κ α : Type} [DecidableEq κ] (t : Table κ α) (key : κ)
    (first second : α) : (t.insert key first).insert key second = t.insert key second :=
  Table.ext (Entries.put_put key first second t.entries)

namespace Statement

theorem mapBlock_comp {ι : Type} (f g : Block ι → Block ι) :
    mapBlock g ∘ mapBlock f = mapBlock (g ∘ f) := by
  funext s
  cases s <;> rfl

theorem tag_mapBlock {ι : Type} (f : Block ι → Block ι) (s : Statement ι) :
    (s.mapBlock f).tag = s.tag := by
  cases s <;> rfl

variable {tag : Nat} {f g : Statement Nat → Statement Nat}

/-- The statement with the tag is the first one also for the next update. -/
theorem update?_of_tag_eq {s : Statement Nat} (same : s.tag = tag) :
    s.update? tag g = some (g s) := by
  cases s with
  | simple head => exact if_pos same
  | compound head block => exact if_pos same

/-- Where an update finds its statement, so does any other under the same tag. -/
theorem exists_update? {s s' : Statement Nat} (h : s.update? tag f = some s') :
    ∃ t, s.update? tag g = some t := by
  refine Option.ne_none_iff_exists'.mp fun hnone => ?_
  rw [(update?_eq_none_iff s).mpr ((update?_eq_none_iff s).mp hnone)] at h
  cases h

theorem exists_updateEach? {block block' : Block Nat} (h : updateEach? tag f block = some block') :
    ∃ new, updateEach? tag g block = some new := by
  refine Option.ne_none_iff_exists'.mp fun hnone => ?_
  rw [(updateEach?_eq_none_iff block).mpr ((updateEach?_eq_none_iff block).mp hnone)] at h
  cases h

theorem update?_eq_none_congr {s : Statement Nat} (h : s.update? tag f = none) :
    s.update? tag g = none :=
  (update?_eq_none_iff s).mpr ((update?_eq_none_iff s).mp h)

theorem updateEach?_eq_none_congr {block : Block Nat} (h : updateEach? tag f block = none) :
    updateEach? tag g block = none :=
  (updateEach?_eq_none_iff block).mpr ((updateEach?_eq_none_iff block).mp h)

mutual

theorem update?_of_update? (keeps : ∀ s, (f s).tag = s.tag) : {s s' : Statement Nat} →
    s.update? tag f = some s' → s'.update? tag g = s.update? tag (g ∘ f)
  | simple head, s', h => by
    rw [update?] at h
    split at h
    · rename_i same
      obtain rfl := Option.some.inj h
      have hfirst : (f (simple head)).tag = tag := (keeps _).trans same
      rw [update?_of_tag_eq hfirst, update?_of_tag_eq (s := simple head) same, Function.comp_apply]
    · cases h
  | compound head block, s', h => by
    rw [update?] at h
    split at h
    · rename_i same
      obtain rfl := Option.some.inj h
      have hfirst : (f (compound head block)).tag = tag := (keeps _).trans same
      rw [update?_of_tag_eq hfirst, update?_of_tag_eq (s := compound head block) same,
        Function.comp_apply]
    · rename_i other
      obtain ⟨block', hblock, rfl⟩ := Option.map_eq_some_iff.mp h
      rw [update?, if_neg other, update?, if_neg other, updateEach?_of_updateEach? keeps hblock]

/-- Two updates under one tag, of which the first keeps the tag, are one. -/
theorem updateEach?_of_updateEach? (keeps : ∀ s, (f s).tag = s.tag) : {block block' : Block Nat} →
    updateEach? tag f block = some block' →
      updateEach? tag g block' = updateEach? tag (g ∘ f) block
  | s :: rest, block', h => by
    rw [updateEach?] at h
    split at h
    · rename_i s' hs
      obtain rfl := Option.some.inj h
      obtain ⟨t, ht⟩ := exists_update? (g := g ∘ f) hs
      have hagain : s'.update? tag g = some t := (update?_of_update? keeps hs).trans ht
      rw [updateEach?, updateEach?, hagain, ht]
    · rename_i hs
      obtain ⟨rest', hrest, rfl⟩ := Option.map_eq_some_iff.mp h
      rw [updateEach?, updateEach?, update?_eq_none_congr hs, update?_eq_none_congr hs,
        updateEach?_of_updateEach? keeps hrest]

end

end Statement

namespace Program

open Statement

variable {p q : Program} {place : Address} {block : Block Nat} {tag : Nat}

theorem updateBodies?_of_updateBodies? {f g : Statement Nat → Statement Nat}
    (keeps : ∀ s, (f s).tag = s.tag) : {bodies bodies' : List (String × Block Nat)} →
    updateBodies? tag f bodies = some bodies' →
      updateBodies? tag g bodies' = updateBodies? tag (g ∘ f) bodies
  | (name, body) :: rest, bodies', h => by
    rw [updateBodies?] at h
    split at h
    · rename_i body' hbody
      obtain rfl := Option.some.inj h
      obtain ⟨new, hnew⟩ := exists_updateEach? (g := g ∘ f) hbody
      have hagain : updateEach? tag g body' = some new :=
        (updateEach?_of_updateEach? keeps hbody).trans hnew
      rw [updateBodies?, updateBodies?, hagain, hnew]
    · rename_i hbody
      obtain ⟨rest', hrest, rfl⟩ := Option.map_eq_some_iff.mp h
      rw [updateBodies?, updateBodies?, updateEach?_eq_none_congr hbody,
        updateEach?_eq_none_congr hbody, updateBodies?_of_updateBodies? keeps hrest]

theorem exists_updateBodies? {f g : Statement Nat → Statement Nat}
    {bodies bodies' : List (String × Block Nat)} (h : updateBodies? tag f bodies = some bodies') :
    ∃ new, updateBodies? tag g bodies = some new := by
  refine Option.ne_none_iff_exists'.mp fun hnone => ?_
  rw [(updateBodies?_eq_none_iff bodies).mpr ((updateBodies?_eq_none_iff bodies).mp hnone)] at h
  cases h

theorem update?_of_block {f : Statement Nat → Statement Nat} {new : Block Nat}
    (h : updateEach? tag f p.block = some new) :
    p.update? tag f = some { p with block := new } := by
  rw [update?, h]

theorem update?_of_bodies {f : Statement Nat → Statement Nat} {new : Table String (Block Nat)}
    (root : updateEach? tag f p.block = none)
    (h : updateBodies? tag f p.procedures.entries = some new.entries) :
    p.update? tag f = some { p with procedures := new } := by
  rw [update?]
  simp only [root]
  split
  · rename_i bodies hbodies
    obtain rfl := Option.some.inj (hbodies.symm.trans h)
    rfl
  · rename_i hnone
    cases hnone.symm.trans h

/-- Two updates of one statement are one. -/
theorem update?_of_update? {f g : Statement Nat → Statement Nat} (keeps : ∀ s, (f s).tag = s.tag)
    (h : p.update? tag f = some q) :
    ∃ r, q.update? tag g = some r ∧ p.update? tag (g ∘ f) = some r := by
  cases hroot : updateEach? tag f p.block with
  | some block =>
    obtain rfl := Option.some.inj ((update?_of_block hroot).symm.trans h)
    obtain ⟨new, hnew⟩ := exists_updateEach? (g := g ∘ f) hroot
    have hagain : updateEach? tag g block = some new :=
      (updateEach?_of_updateEach? keeps hroot).trans hnew
    exact ⟨_, update?_of_block hagain, update?_of_block hnew⟩
  | none =>
    rw [update?] at h
    simp only [hroot] at h
    split at h
    · rename_i bodies hbodies
      obtain rfl := Option.some.inj h
      obtain ⟨new, hnew⟩ := exists_updateBodies? (g := g ∘ f) hbodies
      have hagain : updateBodies? tag g bodies = some new :=
        (updateBodies?_of_updateBodies? keeps hbodies).trans hnew
      have hnodup : (new.map Prod.fst).Nodup := by
        rw [map_fst_updateBodies? hnew]
        exact p.procedures.nodup
      exact ⟨{ p with procedures := ⟨new, hnodup⟩ },
        update?_of_bodies (updateEach?_eq_none_congr hroot) hagain,
        update?_of_bodies (updateEach?_eq_none_congr hroot) hnew⟩
    · cases h

/-- Two edits of one block are one edit. -/
theorem modifyBlock_modifyBlock (p : Program) (place : Address) (f g : Block Nat → Block Nat) :
    (p.modifyBlock place f).modifyBlock place g = p.modifyBlock place (g ∘ f) := by
  cases place with
  | root => rfl
  | procedure name =>
    cases hget : p.procedures.get? name with
    | none => simp [modifyBlock, hget]
    | some body => simp [modifyBlock, hget, Table.insert_insert]
  | inside tag =>
    cases h : p.update? tag (mapBlock f) with
    | none =>
      have hnone (f' : Block Nat → Block Nat) : p.update? tag (mapBlock f') = none :=
        update?_eq_none_iff.mpr (update?_eq_none_iff.mp h)
      simp [modifyBlock, hnone]
    | some q =>
      obtain ⟨r, hagain, hboth⟩ := update?_of_update? (g := mapBlock g) (tag_mapBlock f) h
      rw [mapBlock_comp] at hboth
      simp only [modifyBlock, h, hboth, hagain, Option.getD_some]

end Program

end BlockScript
