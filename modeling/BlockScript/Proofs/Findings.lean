import BlockScript.Proofs.Visits

/-! What an analysis says of a single statement. With distinct tags, the findings under the tag of a
statement are those of the one visit of it, in their order. -/

namespace BlockScript

namespace Table

variable {κ α : Type} [DecidableEq κ]

theorem get?_push (t : Table κ (List α)) (key k : κ) (a : α) :
    (t.push key a).get? k = if k = key then some ((t.get? key).getD [] ++ [a]) else t.get? k :=
  get?_insert ..

theorem getD_get?_foldl_push (key : κ) (pairs : List (κ × α)) (t : Table κ (List α)) :
    ((pairs.foldl (fun t pair => t.push pair.1 pair.2) t).get? key).getD [] =
      (t.get? key).getD [] ++ (pairs.filter (·.1 = key)).map Prod.snd := by
  induction pairs generalizing t with
  | nil => simp
  | cons pair rest ih =>
    obtain ⟨k, a⟩ := pair
    rw [List.foldl_cons, ih, get?_push]
    by_cases hk : key = k
    · subst hk
      simp
    · simp [hk, Ne.symm hk]

/-- Under each key stands what was listed with it. -/
theorem getD_get?_collect (key : κ) (pairs : List (κ × α)) :
    ((collect pairs).get? key).getD [] = (pairs.filter (·.1 = key)).map Prod.snd :=
  getD_get?_foldl_push key pairs ∅

theorem get?_foldl_push_eq_none_iff (key : κ) (pairs : List (κ × α)) (t : Table κ (List α)) :
    (pairs.foldl (fun t pair => t.push pair.1 pair.2) t).get? key = none ↔
      t.get? key = none ∧ key ∉ pairs.map Prod.fst := by
  induction pairs generalizing t with
  | nil => simp
  | cons pair rest ih =>
    obtain ⟨k, a⟩ := pair
    rw [List.foldl_cons, ih, get?_push]
    by_cases hk : key = k <;> simp [hk]

theorem mem_keys_collect {key : κ} {pairs : List (κ × α)} :
    key ∈ (collect pairs).keys ↔ key ∈ pairs.map Prod.fst := by
  have h : (collect pairs).get? key = none ↔ _ := get?_foldl_push_eq_none_iff key pairs ∅
  rw [get?_eq_none_iff] at h
  simpa using not_congr h

end Table

namespace Analysis

variable (found : List (Nat × Diagnostic)) (dangling : List Dangling) (tag : Nat)

theorem errorsOf_ofFindings : (ofFindings found dangling).errorsOf tag =
    ((found.filter (·.1 = tag)).map Prod.snd).filter (·.severity = .error) := by
  rw [errorsOf, ofFindings, Table.getD_get?_collect, List.filter_map, List.filter_filter,
    List.filter_filter]
  simp [Bool.and_comm]

theorem warningsOf_ofFindings : (ofFindings found dangling).warningsOf tag =
    ((found.filter (·.1 = tag)).map Prod.snd).filter (·.severity = .warning) := by
  rw [warningsOf, ofFindings, Table.getD_get?_collect, List.filter_map, List.filter_filter,
    List.filter_filter]
  simp [Bool.and_comm]

end Analysis

/-- The tag of the statement that is visited. -/
def Visit.tag (visit : Visit) : Nat := visit.site.statement.tag

namespace Language

variable (lang : Language) {visits : List Visit} {visit : Visit} {p : Program}

theorem mem_map_fst_findings {tag : Nat} (h : tag ∈ (lang.findings visits).map Prod.fst) :
    tag ∈ visits.map Visit.tag := by
  obtain ⟨finding, hm, rfl⟩ := List.mem_map.mp h
  obtain ⟨visit, hv, hf⟩ := List.mem_flatMap.mp hm
  obtain ⟨diagnostic, -, rfl⟩ := List.mem_map.mp hf
  exact List.mem_map_of_mem hv

/-- What is found under a tag is found on the visits of statements with the tag. -/
theorem filter_findings (visits : List Visit) (tag : Nat) :
    ((lang.findings visits).filter (·.1 = tag)).map Prod.snd =
      (visits.filter (·.tag = tag)).flatMap lang.checkVisit := by
  induction visits with
  | nil => rfl
  | cons visit rest ih =>
    have hsplit : lang.findings (visit :: rest) =
        (lang.checkVisit visit).map (visit.tag, ·) ++ lang.findings rest := List.flatMap_cons
    rw [hsplit, List.filter_append, List.map_append, ih, List.filter_map]
    by_cases same : visit.tag = tag <;> simp [same, Function.comp_def]

theorem filter_findings_of_mem (distinct : (visits.map Visit.tag).Nodup) (h : visit ∈ visits) :
    ((lang.findings visits).filter (·.1 = visit.tag)).map Prod.snd = lang.checkVisit visit := by
  have hone : visits.filter (·.tag = visit.tag) = [visit] := by
    obtain ⟨before, after, rfl⟩ := List.append_of_mem h
    rw [List.map_append, List.map_cons, List.nodup_append, List.nodup_cons] at distinct
    obtain ⟨-, ⟨hafter, -⟩, hbefore⟩ := distinct
    have hnone : ∀ list : List Visit, visit.tag ∉ list.map Visit.tag →
        list.filter (·.tag = visit.tag) = [] := fun list habsent =>
      List.filter_eq_nil_iff.mpr fun other hm same =>
        habsent (List.mem_map.mpr ⟨other, hm, of_decide_eq_true same⟩)
    have hfront : visit.tag ∉ before.map Visit.tag := fun hm =>
      hbefore _ hm _ List.mem_cons_self rfl
    simp [List.filter_append, hnone before hfront, hnone after hafter]
  rw [filter_findings, hone, List.flatMap_singleton]

theorem map_tag_visitProgram (p : Program) :
    ((lang.visitProgram p).map Visit.tag).Perm (p.nodes.map Statement.tag) := by
  have h := (lang.map_statement_visitProgram p).map Statement.tag
  rwa [List.map_map] at h

/-- Every error and every warning is under the tag of a statement of the program. -/
theorem mem_keys_analyze {tag : Nat}
    (h : tag ∈ (lang.analyze p).errors.keys ∨ tag ∈ (lang.analyze p).warnings.keys) :
    tag ∈ p.nodes.map Statement.tag := by
  rw [← (lang.map_tag_visitProgram p).mem_iff]
  apply lang.mem_map_fst_findings
  rcases h with h | h
  · exact (List.filter_sublist.map _).subset (Table.mem_keys_collect.mp h)
  · exact (List.filter_sublist.map _).subset (Table.mem_keys_collect.mp h)

/-- With distinct tags, the errors of a statement are those found on the visit of it. -/
theorem errorsOf_analyze (distinct : (p.nodes.map Statement.tag).Nodup)
    (h : visit ∈ lang.visitProgram p) : (lang.analyze p).errorsOf visit.tag =
      (lang.checkVisit visit).filter (·.severity = .error) := by
  have hvisits := (lang.map_tag_visitProgram p).nodup_iff.mpr distinct
  rw [analyze, Analysis.errorsOf_ofFindings, lang.filter_findings_of_mem hvisits h]

theorem warningsOf_analyze (distinct : (p.nodes.map Statement.tag).Nodup)
    (h : visit ∈ lang.visitProgram p) : (lang.analyze p).warningsOf visit.tag =
      (lang.checkVisit visit).filter (·.severity = .warning) := by
  have hvisits := (lang.map_tag_visitProgram p).nodup_iff.mpr distinct
  rw [analyze, Analysis.warningsOf_ofFindings, lang.filter_findings_of_mem hvisits h]

end Language

end BlockScript
