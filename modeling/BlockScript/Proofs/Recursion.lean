import BlockScript.Proofs.CallGraph
import BlockScript.Proofs.Diagnostics

/-! Recursion is found. The calls that an analysis does not report go down in a rank of procedures,
in the order in which the visits of their bodies end; so every cycle of calls has a reported one. -/

namespace BlockScript

/-- Procedures that are done have rank zero, and active ones have greater ranks outwards; a
procedure that is about to be entered ranks below the one that calls it, and so does every called
one on the visits that are not reentrant. -/
structure Language.Ranked (lang : Language) (p : Program) (rank : String → Nat)
    (pending : Table String (Block Nat)) (active : List String) (tasks : List Task)
    (visits : List Visit) : Prop where
  done : ∀ id, id ∉ pending.keys → id ∉ active → rank id = 0
  ahead : ∀ id, id ∈ pending.keys ∨ id ∈ active → 0 < rank id
  outward : active.Pairwise fun inner outer => rank inner < rank outer
  entering : ∀ callee caller, tasks.head? = some (.enter callee) → active.head? = some caller →
    rank callee < rank caller
  falls : ∀ visit ∈ visits, visit.reentrant = false → ∀ caller callee,
    p.Calls lang caller visit.site.statement callee → rank callee < rank caller

namespace Language.Ranked

variable {lang : Language} {p : Program} {rank : String → Nat}
  {pending : Table String (Block Nat)} {active : List String} {site : Site Nat}
  {tasks rest : List Task} {visits : List Visit} {id : String}

/-- The rank with a procedure that is done put just below those that are not. -/
def raise (rank : String → Nat) (id : String) : String → Nat :=
  fun k => if k = id then 1 else if rank k = 0 then 0 else rank k + 1

theorem raise_self_lt (hid : rank id = 0) {b : String} (hb : 0 < rank b) :
    raise rank id id < raise rank id b := by
  have hne : b ≠ id := by
    rintro rfl
    omega
  rw [raise, raise, if_pos rfl, if_neg hne, if_neg (by omega)]
  omega

theorem raise_lt_raise (hid : rank id = 0) {a b : String} (h : rank a < rank b) :
    raise rank id a < raise rank id b := by
  by_cases ha : a = id
  · rw [ha]
    exact raise_self_lt hid (by omega)
  · have hne : b ≠ id := by
      rintro rfl
      omega
    unfold raise
    rw [if_neg ha, if_neg hne, if_neg (by omega : ¬rank b = 0)]
    split <;> omega

theorem cons (h : lang.Ranked p rank pending active tasks visits) {visit : Visit}
    (falls : visit.reentrant = false → ∀ caller callee,
      p.Calls lang caller visit.site.statement callee → rank callee < rank caller) :
    lang.Ranked p rank pending active (.visit site :: rest) (visit :: visits) where
  done := h.done
  ahead := h.ahead
  outward := h.outward
  entering _ _ he := by cases he
  falls := by
    rw [List.forall_mem_cons]
    exact ⟨falls, h.falls⟩

theorem enter (h : lang.Ranked p rank (pending.erase id) (id :: active) tasks visits)
    (hid : id ∈ pending.keys) :
    lang.Ranked p rank pending active (.enter id :: rest) visits where
  done k hk hactive := by
    refine h.done k (fun hm => hk (Table.mem_keys_erase.mp hm).1) fun hm => ?_
    rcases List.mem_cons.mp hm with rfl | outside
    · exact hk hid
    · exact hactive outside
  ahead k hk := by
    by_cases hne : k = id
    · exact h.ahead k (.inr (hne ▸ List.mem_cons_self))
    · exact h.ahead k
        (hk.imp (fun hm => Table.mem_keys_erase.mpr ⟨hm, hne⟩) (List.mem_cons_of_mem _))
  outward := (List.pairwise_cons.mp h.outward).2
  entering callee caller he hc := by
    obtain rfl := Task.enter.inj (Option.some.inj he)
    exact (List.pairwise_cons.mp h.outward).1 caller (List.mem_of_mem_head? hc)
  falls := h.falls

/-- A procedure that is entered again is done. -/
theorem enter_done (h : lang.Ranked p rank pending active rest visits) (hid : id ∉ pending.keys)
    (fresh : id ∉ active) : lang.Ranked p rank pending active (.enter id :: rest) visits where
  done := h.done
  ahead := h.ahead
  outward := h.outward
  entering callee caller he hc := by
    obtain rfl := Task.enter.inj (Option.some.inj he)
    rw [h.done id hid fresh]
    exact h.ahead caller (.inr (List.mem_of_mem_head? hc))
  falls := h.falls

/-- Before the visit of a body ends, its procedure ranks just above those that are done. -/
theorem leave (h : lang.Ranked p rank pending active rest visits) (hid : id ∉ pending.keys)
    (fresh : id ∉ active) :
    lang.Ranked p (raise rank id) pending (id :: active) (.leave :: rest) visits := by
  have hzero : rank id = 0 := h.done id hid fresh
  constructor
  · intro k hk hactive
    rw [List.mem_cons, not_or] at hactive
    rw [raise, if_neg hactive.1, if_pos (h.done k hk hactive.2)]
  · intro k hk
    by_cases hne : k = id
    · rw [raise, if_pos hne]
      exact Nat.one_pos
    · have hpos := h.ahead k (hk.imp_right fun hm => (List.mem_cons.mp hm).resolve_left hne)
      rw [raise, if_neg hne, if_neg (by omega)]
      omega
  · refine List.pairwise_cons.mpr ⟨fun outer hm => ?_, h.outward.imp (raise_lt_raise hzero)⟩
    exact raise_self_lt hzero (h.ahead outer (.inr hm))
  · intro _ _ he
    cases he
  · intro visit hv calm caller callee call
    exact raise_lt_raise hzero (h.falls visit hv calm caller callee call)

end Language.Ranked

namespace Language.Scheduled

variable {lang : Language} {p : Program} {pending : Table String (Block Nat)}
  {active : List String} {tasks : List Task}

/-- A statement to be visited that makes a call stands in the body of the innermost active
procedure. -/
theorem head?_of_calls (distinct : (p.nodes.map Statement.tag).Nodup) {site : Site Nat}
    {rest : List Task} (h : lang.Scheduled p pending active (.visit site :: rest))
    {caller callee : String} (call : p.Calls lang caller site.statement callee) :
    active.head? = some caller := by
  cases h.nested with
  | root _ hsites =>
    exact absurd call.owns (Program.not_owns_of_mem_block distinct (hsites site List.mem_cons_self))
  | visit howns _ => rw [List.head?_cons, Program.owns_unique distinct howns call.owns]

theorem exists_ranked (distinct : (p.nodes.map Statement.tag).Nodup)
    (h : lang.Scheduled p pending active tasks) :
    ∃ rank, lang.Ranked p rank pending active tasks (lang.schedule pending active tasks) := by
  -- ranks are given from the end of the analysis back to its beginning
  fun_induction schedule lang pending active tasks with
  | case1 pending active =>
    -- nothing is active without an end to come
    cases h.nested
    refine ⟨fun k => if k ∈ pending.keys then 1 else 0, ?_, ?_, .nil, by simp, by simp⟩
    · intro k hk _
      rw [if_neg hk]
    · intro k hk
      rw [if_pos (hk.resolve_right List.not_mem_nil)]
      exact Nat.one_pos
  | case2 pending active site rest id procedure again ih =>
    obtain ⟨rank, hr⟩ := ih (h.tail (by simp))
    exact ⟨rank, hr.cons (by simp)⟩
  | case3 pending active site rest id procedure fresh ih =>
    obtain ⟨rank, hr⟩ := ih (h.call procedure fun hm => fresh (List.contains_iff_mem.mpr hm))
    refine ⟨rank, hr.cons fun _ caller callee call => ?_⟩
    rw [← call.id]
    exact hr.entering id caller rfl (h.head?_of_calls distinct call)
  | case4 pending active site rest id other ih =>
    obtain ⟨rank, hr⟩ := ih (h.tail (by simp))
    refine ⟨rank, hr.cons fun _ caller callee call => absurd call.procedure ?_⟩
    rwa [← call.id]
  | case5 pending active id rest body found ih =>
    obtain ⟨rank, hr⟩ := ih (h.enter found)
    exact ⟨rank, hr.enter (Table.mem_keys_of_get? found)⟩
  | case6 pending active id rest found ih =>
    obtain ⟨rank, hr⟩ := ih (h.tail (by simp))
    have habsent : id ∉ pending.keys := Table.get?_eq_none_iff.mp found
    cases hn : h.nested with
    | root => exact ⟨rank, hr.enter_done habsent List.not_mem_nil⟩
    | enter fresh => exact ⟨rank, hr.enter_done habsent fresh⟩
  | case7 pending active rest ih =>
    obtain ⟨rank, hr⟩ := ih h.leave
    cases hn : h.nested with
    | root hleave => exact absurd List.mem_cons_self hleave
    | @leave id outer =>
      have hid := (h.begun id List.mem_cons_self).2
      exact ⟨Ranked.raise rank id, hr.leave hid (List.nodup_cons.mp h.distinct).1⟩

end Language.Scheduled

namespace Language

variable {lang : Language} {p : Program}

/-- The errors of a statement say that a call is cyclic exactly if it was reentrant. -/
theorem filter_isCyclic_errorsOf (distinct : (p.nodes.map Statement.tag).Nodup) {visit : Visit}
    (h : visit ∈ lang.visitProgram p) :
    ((lang.analyze p).errorsOf visit.tag).filter Diagnostic.isCyclic =
      if visit.reentrant then [.cyclicProcedure visit.site.statement.id] else [] := by
  rw [lang.errorsOf_analyze distinct h]
  cases hd : lang.statement? visit.site.statement.id with
  | none =>
    have hcalm : visit.reentrant = false := reentrant_of_statement?_eq_none h hd
    rw [checkVisit_of_none h hd, hcalm]
    rfl
  | some d =>
    have hplace : (lang.placementErrors d visit.site.statement.id
        (visit.site.parent.map Statement.id) (visit.site.previous.map Statement.id)).filter
          Diagnostic.isCyclic = [] :=
      List.filter_eq_nil_iff.mpr fun found hm => by
        simp [(lang.kind_of_mem_placementErrors hm).2]
    have hoperators : (visit.site.statement.expressionNodes.filterMap
        Expression.operatorError?).filter Diagnostic.isCyclic = [] :=
      List.filter_eq_nil_iff.mpr fun found hm => by
        obtain ⟨e, -, he⟩ := List.mem_filterMap.mp hm
        simp [Expression.isCyclic_of_operatorError? he]
    rw [filter_error_checkVisit hd, List.filter_append, List.filter_append, hplace, hoperators]
    split <;> rfl

theorem exists_visit_of_errorsOf {tag : Nat} (h : (lang.analyze p).errorsOf tag ≠ []) :
    ∃ visit ∈ lang.visitProgram p, visit.tag = tag := by
  have hkey : tag ∈ (lang.analyze p).errors.keys := by
    by_contra habsent
    rw [Analysis.errorsOf, Table.get?_eq_none_iff.mpr habsent] at h
    exact h rfl
  have hnode := lang.mem_keys_analyze (.inl hkey)
  rw [← (lang.map_tag_visitProgram p).mem_iff] at hnode
  exact List.mem_map.mp hnode

theorem reentrant_of_reported (distinct : (p.nodes.map Statement.tag).Nodup) {tag : Nat}
    {id : String} (h : .cyclicProcedure id ∈ (lang.analyze p).errorsOf tag) :
    ∃ visit ∈ lang.visitProgram p, visit.tag = tag ∧ visit.reentrant = true ∧
      visit.site.statement.id = id := by
  obtain ⟨visit, hvisit, rfl⟩ := exists_visit_of_errorsOf (List.ne_nil_of_mem h)
  have hm : .cyclicProcedure id ∈
      ((lang.analyze p).errorsOf visit.tag).filter Diagnostic.isCyclic :=
    List.mem_filter.mpr ⟨h, rfl⟩
  rw [filter_isCyclic_errorsOf distinct hvisit] at hm
  split at hm
  · rename_i reentrant
    have hid := Diagnostic.cyclicProcedure.inj (List.mem_singleton.mp hm)
    exact ⟨visit, hvisit, rfl, reentrant, hid.symm⟩
  · cases hm

end Language

/-- The analysis says of a statement that its call is cyclic. -/
def Analysis.ReportsCall (a : Analysis) (tag : Nat) : Prop :=
  ∃ id, .cyclicProcedure id ∈ a.errorsOf tag

namespace Language

variable (lang : Language) {p : Program}

/-- Calls that are not reported go down in rank, all of them in the same one. -/
theorem exists_rank (distinct : (p.nodes.map Statement.tag).Nodup) : ∃ rank : String → Nat,
    ∀ caller s callee, p.Calls lang caller s callee → ¬(lang.analyze p).ReportsCall s.tag →
      rank callee < rank caller := by
  obtain ⟨rank, hr⟩ := (Scheduled.init lang p).exists_ranked distinct
  refine ⟨rank, fun caller s callee call silent => ?_⟩
  have hs := Program.mem_nodes_of_owns call.owns
  rw [← (lang.map_statement_visitProgram p).mem_iff] at hs
  obtain ⟨visit, hvisit, rfl⟩ := List.mem_map.mp hs
  refine hr.falls visit hvisit (eq_false_of_ne_true fun reentrant => silent ?_) caller callee call
  have herrors := filter_isCyclic_errorsOf distinct hvisit
  rw [if_pos reentrant] at herrors
  have hm := herrors ▸ List.mem_singleton_self _
  exact ⟨_, (List.mem_filter.mp hm).1⟩

/-- Recursion is found, in a program with distinct tags. What is reported is a call on a cycle of
calls; every cycle of calls has a reported one, so that nothing is reported exactly if there is no
cycle; and nothing is reported in the root block, or twice. -/
theorem cyclicProcedure_exact (distinct : (p.nodes.map Statement.tag).Nodup) :
    (∀ tag id, .cyclicProcedure id ∈ (lang.analyze p).errorsOf tag →
      ∃ s caller path, s.tag = tag ∧ p.Calls lang caller s id ∧ p.CallPath lang id path caller) ∧
    (∀ id path, path ≠ [] → p.CallPath lang id path id →
      ∃ s ∈ path, (lang.analyze p).ReportsCall s.tag) ∧
    ((∀ tag, ¬(lang.analyze p).ReportsCall tag) ↔
      ∀ id path, p.CallPath lang id path id → path = []) ∧
    (∀ s ∈ Statement.nodesEach p.block, ¬(lang.analyze p).ReportsCall s.tag) ∧
    ∀ tag, ((lang.analyze p).errorsOf tag).countP Diagnostic.isCyclic ≤ 1 := by
  have sound : ∀ tag id, .cyclicProcedure id ∈ (lang.analyze p).errorsOf tag →
      ∃ s caller path, s.tag = tag ∧ p.Calls lang caller s id ∧ p.CallPath lang id path caller := by
    intro tag id h
    obtain ⟨visit, hvisit, htag, reentrant, rfl⟩ := reentrant_of_reported distinct h
    obtain ⟨caller, path, call, hpath⟩ := (Scheduled.init lang p).exists_cycle hvisit reentrant
    exact ⟨_, caller, path, htag, call, hpath⟩
  have complete : ∀ id path, path ≠ [] → p.CallPath lang id path id →
      ∃ s ∈ path, (lang.analyze p).ReportsCall s.tag := by
    intro id path hne hpath
    by_contra silent
    obtain ⟨rank, hrank⟩ := lang.exists_rank distinct
    -- a cycle would come back to the rank it starts from
    have hlen : rank id + path.length ≤ rank id :=
      hpath.add_length_le hrank fun s hs reported => silent ⟨s, hs, reported⟩
    have hpos := List.length_pos_iff.mpr hne
    omega
  refine ⟨sound, complete, ⟨fun silent id path hpath => ?_, fun acyclic tag reported => ?_⟩, ?_, ?_⟩
  · by_contra hne
    obtain ⟨s, -, reported⟩ := complete id path hne hpath
    exact silent s.tag reported
  · obtain ⟨id, h⟩ := reported
    obtain ⟨s, caller, path, -, call, hpath⟩ := sound tag id h
    cases acyclic caller (s :: path) (.cons call hpath)
  · rintro s hs ⟨id, h⟩
    obtain ⟨t, caller, path, htag, call, -⟩ := sound s.tag id h
    have hroot : s ∈ p.nodes := List.mem_flatMap.mpr ⟨p.block, List.mem_cons_self, hs⟩
    have hsame := List.inj_on_of_nodup_map distinct (Program.mem_nodes_of_owns call.owns) hroot htag
    exact Program.not_owns_of_mem_block distinct hs (hsame ▸ call.owns)
  · intro tag
    by_cases hnone : (lang.analyze p).errorsOf tag = []
    · rw [hnone]
      decide
    · obtain ⟨visit, hvisit, rfl⟩ := exists_visit_of_errorsOf hnone
      rw [List.countP_eq_length_filter, filter_isCyclic_errorsOf distinct hvisit]
      split <;> simp

/-- Two procedures call each other, and the root block calls one of them: a call in the procedures
is reported, the one in the root block is not. -/
theorem cyclicProcedure_exact_pair :
    let lang := (define {} "ping" (procedureDescriptor "ping" none [])).define "pong"
      (procedureDescriptor "pong" none [])
    let call (id : String) (tag : Nat) : Statement Nat := .simple { id, tag }
    let p : Program :=
      { procedures := .ofList [("ping", [call "pong" 1]), ("pong", [call "ping" 2])]
        block := [call "ping" 0], next := 3 }
    (p.nodes.map Statement.tag).Nodup ∧ ¬(lang.analyze p).ReportsCall 0 ∧
      ((lang.analyze p).ReportsCall 1 ∨ (lang.analyze p).ReportsCall 2) := by
  intro lang call p
  have distinct : (p.nodes.map Statement.tag).Nodup := by decide
  obtain ⟨-, complete, -, root, -⟩ := lang.cyclicProcedure_exact distinct
  have hpath : p.CallPath lang "ping" [call "pong" 1, call "ping" 2] "ping" :=
    .cons ⟨⟨_, rfl, List.mem_cons_self⟩, rfl, by decide, rfl⟩
      (.cons ⟨⟨_, rfl, List.mem_cons_self⟩, rfl, by decide, rfl⟩ (.nil _))
  refine ⟨distinct, root (call "ping" 0) List.mem_cons_self, ?_⟩
  obtain ⟨s, hs, reported⟩ := complete "ping" _ (List.cons_ne_nil _ _) hpath
  simp only [List.mem_cons, List.not_mem_nil, or_false] at hs
  rcases hs with rfl | rfl
  · exact .inl reported
  · exact .inr reported

end Language

end BlockScript
