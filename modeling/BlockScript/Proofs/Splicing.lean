import BlockScript.Proofs.Findings
import BlockScript.Proofs.Stages

/-! The order of an analysis. A block is visited in the order in which it is written, and directly
after the first call of a procedure comes its body, before the block of the calling statement; the
bodies that nothing leads to follow in the order of the header. Every statement is visited once, and
errors and warnings are listed in that order. -/

namespace BlockScript

namespace Language

variable (lang : Language) (procedures : Table String (Block Nat))

/-- The sites of a block and the order in which they are visited, bodies included, where some
procedures have been begun before and others with them in the end. -/
inductive Splices : List String → List (Site Nat) → List (Site Nat) → List String → Prop
  | nil (begun : List String) : Splices begun [] [] begun
  /-- The statement calls no procedure, or one without a body, or one that has been begun. -/
  | plain {begun after : List String} {site : Site Nat} {rest order : List (Site Nat)} :
      (lang.isProcedure site.statement.id = true → site.statement.id ∈ procedures.keys →
        site.statement.id ∈ begun) →
      Splices begun rest order after → Splices begun (site :: rest) (site :: order) after
  | body {begun between after : List String} {site : Site Nat} {body : Block Nat}
      {rest inner order : List (Site Nat)} :
      lang.isProcedure site.statement.id = true →
      procedures.get? site.statement.id = some body → site.statement.id ∉ begun →
      Splices (site.statement.id :: begun) body.sites inner between →
      Splices between rest order after →
      Splices begun (site :: rest) (site :: (inner ++ order)) after

/-- The bodies of the procedures that have not been begun, one after the other. -/
inductive Sweeps : List String → List String → List (Site Nat) → List String → Prop
  | nil (begun : List String) : Sweeps begun [] [] begun
  | skip {begun after ids : List String} {id : String} {order : List (Site Nat)} :
      (id ∈ procedures.keys → id ∈ begun) → Sweeps begun ids order after →
      Sweeps begun (id :: ids) order after
  | body {begun between after ids : List String} {id : String} {body : Block Nat}
      {inner order : List (Site Nat)} :
      procedures.get? id = some body → id ∉ begun →
      Splices lang procedures (id :: begun) body.sites inner between →
      Sweeps between ids order after → Sweeps begun (id :: ids) (inner ++ order) after

/-- The root block, then the bodies that it does not lead to. -/
def Orders (p : Program) (order : List (Site Nat)) : Prop :=
  ∃ begun after first last, lang.Splices p.procedures [] p.block.sites first begun ∧
    lang.Sweeps p.procedures begun p.procedures.keys last after ∧ order = first ++ last

variable {lang procedures} {begun after : List String}

theorem Splices.unique {sites order order' : List (Site Nat)} {after' : List String}
    (h : lang.Splices procedures begun sites order after)
    (h' : lang.Splices procedures begun sites order' after') : order = order' ∧ after = after' := by
  induction h generalizing order' after' with
  | nil =>
    cases h'
    exact ⟨rfl, rfl⟩
  | plain known _ ih =>
    cases h' with
    | plain _ hrest =>
      obtain ⟨rfl, rfl⟩ := ih hrest
      exact ⟨rfl, rfl⟩
    | body procedure found fresh =>
      exact absurd (known procedure (Table.mem_keys_of_get? found)) fresh
  | body procedure found fresh _ _ ihbody ih =>
    cases h' with
    | plain known => exact absurd (known procedure (Table.mem_keys_of_get? found)) fresh
    | body _ found' _ hbody hrest =>
      obtain rfl := Option.some.inj (found.symm.trans found')
      obtain ⟨rfl, rfl⟩ := ihbody hbody
      obtain ⟨rfl, rfl⟩ := ih hrest
      exact ⟨rfl, rfl⟩

theorem Sweeps.unique {ids after' : List String} {order order' : List (Site Nat)}
    (h : lang.Sweeps procedures begun ids order after)
    (h' : lang.Sweeps procedures begun ids order' after') : order = order' := by
  induction h generalizing order' after' with
  | nil =>
    cases h'
    rfl
  | skip known _ ih =>
    cases h' with
    | skip _ hrest => exact ih hrest
    | body found fresh => exact absurd (known (Table.mem_keys_of_get? found)) fresh
  | body found fresh hbody _ ih =>
    cases h' with
    | skip known => exact absurd (known (Table.mem_keys_of_get? found)) fresh
    | body found' _ hbody' hrest =>
      obtain rfl := Option.some.inj (found.symm.trans found')
      obtain ⟨rfl, rfl⟩ := hbody.unique hbody'
      rw [ih hrest]

theorem Orders.unique {p : Program} {order order' : List (Site Nat)} (h : lang.Orders p order)
    (h' : lang.Orders p order') : order = order' := by
  obtain ⟨begun, after, first, last, hfirst, hlast, rfl⟩ := h
  obtain ⟨begun', after', first', last', hfirst', hlast', rfl⟩ := h'
  obtain ⟨rfl, rfl⟩ := hfirst.unique hfirst'
  rw [hlast.unique hlast']

/-! ### The visits of tasks -/

/-- Whatever comes after them, the tasks lead to visits in the order `order`; then the procedures
`after` have been begun and `left` are those that have not. -/
structure Yields (lang : Language) (procedures : Table String (Block Nat)) (active : List String)
    (pending : Table String (Block Nat)) (begun : List String) (tasks : List Task)
    (order : List (Site Nat)) (left : Table String (Block Nat)) (after : List String) : Prop where
  remaining : procedures.Remaining after left
  grows : begun ⊆ after
  shrinks : Task.totalPending left ≤ Task.totalPending pending
  visits : ∀ rest, (lang.schedule pending active (tasks ++ rest)).map Visit.site =
    order ++ (lang.schedule left active rest).map Visit.site

namespace Yields

variable {active : List String} {pending left : Table String (Block Nat)} {tasks : List Task}
  {order inner : List (Site Nat)} {site : Site Nat} {id : String} {body : Block Nat}

theorem nil (remaining : procedures.Remaining begun pending) :
    lang.Yields procedures active pending begun [] [] pending begun :=
  ⟨remaining, List.Subset.refl _, Nat.le_refl _, fun _ => rfl⟩

theorem append {between : Table String (Block Nat)} {middle : List String} {more : List Task}
    {order' : List (Site Nat)}
    (h : lang.Yields procedures active pending begun tasks order between middle)
    (h' : lang.Yields procedures active between middle more order' left after) :
    lang.Yields procedures active pending begun (tasks ++ more) (order ++ order') left after where
  remaining := h'.remaining
  grows := List.Subset.trans h.grows h'.grows
  shrinks := Nat.le_trans h'.shrinks h.shrinks
  visits rest := by rw [List.append_assoc, h.visits, h'.visits, List.append_assoc]

theorem skip (remaining : procedures.Remaining begun pending) (absent : pending.get? id = none) :
    lang.Yields procedures active pending begun [.enter id] [] pending begun where
  remaining := remaining
  grows := List.Subset.refl _
  shrinks := Nat.le_refl _
  visits rest := by rw [List.singleton_append, schedule_skip rest absent, List.nil_append]

theorem enter (found : pending.get? id = some body)
    (h : lang.Yields procedures (id :: active) (pending.erase id) (id :: begun)
      (Task.ofBlock body) inner left after) :
    lang.Yields procedures active pending begun [.enter id] inner left after where
  remaining := h.remaining
  grows := List.Subset.trans (List.subset_cons_self ..) h.grows
  shrinks := by
    have := h.shrinks
    rw [Task.totalPending_erase found]
    omega
  visits rest := by
    rw [List.singleton_append, schedule_enter rest found, h.visits, schedule_leave, List.tail_cons]

/-- A statement that calls no procedure, or one that is being visited. -/
theorem plain (remaining : procedures.Remaining begun pending)
    (known : lang.isProcedure site.statement.id = true → site.statement.id ∈ active) :
    lang.Yields procedures active pending begun [.visit site] [site] pending begun where
  remaining := remaining
  grows := List.Subset.refl _
  shrinks := Nat.le_refl _
  visits rest := by
    rw [List.singleton_append]
    by_cases procedure : lang.isProcedure site.statement.id = true
    · rw [schedule_reentrant rest procedure (known procedure)]
      rfl
    · rw [schedule_plain rest (Bool.eq_false_iff.mpr procedure)]
      rfl

/-- After a call that is not reentrant comes what entering the procedure yields. -/
theorem call (procedure : lang.isProcedure site.statement.id = true)
    (fresh : site.statement.id ∉ active)
    (h : lang.Yields procedures active pending begun [.enter site.statement.id] inner left after) :
    lang.Yields procedures active pending begun [.visit site] (site :: inner) left after where
  remaining := h.remaining
  grows := h.grows
  shrinks := h.shrinks
  visits rest := by
    have hinner := h.visits rest
    rw [List.singleton_append] at hinner
    rw [List.singleton_append, schedule_call rest procedure fresh, List.map_cons, hinner]
    rfl

end Yields

/-- The recursion of an analysis: it goes down with the bodies that have not been begun, and within
a body with the sites that are left. -/
theorem exists_splices (lang : Language) {begun : List String} (active : List String)
    (pending : Table String (Block Nat)) (sites : List (Site Nat))
    (remaining : procedures.Remaining begun pending) (hactive : active ⊆ begun) :
    ∃ order left after, lang.Splices procedures begun sites order after ∧
      lang.Yields procedures active pending begun (sites.map .visit) order left after := by
  match sites with
  | [] => exact ⟨[], pending, begun, .nil begun, .nil remaining⟩
  | site :: rest =>
    by_cases calls : lang.isProcedure site.statement.id = true ∧ site.statement.id ∉ active
    · obtain ⟨procedure, inactive⟩ := calls
      cases hbody : pending.get? site.statement.id with
      | none =>
        obtain ⟨order, left, after, hrest, hyields⟩ :=
          exists_splices lang active pending rest remaining hactive
        exact ⟨_, left, after, .plain (fun _ => remaining.mem_of_get?_eq_none hbody) hrest,
          (Yields.call procedure inactive (.skip remaining hbody)).append hyields⟩
      | some body =>
        have fresh := remaining.not_mem_of_get? hbody
        have found := remaining.get?_of_get? hbody
        have hsmaller : Task.totalPending pending =
            Task.totalPending (pending.erase site.statement.id) + (2 * body.sites.length + 1) := by
          rw [Task.totalPending_erase hbody, Task.total_ofBlock]
        obtain ⟨inner, between, middle, hinner, hyields⟩ :=
          exists_splices lang (site.statement.id :: active) (pending.erase site.statement.id)
            body.sites (remaining.erase _) (List.cons_subset_cons _ hactive)
        have hleft := hyields.shrinks
        have hmiddle : active ⊆ middle := fun id hid =>
          hyields.grows (List.mem_cons_of_mem _ (hactive hid))
        obtain ⟨order, left, after, hrest, hmore⟩ :=
          exists_splices lang active between rest hyields.remaining hmiddle
        exact ⟨_, left, after, .body procedure found fresh hinner hrest,
          (Yields.call procedure inactive (.enter hbody hyields)).append hmore⟩
    · rw [not_and_not_right] at calls
      obtain ⟨order, left, after, hrest, hyields⟩ :=
        exists_splices lang active pending rest remaining hactive
      exact ⟨_, left, after, .plain (fun procedure _ => hactive (calls procedure)) hrest,
        (Yields.plain remaining calls).append hyields⟩
termination_by Task.totalPending pending + 2 * sites.length
decreasing_by
  all_goals
    rw [List.length_cons]
    omega

theorem exists_sweeps (lang : Language) (pending : Table String (Block Nat)) (ids : List String)
    (remaining : procedures.Remaining begun pending) :
    ∃ order left after, lang.Sweeps procedures begun ids order after ∧
      lang.Yields procedures [] pending begun (ids.map .enter) order left after := by
  induction ids generalizing pending begun with
  | nil => exact ⟨[], pending, begun, .nil begun, .nil remaining⟩
  | cons id rest ih =>
    cases hbody : pending.get? id with
    | none =>
      obtain ⟨order, left, after, hrest, hyields⟩ := ih pending remaining
      exact ⟨order, left, after, .skip (remaining.mem_of_get?_eq_none hbody) hrest,
        (Yields.skip remaining hbody).append hyields⟩
    | some body =>
      have fresh := remaining.not_mem_of_get? hbody
      have found := remaining.get?_of_get? hbody
      obtain ⟨inner, between, middle, hinner, hyields⟩ :=
        exists_splices lang [id] (pending.erase id) body.sites (remaining.erase id)
          (List.cons_subset_cons _ (List.nil_subset _))
      obtain ⟨order, left, after, hrest, hmore⟩ := ih between hyields.remaining
      exact ⟨_, left, after, .body found fresh hinner hrest,
        (Yields.enter hbody hyields).append hmore⟩

theorem orders_visitProgram (lang : Language) (p : Program) :
    lang.Orders p ((lang.visitProgram p).map Visit.site) := by
  obtain ⟨first, between, begun, hfirst, hyields⟩ :=
    exists_splices lang [] p.procedures p.block.sites (.init p.procedures) (List.nil_subset _)
  obtain ⟨last, left, after, hlast, hmore⟩ :=
    exists_sweeps lang between p.procedures.keys hyields.remaining
  have hvisits := (hyields.append hmore).visits []
  rw [schedule_nil, List.map_nil, List.append_nil, List.append_nil] at hvisits
  exact ⟨begun, after, first, last, hfirst, hlast, hvisits⟩

end Language

/-! ### The order of the findings -/

namespace Table

variable {κ α β : Type} [DecidableEq κ]

theorem keys_push (t : Table κ (List α)) (key : κ) (a : α) :
    (t.push key a).keys = if key ∈ t.keys then t.keys else t.keys ++ [key] := by
  split
  · rename_i known
    exact keys_insert_of_mem _ known
  · rename_i new
    rw [keys, push, entries_insert_of_not_mem _ new, List.map_append]
    rfl

theorem keys_foldl_push_of_mem {key : κ} (list : List α) {t : Table κ (List α)}
    (known : key ∈ t.keys) : (list.foldl (fun t a => t.push key a) t).keys = t.keys := by
  induction list generalizing t with
  | nil => rfl
  | cons a rest ih =>
    have hkeys : (t.push key a).keys = t.keys := by rw [keys_push, if_pos known]
    rw [List.foldl_cons, ih (by rwa [hkeys]), hkeys]

theorem keys_foldl_push {key : κ} (list : List α) {t : Table κ (List α)} (new : key ∉ t.keys) :
    (list.foldl (fun t a => t.push key a) t).keys =
      t.keys ++ if list.isEmpty then [] else [key] := by
  cases list with
  | nil => exact (List.append_nil _).symm
  | cons a rest =>
    have hkeys : (t.push key a).keys = t.keys ++ [key] := by rw [keys_push, if_neg new]
    rw [List.foldl_cons, keys_foldl_push_of_mem rest (by simp [hkeys]), hkeys]
    rfl

theorem keys_foldl_push_flatMap (key : β → κ) (found : β → List α) (items : List β)
    (distinct : (items.map key).Nodup) {t : Table κ (List α)} (new : ∀ b ∈ items, key b ∉ t.keys) :
    ((items.flatMap fun b => (found b).map (key b, ·)).foldl
        (fun t pair => t.push pair.1 pair.2) t).keys =
      t.keys ++ (items.filter fun b => !(found b).isEmpty).map key := by
  induction items generalizing t with
  | nil => exact (List.append_nil _).symm
  | cons b rest ih =>
    rw [List.map_cons, List.nodup_cons] at distinct
    rw [List.forall_mem_cons] at new
    have hfirst := keys_foldl_push (found b) new.1
    rw [List.flatMap_cons, List.foldl_append, List.foldl_map, ih distinct.2, hfirst,
      List.append_assoc]
    · cases hfound : (found b).isEmpty <;> simp [hfound]
    · intro c hc
      rw [hfirst, List.mem_append, not_or]
      refine ⟨new.2 c hc, fun hm => ?_⟩
      split at hm
      · cases hm
      · exact distinct.1 (List.mem_singleton.mp hm ▸ List.mem_map_of_mem hc)

/-- Keys stand in the order of the items that have something under them. -/
theorem keys_collect_flatMap (key : β → κ) (found : β → List α) {items : List β}
    (distinct : (items.map key).Nodup) :
    (collect (items.flatMap fun b => (found b).map (key b, ·))).keys =
      (items.filter fun b => !(found b).isEmpty).map key := by
  have h := keys_foldl_push_flatMap key found items distinct (t := ∅) fun _ _ => List.not_mem_nil
  exact h

end Table

namespace Language

variable (lang : Language) {p : Program}

/-- Whether a visit finds something of the severity. -/
def Reports (severity : Severity) (visit : Visit) : Bool :=
  (lang.checkVisit visit).any (·.severity = severity)

theorem keys_collect_findings (severity : Severity) {visits : List Visit}
    (distinct : (visits.map Visit.tag).Nodup) :
    (Table.collect ((lang.findings visits).filter (·.2.severity = severity))).keys =
      (visits.filter (lang.Reports severity)).map Visit.tag := by
  have hfilter : (lang.findings visits).filter (·.2.severity = severity) =
      visits.flatMap fun visit =>
        ((lang.checkVisit visit).filter (·.severity = severity)).map (visit.tag, ·) := by
    rw [findings, List.filter_flatMap]
    congr 1
    funext visit
    rw [List.filter_map]
    rfl
  have hreports : lang.Reports severity = fun visit =>
      !((lang.checkVisit visit).filter (·.severity = severity)).isEmpty := by
    funext visit
    rw [Bool.eq_iff_iff]
    simp [Reports]
  rw [hfilter, Table.keys_collect_flatMap Visit.tag _ distinct, hreports]

/-- The pass over a program, whatever calls what. After each step, the stack of procedures whose
bodies are being visited has none twice, none that is done, and no more than there are. After two
steps for each statement and each procedure nothing is left to do. The visits are in the one order
in which bodies are spliced in after calls, and each statement is visited once. With distinct tags,
errors and warnings are listed in the order of the visits. -/
theorem visitProgram_exact (lang : Language) (p : Program) :
    (∀ n, (Stage.after lang p n).Sound p) ∧
    (∃ done, Stage.after lang p (2 * p.nodes.length + 2 * p.procedures.size) =
      { done, expanding := [], tasks := [], visited := lang.visitProgram p }) ∧
    (∀ order, lang.Orders p order ↔ order = (lang.visitProgram p).map Visit.site) ∧
    ((lang.visitProgram p).map Visit.site).Perm (p.blocks.flatMap fun block => block.sites) ∧
    ((p.nodes.map Statement.tag).Nodup →
      (lang.analyze p).errors.keys =
        ((lang.visitProgram p).filter (lang.Reports .error)).map Visit.tag ∧
      (lang.analyze p).warnings.keys =
        ((lang.visitProgram p).filter (lang.Reports .warning)).map Visit.tag) := by
  refine ⟨Stage.sound_after lang p, Stage.after_eq lang p, fun order => ⟨?_, ?_⟩,
    lang.map_site_visitProgram p, fun distinct => ?_⟩
  · intro h
    exact h.unique (orders_visitProgram lang p)
  · rintro rfl
    exact orders_visitProgram lang p
  · have hvisits := (lang.map_tag_visitProgram p).nodup_iff.mpr distinct
    exact ⟨lang.keys_collect_findings .error hvisits, lang.keys_collect_findings .warning hvisits⟩

/-- Two procedures call each other and a third calls itself. The body of the first comes before the
block of the statement that calls it. -/
theorem visitProgram_exact_nested :
    let lang := ["ping", "pong", "solo"].foldl offerProcedure {}
    let call (id : String) (tag : Nat) : Statement Nat := .simple { id, tag }
    let p : Program :=
      { procedures := .ofList
          [("solo", [call "solo" 2]), ("ping", [call "pong" 3]), ("pong", [call "ping" 4])]
        block := [.compound { id := "ping", tag := 0 } [call "pong" 1]], next := 5 }
    (p.nodes.map Statement.tag).Nodup ∧
      (lang.visitProgram p).map Visit.tag = [0, 3, 4, 1, 2] ∧
      (lang.analyze p).errors.keys = [4, 2] := by
  intro lang call p
  have distinct : (p.nodes.map Statement.tag).Nodup := by decide
  obtain ⟨-, ⟨done, finished⟩, -, -, keys⟩ := visitProgram_exact lang p
  have hvisits : lang.visitProgram p = (Stage.after lang p 16).visited :=
    (congrArg Stage.visited finished).symm
  refine ⟨distinct, ?_, ?_⟩
  · rw [hvisits]
    subst p call lang
    decide +kernel
  · rw [(keys distinct).1, hvisits]
    subst p call lang
    decide +kernel

end Language

end BlockScript
