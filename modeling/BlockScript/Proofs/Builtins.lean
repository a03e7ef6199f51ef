import BlockScript.Proofs.Capabilities
import BlockScript.Proofs.Sessions
import Mathlib.Data.List.Induction

/-! Registrations and the statements that a language is built with. Whatever is registered and
unregistered, in whatever order, the base statements and the functions of the devices keep their
entries, and beside them there are the procedures that were registered under a free name and not
unregistered since. -/

namespace BlockScript

/-- A change of the procedures and variables of users. -/
inductive Registration where
  | registerProcedure (id label : String) (icon : Option String) (colors : List String)
  | unregisterProcedure (id : String)
  | registerVariable (name : String) (type : ValueType)
  | unregisterVariable (name : String)
deriving DecidableEq

/-- The language after a change. A refused one leaves it as it is. -/
def Registration.run (lang : Language) : Registration → Language
  | registerProcedure id label icon colors =>
    match lang.registerProcedure id label icon colors with
    | .ok lang => lang
    | .error _ => lang
  | unregisterProcedure id => lang.unregisterProcedure id
  | registerVariable name type => lang.registerVariable name type
  | unregisterVariable name => lang.unregisterVariable name

namespace Language

variable {lang base : Language} {steps : List Registration} {step : Registration}
  {id k : String} {d : Descriptor}

/-- The language after changes. -/
def after (lang : Language) (steps : List Registration) : Language :=
  steps.foldl Registration.run lang

theorem after_concat (lang : Language) (steps : List Registration) (step : Registration) :
    lang.after (steps ++ [step]) = step.run (lang.after steps) := by
  simp [after]

/-! ### Names that are taken, and names that are free -/

theorem registerProcedure_of_free (free : id ∉ lang.statements.keys) (label : String)
    (icon : Option String) (colors : List String) :
    lang.registerProcedure id label icon colors =
      .ok (lang.define id (procedureDescriptor label icon colors)) := by
  rw [← Table.contains_iff] at free
  rw [registerProcedure, if_neg free]

theorem registerProcedure_of_taken (taken : id ∈ lang.statements.keys) (label : String)
    (icon : Option String) (colors : List String) :
    lang.registerProcedure id label icon colors = .error ⟨id⟩ := by
  rw [registerProcedure, if_pos (Table.contains_iff.mpr taken)]

theorem registerProcedure_eq_error_iff {label : String} {icon : Option String}
    {colors : List String} {e : NameTaken} :
    lang.registerProcedure id label icon colors = .error e ↔
      id ∈ lang.statements.keys ∧ e = ⟨id⟩ := by
  by_cases taken : id ∈ lang.statements.keys
  · rw [registerProcedure_of_taken taken, Except.error.injEq, eq_comm]
    exact (and_iff_right taken).symm
  · simp [registerProcedure_of_free taken, taken]

theorem run_registerProcedure_of_taken (taken : id ∈ lang.statements.keys) (label : String)
    (icon : Option String) (colors : List String) :
    (Registration.registerProcedure id label icon colors).run lang = lang := by
  rw [Registration.run, registerProcedure_of_taken taken]

theorem run_registerProcedure_of_free (free : id ∉ lang.statements.keys) (label : String)
    (icon : Option String) (colors : List String) :
    (Registration.registerProcedure id label icon colors).run lang =
      lang.define id (procedureDescriptor label icon colors) := by
  rw [Registration.run, registerProcedure_of_free free]

/-- Where a language has no variable of the name, one comes and goes without a trace. -/
theorem unregisterVariable_registerVariable {name : String} (free : name ∉ lang.variables.keys)
    (type : ValueType) : (lang.registerVariable name type).unregisterVariable name = lang := by
  have hknown : (lang.registerVariable name type).knownVariable? name = some ⟨type, .user⟩ := by
    rw [knownVariable?_registerVariable, if_pos rfl]
  rw [unregisterVariable, hknown]
  simp only [registerVariable, Table.erase_insert _ free]

/-! ### Procedures that stand -/

/-- The procedure was registered when its name was free, and it was not unregistered since. -/
def Standing (base : Language) (steps : List Registration) (id : String) (d : Descriptor) : Prop :=
  ∃ before label icon colors after,
    steps = before ++ .registerProcedure id label icon colors :: after ∧
      id ∉ (base.after before).statements.keys ∧ .unregisterProcedure id ∉ after ∧
        d = procedureDescriptor label icon colors

theorem Standing.isProcedure (h : Standing base steps id d) : d.isProcedure = true := by
  obtain ⟨_, _, _, _, _, -, -, -, rfl⟩ := h
  rfl

/-- One more change: what stood before stands unless it goes, and a new procedure stands if its name
is free. -/
theorem standing_concat : Standing base (steps ++ [step]) id d ↔
    Standing base steps id d ∧ step ≠ .unregisterProcedure id ∨
      ∃ label icon colors, step = .registerProcedure id label icon colors ∧
        id ∉ (base.after steps).statements.keys ∧ d = procedureDescriptor label icon colors := by
  constructor
  · rintro ⟨before, label, icon, colors, after, hsplit, hfree, hkept, rfl⟩
    rcases List.eq_nil_or_concat after with rfl | ⟨after, last, rfl⟩
    · obtain ⟨rfl, hstep⟩ := List.append_inj' hsplit rfl
      exact .inr ⟨label, icon, colors, List.cons.inj hstep |>.1, hfree, rfl⟩
    · rw [List.concat_eq_append] at hsplit hkept
      rw [← List.cons_append, ← List.append_assoc] at hsplit
      obtain ⟨rfl, hstep⟩ := List.append_inj' hsplit rfl
      obtain rfl := (List.cons.inj hstep).1
      rw [List.mem_append, not_or, List.mem_singleton] at hkept
      exact .inl ⟨⟨before, label, icon, colors, after, rfl, hfree, hkept.1, rfl⟩,
        Ne.symm hkept.2⟩
  · rintro (⟨⟨before, label, icon, colors, after, rfl, hfree, hkept, rfl⟩, hstep⟩ |
      ⟨label, icon, colors, rfl, hfree, rfl⟩)
    · refine ⟨before, label, icon, colors, after ++ [step], by simp, hfree, ?_, rfl⟩
      rw [List.mem_append, not_or, List.mem_singleton]
      exact ⟨hkept, Ne.symm hstep⟩
    · exact ⟨steps, label, icon, colors, [], rfl, hfree, List.not_mem_nil, rfl⟩

theorem statement?_run_registerProcedure (lang : Language) (id label : String)
    (icon : Option String) (colors : List String) :
    ((Registration.registerProcedure id label icon colors).run lang).statement? k = some d ↔
      lang.statement? k = some d ∨
        k = id ∧ k ∉ lang.statements.keys ∧ d = procedureDescriptor label icon colors := by
  by_cases taken : id ∈ lang.statements.keys
  · rw [run_registerProcedure_of_taken taken]
    refine ⟨.inl, fun h => h.resolve_right ?_⟩
    rintro ⟨rfl, hfree, -⟩
    exact hfree taken
  · rw [run_registerProcedure_of_free taken, statement?_define]
    by_cases hk : k = id
    · subst hk
      have hnone : lang.statement? k = none := Table.get?_eq_none_iff.mpr taken
      simp [hnone, taken, eq_comm]
    · simp [hk]

/-- Only procedures go. -/
theorem statement?_run_unregisterProcedure (lang : Language) (id : String) :
    ((Registration.unregisterProcedure id).run lang).statement? k = some d ↔
      lang.statement? k = some d ∧ ¬ (k = id ∧ d.isProcedure = true) := by
  rw [Registration.run, statement?_unregisterProcedure]
  cases h : lang.statement? k with
  | none => simp
  | some d' =>
    rw [isProcedure_of_statement? h]
    by_cases hgone : k = id ∧ d'.isProcedure = true
    · rw [if_pos hgone]
      refine iff_of_false (by simp) fun hkept => hkept.2 ?_
      rwa [← Option.some.inj hkept.1]
    · rw [if_neg hgone]
      refine ⟨fun same => ⟨same, ?_⟩, And.left⟩
      rwa [← Option.some.inj same]

/-- The statements of a language after changes are those that it began with and the procedures that
stand. -/
theorem statement?_after (pristine : base.Pristine) (steps : List Registration) (id : String)
    (d : Descriptor) : (base.after steps).statement? id = some d ↔
      base.statement? id = some d ∨ Standing base steps id d := by
  have hbase : base.statement? id = some d → d.isProcedure = false := fun h =>
    (isProcedure_of_statement? h).symm.trans (pristine.procedures id)
  -- Induction on the last change, as a procedure is taken only if its name was free before it.
  induction steps using List.reverseRecOn with
  | nil => simp [after, Standing]
  | append_singleton steps step ih =>
    rw [after_concat, standing_concat]
    cases step with
    | registerProcedure id' label icon colors =>
      rw [statement?_run_registerProcedure]
      refine (or_congr_left ih).trans ?_
      grind
    | unregisterProcedure id' =>
      rw [statement?_run_unregisterProcedure]
      refine (and_congr_left' ih).trans ?_
      -- What stands is a procedure and goes; what the language began with is none and stays.
      have hstanding : Standing base steps id d → d.isProcedure = true := Standing.isProcedure
      grind
    | registerVariable name type =>
      have hsame :
          ((Registration.registerVariable name type).run (base.after steps)).statement? id =
            (base.after steps).statement? id := rfl
      simp [hsame, ih]
    | unregisterVariable name =>
      have hsame : ((Registration.unregisterVariable name).run (base.after steps)).statement? id =
          (base.after steps).statement? id := by
        rw [Registration.run, statement?, statements_unregisterVariable, statement?]
      simp [hsame, ih]

/-- The procedures of a language after changes are those that stand. -/
theorem standing_iff (pristine : base.Pristine) (steps : List Registration) (id : String)
    (d : Descriptor) : Standing base steps id d ↔
      (base.after steps).statement? id = some d ∧ d.isProcedure = true := by
  rw [statement?_after pristine]
  refine ⟨fun standing => ⟨.inr standing, standing.isProcedure⟩, fun ⟨known, hprocedure⟩ =>
    known.resolve_left fun hbase => ?_⟩
  rw [← isProcedure_of_statement? hbase, pristine.procedures id] at hprocedure
  exact Bool.false_ne_true hprocedure

/-- Each name of a function is that of a last function. -/
theorem exists_final {devices : List Device} {d : Device} (hd : d ∈ devices) (named : d.name ≠ "")
    {f : Device.Function} (hf : f ∈ d.functions) :
    ∃ d' f', Final devices d' f' ∧ d'.qualified f'.name = d.qualified f.name := by
  have hm : (d, f) ∈ (functions devices).reverse := by
    refine List.mem_reverse.mpr (List.mem_flatMap.mpr ⟨d, List.mem_filter.mpr ⟨hd, ?_⟩,
      List.mem_map.mpr ⟨f, hf, rfl⟩⟩)
    simpa [String.isEmpty_iff] using named
  have hsome : ((functions devices).reverse.find? fun g =>
      g.1.qualified g.2.name == d.qualified f.name).isSome :=
    List.find?_isSome.mpr ⟨(d, f), hm, beq_self_eq_true _⟩
  obtain ⟨⟨d', f'⟩, hfind⟩ := Option.isSome_iff_exists.mp hsome
  obtain ⟨hname, later, earlier, hsplit, hlater⟩ := List.find?_eq_some_iff_append.mp hfind
  have hname : d'.qualified f'.name = d.qualified f.name := eq_of_beq hname
  refine ⟨d', f', ⟨earlier.reverse, later.reverse, ?_, fun g hg => ?_⟩, hname⟩
  · simpa using congrArg List.reverse hsplit
  · rw [hname]
    simpa using hlater g (List.mem_reverse.mp hg)

/-! ### What a language was built with -/

/-- After any changes the base statements and the last function of each name are as they were built.
A procedure is refused exactly under a name that is taken, and then nothing changes; the procedures
are those that stand. Under a free name a procedure or a variable comes and goes without trace. -/
theorem builtins_kept (devices : List Device) (steps : List Registration) :
    (∀ entry ∈ baseStatements, ((build devices).after steps).statement? entry.1 = some entry.2) ∧
    (∀ d ∈ devices, d.name ≠ "" → ∀ f ∈ d.functions,
      ∃ d' f', Final devices d' f' ∧ d'.qualified f'.name = d.qualified f.name ∧
        ((build devices).after steps).Offers d' f') ∧
    (∀ id label icon colors e,
      ((build devices).after steps).registerProcedure id label icon colors = .error e ↔
        id ∈ ((build devices).after steps).statements.keys ∧ e = ⟨id⟩) ∧
    (∀ id label icon colors, id ∈ ((build devices).after steps).statements.keys →
      (build devices).after (steps ++ [.registerProcedure id label icon colors]) =
        (build devices).after steps) ∧
    (∀ id d, ((build devices).after steps).statement? id = some d ∧ d.isProcedure = true ↔
      Standing (build devices) steps id d) ∧
    (∀ id label icon colors, id ∉ ((build devices).after steps).statements.keys →
      (build devices).after
          (steps ++ [.registerProcedure id label icon colors, .unregisterProcedure id]) =
        (build devices).after steps) ∧
    ∀ name type, name ∉ ((build devices).after steps).variables.keys →
      (build devices).after (steps ++ [.registerVariable name type, .unregisterVariable name]) =
        (build devices).after steps := by
  have pristine := pristine_build devices
  have hkept {id : String} {d : Descriptor} (h : (build devices).statement? id = some d) :
      ((build devices).after steps).statement? id = some d :=
    (statement?_after pristine steps id d).mpr (.inl h)
  refine ⟨fun entry hm => hkept (statement?_build_base hm), fun d hd named f hf => ?_,
    fun id label icon colors e => registerProcedure_eq_error_iff,
    fun id label icon colors taken => ?_, fun id d => (standing_iff pristine steps id d).symm,
    fun id label icon colors free => ?_, fun name type free => ?_⟩
  · obtain ⟨d', f', hfinal, hname⟩ := exists_final hd named hf
    exact ⟨d', f', hfinal, hname, hkept (offers_of_final hfinal)⟩
  · rw [after_concat, run_registerProcedure_of_taken taken]
  · rw [List.append_cons, after_concat, after_concat, run_registerProcedure_of_free free]
    exact unregisterProcedure_define free label icon colors
  · rw [List.append_cons, after_concat, after_concat]
    exact unregisterVariable_registerVariable free type

/-- A procedure that comes, goes and comes back, and others named like statements that stay. -/
def visits : List Registration :=
  [.registerProcedure "blink" "Blink" none [], .registerProcedure "if" "Never" none [],
    .unregisterProcedure "if", .unregisterProcedure "hall.lamp.dim", .unregisterProcedure "blink",
    .registerVariable "hall.lamp.on" .string,
    .registerProcedure "blink" "Blink again" (some "bulb") []]

theorem builtins_kept_visits :
    (∀ entry ∈ baseStatements, ((build house).after visits).statement? entry.1 = some entry.2) ∧
    ((build house).after visits).statement? "if" = some
      { shape := .compoundWithArguments, group := .logic, label := "If"
        arguments := [{ type := .booleanExpression }] } ∧
    ((build house).after visits).registerProcedure "hall.lamp.dim" "Dim" none [] =
      .error ⟨"hall.lamp.dim"⟩ ∧
    ((build house).after visits).statement? "blink" =
      some (procedureDescriptor "Blink again" (some "bulb") []) := by
  obtain ⟨hbase, -, hrefused, -, hprocedures, -⟩ := builtins_kept house visits
  refine ⟨hbase, hbase ("if", _) List.mem_cons_self,
    (hrefused _ _ _ _ _).mpr ⟨by decide +kernel, rfl⟩, ((hprocedures _ _).mpr ?_).1⟩
  exact ⟨visits.take 6, "Blink again", some "bulb", [], [], rfl, by decide +kernel,
    List.not_mem_nil, rfl⟩

end Language

end BlockScript
