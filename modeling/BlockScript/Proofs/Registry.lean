import BlockScript.Language.Registry
import BlockScript.Program.Basic

/-! What a language knows after procedures and variables have come and gone. A procedure takes only
a free name and gives back only what it took. A variable takes its name whatever stood there, and
gives it back empty. -/

namespace BlockScript

namespace Table

variable {κ α : Type} [DecidableEq κ] {t : Table κ α} {key k : κ} {value : α}

theorem get?_foldl_insert (entries : List (κ × α)) (t : Table κ α) (key : κ) :
    (entries.foldl (fun t entry => t.insert entry.1 entry.2) t).get? key =
      (entries.reverse.lookup key).or (t.get? key) := by
  induction entries generalizing t with
  | nil => simp
  | cons entry rest ih =>
    have hlast : ([entry].lookup key).or (t.get? key) = (t.insert entry.1 entry.2).get? key := by
      rw [get?_insert, List.lookup_cons]
      by_cases hk : key = entry.1
      · simp [hk]
      · simp [hk, beq_false_of_ne hk]
    rw [List.foldl_cons, ih, List.reverse_cons, List.lookup_append, Option.or_assoc, hlast]

/-- Of the entries with a key, the last counts. -/
theorem get?_ofList (entries : List (κ × α)) (key : κ) :
    (ofList entries).get? key = entries.reverse.lookup key :=
  (get?_foldl_insert entries ∅ key).trans (by rw [get?_empty, Option.or_none])

theorem mem_of_get?_ofList {entries : List (κ × α)} (h : (ofList entries).get? key = some value) :
    (key, value) ∈ entries := by
  rw [get?_ofList] at h
  exact List.mem_reverse.mp (Entries.mem_of_lookup h)

theorem mem_keys_insert : k ∈ (t.insert key value).keys ↔ k = key ∨ k ∈ t.keys := by
  rw [← contains_iff, ← contains_iff, contains, contains, get?_insert]
  by_cases same : k = key <;> simp [same]

end Table

namespace Language

variable {lang : Language} {id k name : String}

theorem isProcedure_of_statement? {d : Descriptor} (h : lang.statement? id = some d) :
    lang.isProcedure id = d.isProcedure := by
  rw [isProcedure, h]

theorem isProcedure_of_unknown (h : lang.statement? id = none) : lang.isProcedure id = false := by
  rw [isProcedure, h]

theorem isProcedure_congr {lang' : Language} (h : lang.statement? id = lang'.statement? id) :
    lang.isProcedure id = lang'.isProcedure id := by
  rw [isProcedure, isProcedure, h]

theorem statement?_eq_none_iff :
    lang.statement? id = none ↔ lang.statements.contains id = false := by
  rw [statement?, Table.contains, Option.isSome_eq_false_iff, Option.isNone_iff_eq_none]

/-! ### Procedures -/

theorem statement?_define (lang : Language) (id k : String) (d : Descriptor) :
    (lang.define id d).statement? k = if k = id then some d else lang.statement? k :=
  Table.get?_insert ..

theorem statement?_unregisterProcedure (lang : Language) (id k : String) :
    (lang.unregisterProcedure id).statement? k =
      if k = id ∧ lang.isProcedure k = true then none else lang.statement? k := by
  rw [unregisterProcedure]
  by_cases hk : k = id
  · subst hk
    cases lang.isProcedure k <;> simp [statement?, Table.get?_erase]
  · cases lang.isProcedure id <;> simp [statement?, Table.get?_erase, hk]

theorem statement?_offerProcedure (lang : Language) (id k : String) :
    (lang.offerProcedure id).statement? k = (lang.statement? k).or
      (if k = id then some (procedureDescriptor k none []) else none) := by
  rw [offerProcedure, registerProcedure]
  by_cases hk : k = id
  · subst hk
    cases h : lang.statements.contains k with
    | false => simp [statement?_define, statement?_eq_none_iff.mpr h]
    | true =>
      obtain ⟨d, hd⟩ := Option.isSome_iff_exists.mp h
      have hd : lang.statement? k = some d := hd
      simp [hd]
  · cases lang.statements.contains id <;> simp [statement?_define, hk]

/-- Only procedures go. -/
theorem statement?_foldl_unregisterProcedure (ids : List String) (lang : Language) (k : String) :
    (ids.foldl unregisterProcedure lang).statement? k =
      if k ∈ ids ∧ lang.isProcedure k = true then none else lang.statement? k := by
  induction ids generalizing lang with
  | nil => simp
  | cons id rest ih =>
    rw [List.foldl_cons, ih]
    have hfirst := statement?_unregisterProcedure lang id k
    by_cases hgone : k = id ∧ lang.isProcedure k = true
    · rw [if_pos hgone] at hfirst
      obtain ⟨rfl, hp⟩ := hgone
      simp [hfirst, hp]
    · rw [if_neg hgone] at hfirst
      rw [isProcedure_congr hfirst, hfirst]
      have hsame : k ∈ id :: rest ∧ lang.isProcedure k = true ↔
          k ∈ rest ∧ lang.isProcedure k = true := by
        grind
      simp only [hsame]

/-- Only free names are taken. -/
theorem statement?_foldl_offerProcedure (ids : List String) (lang : Language) (k : String) :
    (ids.foldl offerProcedure lang).statement? k = (lang.statement? k).or
      (if k ∈ ids then some (procedureDescriptor k none []) else none) := by
  induction ids generalizing lang with
  | nil => simp
  | cons id rest ih =>
    rw [List.foldl_cons, ih, statement?_offerProcedure, Option.or_assoc]
    by_cases hk : k = id <;> simp [hk]

/-! ### Variables -/

/-- The variable of that name was registered by a user. -/
def IsUserVariable (lang : Language) (name : String) : Prop :=
  ∃ type, lang.knownVariable? name = some ⟨type, .user⟩

theorem knownVariable?_registerVariable (lang : Language) (name k : String) (type : ValueType) :
    (lang.registerVariable name type).knownVariable? k =
      if k = name then some ⟨type, .user⟩ else lang.knownVariable? k :=
  Table.get?_insert ..

theorem unregisterVariable_of_user (h : lang.IsUserVariable name) (k : String) :
    (lang.unregisterVariable name).knownVariable? k =
      if k = name then none else lang.knownVariable? k := by
  obtain ⟨type, h⟩ := h
  rw [unregisterVariable, h]
  exact Table.get?_erase ..

theorem unregisterVariable_of_not_user (h : ¬ lang.IsUserVariable name) :
    lang.unregisterVariable name = lang := by
  rw [unregisterVariable]
  split
  · rename_i type hknown
    exact absurd ⟨type, hknown⟩ h
  · rfl

open Classical in
/-- Only variables of users go. -/
theorem knownVariable?_foldl_unregisterVariable (names : List String) (lang : Language)
    (k : String) : (names.foldl unregisterVariable lang).knownVariable? k =
      if k ∈ names ∧ lang.IsUserVariable k then none else lang.knownVariable? k := by
  induction names generalizing lang with
  | nil => simp
  | cons name rest ih =>
    rw [List.foldl_cons, ih]
    by_cases huser : lang.IsUserVariable name
    · have hfirst := unregisterVariable_of_user huser k
      by_cases hk : k = name
      · subst hk
        rw [if_pos rfl] at hfirst
        simp [hfirst, huser]
      · rw [if_neg hk] at hfirst
        simp [IsUserVariable, hfirst, hk]
    · rw [unregisterVariable_of_not_user huser]
      by_cases hk : k = name
      · subst hk
        simp [huser]
      · simp [hk]

/-- A variable takes its name whatever stood there. -/
theorem knownVariable?_foldl_registerVariable (entries : List (String × Variable))
    (lang : Language) (distinct : (entries.map Prod.fst).Nodup) (k : String) :
    (entries.foldl (fun lang (name, v) => lang.registerVariable name v.type)
        lang).knownVariable? k =
      ((entries.lookup k).map fun v => ⟨v.type, .user⟩).or (lang.knownVariable? k) := by
  induction entries generalizing lang with
  | nil => simp
  | cons entry rest ih =>
    obtain ⟨name, v⟩ := entry
    rw [List.map_cons, List.nodup_cons] at distinct
    rw [List.foldl_cons, ih _ distinct.2, knownVariable?_registerVariable, List.lookup_cons]
    by_cases hk : k = name
    · subst hk
      have habsent : rest.lookup k = none := by
        rw [List.lookup_eq_none_iff]
        intro entry hm
        have hne : k ≠ entry.1 := fun e => distinct.1 (List.mem_map.mpr ⟨entry, hm, e.symm⟩)
        simpa using hne
      simp [habsent]
    · simp [hk, beq_false_of_ne hk]

/-! ### Whole programs -/

/-- The language without the procedures and variables of a program. -/
def forget (lang : Language) (p : Program) : Language :=
  p.variables.keys.foldl unregisterVariable (p.procedures.keys.foldl unregisterProcedure lang)

/-- The language with the procedures and variables of a program. -/
def learn (lang : Language) (p : Program) : Language :=
  p.variables.entries.foldl (fun lang (name, v) => lang.registerVariable name v.type)
    (p.procedures.keys.foldl offerProcedure lang)

theorem statements_unregisterVariable (lang : Language) (name : String) :
    (lang.unregisterVariable name).statements = lang.statements := by
  rw [unregisterVariable]
  split <;> rfl

theorem variables_unregisterProcedure (lang : Language) (id : String) :
    (lang.unregisterProcedure id).variables = lang.variables := by
  rw [unregisterProcedure]
  split <;> rfl

theorem variables_offerProcedure (lang : Language) (id : String) :
    (lang.offerProcedure id).variables = lang.variables := by
  rw [offerProcedure, registerProcedure]
  split
  · rename_i h
    split at h
    · cases h
    · obtain rfl := Except.ok.inj h
      rfl
  · rfl

/-- What no step of a fold changes is the same at its end. -/
theorem foldl_keeps {α β : Type} (part : Language → β) {f : Language → α → Language}
    (h : ∀ lang a, part (f lang a) = part lang) (list : List α) (lang : Language) :
    part (list.foldl f lang) = part lang := by
  induction list generalizing lang with
  | nil => rfl
  | cons a rest ih => rw [List.foldl_cons, ih, h]

theorem statement?_forget (lang : Language) (p : Program) (k : String) :
    (lang.forget p).statement? k =
      if k ∈ p.procedures.keys ∧ lang.isProcedure k = true then none else lang.statement? k := by
  rw [statement?, forget, foldl_keeps statements statements_unregisterVariable]
  exact statement?_foldl_unregisterProcedure ..

theorem statement?_learn (lang : Language) (p : Program) (k : String) :
    (lang.learn p).statement? k = (lang.statement? k).or
      (if k ∈ p.procedures.keys then some (procedureDescriptor k none []) else none) := by
  have hvariables : (lang.learn p).statements =
      (p.procedures.keys.foldl offerProcedure lang).statements := by
    rw [learn]
    exact foldl_keeps statements (by intros; rfl) _ _
  rw [statement?, hvariables]
  exact statement?_foldl_offerProcedure ..

open Classical in
theorem knownVariable?_forget (lang : Language) (p : Program) (k : String) :
    (lang.forget p).knownVariable? k =
      if k ∈ p.variables.keys ∧ lang.IsUserVariable k then none else lang.knownVariable? k := by
  have hprocedures : (p.procedures.keys.foldl unregisterProcedure lang).variables =
      lang.variables := foldl_keeps «variables» variables_unregisterProcedure _ _
  have hknown : (p.procedures.keys.foldl unregisterProcedure lang).knownVariable? k =
      lang.knownVariable? k := by
    rw [knownVariable?, hprocedures, knownVariable?]
  rw [forget, knownVariable?_foldl_unregisterVariable, IsUserVariable, hknown]
  rfl

theorem knownVariable?_learn (lang : Language) (p : Program) (k : String) :
    (lang.learn p).knownVariable? k =
      ((p.variables.get? k).map fun v => ⟨v.type, .user⟩).or (lang.knownVariable? k) := by
  have hprocedures : (p.procedures.keys.foldl offerProcedure lang).variables =
      lang.variables := foldl_keeps «variables» variables_offerProcedure _ _
  rw [learn, knownVariable?_foldl_registerVariable _ _ p.variables.nodup]
  simp only [knownVariable?, hprocedures, Table.get?]

/-! ### Languages of devices -/

/-- There are neither procedures nor variables of users. -/
structure Pristine (lang : Language) : Prop where
  procedures : ∀ id, lang.isProcedure id = false
  «variables» : ∀ name, ¬ lang.IsUserVariable name

theorem pristine_build (devices : List Device) : (build devices).Pristine where
  procedures id := by
    cases h : (build devices).statement? id with
    | none => exact isProcedure_of_unknown h
    | some d =>
      rw [isProcedure_of_statement? h]
      rcases List.mem_append.mp (Table.mem_of_get?_ofList h) with base | device
      · have hbase : ∀ entry ∈ baseStatements, entry.2.isProcedure = false := by decide
        exact hbase _ base
      · obtain ⟨_, -, hd⟩ := List.mem_flatMap.mp device
        obtain ⟨f, -, hf⟩ := List.mem_map.mp hd
        obtain ⟨-, rfl⟩ := Prod.mk.inj hf
        rfl
  «variables» name := by
    rintro ⟨type, h⟩
    obtain ⟨_, -, hd⟩ := List.mem_flatMap.mp (Table.mem_of_get?_ofList h)
    obtain ⟨a, -, ha⟩ := List.mem_map.mp hd
    cases ha

end Language

end BlockScript
