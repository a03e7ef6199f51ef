import BlockScript.Proofs.Registry
import Mathlib.Data.List.Dedup
import Mathlib.Data.List.Perm.Basic

/-! The entries of device capabilities. A language has one entry for each name of a capability. The
base statements keep theirs, as no capability is named like one of them. Two capabilities of
different devices have the same name only where one device is named like a capability of the other;
all others have entries of their own. -/

namespace BlockScript

/-! ### Tables of lists -/

namespace Table

variable {κ α : Type} [DecidableEq κ] {entries before after : List (κ × α)} {key : κ} {value : α}

theorem get?_ofList_of_last (absent : key ∉ after.map Prod.fst) :
    (ofList (before ++ (key, value) :: after)).get? key = some value := by
  rw [get?_ofList, List.lookup_eq_some_iff]
  refine ⟨after.reverse, before.reverse, by simp, fun entry hm => ?_⟩
  rw [bne_iff_ne]
  exact fun same => absent (same ▸ List.mem_map_of_mem (List.mem_reverse.mp hm))

theorem mem_keys_ofList : key ∈ (ofList entries).keys ↔ key ∈ entries.map Prod.fst := by
  rw [← Decidable.not_iff_not, ← get?_eq_none_iff, get?_ofList, List.lookup_eq_none_iff,
    List.mem_map, not_exists]
  refine forall_congr' fun entry => ?_
  rw [not_and, List.mem_reverse, bne_iff_ne, ne_comm]

theorem get?_ofList_of_unique (hm : (key, value) ∈ entries)
    (unique : ∀ other, (key, other) ∈ entries → other = value) :
    (ofList entries).get? key = some value := by
  cases h : (ofList entries).get? key with
  | none =>
    rw [get?_eq_none_iff, mem_keys_ofList] at h
    exact absurd (List.mem_map_of_mem hm) h
  | some other => rw [unique other (mem_of_get?_ofList h)]

theorem keys_ofList_perm (entries : List (κ × α)) :
    (ofList entries).keys.Perm (entries.map Prod.fst).dedup := by
  refine (List.perm_ext_iff_of_nodup (ofList entries).nodup (List.nodup_dedup _)).mpr fun key => ?_
  show key ∈ (ofList entries).keys ↔ _
  rw [mem_keys_ofList, List.mem_dedup]

/-- Entries with distinct keys stay as they are. -/
theorem entries_ofList (distinct : (entries.map Prod.fst).Nodup) :
    (ofList entries).entries = entries := by
  suffices ∀ t : Table κ α, (t.keys ++ entries.map Prod.fst).Nodup →
      (entries.foldl (fun t entry => t.insert entry.1 entry.2) t).entries = t.entries ++ entries
    from this ∅ distinct
  clear distinct
  induction entries with
  | nil => simp
  | cons entry rest ih =>
    intro t distinct
    have hfresh : entry.1 ∉ t.keys := fun hk =>
      (List.nodup_append.mp distinct).2.2 _ hk _ List.mem_cons_self rfl
    have hentries := entries_insert_of_not_mem entry.2 hfresh
    rw [List.foldl_cons, ih, hentries, List.append_assoc, List.singleton_append]
    rw [keys, hentries]
    simpa [keys] using distinct

end Table

/-! ### Names of capabilities -/

namespace Device

variable {d d' : Device} {n n' : String}

/-- The other device is named like a capability of this one. -/
def Encloses (d d' : Device) : Prop := ∃ rest, d'.name = d.qualified rest

theorem toList_qualified (d : Device) (n : String) :
    (d.qualified n).toList = d.name.toList ++ '.' :: n.toList := by
  simp [qualified, String.toList_append]

theorem qualified_inj : d.qualified n = d.qualified n' ↔ n = n' := by
  rw [← String.toList_inj, toList_qualified, toList_qualified]
  simp [String.toList_inj]

/-- A name that goes on after that of the device goes on with a dot. -/
theorem encloses_of_append {cs : List Char} (longer : d'.name.toList = d.name.toList ++ cs)
    (rest : '.' :: n.toList = cs ++ '.' :: n'.toList) : d'.name = d.name ∨ d.Encloses d' := by
  cases cs with
  | nil => exact .inl (String.toList_inj.mp (by rw [longer, List.append_nil]))
  | cons c cs =>
    obtain ⟨rfl, -⟩ := List.cons_eq_cons.mp rest
    refine .inr ⟨String.ofList cs, String.toList_inj.mp ?_⟩
    rw [longer, toList_qualified, String.toList_ofList]

/-- Capabilities of different devices have one name only where one of the devices is named like a
capability of the other. -/
theorem encloses_of_qualified_eq (same : d.qualified n = d'.qualified n') :
    d'.name = d.name ∨ d.Encloses d' ∨ d'.Encloses d := by
  rw [← String.toList_inj, toList_qualified, toList_qualified, List.append_eq_append_iff] at same
  rcases same with ⟨cs, hlonger, hrest⟩ | ⟨cs, hlonger, hrest⟩
  · exact (encloses_of_append hlonger hrest).imp_right .inl
  · exact (encloses_of_append hlonger hrest).imp Eq.symm .inr

theorem not_encloses_self : ¬ d.Encloses d := by
  rintro ⟨rest, hname⟩
  simpa [toList_qualified] using congrArg String.toList hname

theorem qualified_ne_base {entry : String × Descriptor} (hm : entry ∈ baseStatements)
    (d : Device) (n : String) : entry.1 ≠ d.qualified n := by
  have hdotless : ∀ entry ∈ baseStatements, '.' ∉ entry.1.toList := by decide
  intro same
  have hdot := hdotless entry hm
  rw [same, toList_qualified] at hdot
  simp at hdot

/-! ### Capabilities of one kind -/

section Entries

variable {α β : Type} {devices : List Device} {parts : Device → List α} {name : α → String}
  {entry : Device → α → β}

/-- The entries of capabilities in order, each under its name. -/
def entries (parts : Device → List α) (name : α → String) (entry : Device → α → β)
    (devices : List Device) : List (String × β) :=
  devices.flatMap fun d => (parts d).map fun a => (d.qualified (name a), entry d a)

/-- The names of capabilities in order. -/
def names (parts : Device → List α) (name : α → String) (devices : List Device) : List String :=
  devices.flatMap fun d => (parts d).map fun a => d.qualified (name a)

theorem map_fst_entries :
    (entries parts name entry devices).map Prod.fst = names parts name devices := by
  simp [entries, names, List.map_flatMap, Function.comp_def]

theorem mem_names {id : String} :
    id ∈ names parts name devices ↔ ∃ d ∈ devices, ∃ a ∈ parts d, d.qualified (name a) = id := by
  simp [names, List.mem_flatMap]

theorem eq_of_name (distinct : (devices.map Device.name).Nodup) {d d' : Device}
    (hd : d ∈ devices) (hd' : d' ∈ devices) (same : d'.name = d.name) : d' = d :=
  List.inj_on_of_nodup_map distinct hd' hd same

/-- No other device of the list has a capability of that name. -/
def Alone (parts : Device → List α) (name : α → String) (devices : List Device) (d : Device)
    (id : String) : Prop :=
  ∀ d' ∈ devices, ∀ a ∈ parts d', d'.qualified (name a) = id → d'.name = d.name

theorem entries_unique (distinct : (devices.map Device.name).Nodup) {d : Device} {a : α}
    (hd : d ∈ devices) (hparts : ((parts d).map name).Nodup) (ha : a ∈ parts d)
    (alone : Alone parts name devices d (d.qualified (name a))) {other : β}
    (hm : (d.qualified (name a), other) ∈ entries parts name entry devices) :
    other = entry d a := by
  obtain ⟨d', hd', hm⟩ := List.mem_flatMap.mp hm
  obtain ⟨a', ha', heq⟩ := List.mem_map.mp hm
  obtain ⟨hname, rfl⟩ := Prod.mk.inj heq
  obtain rfl := eq_of_name distinct hd hd' (alone d' hd' a' ha' hname)
  rw [List.inj_on_of_nodup_map hparts ha' ha (qualified_inj.mp hname)]

theorem mem_entries {d : Device} {a : α} (hd : d ∈ devices) (ha : a ∈ parts d) :
    (d.qualified (name a), entry d a) ∈ entries parts name entry devices :=
  List.mem_flatMap.mpr ⟨d, hd, List.mem_map.mpr ⟨a, ha, rfl⟩⟩

theorem alone_of_apart (apart : ∀ d ∈ devices, ∀ d' ∈ devices, ¬ d.Encloses d') {d : Device}
    (hd : d ∈ devices) (n : String) : Alone parts name devices d (d.qualified n) := by
  intro d' hd' a _ same
  rcases encloses_of_qualified_eq same with hname | hclash | hclash
  · exact hname.symm
  · exact absurd hclash (apart d' hd' d hd)
  · exact absurd hclash (apart d hd d' hd')

/-- Where no device is named like a capability of another, no two capabilities have one name. -/
theorem nodup_names (distinct : (devices.map Device.name).Nodup)
    (hparts : ∀ d ∈ devices, ((parts d).map name).Nodup)
    (apart : ∀ d ∈ devices, ∀ d' ∈ devices, ¬ d.Encloses d') :
    (names parts name devices).Nodup := by
  refine List.nodup_flatMap.mpr ⟨fun d hd => ?_, ?_⟩
  · have hmap : (parts d).map (fun a => d.qualified (name a)) =
        ((parts d).map name).map d.qualified := by
      rw [List.map_map]
      rfl
    rw [hmap]
    exact (hparts d hd).map fun _ _ => qualified_inj.mp
  · refine (List.pairwise_map.mp distinct).imp_of_mem fun {d d'} hd hd' hne id hid hid' => ?_
    obtain ⟨a, -, rfl⟩ := List.mem_map.mp hid
    obtain ⟨a', ha', hsame⟩ := List.mem_map.mp hid'
    exact hne (alone_of_apart apart hd (name a) d' hd' a' ha' hsame).symm

end Entries

end Device

namespace Language

open Device

variable {devices : List Device}

/-- The functions of the devices that have a name, with their devices, in order. -/
def functions (devices : List Device) : List (Device × Device.Function) :=
  (devices.filter fun d => !d.name.isEmpty).flatMap fun d => d.functions.map (d, ·)

/-- The name of a function of a device, and its entry under this name. -/
def functionEntry (f : Device × Device.Function) : String × Descriptor :=
  (f.1.qualified f.2.name, f.2.descriptor (f.1.qualified f.2.name))

theorem statements_build (devices : List Device) : (build devices).statements =
    .ofList (baseStatements ++ (functions devices).map functionEntry) := by
  simp only [build, functions, List.map_flatMap, List.map_map]
  rfl

theorem nodup_baseStatements : (baseStatements.map Prod.fst).Nodup := by decide

theorem mem_baseStatements_unique {id : String} {d d' : Descriptor} (hm : (id, d) ∈ baseStatements)
    (hm' : (id, d') ∈ baseStatements) : d' = d :=
  (Prod.mk.inj (List.inj_on_of_nodup_map nodup_baseStatements hm' hm rfl)).2

/-- The base statements keep their entries. -/
theorem statement?_build_base {id : String} {d : Descriptor} (hm : (id, d) ∈ baseStatements) :
    (build devices).statement? id = some d := by
  rw [statement?, statements_build]
  refine Table.get?_ofList_of_unique (List.mem_append_left _ hm) fun other hother => ?_
  rcases List.mem_append.mp hother with hbase | hfunction
  · exact mem_baseStatements_unique hm hbase
  · obtain ⟨f, -, heq⟩ := List.mem_map.mp hfunction
    exact absurd (Prod.mk.inj heq).1.symm (qualified_ne_base hm f.1 f.2.name)

/-- No later function has the name of this one. -/
def Final (devices : List Device) (d : Device) (f : Device.Function) : Prop :=
  ∃ before after, functions devices = before ++ (d, f) :: after ∧
    ∀ later ∈ after, later.1.qualified later.2.name ≠ d.qualified f.name

/-- The function has an entry, with its own shape, label and arguments. -/
def Offers (lang : Language) (d : Device) (f : Device.Function) : Prop :=
  lang.statement? (d.qualified f.name) = some (f.descriptor (d.qualified f.name))

/-- Of the functions with one name, the last has the entry. -/
theorem offers_of_final {d : Device} {f : Device.Function} (final : Final devices d f) :
    (build devices).Offers d f := by
  obtain ⟨before, after, hsplit, hlast⟩ := final
  rw [Offers, statement?, statements_build, hsplit, List.map_append, List.map_cons,
    ← List.append_assoc]
  refine Table.get?_ofList_of_last fun hlater => ?_
  rw [List.map_map] at hlater
  obtain ⟨later, hm, hname⟩ := List.mem_map.mp hlater
  exact hlast later hm hname

/-! ### Devices with names of their own -/

/-- The devices have distinct names, none of them empty, and so have the functions and the
attributes of each. -/
structure Distinct (devices : List Device) : Prop where
  named : ∀ d ∈ devices, d.name ≠ ""
  nodup : (devices.map Device.name).Nodup
  functions : ∀ d ∈ devices, (d.functions.map Device.Function.name).Nodup
  attributes : ∀ d ∈ devices, (d.attributes.map Device.Attribute.name).Nodup

/-- The attribute has an entry, with its own type and device. -/
def Measures (lang : Language) (d : Device) (a : Device.Attribute) : Prop :=
  lang.knownVariable? (d.qualified a.name) = some ⟨a.type, .device d.name⟩

/-- The names of the functions of devices in a language. -/
def functionIds (devices : List Device) : List String :=
  names Device.functions Device.Function.name devices

/-- The names of the attributes of devices in a language. -/
def attributeIds (devices : List Device) : List String :=
  names Device.attributes Device.Attribute.name devices

def functionEntries (devices : List Device) : List (String × Descriptor) :=
  entries Device.functions Device.Function.name (fun d f => f.descriptor (d.qualified f.name))
    devices

def attributeEntries (devices : List Device) : List (String × KnownVariable) :=
  entries Device.attributes Device.Attribute.name (fun d a => ⟨a.type, .device d.name⟩) devices

theorem filter_named (named : ∀ d ∈ devices, d.name ≠ "") :
    devices.filter (fun d => !d.name.isEmpty) = devices := by
  refine List.filter_eq_self.mpr fun d hd => ?_
  simpa [String.isEmpty_iff] using named d hd

theorem statements_build_named (named : ∀ d ∈ devices, d.name ≠ "") :
    (build devices).statements = .ofList (baseStatements ++ functionEntries devices) := by
  rw [build, filter_named named]
  rfl

theorem variables_build_named (named : ∀ d ∈ devices, d.name ≠ "") :
    (build devices).variables = .ofList (attributeEntries devices) := by
  rw [build, filter_named named]
  rfl

theorem map_fst_functionEntries (devices : List Device) :
    (baseStatements ++ functionEntries devices).map Prod.fst =
      baseStatements.map Prod.fst ++ functionIds devices := by
  rw [List.map_append, functionEntries, map_fst_entries, functionIds]

theorem disjoint_functionIds (devices : List Device) :
    List.Disjoint (baseStatements.map Prod.fst) (functionIds devices) := by
  intro id hbase hid
  obtain ⟨entry, hentry, rfl⟩ := List.mem_map.mp hbase
  obtain ⟨d, -, f, -, hname⟩ := mem_names.mp hid
  exact qualified_ne_base hentry d f.name hname.symm

theorem statementKeys_build (h : Distinct devices) : (build devices).statements.keys.Perm
    (baseStatements.map Prod.fst ++ (functionIds devices).dedup) := by
  have hperm := Table.keys_ofList_perm (baseStatements ++ functionEntries devices)
  rw [map_fst_functionEntries, (disjoint_functionIds devices).dedup_append,
    nodup_baseStatements.dedup] at hperm
  rwa [statements_build_named h.named]

theorem variableKeys_build (h : Distinct devices) :
    (build devices).variables.keys.Perm (attributeIds devices).dedup := by
  have hperm := Table.keys_ofList_perm (attributeEntries devices)
  rw [attributeEntries, map_fst_entries] at hperm
  rwa [variables_build_named h.named]

theorem offers_of_alone (h : Distinct devices) {d : Device} (hd : d ∈ devices)
    {f : Device.Function} (hf : f ∈ d.functions)
    (alone : Alone Device.functions Device.Function.name devices d (d.qualified f.name)) :
    (build devices).Offers d f := by
  rw [Offers, statement?, statements_build_named h.named]
  refine Table.get?_ofList_of_unique (List.mem_append_right _ (mem_entries hd hf)) ?_
  intro other hm
  rcases List.mem_append.mp hm with hbase | hm
  · exact absurd rfl (qualified_ne_base hbase d f.name)
  · exact entries_unique h.nodup hd (h.functions d hd) hf alone hm

theorem measures_of_alone (h : Distinct devices) {d : Device} (hd : d ∈ devices)
    {a : Device.Attribute} (ha : a ∈ d.attributes)
    (alone : Alone Device.attributes Device.Attribute.name devices d (d.qualified a.name)) :
    (build devices).Measures d a := by
  rw [Measures, knownVariable?, variables_build_named h.named]
  exact Table.get?_ofList_of_unique (mem_entries hd ha) fun other hm =>
    entries_unique h.nodup hd (h.attributes d hd) ha alone hm

/-- Every variable is an attribute. -/
theorem attribute_of_knownVariable? (h : Distinct devices) {name : String} {v : KnownVariable}
    (known : (build devices).knownVariable? name = some v) :
    ∃ d ∈ devices, ∃ a ∈ d.attributes,
      d.qualified a.name = name ∧ v = ⟨a.type, .device d.name⟩ := by
  rw [knownVariable?, variables_build_named h.named] at known
  obtain ⟨d, hd, hm⟩ := List.mem_flatMap.mp (Table.mem_of_get?_ofList known)
  obtain ⟨a, ha, heq⟩ := List.mem_map.mp hm
  exact ⟨d, hd, a, ha, (Prod.mk.inj heq).1, (Prod.mk.inj heq).2.symm⟩

/-- Each capability of the devices has an entry of its own, and nothing else but the base statements
has one. -/
structure Separates (lang : Language) (devices : List Device) : Prop where
  statements : lang.statements.keys = baseStatements.map Prod.fst ++ functionIds devices
  «variables» : lang.variables.keys = attributeIds devices
  offers : ∀ d ∈ devices, ∀ f ∈ d.functions, lang.Offers d f
  measures : ∀ d ∈ devices, ∀ a ∈ d.attributes, lang.Measures d a

theorem separates_build (h : Distinct devices)
    (apart : ∀ d ∈ devices, ∀ d' ∈ devices, ¬ d.Encloses d') :
    (build devices).Separates devices where
  statements := by
    have hkeys := map_fst_functionEntries devices
    have hdistinct : (baseStatements.map Prod.fst ++ functionIds devices).Nodup :=
      nodup_baseStatements.append (nodup_names h.nodup h.functions apart)
        (disjoint_functionIds devices)
    rw [statements_build_named h.named, Table.keys,
      Table.entries_ofList (by rwa [hkeys]), hkeys]
  «variables» := by
    have hkeys : (attributeEntries devices).map Prod.fst = attributeIds devices := map_fst_entries
    have hdistinct : (attributeIds devices).Nodup := nodup_names h.nodup h.attributes apart
    rw [variables_build_named h.named, Table.keys, Table.entries_ofList (by rwa [hkeys]), hkeys]
  offers d hd f hf := offers_of_alone h hd hf (alone_of_apart apart hd _)
  measures d hd a ha := measures_of_alone h hd ha (alone_of_apart apart hd _)

/-- Each name of a capability has one entry, and a capability that alone has its name is found
there. Devices share a name only where one is named like a capability of the other; without such
devices each capability has an entry of its own. Of functions that share a name, the last counts. -/
theorem capabilities_exact (h : Distinct devices) :
    (build devices).statements.keys.Perm
      (baseStatements.map Prod.fst ++ (functionIds devices).dedup) ∧
    (build devices).variables.keys.Perm (attributeIds devices).dedup ∧
    (∀ entry ∈ baseStatements, (build devices).statement? entry.1 = some entry.2) ∧
    (∀ d ∈ devices, ∀ f ∈ d.functions,
      Alone Device.functions Device.Function.name devices d (d.qualified f.name) →
        (build devices).Offers d f) ∧
    (∀ d ∈ devices, ∀ a ∈ d.attributes,
      Alone Device.attributes Device.Attribute.name devices d (d.qualified a.name) →
        (build devices).Measures d a) ∧
    (∀ d ∈ devices, ∀ d' ∈ devices, ∀ n n', d.qualified n = d'.qualified n' →
      d' = d ∧ n' = n ∨ d.Encloses d' ∨ d'.Encloses d) ∧
    ((∀ d ∈ devices, ∀ d' ∈ devices, ¬ d.Encloses d') → (build devices).Separates devices) ∧
    (∀ d f, Final devices d f → (build devices).Offers d f) ∧
    (∀ name v, (build devices).knownVariable? name = some v →
      ∃ d ∈ devices, ∃ a ∈ d.attributes,
        d.qualified a.name = name ∧ v = ⟨a.type, .device d.name⟩) := by
  refine ⟨statementKeys_build h, variableKeys_build h, fun entry => statement?_build_base,
    fun d hd f hf => offers_of_alone h hd hf, fun d hd a ha => measures_of_alone h hd ha,
    fun d hd d' hd' n n' same => ?_, separates_build h,
    fun d f => offers_of_final, fun name v => attribute_of_knownVariable? h⟩
  rcases encloses_of_qualified_eq same with hname | hclash
  · obtain rfl := eq_of_name h.nodup hd hd' hname
    exact .inl ⟨rfl, (qualified_inj.mp same).symm⟩
  · exact .inr hclash

/-- A device named like a capability of the next, and one with names of its own. -/
def house : List Device :=
  [{ name := "hall.lamp"
     attributes := [⟨"on", .boolean⟩]
     functions := [{ name := "dim", label := some "Dim the lamp" }] },
    { name := "hall"
      attributes := [⟨"lamp.on", .number⟩]
      functions := [{ name := "lamp.dim", label := some "Dim the hall" }] },
    { name := "door"
      attributes := [⟨"open", .boolean⟩]
      functions := [{ name := "lock" }] }]

theorem distinct_house : Distinct house where
  named := by decide
  nodup := by decide
  functions := by decide
  attributes := by decide

theorem capabilities_exact_house :
    (build house).Offers house[2] house[2].functions[0] ∧
    (build house).Measures house[2] house[2].attributes[0] ∧
    (build house).Offers house[1] house[1].functions[0] ∧
    (build [house[2]]).Separates [house[2]] := by
  obtain ⟨-, -, -, hfunction, hattribute, -, -, hlast, -⟩ := capabilities_exact distinct_house
  have hdoor : Distinct [house[2]] := ⟨by decide, by decide, by decide, by decide⟩
  obtain ⟨-, -, -, -, -, -, hseparate, -⟩ := capabilities_exact hdoor
  refine ⟨hfunction _ (by simp) _ (by simp) ?_, hattribute _ (by simp) _ (by simp) ?_, ?_, ?_⟩
  · unfold Alone
    decide +kernel
  · unfold Alone
    decide +kernel
  · exact hlast _ _ ⟨[(house[0], house[0].functions[0])], [(house[2], house[2].functions[0])], rfl,
      by decide⟩
  · refine hseparate fun d hd d' hd' henclosed => not_encloses_self (d := house[2]) ?_
    rwa [List.mem_singleton.mp hd, List.mem_singleton.mp hd'] at henclosed

/-- Devices with names of their own, and a function and an attribute that have no entries. -/
theorem capability_lost : Distinct house ∧
    (build house).statements.size < baseStatements.length + (functionIds house).length ∧
    (build house).variables.size < (attributeIds house).length ∧
    ¬ (build house).Offers house[0] house[0].functions[0] ∧
    ¬ (build house).Measures house[0] house[0].attributes[0] := by
  have hlabel : ((build house).statement? "hall.lamp.dim").map Descriptor.label =
      some "Dim the hall" := by decide +kernel
  have htype : ((build house).knownVariable? "hall.lamp.on").map KnownVariable.type =
      some .number := by decide +kernel
  refine ⟨distinct_house, by decide +kernel, by decide +kernel, fun hoffers => ?_,
    fun hmeasures => ?_⟩
  · have hname : house[0].qualified house[0].functions[0].name = "hall.lamp.dim" := by decide
    rw [Offers, hname] at hoffers
    rw [hoffers] at hlabel
    exact absurd hlabel (by decide)
  · have hname : house[0].qualified house[0].attributes[0].name = "hall.lamp.on" := by decide
    rw [Measures, hname] at hmeasures
    rw [hmeasures] at htype
    exact absurd htype (by decide)

end Language

end BlockScript
