/-! Finite maps that remember the order in which their keys were first inserted: inserting under a
present key replaces the value in place, and erasing closes the gap. -/

namespace BlockScript

/-- The list with the value under `key` replaced in place, or with a new last entry. -/
def Entries.put {κ α : Type} [DecidableEq κ] (key : κ) (value : α) : List (κ × α) → List (κ × α)
  | [] => [(key, value)]
  | (k, v) :: rest => if k = key then (k, value) :: rest else (k, v) :: Entries.put key value rest

namespace Entries

variable {κ α : Type} [DecidableEq κ]

theorem map_fst_put_of_mem {key : κ} {value : α} :
    {entries : List (κ × α)} → key ∈ entries.map Prod.fst →
      (put key value entries).map Prod.fst = entries.map Prod.fst
  | [], h => by simp at h
  | (k, v) :: rest, h => by
    by_cases hk : k = key
    · simp [put, hk]
    · have : key ∈ rest.map Prod.fst := by
        simp only [List.map_cons, List.mem_cons] at h
        exact h.resolve_left fun e => hk e.symm
      simp [put, hk, map_fst_put_of_mem this]

theorem put_of_not_mem {key : κ} {value : α} :
    {entries : List (κ × α)} → key ∉ entries.map Prod.fst →
      put key value entries = entries ++ [(key, value)]
  | [], _ => rfl
  | (k, v) :: rest, h => by
    simp only [List.map_cons, List.mem_cons, not_or] at h
    simp [put, Ne.symm h.1, put_of_not_mem h.2]

theorem nodup_put {key : κ} {value : α} {entries : List (κ × α)}
    (h : (entries.map Prod.fst).Nodup) : ((put key value entries).map Prod.fst).Nodup := by
  by_cases hk : key ∈ entries.map Prod.fst
  · rwa [map_fst_put_of_mem hk]
  · rw [put_of_not_mem hk, List.map_append, List.nodup_append]
    refine ⟨h, by simp, ?_⟩
    intro a ha b hb
    simp only [List.map_cons, List.map_nil, List.mem_singleton] at hb
    subst hb
    exact fun e => hk (e ▸ ha)

theorem lookup_put (key k : κ) (value : α) :
    (entries : List (κ × α)) →
      (put key value entries).lookup k = if k = key then some value else entries.lookup k
  | [] => by
    by_cases h : k = key
    · simp [put, h]
    · simp [put, h, List.lookup_cons, beq_false_of_ne h]
  | (k', v) :: rest => by
    have ih := lookup_put key k value rest
    by_cases hk : k' = key
    · subst hk
      by_cases h : k = k'
      · simp [put, h]
      · simp [put, h, List.lookup_cons, beq_false_of_ne h]
    · by_cases h : k = k'
      · subst h
        simp [put, hk]
      · simp [put, hk, List.lookup_cons, beq_false_of_ne h, ih]

/-- Under a present key the value is replaced in its place. -/
theorem put_of_lookup {key : κ} {old : α} (new : α) :
    {entries : List (κ × α)} → entries.lookup key = some old →
      ∃ before after, entries = before ++ (key, old) :: after ∧
        put key new entries = before ++ (key, new) :: after
  | (k, v) :: rest, h => by
    rw [List.lookup_cons] at h
    by_cases hk : k = key
    · subst hk
      rw [beq_self_eq_true] at h
      obtain rfl := Option.some.inj h
      exact ⟨[], rest, rfl, by simp [put]⟩
    · rw [beq_false_of_ne (Ne.symm hk)] at h
      obtain ⟨before, after, rfl, hput⟩ := put_of_lookup new h
      exact ⟨(k, v) :: before, after, rfl, by simp [put, hk, hput]⟩

theorem mem_snd_put {key : κ} {value a : α} :
    {entries : List (κ × α)} → a ∈ (put key value entries).map Prod.snd →
      a = value ∨ a ∈ entries.map Prod.snd
  | [], h => by simpa [put] using h
  | (k, v) :: rest, h => by
    rw [put] at h
    split at h
    · rcases List.mem_cons.mp h with rfl | later
      · exact .inl rfl
      · exact .inr (List.mem_cons_of_mem _ later)
    · rcases List.mem_cons.mp h with rfl | later
      · exact .inr List.mem_cons_self
      · exact (mem_snd_put later).imp_right (List.mem_cons_of_mem _)

theorem mem_of_lookup {key : κ} {value : α} {entries : List (κ × α)}
    (h : entries.lookup key = some value) : (key, value) ∈ entries := by
  obtain ⟨before, after, rfl, -⟩ := List.lookup_eq_some_iff.mp h
  simp

theorem lookup_of_mem {key : κ} {value : α} :
    {entries : List (κ × α)} → (entries.map Prod.fst).Nodup → (key, value) ∈ entries →
      entries.lookup key = some value
  | (k, v) :: rest, distinct, h => by
    simp only [List.map_cons, List.nodup_cons] at distinct
    rcases List.mem_cons.mp h with same | later
    · simp [Prod.mk.inj same]
    · have hne : key ≠ k := fun e => distinct.1 (e ▸ List.mem_map_of_mem later)
      rw [List.lookup_cons, beq_false_of_ne hne]
      exact lookup_of_mem distinct.2 later

end Entries

/-- A finite map in order of first insertion; no key occurs twice. -/
structure Table (κ α : Type) where
  entries : List (κ × α)
  nodup : (entries.map Prod.fst).Nodup
deriving DecidableEq

namespace Table

variable {κ α β : Type}

@[ext] theorem ext {t u : Table κ α} (h : t.entries = u.entries) : t = u := by
  cases t; cases u; cases h; rfl

def empty : Table κ α := ⟨[], .nil⟩

instance : EmptyCollection (Table κ α) := ⟨empty⟩

instance : Inhabited (Table κ α) := ⟨empty⟩

def keys (t : Table κ α) : List κ := t.entries.map Prod.fst

def values (t : Table κ α) : List α := t.entries.map Prod.snd

def size (t : Table κ α) : Nat := t.entries.length

def isEmpty (t : Table κ α) : Bool := t.entries.isEmpty

/-- The same keys in the same order, each value replaced by its image. -/
def mapValues (f : κ → α → β) (t : Table κ α) : Table κ β where
  entries := t.entries.map fun (k, v) => (k, f k v)
  nodup := by simpa [List.map_map, Function.comp_def] using t.nodup

@[simp] theorem values_empty : (∅ : Table κ α).values = [] := rfl

variable [DecidableEq κ]

def get? (t : Table κ α) (key : κ) : Option α := t.entries.lookup key

def contains (t : Table κ α) (key : κ) : Bool := (t.get? key).isSome

def insert (t : Table κ α) (key : κ) (value : α) : Table κ α where
  entries := Entries.put key value t.entries
  nodup := Entries.nodup_put t.nodup

def erase (t : Table κ α) (key : κ) : Table κ α where
  entries := t.entries.filter fun entry => entry.1 ≠ key
  nodup := t.nodup.sublist (List.filter_sublist.map _)

/-- The entries inserted one after the other, so that of a repeated key the first place and the
last value are kept. -/
def ofList (entries : List (κ × α)) : Table κ α :=
  entries.foldl (fun t (k, v) => t.insert k v) ∅

/-- The two maps have the same keys, and related values under each; order plays no part. -/
def agree (related : α → α → Bool) (t u : Table κ α) : Bool :=
  t.size == u.size && t.entries.all fun (k, v) =>
    match u.get? k with
    | some w => related v w
    | none => false

@[simp] theorem get?_empty (key : κ) : (∅ : Table κ α).get? key = none := rfl

theorem get?_insert (t : Table κ α) (key k : κ) (value : α) :
    (t.insert key value).get? k = if k = key then some value else t.get? k :=
  Entries.lookup_put key k value t.entries

@[simp] theorem get?_insert_self (t : Table κ α) (key : κ) (value : α) :
    (t.insert key value).get? key = some value := by simp [get?_insert]

theorem get?_eq_none_iff {t : Table κ α} {key : κ} : t.get? key = none ↔ key ∉ t.keys := by
  simp only [get?, keys, List.lookup_eq_none_iff, List.mem_map, not_exists, not_and]
  constructor
  · intro h entry hm hk
    simpa [hk] using h entry hm
  · intro h entry hm
    have := h entry hm
    simpa using fun e => this e.symm

theorem contains_iff {t : Table κ α} {key : κ} : t.contains key = true ↔ key ∈ t.keys := by
  rw [contains, Option.isSome_iff_ne_none, ne_eq, get?_eq_none_iff, Classical.not_not]

theorem mem_keys_of_get? {t : Table κ α} {key : κ} {value : α} (h : t.get? key = some value) :
    key ∈ t.keys :=
  List.mem_map_of_mem (Entries.mem_of_lookup h)

theorem mem_values_of_get? {t : Table κ α} {key : κ} {value : α} (h : t.get? key = some value) :
    value ∈ t.values :=
  List.mem_map_of_mem (Entries.mem_of_lookup h)

theorem entries_insert_of_not_mem {t : Table κ α} {key : κ} (value : α) (h : key ∉ t.keys) :
    (t.insert key value).entries = t.entries ++ [(key, value)] :=
  Entries.put_of_not_mem h

theorem keys_insert_of_mem {t : Table κ α} {key : κ} (value : α) (h : key ∈ t.keys) :
    (t.insert key value).keys = t.keys :=
  Entries.map_fst_put_of_mem h

theorem mem_values_insert {t : Table κ α} {key : κ} {value a : α}
    (h : a ∈ (t.insert key value).values) : a = value ∨ a ∈ t.values :=
  Entries.mem_snd_put h

theorem mem_keys_erase {t : Table κ α} {key k : κ} :
    k ∈ (t.erase key).keys ↔ k ∈ t.keys ∧ k ≠ key := by
  simp only [erase, keys, List.mem_map, List.mem_filter, decide_eq_true_eq]
  constructor
  · rintro ⟨entry, ⟨hm, hk⟩, rfl⟩
    exact ⟨⟨entry, hm, rfl⟩, hk⟩
  · rintro ⟨⟨entry, hm, rfl⟩, hk⟩
    exact ⟨entry, ⟨hm, hk⟩, rfl⟩

theorem get?_of_get?_erase {t : Table κ α} {key k : κ} {value : α}
    (h : (t.erase key).get? k = some value) : t.get? k = some value :=
  Entries.lookup_of_mem t.nodup (List.mem_filter.mp (Entries.mem_of_lookup h)).1

theorem get?_erase (t : Table κ α) (key k : κ) :
    (t.erase key).get? k = if k = key then none else t.get? k := by
  split
  · rename_i same
    rw [get?_eq_none_iff, mem_keys_erase]
    exact fun hm => hm.2 same
  · rename_i hne
    cases h : t.get? k with
    | none => exact get?_eq_none_iff.mpr fun hm => get?_eq_none_iff.mp h (mem_keys_erase.mp hm).1
    | some value =>
      refine Entries.lookup_of_mem (t.erase key).nodup (List.mem_filter.mpr ⟨?_, ?_⟩)
      · exact Entries.mem_of_lookup h
      · exact decide_eq_true hne

theorem values_perm_erase {t : Table κ α} {key : κ} {value : α} (h : t.get? key = some value) :
    t.values.Perm (value :: (t.erase key).values) := by
  obtain ⟨before, after, hsplit, hbefore⟩ := List.lookup_eq_some_iff.mp h
  have distinct := t.nodup
  simp only [hsplit, List.map_append, List.map_cons, List.nodup_append, List.nodup_cons] at distinct
  have hafter : ∀ entry ∈ after, entry.1 ≠ key := fun entry hm e =>
    distinct.2.1.1 (List.mem_map.mpr ⟨entry, hm, e⟩)
  have hkept : ∀ entry ∈ before, entry.1 ≠ key := fun entry hm e => by
    simpa [e] using hbefore entry hm
  have herase : (t.erase key).entries = before ++ after := by
    show t.entries.filter (fun entry => entry.1 ≠ key) = before ++ after
    rw [hsplit, List.filter_append, List.filter_cons_of_neg (by simp),
      List.filter_eq_self.mpr (by simpa using hkept),
      List.filter_eq_self.mpr (by simpa using hafter)]
  simp only [values, herase, hsplit, List.map_append, List.map_cons]
  exact List.perm_middle

/-- Inserting under an absent key and erasing it again gives back the map, order included. -/
theorem erase_insert {t : Table κ α} {key : κ} (value : α) (h : key ∉ t.keys) :
    (t.insert key value).erase key = t := by
  apply ext
  have hall : ∀ entry ∈ t.entries, entry.1 ≠ key := fun entry hm e =>
    h (e ▸ List.mem_map_of_mem hm)
  simp only [erase, entries_insert_of_not_mem value h, List.filter_append]
  rw [List.filter_eq_self.mpr (by simpa using hall)]
  simp

end Table

end BlockScript
