import BlockScript.Proofs.Undo
import BlockScript.Proofs.Visits

/-! All traversals of a block agree. A place in a block is a way from list to list and an index in
the last of them; with it a statement is told from others with the same tag. A walk comes to every
place once, in lexicographic order, the searches and updates under a tag stop at the first place of
it that has the tag, and the two ways of addressing a block of a program lead to one place. -/

namespace BlockScript

variable {ι : Type}

/-- Where a statement stands in a block: the indices of the statements around it, the outermost
first, and its own index among its siblings. -/
structure Place where
  path : List Nat
  index : Nat
deriving DecidableEq

/-- The indices on the way to a statement and its own. In the lexicographic order of these, a
statement comes before those in its block, and these before its later siblings. -/
def Place.trail (place : Place) : List Nat := place.path ++ [place.index]

namespace Block

/-- The list of siblings that a path leads to, with the statement that owns it. The given one owns
the block itself. -/
def list? (block : Block ι) (owner : Option (Statement ι)) :
    List Nat → Option (Option (Statement ι) × Block ι)
  | [] => some (owner, block)
  | i :: path => block[i]?.bind fun s => s.block?.bind fun inner => list? inner (some s) path

/-- The block with the list that a path leads to replaced by its image. -/
def modifyList (f : Block ι → Block ι) (block : Block ι) : List Nat → Block ι
  | [] => f block
  | i :: path => block.modify i (Statement.mapBlock fun inner => modifyList f inner path)

/-- What stands at a place, as told by the list that contains it: the owner of the list is the
parent, and the sibling at the index before is the previous one. -/
def siteAt? (block : Block ι) (owner : Option (Statement ι)) (place : Place) : Option (Site ι) :=
  (block.list? owner place.path).bind fun (parent, list) => list[place.index]?.map fun s =>
    { statement := s
      parent := parent
      previous := if place.index = 0 then none else list[place.index - 1]?
      index := place.index
      depth := place.path.length }

/-- The block with the statement at a place replaced by its image. -/
def modifyAt (block : Block ι) (place : Place) (f : Statement ι → Statement ι) : Block ι :=
  block.modifyList (·.modify place.index f) place.path

end Block

namespace Statement

mutual

/-- The places inside a statement to which the path leads. -/
def placesBelow (path : List Nat) : Statement ι → List Place
  | simple _ => []
  | compound _ block => placesFrom path 0 block

/-- The places of the siblings from an index on, and those inside them. -/
def placesFrom (path : List Nat) (index : Nat) : List (Statement ι) → List Place
  | [] => []
  | s :: rest =>
    ⟨path, index⟩ :: (s.placesBelow (path ++ [index]) ++ placesFrom path (index + 1) rest)

end

end Statement

/-- All places in a block. -/
def Block.places (block : Block ι) : List Place := Statement.placesFrom [] 0 block

/-! ### Lists of siblings -/

namespace Block

variable {block list inner : Block ι} {owner parent : Option (Statement ι)} {path : List Nat}
  {index : Nat} {s : Statement ι}

theorem list?_concat (h : block.list? owner path = some (parent, list)) (hs : list[index]? = some s)
    (hinner : s.block? = some inner) :
    block.list? owner (path ++ [index]) = some (some s, inner) := by
  induction path generalizing block owner with
  | nil =>
    obtain ⟨rfl, rfl⟩ := Prod.mk.inj (Option.some.inj h)
    simp [list?, hs, hinner]
  | cons i path ih =>
    rw [list?, Option.bind_eq_some_iff] at h
    obtain ⟨t, ht, h⟩ := h
    obtain ⟨below, hbelow, h⟩ := Option.bind_eq_some_iff.mp h
    simp only [List.cons_append, list?, ht, hbelow, Option.bind_some]
    exact ih h

/-- An edit of the list of siblings sees this list only. -/
theorem modifyList_congr {f g : Block ι → Block ι}
    (h : block.list? owner path = some (parent, list)) (same : f list = g list) :
    block.modifyList f path = block.modifyList g path := by
  induction path generalizing block owner with
  | nil =>
    obtain ⟨rfl, rfl⟩ := Prod.mk.inj (Option.some.inj h)
    exact same
  | cons i path ih =>
    rw [list?, Option.bind_eq_some_iff] at h
    obtain ⟨t, ht, h⟩ := h
    obtain ⟨below, hbelow, h⟩ := Option.bind_eq_some_iff.mp h
    obtain ⟨hlt, rfl⟩ := List.getElem?_eq_some_iff.mp ht
    have hmap : block[i].mapBlock (fun inner => modifyList f inner path) =
        block[i].mapBlock fun inner => modifyList g inner path := by
      cases hcase : block[i] with
      | simple head => rfl
      | compound head inner =>
        rw [hcase] at hbelow
        obtain rfl := Option.some.inj hbelow
        exact congrArg (Statement.compound head) (ih h)
    rw [modifyList, modifyList, List.modify_eq_take_cons_drop hlt,
      List.modify_eq_take_cons_drop hlt, hmap]

theorem modifyList_concat (f : Block ι → Block ι) (block : Block ι) (path : List Nat)
    (index : Nat) : block.modifyList f (path ++ [index]) =
      block.modifyList (·.modify index (Statement.mapBlock f)) path := by
  induction path generalizing block with
  | nil => rfl
  | cons i path ih =>
    rw [List.cons_append, modifyList, modifyList]
    simp only [ih]

end Block

/-! ### Places of a walk -/

namespace Statement

variable {whole : Block ι} {owner : Option (Statement ι)}

mutual

theorem map_siteAt?_placesBelow : (s : Statement ι) → {before rest : Block ι} → {path : List Nat} →
    {parent : Option (Statement ι)} →
    whole.list? owner path = some (parent, before ++ s :: rest) →
      (s.placesBelow (path ++ [before.length])).map (whole.siteAt? owner) =
        (s.sitesBelow path.length).map some
  | simple _, _, _, _, _, _ => rfl
  | compound head block, before, rest, path, parent, h => by
    have hinner : whole.list? owner (path ++ [before.length]) =
        some (some (compound head block), [] ++ block) :=
      Block.list?_concat h (by simp) rfl
    have hblock := map_siteAt?_placesFrom block hinner
    rwa [List.length_append, List.length_nil] at hblock

/-- A walk over the list that a path leads to sees what stands at its places, one after the
other. -/
theorem map_siteAt?_placesFrom : (rest : Block ι) → {before : Block ι} → {path : List Nat} →
    {parent : Option (Statement ι)} → whole.list? owner path = some (parent, before ++ rest) →
      (placesFrom path before.length rest).map (whole.siteAt? owner) =
        (sitesFrom parent path.length before.getLast? before.length rest).map some
  | [], _, _, _, _ => rfl
  | s :: rest, before, path, parent, h => by
    have hprevious : (if before.length = 0 then none else
        (before ++ s :: rest)[before.length - 1]?) = before.getLast? := by
      rw [List.getLast?_eq_getElem?]
      cases before with
      | nil => rfl
      | cons first more =>
        rw [if_neg (by simp), List.getElem?_append_left (by simp)]
    have hhere : whole.siteAt? owner ⟨path, before.length⟩ =
        some ⟨s, parent, before.getLast?, before.length, path.length⟩ := by
      rw [Block.siteAt?, h, Option.bind_some, ← hprevious]
      simp
    rw [List.append_cons] at h
    have hrest := map_siteAt?_placesFrom rest h
    rw [List.getLast?_concat, List.length_append, List.length_singleton] at hrest
    rw [← List.append_cons] at h
    rw [placesFrom, sitesFrom, List.map_cons, List.map_cons, List.map_append, List.map_append,
      hhere, map_siteAt?_placesBelow s h, hrest]

end

variable {place : Place} {path : List Nat}

mutual

theorem exists_trail_of_mem_placesBelow (path : List Nat) : (s : Statement ι) →
    place ∈ s.placesBelow path → ∃ i more, place.trail = path ++ i :: more
  | compound _ block, h => by
    obtain ⟨i, more, htrail, -⟩ := exists_trail_of_mem_placesFrom path 0 block h
    exact ⟨i, more, htrail⟩

/-- The places from an index on lead through a sibling from that index on. -/
theorem exists_trail_of_mem_placesFrom (path : List Nat) (index : Nat) : (block : Block ι) →
    place ∈ placesFrom path index block →
      ∃ i more, place.trail = path ++ i :: more ∧ index ≤ i
  | s :: rest, h => by
    rcases List.mem_cons.mp h with rfl | h
    · exact ⟨index, [], rfl, Nat.le_refl index⟩
    · rcases List.mem_append.mp h with inside | later
      · obtain ⟨i, more, htrail⟩ := exists_trail_of_mem_placesBelow (path ++ [index]) s inside
        exact ⟨index, i :: more, by rw [htrail, ← List.append_cons], Nat.le_refl index⟩
      · obtain ⟨i, more, htrail, hle⟩ := exists_trail_of_mem_placesFrom path (index + 1) rest later
        exact ⟨i, more, htrail, by omega⟩

end

theorem trail_lt_trail {path more : List Nat} {i j : Nat} (h : i < j) (rest : List Nat) :
    path ++ i :: more < path ++ j :: rest :=
  List.append_left_lt (List.cons_lt_cons_iff.mpr (.inl h))

mutual

theorem pairwise_placesBelow (path : List Nat) : (s : Statement ι) →
    ((s.placesBelow path).map Place.trail).Pairwise (· < ·)
  | simple _ => .nil
  | compound _ block => pairwise_placesFrom path 0 block

/-- The places come in lexicographic order. -/
theorem pairwise_placesFrom (path : List Nat) (index : Nat) : (block : Block ι) →
    ((placesFrom path index block).map Place.trail).Pairwise (· < ·)
  | [] => .nil
  | s :: rest => by
    rw [placesFrom, List.map_cons, List.map_append, List.pairwise_cons, List.pairwise_append]
    refine ⟨?_, pairwise_placesBelow (path ++ [index]) s,
      pairwise_placesFrom path (index + 1) rest, ?_⟩
    · -- a statement stands before what is inside it and before its later siblings
      intro trail h
      rw [← List.map_append] at h
      obtain ⟨place, hplace, rfl⟩ := List.mem_map.mp h
      rcases List.mem_append.mp hplace with inside | later
      · obtain ⟨i, more, htrail⟩ := exists_trail_of_mem_placesBelow (path ++ [index]) s inside
        rw [htrail, Place.trail, ← List.append_cons]
        exact List.append_left_lt (List.cons_lt_cons_iff.mpr (.inr ⟨rfl, List.nil_lt_cons i more⟩))
      · obtain ⟨i, more, htrail, hle⟩ := exists_trail_of_mem_placesFrom path (index + 1) rest later
        rw [htrail]
        exact trail_lt_trail hle more
    · -- and so does all that is inside it
      intro first hfirst second hsecond
      obtain ⟨place, hplace, rfl⟩ := List.mem_map.mp hfirst
      obtain ⟨other, hother, rfl⟩ := List.mem_map.mp hsecond
      obtain ⟨i, more, htrail⟩ := exists_trail_of_mem_placesBelow (path ++ [index]) s hplace
      obtain ⟨j, rest, htrail', hle⟩ := exists_trail_of_mem_placesFrom path (index + 1) _ hother
      rw [htrail, htrail', ← List.append_cons]
      exact trail_lt_trail hle rest

end

theorem mem_placesFrom_of_getElem? {block : Block ι} {s : Statement ι} {index k : Nat}
    (hs : block[index]? = some s) (h : place = ⟨path, k + index⟩ ∨
      place ∈ s.placesBelow (path ++ [k + index])) : place ∈ placesFrom path k block := by
  induction block generalizing index k with
  | nil => cases hs
  | cons t rest ih =>
    rw [placesFrom]
    cases index with
    | zero =>
      obtain rfl := Option.some.inj hs
      rcases h with rfl | inside
      · exact List.mem_cons_self
      · exact List.mem_cons_of_mem _ (List.mem_append_left _ inside)
    | succ index =>
      rw [show k + (index + 1) = k + 1 + index by omega] at h
      exact List.mem_cons_of_mem _ (List.mem_append_right _ (ih hs h))

/-- A walk comes to every place where a statement stands. -/
theorem mem_placesFrom {block list : Block ι} {parent : Option (Statement ι)} {s : Statement ι}
    {index : Nat} (front : List Nat) (h : block.list? owner path = some (parent, list))
    (hs : list[index]? = some s) : ⟨front ++ path, index⟩ ∈ placesFrom front 0 block := by
  induction path generalizing block owner front with
  | nil =>
    obtain ⟨rfl, rfl⟩ := Prod.mk.inj (Option.some.inj h)
    exact mem_placesFrom_of_getElem? hs (.inl (by simp))
  | cons i path ih =>
    rw [Block.list?, Option.bind_eq_some_iff] at h
    obtain ⟨t, ht, h⟩ := h
    obtain ⟨below, hbelow, h⟩ := Option.bind_eq_some_iff.mp h
    cases t with
    | simple head => cases hbelow
    | compound head inner =>
      obtain rfl := Option.some.inj hbelow
      refine mem_placesFrom_of_getElem? ht (.inr ?_)
      rw [Nat.zero_add, List.append_cons front i path]
      exact ih (front ++ [i]) h

end Statement

namespace Block

variable {block : Block ι} {owner : Option (Statement ι)} {place : Place}

theorem map_siteAt?_places (block : Block ι) (owner : Option (Statement ι)) :
    block.places.map (block.siteAt? owner) = (block.sites owner).map some := by
  have h : block.list? owner [] = some (owner, [] ++ block) := rfl
  exact Statement.map_siteAt?_placesFrom block h

theorem pairwise_places (block : Block ι) : (block.places.map Place.trail).Pairwise (· < ·) :=
  Statement.pairwise_placesFrom [] 0 block

theorem mem_places_iff : place ∈ block.places ↔ (block.siteAt? owner place).isSome := by
  constructor
  · intro h
    have hmem := List.mem_map_of_mem (f := block.siteAt? owner) h
    rw [map_siteAt?_places] at hmem
    obtain ⟨site, -, hsite⟩ := List.mem_map.mp hmem
    rw [← hsite, Option.isSome_some]
  · intro h
    obtain ⟨site, hsite⟩ := Option.isSome_iff_exists.mp h
    obtain ⟨⟨parent, list⟩, hlist, hsite⟩ := Option.bind_eq_some_iff.mp hsite
    obtain ⟨s, hs, -⟩ := Option.map_eq_some_iff.mp hsite
    exact Statement.mem_placesFrom [] hlist hs

end Block

/-! ### Searches and updates -/

/-- Whether the statement at a place has the tag. -/
def Block.hasTag (block : Block Nat) (tag : Nat) (place : Place) : Bool :=
  (block.siteAt? none place).any fun site => site.statement.tag == tag

/-- The first place of a walk with the tag. -/
def Block.firstPlace? (block : Block Nat) (tag : Nat) : Option Place :=
  block.places.find? (block.hasTag tag)

theorem Block.modify_length (before rest : Block ι) (s : Statement ι)
    (f : Statement ι → Statement ι) :
    (before ++ s :: rest).modify before.length f = before ++ f s :: rest := by
  induction before with
  | nil => rfl
  | cons t before ih => exact congrArg (t :: ·) ih

namespace Statement

variable {whole : Block Nat} {tag : Nat} {f : Statement Nat → Statement Nat}

theorem hasTag_here {before rest : Block Nat} {s : Statement Nat} {path : List Nat}
    {parent : Option (Statement Nat)}
    (h : whole.list? none path = some (parent, before ++ s :: rest)) :
    whole.hasTag tag ⟨path, before.length⟩ = (s.tag == tag) := by
  rw [Block.hasTag, Block.siteAt?, h]
  simp

mutual

theorem update?_eq_placesBelow : (s : Statement Nat) → s.tag ≠ tag → {before rest : Block Nat} →
    {path : List Nat} → {parent : Option (Statement Nat)} →
    whole.list? none path = some (parent, before ++ s :: rest) →
      (s.update? tag f).map (fun s' => whole.modifyList (fun _ => before ++ s' :: rest) path) =
        ((s.placesBelow (path ++ [before.length])).find? (whole.hasTag tag)).map
          (whole.modifyAt · f)
  | simple head, other, _, _, _, _, _ => by
    rw [update?, if_neg (show head.tag ≠ tag from other)]
    rfl
  | compound head block, other, before, rest, path, parent, h => by
    have hinner : whole.list? none (path ++ [before.length]) =
        some (some (compound head block), [] ++ block) :=
      Block.list?_concat h (by simp) rfl
    have hblock := updateEach?_eq_placesFrom block hinner
    rw [update?, if_neg (show head.tag ≠ tag from other), Option.map_map, placesBelow]
    refine Eq.trans (Option.map_congr fun block' _ => ?_) hblock
    -- an edit of the block inside is an edit of the list that the statement stands in
    rw [Block.modifyList_concat]
    exact (Block.modifyList_congr h (Block.modify_length before rest _ _)).symm

/-- An update of the siblings from one on edits the first of their places with the tag. -/
theorem updateEach?_eq_placesFrom : (rest : Block Nat) → {before : Block Nat} → {path : List Nat} →
    {parent : Option (Statement Nat)} → whole.list? none path = some (parent, before ++ rest) →
      (updateEach? tag f rest).map (fun rest' => whole.modifyList (fun _ => before ++ rest') path) =
        ((placesFrom path before.length rest).find? (whole.hasTag tag)).map (whole.modifyAt · f)
  | [], _, _, _, _ => rfl
  | s :: rest, before, path, parent, h => by
    rw [placesFrom, List.find?_cons, hasTag_here h]
    by_cases here : s.tag = tag
    · rw [updateEach?, update?_of_tag_eq here, here, beq_self_eq_true]
      exact congrArg some (Block.modifyList_congr h (Block.modify_length before rest s f)).symm
    · have hafter : whole.list? none path = some (parent, (before ++ [s]) ++ rest) := by
        rw [h, List.append_cons]
      have hrest := updateEach?_eq_placesFrom rest hafter
      have hbelow := update?_eq_placesBelow s here h
      rw [beq_false_of_ne here, List.find?_append, Option.map_or, ← hbelow]
      rw [List.length_append, List.length_singleton] at hrest
      rw [← hrest, updateEach?]
      cases s.update? tag f with
      | some s' => rfl
      | none =>
        rw [Option.map_map, Option.map_none, Option.none_or]
        refine Option.map_congr fun rest' _ => ?_
        rw [Function.comp_apply, List.append_cons]

end

end Statement

/-- An update edits the first place of a walk that has the tag. -/
theorem Block.updateEach?_eq (block : Block Nat) (tag : Nat) (f : Statement Nat → Statement Nat) :
    Statement.updateEach? tag f block = (block.firstPlace? tag).map (block.modifyAt · f) := by
  have whole : block.list? none [] = some (none, [] ++ block) := rfl
  exact Option.map_id'.symm.trans (Statement.updateEach?_eq_placesFrom block whole)

/-- The statement at a place is the same whatever owns the block. -/
theorem Block.map_statement_siteAt? (block : Block ι) (owner owner' : Option (Statement ι))
    (place : Place) : (block.siteAt? owner place).map Site.statement =
      (block.siteAt? owner' place).map Site.statement := by
  unfold siteAt?
  cases place.path with
  | nil => simp [list?, Function.comp_def]
  | cons i path => rfl

theorem Block.hasTag_eq (block : Block Nat) (owner : Option (Statement Nat)) (tag : Nat)
    (place : Place) : block.hasTag tag place =
      (block.siteAt? owner place).any fun site => site.statement.tag == tag := by
  have h := block.map_statement_siteAt? none owner place
  replace h := congrArg (Option.any fun s => s.tag == tag) h
  rwa [Option.any_map, Option.any_map] at h

/-- What stands at the first place with the tag is the first of a walk that has it. -/
theorem Block.map_siteAt?_firstPlace? (block : Block Nat) (owner : Option (Statement Nat))
    (tag : Nat) : (block.firstPlace? tag).map (block.siteAt? owner) =
      ((block.sites owner).find? fun site => site.statement.tag == tag).map some := by
  have h := congrArg (List.find? (Option.any fun site => site.statement.tag == tag))
    (block.map_siteAt?_places owner)
  rw [List.find?_map, List.find?_map] at h
  rw [firstPlace?, funext (block.hasTag_eq owner tag)]
  exact h

theorem Block.find?_eq_sites (block : Block Nat) (parent : Option (Statement Nat)) (tag : Nat) :
    block.find? tag =
      ((block.sites parent).find? fun site => site.statement.tag == tag).map Site.statement := by
  rw [find?, ← Block.map_statement_sites block parent, List.find?_map]
  rfl

/-- A search under a tag finds what stands at the first place of a walk that has it. -/
theorem Block.find?_eq (block : Block Nat) (tag : Nat) : block.find? tag =
    (block.firstPlace? tag).bind fun place => (block.siteAt? none place).map Site.statement := by
  have h := block.map_siteAt?_firstPlace? none tag
  rw [block.find?_eq_sites none]
  cases hplace : block.firstPlace? tag with
  | none =>
    rw [hplace, Option.map_none, eq_comm, Option.map_eq_none_iff] at h
    rw [h]
    rfl
  | some place =>
    rw [hplace, Option.map_some, eq_comm, Option.map_eq_some_iff] at h
    obtain ⟨site, hfound, hsite⟩ := h
    rw [hfound, Option.bind_some, ← hsite]

/-- A search looks at a statement, then into its block and then at the siblings after it. -/
theorem Block.find?_cons (s : Statement Nat) (rest : Block Nat) (tag : Nat) :
    Block.find? (s :: rest) tag = if s.tag = tag then some s else
      (s.block?.bind fun inner => inner.find? tag).or (Block.find? rest tag) := by
  have hnodes : s.nodes = s :: Statement.nodesEach (s.block?.getD []) := by cases s <;> rfl
  rw [find?, Statement.nodesEach, List.find?_append, hnodes]
  by_cases here : s.tag = tag
  · rw [if_pos here, List.find?_cons_of_pos (by simpa using here)]
    rfl
  · rw [if_neg here, List.find?_cons_of_neg (by simpa using here)]
    cases s <;> rfl

namespace Statement

mutual

/-- The search of one statement and then of its block. -/
def search? (tag : Nat) : Statement Nat → Option (Statement Nat)
  | simple head => if head.tag = tag then some (simple head) else none
  | compound head block =>
    if head.tag = tag then some (compound head block) else searchEach? tag block

/-- The search of one statement after the other, up to the first find. -/
def searchEach? (tag : Nat) : List (Statement Nat) → Option (Statement Nat)
  | [] => none
  | s :: rest => (s.search? tag).or (searchEach? tag rest)

end

variable {tag : Nat}

mutual

theorem search?_eq : (s : Statement Nat) → s.search? tag =
    if s.tag = tag then some s else s.block?.bind fun inner => Block.find? inner tag
  | simple head => rfl
  | compound head block => by rw [search?, searchEach?_eq block]; rfl

theorem searchEach?_eq : (block : Block Nat) → searchEach? tag block = block.find? tag
  | [] => rfl
  | s :: rest => by
    rw [searchEach?, search?_eq s, searchEach?_eq rest, Block.find?_cons]
    split <;> rfl

end

end Statement

/-! ### Walks that change heads -/

/-- What a walk tells of a statement itself: its depth, its head and whether it has a block. With
these for all statements in order, the block is known. -/
def Site.profile (site : Site ι) : Nat × Head ι × Bool :=
  (site.depth, site.statement.head, site.statement.block?.isSome)

namespace Statement

mutual

/-- The profiles of a statement and of all nested in it. -/
def profiles (depth : Nat) : Statement ι → List (Nat × Head ι × Bool)
  | simple head => [(depth, head, false)]
  | compound head block => (depth, head, true) :: profilesEach (depth + 1) block

def profilesEach (depth : Nat) : List (Statement ι) → List (Nat × Head ι × Bool)
  | [] => []
  | s :: rest => s.profiles depth ++ profilesEach depth rest

end

mutual

theorem profiles_eq (depth : Nat) : (s : Statement ι) →
    s.profiles depth = (depth, s.head, s.block?.isSome) :: (s.sitesBelow depth).map Site.profile
  | simple _ => rfl
  | compound head block => by
    rw [profiles, sitesBelow, map_profile_sitesFrom _ _ _ _ block]
    rfl

theorem map_profile_sitesFrom (parent : Option (Statement ι)) (depth : Nat)
    (previous : Option (Statement ι)) (index : Nat) : (block : Block ι) →
    (sitesFrom parent depth previous index block).map Site.profile = profilesEach depth block
  | [] => rfl
  | s :: rest => by
    rw [sitesFrom, profilesEach, profiles_eq depth s, List.map_cons, List.map_append,
      map_profile_sitesFrom _ _ _ _ rest]
    rfl

end

variable {m : Type → Type} [Monad m] [LawfulMonad m]

/-- The visit of one statement of a walk that changes heads. -/
def revisit {m : Type → Type} [Monad m] (visit : Nat → Head ι → m (Head ι)) :
    Nat × Head ι × Bool → m (Nat × Head ι × Bool)
  | (depth, head, hasBlock) => do return (depth, ← visit depth head, hasBlock)

mutual

theorem profiles_traverse (visit : Nat → Head ι → m (Head ι)) (depth : Nat) : (s : Statement ι) →
    profiles depth <$> s.traverse visit depth = (s.profiles depth).mapM (revisit visit)
  | simple head => by
    simp [traverse, profiles, revisit]
  | compound head block => by
    rw [traverse, profiles, List.mapM_cons, ← profilesEach_traverse visit (depth + 1) block]
    simp [profiles, revisit]

/-- The walk visits the heads one after the other, whatever the visits do. -/
theorem profilesEach_traverse (visit : Nat → Head ι → m (Head ι)) (depth : Nat) :
    (block : Block ι) →
      profilesEach depth <$> traverseEach visit depth block =
        (profilesEach depth block).mapM (revisit visit)
  | [] => by simp [traverseEach, profilesEach]
  | s :: rest => by
    rw [traverseEach, profilesEach, List.mapM_append, ← profiles_traverse visit depth s,
      ← profilesEach_traverse visit depth rest]
    simp [profilesEach]

end

end Statement

/-- A walk that changes heads leaves every statement where it stands. It visits what a walk over the
block sees, one after the other. -/
theorem Block.map_profile_traverse (block : Block ι) (parent : Option (Statement ι)) {σ : Type}
    (visit : Nat → Head ι → StateM σ (Head ι)) :
    (fun new => (Block.sites new parent).map Site.profile) <$> block.traverse visit =
      ((block.sites parent).map Site.profile).mapM (Statement.revisit visit) := by
  have h := Statement.profilesEach_traverse visit 0 block
  unfold sites traverse
  simp only [Statement.map_profile_sitesFrom]
  exact h

/-! ### Addresses -/

/-- The value under a present key is found and put at one place. -/
theorem Entries.exists_map_snd_put {κ α : Type} [DecidableEq κ] {key : κ} {old : α} :
    {entries : List (κ × α)} → entries.lookup key = some old →
      ∃ number, (entries.map Prod.snd)[number]? = some old ∧
        ∀ f, (put key (f old) entries).map Prod.snd = (entries.map Prod.snd).modify number f
  | (k, v) :: rest, h => by
    rw [List.lookup_cons] at h
    by_cases hk : k = key
    · rw [hk, beq_self_eq_true] at h
      obtain rfl := Option.some.inj h
      exact ⟨0, rfl, fun f => by simp [put, hk]⟩
    · rw [beq_false_of_ne (Ne.symm hk)] at h
      obtain ⟨number, hold, hput⟩ := exists_map_snd_put h
      exact ⟨number + 1, hold, fun f => by simp [put, hk, hput]⟩

theorem Block.exists_place_of_find? {block : Block Nat} {tag : Nat} {s : Statement Nat}
    (h : block.find? tag = some s) : ∃ place parent list,
      block.list? none place.path = some (parent, list) ∧ list[place.index]? = some s ∧
        ∀ f, Statement.updateEach? tag f block = some (block.modifyAt place f) := by
  rw [Block.find?_eq, Option.bind_eq_some_iff] at h
  obtain ⟨place, hplace, h⟩ := h
  obtain ⟨site, hsite, rfl⟩ := Option.map_eq_some_iff.mp h
  obtain ⟨⟨parent, list⟩, hlist, hsite⟩ := Option.bind_eq_some_iff.mp hsite
  obtain ⟨s, hs, rfl⟩ := Option.map_eq_some_iff.mp hsite
  exact ⟨place, parent, list, hlist, hs, fun f => by rw [Block.updateEach?_eq, hplace]; rfl⟩

namespace Program

/-- The list of siblings that a path leads to in one of the blocks of a program. -/
def list? (p : Program) (number : Nat) (path : List Nat) : Option (Block Nat) :=
  p.blocks[number]?.bind fun block => (block.list? none path).map Prod.snd

/-- Reads and edits of the block with this address are of one list of the program, and edits change
nothing else. -/
structure Locates (p : Program) (address : Address) (number : Nat) (path : List Nat) : Prop where
  there : (p.list? number path).isSome
  read : p.block? address = p.list? number path
  edit : ∀ f, (p.modifyBlock address f).blocks = p.blocks.modify number (Block.modifyList f · path)
  keys : ∀ f, (p.modifyBlock address f).procedures.keys = p.procedures.keys
  rest : ∀ f, (p.modifyBlock address f).«variables» = p.variables ∧
    (p.modifyBlock address f).skeletons = p.skeletons ∧
    (p.modifyBlock address f).initialized = p.initialized ∧ (p.modifyBlock address f).next = p.next

variable {p : Program} {address : Address} {tag : Nat} {s : Statement Nat} {block : Block Nat}

theorem Locates.of_block? {number : Nat} {path : List Nat} (h : p.block? address = some block)
    (there : p.list? number path = some block)
    (edit : ∀ f, (p.modifyBlock address f).blocks =
      p.blocks.modify number (Block.modifyList f · path)) : p.Locates address number path where
  there := by rw [there, Option.isSome_some]
  read := h.trans there.symm
  edit := edit
  keys f := (replaced_of_modifyBlock h f).keys
  rest f :=
    have hr := replaced_of_modifyBlock h f
    ⟨hr.variables, hr.skeletons, hr.initialized, hr.next⟩

/-- A search through bodies and an update of them stop at one place. -/
theorem exists_place_of_bodies : {bodies : List (String × Block Nat)} →
    ((bodies.map Prod.snd).flatMap Statement.nodesEach).find? (·.tag == tag) = some s →
      ∃ number body place parent list, (bodies.map Prod.snd)[number]? = some body ∧
        body.list? none place.path = some (parent, list) ∧ list[place.index]? = some s ∧
        ∀ f, ∃ new, updateBodies? tag f bodies = some new ∧
          new.map Prod.snd = (bodies.map Prod.snd).modify number (Block.modifyAt · place f)
  | (id, body) :: rest, h => by
    rw [List.map_cons, List.flatMap_cons, List.find?_append] at h
    cases hbody : (Statement.nodesEach body).find? (·.tag == tag) with
    | some t =>
      rw [hbody, Option.some_or] at h
      obtain rfl := Option.some.inj h
      obtain ⟨place, parent, list, hlist, hs, hupdate⟩ := Block.exists_place_of_find? hbody
      refine ⟨0, body, place, parent, list, rfl, hlist, hs, fun f => ?_⟩
      exact ⟨(id, body.modifyAt place f) :: rest, by rw [updateBodies?, hupdate f], rfl⟩
    | none =>
      rw [hbody, Option.none_or] at h
      obtain ⟨number, found, place, parent, list, hfound, hlist, hs, hupdate⟩ :=
        exists_place_of_bodies h
      refine ⟨number + 1, found, place, parent, list, hfound, hlist, hs, fun f => ?_⟩
      obtain ⟨new, hnew, hvalues⟩ := hupdate f
      refine ⟨(id, body) :: new, ?_, congrArg (body :: ·) hvalues⟩
      rw [updateBodies?, (Statement.updateEach?_eq_none_iff body).mpr hbody, hnew]
      rfl

/-- A search through a program and an update of it stop at one place. -/
theorem exists_place_of_find? (h : p.find? tag = some s) :
    ∃ number body place parent list, p.blocks[number]? = some body ∧
      body.list? none place.path = some (parent, list) ∧ list[place.index]? = some s ∧
      ∀ f, ∃ q, p.update? tag f = some q ∧
        q.blocks = p.blocks.modify number (Block.modifyAt · place f) := by
  rw [find?, nodes, blocks, List.flatMap_cons, List.find?_append] at h
  cases hroot : (Statement.nodesEach p.block).find? (·.tag == tag) with
  | some t =>
    rw [hroot, Option.some_or] at h
    obtain rfl := Option.some.inj h
    obtain ⟨place, parent, list, hlist, hs, hupdate⟩ := Block.exists_place_of_find? hroot
    exact ⟨0, p.block, place, parent, list, rfl, hlist, hs,
      fun f => ⟨_, update?_of_block (hupdate f), rfl⟩⟩
  | none =>
    rw [hroot, Option.none_or] at h
    obtain ⟨number, body, place, parent, list, hbody, hlist, hs, hupdate⟩ :=
      exists_place_of_bodies h
    refine ⟨number + 1, body, place, parent, list, hbody, hlist, hs, fun f => ?_⟩
    obtain ⟨new, hnew, hvalues⟩ := hupdate f
    have hnodup : (new.map Prod.fst).Nodup := by
      rw [map_fst_updateBodies? hnew]
      exact p.procedures.nodup
    refine ⟨{ p with procedures := ⟨new, hnodup⟩ }, ?_, congrArg (p.block :: ·) hvalues⟩
    exact update?_of_bodies ((Statement.updateEach?_eq_none_iff p.block).mpr hroot) hnew

/-- Whatever an address names, reads and edits agree about it. -/
theorem exists_locates (h : p.block? address = some block) :
    ∃ number path, p.Locates address number path := by
  cases address with
  | root => exact ⟨0, [], .of_block? h h fun f => rfl⟩
  | procedure id =>
    have hget : p.procedures.get? id = some block := h
    obtain ⟨number, hnumber, hput⟩ := Entries.exists_map_snd_put hget
    have there : p.list? (number + 1) [] = some block := by
      show (p.procedures.values[number]?.bind _) = _
      rw [Table.values, hnumber]
      rfl
    refine ⟨number + 1, [], .of_block? h there fun f => ?_⟩
    simp only [modifyBlock, hget]
    exact congrArg (p.block :: ·) (hput f)
  | inside tag =>
    obtain ⟨s, hs, hblock⟩ := Option.bind_eq_some_iff.mp h
    obtain ⟨number, body, place, parent, list, hbody, hlist, hindex, hupdate⟩ :=
      exists_place_of_find? hs
    have there : p.list? number (place.path ++ [place.index]) = some block := by
      rw [list?, hbody, Option.bind_some, Block.list?_concat hlist hindex hblock]
      rfl
    refine ⟨number, place.path ++ [place.index], .of_block? h there fun f => ?_⟩
    obtain ⟨q, hq, hblocks⟩ := hupdate (Statement.mapBlock f)
    simp only [modifyBlock, hq, Option.getD_some, hblocks, Block.modifyList_concat]
    rfl

end Program

/-! ### All of them -/

/-- Whatever goes through a block sees the same statements at the same places. -/
structure Block.Agreement (block : Block Nat) (parent : Option (Statement Nat)) : Prop where
  /-- A walk tells of every statement what stands around it in the list that contains it, -/
  walk : (block.sites parent).map some = block.places.map (block.siteAt? parent)
  /-- comes to each place once and to a statement before those inside it and after it, -/
  order : (block.places.map Place.trail).Pairwise (· < ·)
  /-- and leaves none out. -/
  everywhere : ∀ place, place ∈ block.places ↔ (block.siteAt? parent place).isSome
  change : ∀ {σ : Type} (visit : Nat → Head Nat → StateM σ (Head Nat)),
    (fun new => (Block.sites new parent).map Site.profile) <$> block.traverse visit =
      ((block.sites parent).map Site.profile).mapM (Statement.revisit visit)
  contains : ∀ tag,
    block.containsTag tag = (block.sites parent).any fun site => site.statement.tag == tag
  contains_find : ∀ tag, block.containsTag tag = (block.find? tag).isSome
  contains_update : ∀ tag f,
    block.containsTag tag = (Statement.updateEach? tag f block).isSome
  /-- A search for a tag looks into the block of a statement before it goes on to its siblings. -/
  search : ∀ tag, block.find? tag = Statement.searchEach? tag block
  /-- A search and an update under a tag stop where a walk first meets it. -/
  first : ∀ tag, (block.firstPlace? tag).map (block.siteAt? parent) =
    ((block.sites parent).find? fun site => site.statement.tag == tag).map some
  find : ∀ tag, block.find? tag =
    ((block.sites parent).find? fun site => site.statement.tag == tag).map Site.statement
  update : ∀ tag f, Statement.updateEach? tag f block =
    (block.firstPlace? tag).map (block.modifyAt · f)

theorem Block.containsTag_eq_find? (block : Block Nat) (tag : Nat) :
    block.containsTag tag = (block.find? tag).isSome := by
  rw [Bool.eq_iff_iff, containsTag, find?, List.any_eq_true, List.find?_isSome]

theorem Block.isSome_updateEach? (block : Block Nat) (tag : Nat)
    (f : Statement Nat → Statement Nat) :
    (Statement.updateEach? tag f block).isSome = (block.find? tag).isSome := by
  have h := congrArg Option.isSome (block.map_siteAt?_firstPlace? none tag)
  rw [Option.isSome_map, Option.isSome_map] at h
  rw [updateEach?_eq, find?_eq_sites block none, Option.isSome_map, Option.isSome_map, h]

theorem Block.agreement (block : Block Nat) (parent : Option (Statement Nat)) :
    block.Agreement parent where
  walk := (block.map_siteAt?_places parent).symm
  order := block.pairwise_places
  everywhere place := mem_places_iff
  change visit := block.map_profile_traverse parent visit
  contains tag := by
    rw [containsTag, ← block.map_statement_sites parent, List.any_map]
    rfl
  contains_find tag := block.containsTag_eq_find? tag
  contains_update tag f := by rw [block.containsTag_eq_find?, block.isSome_updateEach?]
  search tag := (Statement.searchEach?_eq block).symm
  first tag := block.map_siteAt?_firstPlace? parent tag
  find tag := block.find?_eq_sites parent tag
  update tag f := block.updateEach?_eq tag f

theorem Statement.subtree_eq (s : Statement ι) : s.subtree =
    s.tag :: ((s.block?.getD []).sites (some s)).map fun site => site.statement.tag := by
  cases s with
  | simple head => rfl
  | compound head block =>
    have h := congrArg (List.map tag) (Block.map_statement_sites block (some (compound head block)))
    rw [List.map_map] at h
    exact congrArg (head.tag :: ·) h.symm

/-- All traversals agree: walks, the search for a tag and the update under it come to the statements
of a block at the same places in the same order, repeated tags or not, and the tags of a subtree are
those of a walk. So in a program an edit of a block is one of the list that a read of it finds, and
where a read finds none it does nothing. -/
theorem traversals_agree :
    (∀ (block : Block Nat) parent, block.Agreement parent) ∧
    (∀ s : Statement Nat, s.subtree =
      s.tag :: ((s.block?.getD []).sites (some s)).map fun site => site.statement.tag) ∧
    ∀ (p : Program) address, (∃ number path, p.Locates address number path) ∨
      p.block? address = none ∧ ∀ f, p.modifyBlock address f = p := by
  refine ⟨Block.agreement, Statement.subtree_eq, fun p address => ?_⟩
  cases h : p.block? address with
  | none => exact .inr ⟨rfl, Program.modifyBlock_of_block?_eq_none h⟩
  | some block => exact .inl (Program.exists_locates h)

end BlockScript
