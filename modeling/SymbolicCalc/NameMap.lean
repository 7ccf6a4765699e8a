/-!
# Finite maps on names

A `NameMap α` holds at most one value per name, in increasing order of the names by code point. The
order is part of the type, so two maps with the same entries are equal, and whatever is listed from a
map is listed in the same order every time.
-/

namespace SymbolicCalc

/-- Entries in strictly increasing order of their names. -/
def NamesIncrease {α : Type} (entries : List (String × α)) : Prop :=
  entries.Pairwise fun a b => a.1 < b.1

/-- Puts `value` under `name` into an increasing list of entries, in place of what was there. -/
def insertEntry {α : Type} (name : String) (value : α) : List (String × α) → List (String × α)
  | [] => [(name, value)]
  | (other, old) :: rest =>
    if name < other then (name, value) :: (other, old) :: rest
    else if name = other then (name, value) :: rest
    else (other, old) :: insertEntry name value rest

/-- The value under `name` in a list of entries. -/
def findEntry {α : Type} (name : String) : List (String × α) → Option α
  | [] => none
  | (other, value) :: rest => if name = other then some value else findEntry name rest

section

variable {α : Type}

theorem mem_insertEntry {name : String} {value : α} {entry : String × α}
    {entries : List (String × α)} (h : entry ∈ insertEntry name value entries) :
    entry = (name, value) ∨ entry ∈ entries := by
  induction entries with
  | nil => simpa [insertEntry] using h
  | cons head rest ih =>
    obtain ⟨other, old⟩ := head
    simp only [insertEntry] at h
    split at h
    · simpa using h
    · split at h
      · rcases List.mem_cons.1 h with h | h
        · exact .inl h
        · exact .inr (List.mem_cons_of_mem _ h)
      · rcases List.mem_cons.1 h with h | h
        · exact .inr (h ▸ List.mem_cons_self)
        · exact (ih h).imp id (List.mem_cons_of_mem _)

theorem namesIncrease_insertEntry (name : String) (value : α) {entries : List (String × α)}
    (h : NamesIncrease entries) : NamesIncrease (insertEntry name value entries) := by
  induction entries with
  | nil => simp [insertEntry, NamesIncrease]
  | cons head rest ih =>
    obtain ⟨other, old⟩ := head
    obtain ⟨hhead, hrest⟩ := List.pairwise_cons.1 h
    simp only [insertEntry]
    split
    next hlt =>
      refine List.pairwise_cons.2 ⟨fun entry hentry => ?_, h⟩
      rcases List.mem_cons.1 hentry with rfl | hentry
      · exact hlt
      · exact String.lt_trans hlt (hhead entry hentry)
    next hlt =>
      split
      next heq => exact List.pairwise_cons.2 ⟨fun entry hentry => heq ▸ hhead entry hentry, hrest⟩
      next hne =>
        refine List.pairwise_cons.2 ⟨fun entry hentry => ?_, ih hrest⟩
        rcases mem_insertEntry hentry with rfl | hentry
        · have hle : other ≤ name := String.not_lt.1 hlt
          exact Decidable.byContradiction fun hnot =>
            hne (String.le_antisymm (String.not_lt.1 hnot) hle)
        · exact hhead entry hentry

theorem findEntry_insertEntry (name key : String) (value : α) (entries : List (String × α)) :
    findEntry key (insertEntry name value entries) =
      if key = name then some value else findEntry key entries := by
  induction entries with
  | nil => simp [insertEntry, findEntry]
  | cons head rest ih =>
    obtain ⟨other, old⟩ := head
    simp only [insertEntry]
    split
    · simp [findEntry]
    · split
      next heq =>
        subst heq
        by_cases h : key = name <;> simp [findEntry, h]
      next hne =>
        simp only [findEntry, ih]
        by_cases h : key = other
        · have : other ≠ name := fun e => hne e.symm
          simp [h, this]
        · simp [h]

theorem findEntry_isSome_iff {name : String} {entries : List (String × α)} :
    (findEntry name entries).isSome = true ↔ name ∈ entries.map (·.1) := by
  induction entries with
  | nil => simp [findEntry]
  | cons head rest ih =>
    obtain ⟨other, value⟩ := head
    by_cases h : name = other <;> simp [findEntry, h, ih]

theorem findEntry_of_mem {name : String} {value : α} {entries : List (String × α)}
    (hincrease : NamesIncrease entries) (h : (name, value) ∈ entries) :
    findEntry name entries = some value := by
  induction entries with
  | nil => cases h
  | cons head rest ih =>
    obtain ⟨hhead, hrest⟩ := List.pairwise_cons.1 hincrease
    rcases List.mem_cons.1 h with rfl | h
    · exact if_pos rfl
    · have hne : name ≠ head.1 := fun heq => String.lt_irrefl _ (heq ▸ hhead _ h)
      exact (if_neg hne).trans (ih hrest h)

theorem mem_of_findEntry {name : String} {value : α} {entries : List (String × α)}
    (h : findEntry name entries = some value) : (name, value) ∈ entries := by
  induction entries with
  | nil => cases h
  | cons head rest ih =>
    rw [findEntry] at h
    split at h
    next hname =>
      cases h
      rw [hname]
      exact List.mem_cons_self
    · exact List.mem_cons_of_mem head (ih h)

theorem findEntry_eq_none {name : String} {entries : List (String × α)}
    (h : ∀ entry ∈ entries, name < entry.1) : findEntry name entries = none := by
  induction entries with
  | nil => rfl
  | cons head rest ih =>
    obtain ⟨hhead, hrest⟩ := List.forall_mem_cons.1 h
    have hne : name ≠ head.1 := fun heq => String.lt_irrefl _ (heq ▸ hhead)
    exact (if_neg hne).trans (ih hrest)

/-- Two increasing lists of entries are equal if every name has the same value in both. Each of the first names is
in the other list too, so neither of them comes before the other. -/
theorem eq_of_findEntry_eq {entries others : List (String × α)} (hincrease : NamesIncrease entries)
    (hincrease' : NamesIncrease others) (h : ∀ name, findEntry name entries = findEntry name others) :
    entries = others := by
  induction entries generalizing others with
  | nil =>
    cases others with
    | nil => rfl
    | cons head rest =>
      have hhead := h head.1
      rw [findEntry_of_mem hincrease' List.mem_cons_self] at hhead
      cases hhead
  | cons head rest ih =>
    cases others with
    | nil =>
      have hhead := h head.1
      rw [findEntry_of_mem hincrease List.mem_cons_self] at hhead
      cases hhead
    | cons head' rest' =>
      obtain ⟨hfirst, hrest⟩ := List.pairwise_cons.1 hincrease
      obtain ⟨hfirst', hrest'⟩ := List.pairwise_cons.1 hincrease'
      have hle {a b : String × α} {as bs : List (String × α)} (has : NamesIncrease (a :: as))
          (hbs : ∀ entry ∈ bs, b.1 < entry.1)
          (hab : findEntry a.1 (a :: as) = findEntry a.1 (b :: bs)) : b.1 ≤ a.1 := by
        rw [findEntry_of_mem has List.mem_cons_self] at hab
        have hmem := findEntry_isSome_iff.1 (by rw [← hab]; rfl)
        rcases List.mem_cons.1 hmem with heq | hmem
        · exact heq ▸ String.le_refl _
        · obtain ⟨entry, hentry, hname⟩ := List.mem_map.1 hmem
          exact String.not_lt.1 fun hlt => String.lt_irrefl _ (String.lt_trans hlt (hname ▸ hbs entry hentry))
      have hname : head.1 = head'.1 :=
        String.le_antisymm (hle hincrease' hfirst (h _).symm) (hle hincrease hfirst' (h _))
      have hvalue : head.2 = head'.2 := by
        have hhead := h head.1
        rw [findEntry_of_mem hincrease List.mem_cons_self, hname,
          findEntry_of_mem hincrease' List.mem_cons_self] at hhead
        exact Option.some.inj hhead
      have htail : rest = rest' := by
        refine ih hrest hrest' fun name => ?_
        by_cases heq : name = head.1
        · rw [heq, findEntry_eq_none hfirst, hname, findEntry_eq_none hfirst']
        · have hboth := h name
          rwa [findEntry, findEntry, if_neg heq, if_neg (hname ▸ heq)] at hboth
      rw [htail, Prod.ext hname hvalue]

end

/-- A finite map from names to values. -/
structure NameMap (α : Type) where
  /-- The entries, one per name. -/
  entries : List (String × α)
  /-- The names of the entries increase. -/
  increasing : NamesIncrease entries

namespace NameMap

variable {α : Type}

/-- The map without entries. -/
def empty : NameMap α := ⟨[], List.Pairwise.nil⟩

instance : Inhabited (NameMap α) := ⟨empty⟩

/-- The map with `value` under `name`, in place of what was there. -/
def insert (map : NameMap α) (name : String) (value : α) : NameMap α :=
  ⟨insertEntry name value map.entries, namesIncrease_insertEntry name value map.increasing⟩

/-- The value under `name`. -/
def get? (map : NameMap α) (name : String) : Option α :=
  findEntry name map.entries

/-- The names in the map, in increasing order. -/
def names (map : NameMap α) : List String :=
  map.entries.map (·.1)

/-- The number of names in the map. -/
def size (map : NameMap α) : Nat :=
  map.entries.length

/-- The map of a list of entries, of which a later one replaces an earlier one. -/
def ofList (entries : List (String × α)) : NameMap α :=
  entries.foldl (fun map entry => map.insert entry.1 entry.2) empty

/-! ## Laws -/

@[simp] theorem get?_empty (name : String) : (empty : NameMap α).get? name = none := rfl

@[simp] theorem get?_insert (map : NameMap α) (name key : String) (value : α) :
    (map.insert name value).get? key = if key = name then some value else map.get? key :=
  findEntry_insertEntry name key value map.entries

theorem get?_isSome_iff (map : NameMap α) (name : String) :
    (map.get? name).isSome = true ↔ name ∈ map.names :=
  findEntry_isSome_iff

theorem get?_of_mem_entries {map : NameMap α} {name : String} {value : α}
    (h : (name, value) ∈ map.entries) : map.get? name = some value :=
  findEntry_of_mem map.increasing h

theorem mem_entries_iff {map : NameMap α} {name : String} {value : α} :
    (name, value) ∈ map.entries ↔ map.get? name = some value :=
  ⟨get?_of_mem_entries, mem_of_findEntry⟩

/-- A map is determined by the values of the names. -/
theorem eq_of_get?_eq {map other : NameMap α} (h : ∀ name, map.get? name = other.get? name) : map = other := by
  obtain ⟨entries, hincrease⟩ := map
  obtain ⟨others, hincrease'⟩ := other
  obtain rfl := eq_of_findEntry_eq hincrease hincrease' h
  rfl

/-- Values of different names can be put into a map in any order. -/
theorem insert_comm (map : NameMap α) {name other : String} (hne : name ≠ other) (value value' : α) :
    (map.insert name value).insert other value' = (map.insert other value').insert name value := by
  refine eq_of_get?_eq fun key => ?_
  simp only [get?_insert]
  by_cases hname : key = name
  · have hother : key ≠ other := hname ▸ hne
    rw [if_neg hother, if_pos hname, if_pos hname]
  · rw [if_neg hname, if_neg hname]

theorem mem_names_insert {map : NameMap α} {name other : String} {value : α}
    (h : other ∈ (map.insert name value).names) : other = name ∨ other ∈ map.names := by
  obtain ⟨entry, hentry, rfl⟩ := List.mem_map.1 h
  rcases mem_insertEntry hentry with rfl | hentry
  · exact .inl rfl
  · exact .inr (List.mem_map_of_mem hentry)

/-- The names of a map are listed in strictly increasing order, hence without repetition. -/
theorem names_increase (map : NameMap α) : map.names.Pairwise (· < ·) :=
  List.pairwise_map.2 map.increasing

end NameMap

/-- A finite set of names. -/
abbrev NameSet := NameMap Unit

namespace NameSet

/-- The set with one more name. -/
def add (set : NameSet) (name : String) : NameSet :=
  set.insert name ()

/-- The set of the names in a list. -/
def ofNames (names : List String) : NameSet :=
  names.foldl add .empty

end NameSet

end SymbolicCalc
