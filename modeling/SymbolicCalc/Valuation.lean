import SymbolicCalc.NameMap
import SymbolicCalc.Numeric.Binary64
import SymbolicCalc.Text.LowercaseLaws

/-!
# Values of variables

Valuations give values to names without regard to letter case: every name is kept in lower case, and a name
in any letter case finds the value that was last given to it.
-/

namespace SymbolicCalc

/-- The values of some variables. -/
structure Valuation where
  /-- The values by name. -/
  values : NameMap Binary64
  /-- The names are in lower case. -/
  lower : ∀ name ∈ values.names, Text.lowercase name = name

namespace Valuation

/-- No values. -/
def empty : Valuation :=
  ⟨.empty, fun _ h => absurd h (List.not_mem_nil)⟩

instance : Inhabited Valuation := ⟨empty⟩

/-- The valuation with a value for `name`, in place of the one it had. -/
def add (ρ : Valuation) (name : String) (value : Binary64) : Valuation where
  values := ρ.values.insert (Text.lowercase name) value
  lower other h := by
    rcases NameMap.mem_names_insert h with rfl | h
    · exact Text.lowercase_lowercase name
    · exact ρ.lower other h

/-- The value of a name. -/
def get? (ρ : Valuation) (name : String) : Option Binary64 :=
  match ρ.values.get? name with
  | some value => some value
  | none => ρ.values.get? (Text.lowercase name)

/-- The names that have values, in increasing order. -/
def names (ρ : Valuation) : List String :=
  ρ.values.names

/-- The valuation of a list of names with their values, of which a later one replaces an earlier one. -/
def ofList (entries : List (String × Binary64)) : Valuation :=
  entries.foldl (fun ρ entry => ρ.add entry.1 entry.2) empty

/-- The valuation of a map, whose names may be in any letter case. Of names that differ in letter case
alone, the last one counts. -/
def ofMap (values : NameMap Binary64) : Valuation :=
  ofList values.entries

/-- Whether two valuations give the same numbers to the same names. The two zeros are the same number, and
what is not a number is not even the same as itself. -/
def sameValues (ρ σ : Valuation) : Bool :=
  ρ.names == σ.names &&
    (ρ.values.entries.zip σ.values.entries).all fun (x, y) => x.2.same y.2

/-! ## Laws -/

/-- A name has the value last given to a name with the same lower case. -/
theorem get?_add (ρ : Valuation) (name other : String) (value : Binary64) :
    (ρ.add name value).get? other =
      if Text.lowercase other = Text.lowercase name then some value else ρ.get? other := by
  simp only [get?, add, NameMap.get?_insert]
  by_cases hraw : other = Text.lowercase name
  · subst hraw
    simp [Text.lowercase_lowercase]
  · by_cases hlow : Text.lowercase other = Text.lowercase name
    · simp only [hraw, if_false, hlow, if_true]
      have hnone : ρ.values.get? other = none := by
        cases hget : ρ.values.get? other with
        | none => rfl
        | some v =>
          have hmem := (ρ.values.get?_isSome_iff other).1 (by rw [hget]; rfl)
          exact absurd ((ρ.lower other hmem).symm.trans hlow) hraw
      rw [hnone]
    · simp [hraw, hlow]

theorem add_lowercase (ρ : Valuation) (name : String) (value : Binary64) :
    ρ.add (Text.lowercase name) value = ρ.add name value := by
  unfold add
  simp only [Text.lowercase_lowercase]

/-- Values of names that differ in more than letter case can be given in any order. -/
theorem add_comm (ρ : Valuation) {name other : String} (hne : Text.lowercase name ≠ Text.lowercase other)
    (value value' : Binary64) : (ρ.add name value).add other value' = (ρ.add other value').add name value := by
  have h := ρ.values.insert_comm hne value value'
  unfold add
  congr

theorem lowercase_mem_names {ρ : Valuation} {name : String} (h : (ρ.get? name).isSome = true) :
    Text.lowercase name ∈ ρ.names := by
  unfold get? at h
  split at h
  next value hvalue =>
    have hmem := (ρ.values.get?_isSome_iff name).1 (by rw [hvalue]; rfl)
    rw [ρ.lower name hmem]
    exact hmem
  · exact (ρ.values.get?_isSome_iff (Text.lowercase name)).1 h

theorem isSome_get?_of_mem_names {ρ : Valuation} {name : String} (h : name ∈ ρ.names) :
    (ρ.get? name).isSome = true := by
  have hsome := (ρ.values.get?_isSome_iff name).2 h
  unfold get?
  split
  · rfl
  next hnone =>
    rw [hnone] at hsome
    cases hsome

theorem map_lowercase_names (ρ : Valuation) : ρ.names.map Text.lowercase = ρ.names := by
  have h := List.map_congr_left (f := Text.lowercase) (g := id) ρ.lower
  rwa [List.map_id] at h

end Valuation

end SymbolicCalc
