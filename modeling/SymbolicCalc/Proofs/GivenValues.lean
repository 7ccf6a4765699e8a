import Mathlib.Data.List.Induction
import SymbolicCalc.Expression

/-!
# Values given to names in any letter case

A valuation is built by giving values to names, one at a time or a whole list at once, and letter case makes no
difference to a name. So a valuation holds one entry for every name that was given a value, in lower case, with the
value that was given last; and a name in any letter case finds that value.

The entries of a plain map come in no order, so a valuation may be made from a map in as many ways as its entries can
be listed. Names that differ in letter case alone are one name to the valuation, and its value is that of whichever
of them comes last. All ways give one valuation exactly if such names have the same value in the map.
-/

namespace SymbolicCalc

namespace Valuation

open Text (lowercase lowercase_lowercase)

variable {given entries : List (String × Binary64)} {values : NameMap Binary64} {ρ σ : Valuation}
  {name key : String} {value value' : Binary64}

/-- The value is the last one given to a name whose lower case is `key`. -/
def LastGiven (given : List (String × Binary64)) (key : String) (value : Binary64) : Prop :=
  ∃ before name after, given = before ++ (name, value) :: after ∧ lowercase name = key ∧
    ∀ entry ∈ after, lowercase entry.1 ≠ key

/-- The ways to build a valuation, with the values given since it was made, in their order. -/
inductive Built : List (String × Binary64) → Valuation → Prop
  | empty : Built [] .empty
  /-- A valuation is made from a list of names with their values. -/
  | ofList (entries : List (String × Binary64)) : Built entries (.ofList entries)
  /-- A value is given to one more name, or to a name that has one. -/
  | add {given : List (String × Binary64)} {ρ : Valuation} (h : Built given ρ) (name : String) (value : Binary64) :
      Built (given ++ [(name, value)]) (ρ.add name value)

/-- The valuation may be made from the map: the entries of the map are given one by one, in any order. -/
def MadeFrom (values : NameMap Binary64) (ρ : Valuation) : Prop :=
  ∃ visited : List (String × Binary64), visited.Perm values.entries ∧ ρ = ofList visited

/-- The value, or none, is what the map has for a name whose lower case is `key`. -/
def Picks (values : NameMap Binary64) (key : String) : Option Binary64 → Prop
  | some value => ∃ name, (name, value) ∈ values.entries ∧ lowercase name = key
  | none => ∀ entry ∈ values.entries, lowercase entry.1 ≠ key

/-- Names that differ in letter case alone have the same value in the map. -/
def Consistent (values : NameMap Binary64) : Prop :=
  ∀ a ∈ values.entries, ∀ b ∈ values.entries, lowercase a.1 = lowercase b.1 → a.2 = b.2

/-! ## What was given last -/

theorem not_lastGiven_nil : ¬LastGiven [] key value := by
  rintro ⟨before, name, after, h, -⟩
  simp at h

/-- One more value is the last one of its name and changes nothing for the other names. -/
theorem lastGiven_concat : LastGiven (given ++ [(name, value)]) key value' ↔
    if lowercase name = key then value = value' else LastGiven given key value' := by
  constructor
  · rintro ⟨before, other, after, h, hother, hafter⟩
    rcases List.eq_nil_or_concat after with rfl | ⟨after, entry, rfl⟩
    · obtain ⟨-, h⟩ := List.append_inj' h rfl
      cases h
      rw [if_pos hother]
    · rw [List.concat_eq_append, ← List.cons_append, ← List.append_assoc] at h
      obtain ⟨hgiven, hlast⟩ := List.append_inj' h rfl
      obtain rfl := List.singleton_inj.1 hlast
      rw [List.concat_eq_append, List.forall_mem_append] at hafter
      rw [if_neg (hafter.2 _ List.mem_cons_self)]
      exact ⟨before, other, after, hgiven, hother, hafter.1⟩
  · intro h
    split at h
    next hname => exact ⟨given, name, [], by rw [h], hname, fun _ hentry => absurd hentry List.not_mem_nil⟩
    next hname =>
      obtain ⟨before, other, after, rfl, hother, hafter⟩ := h
      refine ⟨before, other, after ++ [(name, value)], by simp, hother, ?_⟩
      exact List.forall_mem_append.2 ⟨hafter, List.forall_mem_singleton.2 hname⟩

theorem LastGiven.append_left (h : LastGiven given key value) (earlier : List (String × Binary64)) :
    LastGiven (earlier ++ given) key value := by
  obtain ⟨before, name, after, rfl, hname, hafter⟩ := h
  exact ⟨earlier ++ before, name, after, (List.append_assoc _ _ _).symm, hname, hafter⟩

theorem LastGiven.exists_mem (h : LastGiven given key value) :
    ∃ name, (name, value) ∈ given ∧ lowercase name = key := by
  obtain ⟨before, name, after, rfl, hname, -⟩ := h
  exact ⟨name, by simp, hname⟩

/-- A name that was given a value was given a last one. -/
theorem exists_lastGiven {entry : String × Binary64} (h : entry ∈ given) :
    ∃ value, LastGiven given (lowercase entry.1) value := by
  induction given using List.reverseRecOn with
  | nil => cases h
  | append_singleton given last ih =>
    by_cases hlast : lowercase last.1 = lowercase entry.1
    · exact ⟨last.2, lastGiven_concat.2 (by rw [if_pos hlast])⟩
    · rcases List.mem_append.1 h with hmem | hmem
      · obtain ⟨value, hvalue⟩ := ih hmem
        exact ⟨value, lastGiven_concat.2 (by rwa [if_neg hlast])⟩
      · rw [List.mem_singleton.1 hmem] at hlast
        exact absurd rfl hlast

/-! ## What a valuation holds -/

/-- The name as written and the name in lower case find the same value. -/
theorem get?_eq (ρ : Valuation) (name : String) : ρ.get? name = ρ.values.get? (lowercase name) := by
  unfold get?
  split
  next value hvalue =>
    rw [ρ.lower name ((ρ.values.get?_isSome_iff name).1 (by rw [hvalue]; rfl)), hvalue]
  · rfl

theorem eq_of_values_eq (h : ∀ key, ρ.values.get? key = σ.values.get? key) : ρ = σ := by
  obtain ⟨values, hlower⟩ := ρ
  obtain ⟨values', hlower'⟩ := σ
  obtain rfl := NameMap.eq_of_get?_eq h
  rfl

/-- The step: a valuation that holds what was given last still does after one more value. -/
theorem get?_add_iff (h : ∀ value, ρ.values.get? key = some value ↔ LastGiven given key value) :
    (ρ.add name value).values.get? key = some value' ↔ LastGiven (given ++ [(name, value)]) key value' := by
  rw [lastGiven_concat, add, NameMap.get?_insert]
  by_cases hname : key = lowercase name
  · rw [if_pos hname, if_pos hname.symm, Option.some.injEq]
  · rw [if_neg hname, if_neg (Ne.symm hname), h]

theorem ofList_concat (entries : List (String × Binary64)) (entry : String × Binary64) :
    ofList (entries ++ [entry]) = (ofList entries).add entry.1 entry.2 :=
  List.foldl_append

theorem get?_ofList_iff : (ofList entries).values.get? key = some value ↔ LastGiven entries key value := by
  induction entries using List.reverseRecOn generalizing value with
  | nil => exact ⟨nofun, fun h => absurd h not_lastGiven_nil⟩
  | append_singleton entries entry ih =>
    rw [ofList_concat]
    exact get?_add_iff fun _ => ih

theorem Built.get?_iff (h : Built given ρ) : ρ.values.get? key = some value ↔ LastGiven given key value := by
  induction h generalizing value with
  | empty => exact ⟨nofun, fun h => absurd h not_lastGiven_nil⟩
  | ofList entries => exact get?_ofList_iff
  | add h name value' ih => exact get?_add_iff fun _ => ih

theorem mem_names_iff_get? : key ∈ ρ.names ↔ ∃ value, ρ.values.get? key = some value := by
  rw [names, ← NameMap.get?_isSome_iff, Option.isSome_iff_exists]

theorem Built.mem_names_iff (h : Built given ρ) : key ∈ ρ.names ↔ ∃ entry ∈ given, lowercase entry.1 = key := by
  rw [mem_names_iff_get?]
  constructor
  · rintro ⟨value, hvalue⟩
    obtain ⟨name, hmem, hname⟩ := (h.get?_iff.1 hvalue).exists_mem
    exact ⟨(name, value), hmem, hname⟩
  · rintro ⟨entry, hmem, rfl⟩
    obtain ⟨value, hvalue⟩ := exists_lastGiven hmem
    exact ⟨value, h.get?_iff.2 hvalue⟩

/-! ## Valuations made from a map -/

theorem madeFrom_ofMap (values : NameMap Binary64) : MadeFrom values (ofMap values) :=
  ⟨values.entries, .refl _, rfl⟩

theorem MadeFrom.picks (h : MadeFrom values ρ) (key : String) : Picks values key (ρ.values.get? key) := by
  obtain ⟨visited, hperm, rfl⟩ := h
  cases hget : (ofList visited).values.get? key with
  | none =>
    rintro entry hmem rfl
    obtain ⟨value, hvalue⟩ := exists_lastGiven (hperm.mem_iff.2 hmem)
    rw [get?_ofList_iff.2 hvalue] at hget
    cases hget
  | some value =>
    obtain ⟨name, hmem, hname⟩ := (get?_ofList_iff.1 hget).exists_mem
    exact ⟨name, hperm.mem_iff.1 hmem, hname⟩

/-- Any choice of a value for each name is made in some order: the entries that are chosen come last. -/
theorem madeFrom_of_picks (h : ∀ key, Picks values key (ρ.values.get? key)) : MadeFrom values ρ := by
  let chosen (entry : String × Binary64) : Bool := ρ.values.get? (lowercase entry.1) = some entry.2
  have hperm := (List.perm_append_comm).trans (List.filter_append_perm chosen values.entries)
  refine ⟨_, hperm, eq_of_values_eq fun key => ?_⟩
  have hkey := h key
  cases hget : ρ.values.get? key with
  | none =>
    rw [hget] at hkey
    cases hget' : (ofList _).values.get? key with
    | none => rfl
    | some value =>
      obtain ⟨name, hmem, hname⟩ := (get?_ofList_iff.1 hget').exists_mem
      exact absurd hname (hkey (name, value) (hperm.mem_iff.1 hmem))
  | some value =>
    rw [hget] at hkey
    obtain ⟨name, hmem, rfl⟩ := hkey
    have hchosen : (name, value) ∈ values.entries.filter chosen := List.mem_filter.2 ⟨hmem, decide_eq_true hget⟩
    obtain ⟨value', hlast⟩ := exists_lastGiven hchosen
    obtain ⟨other, hmem', hother⟩ := hlast.exists_mem
    have hvalue' := of_decide_eq_true (List.mem_filter.1 hmem').2
    rw [hother, hget] at hvalue'
    cases hvalue'
    exact (get?_ofList_iff.2 (hlast.append_left _)).symm

theorem madeFrom_iff : MadeFrom values ρ ↔ ∀ key, Picks values key (ρ.values.get? key) :=
  ⟨MadeFrom.picks, madeFrom_of_picks⟩

/-- The value of every entry counts in some order, namely in one that has the entry last. -/
theorem exists_madeFrom_last {entry : String × Binary64} (h : entry ∈ values.entries) :
    ∃ ρ, MadeFrom values ρ ∧ ρ.values.get? (lowercase entry.1) = some entry.2 := by
  obtain ⟨before, after, hentries⟩ := List.append_of_mem h
  refine ⟨_, ⟨before ++ after ++ [entry], ?_, rfl⟩, get?_ofList_iff.2 (lastGiven_concat.2 (by rw [if_pos rfl]))⟩
  rw [hentries, List.append_assoc]
  exact (List.perm_append_singleton entry after).append_left before

theorem Consistent.eq (h : Consistent values) (hρ : MadeFrom values ρ) (hσ : MadeFrom values σ) : ρ = σ := by
  refine eq_of_values_eq fun key => ?_
  have hpick := hρ.picks key
  have hpick' := hσ.picks key
  cases hget : ρ.values.get? key with
  | none =>
    rw [hget] at hpick
    cases hget' : σ.values.get? key with
    | none => rfl
    | some value =>
      rw [hget'] at hpick'
      obtain ⟨name, hmem, hname⟩ := hpick'
      exact absurd hname (hpick (name, value) hmem)
  | some value =>
    rw [hget] at hpick
    obtain ⟨name, hmem, rfl⟩ := hpick
    cases hget' : σ.values.get? (lowercase name) with
    | none =>
      rw [hget'] at hpick'
      exact absurd rfl (hpick' (name, value) hmem)
    | some value' =>
      rw [hget'] at hpick'
      obtain ⟨other, hmem', hother⟩ := hpick'
      exact congrArg some (h (name, value) hmem (other, value') hmem' hother.symm)

/-- The values of a valuation are under names in lower case already. -/
theorem consistent_values (ρ : Valuation) : Consistent ρ.values := by
  intro a ha b hb hlower
  have hname : a.1 = b.1 := by
    rw [← ρ.lower _ (List.mem_map_of_mem ha), ← ρ.lower _ (List.mem_map_of_mem hb), hlower]
  have hvalue := NameMap.mem_entries_iff.1 ha
  rw [hname, NameMap.mem_entries_iff.1 hb] at hvalue
  exact (Option.some.inj hvalue).symm

theorem madeFrom_values (ρ : Valuation) : MadeFrom ρ.values ρ := by
  refine madeFrom_of_picks fun key => ?_
  cases hget : ρ.values.get? key with
  | none =>
    rintro entry hmem rfl
    have hlower := ρ.lower _ (List.mem_map_of_mem hmem)
    rw [hlower, NameMap.mem_entries_iff.1 hmem] at hget
    cases hget
  | some value =>
    have hmem := NameMap.mem_entries_iff.2 hget
    exact ⟨key, hmem, ρ.lower key (List.mem_map_of_mem hmem)⟩

/-! ## Main results -/

/-- However a valuation is built, it holds one entry for every name that was given a value, in lower case, with the
value given last. A name in any letter case has that value, and a name that is found as it is written has no other
one in lower case. Made into a plain map and back, in any order, the valuation is the same. -/
theorem built_holds_last (h : Built given ρ) :
    ρ.names.Nodup ∧ (∀ key, key ∈ ρ.names ↔ ∃ entry ∈ given, lowercase entry.1 = key) ∧
      (∀ key value, (key, value) ∈ ρ.values.entries ↔ LastGiven given key value) ∧
      (∀ name value, ρ.get? name = some value ↔ LastGiven given (lowercase name) value) ∧
      (∀ name value, ρ.values.get? name = some value → ρ.values.get? (lowercase name) = some value) ∧
      ∀ σ, MadeFrom ρ.values σ ↔ σ = ρ := by
  refine ⟨?_, fun key => h.mem_names_iff, fun key value => ?_, fun name value => ?_, fun name value hvalue => ?_,
    fun σ => ⟨?_, ?_⟩⟩
  · refine ρ.values.names_increase.imp fun hlt => ?_
    rintro rfl
    exact String.lt_irrefl _ hlt
  · rw [NameMap.mem_entries_iff, h.get?_iff]
  · rw [get?_eq, h.get?_iff]
  · rw [← get?_eq, get?, hvalue]
  · exact fun hmade => (consistent_values ρ).eq hmade (madeFrom_values ρ)
  · rintro rfl
    exact madeFrom_values σ

/-- The name given last ends in a sigma, which is written in another way in each of its three spellings. -/
theorem built_holds_last_sigma :
    ∃ ρ, Built [("X", .one), ("ΑΣ", .zero), ("ας", .one)] ρ ∧ ρ.names.Nodup ∧ ρ.get? "αΣ" = some .one ∧
      ρ.get? "x" = some .one ∧ ∀ σ, MadeFrom ρ.values σ ↔ σ = ρ := by
  have hbuilt := (Built.ofList [("X", .one), ("ΑΣ", .zero)]).add "ας" .one
  obtain ⟨hnodup, -, -, hget, -, hmade⟩ := built_holds_last hbuilt
  have hsigma : lowercase "ας" = lowercase "αΣ" := by decide +kernel
  have hx : lowercase "X" = lowercase "x" := by decide +kernel
  have hother : ∀ entry ∈ [("ΑΣ", Binary64.zero), ("ας", .one)], lowercase entry.1 ≠ lowercase "x" := by
    decide +kernel
  refine ⟨_, hbuilt, hnodup, (hget _ _).2 ?_, (hget _ _).2 ?_, hmade⟩
  · exact ⟨[("X", .one), ("ΑΣ", .zero)], "ας", [], rfl, hsigma, by simp⟩
  · exact ⟨[], "X", _, rfl, hx, hother⟩

/-- A valuation that is made from a map has for each name one of the values that the map has for the name in some
letter case, and any choice of them is made in some order of the entries. So all orders give the same valuation, and
the same value or error for every expression, exactly if the map has one value for names that differ in letter case
alone. -/
theorem madeFrom_order (values : NameMap Binary64) :
    MadeFrom values (ofMap values) ∧
      (∀ ρ, MadeFrom values ρ ↔ ∀ key, Picks values key (ρ.values.get? key)) ∧
      ((∀ ρ σ, MadeFrom values ρ → MadeFrom values σ → ρ = σ) ↔ Consistent values) ∧
      ((∀ ρ σ, MadeFrom values ρ → MadeFrom values σ → ∀ t : Expression, t.evaluate ρ = t.evaluate σ) ↔
        Consistent values) := by
  refine ⟨madeFrom_ofMap values, fun ρ => madeFrom_iff, ⟨fun h => ?_, fun h ρ σ => h.eq⟩,
    ⟨fun h => ?_, fun h ρ σ hρ hσ t => by rw [h.eq hρ hσ]⟩⟩
  · intro a ha b hb hlower
    obtain ⟨ρ, hρ, hvalue⟩ := exists_madeFrom_last ha
    obtain ⟨σ, hσ, hvalue'⟩ := exists_madeFrom_last hb
    rw [h ρ σ hρ hσ, hlower, hvalue'] at hvalue
    exact (Option.some.inj hvalue).symm
  · intro a ha b hb hlower
    obtain ⟨ρ, hρ, hvalue⟩ := exists_madeFrom_last ha
    obtain ⟨σ, hσ, hvalue'⟩ := exists_madeFrom_last hb
    have heval := h ρ σ hρ hσ (.var a.1)
    simp only [Expression.evaluate, Tree.eval, get?_eq, hvalue] at heval
    rw [hlower, hvalue'] at heval
    exact Except.ok.inj heval

/-- The Kelvin sign is a capital `k`. -/
theorem madeFrom_order_kelvin :
    Consistent (.ofList [("\u212a", .one), ("k", .one), ("t", .zero)]) ∧
      ∀ ρ σ, MadeFrom (.ofList [("\u212a", .one), ("k", .one), ("t", .zero)]) ρ →
        MadeFrom (.ofList [("\u212a", .one), ("k", .one), ("t", .zero)]) σ → ρ = σ := by
  have hconsistent : Consistent (.ofList [("\u212a", .one), ("k", .one), ("t", .zero)]) := by
    unfold Consistent
    decide +kernel
  exact ⟨hconsistent, (madeFrom_order _).2.2.1.2 hconsistent⟩

/-- The map has the value 0 for `x` and the value 1 for `X`. -/
theorem madeFrom_order_letterCase :
    MadeFrom (.ofList [("x", .zero), ("X", .one)]) (.ofList [("x", .zero), ("X", .one)]) ∧
      MadeFrom (.ofList [("x", .zero), ("X", .one)]) (.ofList [("X", .one), ("x", .zero)]) ∧
      ofList [("x", .zero), ("X", .one)] ≠ .ofList [("X", .one), ("x", .zero)] ∧
      Expression.evaluate (.var "x") (.ofList [("x", .zero), ("X", .one)]) = .ok .one ∧
      Expression.evaluate (.var "x") (.ofList [("X", .one), ("x", .zero)]) = .ok .zero := by
  have hone : Expression.evaluate (.var "x") (.ofList [("x", .zero), ("X", .one)]) = .ok .one := by decide +kernel
  have hzero : Expression.evaluate (.var "x") (.ofList [("X", .one), ("x", .zero)]) = .ok .zero := by decide +kernel
  have hentries : (NameMap.ofList [("x", .zero), ("X", .one)]).entries = [("X", Binary64.one), ("x", .zero)] := by
    decide +kernel
  refine ⟨⟨_, ?_, rfl⟩, ⟨_, .of_eq hentries.symm, rfl⟩, fun heq => ?_, hone, hzero⟩
  · exact (List.Perm.swap _ _ _).trans (.of_eq hentries.symm)
  · rw [heq, hzero] at hone
    exact absurd (Except.ok.inj hone) (by decide +kernel)

end Valuation

end SymbolicCalc
