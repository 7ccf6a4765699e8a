import SymbolicCalc.Text.Lowercase

/-!
# Lower case is stable

No lower-case letter of the table is a capital letter of the table, so lower case leaves a text in lower
case as it is: `lowercase_lowercase`. The statement about the table is decided run against run, by where
the two runs lie and by whether their code points are even or odd.
-/

namespace SymbolicCalc.Text

/-! ## The table -/

/-- The code point of the lower-case letter of the first capital letter of a run. -/
def CaseRun.lowerFirst (run : CaseRun) : Nat :=
  (run.first + run.shift).toNat

/-- The code point of the lower-case letter of the last capital letter of a run. -/
def CaseRun.lowerLast (run : CaseRun) : Nat :=
  (run.last + run.shift).toNat

/-- A test for runs no lower-case letter of which is a capital letter of `other`: the letters lie in
disjoint ranges, or on code points of different parity (a run of one letter has its parity). -/
def CaseRun.misses (run other : CaseRun) : Bool :=
  Nat.blt run.lowerLast other.first || Nat.blt other.last run.lowerFirst ||
    ((Nat.beq run.stride 2 || Nat.beq run.first run.last) && Nat.beq other.stride 2 &&
      Nat.beq ((run.lowerFirst + other.first) % 2) 1)

/-- A test for runs whose lower-case letters are characters, and neither `İ` nor a capital sigma. -/
def CaseRun.wellPlaced (run : CaseRun) : Bool :=
  decide (0 ≤ run.first + run.shift) &&
    (Nat.blt run.lowerLast 0x130 || Nat.blt 0x3A3 run.lowerFirst ||
      (Nat.blt 0x130 run.lowerFirst && Nat.blt run.lowerLast 0x3A3) ||
      (Nat.beq run.stride 2 && Nat.beq (run.lowerFirst % 2) 1 && Nat.blt run.lowerLast 0x3A3)) &&
    (Nat.blt run.lowerLast 0xD800 ||
      (Nat.blt 0xDFFF run.lowerFirst && Nat.blt run.lowerLast 0x110000))

theorem caseRuns_tested :
    (caseRuns.all fun run => run.wellPlaced && caseRuns.all run.misses) = true := by
  decide +kernel

theorem CaseRun.covers_iff {run : CaseRun} {code : Nat} :
    run.covers code = true ↔
      run.first ≤ code ∧ code ≤ run.last ∧ (code - run.first) % run.stride = 0 := by
  simp [CaseRun.covers, and_assoc]

theorem CaseRun.not_covers_of_misses {run other : CaseRun} {code : Nat}
    (hplaced : run.wellPlaced = true) (hmisses : run.misses other = true)
    (hcode : run.covers code = true) : other.covers (code + run.shift).toNat = false := by
  rw [Bool.eq_false_iff, ne_eq, CaseRun.covers_iff]
  rintro ⟨hfirst, hlast, hstride⟩
  rw [CaseRun.covers_iff] at hcode
  obtain ⟨h₁, h₂, h₃⟩ := hcode
  simp only [wellPlaced, Bool.and_eq_true, decide_eq_true_eq] at hplaced
  simp only [misses, lowerFirst, lowerLast, Bool.or_eq_true, Bool.and_eq_true, Nat.beq_eq,
    Nat.blt_eq] at hmisses
  have hnonneg := hplaced.1.1
  rcases hmisses with (h | h) | ⟨⟨hs | hs, ho⟩, h⟩
  · omega
  · omega
  · rw [hs] at h₃
    rw [ho] at hstride
    omega
  · rw [ho] at hstride
    omega

/-- The lower-case letter of a capital letter is a character, is its own lower-case letter, and is neither
`İ` nor a capital sigma. -/
theorem lowerCode_capital {run : CaseRun} {code : Nat} (hrun : run ∈ caseRuns)
    (hcode : run.covers code = true) :
    (caseRuns.find? (·.covers (code + run.shift).toNat)) = none ∧
      (code + run.shift).toNat.isValidChar ∧
      (code + run.shift).toNat ≠ 0x130 ∧ (code + run.shift).toNat ≠ 0x3A3 := by
  have htest := List.all_eq_true.1 caseRuns_tested run hrun
  rw [Bool.and_eq_true] at htest
  obtain ⟨hplaced, hmisses⟩ := htest
  refine ⟨List.find?_eq_none.2 fun other hother => ?_, ?_⟩
  · rw [CaseRun.not_covers_of_misses hplaced (List.all_eq_true.1 hmisses other hother) hcode]
    decide
  · rw [CaseRun.covers_iff] at hcode
    obtain ⟨h₁, h₂, h₃⟩ := hcode
    simp only [CaseRun.wellPlaced, CaseRun.lowerFirst, CaseRun.lowerLast, Bool.or_eq_true,
      Bool.and_eq_true, Nat.beq_eq, Nat.blt_eq, decide_eq_true_eq] at hplaced
    obtain ⟨⟨hnonneg, hspecial⟩, hvalid⟩ := hplaced
    refine ⟨?_, ?_, ?_⟩
    · rcases hvalid with h | h
      · left; omega
      · right; omega
    · rcases hspecial with ((h | h) | h) | ⟨⟨hs, h⟩, h'⟩
      · omega
      · omega
      · omega
      · rw [hs] at h₃; omega
    · rcases hspecial with ((h | h) | h) | ⟨⟨hs, h⟩, h'⟩ <;> omega

/-! ## Characters and texts -/

/-- The character is left as it is by lower case, wherever it stands. -/
def IsLower (c : Char) : Prop :=
  lowerChar c = [c] ∧ c ≠ 'Σ'

theorem isLower_of_find?_eq_none {c : Char} (hfind : caseRuns.find? (·.covers c.toNat) = none)
    (hdot : c ≠ 'İ') (hsigma : c ≠ 'Σ') : IsLower c := by
  refine ⟨?_, hsigma⟩
  simp [lowerChar, hdot, lowerCode, hfind]

theorem isLower_lowerChar {c d : Char} (hc : c ≠ 'Σ') (hd : d ∈ lowerChar c) : IsLower d := by
  unfold lowerChar at hd
  split at hd
  next =>
    simp only [List.mem_cons, List.not_mem_nil, or_false] at hd
    rcases hd with rfl | rfl
    · exact ⟨by decide +kernel, by decide⟩
    · exact ⟨by decide +kernel, by decide⟩
  next hdot =>
    rw [List.mem_singleton] at hd
    subst hd
    cases hfind : caseRuns.find? (·.covers c.toNat) with
    | none =>
      have hself : lowerCode c.toNat = c.toNat := by simp [lowerCode, hfind]
      rw [hself, Char.ofNat_toNat]
      exact isLower_of_find?_eq_none hfind hdot hc
    | some run =>
      have hself : lowerCode c.toNat = (c.toNat + run.shift).toNat := by simp [lowerCode, hfind]
      obtain ⟨hnone, hvalid, h₁, h₂⟩ :=
        lowerCode_capital (List.mem_of_find?_eq_some hfind) (by simpa using List.find?_some hfind)
      have hnat : (Char.ofNat (lowerCode c.toNat)).toNat = (c.toNat + run.shift).toNat := by
        rw [hself, Char.ofNat, dif_pos hvalid]
        rfl
      refine isLower_of_find?_eq_none (by rw [hnat]; exact hnone) ?_ ?_
      · intro h
        exact h₁ (by rw [← hnat, h]; rfl)
      · intro h
        exact h₂ (by rw [← hnat, h]; rfl)

theorem isLower_lowerAfter {before cs : List Char} {d : Char} (h : d ∈ lowerAfter before cs) :
    IsLower d := by
  induction cs generalizing before with
  | nil => simp [lowerAfter] at h
  | cons c cs ih =>
    rw [lowerAfter, List.mem_append] at h
    rcases h with h | h
    · split at h
      next =>
        rw [List.mem_singleton] at h
        subst h
        unfold sigmaBetween
        split
        · exact ⟨by decide +kernel, by decide⟩
        · exact ⟨by decide +kernel, by decide⟩
      next hc => exact isLower_lowerChar hc h
    · exact ih h

theorem lowerAfter_of_isLower {before cs : List Char} (h : ∀ c ∈ cs, IsLower c) :
    lowerAfter before cs = cs := by
  induction cs generalizing before with
  | nil => rfl
  | cons c cs ih =>
    obtain ⟨hc, hsigma⟩ := h c List.mem_cons_self
    rw [lowerAfter, if_neg hsigma, hc, ih fun d hd => h d (List.mem_cons_of_mem _ hd)]
    rfl

/-- Lower case leaves a text in lower case as it is. -/
theorem lowercase_lowercase (text : String) : lowercase (lowercase text) = lowercase text := by
  have h : lowerAfter [] (lowerAfter [] text.toList) = lowerAfter [] text.toList :=
    lowerAfter_of_isLower fun _ hc => isLower_lowerAfter hc
  simp [lowercase, h]

end SymbolicCalc.Text
