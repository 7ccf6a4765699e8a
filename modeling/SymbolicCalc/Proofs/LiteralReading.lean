import SymbolicCalc.Token.Ranked
import SymbolicCalc.Numeric.DecimalLaws
import SymbolicCalc.Text.LowercaseLaws

/-!
# Literals are read back

The text of a finite constant without its sign is a word of digits with one point among them. Whatever the
names in scope are, the word means the constant it was printed from: no function is spelled like it, lower
case leaves it as it is, and the decimal that it spells is the shortest one of the constant, or that one with
a zero behind the point.
-/

namespace SymbolicCalc

/-! ## The characters of a literal -/

theorem mem_of_startsNumber {c : Char} (h : Scope.startsNumber c = true) : c ∈ "0123456789.".toList := by
  simp only [Scope.startsNumber, Bool.or_eq_true, decide_eq_true_eq] at h
  rcases h with hdigit | rfl
  · have hbounds : 48 ≤ c.toNat ∧ c.toNat ≤ 57 := by
      simp only [Char.isDigit, Bool.and_eq_true, decide_eq_true_eq] at hdigit
      exact ⟨UInt32.le_iff_toNat_le.1 hdigit.1, UInt32.le_iff_toNat_le.1 hdigit.2⟩
    have hchar : c = Char.ofNat c.toNat := (Char.ofNat_toNat c).symm
    have hcases : c.toNat = 48 ∨ c.toNat = 49 ∨ c.toNat = 50 ∨ c.toNat = 51 ∨ c.toNat = 52 ∨
        c.toNat = 53 ∨ c.toNat = 54 ∨ c.toNat = 55 ∨ c.toNat = 56 ∨ c.toNat = 57 := by omega
    rcases hcases with h | h | h | h | h | h | h | h | h | h <;> rw [hchar, h] <;> decide
  · decide

theorem startsNumber_of_isDigit {c : Char} (h : c.isDigit = true) : Scope.startsNumber c = true := by
  simp [Scope.startsNumber, h]

theorem isWordChar_of_startsNumber {c : Char} (h : Scope.startsNumber c = true) :
    Token.isWordChar c = true := by
  have hall : "0123456789.".toList.all Token.isWordChar = true := by decide
  exact List.all_eq_true.1 hall c (mem_of_startsNumber h)

theorem isBlank_of_startsNumber {c : Char} (h : Scope.startsNumber c = true) : Text.isBlank c = false := by
  have hall : ("0123456789.".toList.all fun d => !Text.isBlank d) = true := by decide
  have hc := List.all_eq_true.1 hall c (mem_of_startsNumber h)
  rwa [Bool.not_eq_true'] at hc

theorem isLower_of_startsNumber {c : Char} (h : Scope.startsNumber c = true) : Text.IsLower c := by
  have hall : ("0123456789.".toList.all fun d => Text.lowerChar d = [d] ∧ d ≠ 'Σ') = true := by
    decide +kernel
  have hc := of_decide_eq_true (List.all_eq_true.1 hall c (mem_of_startsNumber h))
  exact hc

theorem toLower_of_startsNumber {c : Char} (h : Scope.startsNumber c = true) : c.toLower = c := by
  have hall : ("0123456789.".toList.all fun d => d.toLower = d) = true := by decide
  exact of_decide_eq_true (List.all_eq_true.1 hall c (mem_of_startsNumber h))

/-- No function has a spelling that starts like a number. -/
theorem Elementary.ofSpelling?_of_startsNumber {c : Char} {cs : List Char}
    (hc : Scope.startsNumber c = true) : ofSpelling? (String.ofList (c :: cs)) = none := by
  have hall : (spellings.all fun p => p.1.toList.head?.all fun d => !Scope.startsNumber d) = true := by
    decide
  refine List.lookup_eq_none_iff.2 fun p hp => ?_
  rw [bne_iff_ne]
  intro heq
  have hhead := List.all_eq_true.1 hall p hp
  simp [← heq, hc] at hhead

/-! ## Digits with a point among them -/

/-- A text that stops being a word where a word ends is cut there. -/
theorem span_word {p : Char → Bool} {word : List Char} (hword : ∀ c ∈ word, p c = true) (rest : List Char)
    (hrest : ∀ c ∈ rest.head?, p c = false) :
    (word ++ rest).takeWhile p = word ∧ (word ++ rest).dropWhile p = rest := by
  rw [List.takeWhile_append_of_pos hword, List.dropWhile_append_of_pos hword]
  cases rest with
  | nil => simp
  | cons d ds => simp [hrest d rfl]

namespace Number

theorem readDecimal_of_digits {whole fraction : List Char} (hne : whole ≠ [])
    (hwhole : ∀ c ∈ whole, c.isDigit = true) (hfraction : ∀ c ∈ fraction, c.isDigit = true) :
    readDecimal (whole ++ '.' :: fraction) =
      some ⟨Nat.ofDigitChars 10 (whole ++ fraction) 0, 0 - (fraction.length : Int)⟩ := by
  obtain ⟨htake, hdrop⟩ := span_word hwhole ('.' :: fraction) (by rintro c ⟨⟩; rfl)
  obtain ⟨htake', hdrop'⟩ := span_word hfraction [] nofun
  rw [List.append_nil] at htake' hdrop'
  have hdigits : readDigits (whole ++ fraction) = some (Nat.ofDigitChars 10 (whole ++ fraction) 0) := by
    have hall : (whole ++ fraction).all Char.isDigit = true := by
      rw [List.all_eq_true]
      intro c hc
      rcases List.mem_append.1 hc with hc | hc
      · exact hwhole c hc
      · exact hfraction c hc
    simp [readDigits, hne, hall]
  simp only [readDecimal, htake, hdrop, htake', hdrop', hdigits, readExponent]
  rfl

theorem readDecimal_of_whole {whole : List Char} (hne : whole ≠ []) (hwhole : ∀ c ∈ whole, c.isDigit = true) :
    readDecimal whole = some ⟨Nat.ofDigitChars 10 whole 0, 0⟩ := by
  obtain ⟨htake, hdrop⟩ := span_word hwhole [] nofun
  rw [List.append_nil] at htake hdrop
  have hdigits : readDigits whole = some (Nat.ofDigitChars 10 whole 0) := by
    simp [readDigits, hne, List.all_eq_true.2 hwhole]
  simp only [readDecimal, htake, hdrop, List.append_nil, hdigits, readExponent]
  rfl

/-- Digits behind an optional minus sign are none of the words. -/
theorem read_of_sign {c : Char} {cs : List Char} (isNegative : Bool) (hc : c.isDigit = true) {d : Decimal}
    (hdecimal : readDecimal (c :: cs) = some d) :
    read ((if isNegative then ['-'] else []) ++ c :: cs) = .ok (Binary64.ofOrdinal isNegative d.ordinal) := by
  have hminus : c ≠ '-' := by
    rintro rfl
    cases hc
  have hplus : c ≠ '+' := by
    rintro rfl
    cases hc
  have hlower := toLower_of_startsNumber (startsNumber_of_isDigit hc)
  have hi : c ≠ 'i' := by
    rintro rfl
    cases hc
  have hn : c ≠ 'n' := by
    rintro rfl
    cases hc
  cases isNegative <;> simp [read, splitSign, isWord, hminus, hplus, hlower, hi, hn, hdecimal]

/-- A text that starts with a digit is neither signed nor one of the words. -/
theorem read_of_isDigit {c : Char} {cs : List Char} (hc : c.isDigit = true) {d : Decimal}
    (hdecimal : readDecimal (c :: cs) = some d) :
    read (c :: cs) = .ok (Binary64.ofOrdinal false d.ordinal) :=
  read_of_sign false hc hdecimal

end Number

namespace Decimal

open Binary64

theorem ofDigitChars_append_toDigits (whole : Nat) {fraction : List Char} :
    Nat.ofDigitChars 10 (Nat.toDigits 10 whole ++ fraction) 0 =
      10 ^ fraction.length * whole + Nat.ofDigitChars 10 fraction 0 := by
  rw [Nat.ofDigitChars_append, Nat.ofDigitChars_ten_toDigits, Nat.ofDigitChars_eq_ofDigitChars_zero]

/-- The fourth case of the definition: a whole decimal that is not too large. -/
theorem ordinal_of_whole {coefficient places : Nat} (hne : coefficient ≠ 0) (hplaces : places ≤ 400) :
    ordinal ⟨coefficient, (places : Int)⟩ = nearestOrdinal (coefficient * 10 ^ places * 2 ^ 1074) 1 := by
  have h400 : ¬ 400 < (places : Int) := by omega
  have hsmall : ¬ (places : Int) + (coefficient.log2 / 3 + 1 : Nat) < -400 := by omega
  simp only [ordinal, if_neg hne, if_neg h400, if_neg hsmall, Int.toNat_natCast]
  exact if_pos (Int.natCast_nonneg places)

/-- The zeros of a whole decimal may be written out. -/
theorem ordinal_mul_pow {coefficient places : Nat}
    (h : ordinal ⟨coefficient, (places : Int)⟩ < infinityOrdinal) :
    ordinal ⟨coefficient * 10 ^ places, 0⟩ = ordinal ⟨coefficient, (places : Int)⟩ := by
  by_cases hzero : coefficient = 0
  · subst hzero
    simp [ordinal]
  have hpow : 0 < 10 ^ places := Nat.pow_pos (by decide)
  have hne : coefficient * 10 ^ places ≠ 0 := Nat.mul_ne_zero hzero (Nat.pos_iff_ne_zero.1 hpow)
  have h400 : places ≤ 400 := by
    refine Decidable.byContradiction fun hbig => ?_
    have hbig : 400 < (places : Int) := by omega
    simp [ordinal, hzero, hbig] at h
  have hleft := ordinal_of_whole hne (Nat.zero_le 400)
  rw [Nat.pow_zero, Nat.mul_one] at hleft
  rw [ordinal_of_whole hzero h400]
  exact hleft

/-- A zero behind the point of a whole decimal does not change what it is read as. -/
theorem ordinal_append_zero (whole : Nat) : ordinal ⟨10 * whole, -1⟩ = ordinal ⟨whole, 0⟩ := by
  by_cases hzero : whole = 0
  · subst hzero
    simp [ordinal]
  have hne : 10 * whole ≠ 0 := Nat.mul_ne_zero (by decide) hzero
  have hleft := ordinal_of_places hne (by decide : 0 < 1) (by omega)
  have hright := ordinal_of_whole hzero (Nat.zero_le 400)
  have hscale := nearestOrdinal_mul_right (whole * 2 ^ 1074) 1 (by decide : 0 < 10)
  have hnum : 10 * whole * 2 ^ 1074 = whole * 2 ^ 1074 * 10 := by
    rw [Nat.mul_comm 10, Nat.mul_right_comm]
  have hden : 10 ^ 1 = 1 * 10 := rfl
  rw [Nat.pow_zero, Nat.mul_one] at hright
  refine hleft.trans ?_
  rw [hnum, hden, hscale]
  exact hright.symm

theorem length_leftpad_toDigits {places n : Nat} (hplaces : 0 < places) (h : n < 10 ^ places) :
    ((Nat.toDigits 10 n).leftpad places '0').length = places := by
  have hlen : (Nat.toDigits 10 n).length ≤ places :=
    (Nat.length_toDigits_le_iff (by decide) hplaces).2 h
  simp only [List.leftpad, List.length_append, List.length_replicate]
  omega

theorem ofDigitChars_leftpad_toDigits (places n : Nat) :
    Nat.ofDigitChars 10 ((Nat.toDigits 10 n).leftpad places '0') 0 = n := by
  rw [List.leftpad, Nat.ofDigitChars_append, Nat.ofDigitChars_replicate_zero, Nat.mul_zero,
    Nat.ofDigitChars_ten_toDigits]

end Decimal

/-! ## The literal of a finite double -/

theorem isDigit_of_mem_toDigits {n : Nat} {c : Char} (h : c ∈ Nat.toDigits 10 n) : c.isDigit = true :=
  Nat.isDigit_of_mem_toDigits (by decide) (by decide) h

namespace Decimal

open Binary64

/-- The digits of a finite double: those of a whole number, or digits with a point among them, which spell a
decimal of the double. -/
theorem exists_positional {n : Nat} (hn : n < infinityOrdinal) :
    (∃ whole : Nat, (shortest n).positional = Nat.toDigits 10 whole ∧ ordinal ⟨whole, 0⟩ = n) ∨
    (∃ (whole : Nat) (fraction : List Char),
      (shortest n).positional = Nat.toDigits 10 whole ++ '.' :: fraction ∧
      (∀ c ∈ fraction, c.isDigit = true) ∧
      ordinal ⟨10 ^ fraction.length * whole + Nat.ofDigitChars 10 fraction 0,
        0 - (fraction.length : Int)⟩ = n) := by
  have hordinal := ordinal_shortest hn
  generalize shortest n = d at hordinal
  obtain ⟨coefficient, exponent⟩ := d
  by_cases hexp : 0 ≤ exponent
  · obtain ⟨places, rfl⟩ := Int.eq_ofNat_of_zero_le hexp
    refine .inl ⟨coefficient * 10 ^ places, by simp [positional], ?_⟩
    exact (ordinal_mul_pow (by rw [hordinal]; exact hn)).trans hordinal
  · obtain ⟨places, rfl⟩ : ∃ places : Nat, exponent = -(places : Int) := ⟨exponent.natAbs, by omega⟩
    have hplaces : 0 < places := by omega
    have hmod : coefficient % 10 ^ places < 10 ^ places := Nat.mod_lt _ (Nat.pow_pos (by decide))
    refine .inr ⟨coefficient / 10 ^ places, (Nat.toDigits 10 (coefficient % 10 ^ places)).leftpad places '0',
      ?_, ?_, ?_⟩
    · simp only [positional, if_neg hexp, Int.neg_neg, Int.toNat_natCast]
    · intro c hc
      rcases List.mem_append.1 hc with hc | hc
      · rw [List.eq_of_mem_replicate hc]
        rfl
      · exact isDigit_of_mem_toDigits hc
    · rw [length_leftpad_toDigits hplaces hmod, ofDigitChars_leftpad_toDigits, Nat.div_add_mod]
      simpa using hordinal

end Decimal

namespace Expression

open Binary64 Decimal

/-- The literal of a finite double: digits, a point, and digits that spell a decimal of the double. -/
theorem exists_literalChars {n : Nat} (hn : n < infinityOrdinal) :
    ∃ (whole : Nat) (fraction : List Char),
      literalChars n = Nat.toDigits 10 whole ++ '.' :: fraction ∧ (∀ c ∈ fraction, c.isDigit = true) ∧
      ordinal ⟨10 ^ fraction.length * whole + Nat.ofDigitChars 10 fraction 0,
        0 - (fraction.length : Int)⟩ = n := by
  rcases exists_positional hn with ⟨whole, hdigits, hordinal⟩ | ⟨whole, fraction, hdigits, hfraction, hordinal⟩
  · have hpoint : (Nat.toDigits 10 whole).contains '.' = false := by
      rw [List.contains_eq_mem, decide_eq_false_iff_not]
      intro hmem
      cases isDigit_of_mem_toDigits hmem
    refine ⟨whole, ['0'], ?_, ?_, ?_⟩
    · simp only [literalChars, hdigits, hpoint]
      rfl
    · intro c hc
      rw [List.mem_singleton.1 hc]
      rfl
    · exact (ordinal_append_zero whole).trans hordinal
  · exact ⟨whole, fraction, by simp [literalChars, hdigits], hfraction, hordinal⟩

/-- A literal is a word of digits and points that starts with a digit, and it is read as its double. -/
theorem literalChars_spec (n : Fin infinityOrdinal) :
    (∀ c ∈ literalChars n, Scope.startsNumber c = true) ∧
      (∃ c cs, literalChars n = c :: cs ∧ c.isDigit = true) ∧
      Number.read (literalChars n) = .ok ⟨false, .finite n⟩ := by
  obtain ⟨whole, fraction, hliteral, hfraction, hordinal⟩ := exists_literalChars n.isLt
  have hwhole : ∀ c ∈ Nat.toDigits 10 whole, c.isDigit = true := fun c hc => isDigit_of_mem_toDigits hc
  have hdecimal := Number.readDecimal_of_digits Nat.toDigits_ne_nil hwhole hfraction
  obtain ⟨c, cs, hcs⟩ := List.exists_cons_of_ne_nil (Nat.toDigits_ne_nil (n := whole) (b := 10))
  have hc : c.isDigit = true := hwhole c (by rw [hcs]; exact List.mem_cons_self)
  refine ⟨?_, ⟨c, cs ++ '.' :: fraction, by rw [hliteral, hcs, List.cons_append], hc⟩, ?_⟩
  · intro d hd
    rw [hliteral] at hd
    rcases List.mem_append.1 hd with hd | hd
    · exact startsNumber_of_isDigit (hwhole d hd)
    · rcases List.mem_cons.1 hd with rfl | hd
      · rfl
      · exact startsNumber_of_isDigit (hfraction d hd)
  · rw [ofDigitChars_append_toDigits] at hdecimal
    rw [hcs, List.cons_append] at hliteral hdecimal
    rw [hliteral, Number.read_of_isDigit hc hdecimal, hordinal]
    simp [ofOrdinal, Magnitude.ofOrdinal]

end Expression

namespace Number

open Binary64 Decimal

/-- The digits of a finite double are a word of digits and points that starts with a digit, and they are read as
the double. -/
theorem positional_spec (n : Fin infinityOrdinal) :
    (∀ c ∈ (shortest n).positional, Scope.startsNumber c = true) ∧
      (∃ c cs, (shortest n).positional = c :: cs ∧ c.isDigit = true) ∧
      ∃ d, readDecimal (shortest n).positional = some d ∧ d.ordinal = n := by
  have hwhole (whole : Nat) : ∀ c ∈ Nat.toDigits 10 whole, c.isDigit = true := fun c hc =>
    isDigit_of_mem_toDigits hc
  rcases exists_positional n.isLt with ⟨whole, hdigits, hordinal⟩ | ⟨whole, fraction, hdigits, hfraction, hordinal⟩
  all_goals
    obtain ⟨c, cs, hcs⟩ := List.exists_cons_of_ne_nil (Nat.toDigits_ne_nil (n := whole) (b := 10))
    have hc : c.isDigit = true := hwhole whole c (by rw [hcs]; exact List.mem_cons_self)
  · have hdecimal := readDecimal_of_whole Nat.toDigits_ne_nil (hwhole whole)
    rw [Nat.ofDigitChars_ten_toDigits] at hdecimal
    rw [hdigits]
    exact ⟨fun d hd => startsNumber_of_isDigit (hwhole whole d hd), ⟨c, cs, hcs, hc⟩, _, hdecimal, hordinal⟩
  · have hdecimal := readDecimal_of_digits Nat.toDigits_ne_nil (hwhole whole) hfraction
    rw [ofDigitChars_append_toDigits] at hdecimal
    rw [hdigits]
    refine ⟨fun d hd => ?_, ⟨c, cs ++ '.' :: fraction, by rw [hcs, List.cons_append], hc⟩, _, hdecimal, hordinal⟩
    rcases List.mem_append.1 hd with hd | hd
    · exact startsNumber_of_isDigit (hwhole whole d hd)
    · rcases List.mem_cons.1 hd with rfl | hd
      · rfl
      · exact startsNumber_of_isDigit (hfraction d hd)

theorem toList_text {x : Binary64} {n : Fin infinityOrdinal} (h : x.magnitude = .finite n) :
    (text x).toList = (if x.negative then ['-'] else []) ++ (shortest n).positional := by
  simp only [text, h, String.toList_append, String.toList_ofList]
  cases x.negative <;> rfl

/-- The text of a finite double is read as the double, the sign of a zero included. -/
theorem read_text {x : Binary64} {n : Fin infinityOrdinal} (h : x.magnitude = .finite n) :
    read (text x).toList = .ok x := by
  obtain ⟨isNegative, magnitude⟩ := x
  obtain rfl : magnitude = .finite n := h
  obtain ⟨-, ⟨c, cs, hdigits, hc⟩, d, hdecimal, hordinal⟩ := positional_spec n
  have hfinite : Magnitude.ofOrdinal d.ordinal = .finite n := by
    simp [Magnitude.ofOrdinal, hordinal]
  rw [hdigits] at hdecimal
  rw [toList_text rfl, hdigits, read_of_sign isNegative hc hdecimal, ofOrdinal, hfinite]

end Number

/-- In every scope the literal of a double means the double. -/
theorem Scope.resolve?_literalChars (scope : Scope) (depth : Nat) (n : Fin Binary64.infinityOrdinal) :
    scope.resolve? depth (Text.lowercase (String.ofList (Expression.literalChars n))) =
      some (.leaf, .leaf (.const ⟨false, .finite n⟩)) := by
  obtain ⟨hchars, ⟨c, cs, hliteral, hc⟩, hread⟩ := Expression.literalChars_spec n
  have hstart := startsNumber_of_isDigit hc
  have hlower : Text.lowercase (String.ofList (Expression.literalChars n)) =
      String.ofList (Expression.literalChars n) := by
    have h : Text.lowerAfter [] (Expression.literalChars n) = Expression.literalChars n :=
      Text.lowerAfter_of_isLower fun d hd => isLower_of_startsNumber (hchars d hd)
    simp [Text.lowercase, h]
  have hoperator : Operator.ofText? (String.ofList (Expression.literalChars n)) = none := by
    refine Token.ofText?_eq_none_of_isWordChar fun d hd => isWordChar_of_startsNumber (hchars d ?_)
    rwa [String.toList_ofList] at hd
  have hspelling : Elementary.ofSpelling? (String.ofList (Expression.literalChars n)) = none := by
    rw [hliteral]
    exact Elementary.ofSpelling?_of_startsNumber hstart
  have hmeaning : scope.meaning? (String.ofList (Expression.literalChars n)) =
      some (.const ⟨false, .finite n⟩) := by
    rw [meaning?_of_startsNumber (by rw [String.toList_ofList, hliteral]) hstart, ← hliteral, hread]
    rfl
  simp only [hlower, resolve?, hoperator, hspelling, hmeaning]

end SymbolicCalc
