import SymbolicCalc.Proofs.PrintedValue

/-!
# Doubles that an operator leaves alone

What zero and one do under the four operations on doubles: a zero added or taken away, a factor one and a
denominator one give the other operand again, and a factor or a numerator zero gives zero or no number. Doubles
are compared as numbers, so up to the sign of zero, and operators do not tell the two zeros apart, a
denominator excepted.

An operator is calculated on unpacked doubles, and only where the result needs more than 53 bits is it
rounded. A product with one has the mantissa of the other factor, shifted by 52 zeros that rounding takes off
again.
-/

namespace SymbolicCalc.Binary64

open Float.Model UnpackedFloat

/-! ## Unpacked doubles -/

/-- The double as the machine takes it apart. -/
def unpacked (x : Binary64) : UnpackedFloat :=
  x.toFloat.toModel.unpack

/-- The double that the machine gives for a result on `operands`. -/
def packed (operands : List Binary64) (u : UnpackedFloat) : Binary64 :=
  ofResult operands ⟨Float.Model.pack u⟩

variable {x x' y y' z : Binary64} {u u' w w' : UnpackedFloat} {operands others : List Binary64}

theorem unpacked_of_isNan (h : x.isNan = true) : unpacked x = .notANumber := by
  obtain ⟨negative, magnitude⟩ := x
  cases magnitude_of_isNan h
  cases negative <;> rfl

theorem unpacked_of_isZero (h : x.isZero = true) : ∃ s, unpacked x = .zero s := by
  obtain ⟨negative, magnitude⟩ := x
  obtain rfl : magnitude = .ofOrdinal 0 := of_decide_eq_true h
  cases negative with
  | false => exact ⟨.positive, rfl⟩
  | true => exact ⟨.negative, rfl⟩

theorem one_eq : one = ⟨false, .finite ⟨1023 * 2 ^ 52, by decide⟩⟩ := by
  decide +kernel

/-- The number 1, unpacked. -/
def unpackedOne : UnpackedFloat :=
  .finite .positive (2 ^ 52) (-52) (by decide)

theorem unpacked_one : unpacked one = unpackedOne := by
  rw [one_eq]
  rfl

theorem isNan_packed_notANumber (operands : List Binary64) :
    (packed operands .notANumber).isNan = true := by
  show ((operands.find? isNan).getD (nan true)).isNan = true
  cases hfind : operands.find? isNan with
  | none => rfl
  | some x => exact List.find?_some hfind

theorem packed_zero (operands : List Binary64) (s : Sign) : (packed operands (.zero s)).isZero = true := by
  cases s with
  | positive =>
    have h := ofResult_toFloat operands false ⟨0, by decide⟩
    exact (congrArg isZero h).trans (by decide)
  | negative =>
    have h := ofResult_toFloat operands true ⟨0, by decide⟩
    exact (congrArg isZero h).trans (by decide)

theorem float_eq_pack_unpacked (x : Binary64) :
    (⟨Float.Model.pack (unpacked x)⟩ : Float) = x.toFloat := by
  obtain ⟨negative, magnitude⟩ := x
  cases magnitude with
  | nan => cases negative <;> rfl
  | infinite => cases negative <;> rfl
  | finite n =>
    apply float_eq_of_bits
    show pack .binary64 (unpack .binary64 (toFloat ⟨negative, .finite n⟩).toModel.toBits.toBitVec) = _
    rw [toBitVec_toFloat, pack_unpack_packComponents (exponent_ne_allOnes n)]

/-- A number is packed as it was unpacked. -/
theorem packed_unpacked (hx : x.isNan = false) (operands : List Binary64) :
    packed operands (unpacked x) = x := by
  unfold packed
  rw [float_eq_pack_unpacked]
  obtain ⟨negative, magnitude⟩ := x
  cases magnitude with
  | nan => cases hx
  | infinite => cases negative <;> rfl
  | finite n => exact ofResult_toFloat operands negative n

/-! ## Results as numbers -/

theorem isNan_of_isZero (h : x.isZero = true) : x.isNan = false := by
  rw [isZero, decide_eq_true_iff] at h
  rw [isNan, h]
  decide

theorem same_iff : same x y = true ↔
    x.isNan = false ∧ (x = y ∨ x.isZero = true ∧ y.isZero = true) := by
  rw [same, Bool.and_eq_true, Bool.not_eq_true', Bool.or_eq_true, decide_eq_true_iff,
    Bool.and_eq_true]

theorem same_symm (h : same x y = true) : same y x = true := by
  obtain ⟨hnumber, rfl | ⟨hx, hy⟩⟩ := same_iff.1 h
  · exact h
  · exact same_iff.2 ⟨isNan_of_isZero hy, .inr ⟨hy, hx⟩⟩

theorem same_trans (hxy : same x y = true) (hyz : same y z = true) : same x z = true := by
  obtain ⟨hnumber, rfl | ⟨hx, hy⟩⟩ := same_iff.1 hxy
  · exact hyz
  · obtain ⟨-, rfl | ⟨-, hz⟩⟩ := same_iff.1 hyz
    · exact hxy
    · exact same_iff.2 ⟨hnumber, .inr ⟨hx, hz⟩⟩

/-- Equal, or both zero. -/
def SameUnpacked (u u' : UnpackedFloat) : Prop :=
  u = u' ∨ (∃ s, u = .zero s) ∧ ∃ s, u' = .zero s

theorem SameUnpacked.refl (u : UnpackedFloat) : SameUnpacked u u :=
  .inl rfl

theorem SameUnpacked.zero (s s' : Sign) : SameUnpacked (.zero s) (.zero s') :=
  .inr ⟨⟨s, rfl⟩, ⟨s', rfl⟩⟩

theorem SameUnpacked.symm (h : SameUnpacked u u') : SameUnpacked u' u := by
  rcases h with rfl | ⟨hu, hu'⟩
  · exact .refl _
  · exact .inr ⟨hu', hu⟩

theorem SameUnpacked.trans (h : SameUnpacked u u') (h' : SameUnpacked u' w) : SameUnpacked u w := by
  rcases h with rfl | ⟨hu, s, rfl⟩
  · exact h'
  · rcases h' with rfl | ⟨-, hw⟩
    · exact .inr ⟨hu, ⟨s, rfl⟩⟩
    · exact .inr ⟨hu, hw⟩

theorem SameUnpacked.of_same (h : same x y = true) : SameUnpacked (unpacked x) (unpacked y) := by
  obtain ⟨-, rfl | ⟨hx, hy⟩⟩ := same_iff.1 h
  · exact .refl _
  · exact .inr ⟨unpacked_of_isZero hx, unpacked_of_isZero hy⟩

theorem SameUnpacked.same_packed (h : SameUnpacked w w') (hnumber : (packed operands w).isNan = false)
    (others : List Binary64) : same (packed operands w) (packed others w') = true := by
  rcases h with rfl | ⟨⟨s, rfl⟩, ⟨s', rfl⟩⟩
  · rcases ofResult_agree operands others ⟨Float.Model.pack w⟩ with heq | ⟨hnan, -⟩
    · exact same_iff.2 ⟨hnumber, .inl heq⟩
    · exact absurd (hnan.symm.trans hnumber) (by decide)
  · exact same_iff.2 ⟨hnumber, .inr ⟨packed_zero operands s, packed_zero others s'⟩⟩

/-- A result that is unpacked like a double is that double, if it is a number. -/
theorem SameUnpacked.packed_same (h : SameUnpacked w (unpacked z))
    (hnumber : (packed operands w).isNan = false) : same (packed operands w) z = true := by
  have hz : z.isNan = false := by
    rw [← Bool.not_eq_true]
    intro hnan
    rw [unpacked_of_isNan hnan] at h
    obtain rfl : w = .notANumber := by
      rcases h with h | ⟨-, s, h⟩
      · exact h
      · cases h
    rw [isNan_packed_notANumber] at hnumber
    cases hnumber
  have hpacked := h.same_packed hnumber []
  rwa [packed_unpacked hz] at hpacked

/-! ## Rounding what needs no rounding -/

/-- A mantissa with the exponent that it has in a double. -/
def Canonical (m : Nat) (e : Int) : Prop :=
  e = Format.binary64.targetExponent (totalExponent m e)

theorem canonical_iff {m : Nat} {e : Int} : Canonical m e ↔ e = max (m.log2 + 1 + e - 53) (-1074) :=
  Iff.rfl

theorem canonical_of_unpacked {s : Sign} {m : Nat} {e : Int} {hm : 0 < m}
    (h : unpacked x = .finite s m e hm) : Canonical m e := by
  obtain ⟨negative, magnitude⟩ := x
  cases magnitude with
  | nan => cases negative <;> cases h
  | infinite => cases negative <;> cases h
  | finite n =>
    have hfields : unpacked ⟨negative, .finite n⟩ = unpack .binary64
        (packComponents .binary64 (machineSign negative) (.ofNat 11 (n / 2 ^ 52))
          (.ofNat 52 (n % 2 ^ 52))) :=
      congrArg (unpack .binary64) (toBitVec_toFloat negative n)
    rw [hfields] at h
    rw [canonical_iff]
    generalize BitVec.ofNat 52 (n % 2 ^ 52) = mantissa at h
    have hones := exponent_ne_allOnes n
    generalize BitVec.ofNat 11 (n / 2 ^ 52) = exponent at h hones
    by_cases hzero : exponent = 0#11
    · subst hzero
      by_cases hmantissa : mantissa = 0#52
      · subst hmantissa
        rw [unpack_packComponents_zero] at h
        cases h
      · have hpos := toNat_pos_of_ne_zero hmantissa
        rw [unpack_packComponents_subnormal hmantissa hpos] at h
        cases h
        have hlog := log2_subnormal hpos
        omega
    · have hpos : 0 < 2 ^ 52 + mantissa.toNat := by omega
      rw [unpack_packComponents_normal hones hzero hpos] at h
      cases h
      have hexponent : exponent.toNat ≠ 0 := fun h => hzero (BitVec.eq_of_toNat_eq h)
      rw [log2_normal]
      omega

theorem log2_pow_mul {m : Nat} (hm : 0 < m) (k : Nat) : (2 ^ k * m).log2 = k + m.log2 := by
  induction k with
  | zero => rw [Nat.pow_zero, Nat.one_mul, Nat.zero_add]
  | succ k ih =>
    have hpos : 0 < 2 ^ k * m := Nat.mul_pos (Nat.two_pow_pos k) hm
    rw [Nat.pow_succ, Nat.mul_right_comm, Nat.mul_comm _ 2, Nat.log2_two_mul (by omega), ih]
    omega

theorem shiftRight_shifted (m k : Nat) :
    (⟨2 ^ k * m, false, false⟩ : ExtendedMantissa) >>> k = ⟨m, false, false⟩ := by
  show k.repeat ExtendedMantissa.shiftRightOne _ = _
  induction k generalizing m with
  | zero => rw [Nat.pow_zero, Nat.one_mul]; rfl
  | succ k ih =>
    have hdouble : 2 ^ (k + 1) * m = 2 ^ k * (2 * m) := by rw [Nat.pow_succ, Nat.mul_assoc]
    show ExtendedMantissa.shiftRightOne (k.repeat ExtendedMantissa.shiftRightOne _) = _
    rw [hdouble, ih]
    simp [ExtendedMantissa.shiftRightOne]

/-- Zeros at the end of a mantissa are taken off again. -/
theorem shiftToTargetExponent_shifted {m : Nat} {e : Int} (hm : 0 < m) (he : Canonical m e) (k : Nat) :
    shiftToTargetExponent .binary64 (2 ^ k * m) (e - k) .exact = (⟨m, false, false⟩, e) := by
  have htotal : totalExponent (2 ^ k * m) (e - k) = totalExponent m e := by
    unfold totalExponent
    rw [log2_pow_mul hm]
    omega
  have hshift : (e - (e - k)).toNat = k := by omega
  unfold shiftToTargetExponent shiftToExponent
  rw [htotal, ← he]
  simp only [hshift]
  exact Prod.ext (shiftRight_shifted m k) (by omega)

theorem roundWithAccuracy_shifted {s : Sign} {m : Nat} {e : Int} (hm : 0 < m) (he : Canonical m e)
    (k : Nat) : roundWithAccuracy .binary64 s (2 ^ k * m) (e - k) .exact = .finite s m e hm := by
  have hsecond : shiftToTargetExponent .binary64 m e .exact = (⟨m, false, false⟩, e) := by
    simpa using shiftToTargetExponent_shifted hm he 0
  have hrounded : (⟨m, false, false⟩ : ExtendedMantissa).roundedMantissa = m := rfl
  unfold roundWithAccuracy
  simp only [shiftToTargetExponent_shifted hm he k, hrounded, hsecond]
  exact dif_neg (Nat.pos_iff_ne_zero.1 hm)

/-! ## Operations on unpacked doubles -/

theorem sign_positive_mul (s : Sign) : Sign.positive * s = s := by
  cases s <;> rfl

theorem sign_mul_positive (s : Sign) : s * Sign.positive = s := by
  cases s <;> rfl

theorem sign_div_positive (s : Sign) : s / Sign.positive = s := by
  cases s <;> rfl

theorem one_mul_unpacked (x : Binary64) : UnpackedFloat.mul .binary64 unpackedOne (unpacked x) = unpacked x := by
  cases h : unpacked x with
  | notANumber => rfl
  | infinity s => exact congrArg UnpackedFloat.infinity (sign_positive_mul s)
  | zero s => exact congrArg UnpackedFloat.zero (sign_positive_mul s)
  | finite s m e hm =>
    show roundWithAccuracy .binary64 (.positive * s) (2 ^ 52 * m) (-52 + e) .exact = _
    rw [sign_positive_mul, Int.add_comm]
    exact roundWithAccuracy_shifted hm (canonical_of_unpacked h) 52

theorem mul_one_unpacked (x : Binary64) : UnpackedFloat.mul .binary64 (unpacked x) unpackedOne = unpacked x := by
  cases h : unpacked x with
  | notANumber => rfl
  | infinity s => exact congrArg UnpackedFloat.infinity (sign_mul_positive s)
  | zero s => exact congrArg UnpackedFloat.zero (sign_mul_positive s)
  | finite s m e hm =>
    show roundWithAccuracy .binary64 (s * .positive) (m * 2 ^ 52) (e + -52) .exact = _
    rw [sign_mul_positive, Nat.mul_comm]
    exact roundWithAccuracy_shifted hm (canonical_of_unpacked h) 52

/-- A quotient with the denominator one is calculated to 53 or 54 bits, of which the last is zero. -/
theorem divCore_one {m : Nat} {e : Int} (he : Canonical m e) :
    ∃ k : Nat, divCore .binary64 m e (2 ^ 52) (-52) = (2 ^ k * m, e - k, .exact) := by
  have hlog : (2 ^ 52).log2 = 52 := by decide
  have htotal : totalExponent m e - totalExponent (2 ^ 52) (-52) = m.log2 + e := by
    unfold totalExponent
    rw [hlog]
    omega
  rw [canonical_iff] at he
  have htarget : min (e - -52) (Format.binary64.targetExponent (m.log2 + e)) =
      max (m.log2 + e - 53) (-1074) := by
    show min (e - -52) (max ((m.log2 : Int) + e - 53) (-1074)) = _
    omega
  obtain ⟨k, hk⟩ : ∃ k : Nat, (k : Int) = e - max (m.log2 + e - 53) (-1074) :=
    ⟨(e - max (m.log2 + e - 53) (-1074)).toNat, by omega⟩
  have hshift : (e - -52 - max (m.log2 + e - 53) (-1074)).toNat = k + 52 := by omega
  have hmantissa : m <<< (k + 52) = 2 ^ k * m * 2 ^ 52 := by
    rw [Nat.shiftLeft_eq, Nat.pow_add, ← Nat.mul_assoc, Nat.mul_comm m]
  refine ⟨k, ?_⟩
  unfold divCore
  rw [htotal, htarget]
  simp only [hshift, hmantissa, Nat.mul_mod_left, Nat.mul_div_cancel _ (Nat.two_pow_pos 52)]
  refine Prod.ext rfl (Prod.ext ?_ rfl)
  show max ((m.log2 : Int) + e - 53) (-1074) = e - k
  omega

theorem div_one_unpacked (x : Binary64) : UnpackedFloat.div .binary64 (unpacked x) unpackedOne = unpacked x := by
  cases h : unpacked x with
  | notANumber => rfl
  | infinity s => exact congrArg UnpackedFloat.infinity (sign_div_positive s)
  | zero s => exact congrArg UnpackedFloat.zero (sign_div_positive s)
  | finite s m e hm =>
    have hcanonical := canonical_of_unpacked h
    obtain ⟨k, hcore⟩ := divCore_one hcanonical
    show (let (m, e, acc) := divCore .binary64 m e (2 ^ 52) (-52)
      roundWithAccuracy .binary64 (s / Sign.positive) m e acc) = _
    rw [hcore, sign_div_positive]
    exact roundWithAccuracy_shifted hm hcanonical k

theorem zero_add_unpacked (s : Sign) (u : UnpackedFloat) :
    SameUnpacked (UnpackedFloat.add .binary64 (.zero s) u) u := by
  cases u with
  | notANumber => exact .refl _
  | infinity s' => exact .refl _
  | zero s' => exact .inr ⟨⟨_, (apply_ite UnpackedFloat.zero _ _ _).symm⟩, ⟨s', rfl⟩⟩
  | finite s' m e hm => exact .refl _

theorem add_zero_unpacked (u : UnpackedFloat) (s : Sign) :
    SameUnpacked (UnpackedFloat.add .binary64 u (.zero s)) u := by
  cases u with
  | notANumber => exact .refl _
  | infinity s' => exact .refl _
  | zero s' => exact .inr ⟨⟨_, (apply_ite UnpackedFloat.zero _ _ _).symm⟩, ⟨s', rfl⟩⟩
  | finite s' m e hm => exact .refl _

theorem sub_zero_unpacked (u : UnpackedFloat) (s : Sign) :
    SameUnpacked (UnpackedFloat.sub .binary64 u (.zero s)) u := by
  cases u with
  | notANumber => exact .refl _
  | infinity s' => exact .refl _
  | zero s' => exact .inr ⟨⟨_, (apply_ite UnpackedFloat.zero _ _ _).symm⟩, ⟨s', rfl⟩⟩
  | finite s' m e hm => exact .refl _

/-- Zero, unless it is no number. -/
def Vanishes (u : UnpackedFloat) : Prop :=
  u = .notANumber ∨ ∃ s, u = .zero s

theorem zero_mul_unpacked (s : Sign) (u : UnpackedFloat) :
    Vanishes (UnpackedFloat.mul .binary64 (.zero s) u) := by
  cases u with
  | notANumber | infinity => exact .inl rfl
  | zero | finite => exact .inr ⟨_, rfl⟩

theorem mul_zero_unpacked (u : UnpackedFloat) (s : Sign) :
    Vanishes (UnpackedFloat.mul .binary64 u (.zero s)) := by
  cases u with
  | notANumber | infinity => exact .inl rfl
  | zero | finite => exact .inr ⟨_, rfl⟩

theorem zero_div_unpacked (s : Sign) (u : UnpackedFloat) :
    Vanishes (UnpackedFloat.div .binary64 (.zero s) u) := by
  cases u with
  | notANumber | zero => exact .inl rfl
  | infinity | finite => exact .inr ⟨_, rfl⟩

theorem Vanishes.packed_same (h : Vanishes w) (hnumber : (packed operands w).isNan = false) :
    same (packed operands w) zero = true := by
  rcases h with rfl | ⟨s, rfl⟩
  · rw [isNan_packed_notANumber] at hnumber
    cases hnumber
  · exact SameUnpacked.packed_same (.zero s .positive) hnumber

/-- An operation that does not tell the two zeros apart. -/
def ZeroBlind (g : UnpackedFloat → UnpackedFloat → UnpackedFloat) : Prop :=
  ∀ u u' w w', SameUnpacked u u' → SameUnpacked w w' → SameUnpacked (g u w) (g u' w')

variable {g : UnpackedFloat → UnpackedFloat → UnpackedFloat}

theorem sameUnpacked_left (h : SameUnpacked u u')
    (hzero : ∀ s s', SameUnpacked (g (.zero s) w) (g (.zero s') w)) : SameUnpacked (g u w) (g u' w) := by
  rcases h with rfl | ⟨⟨s, rfl⟩, ⟨s', rfl⟩⟩
  · exact .refl _
  · exact hzero s s'

theorem sameUnpacked_right (h : SameUnpacked w w')
    (hzero : ∀ s s', SameUnpacked (g u (.zero s)) (g u (.zero s'))) : SameUnpacked (g u w) (g u w') := by
  rcases h with rfl | ⟨⟨s, rfl⟩, ⟨s', rfl⟩⟩
  · exact .refl _
  · exact hzero s s'

theorem zeroBlind_add : ZeroBlind (UnpackedFloat.add .binary64) := by
  intro u u' w w' hu hw
  refine (sameUnpacked_left hu fun s s' => ?_).trans (sameUnpacked_right hw fun s s' => ?_)
  · exact (zero_add_unpacked s w).trans (zero_add_unpacked s' w).symm
  · exact (add_zero_unpacked u' s).trans (add_zero_unpacked u' s').symm

theorem zeroBlind_sub : ZeroBlind (UnpackedFloat.sub .binary64) := by
  intro u u' w w' hu hw
  refine (sameUnpacked_left hu fun s s' => ?_).trans (sameUnpacked_right hw fun s s' => ?_)
  · cases w with
    | zero r => exact (sub_zero_unpacked _ r).trans ((SameUnpacked.zero s s').trans (sub_zero_unpacked _ r).symm)
    | notANumber | infinity | finite => exact .refl _
  · exact (sub_zero_unpacked u' s).trans (sub_zero_unpacked u' s').symm

theorem zeroBlind_mul : ZeroBlind (UnpackedFloat.mul .binary64) := by
  intro u u' w w' hu hw
  refine (sameUnpacked_left hu fun s s' => ?_).trans (sameUnpacked_right hw fun s s' => ?_)
  · cases w with
    | notANumber | infinity => exact .refl _
    | zero | finite => exact .zero _ _
  · cases u' with
    | notANumber | infinity => exact .refl _
    | zero | finite => exact .zero _ _

theorem sameUnpacked_div_left (h : SameUnpacked u u') (w : UnpackedFloat) :
    SameUnpacked (UnpackedFloat.div .binary64 u w) (UnpackedFloat.div .binary64 u' w) := by
  refine sameUnpacked_left h fun s s' => ?_
  cases w with
  | notANumber | zero => exact .refl _
  | infinity | finite => exact .zero _ _

/-! ## Operations on doubles -/

/-- There is only one number one. -/
theorem eq_one_of_same (h : same x one = true) : x = one := by
  obtain ⟨-, h | ⟨-, hzero⟩⟩ := same_iff.1 h
  · exact h
  · rw [one_eq] at hzero
    cases hzero

theorem unpacked_of_same_one (h : same x one = true) : unpacked x = unpackedOne := by
  rw [eq_one_of_same h, unpacked_one]

theorem unpacked_of_same_zero (h : same x zero = true) : ∃ s, unpacked x = .zero s := by
  obtain ⟨-, rfl | ⟨hzero, -⟩⟩ := same_iff.1 h
  · exact ⟨.positive, rfl⟩
  · exact unpacked_of_isZero hzero

/-- The machine calculates the operator by the operation `g` on unpacked doubles. -/
structure Calculates (op : Operator) (g : UnpackedFloat → UnpackedFloat → UnpackedFloat) : Prop where
  operate_eq (x y : Binary64) : operate op x y = packed [x, y] (g (unpacked x) (unpacked y))
  nan_left (u : UnpackedFloat) : g .notANumber u = .notANumber
  nan_right (u : UnpackedFloat) : g u .notANumber = .notANumber

theorem calculates_add : Calculates .add (UnpackedFloat.add .binary64) where
  operate_eq _ _ := rfl
  nan_left _ := rfl
  nan_right u := by cases u <;> rfl

theorem calculates_sub : Calculates .sub (UnpackedFloat.sub .binary64) where
  operate_eq _ _ := rfl
  nan_left _ := rfl
  nan_right u := by cases u <;> rfl

theorem calculates_mul : Calculates .mul (UnpackedFloat.mul .binary64) where
  operate_eq _ _ := rfl
  nan_left _ := rfl
  nan_right u := by cases u <;> rfl

theorem calculates_div : Calculates .div (UnpackedFloat.div .binary64) where
  operate_eq _ _ := rfl
  nan_left _ := rfl
  nan_right u := by cases u <;> rfl

variable {op : Operator}

/-- What is not a number does not become one. -/
theorem Calculates.isNan_operands (hg : Calculates op g) (h : (operate op x y).isNan = false) :
    x.isNan = false ∧ y.isNan = false := by
  rw [hg.operate_eq] at h
  constructor
  · rw [← Bool.not_eq_true]
    intro hx
    rw [unpacked_of_isNan hx, hg.nan_left, isNan_packed_notANumber] at h
    cases h
  · rw [← Bool.not_eq_true]
    intro hy
    rw [unpacked_of_isNan hy, hg.nan_right, isNan_packed_notANumber] at h
    cases h

theorem Calculates.same_operate (hg : Calculates op g)
    (h : SameUnpacked (g (unpacked x) (unpacked y)) (g (unpacked x') (unpacked y')))
    (hnumber : (operate op x y).isNan = false) : same (operate op x y) (operate op x' y') = true := by
  rw [hg.operate_eq] at hnumber ⊢
  rw [hg.operate_eq]
  exact h.same_packed hnumber _

theorem Calculates.same_of_unpacked (hg : Calculates op g)
    (h : SameUnpacked (g (unpacked x) (unpacked y)) (unpacked z))
    (hnumber : (operate op x y).isNan = false) : same (operate op x y) z = true := by
  rw [hg.operate_eq] at hnumber ⊢
  exact h.packed_same hnumber

theorem Calculates.same_zero (hg : Calculates op g) (h : Vanishes (g (unpacked x) (unpacked y)))
    (hnumber : (operate op x y).isNan = false) : same (operate op x y) zero = true := by
  rw [hg.operate_eq] at hnumber ⊢
  exact h.packed_same hnumber

end SymbolicCalc.Binary64
