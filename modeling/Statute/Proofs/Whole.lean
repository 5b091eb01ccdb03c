import Mathlib
import Statute.Whole

/-!
# Division and conversion of whole numbers

Two facts about whole numbers that constants depend on. Folding rounds quotients toward zero and the
logic rounds them so that no remainder is negative. The two agree where the dividend is not negative
or the division comes out even, `RoundsAlike`, and nowhere else, `quot?_eq_div?_iff` and
`rem?_eq_mod?_iff`.

Where a real number is asked for, whole numbers become doubles. A double keeps 53 bits, so great
numbers are rounded, but never past one another, `notAbove_ofInt`. The conversion is followed from
the number to its bits and back: shifting out bits keeps the order of mantissas, `weight_shift`, and
so does rounding what is left, `roundedMantissa_mono`; what comes out has all 53 bits,
`Significand`, and is stored and read back unchanged unless it is too great for a double,
`unpack_pack`.
-/

namespace Statute

/-!
## Division
-/

namespace Whole

/-- Rounding toward zero and rounding down to a remainder that is not negative come to the same. -/
def RoundsAlike (a b : Int) : Prop := 0 ≤ a ∨ b ∣ a

instance (a b : Int) : Decidable (RoundsAlike a b) := inferInstanceAs (Decidable (_ ∨ _))

variable {a b : Int}

theorem quot?_eq_div? (h : RoundsAlike a b) : quot? a b = div? a b := by
  unfold RoundsAlike at h
  rw [quot?, div?, Int.tdiv_eq_ediv, if_pos h, Int.add_zero]

theorem rem?_eq_mod? (h : RoundsAlike a b) : rem? a b = mod? a b := by
  have hmod : a.tmod b = a % b := by
    unfold RoundsAlike at h
    rw [Int.tmod_eq_emod, if_pos h]
    exact Int.sub_zero _
  rw [rem?, mod?, quot?_eq_div? h, hmod]

/-- A quotient by more than one in size is smaller than the dividend. -/
theorem inRange_tdiv (ha : InRange a) (hb : 2 ≤ b.natAbs) : InRange (a.tdiv b) := by
  have hhalf : a.natAbs / b.natAbs ≤ a.natAbs / 2 := Nat.div_le_div_left hb (by decide)
  have hsize : (a.tdiv b).natAbs = a.natAbs / b.natAbs := Int.natAbs_tdiv a b
  unfold InRange least greatest at ha ⊢
  omega

/-- Where rounding makes a difference there is a quotient. -/
theorem quot?_of_not_roundsAlike (ha : InRange a) (hb : b ≠ 0) (h : ¬RoundsAlike a b) :
    quot? a b = some (a.tdiv b) := by
  have hsize : 2 ≤ b.natAbs := by
    by_contra hsmall
    have hone : b = 1 ∨ b = -1 := by omega
    rcases hone with rfl | rfl <;> exact h (.inr (by simp))
  rw [quot?, if_neg hb, fit_eq_some_iff]
  exact ⟨inRange_tdiv ha hsize, rfl⟩

/-- Whole numbers that are not rounded alike have different quotients. -/
theorem quot?_eq_div?_iff (ha : InRange a) (hb : b ≠ 0) :
    quot? a b = div? a b ↔ RoundsAlike a b := by
  refine ⟨fun h => ?_, quot?_eq_div?⟩
  by_contra hnot
  rw [quot?_of_not_roundsAlike ha hb hnot, div?, if_neg hb] at h
  have hsame := (fit_eq_some_iff.mp h.symm).2
  unfold RoundsAlike at hnot
  rcases Int.lt_or_gt_of_ne hb with hneg | hpos
  · grind
  · grind

/-- They have different remainders, too. -/
theorem rem?_eq_mod?_iff (ha : InRange a) (hb : b ≠ 0) :
    rem? a b = mod? a b ↔ RoundsAlike a b := by
  refine ⟨fun h => ?_, rem?_eq_mod?⟩
  by_contra hnot
  rw [rem?, quot?_of_not_roundsAlike ha hb hnot, Option.map_some] at h
  obtain ⟨_, -, hsame⟩ := Option.map_eq_some_iff.mp h.symm
  unfold RoundsAlike at hnot
  rw [Int.tmod_eq_emod, if_neg hnot] at hsame
  omega

end Whole

variable {n k : Nat} {e : Int}

section Doubles

open Float.Model
open Float.Model.UnpackedFloat (ExtendedMantissa Sign Accuracy)

variable {m : Nat}

/-!
## Mantissas
-/

namespace Rounding

variable {a b : ExtendedMantissa}

/-- An exact mantissa before it is shortened. -/
def full (m : Nat) : ExtendedMantissa := ⟨m, false, false⟩

/-- Mantissas in the order of the numbers that they stand for: what was shifted out counts less than
a unit, and only half a unit and any trace below that are told apart. -/
def weight (m : ExtendedMantissa) : Nat :=
  4 * m.mantissa + 2 * m.roundBit.toNat + m.stickyBit.toNat

theorem shift_zero (m : ExtendedMantissa) : m >>> 0 = m := rfl

theorem shift_succ (m : ExtendedMantissa) (k : Nat) :
    m >>> (k + 1) = (m >>> k).shiftRightOne := rfl

theorem mantissa_shift (m : ExtendedMantissa) (k : Nat) :
    (m >>> k).mantissa = m.mantissa / 2 ^ k := by
  induction k with
  | zero => simp [shift_zero]
  | succ k ih =>
    rw [shift_succ, Nat.pow_succ, ← Nat.div_div_eq_div_mul, ← ih]
    rfl

/-- Shifting out zeros loses nothing. -/
theorem full_shift (m k : Nat) : full (m * 2 ^ k) >>> k = full m := by
  induction k generalizing m with
  | zero => simp [shift_zero]
  | succ k ih =>
    rw [shift_succ, Nat.pow_succ, Nat.mul_comm _ 2, ← Nat.mul_assoc, ih]
    simp [full, ExtendedMantissa.shiftRightOne]

theorem weight_shiftRightOne (h : weight a ≤ weight b) :
    weight a.shiftRightOne ≤ weight b.shiftRightOne := by
  obtain ⟨m, r, s⟩ := a
  obtain ⟨n, r', s'⟩ := b
  cases r <;> cases s <;> cases r' <;> cases s' <;>
    simp [weight, ExtendedMantissa.shiftRightOne, bne, Bool.toNat] at h ⊢ <;> grind

theorem weight_shift (h : weight a ≤ weight b) (k : Nat) : weight (a >>> k) ≤ weight (b >>> k) := by
  induction k with
  | zero => exact h
  | succ k ih => exact weight_shiftRightOne ih

theorem roundedMantissa_mono (h : weight a ≤ weight b) : a.roundedMantissa ≤ b.roundedMantissa := by
  obtain ⟨m, r, s⟩ := a
  obtain ⟨n, r', s'⟩ := b
  cases r <;> cases s <;> cases r' <;> cases s' <;>
    simp [weight, ExtendedMantissa.roundedMantissa, ExtendedMantissa.accuracy,
      Accuracy.roundToNearestEven] at h ⊢ <;> omega

theorem roundedMantissa_bounds (m : ExtendedMantissa) :
    m.mantissa ≤ m.roundedMantissa ∧ m.roundedMantissa ≤ m.mantissa + 1 := by
  obtain ⟨m, r, s⟩ := m
  have heven : m % 2 ≤ 1 := by omega
  cases r <;> cases s <;>
    simp [ExtendedMantissa.roundedMantissa, ExtendedMantissa.accuracy,
      Accuracy.roundToNearestEven, heven]

theorem log2_mul_two_pow (hm : 0 < m) (k : Nat) : (m * 2 ^ k).log2 = m.log2 + k := by
  rw [Nat.log2_eq_iff (by positivity)]
  have hlow := Nat.log2_self_le hm.ne'
  have hhigh := Nat.lt_log2_self (n := m)
  constructor
  · rw [Nat.pow_add]
    exact Nat.mul_le_mul_right _ hlow
  · rw [Nat.add_right_comm, Nat.pow_add]
    exact Nat.mul_lt_mul_of_pos_right hhigh (by positivity)

/-- The nearest mantissa of 53 bits; it may carry over to the next power of two. -/
def nearest (m : Nat) : Nat := (full m >>> (m.log2 - 52)).roundedMantissa

theorem nearest_bounds (hm : 2 ^ 52 ≤ m) : 2 ^ 52 ≤ nearest m ∧ nearest m ≤ 2 ^ 53 := by
  have hlog : 52 ≤ m.log2 := (Nat.le_log2 (by omega)).mpr hm
  have hlow : 2 ^ 52 * 2 ^ (m.log2 - 52) ≤ m := by
    rw [← Nat.pow_add, Nat.add_sub_cancel' hlog]
    exact Nat.log2_self_le (by omega)
  have hhigh : m < 2 ^ 53 * 2 ^ (m.log2 - 52) := by
    rw [← Nat.pow_add, show 53 + (m.log2 - 52) = m.log2 + 1 by omega]
    exact Nat.lt_log2_self
  have hkept : (full m >>> (m.log2 - 52)).mantissa = m / 2 ^ (m.log2 - 52) := mantissa_shift _ _
  have hbounds := roundedMantissa_bounds (full m >>> (m.log2 - 52))
  rw [hkept] at hbounds
  have hleast : 2 ^ 52 ≤ m / 2 ^ (m.log2 - 52) := (Nat.le_div_iff_mul_le (by positivity)).mpr hlow
  have hmost : m / 2 ^ (m.log2 - 52) < 2 ^ 53 := (Nat.div_lt_iff_lt_mul (by positivity)).mpr hhigh
  exact ⟨hleast.trans hbounds.1, hbounds.2.trans hmost⟩

theorem nearest_mono (h : m ≤ n) (hlog : m.log2 = n.log2) : nearest m ≤ nearest n := by
  unfold nearest
  rw [hlog]
  refine roundedMantissa_mono (weight_shift ?_ _)
  simp [weight, full]
  exact h

end Rounding

open Rounding

/-!
## Numbers with 53 bits
-/

/-- The mantissa and the exponent of a number with all 53 bits. -/
structure Significand where
  mantissa : Nat
  exponent : Int
  least : 2 ^ 52 ≤ mantissa
  most : mantissa < 2 ^ 53

namespace Significand

/-- What rounding leaves: a mantissa that has carried over is halved. -/
def carry (m : Nat) (e : Int) (hm : 2 ^ 52 ≤ m ∧ m ≤ 2 ^ 53) : Significand :=
  if h : m = 2 ^ 53 then ⟨2 ^ 52, e + 1, by decide, by decide⟩
  else ⟨m, e, hm.1, by omega⟩

/-- The number before its exponent is checked. -/
def unpacked (x : Significand) (s : Sign) : UnpackedFloat :=
  .finite s x.mantissa x.exponent (Nat.lt_of_lt_of_le (by decide) x.least)

/-- The number as a double: beyond the greatest there is infinity. -/
def double (x : Significand) (s : Sign) : UnpackedFloat :=
  if x.exponent ≤ 971 then x.unpacked s else .infinity s

/-- The order of the numbers: mantissas have the same length, so exponents are compared first. -/
def Le (x y : Significand) : Prop :=
  x.exponent < y.exponent ∨ x.exponent = y.exponent ∧ x.mantissa ≤ y.mantissa

theorem shiftToTargetExponent_eq (hm : 2 ^ 52 ≤ m) (he : -1074 ≤ e) :
    UnpackedFloat.shiftToTargetExponent .binary64 m e .exact =
      (full m >>> (m.log2 - 52), e + (m.log2 - 52 : Nat)) := by
  have hlog : 52 ≤ m.log2 := (Nat.le_log2 (by omega)).mpr hm
  have htarget : Format.binary64.targetExponent (totalExponent m e) = e + (m.log2 - 52 : Nat) := by
    simp only [Format.targetExponent, totalExponent, Format.minExponent, Format.mantissaBits]
    norm_num
    omega
  have hamount : (e + (m.log2 - 52 : Nat) - e).toNat = m.log2 - 52 := by omega
  rw [UnpackedFloat.shiftToTargetExponent, htarget, UnpackedFloat.shiftToExponent, hamount]
  rfl

/-- Rounding a second time halves a mantissa that has carried over and changes nothing else. -/
theorem shift_eq_carry (e : Int) (hm : 2 ^ 52 ≤ m ∧ m ≤ 2 ^ 53) :
    (full m >>> (m.log2 - 52)).mantissa = (carry m e hm).mantissa ∧
      e + (m.log2 - 52 : Nat) = (carry m e hm).exponent := by
  rw [mantissa_shift, carry]
  split
  case isTrue h =>
    rw [h, Nat.log2_two_pow]
    exact ⟨rfl, rfl⟩
  case isFalse h =>
    have hlog : m.log2 = 52 := (Nat.log2_eq_iff (by omega)).mpr ⟨hm.1, by omega⟩
    rw [hlog]
    exact ⟨Nat.div_one m, Int.add_zero e⟩

/-- A number with at least 53 bits is rounded to the nearest one with 53. -/
theorem roundWithAccuracy_eq (s : Sign) (hm : 2 ^ 52 ≤ m) (he : -1074 ≤ e) :
    UnpackedFloat.roundWithAccuracy .binary64 s m e .exact =
      (carry (nearest m) (e + (m.log2 - 52 : Nat)) (nearest_bounds hm)).unpacked s := by
  have hbounds := nearest_bounds hm
  have hround : (full m >>> (m.log2 - 52)).roundedMantissa = nearest m := rfl
  have hagain := shiftToTargetExponent_eq hbounds.1 (e := e + (m.log2 - 52 : Nat)) (by omega)
  obtain ⟨hmantissa, hexponent⟩ := shift_eq_carry (e + (m.log2 - 52 : Nat)) hbounds
  have hpos : (carry (nearest m) (e + (m.log2 - 52 : Nat)) hbounds).mantissa ≠ 0 := by
    grind [Significand.least]
  simp only [UnpackedFloat.roundWithAccuracy, shiftToTargetExponent_eq hm he, hround, hagain,
    hmantissa, hexponent, dif_neg hpos]
  rfl

theorem unpack_packedInfinity (s : Sign) :
    UnpackedFloat.unpack .binary64 (UnpackedFloat.packedInfinity .binary64 s) = .infinity s := by
  cases s <;> rfl

/-- A number survives being stored as a double, unless its exponent is too great. -/
theorem unpack_pack (x : Significand) (s : Sign) (hx : -1074 ≤ x.exponent) :
    UnpackedFloat.unpack .binary64 (UnpackedFloat.pack .binary64 (x.unpacked s)) = x.double s := by
  obtain ⟨m, e, hleast, hmost⟩ := x
  dsimp only at hx
  have hlog : m.log2 = 52 := (Nat.log2_eq_iff (by omega)).mpr ⟨hleast, hmost⟩
  have hbiased : e + Format.binary64.exponentBias + Format.binary64.mantissaBitsWithoutImplicit =
      e + 1075 := by
    simp [Format.exponentBias, Int.add_assoc]
  simp only [unpacked, double, UnpackedFloat.pack, hlog, hbiased]
  by_cases he : e ≤ 971
  · have hexponent : (BitVec.ofNat 11 (e + 1075).toNat).toNat = (e + 1075).toNat := by
      rw [BitVec.toNat_ofNat, Nat.mod_eq_of_lt (by omega)]
    have hmantissa : (1#1 ++ BitVec.ofNat 52 m).toNat = m := by
      rw [BitVec.toNat_append, BitVec.toNat_ofNat, BitVec.toNat_ofNat,
        ← Nat.shiftLeft_add_eq_or_of_lt (Nat.mod_lt m (by decide : 0 < 2 ^ 52)), Nat.shiftLeft_eq]
      omega
    have hnormal : BitVec.ofNat 11 (e + 1075).toNat ≠ 0#11 := by grind
    have hfinite : BitVec.ofNat 11 (e + 1075).toNat ≠ -1#11 := by grind
    rw [if_neg (by norm_num; omega), if_pos (show 52 + 1 = Format.binary64.mantissaBits from rfl),
      if_pos he]
    simp only [UnpackedFloat.unpack, UnpackedFloat.unpackExponent_packComponents,
      UnpackedFloat.unpackMantissa_packComponents, UnpackedFloat.unpackSign_packComponents,
      UnpackedFloat.Sign.ofBitVec_toBitVec, if_neg hfinite, if_neg hnormal, hmantissa, hexponent]
    congr 1
    simp [Format.exponentBias]
    omega
  · rw [if_pos (by norm_num; omega), if_neg he, unpack_packedInfinity]

theorem unpack_double (x : Significand) (s : Sign) (hx : -1074 ≤ x.exponent) :
    UnpackedFloat.unpack .binary64 (UnpackedFloat.pack .binary64 (x.double s)) = x.double s := by
  by_cases h : x.exponent ≤ 971
  · rw [double, if_pos h, unpack_pack x s hx, double, if_pos h]
  · rw [double, if_neg h]
    exact unpack_packedInfinity s

/-- A mantissa that has 53 bits already. -/
def kept (m : Nat) (e : Int) (hm : m.log2 = 52) : Significand :=
  have hpos : m ≠ 0 := fun h => by simp [h] at hm
  ⟨m, e, ((Nat.log2_eq_iff hpos).mp hm).1, ((Nat.log2_eq_iff hpos).mp hm).2⟩

/-- Such a mantissa with zeros behind it is kept. -/
theorem carry_nearest (hm : m.log2 = 52)
    (h : 2 ^ 52 ≤ nearest (m * 2 ^ k) ∧ nearest (m * 2 ^ k) ≤ 2 ^ 53) :
    carry (nearest (m * 2 ^ k)) e h = kept m e hm := by
  have hpos : 0 < m := Nat.pos_of_ne_zero fun h => by simp [h] at hm
  have hkept : nearest (m * 2 ^ k) = m := by
    rw [nearest, log2_mul_two_pow hpos, hm, Nat.add_sub_cancel_left, full_shift]
    rfl
  have hmost := (kept m e hm).most
  simp only [carry, hkept]
  exact dif_neg hmost.ne

theorem roundWithAccuracy_exact (s : Sign) (hm : m.log2 = 52) (he : -1074 ≤ e) :
    UnpackedFloat.roundWithAccuracy .binary64 s (m * 2 ^ k) e .exact =
      (kept m (e + k) hm).unpacked s := by
  have hleast : 2 ^ 52 ≤ m := (kept m e hm).least
  have hlarge : 2 ^ 52 ≤ m * 2 ^ k := hleast.trans (Nat.le_mul_of_pos_right m (by positivity))
  have hlog : (m * 2 ^ k).log2 - 52 = k := by
    rw [log2_mul_two_pow (Nat.lt_of_lt_of_le (by decide) hleast), hm, Nat.add_sub_cancel_left]
  rw [roundWithAccuracy_eq s hlarge he, carry_nearest hm, hlog]

/-- The nearest number with 53 bits to a positive one. -/
def ofNat (m : Nat) (hm : 0 < m) : Significand :=
  carry (nearest (m * 2 ^ 53)) (m.log2 - 52) (nearest_bounds (by omega))

theorem ofNat_mono (hm : 0 < m) (h : m ≤ n) : (ofNat m hm).Le (ofNat n (by omega)) := by
  have hn : 0 < n := by omega
  have hlog : m.log2 ≤ n.log2 := by
    rw [Nat.le_log2 hn.ne']
    exact (Nat.log2_self_le hm.ne').trans h
  have hm' := nearest_bounds (m := m * 2 ^ 53) (by omega)
  have hn' := nearest_bounds (m := n * 2 ^ 53) (by omega)
  unfold ofNat carry Le
  rcases hlog.lt_or_eq with hless | hsame
  -- even a mantissa that has carried over comes to the next exponent only
  · split <;> split <;> dsimp only <;> omega
  have hnearest : nearest (m * 2 ^ 53) ≤ nearest (n * 2 ^ 53) := by
    refine nearest_mono (by omega) ?_
    rw [log2_mul_two_pow hm, log2_mul_two_pow hn, hsame]
  split <;> split <;> dsimp only <;> omega

/-- A number of at most 53 bits is kept. -/
theorem ofNat_eq (hm : 0 < m) (hlog : m.log2 ≤ 52) :
    ∃ h : (m * 2 ^ (52 - m.log2)).log2 = 52,
      ofNat m hm = kept (m * 2 ^ (52 - m.log2)) (m.log2 - 52) h := by
  have h : (m * 2 ^ (52 - m.log2)).log2 = 52 := by rw [log2_mul_two_pow hm]; omega
  refine ⟨h, ?_⟩
  have hsplit : m * 2 ^ 53 = m * 2 ^ (52 - m.log2) * 2 ^ (m.log2 + 1) := by
    rw [Nat.mul_assoc, ← Nat.pow_add, show 52 - m.log2 + (m.log2 + 1) = 53 by omega]
  simp only [ofNat, hsplit]
  exact carry_nearest h _

theorem exponent_ofNat (hm : 0 < m) : -52 ≤ (ofNat m hm).exponent := by
  unfold ofNat carry
  split <;> dsimp only <;> omega

/-- A number of at most 53 bits is converted as it is. -/
theorem unpack_toFloat (hm : 0 < m) (hlog : m.log2 ≤ 52) :
    m.toUInt64.toFloat.toModel.unpack = (ofNat m hm).double .positive := by
  obtain ⟨h, heq⟩ := ofNat_eq hm hlog
  have hword : m.toUInt64.toNat = m := by
    have hshort := (Nat.log2_lt hm.ne').mp (Nat.lt_of_le_of_lt hlog (by decide : 52 < 53))
    simp
    omega
  have hcompare : compare (m : Int) 0 = .gt := by
    rw [Int.compare_eq_gt]
    omega
  have htarget : Format.binary64.targetExponent (totalExponent m 0) = m.log2 - 52 := by
    simp only [Format.targetExponent, totalExponent, Format.minExponent, Format.mantissaBits]
    norm_num
    omega
  have hamount : (0 - ((m.log2 : Int) - 52)).toNat = 52 - m.log2 := by omega
  have hexponent : 0 - ((52 - m.log2 : Nat) : Int) = m.log2 - 52 := by omega
  have hround := roundWithAccuracy_exact (k := 0) (e := m.log2 - 52) .positive h (by omega)
  rw [Nat.pow_zero, Nat.mul_one, Int.natCast_zero, Int.add_zero, ← heq] at hround
  have hunpacked :
      UnpackedFloat.ofUInt64 .binary64 m.toUInt64 = (ofNat m hm).unpacked .positive := by
    simp only [UnpackedFloat.ofUInt64, UnpackedFloat.ofNat, UnpackedFloat.ofInt,
      UnpackedFloat.normalize, hword, hcompare, Int.toNat_natCast, UnpackedFloat.round, htarget,
      UnpackedFloat.decreaseExponent, hamount, hexponent, Nat.shiftLeft_eq, hround]
  change UnpackedFloat.unpack .binary64 (UnpackedFloat.pack .binary64
    (UnpackedFloat.ofUInt64 .binary64 m.toUInt64)) = _
  have hleast := exponent_ofNat hm
  rw [hunpacked, unpack_pack _ _ (by omega)]

theorem unpack_one : (Float.ofBits 4607182418800017408).toModel.unpack =
    .finite .positive (2 ^ 52) (-52) (by decide) := rfl

/-- The product with one, which rounds again, is the number itself. -/
theorem mul_one_eq (hm : 0 < m) (hlog : m.log2 ≤ 52) :
    UnpackedFloat.mul .binary64 ((ofNat m hm).double .positive)
      (Float.ofBits 4607182418800017408).toModel.unpack = (ofNat m hm).unpacked .positive := by
  obtain ⟨h, heq⟩ := ofNat_eq hm hlog
  have hround := roundWithAccuracy_exact (k := 52) (e := m.log2 - 52 + -52) .positive h (by omega)
  have hexponent : (m.log2 : Int) - 52 + -52 + (52 : Nat) = m.log2 - 52 := by omega
  rw [hexponent] at hround
  have hfinite : (kept (m * 2 ^ (52 - m.log2)) (m.log2 - 52) h).exponent ≤ 971 := by
    change (m.log2 : Int) - 52 ≤ 971
    omega
  rw [heq, double, if_pos hfinite, unpack_one]
  exact hround

theorem ofScientific_eq (hm : 0 < m) :
    UnpackedFloat.ofScientific .binary64 m 0 = (ofNat m hm).unpacked .positive := by
  have hlarge : 2 ^ 52 ≤ m * 2 ^ 53 := by omega
  have hround := roundWithAccuracy_eq .positive hlarge (by decide : (-1074 : Int) ≤ -53)
  have hexponent : -53 + (((m * 2 ^ 53).log2 - 52 : Nat) : Int) = m.log2 - 52 := by
    rw [log2_mul_two_pow hm]
    omega
  simp only [hexponent] at hround
  rw [UnpackedFloat.ofScientific, dif_neg hm.ne', if_neg (by decide), if_neg (by norm_num),
    if_pos le_rfl]
  change UnpackedFloat.roundWithAccuracy .binary64 .positive (m <<< 53 * 1) (-53) .exact = _
  rw [Nat.mul_one, Nat.shiftLeft_eq, hround]
  rfl

/-- Of small numbers the double is computed as a product and of great ones by rounding once; both
come to the nearest number with 53 bits. -/
theorem unpack_ofNat (hm : 0 < m) :
    (Float.ofNat m).toModel.unpack = (ofNat m hm).double .positive := by
  have hleast := exponent_ofNat hm
  rw [← unpack_pack _ _ (by omega)]
  change (Float.ofScientific m false 0).toModel.unpack = _
  rw [Float.ofScientific]
  by_cases hsmall : m < 2 ^ 53
  · have hlog : m.log2 ≤ 52 := Nat.le_of_lt_succ ((Nat.log2_lt hm.ne').mpr hsmall)
    rw [dif_pos ⟨hsmall, by decide⟩, ← mul_one_eq hm hlog, ← unpack_toFloat hm hlog]
    rfl
  · rw [dif_neg fun h => hsmall h.1, ← ofScientific_eq hm]
    rfl

theorem unpack_ofNat_zero : (Float.ofNat 0).toModel.unpack = .zero .positive := rfl

theorem neg_double (x : Significand) : (x.double .positive).neg = x.double .negative := by
  unfold double
  split <;> rfl

theorem unpack_neg_ofNat (hm : 0 < m) :
    (Float.ofNat m).neg.toModel.unpack = (ofNat m hm).double .negative := by
  have hleast := exponent_ofNat hm
  change UnpackedFloat.unpack .binary64
    (UnpackedFloat.pack .binary64 (Float.ofNat m).toModel.unpack.neg) = _
  rw [unpack_ofNat hm, neg_double, unpack_double _ _ (by omega)]

end Significand

/-!
## Order
-/

/-- The two can be compared and the first is not the greater. -/
def NotAbove (a b : UnpackedFloat) : Prop := ∃ o, a.compare b = some o ∧ o ≠ .gt

theorem NotAbove.compare_self {a : UnpackedFloat} (h : NotAbove a a) :
    a.compare a = some .eq := by
  obtain ⟨o, ho, -⟩ := h
  cases a with
  | notANumber => cases ho
  | zero => rfl
  | infinity s => cases s <;> rfl
  | finite s m e hm => cases s <;> simp [UnpackedFloat.compare]

namespace Significand

/-- Below zero the order turns round. -/
theorem Le.notAbove {x y : Significand} (h : x.Le y) :
    NotAbove (x.double .positive) (y.double .positive) ∧
      NotAbove (y.double .negative) (x.double .negative) := by
  have hle : (compare x.exponent y.exponent).then (compare x.mantissa y.mantissa) ≠ .gt := by
    rcases h with h | ⟨h, hm⟩
    · rw [Int.compare_eq_lt.mpr h]
      simp
    · grind [NotAbove.compare_self]
  have hle' :
      ((compare y.exponent x.exponent).then (compare y.mantissa x.mantissa)).swap ≠ .gt := by
    rcases h with h | ⟨h, hm⟩
    · rw [Int.compare_eq_gt.mpr h]
      simp
    · rw [h, Std.compare_self]
      simpa using Nat.compare_ne_lt.mpr hm
  have hexponent : x.exponent ≤ y.exponent := by
    rcases h with h | h <;> omega
  unfold double
  by_cases hy : y.exponent ≤ 971
  · rw [if_pos hy, if_pos (hexponent.trans hy), if_pos hy, if_pos (hexponent.trans hy)]
    exact ⟨⟨_, rfl, hle⟩, ⟨_, rfl, hle'⟩⟩
  rw [if_neg hy, if_neg hy]
  split
  · exact ⟨⟨.lt, rfl, by decide⟩, ⟨.lt, rfl, by decide⟩⟩
  · exact ⟨⟨.eq, rfl, by decide⟩, ⟨.eq, rfl, by decide⟩⟩

theorem compare_opposite (x y : Significand) :
    (x.double .negative).compare (y.double .positive) = some .lt := by
  unfold double
  split <;> split <;> rfl

theorem compare_zero (x : Significand) :
    (x.double .negative).compare (.zero .positive) = some .lt ∧
      (UnpackedFloat.zero .positive).compare (x.double .positive) = some .lt := by
  unfold double
  split <;> exact ⟨rfl, rfl⟩

end Significand

open Significand

/-- Conversion to doubles keeps the order of whole numbers, though it may make different ones
equal. -/
theorem notAbove_ofInt {a b : Int} (h : a ≤ b) :
    NotAbove (Float.ofInt a).toModel.unpack (Float.ofInt b).toModel.unpack := by
  match a, b with
  | .negSucc m, .negSucc n =>
    have hle : n + 1 ≤ m + 1 := by omega
    rw [Float.ofInt, Float.ofInt, unpack_neg_ofNat m.succ_pos, unpack_neg_ofNat n.succ_pos]
    exact (ofNat_mono n.succ_pos hle).notAbove.2
  | .negSucc m, .ofNat 0 =>
    rw [Float.ofInt, Float.ofInt, unpack_neg_ofNat m.succ_pos, unpack_ofNat_zero]
    exact ⟨.lt, (compare_zero _).1, by decide⟩
  | .negSucc m, .ofNat (n + 1) =>
    rw [Float.ofInt, Float.ofInt, unpack_neg_ofNat m.succ_pos, unpack_ofNat n.succ_pos]
    exact ⟨.lt, compare_opposite _ _, by decide⟩
  | .ofNat 0, .ofNat 0 => exact ⟨.eq, rfl, by decide⟩
  | .ofNat 0, .ofNat (n + 1) =>
    rw [Float.ofInt, Float.ofInt, unpack_ofNat_zero, unpack_ofNat n.succ_pos]
    exact ⟨.lt, (compare_zero _).2, by decide⟩
  | .ofNat (m + 1), .ofNat (n + 1) =>
    have hle : m + 1 ≤ n + 1 := Int.ofNat_le.mp h
    rw [Float.ofInt, Float.ofInt, unpack_ofNat m.succ_pos, unpack_ofNat n.succ_pos]
    exact (ofNat_mono m.succ_pos hle).notAbove.1

end Doubles

end Statute
