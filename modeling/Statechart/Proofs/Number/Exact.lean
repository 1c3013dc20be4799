import Mathlib

/-!
# Exact values of floating-point numbers

`exact x` is the rational number that a finite floating-point number stands for.  Numbers
compare as their exact values do (`compare_eq`), since they are stored with 53 binary digits
unless their exponent is the least one (`stored_unpack`).  A number written that way is
stored as it is (`unpack_pack`).
-/

namespace Statechart.Number

open Float.Model (UnpackedFloat)
open Float.Model.UnpackedFloat

/-- The rational number that a decoded floating-point number stands for; the infinities and
what is no number stand for zero. -/
def ratio : UnpackedFloat → ℚ
  | .finite s m e _ => (s.apply m : ℚ) * 2 ^ e
  | _ => 0

/-- Whether a decoded number is written as numbers of 53 binary digits are: with all digits,
unless its exponent is the least one. -/
def Canonical : UnpackedFloat → Prop
  | .finite _ m e _ => m < 2 ^ 53 ∧ -1074 ≤ e ∧ (e = -1074 ∨ 2 ^ 52 ≤ m)
  | _ => True

/-- The exact value of a floating-point number. -/
def exact (x : Float) : ℚ :=
  ratio x.toModel.unpack

variable {a b : UnpackedFloat} {s : Sign} {m n : ℕ} {e f : ℤ}

/-- The exact value of a number from its digits. -/
theorem exact_eq {x : Float} (hm : 0 < m) (h : x.toModel.unpack = .finite s m e hm) :
  exact x = s.apply m * 2 ^ e
  := by
  rw [exact, h, ratio]

/-- Of two numbers the one with the larger exponent is larger, if it has all digits. -/
theorem magnitude_lt (hm : m < 2 ^ 53) (hn : 2 ^ 52 ≤ n) (h : e < f) :
  (m : ℚ) * 2 ^ e < n * 2 ^ f
  := by
  have hm' : (m : ℚ) < 2 ^ 53 := by exact_mod_cast hm
  have hn' : (2 : ℚ) ^ 52 ≤ n := by exact_mod_cast hn
  have he : (0 : ℚ) < 2 ^ e := by positivity
  have hf : (2 : ℚ) ^ (e + 1) ≤ 2 ^ f := zpow_le_zpow_right₀ (by norm_num) h
  rw [zpow_add_one₀ (by norm_num)] at hf
  calc (m : ℚ) * 2 ^ e < 2 ^ 53 * 2 ^ e := by gcongr
    _ = 2 ^ 52 * (2 ^ e * 2) := by ring
    _ ≤ n * 2 ^ f := by gcongr

/-- Canonical numbers without sign compare by their exponents first, and then by their
digits. -/
theorem compare_magnitude (hm : m < 2 ^ 53) (he : -1074 ≤ e) (hme : e = -1074 ∨ 2 ^ 52 ≤ m)
    (hn : n < 2 ^ 53) (hf : -1074 ≤ f) (hnf : f = -1074 ∨ 2 ^ 52 ≤ n) :
  (compare e f).then (compare m n) = compare ((m : ℚ) * 2 ^ e) (n * 2 ^ f)
  := by
  rcases lt_trichotomy e f with h | rfl | h
  · have hlt := magnitude_lt hm (hnf.resolve_left (by omega)) h
    rw [compare_lt_iff_lt.mpr h, compare_lt_iff_lt.mpr hlt]
    rfl
  · have hpos : (0 : ℚ) < 2 ^ e := by positivity
    rw [compare_eq_iff_eq.mpr rfl, Ordering.then]
    rcases lt_trichotomy m n with h | rfl | h
    · have hlt : (m : ℚ) * 2 ^ e < n * 2 ^ e := by gcongr
      rw [compare_lt_iff_lt.mpr h, compare_lt_iff_lt.mpr hlt]
    · rw [compare_eq_iff_eq.mpr rfl, compare_eq_iff_eq.mpr rfl]
    · have hlt : (n : ℚ) * 2 ^ e < m * 2 ^ e := by gcongr
      rw [compare_gt_iff_gt.mpr h, compare_gt_iff_gt.mpr hlt]
  · have hlt := magnitude_lt hn (hme.resolve_left (by omega)) h
    rw [compare_gt_iff_gt.mpr h, compare_gt_iff_gt.mpr hlt]
    rfl

/-- Negation turns the order around. -/
theorem compare_neg_neg (x y : ℚ) :
  compare (-x) (-y) = (compare x y).swap
  := by
  rcases lt_trichotomy x y with h | rfl | h
  · rw [compare_lt_iff_lt.mpr h, compare_gt_iff_gt.mpr (neg_lt_neg h)]
    rfl
  · rw [compare_eq_iff_eq.mpr rfl, compare_eq_iff_eq.mpr rfl]
    rfl
  · rw [compare_gt_iff_gt.mpr h, compare_lt_iff_lt.mpr (neg_lt_neg h)]
    rfl

/-- Finite numbers compare as their values do. -/
theorem compare_eq (ha : Canonical a) (hb : Canonical b) (hfa : a.isFinite = true)
    (hfb : b.isFinite = true) :
  a.compare b = some (compare (ratio a) (ratio b))
  := by
  have hpos : ∀ {m : ℕ} (e : ℤ), 0 < m → (0 : ℚ) < m * 2 ^ e := by
    intro m e hm
    positivity
  have hneg : ∀ {m : ℕ} (e : ℤ), 0 < m → ((-m : ℤ) : ℚ) * 2 ^ e < 0 := by
    intro m e hm
    have h := hpos e hm
    push_cast
    linarith
  cases a with
  | zero s =>
    cases b with
    | zero s' => exact congrArg some (compare_eq_iff_eq.mpr rfl).symm
    | finite s' n f hn =>
      cases s' with
      | negative => exact congrArg some (compare_gt_iff_gt.mpr (hneg f hn)).symm
      | positive => exact congrArg some (compare_lt_iff_lt.mpr (hpos f hn)).symm
    | infinity s' => cases hfb
    | notANumber => cases hfb
  | finite s m e hm =>
    cases b with
    | zero s' =>
      cases s with
      | negative => exact congrArg some (compare_lt_iff_lt.mpr (hneg e hm)).symm
      | positive => exact congrArg some (compare_gt_iff_gt.mpr (hpos e hm)).symm
    | finite s' n f hn =>
      have hmagnitude := compare_magnitude ha.1 ha.2.1 ha.2.2 hb.1 hb.2.1 hb.2.2
      cases s with
      | negative =>
        cases s' with
        | negative =>
          simp only [UnpackedFloat.compare, ratio, Sign.apply, hmagnitude, Int.cast_neg,
            Int.cast_natCast, neg_mul, compare_neg_neg]
        | positive =>
          exact congrArg some (compare_lt_iff_lt.mpr ((hneg e hm).trans (hpos f hn))).symm
      | positive =>
        cases s' with
        | negative =>
          exact congrArg some (compare_gt_iff_gt.mpr ((hneg f hn).trans (hpos e hm))).symm
        | positive =>
          simp only [UnpackedFloat.compare, ratio, Sign.apply, hmagnitude, Int.cast_natCast]
    | infinity s' => cases hfb
    | notANumber => cases hfb
  | infinity s => cases hfa
  | notANumber => cases hfa

/-! ### Stored numbers -/

/-- Whether the exponent of a decoded number is one that is stored. -/
def Bounded : UnpackedFloat → Prop
  | .finite _ _ e _ => e ≤ 971
  | _ => True

/-- The stored digits of a normal number lack the first one. -/
theorem toNat_implicit (v : BitVec 52) :
  (1#1 ++ v).toNat = 2 ^ 52 + v.toNat
  := by
  rw [BitVec.toNat_append, ← Nat.shiftLeft_add_eq_or_of_lt v.isLt]
  rfl

/-- Numbers are stored canonically. -/
theorem stored_unpack (x : Float.Model) :
  Canonical x.unpack ∧ Bounded x.unpack
  := by
  rw [Float.Model.unpack]
  fun_cases unpack with
  | case1 => exact ⟨trivial, trivial⟩
  | case2 => exact ⟨trivial, trivial⟩
  | case3 => exact ⟨trivial, trivial⟩
  | case4 mvec evec e svec s hinf hzero =>
    have hm := mvec.isLt
    have he : e = -1075 := by
      simp only [e, hzero]
      rfl
    simp only [Canonical, Bounded, he]
    change mvec.toNat < 2 ^ 52 at hm
    omega
  | case5 mvec evec e svec s hinf hzero =>
    have hm := mvec.isLt
    change mvec.toNat < 2 ^ 52 at hm
    have hmantissa : (1#1 ++ mvec).toNat = 2 ^ 52 + mvec.toNat := toNat_implicit mvec
    have hpos : evec.toNat ≠ 0 := fun h => hzero (BitVec.eq_of_toNat_eq h)
    have hlt := evec.isLt
    change evec.toNat < 2048 at hlt
    have htop : evec.toNat ≠ 2047 := fun h => hinf (BitVec.eq_of_toNat_eq h)
    have he : e = evec.toNat - 1075 := rfl
    simp only [Canonical, Bounded, hmantissa, he]
    omega

/-- The number whose exponent is neither the least nor the largest one has 53 digits. -/
theorem unpack_normal (s : Sign) {v : BitVec 52} {w : BitVec 11} (hzero : w ≠ 0#11)
    (hinf : w ≠ -1#11) (hm : 0 < m) (hdigits : m = 2 ^ 52 + v.toNat)
    (he : e = w.toNat - 1075) :
  unpack .binary64 (packComponents .binary64 s w v) = .finite s m e hm
  := by
  rw [unpack]
  simp only [unpackMantissa_packComponents, unpackExponent_packComponents,
    unpackSign_packComponents, Sign.ofBitVec_toBitVec, hinf, hzero, if_false, finite.injEq]
  exact ⟨trivial, (toNat_implicit v).trans hdigits.symm, he.symm⟩

/-- The number whose exponent is the least one has the stored digits. -/
theorem unpack_subnormal (s : Sign) {v : BitVec 52} (hm : 0 < m) (hdigits : m = v.toNat) :
  unpack .binary64 (packComponents .binary64 s (0#11) v) = .finite s m (-1074) hm
  := by
  have hv : v ≠ 0#52 := by
    rintro rfl
    exact hm.ne' hdigits
  rw [unpack]
  simp only [unpackMantissa_packComponents, unpackExponent_packComponents,
    unpackSign_packComponents, Sign.ofBitVec_toBitVec, hv]
  subst hdigits
  rfl

/-- A canonical number whose exponent is not too large is stored as it is. -/
theorem unpack_pack_finite (hm : 0 < m)
    (hu : Canonical (.finite s m e hm)) (hbounded : e ≤ 971) :
  unpack .binary64 (pack .binary64 (.finite s m e hm)) = .finite s m e hm
  := by
  obtain ⟨hlt, hle, hnormal⟩ := hu
  have hfits : ¬ 2 ^ 11 ≤ (e + 1023 + 52).toNat + 1 := by omega
  have hlog : m.log2 + 1 = 53 ↔ 2 ^ 52 ≤ m := by
    rw [← Nat.le_log2 hm.ne']
    have := (Nat.log2_lt hm.ne').mpr hlt
    omega
  change unpack .binary64 (if 2 ^ 11 ≤ (e + 1023 + 52).toNat + 1 then _
    else if m.log2 + 1 = 53 then packComponents .binary64 s
      (BitVec.ofNat 11 (e + 1023 + 52).toNat) (BitVec.ofNat 52 m) else _) = _
  rw [if_neg hfits]
  by_cases hdigits : 2 ^ 52 ≤ m
  · rw [if_pos (hlog.mpr hdigits)]
    have hw : (BitVec.ofNat 11 (e + 1023 + 52).toNat).toNat = (e + 1023 + 52).toNat :=
      Nat.mod_eq_of_lt (by omega)
    generalize BitVec.ofNat 11 (e + 1023 + 52).toNat = w at hw
    apply unpack_normal
    · rintro rfl
      change 0 = _ at hw
      omega
    · rintro rfl
      change 2047 = _ at hw
      omega
    · rw [BitVec.toNat_ofNat]
      omega
    · rw [hw]
      omega
  · rw [if_neg (fun h => hdigits (hlog.mp h))]
    have he : e = -1074 := hnormal.resolve_right hdigits
    subst he
    apply unpack_subnormal
    exact (Nat.mod_eq_of_lt (Nat.not_le.mp hdigits)).symm

/-- A number whose exponent is too large is stored as an infinity. -/
theorem unpack_pack_of_lt (hm : 0 < m) (he : 971 < e) :
  unpack .binary64 (pack .binary64 (.finite s m e hm)) = .infinity s
  := by
  change unpack .binary64 (if 2 ^ 11 ≤ (e + 1023 + 52).toNat + 1 then _ else _) = _
  rw [if_pos (by omega)]
  cases s <;> rfl

/-- What is written as stored numbers are is stored as it is. -/
theorem unpack_pack {u : UnpackedFloat} (hu : Canonical u) (hbounded : Bounded u) :
  (Float.Model.pack u).unpack = u
  := by
  change unpack .binary64 (pack .binary64 u) = u
  cases u with
  | zero s => cases s <;> rfl
  | infinity s => cases s <;> rfl
  | notANumber => rfl
  | finite s m e hm => exact unpack_pack_finite hm hu hbounded

end Statechart.Number
