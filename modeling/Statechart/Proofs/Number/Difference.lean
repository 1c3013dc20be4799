import Statechart.Proofs.Number.Rounding

/-!
# Differences of floating-point numbers

The computed difference of two finite numbers is less than `2 ^ -52` away from zero exactly if
their exact difference is less than `margin` away from it (`abs_sub_lt_iff`).  The margin is a
little smaller than `2 ^ -52`, as what is half way to the next number is rounded up to it.
-/

namespace Statechart.Number

open Float.Model (UnpackedFloat)
open Float.Model.UnpackedFloat

variable {x v : ℚ} {r m n : ℕ} {e f t : ℤ} {s : Sign} {a b u : UnpackedFloat}

/-- The quantities below this bound, and no others, are rounded to numbers below `2 ^ -52`. -/
def margin : ℚ := 2 ^ (-52 : ℤ) - 2 ^ (-106 : ℤ)

/-- The margin lies between two powers of two. -/
theorem margin_lt :
  (2 : ℚ) ^ (-53 : ℤ) < margin ∧ margin < 2 ^ (-52 : ℤ)
  := by
  norm_num [margin]

/-- The whole number nearest to a quantity is below `2 ^ 53` exactly if the quantity is not half
way up to it: from there on it is rounded up, to the even number. -/
theorem Nearest.lt_iff_lt (h : Nearest x r) :
  r < 2 ^ 53 ↔ x < 2 ^ 53 - 1 / 2
  := by
  constructor
  · intro hr
    have hr' : (r : ℚ) + 1 ≤ 2 ^ 53 := by exact_mod_cast hr
    apply lt_of_le_of_ne
    · linarith [h.le]
    · intro hx
      have hge : (2 : ℚ) ^ 53 ≤ r + 1 := by linarith [h.le]
      have heven := h.even (Or.inl (by linarith))
      have hge' : 2 ^ 53 ≤ r + 1 := by exact_mod_cast hge
      omega
  · intro hx
    have hr : (r : ℚ) < 2 ^ 53 := by linarith [h.ge]
    exact_mod_cast hr

/-- The nearest multiple of the last place is below `2 ^ -52` exactly if the number is below the
margin. -/
theorem Nearest.lt_iff (h : Nearest (v / 2 ^ t) r) (hlt : v < 2 ^ (t + 53))
    (hnormal : t = -1074 ∨ 2 ^ (t + 52) ≤ v) :
  (r : ℚ) * 2 ^ t < 2 ^ (-52 : ℤ) ↔ v < margin
  := by
  have hpos : (0 : ℚ) < 2 ^ t := by positivity
  obtain ⟨hlow, hhigh⟩ := margin_lt
  rcases lt_trichotomy t (-105) with ht | rfl | ht
  · -- the number is too small to come near the bound
    have hbound : v / 2 ^ t < 2 ^ 53 := by
      rw [div_lt_iff₀ hpos, ← zpow_natCast, ← zpow_add₀ (by norm_num), add_comm]
      exact hlt
    have hr : (r : ℚ) ≤ 2 ^ 53 := by exact_mod_cast h.le_of_lt hbound
    have hrt : (r : ℚ) * 2 ^ t ≤ 2 ^ (-53 : ℤ) := by
      calc (r : ℚ) * 2 ^ t ≤ 2 ^ 53 * 2 ^ (-106 : ℤ) := by
            gcongr
            · norm_num
            · omega
        _ = 2 ^ (-53 : ℤ) := by norm_num
    have hvt : (2 : ℚ) ^ (t + 53) ≤ 2 ^ (-53 : ℤ) :=
      zpow_le_zpow_right₀ (by norm_num) (by omega)
    constructor
    · intro
      linarith
    · intro
      linarith
  · have hmargin : margin = (2 ^ 53 - 1 / 2) * 2 ^ (-105 : ℤ) := by norm_num [margin]
    have hscale : (2 : ℚ) ^ (-52 : ℤ) = 2 ^ 53 * 2 ^ (-105 : ℤ) := by norm_num
    rw [hscale, mul_lt_mul_iff_left₀ hpos, hmargin, ← div_lt_iff₀ hpos, ← h.lt_iff_lt]
    norm_cast
  · -- the number is too large
    have hv : 2 ^ (t + 52) ≤ v := hnormal.resolve_left (by omega)
    have hle : (2 : ℚ) ^ (-52 : ℤ) ≤ 2 ^ (t + 52) :=
      zpow_le_zpow_right₀ (by norm_num) (by omega)
    have hr : 2 ^ 52 ≤ r := by
      apply h.le_of_le
      rw [add_comm, zpow_add₀ (by norm_num)] at hv
      rw [le_div_iff₀ hpos]
      exact_mod_cast hv
    have hr' : (2 : ℚ) ^ 52 ≤ r := by exact_mod_cast hr
    have hrt : (2 : ℚ) ^ (t + 52) ≤ r * 2 ^ t := by
      rw [add_comm, zpow_add₀ (by norm_num)]
      gcongr
      exact_mod_cast hr'
    constructor
    · intro
      linarith
    · intro
      linarith

/-! ### Decoded numbers -/

/-- Whether a decoded number is canonical and finite, and less than `2 ^ -52` away from zero
exactly if the quantity `v` is less than the margin away from it. -/
structure Near (v : ℚ) (u : UnpackedFloat) : Prop where
  canonical : Canonical u
  isFinite : u.isFinite = true
  lt_iff : |ratio u| < 2 ^ (-52 : ℤ) ↔ |v| < margin

/-- The absolute value of a number does not depend on its sign. -/
theorem abs_ratio_finite (hm : 0 < m) :
  |ratio (.finite s m e hm)| = m * 2 ^ e
  := by
  cases s with
  | negative =>
    rw [ratio, Sign.apply, Int.cast_neg, neg_mul, abs_neg, Int.cast_natCast,
      abs_of_pos (by positivity)]
  | positive => rw [ratio, Sign.apply, Int.cast_natCast, abs_of_pos (by positivity)]

/-- Zero is near zero. -/
theorem near_zero (s : Sign) :
  Near 0 (.zero s)
  := by
  refine ⟨trivial, rfl, ?_⟩
  change |(0 : ℚ)| < _ ↔ _
  norm_num [margin]

/-- A canonical number is near zero or not as it stands. -/
theorem near_finite (hm : 0 < m) (h : Canonical (.finite s m e hm)) :
  Near (ratio (.finite s m e hm)) (.finite s m e hm)
  := by
  refine ⟨h, rfl, ?_⟩
  obtain ⟨hlt, -, hnormal⟩ := h
  have hpos : (0 : ℚ) < 2 ^ e := by positivity
  rw [abs_ratio_finite]
  apply Nearest.lt_iff
  · rw [mul_div_cancel_right₀ _ hpos.ne']
    constructor
    case le => linarith
    case ge => linarith
    case even => rintro (h | h) <;> linarith
  · rw [add_comm, zpow_add₀ (by norm_num)]
    gcongr
    exact_mod_cast hlt
  · apply hnormal.imp_right
    intro hle
    rw [add_comm, zpow_add₀ (by norm_num)]
    gcongr
    exact_mod_cast hle

/-- A number that is rounded is near zero exactly if it is before. -/
theorem near_round (s : Sign) (hm : 0 < m) (he : -1074 ≤ e) :
  Near (s.apply m * 2 ^ e) (UnpackedFloat.round .binary64 s m e)
  := by
  obtain ⟨hlt, hnormal⟩ := lastPlace_spec hm e
  obtain ⟨r, n, f, hn, heq, hcanonical, hvalue, hnearest⟩ := rounds_round s hm he
  have habs : |(s.apply m : ℚ) * 2 ^ e| = m * 2 ^ e := abs_ratio_finite (s := s) hm
  refine ⟨hcanonical, by rw [heq]; rfl, ?_⟩
  rw [heq, abs_ratio_finite, hvalue, habs]
  apply hnearest.lt_iff hlt hnormal

/-- A whole number of units is rounded with its sign. -/
theorem near_normalize (d : ℤ) (he : -1074 ≤ e) :
  Near (d * 2 ^ e) (UnpackedFloat.normalize .binary64 d e .positive)
  := by
  rw [UnpackedFloat.normalize]
  rcases lt_trichotomy d 0 with h | rfl | h
  · rw [compare_lt_iff_lt.mpr h]
    have hd : (Sign.negative.apply (-d).toNat) = d := by
      rw [Sign.apply]
      omega
    have hnear := near_round .negative (m := (-d).toNat) (by omega) he
    rw [hd] at hnear
    exact hnear
  · rw [compare_eq_iff_eq.mpr rfl, Int.cast_zero, zero_mul]
    exact near_zero _
  · rw [compare_gt_iff_gt.mpr h]
    have hd : (Sign.positive.apply d.toNat) = d := by
      rw [Sign.apply]
      omega
    have hnear := near_round .positive (m := d.toNat) (by omega) he
    rw [hd] at hnear
    exact hnear

/-- The digits of a number at a smaller exponent. -/
theorem apply_decreaseExponent (s : Sign) (m : ℕ) (h : t ≤ e) :
  (s.apply (decreaseExponent m e t).1 : ℚ) * 2 ^ t = s.apply m * 2 ^ e
  := by
  have hvalue : ((decreaseExponent m e t).1 : ℚ) * 2 ^ t = m * 2 ^ e := by
    have he : e = (e - t).toNat + t := by omega
    change ((m <<< (e - t).toNat : ℕ) : ℚ) * 2 ^ t = m * 2 ^ e
    generalize (e - t).toNat = k at he
    rw [he, Nat.shiftLeft_eq, zpow_add₀ (by norm_num), zpow_natCast]
    push_cast
    ring
  cases s with
  | negative => simp only [Sign.apply, Int.cast_neg, Int.cast_natCast, neg_mul, hvalue]
  | positive => exact hvalue

/-- The difference of finite numbers is near zero exactly if that of their values is. -/
theorem near_sub (ha : Canonical a) (hb : Canonical b) (hfa : a.isFinite = true)
    (hfb : b.isFinite = true) :
  Near (ratio a - ratio b) (UnpackedFloat.sub .binary64 a b)
  := by
  cases a with
  | zero s =>
    cases b with
    | zero s' =>
      change Near (0 - 0) (if s == -s' then zero s else zero .positive)
      rw [sub_zero]
      split
      · apply near_zero
      · apply near_zero
    | finite s' n f hn =>
      have hnegated : ratio (.zero s) - ratio (.finite s' n f hn) =
          ratio (.finite (-s') n f hn) := by
        cases s' with
        | negative =>
          change 0 - ((-n : ℤ) : ℚ) * 2 ^ f = (n : ℤ) * 2 ^ f
          push_cast
          ring
        | positive =>
          change 0 - ((n : ℤ) : ℚ) * 2 ^ f = ((-n : ℤ) : ℚ) * 2 ^ f
          push_cast
          ring
      rw [hnegated]
      exact near_finite (s := -s') hn hb
    | infinity s' => cases hfb
    | notANumber => cases hfb
  | finite s m e hm =>
    cases b with
    | zero s' =>
      change Near (ratio (.finite s m e hm) - 0) (.finite s m e hm)
      rw [sub_zero]
      apply near_finite hm ha
    | finite s' n f hn =>
      have hvalue : ratio (.finite s m e hm) - ratio (.finite s' n f hn) =
          ((s.apply (decreaseExponent m e (min e f)).1 -
            s'.apply (decreaseExponent n f (min e f)).1 : ℤ) : ℚ) * 2 ^ min e f := by
        rw [Int.cast_sub, sub_mul, apply_decreaseExponent s m (min_le_left e f),
          apply_decreaseExponent s' n (min_le_right e f)]
        rfl
      rw [hvalue]
      apply near_normalize _ (le_min ha.2.1 hb.2.1)
    | infinity s' => cases hfb
    | notANumber => cases hfb
  | infinity s => cases hfa
  | notANumber => cases hfa

/-! ### Floating-point numbers -/

/-- Finite numbers are ordered as their exact values are. -/
theorem exact_lt_iff {x y : Float} (hx : x.isFinite = true) (hy : y.isFinite = true) :
  x < y ↔ exact x < exact y
  := by
  change decide (x.toModel < y.toModel) = true ↔ _
  rw [decide_eq_true_iff]
  change (x.toModel.unpack.compare y.toModel.unpack == some .lt) = true ↔ _
  rw [compare_eq (stored_unpack _).1 (stored_unpack _).1 hx hy, beq_iff_eq, Option.some.injEq,
    compare_lt_iff_lt]
  rfl

/-- Of finite numbers one is at most another exactly if its exact value is. -/
theorem exact_le_iff {x y : Float} (hx : x.isFinite = true) (hy : y.isFinite = true) :
  x ≤ y ↔ exact x ≤ exact y
  := by
  change decide (x.toModel ≤ y.toModel) = true ↔ _
  rw [decide_eq_true_iff]
  change Option.any (fun o => o.isLE) (x.toModel.unpack.compare y.toModel.unpack) = true ↔ _
  rw [compare_eq (stored_unpack _).1 (stored_unpack _).1 hx hy, Option.any_some,
    Ordering.isLE_iff_ne_gt, ← ne_eq, compare_le_iff_le]
  rfl

/-- The absolute value of a number that is stored as it is. -/
theorem unpack_abs {u : UnpackedFloat} (h : Canonical u) (hbounded : Bounded u) :
  (Float.ofModel (Float.Model.pack u)).abs.toModel.unpack = u.abs
  := by
  change (Float.Model.pack (Float.Model.pack u).unpack.abs).unpack = u.abs
  rw [unpack_pack h hbounded, unpack_pack]
  · cases u <;> assumption
  · cases u <;> assumption

/-- A number that is too large to be stored as it is has an absolute value that no finite number
exceeds. -/
theorem not_abs_lt_of_lt {s : Sign} (hm : 0 < m) (he : 971 < e) {z : Float}
    (hz : z.isFinite = true) :
  ¬ (Float.ofModel (Float.Model.pack (.finite s m e hm))).abs < z
  := by
  have habs : (Float.ofModel (Float.Model.pack (.finite s m e hm))).abs.toModel.unpack =
      .infinity .positive := by
    change (Float.Model.pack (unpack .binary64 (pack .binary64 (.finite s m e hm))).abs).unpack = _
    rw [unpack_pack_of_lt hm he]
    exact unpack_pack (u := .infinity .positive) trivial trivial
  change ¬ decide (_ < _) = true
  rw [decide_eq_true_iff]
  change ¬ (UnpackedFloat.compare (_ : Float).toModel.unpack z.toModel.unpack == some .lt) = true
  rw [habs]
  change z.toModel.unpack.isFinite = true at hz
  cases hu : z.toModel.unpack with
  | zero s' => simp [UnpackedFloat.compare]
  | finite s' n f hn => simp [UnpackedFloat.compare]
  | infinity s' => rw [hu] at hz; cases hz
  | notANumber => rw [hu] at hz; cases hz

/-- A number is stored less than `2 ^ -52` away from zero exactly if the quantity that it
stands for is less than the margin away from it. -/
theorem Near.abs_lt_iff (h : Near v u) {z : Float} (hz : exact z = 2 ^ (-52 : ℤ))
    (hfz : z.isFinite = true) :
  (Float.ofModel (Float.Model.pack u)).abs < z ↔ |v| < margin
  := by
  rw [← h.lt_iff]
  by_cases hbounded : Bounded u
  · have habs : |ratio u| = ratio u.abs := by
      cases u with
      | finite s m e hm => exact abs_ratio_finite hm
      | _ => exact abs_zero
    have hunpack := unpack_abs h.canonical hbounded
    have hfinite : (Float.ofModel (Float.Model.pack u)).abs.isFinite = true := by
      change Float.Model.UnpackedFloat.isFinite _ = true
      rw [hunpack]
      have := h.isFinite
      cases u <;> assumption
    rw [exact_lt_iff hfinite hfz, hz, habs, exact, hunpack]
  · cases u with
    | finite s m e hm =>
      have he : 971 < e := Int.not_le.mp hbounded
      have hle : (2 : ℚ) ^ (-52 : ℤ) ≤ m * 2 ^ e := by
        calc (2 : ℚ) ^ (-52 : ℤ) ≤ 1 * 2 ^ e := by
              rw [one_mul]
              apply zpow_le_zpow_right₀ (by norm_num)
              omega
          _ ≤ m * 2 ^ e := by
            gcongr
            exact_mod_cast hm
      rw [abs_ratio_finite]
      exact iff_of_false (not_abs_lt_of_lt hm he hfz) (not_lt.mpr hle)
    | _ => exact absurd trivial hbounded

/-- The computed difference of finite numbers is less than `2 ^ -52` away from zero exactly if
the exact one is less than the margin away from it. -/
theorem abs_sub_lt_iff {x y z : Float} (hx : x.isFinite = true) (hy : y.isFinite = true)
    (hz : exact z = 2 ^ (-52 : ℤ)) (hfz : z.isFinite = true) :
  (x - y).abs < z ↔ |exact x - exact y| < margin
  := by
  have hnear := near_sub (stored_unpack x.toModel).1 (stored_unpack y.toModel).1 hx hy
  exact hnear.abs_lt_iff hz hfz

end Statechart.Number
