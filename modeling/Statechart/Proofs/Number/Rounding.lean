import Statechart.Proofs.Number.Exact

/-!
# Rounding

Rounding drops the digits behind the last place that fits, and decides by the bits it drops:
what remains is the nearest whole number of units of that place, and the even one of two that
are as near (`Describes.nearest`).  So a number is rounded to the nearest one that is stored
(`rounds_round`), as long as the exponent does not overflow.
-/

namespace Statechart.Number

open Float.Model (UnpackedFloat)
open Float.Model.UnpackedFloat

variable {x : ℚ} {r m : ℕ} {e : ℤ} {em : ExtendedMantissa}

/-- Whether a whole number is the nearest one to `x`, and the even one of two that are as near. -/
structure Nearest (x : ℚ) (r : ℕ) : Prop where
  le : x ≤ r + 1 / 2
  ge : r ≤ x + 1 / 2
  even : x = r + 1 / 2 ∨ r = x + 1 / 2 → r % 2 = 0

/-- Whether digits describe a number: they are its whole part, the next bit says whether the
rest is a half or more, and the last one whether there is more still. -/
def Describes (em : ExtendedMantissa) (x : ℚ) : Prop :=
  match em.roundBit, em.stickyBit with
  | false, false => x = em.mantissa
  | false, true => em.mantissa < x ∧ x < em.mantissa + 1 / 2
  | true, false => x = em.mantissa + 1 / 2
  | true, true => em.mantissa + 1 / 2 < x ∧ x < em.mantissa + 1

/-- The digits of a whole number describe it. -/
theorem describes_exact (m : ℕ) :
  Describes (.ofMantissaAndAccuracy m .exact) m
  := rfl

/-- Without its last bit a number is half as large; the bit that goes is the next one then. -/
theorem Describes.shiftRightOne (h : Describes em x) :
  Describes em.shiftRightOne (x / 2)
  := by
  obtain ⟨m, round, sticky⟩ := em
  have hm : (m : ℚ) = 2 * (m / 2 : ℕ) + (m % 2 : ℕ) := by
    exact_mod_cast (Nat.div_add_mod m 2).symm
  rcases Nat.mod_two_eq_zero_or_one m with hmod | hmod
  all_goals
    rw [hmod] at hm
    cases round <;> cases sticky <;>
      simp [Describes, ExtendedMantissa.shiftRightOne, hmod] at h ⊢ <;>
      first | linarith | (constructor <;> linarith)

/-- Without its last `k` bits a number is divided by `2 ^ k`. -/
theorem Describes.shiftRight (h : Describes em x) (k : ℕ) :
  Describes (em >>> k) (x / 2 ^ k)
  := by
  change Describes (k.repeat ExtendedMantissa.shiftRightOne em) _
  induction k with
  | zero => simpa [Nat.repeat] using h
  | succ k ih =>
    rw [Nat.repeat, pow_succ, ← div_div]
    apply ih.shiftRightOne

/-- Digits are rounded to the nearest whole number. -/
theorem Describes.nearest (h : Describes em x) :
  Nearest x em.roundedMantissa
  := by
  obtain ⟨m, round, sticky⟩ := em
  cases round with
  | false =>
    cases sticky with
    | false =>
      change x = m at h
      change Nearest x m
      constructor
      case le => linarith
      case ge => linarith
      case even => rintro (h' | h') <;> linarith
    | true =>
      obtain ⟨hlt, hlt'⟩ : (m : ℚ) < x ∧ x < m + 1 / 2 := h
      change Nearest x m
      constructor
      case le => linarith
      case ge => linarith
      case even => rintro (h' | h') <;> linarith
  | true =>
    cases sticky with
    | false =>
      change x = m + 1 / 2 at h
      change Nearest x (m + m % 2)
      rcases Nat.mod_two_eq_zero_or_one m with hmod | hmod
      · rw [hmod, Nat.add_zero]
        exact ⟨h.le, by linarith, fun _ => hmod⟩
      · rw [hmod]
        constructor
        case le => push_cast; linarith
        case ge => push_cast; linarith
        case even => omega
    | true =>
      obtain ⟨hlt, hlt'⟩ : (m : ℚ) + 1 / 2 < x ∧ x < m + 1 := h
      change Nearest x (m + 1)
      constructor
      case le => push_cast; linarith
      case ge => push_cast; linarith
      case even =>
        push_cast
        rintro (h' | h') <;> linarith

/-! ### The last place -/

/-- The exponent of the last digit of a number that is kept. -/
def lastPlace (m : ℕ) (e : ℤ) : ℤ :=
  max (m.log2 + 1 + e - 53) (-1074)

/-- With 53 digits up to its last place a number is counted in full, and with the first of them
nonzero unless the last place is the least one. -/
theorem lastPlace_spec (hm : 0 < m) (e : ℤ) :
  (m : ℚ) * 2 ^ e < 2 ^ (lastPlace m e + 53) ∧
    (lastPlace m e = -1074 ∨ 2 ^ (lastPlace m e + 52) ≤ (m : ℚ) * 2 ^ e)
  := by
  have hle : (2 : ℚ) ^ (m.log2 : ℤ) ≤ m := by
    rw [zpow_natCast]
    exact_mod_cast Nat.log2_self_le hm.ne'
  have hlt : (m : ℚ) < 2 ^ (m.log2 + 1 : ℤ) := by
    rw [← Nat.cast_succ, zpow_natCast]
    exact_mod_cast Nat.lt_log2_self
  constructor
  · calc (m : ℚ) * 2 ^ e < 2 ^ (m.log2 + 1 : ℤ) * 2 ^ e := by gcongr
      _ = 2 ^ (m.log2 + 1 + e : ℤ) := (zpow_add₀ (by norm_num) _ _).symm
      _ ≤ 2 ^ (lastPlace m e + 53) := by
        apply zpow_le_zpow_right₀ (by norm_num)
        rw [lastPlace]
        omega
  · by_cases hplace : lastPlace m e = -1074
    · exact Or.inl hplace
    · right
      have heq : lastPlace m e + 52 = m.log2 + e := by
        rw [lastPlace] at hplace ⊢
        omega
      rw [heq, zpow_add₀ (by norm_num)]
      gcongr

/-- Rounding 53 digits leaves no more than the first number with 54. -/
theorem Nearest.le_of_lt (h : Nearest x r) (hx : x < 2 ^ 53) :
  r ≤ 2 ^ 53
  := by
  have hr : (r : ℚ) < (2 ^ 53 + 1 : ℕ) := by
    push_cast
    linarith [h.ge]
  have hr' : r < 2 ^ 53 + 1 := by exact_mod_cast hr
  omega

/-- A number that is at least `k` is not rounded below `k`. -/
theorem Nearest.le_of_le {k : ℕ} (h : Nearest x r) (hx : k ≤ x) :
  k ≤ r
  := by
  have hr : (k : ℚ) < (r + 1 : ℕ) := by
    push_cast
    linarith [h.le]
  have hr' : k < r + 1 := by exact_mod_cast hr
  omega

/-- Each shift adds one digit. -/
theorem log2_shiftLeft (hm : 0 < m) (k : ℕ) :
  (m <<< k).log2 = m.log2 + k
  := by
  have hpos : 0 < m <<< k := by
    rw [Nat.shiftLeft_eq]
    positivity
  rw [Nat.log2_eq_iff hpos.ne', Nat.shiftLeft_eq, pow_add, Nat.add_right_comm, pow_add]
  have hle := Nat.log2_self_le hm.ne'
  have hlt := @Nat.lt_log2_self m
  constructor
  · gcongr
  · gcongr

/-- The digits of a number that are kept. -/
def kept (m : ℕ) (e : ℤ) : ExtendedMantissa :=
  ExtendedMantissa.ofMantissaAndAccuracy m .exact >>> (lastPlace m e - e).toNat

/-- The digits that are kept are shifted to the last place. -/
theorem shiftToTargetExponent_eq (m : ℕ) (e : ℤ) :
  shiftToTargetExponent .binary64 m e .exact =
    (kept m e, e + ((lastPlace m e - e).toNat : ℤ))
  := rfl

/-- The digits that are kept are those of the number counted in units of the last place. -/
theorem nearest_kept (hplace : e ≤ lastPlace m e) :
  Nearest (m * 2 ^ e / 2 ^ lastPlace m e) (kept m e).roundedMantissa
  := by
  have hscaled : (m : ℚ) * 2 ^ e / 2 ^ lastPlace m e = m / 2 ^ (lastPlace m e - e).toNat := by
    rw [← zpow_natCast, Int.toNat_of_nonneg (by omega), zpow_sub₀ (by norm_num),
      div_div_eq_mul_div]
  rw [hscaled]
  apply ((describes_exact m).shiftRight _).nearest

/-- Rounded digits are shifted by one place if there are too many of them, and stay what they
are else. -/
theorem exists_stored {t : ℤ} (hr : 0 < r) (hle : r ≤ 2 ^ 53) (ht : -1074 ≤ t)
    (hnormal : t = -1074 ∨ 2 ^ 52 ≤ r) :
  ∃ n f, (kept r t).mantissa = n ∧ t + ((lastPlace r t - t).toNat : ℤ) = f ∧
    0 < n ∧ n < 2 ^ 53 ∧ -1074 ≤ f ∧ (f = -1074 ∨ 2 ^ 52 ≤ n) ∧ (n : ℚ) * 2 ^ f = r * 2 ^ t
  := by
  rcases hle.lt_or_eq with hlt | rfl
  · have hplace : (lastPlace r t - t).toNat = 0 := by
      have := (Nat.log2_lt hr.ne').mpr hlt
      rw [lastPlace]
      omega
    rw [kept, hplace]
    exact ⟨r, t, rfl, by simp, hr, hlt, ht, hnormal, rfl⟩
  · have hplace : (lastPlace (2 ^ 53) t - t).toNat = 1 := by
      rw [lastPlace, Nat.log2_two_pow]
      omega
    rw [kept, hplace]
    refine ⟨2 ^ 52, t + 1, rfl, rfl, by norm_num, by norm_num, by omega, Or.inr le_rfl, ?_⟩
    rw [zpow_add_one₀ (by norm_num)]
    norm_num
    ring

/-- Whether a decoded number is the nearest one to `v` with a sign, among those whose last
place has the exponent `t`. -/
def Rounds (s : Sign) (v : ℚ) (t : ℤ) (u : UnpackedFloat) : Prop :=
  ∃ (r n : ℕ) (f : ℤ) (hn : 0 < n), u = .finite s n f hn ∧ Canonical u ∧
    (n : ℚ) * 2 ^ f = r * 2 ^ t ∧ Nearest (v / 2 ^ t) r

/-- A number with a digit at its last place or below is rounded to the nearest one. -/
theorem rounds_roundWithAccuracy (s : Sign) (hm : 0 < m) (he : -1074 ≤ e)
    (hplace : e ≤ lastPlace m e) :
  Rounds s (m * 2 ^ e) (lastPlace m e) (roundWithAccuracy .binary64 s m e .exact)
  := by
  obtain ⟨hlt, hnormal⟩ := lastPlace_spec hm e
  have hnearest := nearest_kept hplace
  have hpos : (0 : ℚ) < 2 ^ lastPlace m e := by positivity
  have hleast : -1074 ≤ lastPlace m e := le_max_right _ _
  have hle : (kept m e).roundedMantissa ≤ 2 ^ 53 := by
    apply hnearest.le_of_lt
    rw [div_lt_iff₀ hpos, ← zpow_natCast, ← zpow_add₀ (by norm_num), add_comm]
    exact hlt
  have hge : lastPlace m e = -1074 ∨ 2 ^ 52 ≤ (kept m e).roundedMantissa := by
    apply hnormal.imp_right
    intro h
    apply hnearest.le_of_le
    rw [add_comm, zpow_add₀ (by norm_num)] at h
    rw [le_div_iff₀ hpos]
    exact_mod_cast h
  have hr : 0 < (kept m e).roundedMantissa := by
    rcases hge with heq | hge
    · -- the number is counted in its own units
      apply hnearest.le_of_le (k := 1)
      have hown : e = lastPlace m e := by omega
      rw [← hown, mul_div_cancel_right₀ _ (by positivity)]
      exact_mod_cast hm
    · omega
  obtain ⟨n, f, hn, hf, hnpos, hnlt, hfle, hdigits, heq⟩ := exists_stored hr hle hleast hge
  have hshift : e + ((lastPlace m e - e).toNat : ℤ) = lastPlace m e := by omega
  have hstored : roundWithAccuracy .binary64 s m e .exact = .finite s n f hnpos := by
    rw [roundWithAccuracy, shiftToTargetExponent_eq, hshift]
    dsimp only
    rw [shiftToTargetExponent_eq]
    subst hn hf
    exact dif_neg hnpos.ne'
  refine ⟨_, n, f, hnpos, hstored, ?_, heq, hnearest⟩
  rw [hstored]
  exact ⟨hnlt, hfle, hdigits⟩

/-- A number whose exponent is not below the least one is rounded to the nearest one. -/
theorem rounds_round (s : Sign) (hm : 0 < m) (he : -1074 ≤ e) :
  Rounds s (m * 2 ^ e) (lastPlace m e) (UnpackedFloat.round .binary64 s m e)
  := by
  have hleast : -1074 ≤ lastPlace m e := le_max_right _ _
  generalize hk : (e - lastPlace m e).toNat = k
  have hpos : 0 < m <<< k := by
    rw [Nat.shiftLeft_eq]
    positivity
  have hplace : lastPlace (m <<< k) (e - k) = lastPlace m e := by
    rw [lastPlace, log2_shiftLeft hm, lastPlace]
    omega
  have hvalue : ((m <<< k : ℕ) : ℚ) * 2 ^ (e - k) = m * 2 ^ e := by
    rw [Nat.shiftLeft_eq, zpow_sub₀ (by norm_num), zpow_natCast]
    push_cast
    field_simp
  have h := rounds_roundWithAccuracy s hpos (e := e - k) (by omega) (by omega)
  rw [hplace, hvalue, ← hk] at h
  exact h

end Statechart.Number
