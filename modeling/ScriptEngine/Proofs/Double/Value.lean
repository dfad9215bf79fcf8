import Mathlib.Algebra.Order.Field.Power
import Mathlib.Algebra.Order.Field.Rat
import Mathlib.Tactic.FieldSimp
import Mathlib.Tactic.Linarith
import Mathlib.Tactic.Positivity
import Mathlib.Tactic.Ring
import ScriptEngine.Double.Nearest

/-!
# Fractions and doubles as rational numbers

`Fraction.val` is the rational number that a fraction stands for; what is done with fractions is
told by their values alone. A fraction whose value is that of a finite double is nearest to this
double (`nearest_of_val`), and it is never taken to be too small for one.
-/

namespace ScriptEngine

namespace Fraction

variable {f g : Fraction}

def val (f : Fraction) : ℚ := (f.num : ℚ) / f.den

theorem den_ne_zero (f : Fraction) : (f.den : ℚ) ≠ 0 := by
  exact_mod_cast Nat.pos_iff_ne_zero.mp f.den_pos

theorem den_cast_pos (f : Fraction) : (0 : ℚ) < f.den := by exact_mod_cast f.den_pos

@[simp] theorem val_ofNat (n : Nat) : (ofNat n).val = n := by simp [val, ofNat]

theorem val_scale {base : Nat} (hb : 0 < base) (f : Fraction) (e : Int) :
    (f.scale base hb e).val = f.val * (base : ℚ) ^ e := by
  have hb' : (base : ℚ) ≠ 0 := by exact_mod_cast Nat.pos_iff_ne_zero.mp hb
  have hd := f.den_ne_zero
  obtain ⟨n, rfl | rfl⟩ := e.eq_nat_or_neg
  · simp [val, scale]
    ring
  · simp [val, scale]
    field_simp

@[simp] theorem val_scale2 (f : Fraction) (e : Int) : (f.scale2 e).val = f.val * 2 ^ e := by
  rw [scale2, val_scale, Nat.cast_ofNat]

@[simp] theorem val_scale10 (f : Fraction) (e : Int) : (f.scale10 e).val = f.val * 10 ^ e := by
  rw [scale10, val_scale, Nat.cast_ofNat]

theorem less_iff : f.less g = true ↔ f.val < g.val := by
  rw [val, val, div_lt_div_iff₀ f.den_cast_pos g.den_cast_pos]
  simp only [less, decide_eq_true_eq]
  norm_cast

theorem equals_iff : f.equals g = true ↔ f.val = g.val := by
  rw [val, val, div_eq_div_iff f.den_ne_zero g.den_ne_zero]
  simp only [equals, beq_iff_eq]
  norm_cast

theorem isZero_iff : f.isZero = true ↔ f.val = 0 := by
  rw [val, div_eq_zero_iff, or_iff_left f.den_ne_zero]
  simp [isZero]

/-- A whole number is rounded to itself. -/
theorem round_of_val {n : Nat} (h : f.val = n) : f.round = n := by
  have hn : f.num = n * f.den := by
    rw [val, div_eq_iff f.den_ne_zero] at h
    exact_mod_cast h
  have hd := f.den_pos
  simp only [round, hn, Nat.mul_div_cancel n hd, Nat.mul_mod_left]
  rw [if_pos (.inl (by omega))]

/-! ## Exponents -/

theorem zpow_log2_le {n : Nat} (hn : n ≠ 0) : (2 : ℚ) ^ (Nat.log2 n : Int) ≤ n := by
  rw [zpow_natCast]
  exact_mod_cast Nat.log2_self_le hn

theorem lt_zpow_log2 (n : Nat) : (n : ℚ) < 2 ^ ((Nat.log2 n : Int) + 1) := by
  have := Nat.lt_log2_self (n := n)
  rw [show (Nat.log2 n : Int) + 1 = ((Nat.log2 n + 1 : Nat) : Int) by omega, zpow_natCast]
  exact_mod_cast this

theorem binaryExponent_spec (h : f.val ≠ 0) :
    (2 : ℚ) ^ f.binaryExponent ≤ f.val ∧ f.val < 2 ^ (f.binaryExponent + 1) := by
  have hn : f.num ≠ 0 := by
    intro h0
    exact h (by simp [val, h0])
  have hd : f.den ≠ 0 := Nat.pos_iff_ne_zero.mp f.den_pos
  -- Of the numerator and the denominator the logarithms are known up to one.
  have lo : (2 : ℚ) ^ ((Nat.log2 f.num : Int) - Nat.log2 f.den - 1) ≤ f.val := by
    rw [val, le_div_iff₀ f.den_cast_pos]
    calc (2 : ℚ) ^ ((Nat.log2 f.num : Int) - Nat.log2 f.den - 1) * f.den
        ≤ 2 ^ ((Nat.log2 f.num : Int) - Nat.log2 f.den - 1) * 2 ^ ((Nat.log2 f.den : Int) + 1) := by
          gcongr
          exact (lt_zpow_log2 f.den).le
      _ = 2 ^ (Nat.log2 f.num : Int) := by rw [← zpow_add₀ two_ne_zero]; congr 1; omega
      _ ≤ f.num := zpow_log2_le hn
  have hi : f.val < 2 ^ ((Nat.log2 f.num : Int) - Nat.log2 f.den + 1) := by
    rw [val, div_lt_iff₀ f.den_cast_pos]
    calc (f.num : ℚ) < 2 ^ ((Nat.log2 f.num : Int) + 1) := lt_zpow_log2 f.num
      _ = 2 ^ ((Nat.log2 f.num : Int) - Nat.log2 f.den + 1) * 2 ^ (Nat.log2 f.den : Int) := by
          rw [← zpow_add₀ two_ne_zero]; congr 1; omega
      _ ≤ 2 ^ ((Nat.log2 f.num : Int) - Nat.log2 f.den + 1) * f.den := by
          gcongr
          exact zpow_log2_le hd
  unfold binaryExponent
  simp only [less_iff, val_scale2, val_ofNat, Nat.cast_one, one_mul]
  split
  · next hlt => exact ⟨lo, by rwa [sub_add_cancel]⟩
  · next hge => exact ⟨not_lt.mp hge, hi⟩

/-- A number lies between two neighbouring powers of two in one way. -/
theorem exponent_unique {x : ℚ} {d e : Int} (hd : (2 : ℚ) ^ d ≤ x) (hd' : x < 2 ^ (d + 1))
    (he : (2 : ℚ) ^ e ≤ x) (he' : x < 2 ^ (e + 1)) : d = e := by
  have h1 : d < e + 1 := (zpow_lt_zpow_iff_right₀ one_lt_two).mp (hd.trans_lt he')
  have h2 : e < d + 1 := (zpow_lt_zpow_iff_right₀ one_lt_two).mp (he.trans_lt hd')
  omega

end Fraction

namespace Double

variable {f : Fraction} {m : Nat}

/-! ## The value of a double -/

theorem val_fraction (m : Nat) : (fraction m).val = significand m * 2 ^ exponent m := by
  simp [fraction]

theorem significand_lt (m : Nat) : significand m < 2 * binade := by
  unfold significand
  have : m % binade < binade := Nat.mod_lt m (by decide)
  split <;> omega

theorem binade_le_significand (h : binade ≤ m) : binade ≤ significand m := by
  rw [significand, if_neg (Nat.not_lt.mpr h)]
  exact Nat.le_add_right _ _

theorem exponent_of_normal (h : binade ≤ m) : exponent m = (m / binade : Nat) - 1075 :=
  if_neg (Nat.not_lt.mpr h)

theorem le_exponent (m : Nat) : -1074 ≤ exponent m := by
  unfold exponent
  split
  · exact le_refl _
  · next h =>
    have : 1 ≤ m / binade := (Nat.one_le_div_iff (by decide)).mpr (Nat.not_lt.mp h)
    omega

/-- Counted in units of its last place, a double is whole. -/
theorem inUnits_of_val {n : Nat} {e : Int} (h : f.val = n * 2 ^ e) : inUnits f e = n := by
  apply Fraction.round_of_val
  rw [Fraction.val_scale2, h, mul_assoc, ← zpow_add₀ two_ne_zero, add_neg_cancel, zpow_zero, mul_one]

theorem binaryExponent_of_normal (hb : binade ≤ m) (h : f.val = (fraction m).val) :
    f.binaryExponent = exponent m + 52 := by
  have h1 : (2 : ℚ) ^ (52 : Int) ≤ significand m := by exact_mod_cast binade_le_significand hb
  have h2 : (significand m : ℚ) < 2 ^ (53 : Int) := by exact_mod_cast significand_lt m
  have hpos : (0 : ℚ) < 2 ^ exponent m := by positivity
  have lo : (2 : ℚ) ^ (exponent m + 52) ≤ f.val := by
    rw [h, val_fraction, add_comm, zpow_add₀ two_ne_zero]
    gcongr
  have hi : f.val < 2 ^ (exponent m + 52 + 1) := by
    rw [h, val_fraction, show exponent m + 52 + 1 = 53 + exponent m by omega,
      zpow_add₀ two_ne_zero]
    gcongr
  have hne : f.val ≠ 0 := (lt_of_lt_of_le (by positivity) lo).ne'
  obtain ⟨lo', hi'⟩ := Fraction.binaryExponent_spec hne
  exact Fraction.exponent_unique lo' hi' lo hi

theorem val_of_subnormal (hm : m < binade) : (fraction m).val = m * 2 ^ (-1074 : Int) := by
  rw [val_fraction, significand, exponent, if_pos hm, if_pos hm]

theorem binaryExponent_of_subnormal (hm : m < binade) (h : f.val = (fraction m).val)
    (hne : f.val ≠ 0) : f.binaryExponent < -1022 := by
  have hlt : f.val < 2 ^ (-1022 : Int) := by
    rw [h, val_of_subnormal hm, show (-1022 : Int) = 52 + -1074 by omega, zpow_add₀ two_ne_zero]
    gcongr
    exact_mod_cast hm
  have := (Fraction.binaryExponent_spec hne).1.trans_lt hlt
  exact (zpow_lt_zpow_iff_right₀ one_lt_two).mp this

theorem significand_eq_zero (h : significand m = 0) : m = 0 := by
  rcases Nat.lt_or_ge m binade with hb | hb
  · rwa [significand, if_pos hb] at h
  · have := binade_le_significand hb
    have : 0 < binade := by decide
    omega

/-- A magnitude is made of its parts. -/
theorem magnitude_of_normal (hb : binade ≤ m) :
    (exponent m + 1074).toNat * binade + significand m = m := by
  have h1 : 1 ≤ m / binade := (Nat.one_le_div_iff (by decide)).mpr hb
  have h2 : (exponent m + 1074).toNat = m / binade - 1 := by
    rw [exponent_of_normal hb]
    omega
  have h3 : m / binade * binade = (m / binade - 1) * binade + binade := by
    rw [← Nat.succ_mul, Nat.succ_eq_add_one, Nat.sub_add_cancel h1]
  have h4 := Nat.div_add_mod' m binade
  rw [h2, significand, if_neg (Nat.not_lt.mpr hb)]
  omega

/-- The double nearest to the value of a finite double is this double. -/
theorem nearest_of_val (hm : m < infinity) (h : f.val = (fraction m).val) : nearest f = m := by
  unfold nearest
  split
  · next hz =>
    rw [Fraction.isZero_iff, h, val_fraction, mul_eq_zero, Nat.cast_eq_zero] at hz
    exact (significand_eq_zero (hz.resolve_right (by positivity))).symm
  · next hz =>
    rw [Fraction.isZero_iff] at hz
    rcases Nat.lt_or_ge m binade with hb | hb
    · have he := binaryExponent_of_subnormal hb h hz
      have hu : inUnits f (-1074) = m := inUnits_of_val (h.trans (val_of_subnormal hb))
      simp only [show max (f.binaryExponent - 52) (-1074) = -1074 by omega, hu, neg_add_cancel,
        Int.toNat_zero, Nat.zero_mul, Nat.zero_add]
      exact min_eq_right hm.le
    · have he := binaryExponent_of_normal hb h
      have hu : inUnits f (exponent m) = significand m := inUnits_of_val (h.trans (val_fraction m))
      have hle := le_exponent m
      simp only [he, show max (exponent m + 52 - 52) (-1074) = exponent m by omega, hu,
        magnitude_of_normal hb]
      exact min_eq_right hm.le

/-- A normal double is not tiny. -/
theorem isTiny_of_normal (hb : binade ≤ m) (h : f.val = (fraction m).val) : isTiny f = false := by
  have hu : inUnits f (exponent m) = significand m := inUnits_of_val (h.trans (val_fraction m))
  rw [isTiny, roundUnbounded, binaryExponent_of_normal hb h, Bool.eq_false_iff]
  simp only [ne_eq, Fraction.less_iff, add_sub_cancel_right, hu, Fraction.val_scale2,
    Fraction.val_ofNat, Nat.cast_one, one_mul, not_lt]
  have h1 : (2 : ℚ) ^ (52 : Int) ≤ significand m := by exact_mod_cast binade_le_significand hb
  have h2 : (2 : ℚ) ^ (-1074 : Int) ≤ 2 ^ exponent m :=
    zpow_le_zpow_right₀ one_le_two (le_exponent m)
  rw [show (-1022 : Int) = 52 + -1074 by omega, zpow_add₀ two_ne_zero]
  gcongr

/-- A subnormal double is taken for itself. -/
theorem tinyIs_of_subnormal (hm : m < binade) (h : f.val = (fraction m).val) :
    tinyIs f m = true := by
  have he : f.equals ((Fraction.ofNat m).scale2 (-1074)) = true := by
    rw [Fraction.equals_iff, h, val_of_subnormal hm, Fraction.val_scale2, Fraction.val_ofNat]
  rw [tinyIs, he, Bool.true_or]

theorem nearest_le (f : Fraction) : nearest f ≤ infinity := by
  unfold nearest
  split
  · exact Nat.zero_le _
  · exact Nat.min_le_left _ _

end Double

end ScriptEngine
