import ScriptEngine.Double.Decimal
import ScriptEngine.Proofs.Double.Value

/-!
# Significant digits

A fraction rounded to `p` significant digits is off by at most half a unit of its last digit
(`Decimal.significant_spec`). Doubles are further apart than that if there are seventeen digits: what
is as close to a finite double is nearest to this one (`Double.nearest_of_close`).
-/

namespace ScriptEngine

namespace Fraction

variable {f : Fraction}

/-! ## Rounding -/

theorem val_eq_div_add_mod (f : Fraction) :
    f.val = (f.num / f.den : Nat) + ((f.num % f.den : Nat) : ℚ) / f.den := by
  have h : (f.num : ℚ) = f.den * (f.num / f.den : Nat) + (f.num % f.den : Nat) := by
    exact_mod_cast (Nat.div_add_mod _ _).symm
  rw [val, h, add_div, mul_div_cancel_left₀ _ f.den_ne_zero]

theorem abs_round_sub_val (f : Fraction) : |(f.round : ℚ) - f.val| ≤ 1 / 2 := by
  have hd := f.den_cast_pos
  have hmod : f.num % f.den < f.den := Nat.mod_lt _ f.den_pos
  rw [val_eq_div_add_mod, round]
  split
  · next h =>
    have hr : 2 * (f.num % f.den) ≤ f.den := by omega
    have hr' : ((f.num % f.den : Nat) : ℚ) / f.den ≤ 1 / 2 := by
      rw [div_le_div_iff₀ hd two_pos]
      exact_mod_cast (by omega : f.num % f.den * 2 ≤ 1 * f.den)
    have hr'' : (0 : ℚ) ≤ ((f.num % f.den : Nat) : ℚ) / f.den := by positivity
    rw [abs_le]
    constructor <;> linarith
  · next h =>
    have hr : f.den ≤ 2 * (f.num % f.den) := by omega
    have hr' : 1 / 2 ≤ ((f.num % f.den : Nat) : ℚ) / f.den := by
      rw [div_le_div_iff₀ two_pos hd]
      exact_mod_cast (by omega : 1 * f.den ≤ f.num % f.den * 2)
    have hr'' : ((f.num % f.den : Nat) : ℚ) / f.den ≤ 1 := by
      rw [div_le_one hd]
      exact_mod_cast hmod.le
    push_cast
    rw [abs_le]
    constructor <;> linarith

theorem le_round {n : Nat} (h : (n : ℚ) ≤ f.val) : n ≤ f.round := by
  have := abs_le.mp f.abs_round_sub_val
  have hlt : (n : ℚ) < f.round + 1 := by linarith
  exact Nat.lt_succ_iff.mp (by exact_mod_cast hlt)

theorem round_le {n : Nat} (h : f.val ≤ n) : f.round ≤ n := by
  have := abs_le.mp f.abs_round_sub_val
  have hlt : (f.round : ℚ) < n + 1 := by linarith
  exact Nat.lt_succ_iff.mp (by exact_mod_cast hlt)

theorem round_of_close {n : Nat} (h : |f.val - n| < 1 / 2) : f.round = n := by
  have h1 := abs_le.mp f.abs_round_sub_val
  have h2 := abs_lt.mp h
  have hlt : (f.round : ℚ) < n + 1 := by linarith
  have hgt : (n : ℚ) < f.round + 1 := by linarith
  have hlt' : f.round < n + 1 := by exact_mod_cast hlt
  have hgt' : n < f.round + 1 := by exact_mod_cast hgt
  omega

/-! ## Decimal exponents -/

theorem digitCount_pos {n : Nat} (h : n ≠ 0) : 0 < digitCount n := by
  rw [digitCount, if_neg h]
  exact Nat.succ_pos _

theorem lt_pow_digitCount (n : Nat) : n < 10 ^ digitCount n := by
  induction n using Nat.strongRecOn with
  | ind n ih =>
    rw [digitCount]
    split
    · next h => simp [h]
    · next h =>
      have := ih (n / 10) (by omega)
      rw [Nat.pow_succ]
      omega

theorem pow_digitCount_le {n : Nat} (h : n ≠ 0) : 10 ^ (digitCount n - 1) ≤ n := by
  induction n using Nat.strongRecOn with
  | ind n ih =>
    rw [digitCount, if_neg h, Nat.add_sub_cancel]
    by_cases h' : n / 10 = 0
    · rw [h', digitCount, if_pos rfl]
      omega
    · obtain ⟨k, hk⟩ := Nat.exists_eq_succ_of_ne_zero (digitCount_pos h').ne'
      have := ih (n / 10) (by omega) h'
      rw [hk, Nat.succ_eq_add_one, Nat.add_sub_cancel] at this
      rw [hk, Nat.pow_succ]
      omega

theorem decimalExponent_spec (h : f.val ≠ 0) :
    (10 : ℚ) ^ f.decimalExponent ≤ f.val ∧ f.val < 10 ^ (f.decimalExponent + 1) := by
  have hn : 0 < f.num := Nat.pos_of_ne_zero fun h0 => h (by simp [val, h0])
  have hd := f.den_pos
  have hn' : (0 : ℚ) < f.num := by exact_mod_cast hn
  unfold decimalExponent
  split
  · next hle =>
    -- At least one: the digits of the whole part count.
    have hq : f.num / f.den ≠ 0 := Nat.pos_iff_ne_zero.mp (Nat.div_pos hle hd)
    have hpos := digitCount_pos hq
    have lo := pow_digitCount_le hq
    have hi := lt_pow_digitCount (f.num / f.den)
    rw [Nat.le_div_iff_mul_le hd] at lo
    rw [Nat.div_lt_iff_lt_mul hd] at hi
    rw [show (digitCount (f.num / f.den) : Int) - 1 = (digitCount (f.num / f.den) - 1 : Nat) by omega,
      show ((digitCount (f.num / f.den) - 1 : Nat) : Int) + 1 = digitCount (f.num / f.den) by omega,
      zpow_natCast, zpow_natCast, val, le_div_iff₀ f.den_cast_pos, div_lt_iff₀ f.den_cast_pos]
    exact ⟨by exact_mod_cast lo, by exact_mod_cast hi⟩
  · next hlt =>
    -- Below one: the digits of the inverse count.
    have hq : (f.den - 1) / f.num ≠ 0 :=
      Nat.pos_iff_ne_zero.mp (Nat.div_pos (by omega) hn)
    have hpos := digitCount_pos hq
    have lo := pow_digitCount_le hq
    have hi := lt_pow_digitCount ((f.den - 1) / f.num)
    rw [Nat.le_div_iff_mul_le hn] at lo
    rw [Nat.div_lt_iff_lt_mul hn] at hi
    generalize digitCount ((f.den - 1) / f.num) = k at hpos lo hi
    have lo' : ((10 ^ (k - 1) : Nat) : ℚ) * f.num < f.den := by
      exact_mod_cast (by omega : 10 ^ (k - 1) * f.num < f.den)
    have hi' : (f.den : ℚ) ≤ (10 ^ k : Nat) * f.num := by
      exact_mod_cast (by omega : f.den ≤ 10 ^ k * f.num)
    rw [show -(k : Int) + 1 = -((k - 1 : Nat) : Int) by omega, zpow_neg, zpow_neg, zpow_natCast,
      zpow_natCast, val]
    push_cast at lo' hi'
    constructor
    · rw [inv_le_iff_one_le_mul₀' (by positivity), mul_div_assoc', one_le_div₀ f.den_cast_pos]
      exact hi'
    · rw [lt_inv_comm₀ (by positivity) (by positivity), inv_div, lt_div_iff₀ hn']
      exact lo'

end Fraction

/-! ## Significant digits -/

namespace Decimal

open Fraction

variable {f : Fraction} {p : Nat}

/-- There are `p` digits, and they are off by at most half a unit of the last one. -/
theorem significant_spec (hp : 0 < p) (h : f.val ≠ 0) :
    10 ^ (p - 1) ≤ (significant p f).1 ∧ (significant p f).1 < 10 ^ p ∧
    |((significant p f).1 : ℚ) * 10 ^ ((significant p f).2 - (p - 1 : Nat)) - f.val| *
      (2 * 10 ^ (p - 1)) ≤ f.val := by
  obtain ⟨k, rfl⟩ := Nat.exists_eq_add_of_le' hp
  obtain ⟨lo, hi⟩ := decimalExponent_spec h
  rw [Nat.add_sub_cancel, significant, show ((k + 1 : Nat) : Int) - 1 = k by omega]
  set e := f.decimalExponent
  have hval : (f.scale10 (k - e)).val = f.val * 10 ^ ((k : Int) - e) := val_scale10 _ _
  set g := f.scale10 (k - e)
  have hlo : ((10 ^ k : Nat) : ℚ) ≤ g.val := by
    calc ((10 ^ k : Nat) : ℚ) = 10 ^ e * 10 ^ ((k : Int) - e) := by
          rw [← zpow_add₀ (by norm_num), add_sub_cancel, zpow_natCast]
          push_cast
          rfl
      _ ≤ g.val := by rw [hval]; gcongr
  have hhi : g.val ≤ ((10 ^ (k + 1) : Nat) : ℚ) := by
    calc g.val ≤ 10 ^ (e + 1) * 10 ^ ((k : Int) - e) := by rw [hval]; gcongr
      _ = ((10 ^ (k + 1) : Nat) : ℚ) := by
          rw [← zpow_add₀ (by norm_num), show e + 1 + (k - e) = (k + 1 : Nat) by omega, zpow_natCast]
          push_cast
          rfl
  -- Rounding is off by half a unit, and a unit is at most the number over `10 ^ k`.
  have herr : |(g.round : ℚ) * 10 ^ (e - k) - f.val| * (2 * 10 ^ k) ≤ f.val := by
    have hback : f.val = g.val * 10 ^ (e - k) := by
      rw [hval, mul_assoc, ← zpow_add₀ (by norm_num), sub_add_sub_cancel, sub_self, zpow_zero,
        mul_one]
    have hpow : (10 : ℚ) ^ (e - k) * 10 ^ k = 10 ^ e := by
      rw [← zpow_natCast, ← zpow_add₀ (by norm_num), sub_add_cancel]
    calc |(g.round : ℚ) * 10 ^ (e - k) - f.val| * (2 * 10 ^ k)
        = |(g.round : ℚ) - g.val| * 2 * (10 ^ (e - k) * 10 ^ k) := by
          rw [hback, ← sub_mul, abs_mul, abs_of_pos (a := (10 : ℚ) ^ (e - k)) (by positivity)]
          ring
      _ ≤ 1 / 2 * 2 * 10 ^ e := by
          rw [hpow]
          gcongr
          exact g.abs_round_sub_val
      _ ≤ f.val := by linarith
  have hround := round_le hhi
  have hround' := le_round hlo
  split
  · next hd =>
    refine ⟨le_rfl, Nat.pow_lt_pow_right (by omega) (by omega), ?_⟩
    rw [hd] at herr
    convert herr using 4
    simp only [Nat.pow_eq, Nat.add_sub_cancel]
    push_cast
    rw [show e + 1 - (k : Int) = e - k + 1 by omega, zpow_add_one₀ (by norm_num)]
    ring
  · next hd => exact ⟨hround', lt_of_le_of_ne hround hd, herr⟩

end Decimal

/-! ## Doubles -/

namespace Double

variable {f : Fraction} {m : Nat}

theorem binaryExponent_lt {k : Int} (hne : f.val ≠ 0) (h : f.val < 2 ^ k) : f.binaryExponent < k :=
  (zpow_lt_zpow_iff_right₀ one_lt_two).mp ((Fraction.binaryExponent_spec hne).1.trans_lt h)

theorem le_binaryExponent {k : Int} (h : (2 : ℚ) ^ k ≤ f.val) : k ≤ f.binaryExponent := by
  have hne : f.val ≠ 0 := (lt_of_lt_of_le (by positivity) h).ne'
  have := h.trans_lt (Fraction.binaryExponent_spec hne).2
  exact Int.lt_add_one_iff.mp ((zpow_lt_zpow_iff_right₀ one_lt_two).mp this)

theorem inUnits_of_close {n : Nat} {e : Int} (h : |f.val - n * 2 ^ e| < 2 ^ e / 2) :
    inUnits f e = n := by
  apply Fraction.round_of_close
  have hpos : (0 : ℚ) < 2 ^ e := by positivity
  have hmul : (f.val * 2 ^ (-e) - n) * 2 ^ e = f.val - n * 2 ^ e := by
    rw [sub_mul, mul_assoc, ← zpow_add₀ two_ne_zero, neg_add_cancel, zpow_zero, mul_one]
  rw [Fraction.val_scale2]
  rw [← hmul, abs_mul, abs_of_pos hpos] at h
  linarith [lt_of_mul_lt_mul_right (by linarith : |f.val * 2 ^ (-e) - n| * 2 ^ e < 1 / 2 * 2 ^ e)
    hpos.le]

/-- A fraction whose units are `2 ^ e` goes to the number of units it is close to. -/
theorem nearest_of_units {n : Nat} {e : Int} (hm : m < infinity) (hne : f.val ≠ 0)
    (he : max (f.binaryExponent - 52) (-1074) = e) (hclose : |f.val - n * 2 ^ e| < 2 ^ e / 2)
    (hn : (e + 1074).toNat * binade + n = m) : nearest f = m := by
  rw [nearest, if_neg (by rwa [Fraction.isZero_iff]), he]
  show min infinity ((e + 1074).toNat * binade + inUnits f e) = m
  rw [inUnits_of_close hclose, hn]
  exact min_eq_right hm.le

/-- Of `n` units, the seventeenth digit is less than half a unit if `n` has 53 bits. -/
theorem lt_half_unit {x u : ℚ} {n : Nat} (hu : 0 < u) (hn : n < 2 * binade)
    (h : |x - n * u| * (2 * 10 ^ 16) ≤ n * u) : |x - n * u| < u / 2 := by
  have hn' : (n : ℚ) ≤ 2 ^ 53 := by exact_mod_cast hn.le
  have : (n : ℚ) * u ≤ 2 ^ 53 * u := by gcongr
  linarith

theorem nearest_of_close_subnormal (hb : m < binade)
    (h : |f.val - (fraction m).val| * (2 * 10 ^ 16) ≤ (fraction m).val) : nearest f = m := by
  have hinf : m < infinity := hb.trans (by decide)
  rcases Nat.eq_zero_or_pos m with rfl | hpos
  · -- Nothing but zero is as close to zero.
    have hz : (fraction 0).val = 0 := by simp [val_of_subnormal hb]
    rw [hz, sub_zero] at h
    have : |f.val| = 0 := le_antisymm (by linarith) (abs_nonneg _)
    exact nearest_of_val hinf (by rw [hz, abs_eq_zero.mp this])
  rw [val_of_subnormal hb] at h
  have hu : (0 : ℚ) < 2 ^ (-1074 : Int) := by positivity
  have hclose := lt_half_unit hu (by omega) h
  have hbounds := abs_lt.mp hclose
  have hm1 : (1 : ℚ) * 2 ^ (-1074 : Int) ≤ m * 2 ^ (-1074 : Int) := by
    gcongr
    exact_mod_cast hpos
  have hm2 : ((m : ℚ) + 1) * 2 ^ (-1074 : Int) ≤ 2 ^ (52 : Int) * 2 ^ (-1074 : Int) := by
    gcongr
    exact_mod_cast hb
  have hlt : f.val < 2 ^ (-1022 : Int) := by
    rw [show (-1022 : Int) = 52 + -1074 by omega, zpow_add₀ two_ne_zero]
    linarith
  have hne : f.val ≠ 0 := by
    intro h0
    rw [h0] at hbounds
    linarith
  have he := binaryExponent_lt hne hlt
  exact nearest_of_units hinf hne (by omega) hclose (by simp)

/-- Right below a power of two the units are half as large, unless they are the smallest. -/
theorem nearest_of_close_below (hb : binade ≤ m) (hm : m < infinity)
    (h : |f.val - significand m * 2 ^ exponent m| * (2 * 10 ^ 16) ≤ significand m * 2 ^ exponent m)
    (hlow : (2 : ℚ) ^ (52 : Int) * 2 ^ exponent m ≤ significand m * 2 ^ exponent m)
    (hlt : f.val < 2 ^ (exponent m + 52)) : nearest f = m := by
  have hu : (0 : ℚ) < 2 ^ exponent m := by positivity
  have hclose := lt_half_unit hu (significand_lt m) h
  have hbounds := abs_lt.mp hclose
  have hmag := magnitude_of_normal hb
  have hS : significand m = binade := by
    have hlt' := hlt
    rw [add_comm, zpow_add₀ two_ne_zero] at hlt'
    have : (significand m : ℚ) < 2 ^ (52 : Int) + 1 :=
      lt_of_mul_lt_mul_right (by linarith :
        (significand m : ℚ) * 2 ^ exponent m < (2 ^ (52 : Int) + 1) * 2 ^ exponent m) hu.le
    have : significand m < 2 ^ 52 + 1 := by exact_mod_cast this
    have := binade_le_significand hb
    have : binade = 2 ^ 52 := rfl
    omega
  have hge : (2 : ℚ) ^ (exponent m + 51) ≤ f.val := by
    rw [add_comm, zpow_add₀ two_ne_zero]
    norm_num at hlow ⊢
    linarith
  have hne : f.val ≠ 0 := (lt_of_lt_of_le (by positivity) hge).ne'
  have h1 := binaryExponent_lt hne hlt
  have h2 := le_binaryExponent hge
  rcases eq_or_lt_of_le (le_exponent m) with hE | hE
  · exact nearest_of_units hm hne (by omega) hclose hmag
  have hhalf : (2 : ℚ) ^ exponent m = 2 * 2 ^ (exponent m - 1) := by
    rw [← zpow_one_add₀ two_ne_zero, add_sub_cancel]
  have hclose' : |f.val - (2 * binade : Nat) * 2 ^ (exponent m - 1)| < 2 ^ (exponent m - 1) / 2 := by
    rw [hS, hhalf] at h
    have hu' : (0 : ℚ) < 2 ^ (exponent m - 1) := by positivity
    have hbin : (binade : ℚ) = 4503599627370496 := by norm_num [binade]
    have htwice : ((2 * binade : Nat) : ℚ) * 2 ^ (exponent m - 1) =
        binade * (2 * 2 ^ (exponent m - 1)) := by
      push_cast
      ring
    rw [htwice]
    rw [hbin] at h ⊢
    linarith
  refine nearest_of_units hm hne (by omega) hclose' ?_
  have hstep : (exponent m + 1074).toNat = (exponent m - 1 + 1074).toNat + 1 := by omega
  rw [hS, hstep, Nat.add_one_mul] at hmag
  omega

theorem nearest_of_close_normal (hb : binade ≤ m) (hm : m < infinity)
    (h : |f.val - (fraction m).val| * (2 * 10 ^ 16) ≤ (fraction m).val) : nearest f = m := by
  rw [val_fraction] at h
  have hu : (0 : ℚ) < 2 ^ exponent m := by positivity
  have hclose := lt_half_unit hu (significand_lt m) h
  have hbounds := abs_lt.mp hclose
  have hlow : (2 : ℚ) ^ (52 : Int) * 2 ^ exponent m ≤ significand m * 2 ^ exponent m := by
    gcongr
    exact_mod_cast binade_le_significand hb
  have hhigh : ((significand m : ℚ) + 1) * 2 ^ exponent m ≤ 2 ^ (53 : Int) * 2 ^ exponent m := by
    gcongr
    exact_mod_cast significand_lt m
  rcases le_or_gt ((2 : ℚ) ^ (exponent m + 52)) f.val with hge | hlt
  · -- The exponent is the same, and so are the units.
    have hlt : f.val < 2 ^ (exponent m + 53) := by
      rw [add_comm, zpow_add₀ two_ne_zero]
      linarith
    have hne : f.val ≠ 0 := (lt_of_lt_of_le (by positivity) hge).ne'
    have h1 := binaryExponent_lt hne hlt
    have h2 := le_binaryExponent hge
    have hE := le_exponent m
    exact nearest_of_units hm hne (by omega) hclose (magnitude_of_normal hb)
  · exact nearest_of_close_below hb hm h hlow hlt

/-- What differs from a finite double in its seventeenth digit at most is nearest to it. -/
theorem nearest_of_close (hm : m < infinity)
    (h : |f.val - (fraction m).val| * (2 * 10 ^ 16) ≤ (fraction m).val) : nearest f = m := by
  rcases Nat.lt_or_ge m binade with hb | hb
  · exact nearest_of_close_subnormal hb h
  · exact nearest_of_close_normal hb hm h

end Double

end ScriptEngine
