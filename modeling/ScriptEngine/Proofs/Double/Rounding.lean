import Mathlib.Order.Monotone.Basic
import ScriptEngine.Proofs.Double.Grid

/-!
# Rounding to doubles and to digits

The magnitudes count the doubles upwards (`Double.val_strictMono`), and `Double.nearest` is the one
nearest to a fraction (`Double.nearest_spec`). Infinity takes part with the value that the next number
would have, and takes all that is above.

To 53 bits without a least exponent, and to `p` decimal digits, fractions are rounded in the same way
(`Double.isTiny_iff`, `Decimal.significant_nearest`).
-/

namespace ScriptEngine

namespace Double

variable {f : Fraction} {m : Nat} {q : ℚ}

/-! ## Magnitudes -/

theorem binade_pos : 0 < binade := by decide

theorem even_binade : Even binade := by decide

theorem even_infinity : Even infinity := even_binade.mul_left 2047

/-- The value of `k` units, `j` exponents above the least one. -/
theorem val_steps {j k : Nat} (hk : k ≤ 2 * binade) (hj : j = 0 ∨ binade ≤ k) :
    (fraction (j * binade + k)).val = k * 2 ^ ((j : Int) - 1074) := by
  have hpos := binade_pos
  rcases Nat.lt_or_ge k binade with hlow | hlow
  · obtain rfl := hj.resolve_right (Nat.not_le.mpr hlow)
    rw [Nat.zero_mul, Nat.zero_add, val_of_subnormal hlow]
    norm_num
  have hnormal : ¬j * binade + k < binade := by omega
  rw [val_fraction, significand, exponent, if_neg hnormal, if_neg hnormal]
  rcases Nat.lt_or_ge k (2 * binade) with hhigh | hhigh
  · have hm : j * binade + k = (k - binade) + binade * (j + 1) := by
      rw [Nat.mul_succ, Nat.mul_comm]
      omega
    rw [hm, Nat.add_mul_mod_self_left, Nat.add_mul_div_left _ _ hpos,
      Nat.mod_eq_of_lt (by omega), Nat.div_eq_of_lt (by omega)]
    rw [show binade + (k - binade) = k by omega]
    congr 2
    omega
  · obtain rfl : k = 2 * binade := by omega
    have hm : j * binade + 2 * binade = binade * (j + 2) := by ring
    rw [hm, Nat.mul_mod_right, Nat.mul_div_cancel_left _ hpos, Nat.add_zero,
      show ((j + 2 : Nat) : Int) - 1075 = (j : Int) - 1074 + 1 by omega, zpow_add_one₀ two_ne_zero]
    push_cast
    ring

/-- Every magnitude is a number of units at some exponent. -/
theorem steps (m : Nat) : ((exponent m + 1074).toNat = 0 ∨ binade ≤ significand m) ∧
    (exponent m + 1074).toNat * binade + significand m = m := by
  rcases Nat.lt_or_ge m binade with h | h
  · rw [exponent, significand, if_pos h, if_pos h]
    exact ⟨.inl rfl, by simp⟩
  · exact ⟨.inr (binade_le_significand h), magnitude_of_normal h⟩

theorem val_succ (m : Nat) : (fraction (m + 1)).val = (fraction m).val + 2 ^ exponent m := by
  obtain ⟨hj, hm⟩ := steps m
  have hle := le_exponent m
  have he : ((exponent m + 1074).toNat : Int) - 1074 = exponent m := by omega
  have hs : significand m + 1 ≤ 2 * binade := significand_lt m
  have hnext := val_steps hs (hj.imp_right fun h => h.trans (Nat.le_succ _))
  rw [← Nat.add_assoc, hm, he] at hnext
  rw [hnext, val_fraction]
  push_cast
  ring

theorem val_strictMono : StrictMono fun m => (fraction m).val := by
  refine strictMono_nat_of_lt_succ fun m => ?_
  have hpos : (0 : ℚ) < 2 ^ exponent m := by positivity
  rw [val_succ]
  linarith

/-! ## The nearest double -/

/-- The finite magnitudes, and infinity with the value `2 ^ 1024`. -/
def grid : Grid Nat where
  Mem m := m ≤ infinity
  val m := (fraction m).val
  IsEven := Even

theorem grid_alternates : grid.Alternates := by
  intro i j _ (hj : j ≤ infinity) (hei : Even i) (hej : Even j) hlt
  have hij : i < j := val_strictMono.lt_iff_lt.mp hlt
  have hne : i + 1 ≠ j := by
    intro h
    rw [← h, Nat.even_add_one] at hej
    exact hej hei
  refine ⟨i + 1, ?_, val_strictMono (Nat.lt_succ_self i), val_strictMono (by omega)⟩
  show i + 1 ≤ infinity
  omega

/-- In the units in which a fraction is rounded, every double is whole or below the fraction. -/
theorem units_of_magnitude (hne : f.val ≠ 0) (j : Nat) :
    (∃ n : Nat, (fraction j).val = n * 2 ^ max (f.binaryExponent - 52) (-1074)) ∨
    ∃ n : Nat, (fraction j).val < n * 2 ^ max (f.binaryExponent - 52) (-1074) ∧
      n * 2 ^ max (f.binaryExponent - 52) (-1074) ≤ f.val := by
  have hlow := le_exponent j
  set e := max (f.binaryExponent - 52) (-1074) with he
  rcases le_or_gt e (exponent j) with hle | hgt
  · obtain ⟨k, hk⟩ := Int.le.dest hle
    refine .inl ⟨significand j * 2 ^ k, ?_⟩
    rw [val_fraction, ← hk, zpow_add₀ two_ne_zero, zpow_natCast]
    push_cast
    ring
  · refine .inr ⟨binade, ?_, ?_⟩
    · calc (fraction j).val = significand j * 2 ^ exponent j := val_fraction j
        _ < (2 * binade : Nat) * 2 ^ exponent j := by
          gcongr
          exact significand_lt j
        _ = binade * 2 ^ (exponent j + 1) := by
          rw [zpow_add_one₀ two_ne_zero]
          push_cast
          ring
        _ ≤ binade * 2 ^ e := by
          gcongr
          · exact one_le_two
          · omega
    · calc (binade : ℚ) * 2 ^ e = 2 ^ (52 : Int) * 2 ^ e := by norm_num [binade]
        _ = 2 ^ f.binaryExponent := by
          rw [← zpow_add₀ two_ne_zero]
          congr 1
          omega
        _ ≤ f.val := (Fraction.binaryExponent_spec hne).1

/-- Of all magnitudes, also those beyond infinity, the nearest to a fraction. -/
theorem nearest_unlimited (hne : f.val ≠ 0) :
    ∃ m, nearest f = min infinity m ∧
      ({ grid with Mem := fun _ => True } : Grid Nat).Nearest f.val m := by
  obtain ⟨hlo, hhi⟩ := Fraction.binaryExponent_spec hne
  rw [nearest, if_neg (by rwa [Fraction.isZero_iff])]
  simp only
  have hother := units_of_magnitude hne
  set e := max (f.binaryExponent - 52) (-1074) with he
  refine ⟨_, rfl, ?_⟩
  have hu : (0 : ℚ) < 2 ^ e := by positivity
  have hback : (f.scale2 (-e)).val * 2 ^ e = f.val := by
    rw [Fraction.val_scale2, mul_assoc, ← zpow_add₀ two_ne_zero, neg_add_cancel, zpow_zero, mul_one]
  have hsteps : ((e + 1074).toNat : Int) - 1074 = e := by omega
  -- There are at most 53 bits, and 53 if the exponent is not the least one.
  have hbits : inUnits f e ≤ 2 * binade := by
    refine Fraction.round_le (le_of_lt (lt_of_mul_lt_mul_right ?_ hu.le))
    rw [hback]
    calc f.val < 2 ^ (f.binaryExponent + 1) := hhi
      _ ≤ 2 ^ (53 + e) := zpow_le_zpow_right₀ one_le_two (by omega)
      _ = (2 * binade : Nat) * 2 ^ e := by
        rw [zpow_add₀ two_ne_zero]
        norm_num [binade]
  have hnormal : (e + 1074).toNat = 0 ∨ binade ≤ inUnits f e := by
    rcases eq_or_ne e (-1074) with h | h
    · exact .inl (by omega)
    · refine .inr (Fraction.le_round (le_of_mul_le_mul_right ?_ hu))
      rw [hback]
      calc (binade : ℚ) * 2 ^ e = 2 ^ (52 + e) := by
            rw [zpow_add₀ two_ne_zero]
            norm_num [binade]
        _ ≤ 2 ^ f.binaryExponent := zpow_le_zpow_right₀ one_le_two (by omega)
        _ ≤ f.val := hlo
  refine Grid.nearest_of_units hu hback trivial ?_ (fun h => ?_) fun j _ => hother j
  · show (fraction _).val = _
    rw [val_steps hbits hnormal, hsteps]
    rfl
  · exact (even_binade.mul_left _).add h

theorem nearest_spec (f : Fraction) : grid.Nearest f.val (nearest f) := by
  by_cases h0 : f.val = 0
  · have hn : nearest f = 0 := if_pos (Fraction.isZero_iff.mpr h0)
    rw [hn]
    refine Grid.nearest_of_val (Nat.zero_le _) ?_
    rw [h0]
    simp [grid, val_of_subnormal binade_pos]
  obtain ⟨m, hn, hm⟩ := nearest_unlimited h0
  rw [hn]
  rcases le_total m infinity with hle | hle
  · rw [min_eq_right hle]
    exact ⟨hle, fun j _ => hm.closest j trivial, fun j _ => hm.tie j trivial⟩
  rw [min_eq_left hle]
  refine ⟨le_rfl, fun j hj => ?_, fun j _ _ => .inr even_infinity⟩
  -- A double below infinity is not closer than infinity, or else it were closer than `m`.
  have hj' : (fraction j).val ≤ (fraction infinity).val := val_strictMono.monotone hj
  have hm' : (fraction infinity).val ≤ (fraction m).val := val_strictMono.monotone hle
  have hc : |(fraction m).val - f.val| ≤ |(fraction j).val - f.val| := hm.closest j trivial
  show |(fraction infinity).val - f.val| ≤ |(fraction j).val - f.val|
  rcases abs_cases ((fraction infinity).val - f.val) with ⟨h1, _⟩ | ⟨h1, _⟩ <;>
    rcases abs_cases ((fraction j).val - f.val) with ⟨h2, _⟩ | ⟨h2, _⟩ <;>
    rcases abs_cases ((fraction m).val - f.val) with ⟨h3, _⟩ | ⟨h3, _⟩ <;>
    rw [h2, h3] at hc <;> rw [h1, h2] <;> linarith

theorem nearest_iff : grid.Nearest f.val m ↔ nearest f = m := by
  constructor
  · intro h
    exact val_strictMono.injective ((nearest_spec f).val_eq grid_alternates h)
  · rintro rfl
    exact nearest_spec f

/-! ## Underflow -/

/-- Below the normal numbers, when rounded to 53 bits whatever the exponent. -/
def Tiny (q : ℚ) : Prop :=
  ∃ i, (Grid.floating 2 53).Nearest q i ∧ (Grid.floating 2 53).val i < 2 ^ (-1022 : Int)

theorem roundUnbounded_nearest (hne : f.val ≠ 0) : ∃ i, (Grid.floating 2 53).Nearest f.val i ∧
    (Grid.floating 2 53).val i = (roundUnbounded f).val := by
  obtain ⟨lo, hi⟩ := Fraction.binaryExponent_spec hne
  rw [roundUnbounded]
  set e := f.binaryExponent - 52 with he
  have hback : (f.scale2 (-e)).val * ((2 : Nat) : ℚ) ^ e = f.val := by
    rw [Fraction.val_scale2, Nat.cast_ofNat, mul_assoc, ← zpow_add₀ two_ne_zero, neg_add_cancel,
      zpow_zero, mul_one]
  refine ⟨_, Grid.floating_nearest (by decide) even_two (by decide) ?_ ?_ hback, ?_⟩
  · rwa [Nat.cast_ofNat, show e + ((53 - 1 : Nat) : Int) = f.binaryExponent by omega]
  · rwa [Nat.cast_ofNat, show e + ((53 : Nat) : Int) = f.binaryExponent + 1 by omega]
  · rw [Fraction.val_scale2, Fraction.val_ofNat, inUnits]
    split
    · next hcarry =>
      rw [hcarry]
      simp only [Grid.floating]
      rw [zpow_add_one₀ (by norm_num)]
      norm_num
      ring
    · simp [Grid.floating]

theorem isTiny_iff (hne : f.val ≠ 0) : isTiny f = true ↔ Tiny f.val := by
  obtain ⟨i, hi, hv⟩ := roundUnbounded_nearest hne
  rw [isTiny, Fraction.less_iff, Fraction.val_scale2, Fraction.val_ofNat, Nat.cast_one, one_mul, ← hv]
  constructor
  · exact fun h => ⟨i, hi, h⟩
  · rintro ⟨j, hj, h⟩
    rwa [hi.val_eq (Grid.floating_alternates (by decide) even_two (by decide)) hj]

end Double

namespace Decimal

variable {f : Fraction} {p : Nat}

/-- The significant digits are those of the nearest number that has so many. -/
theorem significant_nearest (hp : 1 < p) (hne : f.val ≠ 0) : (Grid.floating 10 p).Nearest f.val
    ((significant p f).1, (significant p f).2 - (p - 1 : Nat)) := by
  obtain ⟨lo, hi⟩ := Fraction.decimalExponent_spec hne
  set e := f.decimalExponent with he
  have hback : (f.scale10 ((p : Int) - 1 - e)).val * ((10 : Nat) : ℚ) ^ (e - (p - 1 : Nat)) =
      f.val := by
    rw [Fraction.val_scale10, Nat.cast_ofNat, mul_assoc, ← zpow_add₀ (by norm_num),
      show (p : Int) - 1 - e + (e - (p - 1 : Nat)) = 0 by omega, zpow_zero, mul_one]
  have h : (Grid.floating 10 p).Nearest f.val _ :=
    Grid.floating_nearest (by decide) (by decide) hp (by rwa [Nat.cast_ofNat, sub_add_cancel])
      (by rwa [Nat.cast_ofNat, show e - ((p - 1 : Nat) : Int) + p = e + 1 by omega]) hback
  unfold significant
  simp only [← he]
  split
  · next hcarry =>
    rw [if_pos (by exact hcarry), show e - ((p - 1 : Nat) : Int) + 1 = e + 1 - (p - 1 : Nat) by omega]
      at h
    exact h
  · next hfit => rwa [if_neg (by exact hfit)] at h

end Decimal

end ScriptEngine
