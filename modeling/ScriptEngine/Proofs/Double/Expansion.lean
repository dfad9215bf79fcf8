import ScriptEngine.Proofs.Double.Value
import ScriptEngine.Proofs.Text.Digits

/-!
# Exact decimal expansions

A finite double is a whole number of units of a power of two, so that its decimal expansion ends.
`Double.expansion` is that expansion as a numeral; read again, it is the double it came from
(`value?_expansion`).
-/

namespace ScriptEngine

namespace Numeral

variable {n : Numeral} {m : Nat}

theorem val_exact (n : Numeral) : n.exact.val =
    Text.digitsValue n.whole +
      (Text.digitsValue (n.fraction.getD []) : ℚ) / 10 ^ (n.fraction.getD []).length := by
  simp only [exact, Fraction.val_scale10, Fraction.val_ofNat, Text.digitsValue_append, zpow_neg,
    zpow_natCast]
  push_cast
  field_simp

/-- A numeral with the value of a finite double is in range, and denotes it. -/
theorem value?_of_val (hm : m < Double.infinity) (h : n.exact.val = (Double.fraction m).val) :
    n.value? = some (Double.ofMagnitude m) := by
  have hn := Double.nearest_of_val hm h
  simp only [value?, hn, if_neg (Nat.ne_of_lt hm)]
  rcases Nat.lt_or_ge m Double.binade with hb | hb
  · simp [Double.tinyIs_of_subnormal hb h]
  · simp [Double.isTiny_of_normal hb h]

/-- What a numeral denotes is finite. -/
theorem value?_eq_some {x : Double} (h : n.value? = some x) :
    ∃ m < Double.infinity, x = Double.ofMagnitude m := by
  have hle := Double.nearest_le n.exact
  unfold value? at h
  simp only at h
  split at h
  · cases h
  · next hne =>
    split at h
    · cases h
    · exact ⟨_, by omega, (Option.some.inj h).symm⟩

end Numeral

namespace Text

theorem digitsValue_dropTrailingZeros (ds : Text) :
    (digitsValue (Decimal.dropTrailingZeros ds) : ℚ) / 10 ^ (Decimal.dropTrailingZeros ds).length =
      digitsValue ds / 10 ^ ds.length := by
  obtain ⟨k, hk⟩ := eq_dropTrailingZeros_append ds
  generalize Decimal.dropTrailingZeros ds = es at hk ⊢
  subst hk
  rw [digitsValue_append, digitsValue_replicate_zero, List.length_append, List.length_replicate]
  push_cast
  field_simp
  ring

end Text

namespace Double

/-- The digits after the point in the expansion of a finite magnitude: a half is five tenths. -/
def expansionDigits (m : Nat) : Text :=
  let k := (-exponent m).toNat
  Decimal.dropTrailingZeros
    (Text.padded k ((fraction m).num % (fraction m).den * 5 ^ k))

/-- The decimal expansion of a finite magnitude. -/
def expansion (m : Nat) : Numeral where
  whole := Text.ofNat (fraction m).floor
  fraction := if expansionDigits m = [] then none else some (expansionDigits m)

theorem isDigits_expansionDigits (m : Nat) : Text.IsDigits (expansionDigits m) :=
  Text.isDigits_dropTrailingZeros (Text.isDigits_padded _ _)

theorem getD_expansion (m : Nat) : (expansion m).fraction.getD [] = expansionDigits m := by
  simp only [expansion]
  split
  · next h => simp [h]
  · rfl

theorem isLiteral_expansion (m : Nat) : (expansion m).IsLiteral where
  whole_ne_nil := Text.ofNat_ne_nil _
  isDigits_whole := Text.isDigits_ofNat _
  fraction_ne_nil := by
    simp only [expansion]
    split
    · simp
    · next h => simpa using h
  isDigits_fraction := by
    intro ds hds
    simp only [expansion] at hds
    split at hds
    · cases hds
    · cases hds
      exact isDigits_expansionDigits m

theorem den_fraction (m : Nat) : (fraction m).den = 2 ^ (-exponent m).toNat := by
  simp [fraction, Fraction.scale2, Fraction.scale, Fraction.ofNat]

/-- The expansion is exact. -/
theorem exact_expansion (m : Nat) : (expansion m).exact.val = (fraction m).val := by
  have hd := den_fraction m
  have hlt : (fraction m).num % (fraction m).den * 5 ^ (-exponent m).toNat <
      10 ^ (-exponent m).toNat := by
    have := Nat.mod_lt (fraction m).num (fraction m).den_pos
    rw [show 10 = 2 * 5 from rfl, Nat.mul_pow, ← hd]
    exact Nat.mul_lt_mul_of_pos_right this (by positivity)
  have hdiv : ((fraction m).num : ℚ) = (fraction m).floor * (fraction m).den +
      ((fraction m).num % (fraction m).den : Nat) := by
    exact_mod_cast (Nat.div_add_mod' _ _).symm
  have hne := (fraction m).den_ne_zero
  rw [Numeral.val_exact, getD_expansion, expansionDigits, Text.digitsValue_dropTrailingZeros,
    Text.digitsValue_padded hlt, Text.length_padded, Fraction.val, hdiv]
  simp only [expansion, Text.digitsValue_ofNat]
  rw [hd] at hne ⊢
  push_cast
  rw [show (10 : ℚ) = 2 * 5 by norm_num, mul_pow]
  field_simp

theorem value?_expansion {m : Nat} (hm : m < infinity) :
    (expansion m).value? = some (ofMagnitude m) :=
  Numeral.value?_of_val hm (exact_expansion m)

end Double

end ScriptEngine
