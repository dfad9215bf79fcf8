import ScriptEngine.Proofs.Double.Figure
import ScriptEngine.Proofs.Double.Rounding

/-!
# Numbers in the range of the doubles

`Double.IsRounding q x`: rounding `q` gives the double `x`. A number that is not negative is in range
(`Double.InRange`) if it is not rounded to infinity and not lost below the normal numbers, and a
numeral has a value just when it is in range, namely what it is rounded to
(`Numeral.value?_eq_some_iff`).
-/

namespace ScriptEngine

theorem Fraction.val_nonneg (f : Fraction) : 0 ≤ f.val := by
  unfold val
  positivity

namespace Double

variable {f : Fraction} {m : Nat} {q q' : ℚ} {x y : Double}

/-! ## Rounding with a sign -/

/-- The value of a finite double. -/
def val (x : Double) : ℚ :=
  if x.isNegative then -(fraction x.magnitude).val else (fraction x.magnitude).val

/-- The double is what a number is rounded to. The zero of this name has no sign. -/
structure IsRounding (q : ℚ) (x : Double) : Prop where
  sign : x.isNegative = true ↔ q < 0
  nearest : grid.Nearest |q| x.magnitude

theorem IsRounding.eq (hx : IsRounding q x) (hy : IsRounding q y) : x = y := by
  have hsign : x.isNegative = y.isNegative := Bool.eq_iff_iff.mpr (hx.sign.trans hy.sign.symm)
  have hmag : x.magnitude = y.magnitude :=
    val_strictMono.injective (hx.nearest.val_eq grid_alternates hy.nearest)
  rw [← ofSign_magnitude x, ← ofSign_magnitude y, hsign, hmag]

theorem IsRounding.val_mono (hx : IsRounding q x) (hy : IsRounding q' y) (h0 : 0 ≤ q) (h : q ≤ q') :
    x.val ≤ y.val := by
  have hpos {p : ℚ} {z : Double} (hz : IsRounding p z) (hp : 0 ≤ p) : z.isNegative = false := by
    rw [Bool.eq_false_iff, ne_eq, hz.sign]
    exact not_lt.mpr hp
  have hnx := hx.nearest
  have hny := hy.nearest
  rw [abs_of_nonneg h0] at hnx
  rw [abs_of_nonneg (h0.trans h)] at hny
  rw [val, val, hpos hx h0, hpos hy (h0.trans h)]
  exact hnx.mono grid_alternates hny h

theorem bits_ofMagnitude (h : m ≤ infinity) : (ofMagnitude m).bits.toNat = m :=
  UInt64.toNat_ofNat_of_lt' (h.trans_lt (by decide))

theorem magnitude_ofMagnitude (h : m ≤ infinity) : (ofMagnitude m).magnitude = m := by
  rw [magnitude, bits_ofMagnitude h]
  exact Nat.mod_eq_of_lt (h.trans_lt (by decide))

theorem isNegative_ofMagnitude (h : m ≤ infinity) : (ofMagnitude m).isNegative = false := by
  have hlt : m < signBit := h.trans_lt (by decide)
  simpa [isNegative, bits_ofMagnitude h] using hlt

theorem isRounding_nearest (f : Fraction) : IsRounding f.val (ofMagnitude (nearest f)) := by
  have hle := nearest_le f
  constructor
  · rw [isNegative_ofMagnitude hle]
    simpa using f.val_nonneg
  · rw [magnitude_ofMagnitude hle, abs_of_nonneg f.val_nonneg]
    exact nearest_spec f

theorem not_nearest_infinity (hm : m < infinity) (h : q ≤ (fraction m).val) :
    ¬grid.Nearest q infinity := by
  intro hn
  have hself : grid.Nearest (fraction m).val m := Grid.nearest_of_val hm.le rfl
  exact absurd (hn.mono grid_alternates hself h) (not_le.mpr (val_strictMono hm))

/-! ## What is lost below the normal numbers -/

/-- The value of a finite double that is not negative. -/
def IsValue (q : ℚ) : Prop := ∃ m < infinity, (fraction m).val = q

/-- A quarter of the least double above a double, from `2 ^ -1023` up. -/
def IsQuarterAbove (q : ℚ) : Prop :=
  2 ^ (-1023 : Int) ≤ q ∧ ∃ m < infinity, (fraction m).val + 2 ^ (-1076 : Int) = q

/-- Not rounded to infinity; and if it is too small for a normal number, then zero, a double, or a
quarter above one. -/
structure InRange (q : ℚ) : Prop where
  finite : ¬grid.Nearest q infinity
  kept : q ≠ 0 → Tiny q → IsValue q ∨ IsQuarterAbove q

theorem val_binade : (fraction binade).val = 2 ^ (-1022 : Int) := by
  have h := val_steps (j := 0) (k := binade) (by omega) (.inl rfl)
  rw [Nat.zero_mul, Nat.zero_add] at h
  rw [h, show (-1022 : Int) = 52 + -1074 by omega, zpow_add₀ two_ne_zero]
  norm_num [binade]

theorem lt_binade (h : (fraction m).val < 2 ^ (-1022 : Int)) : m < binade := by
  rw [← val_binade] at h
  exact val_strictMono.lt_iff_lt.mp h

theorem Tiny.lt (h : Tiny q) : q < 2 ^ (-1022 : Int) := by
  obtain ⟨i, hi, hlt⟩ := h
  by_contra hge
  have hval : (Grid.floating 2 53).val (2 ^ 52, -1074) = 2 ^ (-1022 : Int) := by
    rw [show (-1022 : Int) = 52 + -1074 by omega, zpow_add₀ two_ne_zero]
    norm_num [Grid.floating]
  have hleast : (Grid.floating 2 53).Nearest (2 ^ (-1022 : Int)) (2 ^ 52, -1074) :=
    Grid.nearest_of_val ⟨le_rfl, by norm_num⟩ hval
  have hmono := hleast.mono (Grid.floating_alternates (by decide) even_two (by decide)) hi
    (not_lt.mp hge)
  rw [hval] at hmono
  exact absurd hlt (not_lt.mpr hmono)

/-- In units of the least double. -/
theorem val_of_lt {n : Nat} (h : (n : ℚ) * 2 ^ (-1074 : Int) < 2 ^ (-1022 : Int)) :
    n < binade ∧ (fraction n).val = n * 2 ^ (-1074 : Int) := by
  have hn : n < binade := by
    rw [show (-1022 : Int) = 52 + -1074 by omega, zpow_add₀ two_ne_zero] at h
    have := lt_of_mul_lt_mul_right h (by positivity)
    exact_mod_cast this
  exact ⟨hn, val_of_subnormal hn⟩

/-- A double is a whole number of least doubles. -/
theorem exists_units (m : Nat) : ∃ N : Nat, (fraction m).val = N * 2 ^ (-1074 : Int) := by
  obtain ⟨k, hk⟩ := Int.le.dest (le_exponent m)
  refine ⟨significand m * 2 ^ k, ?_⟩
  rw [val_fraction, ← hk, zpow_add₀ two_ne_zero, zpow_natCast]
  generalize (2 : ℚ) ^ (-1074 : Int) = u
  push_cast
  ring

theorem nearest_of_quarter (hm : m < binade)
    (h : (fraction m).val + 2 ^ (-1076 : Int) = f.val) (hlt : f.val < 2 ^ (-1022 : Int)) :
    nearest f = m := by
  rw [val_of_subnormal hm] at h
  have hpos : (0 : ℚ) < 2 ^ (-1076 : Int) := by positivity
  have hunit : (2 : ℚ) ^ (-1074 : Int) = 4 * 2 ^ (-1076 : Int) := by
    rw [show (-1074 : Int) = 2 + -1076 by omega, zpow_add₀ two_ne_zero]
    norm_num
  have hge : 0 ≤ (m : ℚ) * 2 ^ (-1074 : Int) := by positivity
  have hne : f.val ≠ 0 := by linarith
  have he := binaryExponent_lt hne hlt
  refine nearest_of_units (hm.trans (by decide)) hne (show _ = (-1074 : Int) by omega) (n := m) ?_
    (by simp)
  rw [← h, add_sub_cancel_left, abs_of_pos hpos, hunit]
  linarith

theorem quarter_units (n : Nat) : ((4 * n + 1 : Nat) : ℚ) * 2 ^ (-1076 : Int) =
    n * 2 ^ (-1074 : Int) + 2 ^ (-1076 : Int) := by
  rw [show (-1074 : Int) = 2 + -1076 by omega, zpow_add₀ two_ne_zero]
  generalize (2 : ℚ) ^ (-1076 : Int) = u
  push_cast
  ring

theorem tinyIs_iff {n : Nat} : tinyIs f n = true ↔ f.val = n * 2 ^ (-1074 : Int) ∨
    f.val = n * 2 ^ (-1074 : Int) + 2 ^ (-1076 : Int) ∧ 2 ^ (-1023 : Int) ≤ f.val := by
  have hless : (!f.less ((Fraction.ofNat 1).scale2 (-1023))) = true ↔ 2 ^ (-1023 : Int) ≤ f.val := by
    rw [Bool.not_eq_true', Bool.eq_false_iff, ne_eq, Fraction.less_iff, not_lt, Fraction.val_scale2,
      Fraction.val_ofNat, Nat.cast_one, one_mul]
  rw [tinyIs, Bool.or_eq_true, Bool.and_eq_true, hless, Fraction.equals_iff, Fraction.equals_iff,
    Fraction.val_scale2, Fraction.val_scale2, Fraction.val_ofNat, Fraction.val_ofNat, quarter_units]

theorem tinyIs_nearest (hlt : f.val < 2 ^ (-1022 : Int)) :
    tinyIs f (nearest f) = true ↔ IsValue f.val ∨ IsQuarterAbove f.val := by
  have hpos : (0 : ℚ) < 2 ^ (-1076 : Int) := by positivity
  rw [tinyIs_iff]
  constructor
  · rintro (h | ⟨h, hge⟩)
    · obtain ⟨hn, hv⟩ := val_of_lt (h ▸ hlt)
      exact .inl ⟨_, hn.trans (by decide), by rw [hv, ← h]⟩
    · obtain ⟨hn, hv⟩ := val_of_lt (n := nearest f) (by linarith)
      exact .inr ⟨hge, _, hn.trans (by decide), by rw [hv, ← h]⟩
  · rintro (⟨m, hm, h⟩ | ⟨hge, m, _, h⟩)
    · rw [nearest_of_val hm h.symm, ← h, val_of_subnormal (lt_binade (h ▸ hlt))]
      exact .inl rfl
    · have hb : m < binade := lt_binade (by linarith)
      rw [nearest_of_quarter hb h hlt, ← val_of_subnormal hb]
      exact .inr ⟨h.symm, hge⟩

end Double

/-! ## Numerals -/

namespace Numeral

open Double

variable {n : Numeral} {x : Double}

/-- A numeral has a value if it is in range. -/
theorem value?_eq_of_inRange (h : InRange n.exact.val) :
    n.value? = some (ofMagnitude (nearest n.exact)) := by
  have hinf : nearest n.exact ≠ infinity := fun he => h.finite (nearest_iff.mpr he)
  have hlost : ¬(!n.exact.isZero && isTiny n.exact && !tinyIs n.exact (nearest n.exact)) = true := by
    intro hlost
    rw [Bool.and_eq_true, Bool.and_eq_true, Bool.not_eq_true', Bool.not_eq_true',
      Bool.eq_false_iff, ne_eq, Fraction.isZero_iff, Bool.eq_false_iff] at hlost
    obtain ⟨⟨hne, ht⟩, hn⟩ := hlost
    rw [isTiny_iff hne] at ht
    exact hn ((tinyIs_nearest ht.lt).mpr (h.kept hne ht))
  simp only [value?]
  rw [if_neg hinf, if_neg hlost]

theorem inRange_of_value? (h : n.value? = some x) : InRange n.exact.val := by
  simp only [value?] at h
  split at h
  · cases h
  · next hinf =>
    refine ⟨fun hn => hinf (nearest_iff.mp hn), fun hne ht => ?_⟩
    split at h
    · cases h
    · next hlost =>
      have hz : n.exact.isZero = false := by rwa [Bool.eq_false_iff, ne_eq, Fraction.isZero_iff]
      have htiny : isTiny n.exact = true := (isTiny_iff hne).mpr ht
      rw [hz, htiny] at hlost
      exact (tinyIs_nearest ht.lt).mp (by simpa using hlost)

/-- A numeral denotes the double that it is rounded to, if it is in range, and nothing else. -/
theorem value?_eq_some_iff :
    n.value? = some x ↔ InRange n.exact.val ∧ IsRounding n.exact.val x := by
  constructor
  · intro h
    have hr := inRange_of_value? h
    rw [value?_eq_of_inRange hr] at h
    cases h
    exact ⟨hr, isRounding_nearest _⟩
  · rintro ⟨hr, hx⟩
    rw [value?_eq_of_inRange hr, hx.eq (isRounding_nearest _)]

theorem value?_eq_none_iff : n.value? = none ↔ ¬InRange n.exact.val := by
  constructor
  · intro h hr
    rw [value?_eq_of_inRange hr] at h
    cases h
  · intro h
    cases hv : n.value? with
    | none => rfl
    | some x => exact absurd (inRange_of_value? hv) h

end Numeral

end ScriptEngine
