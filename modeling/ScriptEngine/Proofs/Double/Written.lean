import ScriptEngine.Proofs.Double.Range

/-!
# Decimals as they are written

A `Decimal.Form` is a decimal with all that is seen of it: its sign, its digits around the point, and
the sign and digits of a power of ten. A text has at most one form (`Form.Writes.eq`), which says what
number it denotes.

The text of a finite double is written in the form of an integer, if it is a small one
(`Form.IsInteger`), and else rounded to some number of digits (`Form.IsRounded`); both are the
shortest of their kind (`Double.form_isOf`).
-/

namespace ScriptEngine

open Text

/-! ## Needless zeros -/

theorem Text.head?_ofNat {n : Nat} (h : 0 < n) : (ofNat n).head? ≠ some Byte.zero := by
  induction n using Nat.strongRecOn with
  | ind n ih =>
    rcases Nat.lt_or_ge n 10 with hlt | hge
    · rw [ofNat_of_lt hlt]
      have : ∀ n < 10, 0 < n → [digit n].head? ≠ some Byte.zero := by decide
      exact this n hlt h
    · rw [ofNat_of_le hge, List.head?_append_of_ne_nil _ (ofNat_ne_nil _)]
      exact ih (n / 10) (by omega) (by omega)

theorem Text.getLast?_dropTrailingZeros (ds : Text) :
    (Decimal.dropTrailingZeros ds).getLast? ≠ some Byte.zero := by
  rw [Decimal.dropTrailingZeros, List.getLast?_reverse]
  intro h
  have := stops_dropWhile (· == Byte.zero) ds.reverse Byte.zero h
  simp at this

namespace Numeral

/-- There is no zero in front that could be left out. -/
def NoLeadingZero (n : Numeral) : Prop := n.whole.head? = some Byte.zero → n.whole = [Byte.zero]

/-- There is no zero at the end of the fraction. -/
def NoTrailingZero (n : Numeral) : Prop := ∀ ds ∈ n.fraction, ds.getLast? ≠ some Byte.zero

theorem noTrailingZero_pointed {w ds : Text} (h : ds.getLast? ≠ some Byte.zero) :
    (pointed w ds).NoTrailingZero := by
  intro es hes
  unfold pointed at hes
  simp only [Option.mem_def] at hes
  split at hes
  · cases hes
  · cases hes
    exact h

end Numeral

/-! ## Forms -/

namespace Decimal

structure Form where
  negative : Bool
  numeral : Numeral
  /-- Whether the power of ten is negative, and its digits. -/
  exponent : Option (Bool × Text)

namespace Form

variable {w w' : Form} {t : Text} {p : Nat} {v : ℚ}

/-- A power of ten as it is written. -/
def powerText (e : Bool × Text) : Text :=
  Figure.mark :: (if e.1 then Byte.minus else 43) :: e.2

/-- The text without the sign. -/
def body (w : Form) : Text := w.numeral.text ++ w.exponent.elim [] powerText

def text (w : Form) : Text := (if w.negative then [Byte.minus] else []) ++ w.body

def power (w : Form) : Int :=
  w.exponent.elim 0 fun e => if e.1 then -digitsValue e.2 else digitsValue e.2

/-- The number denoted. -/
def val (w : Form) : ℚ := (if w.negative then -1 else 1) * (w.numeral.exact.val * 10 ^ w.power)

/-- The text is that of the form, and its digits are digits. -/
structure Writes (w : Form) (t : Text) : Prop where
  isLiteral : w.numeral.IsLiteral
  isDigits : ∀ e ∈ w.exponent, e.2 ≠ [] ∧ IsDigits e.2
  text : w.text = t

theorem powerText_injective : Function.Injective powerText := by
  rintro ⟨b, ds⟩ ⟨b', ds'⟩ h
  simp only [powerText, List.cons.injEq, true_and] at h
  obtain ⟨hb, rfl⟩ := h
  cases b <;> cases b' <;> first | rfl | cases hb

theorem scan_body (h : w.Writes t) : Numeral.scan w.body = w.numeral := by
  refine Numeral.scan_text h.isLiteral fun b hb => ?_
  cases he : w.exponent with
  | none =>
    rw [he] at hb
    cases hb
  | some e =>
    rw [he] at hb
    cases hb
    exact ⟨by decide, fun _ => by decide⟩

theorem head?_body (h : w.Writes t) : ∃ b, w.body.head? = some b ∧ b ≠ Byte.minus := by
  obtain ⟨b, ds, hw⟩ := List.exists_cons_of_ne_nil h.isLiteral.whole_ne_nil
  have hb := h.isLiteral.isDigits_whole b (by simp [hw])
  obtain ⟨ds', ht⟩ := w.numeral.text_eq_cons hw
  refine ⟨b, by rw [body, ht]; rfl, ?_⟩
  rintro rfl
  cases hb

/-- A text is read in one way only. -/
theorem Writes.eq (h : w.Writes t) (h' : w'.Writes t) : w = w' := by
  obtain ⟨b, hb, hne⟩ := head?_body h
  obtain ⟨b', hb', hne'⟩ := head?_body h'
  have ht : w.text = w'.text := h.text.trans h'.text.symm
  have hhead := congrArg List.head? ht
  have hsign : w.negative = w'.negative := by
    cases hn : w.negative <;> cases hn' : w'.negative
    · rfl
    · simp only [Form.text, hn, hn', Bool.false_eq_true, if_false, if_true, List.nil_append, hb]
        at hhead
      exact absurd (Option.some.inj hhead) hne
    · simp only [Form.text, hn, hn', Bool.false_eq_true, if_false, if_true, List.nil_append, hb']
        at hhead
      exact absurd (Option.some.inj hhead).symm hne'
    · rfl
  have hbody : w.body = w'.body := by
    rw [Form.text, Form.text, hsign] at ht
    exact List.append_cancel_left ht
  have hnumeral : w.numeral = w'.numeral := by rw [← scan_body h, hbody, scan_body h']
  have hpower : w.exponent.elim [] powerText = w'.exponent.elim [] powerText := by
    rw [body, body, hnumeral] at hbody
    exact List.append_cancel_left hbody
  have hexponent : w.exponent = w'.exponent := by
    cases he : w.exponent with
    | none =>
      cases he' : w'.exponent with
      | none => rfl
      | some e' => rw [he, he'] at hpower; cases hpower
    | some e =>
      cases he' : w'.exponent with
      | none => rw [he, he'] at hpower; cases hpower
      | some e' =>
        rw [he, he'] at hpower
        rw [powerText_injective hpower]
  obtain ⟨_, _, _⟩ := w
  obtain ⟨_, _, _⟩ := w'
  simp only at hsign hnumeral hexponent
  rw [hsign, hnumeral, hexponent]

/-! ## What a number is written as -/

/-- Whole, and below `10 ^ 15`. -/
def IsSmall (v : ℚ) : Prop := ∃ k : Int, v = k ∧ |k| < 10 ^ 15

/-- Digits only, and no sign before zero. -/
structure IsInteger (w : Form) : Prop where
  noExponent : w.exponent = none
  noFraction : w.numeral.fraction = none
  noLeadingZero : w.numeral.NoLeadingZero
  sign : w.negative = true → w.val < 0

/-- The number nearest to `v` with `p` digits. If its first digit counts units of `10 ^ e`, there is
an exponent just when `e` is below -4 or at least `p`: it has two digits, or as many as it needs, and
one digit stands before the point. -/
structure IsRounded (p : Nat) (v : ℚ) (w : Form) : Prop where
  sign : w.negative = true ↔ v < 0
  nearest : ∃ i, (Grid.floating 10 p).Nearest |v| i ∧ |w.val| = (Grid.floating 10 p).val i
  noLeadingZero : w.numeral.NoLeadingZero
  noTrailingZero : w.numeral.NoTrailingZero
  hasExponent : ∃ e : Int, 10 ^ e ≤ |w.val| ∧ |w.val| < 10 ^ (e + 1) ∧
    (w.exponent.isSome = true ↔ e < -4 ∨ (p : Int) ≤ e)
  exponent : ∀ e ∈ w.exponent, 2 ≤ e.2.length ∧ (2 < e.2.length → e.2.head? ≠ some Byte.zero) ∧
    w.numeral.whole.length = 1 ∧ w.numeral.whole ≠ [Byte.zero]

/-- The form in which a number is written to `p` digits. -/
structure IsOf (p : Nat) (v : ℚ) (w : Form) : Prop where
  small : IsSmall v → w.IsInteger ∧ w.val = v
  rounded : ¬IsSmall v → w.IsRounded p v

/-- Without an exponent nothing but zero is very small. -/
theorem IsOf.le_abs_val (h : w.IsOf p v) (he : w.exponent = none) (hne : w.val ≠ 0) :
    (10 : ℚ) ^ (-4 : Int) ≤ |w.val| := by
  by_cases hs : IsSmall v
  · obtain ⟨k, hk, -⟩ := id hs
    rw [(h.small hs).2, hk] at hne ⊢
    have hone : 1 ≤ |k| := Int.one_le_abs (by exact_mod_cast hne)
    calc (10 : ℚ) ^ (-4 : Int) ≤ 1 := by norm_num
      _ ≤ |(k : ℚ)| := by exact_mod_cast hone
  · obtain ⟨e, hlo, -, hiff⟩ := (h.rounded hs).hasExponent
    have hle : -4 ≤ e := by
      by_contra hlt
      have := hiff.mpr (.inl (not_le.mp hlt))
      rw [he] at this
      cases this
    exact (zpow_le_zpow_right₀ (by norm_num) hle).trans hlo

end Form

end Decimal

/-! ## Figures in their form -/

namespace Figure

variable {g : Figure}

/-- The form of a figure with a sign. -/
def form (negative : Bool) (g : Figure) : Decimal.Form where
  negative
  numeral := g.numeral
  exponent := g.exponent.map fun e => (decide (e < 0), exponentDigits e)

theorem exponentDigits_ne_nil (e : Int) : exponentDigits e ≠ [] := by
  simp [exponentDigits, ofNat_ne_nil]

theorem two_le_length_exponentDigits (e : Int) : 2 ≤ (exponentDigits e).length := by
  rw [exponentDigits]
  rcases Nat.lt_or_ge e.natAbs 10 with h | h
  · rw [if_pos h, ofNat_of_lt h]
    exact le_rfl
  · have := List.length_pos_of_ne_nil (ofNat_ne_nil (e.natAbs / 10))
    rw [if_neg (by omega), ofNat_of_le h, List.nil_append, List.length_append, List.length_singleton]
    omega

theorem head?_exponentDigits {e : Int} (h : 2 < (exponentDigits e).length) :
    (exponentDigits e).head? ≠ some Byte.zero := by
  rw [exponentDigits] at h ⊢
  rcases Nat.lt_or_ge e.natAbs 10 with hlt | hge
  · rw [if_pos hlt, ofNat_of_lt hlt] at h
    exact absurd h (by simp)
  · rw [if_neg (by omega), List.nil_append]
    exact head?_ofNat (by omega)

theorem form_writes (negative : Bool) (hg : g.numeral.IsLiteral) :
    (g.form negative).Writes ((if negative then [Byte.minus] else []) ++ g.text) where
  isLiteral := hg
  isDigits := by
    intro e he
    obtain ⟨k, -, rfl⟩ := Option.map_eq_some_iff.mp he
    exact ⟨exponentDigits_ne_nil k, isDigits_exponentDigits k⟩
  text := by
    rw [Decimal.Form.text, Decimal.Form.body, text]
    cases he : g.exponent with
    | none => simp [form, he]
    | some e => simp [form, he, Decimal.Form.powerText, exponentText_eq]

theorem power_form (negative : Bool) (g : Figure) : (g.form negative).power = g.exponent.getD 0 := by
  rw [Decimal.Form.power]
  cases he : g.exponent with
  | none => simp [form, he]
  | some e =>
    simp only [form, he, Option.map_some, Option.elim_some, Option.getD_some, decide_eq_true_eq,
      digitsValue_exponentDigits]
    split <;> omega

theorem val_form (negative : Bool) (g : Figure) :
    (g.form negative).val = (if negative then -1 else 1) * g.exact.val := by
  rw [Decimal.Form.val, power_form, exact, Fraction.val_scale10]
  rfl

end Figure

/-! ## Fractions in their form -/

namespace Decimal

variable {f : Fraction} {p k d : Nat} {e : Int}

theorem isSmallInteger_iff : isSmallInteger f = true ↔ ∃ n : Nat, f.val = n ∧ n < 10 ^ 15 := by
  constructor
  · intro h
    refine ⟨f.floor, val_of_isSmallInteger h, ?_⟩
    simp only [isSmallInteger, Bool.and_eq_true, decide_eq_true_eq] at h
    exact h.2
  · rintro ⟨n, hn, hlt⟩
    have hnum : f.num = f.den * n := by
      rw [Fraction.val, div_eq_iff f.den_ne_zero] at hn
      have : f.num = n * f.den := by exact_mod_cast hn
      rw [this, Nat.mul_comm]
    have hfloor : f.floor = n := by rw [Fraction.floor, hnum, Nat.mul_div_cancel_left _ f.den_pos]
    simp only [isSmallInteger, Fraction.isWhole, hfloor, hnum, Nat.mul_mod_right, beq_self_eq_true,
      Bool.true_and, decide_eq_true_eq]
    exact hlt

theorem exponent_generalFigure (p d : Nat) (e : Int) :
    (generalFigure p d e).exponent = if e < -4 ∨ (p : Int) ≤ e then some e else none := by
  unfold generalFigure
  split
  · rfl
  split
  · rfl
  · rfl

theorem noLeadingZero_generalFigure (p : Nat) (hd : 0 < d) (e : Int) :
    (generalFigure p d e).numeral.NoLeadingZero := by
  have htake (j : Nat) : ((ofNat d).take (j + 1)).head? ≠ some Byte.zero := by
    rw [List.head?_take, if_neg (Nat.succ_ne_zero j)]
    exact head?_ofNat hd
  unfold generalFigure
  split
  · exact fun h => absurd h (htake 0)
  split
  · exact fun _ => rfl
  · exact fun h => absurd h (htake _)

theorem noTrailingZero_generalFigure (p : Nat) (hd : 0 < d) (e : Int) :
    (generalFigure p d e).numeral.NoTrailingZero := by
  unfold generalFigure
  split
  · exact Numeral.noTrailingZero_pointed (getLast?_dropTrailingZeros _)
  split
  · refine Numeral.noTrailingZero_pointed ?_
    have hne : dropTrailingZeros (ofNat d) ≠ [] := by
      intro h
      obtain ⟨j, hj⟩ := eq_dropTrailingZeros_append (ofNat d)
      have hv := congrArg digitsValue hj
      rw [h, List.nil_append, digitsValue_replicate_zero, digitsValue_ofNat] at hv
      omega
    rw [List.getLast?_append_of_ne_nil _ hne]
    exact getLast?_dropTrailingZeros _
  · exact Numeral.noTrailingZero_pointed (getLast?_dropTrailingZeros _)

/-- With an exponent there is one digit before the point. -/
theorem whole_generalFigure (hd : 0 < d) (he : e < -4 ∨ (p : Int) ≤ e) :
    (generalFigure p d e).numeral.whole.length = 1 ∧
      (generalFigure p d e).numeral.whole ≠ [Byte.zero] := by
  have hw : (generalFigure p d e).numeral.whole = (ofNat d).take 1 := by
    rw [generalFigure, if_pos he]
    rfl
  have hpos := List.length_pos_of_ne_nil (ofNat_ne_nil d)
  rw [hw]
  refine ⟨by rw [List.length_take]; omega, fun h => head?_ofNat hd ?_⟩
  have := congrArg List.head? h
  rwa [List.head?_take, if_neg Nat.one_ne_zero] at this

/-- The first of the digits counts units of `10 ^ e`. -/
theorem val_digits_bounds (lo : 10 ^ k ≤ d) (hi : d < 10 ^ (k + 1)) (e : Int) :
    (10 : ℚ) ^ e ≤ d * 10 ^ (e - k) ∧ (d : ℚ) * 10 ^ (e - k) < 10 ^ (e + 1) := by
  have hpos : (0 : ℚ) < 10 ^ (e - k) := by positivity
  have hlo : (10 : ℚ) ^ e = (10 ^ k : Nat) * 10 ^ (e - k) := by
    rw [Nat.cast_pow, Nat.cast_ofNat, ← zpow_natCast, ← zpow_add₀ (by norm_num), add_sub_cancel]
  have hhi : (10 : ℚ) ^ (e + 1) = (10 ^ (k + 1) : Nat) * 10 ^ (e - k) := by
    rw [Nat.cast_pow, Nat.cast_ofNat, ← zpow_natCast, ← zpow_add₀ (by norm_num)]
    congr 1
    push_cast
    ring
  rw [hlo, hhi]
  constructor
  · gcongr
  · gcongr

end Decimal

/-! ## Doubles in their form -/

namespace Double

variable {x : Double} {p : Nat}

theorem abs_val (x : Double) : |x.val| = (fraction x.magnitude).val := by
  unfold val
  split
  · rw [abs_neg, abs_of_nonneg (Fraction.val_nonneg _)]
  · rw [abs_of_nonneg (Fraction.val_nonneg _)]

theorem val_fraction_zero : (fraction 0).val = 0 := by
  simp [val_of_subnormal binade_pos]

theorem val_lt_zero_iff (x : Double) : x.val < 0 ↔ (x.isNegative && !x.isZero) = true := by
  have hzero : (fraction x.magnitude).val = 0 ↔ x.magnitude = 0 := by
    rw [← val_fraction_zero]
    exact val_strictMono.injective.eq_iff
  have hnonneg := (fraction x.magnitude).val_nonneg
  rw [Bool.and_eq_true, Bool.not_eq_true', isZero, beq_eq_false_iff_ne, ne_eq, ← hzero, val]
  cases x.isNegative with
  | true => simp [hnonneg.lt_iff_ne, eq_comm]
  | false => simp [hnonneg]

theorem isSmall_val_iff (x : Double) :
    Decimal.Form.IsSmall x.val ↔ Decimal.isSmallInteger (fraction x.magnitude) = true := by
  rw [Decimal.isSmallInteger_iff, ← abs_val]
  constructor
  · rintro ⟨k, hk, hlt⟩
    refine ⟨k.natAbs, by rw [hk, Nat.cast_natAbs, Int.cast_abs], ?_⟩
    rw [Int.abs_eq_natAbs] at hlt
    exact_mod_cast hlt
  · rintro ⟨n, hn, hlt⟩
    rcases abs_eq (Nat.cast_nonneg n) |>.mp hn with h | h
    · exact ⟨n, h, by rw [Nat.abs_cast]; exact_mod_cast hlt⟩
    · exact ⟨-n, by rw [h]; push_cast; rfl, by rw [abs_neg, Nat.abs_cast]; exact_mod_cast hlt⟩

/-- The form in which a finite double is written to `p` digits. -/
def form (p : Nat) (x : Double) : Decimal.Form :=
  (Decimal.figure p (fraction x.magnitude)).form (x.isNegative && !x.isZero)

theorem form_writes (p : Nat) (hx : x.isFinite = true) : (x.form p).Writes (x.decimal p) := by
  rw [decimal_of_isFinite p hx]
  exact Figure.form_writes _ (Decimal.isLiteral_figure p _)

theorem abs_val_form (p : Nat) (x : Double) :
    |(x.form p).val| = (Decimal.figure p (fraction x.magnitude)).exact.val := by
  have hnonneg := (Decimal.figure p (fraction x.magnitude)).exact.val_nonneg
  rw [form, Figure.val_form]
  split
  · rw [neg_one_mul, abs_neg, abs_of_nonneg hnonneg]
  · rw [one_mul, abs_of_nonneg hnonneg]

theorem val_eq_sign_mul (x : Double) :
    x.val = (if x.isNegative && !x.isZero then -1 else 1) * (fraction x.magnitude).val := by
  by_cases h : x.val < 0
  · rw [if_pos ((val_lt_zero_iff x).mp h), ← abs_val, abs_of_neg h, neg_one_mul, neg_neg]
  · rw [if_neg (fun hs => h ((val_lt_zero_iff x).mpr hs)), ← abs_val, abs_of_nonneg (not_lt.mp h),
      one_mul]

theorem form_isInteger (hs : Decimal.isSmallInteger (fraction x.magnitude) = true) :
    (x.form p).IsInteger ∧ (x.form p).val = x.val := by
  have hfig : Decimal.figure p (fraction x.magnitude) =
      ⟨⟨Text.ofNat (fraction x.magnitude).floor, none⟩, none⟩ := if_pos hs
  have hval : (x.form p).val = x.val := by
    rw [form, Figure.val_form, val_eq_sign_mul, hfig, Decimal.val_of_isSmallInteger hs]
    simp [Figure.exact, Numeral.val_exact]
  refine ⟨⟨?_, ?_, ?_, fun hn => ?_⟩, hval⟩
  · rw [form, Figure.form, hfig]
    rfl
  · rw [form, Figure.form, hfig]
  · rw [form, Figure.form, hfig]
    intro h
    rcases Nat.eq_zero_or_pos (fraction x.magnitude).floor with h0 | hpos
    · simp only [h0, ofNat_of_lt (show 0 < 10 by decide)]
      rfl
    · exact absurd h (head?_ofNat hpos)
  · rw [hval]
    exact (val_lt_zero_iff x).mpr hn

theorem form_isRounded (hp : 1 < p)
    (hs : Decimal.isSmallInteger (fraction x.magnitude) ≠ true) : (x.form p).IsRounded p x.val := by
  have hne : (fraction x.magnitude).val ≠ 0 := fun h0 =>
    hs (Decimal.isSmallInteger_iff.mpr ⟨0, by rw [h0, Nat.cast_zero], by decide⟩)
  have hnear := Decimal.significant_nearest hp hne
  obtain ⟨k, rfl⟩ := Nat.exists_eq_add_of_le' hp.le
  obtain ⟨lo, hi, -⟩ := Decimal.significant_spec hp.le hne
  have habs := abs_val_form (k + 1) x
  have hfig : Decimal.figure (k + 1) (fraction x.magnitude) = Decimal.generalFigure (k + 1)
      (Decimal.significant (k + 1) (fraction x.magnitude)).1
      (Decimal.significant (k + 1) (fraction x.magnitude)).2 := if_neg hs
  generalize (Decimal.significant (k + 1) (fraction x.magnitude)).1 = d at lo hi hfig hnear
  generalize (Decimal.significant (k + 1) (fraction x.magnitude)).2 = e at hfig hnear
  rw [Nat.add_sub_cancel] at lo hnear
  have hd : 0 < d := (Nat.pow_pos (by decide)).trans_le lo
  rw [hfig, Decimal.val_generalFigure lo hi] at habs
  have hnum : (x.form (k + 1)).numeral = (Decimal.generalFigure (k + 1) d e).numeral := by
    rw [form, Figure.form, hfig]
  have hexp : (x.form (k + 1)).exponent = (if e < -4 ∨ ((k + 1 : Nat) : Int) ≤ e then some e
      else none).map fun e => (decide (e < 0), Figure.exponentDigits e) := by
    rw [← Decimal.exponent_generalFigure (k + 1) d, form, Figure.form, hfig]
  obtain ⟨hlo, hhi⟩ := Decimal.val_digits_bounds lo hi e
  refine ⟨(val_lt_zero_iff x).symm, ⟨(d, e - k), by rwa [abs_val], ?_⟩, ?_, ?_,
    ⟨e, by rwa [habs], by rwa [habs], ?_⟩, fun i hi => ?_⟩
  · rw [habs]
    simp [Grid.floating]
  · rw [hnum]
    exact Decimal.noLeadingZero_generalFigure _ hd e
  · rw [hnum]
    exact Decimal.noTrailingZero_generalFigure _ hd e
  · rw [hexp]
    split
    · next h => simpa using h
    · next h => simpa using h
  · rw [hexp, Option.mem_def] at hi
    split at hi
    · next h =>
      cases hi
      rw [hnum]
      exact ⟨Figure.two_le_length_exponentDigits e, Figure.head?_exponentDigits,
        Decimal.whole_generalFigure hd h⟩
    · cases hi

theorem form_isOf (hp : 1 < p) (x : Double) : (x.form p).IsOf p x.val where
  small hs := form_isInteger ((isSmall_val_iff x).mp hs)
  rounded hs := form_isRounded hp fun h => hs ((isSmall_val_iff x).mpr h)

end Double

end ScriptEngine
