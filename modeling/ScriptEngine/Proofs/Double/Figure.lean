import ScriptEngine.Proofs.Double.Expansion
import ScriptEngine.Proofs.Double.Significant

/-!
# Numbers as they are written

A `Figure` is a numeral and maybe a power of ten, and a number that is not negative is written as one
(`Decimal.text_figure`). To seventeen digits, the figure of a finite double is nearest to that double
(`Double.nearest_figure`), so that a reader of figures gets the double back (`Double.scan_decimal`).
-/

namespace ScriptEngine

open Text

/-! ## Numerals from digits -/

namespace Numeral

variable {w ds : Text}

/-- Digits with a point after `w`, if anything is to come after it. -/
def pointed (w ds : Text) : Numeral := ⟨w, if ds = [] then none else some ds⟩

theorem text_pointed (w ds : Text) : (pointed w ds).text = w ++ Decimal.fractional ds := by
  unfold pointed text Decimal.fractional
  by_cases h : ds = []
  · simp [h]
  · simp [h]

theorem isLiteral_pointed (hne : w ≠ []) (hw : IsDigits w) (hd : IsDigits ds) :
    (pointed w ds).IsLiteral where
  whole_ne_nil := hne
  isDigits_whole := hw
  fraction_ne_nil := by
    unfold pointed
    split
    · simp
    · next h => simpa using h
  isDigits_fraction := by
    intro es hes
    unfold pointed at hes
    simp only [Option.mem_def] at hes
    split at hes
    · cases hes
    · cases hes
      exact hd

theorem val_pointed (w ds : Text) :
    (pointed w ds).exact.val = digitsValue w + (digitsValue ds : ℚ) / 10 ^ ds.length := by
  have h : (pointed w ds).fraction.getD [] = ds := by
    unfold pointed
    by_cases h : ds = []
    · simp [h]
    · simp [h]
  rw [val_exact, h]
  rfl

/-- Where the point stands among the digits, and whether zeros at the end are written. -/
theorem val_pointed_dropTrailingZeros (w ds : Text) :
    (pointed w (Decimal.dropTrailingZeros ds)).exact.val =
      (digitsValue (w ++ ds) : ℚ) / 10 ^ ds.length := by
  rw [val_pointed, digitsValue_dropTrailingZeros, digitsValue_append]
  push_cast
  field_simp

end Numeral

theorem Text.length_ofNat {d k : Nat} (lo : 10 ^ k ≤ d) (hi : d < 10 ^ (k + 1)) :
    (ofNat d).length = k + 1 := by
  induction k generalizing d with
  | zero => rw [ofNat_of_lt (by omega), List.length_singleton]
  | succ k ih =>
    have h10 : 10 ≤ d := by
      have : 10 ^ 1 ≤ 10 ^ (k + 1) := Nat.pow_le_pow_right (by omega) (by omega)
      omega
    rw [Nat.pow_succ] at lo hi
    rw [ofNat_of_le h10, List.length_append, List.length_singleton, ih (by omega) (by omega)]

/-! ## Figures -/

structure Figure where
  numeral : Numeral
  /-- The power of ten, when it is written. -/
  exponent : Option Int

namespace Figure

variable {g : Figure} {rest : Text}

def text (g : Figure) : Text := g.numeral.text ++ g.exponent.elim [] Decimal.exponentText

def exact (g : Figure) : Fraction := g.numeral.exact.scale10 (g.exponent.getD 0)

/-- The letter before a power of ten. -/
def mark : UInt8 := 101

/-- The figure at the front of a text, and what comes after it. -/
def scan (input : Text) : Figure × Text :=
  let n := Numeral.scan input
  match input.drop n.text.length with
  | b :: sign :: rest =>
    if b = mark then
      let e : Int := digitsValue (rest.takeWhile Byte.isDigit)
      (⟨n, some (if sign = Byte.minus then -e else e)⟩, rest.dropWhile Byte.isDigit)
    else (⟨n, none⟩, b :: sign :: rest)
  | rest => (⟨n, none⟩, rest)

/-- A figure is over before what can be no part of it. -/
def Stops (rest : Text) : Prop :=
  ∀ b ∈ rest.head?, Byte.isDigit b = false ∧ b ≠ Byte.point ∧ b ≠ mark

theorem text_eq_cons (hg : g.numeral.IsLiteral) :
    ∃ b t, g.text = b :: t ∧ Byte.isDigit b = true := by
  obtain ⟨⟨w, ds⟩, e⟩ := g
  obtain ⟨b, w, rfl⟩ := List.exists_cons_of_ne_nil hg.whole_ne_nil
  have hb := hg.isDigits_whole b List.mem_cons_self
  cases ds with
  | none => exact ⟨b, _, rfl, hb⟩
  | some ds => exact ⟨b, _, rfl, hb⟩

/-- The digits of a power of ten, at least two. -/
def exponentDigits (e : Int) : Text := (if e.natAbs < 10 then [Byte.zero] else []) ++ ofNat e.natAbs

theorem isDigits_exponentDigits (e : Int) : IsDigits (exponentDigits e) := by
  rw [exponentDigits, isDigits_append]
  refine ⟨?_, isDigits_ofNat _⟩
  split
  · simp; rfl
  · simp

theorem digitsValue_exponentDigits (e : Int) : digitsValue (exponentDigits e) = e.natAbs := by
  rw [exponentDigits, digitsValue_append, digitsValue_ofNat]
  split
  · rw [show digitsValue [Byte.zero] = 0 from rfl, Nat.zero_mul, Nat.zero_add]
  · simp

theorem exponentText_eq (e : Int) : Decimal.exponentText e =
    mark :: (if e < 0 then Byte.minus else 43) :: exponentDigits e := by
  unfold Decimal.exponentText
  by_cases h : e < 0
  · simp only [if_pos h]; rfl
  · simp only [if_neg h]; rfl

theorem scan_text (hg : g.numeral.IsLiteral) (hr : Stops rest) : scan (g.text ++ rest) = (g, rest) := by
  obtain ⟨n, e⟩ := g
  cases e with
  | none =>
    have hn : Numeral.scan (n.text ++ rest) = n :=
      Numeral.scan_text hg fun b hb => ⟨(hr b hb).1, fun _ => (hr b hb).2.1⟩
    have ht : (Figure.mk n none).text = n.text := List.append_nil _
    rw [scan, ht]
    simp only [hn, List.drop_left]
    match rest, hr with
    | [], _ => rfl
    | [_], _ => rfl
    | b :: _ :: _, hr => exact if_neg (hr b rfl).2.2
  | some e =>
    have hd := isDigits_exponentDigits e
    have ht : (Figure.mk n (some e)).text ++ rest =
        n.text ++ mark :: (if e < 0 then Byte.minus else 43) :: (exponentDigits e ++ rest) := by
      simp [text, exponentText_eq]
    have hn : Numeral.scan (n.text ++
        mark :: (if e < 0 then Byte.minus else 43) :: (exponentDigits e ++ rest)) = n :=
      Numeral.scan_text hg fun b hb => by cases hb; exact ⟨by decide, fun _ => by decide⟩
    have hr' : ∀ b ∈ rest.head?, Byte.isDigit b = false := fun b hb => (hr b hb).1
    rw [scan, ht]
    simp only [hn, List.drop_left, if_true, takeWhile_run hd hr', dropWhile_run hd hr',
      digitsValue_exponentDigits]
    congr 3
    by_cases h : e < 0
    · rw [if_pos h, if_pos rfl]
      omega
    · rw [if_neg h, if_neg (by decide)]
      omega

end Figure

/-! ## Fractions in figures -/

namespace Decimal

variable {f : Fraction} {p : Nat}

/-- `d` has the digits, the first of which stands for units of `10 ^ e`. -/
def generalFigure (p d : Nat) (e : Int) : Figure :=
  if e < -4 ∨ (p : Int) ≤ e then
    ⟨.pointed ((ofNat d).take 1) (dropTrailingZeros ((ofNat d).drop 1)), some e⟩
  else if e < 0 then
    ⟨.pointed [Byte.zero]
      (List.replicate (e.natAbs - 1) Byte.zero ++ dropTrailingZeros (ofNat d)), none⟩
  else
    ⟨.pointed ((ofNat d).take (e.toNat + 1)) (dropTrailingZeros ((ofNat d).drop (e.toNat + 1))),
      none⟩

/-- The figure of a fraction to `p` significant digits. -/
def figure (p : Nat) (f : Fraction) : Figure :=
  if isSmallInteger f then ⟨⟨ofNat f.floor, none⟩, none⟩
  else generalFigure p (significant p f).1 (significant p f).2

theorem text_figure (p : Nat) (f : Fraction) : text p f = (figure p f).text := by
  unfold text figure
  by_cases hs : isSmallInteger f
  · simp [hs, Figure.text, Numeral.text]
  rw [if_neg hs, if_neg hs, general]
  generalize significant p f = r
  obtain ⟨d, e⟩ := r
  simp only [generalFigure]
  by_cases he : e < -4 ∨ (p : Int) ≤ e
  · simp [he, Figure.text, Numeral.text_pointed, scientific]
  rw [if_neg he, if_neg he, positional]
  by_cases h0 : e < 0
  · simp [h0, Figure.text, Numeral.text_pointed]
  · simp [h0, Figure.text, Numeral.text_pointed]

theorem isLiteral_generalFigure (p d : Nat) (e : Int) : (generalFigure p d e).numeral.IsLiteral := by
  have hd := isDigits_ofNat d
  have htake (k : Nat) : IsDigits ((ofNat d).take k) := fun b hb => hd b (List.mem_of_mem_take hb)
  have hdrop (k : Nat) : IsDigits (dropTrailingZeros ((ofNat d).drop k)) :=
    isDigits_dropTrailingZeros fun b hb => hd b (List.mem_of_mem_drop hb)
  have hne (k : Nat) : (ofNat d).take (k + 1) ≠ [] := by
    rw [ne_eq, List.take_eq_nil_iff]
    simp [ofNat_ne_nil]
  unfold generalFigure
  split
  · exact Numeral.isLiteral_pointed (hne 0) (htake 1) (hdrop 1)
  split
  · refine Numeral.isLiteral_pointed (by simp) (by simp; rfl) ?_
    rw [isDigits_append]
    exact ⟨isDigits_replicate_zero _, isDigits_dropTrailingZeros hd⟩
  · exact Numeral.isLiteral_pointed (hne _) (htake _) (hdrop _)

theorem isLiteral_figure (p : Nat) (f : Fraction) : (figure p f).numeral.IsLiteral := by
  unfold figure
  split
  · exact ⟨ofNat_ne_nil _, isDigits_ofNat _, by simp, by simp⟩
  · exact isLiteral_generalFigure _ _ _

/-- Wherever the point is put, the figure denotes the same number. -/
theorem val_generalFigure {k d : Nat} (lo : 10 ^ k ≤ d) (hi : d < 10 ^ (k + 1)) (e : Int) :
    (generalFigure (k + 1) d e).exact.val = d * 10 ^ (e - k) := by
  have hlen := length_ofNat lo hi
  have hsplit (j : Nat) : (Numeral.pointed ((ofNat d).take j)
      (dropTrailingZeros ((ofNat d).drop j))).exact.val = (d : ℚ) / 10 ^ (k + 1 - j) := by
    rw [Numeral.val_pointed_dropTrailingZeros, List.take_append_drop, digitsValue_ofNat,
      List.length_drop, hlen]
  unfold generalFigure Figure.exact
  split
  · rw [Fraction.val_scale10, hsplit, Nat.add_sub_cancel]
    simp only [Option.getD_some]
    rw [zpow_sub₀ (by norm_num), zpow_natCast]
    ring
  split
  · next hrange hneg =>
    have hzeros := digitsValue_dropTrailingZeros (ofNat d)
    rw [digitsValue_ofNat, hlen] at hzeros
    simp only [Fraction.val_scale10, Option.getD_none, zpow_zero, mul_one, Numeral.val_pointed,
      digitsValue_append, digitsValue_replicate_zero, List.length_append, List.length_replicate,
      show digitsValue [Byte.zero] = 0 from rfl, Nat.zero_mul, Nat.cast_zero, zero_add]
    rw [show e - (k : Int) = -((e.natAbs - 1 + (k + 1) : Nat) : Int) by omega, zpow_neg, zpow_natCast,
      pow_add, pow_add, mul_comm, ← div_div, hzeros]
    ring
  · next hrange hneg =>
    simp only [Fraction.val_scale10, hsplit, Option.getD_none, zpow_zero, mul_one]
    rw [show e - (k : Int) = -((k + 1 - (e.toNat + 1) : Nat) : Int) by omega, zpow_neg, zpow_natCast]
    rfl

theorem val_of_isSmallInteger (h : isSmallInteger f = true) : f.val = f.floor := by
  have hw : f.num % f.den = 0 := by
    simp only [isSmallInteger, Fraction.isWhole, Bool.and_eq_true, beq_iff_eq] at h
    exact h.1
  rw [f.val_eq_div_add_mod, hw, Nat.cast_zero, zero_div, add_zero, Fraction.floor]

/-- A figure is off by at most half a unit of its last significant digit. -/
theorem abs_figure_sub_val (hp : 0 < p) (f : Fraction) :
    |(figure p f).exact.val - f.val| * (2 * 10 ^ (p - 1)) ≤ f.val := by
  obtain ⟨k, rfl⟩ := Nat.exists_eq_add_of_le' hp
  unfold figure
  by_cases hs : isSmallInteger f = true
  · have hv := val_of_isSmallInteger hs
    have hf : (⟨⟨ofNat f.floor, none⟩, none⟩ : Figure).exact.val = f.val := by
      simp [Figure.exact, Numeral.val_exact, hv]
    rw [if_pos hs, hf, sub_self, abs_zero, zero_mul, hv]
    exact Nat.cast_nonneg _
  · have hne : f.val ≠ 0 := by
      intro h0
      apply hs
      have hn : f.num = 0 := by
        rw [← Fraction.isZero_iff, Fraction.isZero, beq_iff_eq] at h0
        exact h0
      simp [isSmallInteger, Fraction.isWhole, Fraction.floor, hn]
    obtain ⟨lo, hi, herr⟩ := significant_spec hp hne
    rw [Nat.add_sub_cancel] at lo herr ⊢
    rw [if_neg hs, val_generalFigure lo hi]
    exact herr

end Decimal

/-! ## Doubles in figures -/

namespace Double

variable {x : Double} {m : Nat} {rest : Text}

/-- Seventeen digits tell a finite double from all others. -/
theorem nearest_figure (hm : m < infinity) :
    nearest (Decimal.figure 17 (fraction m)).exact = m :=
  nearest_of_close hm (Decimal.abs_figure_sub_val (p := 17) (by decide) (fraction m))

/-- The double with a sign and a magnitude. -/
def ofSign (negative : Bool) (m : Nat) : Double :=
  ⟨UInt64.ofNat (if negative then signBit + m else m)⟩

theorem ofSign_magnitude (x : Double) : ofSign x.isNegative x.magnitude = x := by
  have hlt : x.bits.toNat < 2 * signBit := x.bits.toNat_lt
  have hbits : (if x.isNegative then signBit + x.magnitude else x.magnitude) = x.bits.toNat := by
    unfold isNegative magnitude
    by_cases h : signBit ≤ x.bits.toNat
    · rw [if_pos (by simpa using h), Nat.mod_eq_sub_mod h, Nat.mod_eq_of_lt (by omega)]
      omega
    · rw [if_neg (by simpa using h), Nat.mod_eq_of_lt (by omega)]
  rw [ofSign, hbits, UInt64.ofNat_toNat]

/-- The double at the front of a text, and what comes after it. -/
def scan (input : Text) : Double × Text :=
  let negative := input.head? == some Byte.minus
  let (g, rest) := Figure.scan (if negative then input.drop 1 else input)
  (ofSign negative (nearest g.exact), rest)

/-- Finite, and not a zero with a sign. -/
structure IsPlain (x : Double) : Prop where
  finite : x.isFinite = true
  zero : x.isZero = true → x.isNegative = false

theorem IsPlain.magnitude_lt (h : x.IsPlain) : x.magnitude < infinity := by
  simpa [isFinite] using h.finite

theorem IsPlain.sign (h : x.IsPlain) : (x.isNegative && !x.isZero) = x.isNegative := by
  cases hz : x.isZero with
  | true => rw [h.zero hz]; rfl
  | false => simp

theorem decimal_of_isFinite (p : Nat) (hx : x.isFinite = true) : x.decimal p =
    (if x.isNegative && !x.isZero then [Byte.minus] else []) ++
      (Decimal.figure p (fraction x.magnitude)).text := by
  have hnan : x.isNaN = false := by
    rw [isFinite, decide_eq_true_eq] at hx
    simpa [isNaN] using hx.le
  simp [decimal, hnan, hx, Decimal.text_figure]

theorem decimal_of_isPlain (h : x.IsPlain) : x.decimal 17 =
    (if x.isNegative then [Byte.minus] else []) ++
      (Decimal.figure 17 (fraction x.magnitude)).text := by
  rw [decimal_of_isFinite 17 h.finite, h.sign]

/-- A finite double is read as it is written. -/
theorem scan_decimal (h : x.IsPlain) (hr : Figure.Stops rest) :
    scan (x.decimal 17 ++ rest) = (x, rest) := by
  have hg := Decimal.isLiteral_figure 17 (fraction x.magnitude)
  have hs := Figure.scan_text hg hr
  obtain ⟨b, t, ht, hb⟩ := Figure.text_eq_cons hg
  have hx : ofSign x.isNegative (nearest (Decimal.figure 17 (fraction x.magnitude)).exact) = x := by
    rw [nearest_figure h.magnitude_lt, ofSign_magnitude]
  rw [decimal_of_isPlain h, scan]
  cases hneg : x.isNegative with
  | true =>
    rw [hneg] at hx
    simp [hs, hx]
  | false =>
    rw [hneg] at hx
    have hhead : (((Decimal.figure 17 (fraction x.magnitude)).text ++ rest).head? ==
        some Byte.minus) = false := by
      rw [ht, beq_eq_false_iff_ne]
      rintro ⟨⟩
      cases hb
    simp only [Bool.false_eq_true, if_false, List.nil_append, hhead, hs, hx]

end Double

end ScriptEngine
