import ScriptEngine.Proofs.Double.Range
import ScriptEngine.Proofs.Lexer.Accounting

/-!
# Number literals

Wherever a lexer comes upon a numeral (`Lexer.Faces`), it gives the double that the numeral is rounded
to if that is in range, and an error at the start of the numeral otherwise. So it does not matter how a
number is written, and greater literals have greater values (`Lexer.literal_rounded`).

A literal that is not a double but too small for a normal number is out of range, with one exception:
from `2 ^ -1023` up, a quarter of the least double above a double is let pass as that double
(`Lexer.literal_quarter`).
-/

namespace ScriptEngine

open Double Text

/-! ## Ways to write a number -/

namespace Numeral

variable {n : Numeral} {N j k : Nat}

/-- With `j` more zeros in front, and `k` more at the end of the fraction. -/
def widen (n : Numeral) (j k : Nat) : Numeral where
  whole := List.replicate j Byte.zero ++ n.whole
  fraction :=
    if n.fraction = none ∧ k = 0 then none
    else some (n.fraction.getD [] ++ List.replicate k Byte.zero)

theorem getD_widen (n : Numeral) (j k : Nat) :
    (n.widen j k).fraction.getD [] = n.fraction.getD [] ++ List.replicate k Byte.zero := by
  unfold widen
  by_cases h : n.fraction = none ∧ k = 0
  · simp [h]
  · simp only [if_neg h, Option.getD_some]

theorem IsLiteral.isDigits_getD (h : n.IsLiteral) : IsDigits (n.fraction.getD []) := by
  cases hf : n.fraction with
  | none => simp
  | some ds => exact h.isDigits_fraction ds hf

theorem IsLiteral.widen (h : n.IsLiteral) (j k : Nat) : (n.widen j k).IsLiteral where
  whole_ne_nil := by simp [Numeral.widen, h.whole_ne_nil]
  isDigits_whole := isDigits_append.mpr ⟨isDigits_replicate_zero j, h.isDigits_whole⟩
  fraction_ne_nil := by
    have hne := h.fraction_ne_nil
    unfold Numeral.widen
    split
    · simp
    · next hk =>
      intro he
      rw [Option.some.injEq, List.append_eq_nil_iff, List.replicate_eq_nil_iff] at he
      cases hf : n.fraction with
      | none => exact hk ⟨hf, he.2⟩
      | some ds =>
        rw [hf, Option.getD_some] at he
        exact hne (by rw [hf, he.1])
  isDigits_fraction := by
    intro ds hds
    have hd := isDigits_append.mpr ⟨h.isDigits_getD, isDigits_replicate_zero k⟩
    rw [← getD_widen n j k, Option.mem_def.mp hds] at hd
    exact hd

theorem val_widen (n : Numeral) (j k : Nat) : (n.widen j k).exact.val = n.exact.val := by
  rw [val_exact, val_exact, getD_widen]
  simp only [widen, digitsValue_append, digitsValue_replicate_zero, List.length_append,
    List.length_replicate, pow_add]
  push_cast
  field_simp
  ring

/-- The number `N · 2 ^ -k`, which is below one, written out. -/
def dyadic (N k : Nat) : Numeral := ⟨[Byte.zero], some (padded k (N * 5 ^ k))⟩

theorem isLiteral_dyadic (hk : 0 < k) : (dyadic N k).IsLiteral where
  whole_ne_nil := List.cons_ne_nil _ _
  isDigits_whole := by simp [dyadic]; rfl
  fraction_ne_nil := by
    intro h
    have := congrArg List.length (Option.some.inj h)
    rw [length_padded, List.length_nil] at this
    omega
  isDigits_fraction := by
    rintro ds ⟨⟩
    exact isDigits_padded _ _

theorem val_dyadic (h : N < 2 ^ k) : (dyadic N k).exact.val = N * 2 ^ (-(k : Int)) := by
  have hlt : N * 5 ^ k < 10 ^ k := by
    rw [show 10 = 2 * 5 from rfl, Nat.mul_pow]
    exact Nat.mul_lt_mul_of_pos_right h (by positivity)
  rw [val_exact]
  simp only [dyadic, Option.getD_some, digitsValue_padded hlt, length_padded,
    show digitsValue [Byte.zero] = 0 from rfl]
  rw [zpow_neg, zpow_natCast, show (10 : ℚ) = 2 * 5 by norm_num, mul_pow]
  push_cast
  field_simp
  ring

/-! ## A quarter above a double -/

/-- The numeral `2 ^ -1023 + 2 ^ -1076`: a quarter of the way from a double to the next one. -/
def quarter : Numeral := .dyadic (4 * 2 ^ 51 + 1) 1076

theorem val_quarter : quarter.exact.val = (Double.fraction (2 ^ 51)).val + 2 ^ (-1076 : Int) := by
  rw [val_of_subnormal (by decide), ← quarter_units, quarter, Numeral.val_dyadic (by decide +kernel)]
  rfl

theorem val_quarter_bounds : 2 ^ (-1023 : Int) ≤ quarter.exact.val ∧
    quarter.exact.val < 2 ^ (-1022 : Int) := by
  have hpos : (0 : ℚ) < 2 ^ (-1076 : Int) := by positivity
  rw [val_quarter, val_of_subnormal (by decide), show (-1023 : Int) = 53 + -1076 by omega,
    show (-1022 : Int) = 54 + -1076 by omega, show (-1074 : Int) = 2 + -1076 by omega,
    zpow_add₀ two_ne_zero, zpow_add₀ two_ne_zero, zpow_add₀ two_ne_zero]
  generalize (2 : ℚ) ^ (-1076 : Int) = u at hpos ⊢
  norm_num
  constructor <;> linarith

theorem tiny_quarter : Tiny quarter.exact.val := by
  have hv : ((Fraction.ofNat (4 * 2 ^ 51 + 1)).scale2 (-1076)).val = quarter.exact.val := by
    rw [val_quarter, val_of_subnormal (by decide), ← quarter_units, Fraction.val_scale2,
      Fraction.val_ofNat]
  have hne : quarter.exact.val ≠ 0 := by
    have := val_quarter_bounds.1
    have hpos : (0 : ℚ) < 2 ^ (-1023 : Int) := by positivity
    linarith
  rw [← hv, ← isTiny_iff (by rwa [hv])]
  decide +kernel

theorem not_isValue_quarter : ¬IsValue quarter.exact.val := by
  rintro ⟨m, _, hm⟩
  obtain ⟨N, hN⟩ := exists_units m
  have hpos : (0 : ℚ) < 2 ^ (-1076 : Int) := by positivity
  rw [hN, val_quarter, val_of_subnormal (by decide), ← quarter_units,
    show (-1074 : Int) = 2 + -1076 by omega, zpow_add₀ two_ne_zero, ← mul_assoc] at hm
  have h := mul_right_cancel₀ hpos.ne' hm
  have hodd : N * 4 = 4 * 2 ^ 51 + 1 := by exact_mod_cast h
  omega

end Numeral

namespace Lexer

variable {lx lx' : Lexer} {n n' : Numeral} {file before gap rest : Text} {p p' : Pos}

/-! ## A numeral in a source -/

/-- The text of a numeral is taken as a whole, and its value decides what is given. -/
theorem Stands.next_numeral (hs : lx.Stands file before (gap ++ (n.text ++ rest))) (hg : gap.IsBlank)
    (hn : n.IsLiteral) (hr : n.EndsBefore rest) :
    lx.next.2.Stands file (before ++ gap ++ n.text) rest ∧
    (∀ x, n.value? = some x →
      lx.next.1 = .ok ⟨.number, n.text, x, place file (before ++ gap)⟩ ∧ lx.next.2.value = x) ∧
    (n.value? = none →
      lx.next.1 = .error (.of (.lexical (.outOfRange n.text)) (place file (before ++ gap))) ∧
        lx.next.2.value = lx.value) := by
  obtain ⟨b, ds, hw⟩ := List.exists_cons_of_ne_nil hn.whole_ne_nil
  have hb := hn.isDigits_whole b (by simp [hw])
  have hc := Byte.class_of_isDigit hb
  obtain ⟨ds', ht⟩ := n.text_eq_cons hw
  have hbegun := hs.begin hg (by rw [ht]; rintro c ⟨⟩; exact hc.1)
  have hpos : lx.begin.tokenPos = place file (before ++ gap) := by
    rw [hbegun.tokenPos, ht]
    rfl
  have hend : n.endsInPoint = false := by simpa [Numeral.endsInPoint] using hn.fraction_ne_nil
  have hp := hbegun.stands.pending
  have htake := hbegun.stands.take n.text
  rw [next_cons (by rw [hp, ht]; rfl), if_neg (by simp [hc]), if_pos hb, numeral, hp,
    Numeral.scan_text hn hr]
  simp only [hend, Bool.false_eq_true, if_false]
  cases hv : n.value? with
  | none =>
    refine ⟨htake, ?_, fun _ => ⟨by rw [← hpos]; rfl, rfl⟩⟩
    rintro x ⟨⟩
  | some x =>
    refine ⟨⟨htake.file, htake.read, htake.pending⟩, ?_, ?_⟩
    · rintro x ⟨⟩
      exact ⟨by rw [← hpos]; rfl, rfl⟩
    · rintro ⟨⟩

/-- Next for the lexer is the numeral, at position `p`: there are only blanks before it, and what
follows does not go on with it. -/
inductive Faces (lx : Lexer) (n : Numeral) : Pos → Prop where
  | intro {file before gap rest : Text} : lx.Stands file before (gap ++ (n.text ++ rest)) →
      gap.IsBlank → n.IsLiteral → n.EndsBefore rest → Faces lx n (place file (before ++ gap))

theorem faces_start (hn : n.IsLiteral) (file : Text) (seekable : Bool) :
    (start file n.text seekable).Faces n ⟨1, 1, file⟩ := by
  have hs : (start file n.text seekable).Stands file [] ([] ++ (n.text ++ [])) := by
    rw [List.nil_append, List.append_nil]
    exact start_stands file n.text seekable
  exact .intro hs (by simp [Text.IsBlank]) hn (by simp [Numeral.EndsBefore])

theorem Faces.isLiteral (h : lx.Faces n p) : n.IsLiteral := by
  cases h with
  | intro _ _ hn _ => exact hn

theorem Faces.next_of_inRange (h : lx.Faces n p) (hr : InRange n.exact.val) :
    ∃ x, IsRounding n.exact.val x ∧ lx.next.1 = .ok ⟨.number, n.text, x, p⟩ ∧
      lx.next.2.value = x := by
  obtain ⟨hs, hg, hn, he⟩ := h
  have hx := isRounding_nearest n.exact
  exact ⟨_, hx, (hs.next_numeral hg hn he).2.1 _ (Numeral.value?_eq_some_iff.mpr ⟨hr, hx⟩)⟩

theorem Faces.next_of_not_inRange (h : lx.Faces n p) (hr : ¬InRange n.exact.val) :
    lx.next.1 = .error (.of (.lexical (.outOfRange n.text)) p) ∧ lx.next.2.value = lx.value := by
  obtain ⟨hs, hg, hn, he⟩ := h
  exact (hs.next_numeral hg hn he).2.2 (Numeral.value?_eq_none_iff.mpr hr)

theorem Faces.isRounding {t : Token} (h : lx.Faces n p) (ht : lx.next.1 = .ok t) :
    IsRounding n.exact.val t.value := by
  by_cases hr : InRange n.exact.val
  · obtain ⟨x, hx, hok, _⟩ := h.next_of_inRange hr
    rw [hok] at ht
    cases ht
    exact hx
  · rw [(h.next_of_not_inRange hr).1] at ht
    cases ht

/-- What is given for a numeral, in terms of the number it stands for. -/
theorem Faces.toOption_next (h : lx.Faces n p) :
    lx.next.1.toOption.map Token.value = n.value? := by
  by_cases hr : InRange n.exact.val
  · obtain ⟨x, hx, hok, _⟩ := h.next_of_inRange hr
    rw [hok, Numeral.value?_eq_some_iff.mpr ⟨hr, hx⟩]
    rfl
  · rw [(h.next_of_not_inRange hr).1, Numeral.value?_eq_none_iff.mpr hr]
    rfl

/-- A literal in range is rounded, one out of range is an error and leaves the last number alone. What
comes out is decided by the number written, however it is written, and grows with it. -/
theorem literal_rounded (h : lx.Faces n p) (h' : lx'.Faces n' p') :
    (InRange n.exact.val → ∃ x, IsRounding n.exact.val x ∧
      lx.next.1 = .ok ⟨.number, n.text, x, p⟩ ∧ lx.next.2.value = x) ∧
    (¬InRange n.exact.val → ∃ e, lx.next.1 = .error e ∧ e = (.of (.lexical (.outOfRange n.text)) p) ∧
      e.text = ascii "Number literal out of range: " ++ n.text ∧ lx.next.2.value = lx.value) ∧
    (n.exact.val = n'.exact.val →
      lx.next.1.toOption.map Token.value = lx'.next.1.toOption.map Token.value) ∧
    (∀ j k, (n.widen j k).IsLiteral ∧ (n.widen j k).exact.val = n.exact.val) ∧
    (n.exact.val ≤ n'.exact.val → ∀ t t', lx.next.1 = .ok t → lx'.next.1 = .ok t' →
      t.value.val ≤ t'.value.val) := by
  refine ⟨h.next_of_inRange, fun hr => ?_, fun hq => ?_, fun j k => ?_, fun hq t t' ht ht' => ?_⟩
  · obtain ⟨he, hv⟩ := h.next_of_not_inRange hr
    exact ⟨_, he, rfl, rfl, hv⟩
  · rw [h.toOption_next, h'.toOption_next]
    by_cases hr : InRange n.exact.val
    · have hx := isRounding_nearest n.exact
      rw [Numeral.value?_eq_some_iff.mpr ⟨hr, hx⟩, Numeral.value?_eq_some_iff.mpr ⟨hq ▸ hr, hq ▸ hx⟩]
    · rw [Numeral.value?_eq_none_iff.mpr hr, Numeral.value?_eq_none_iff.mpr (hq ▸ hr)]
  · exact ⟨h.isLiteral.widen j k, n.val_widen j k⟩
  · exact (h.isRounding ht).val_mono (h'.isRounding ht') n.exact.val_nonneg hq

/-- One tenth, with and without zeros that do not count. -/
theorem literal_rounded_tenth :
    (start [] (ascii "0.1") true).Faces ⟨ascii "0", ascii "1"⟩ ⟨1, 1, []⟩ ∧
    (start [] (ascii "00.10") true).Faces ⟨ascii "00", ascii "10"⟩ ⟨1, 1, []⟩ ∧
    (start [] (ascii "0.1") true).next.1.toOption.map Token.value =
      (start [] (ascii "00.10") true).next.1.toOption.map Token.value := by
  have hn : (⟨ascii "0", ascii "1"⟩ : Numeral).IsLiteral :=
    ⟨by decide, by unfold IsDigits; decide +kernel, by decide,
      by rintro ds ⟨⟩; unfold IsDigits; decide +kernel⟩
  have h := faces_start hn [] true
  have h' := faces_start (hn.widen 1 1) [] true
  exact ⟨h, h', (literal_rounded h h').2.2.1 (Numeral.val_widen _ 1 1).symm⟩

/-- Too small for a normal number and not a double, but accepted. -/
theorem literal_quarter :
    Numeral.quarter.IsLiteral ∧ Numeral.quarter.exact.val ≠ 0 ∧ Tiny Numeral.quarter.exact.val ∧
      ¬IsValue Numeral.quarter.exact.val ∧
      (start [] Numeral.quarter.text true).next.1 =
        .ok ⟨.number, Numeral.quarter.text, ofMagnitude (2 ^ 51), ⟨1, 1, []⟩⟩ := by
  obtain ⟨hge, hlt⟩ := Numeral.val_quarter_bounds
  have hpos : (0 : ℚ) < 2 ^ (-1023 : Int) := by positivity
  have hr : InRange Numeral.quarter.exact.val := by
    refine ⟨not_nearest_infinity (m := binade) (by decide) ?_, fun _ _ => .inr ⟨hge, 2 ^ 51, ?_, ?_⟩⟩
    · rw [val_binade]
      exact hlt.le
    · decide
    · exact Numeral.val_quarter.symm
  have hn : Numeral.quarter.IsLiteral := Numeral.isLiteral_dyadic (by decide)
  obtain ⟨x, hx, hok, _⟩ := (faces_start hn [] true).next_of_inRange hr
  have hnear : nearest Numeral.quarter.exact = 2 ^ 51 :=
    nearest_of_quarter (by decide) Numeral.val_quarter.symm hlt
  rw [hx.eq (isRounding_nearest _), hnear] at hok
  exact ⟨hn, by linarith, Numeral.tiny_quarter, Numeral.not_isValue_quarter, hok⟩

end Lexer

end ScriptEngine
