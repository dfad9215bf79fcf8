import ScriptEngine.Proofs.Double.Written
import ScriptEngine.Proofs.Lexer.Literal
import ScriptEngine.Tree.Sexpr
import ScriptEngine.Value

/-!
# Numbers in texts

Numbers are shown to scripts with six digits and printed in trees with seventeen. Six digits are those
of the nearest number that has so many (`Value.render_number`). Seventeen tell the doubles apart, and
where they are written without an exponent the lexer reads them back (`Double.number_printed`).
-/

namespace ScriptEngine

open Text

/-! ## Six digits -/

/-- A finite number is shown in one form: a small integer as such, any other number rounded to six
digits. -/
theorem Value.render_number {x : Double} (hx : x.isFinite = true) :
    ∃ w : Decimal.Form, w.Writes (Value.number x).render ∧
      (∀ w' : Decimal.Form, w'.Writes (Value.number x).render → w' = w) ∧ w.IsOf 6 x.val :=
  ⟨x.form 6, x.form_writes 6 hx, fun _ h => h.eq (x.form_writes 6 hx), x.form_isOf (by decide)⟩

/-- Half a unit below a million: the carry makes it a million, which takes an exponent. -/
theorem Value.render_number_carry : (⟨0x412E847F00000000⟩ : Double).isFinite = true ∧
    (Value.number ⟨0x412E847F00000000⟩).render = ascii "1e+06" ∧
    ∃ w : Decimal.Form, w.Writes (Value.number ⟨0x412E847F00000000⟩).render ∧
      w.IsOf 6 (⟨0x412E847F00000000⟩ : Double).val := by
  have hx : (⟨0x412E847F00000000⟩ : Double).isFinite = true := by decide +kernel
  obtain ⟨w, hw, -, hof⟩ := Value.render_number hx
  exact ⟨hx, by decide +kernel, w, hw, hof⟩

/-! ## Seventeen digits -/

namespace Double

variable {x y : Double} {lx : Lexer} {file before gap rest : Text}

/-- Seventeen digits are rounded to the double that they are written for. -/
theorem form_isRounding (hx : x.IsPlain) : IsRounding (x.form 17).val x := by
  have hnear : nearest (Decimal.figure 17 (fraction x.magnitude)).exact = x.magnitude :=
    nearest_figure hx.magnitude_lt
  refine ⟨?_, by rw [abs_val_form]; exact nearest_iff.mpr hnear⟩
  have hnonneg := (Decimal.figure 17 (fraction x.magnitude)).exact.val_nonneg
  rw [form, Figure.val_form, hx.sign]
  cases hn : x.isNegative with
  | false => simpa using hnonneg
  | true =>
    have hne : (Decimal.figure 17 (fraction x.magnitude)).exact.val ≠ 0 := by
      intro h0
      rw [nearest, if_pos (Fraction.isZero_iff.mpr h0)] at hnear
      rw [hx.zero (by rw [isZero, ← hnear]; rfl)] at hn
      cases hn
    simpa using lt_of_le_of_ne hnonneg hne.symm

theorem sexpr_number (pos : Pos) (x : Double) :
    (Node.expr (.number pos x)).sexpr = x.decimal 17 := by
  simp [Node.sexpr, Expr.sexprOnto]

/-- Without an exponent, what is written is in the range of the literals. -/
theorem value?_form (hx : x.IsPlain) (hn : x.isNegative = false) (he : (x.form 17).exponent = none) :
    (x.form 17).numeral.value? = some x := by
  have hr := form_isRounding hx
  have hval : (x.form 17).val = (x.form 17).numeral.exact.val := by
    have hs : (x.form 17).negative = false := by simp [form, Figure.form, hn]
    simp [Decimal.Form.val, Decimal.Form.power, he, hs]
  have hnonneg := (x.form 17).numeral.exact.val_nonneg
  rw [Numeral.value?_eq_some_iff, ← hval]
  rw [← hval] at hnonneg
  refine ⟨⟨fun hinf => ?_, fun hne ht => ?_⟩, hr⟩
  · have hnear := hr.nearest
    rw [abs_of_nonneg hnonneg] at hnear
    have := val_strictMono.injective (hnear.val_eq grid_alternates hinf)
    exact absurd this hx.magnitude_lt.ne
  · have hle := (x.form_isOf (p := 17) (by decide)).le_abs_val he hne
    rw [abs_of_nonneg hnonneg] at hle
    have hsmall : (2 : ℚ) ^ (-1022 : Int) ≤ 2 ^ (-14 : Int) :=
      zpow_le_zpow_right₀ one_le_two (by omega)
    have hten : (2 : ℚ) ^ (-14 : Int) < 10 ^ (-4 : Int) := by norm_num
    exact absurd (ht.lt.trans_le hsmall) (not_lt.mpr (hten.le.trans hle))

/-- Without an exponent, what is written is a literal that the lexer takes as a whole. -/
theorem next_decimal (hx : x.IsPlain) (hn : x.isNegative = false)
    (hmark : Figure.mark ∉ x.decimal 17)
    (hs : lx.Stands file before (gap ++ (x.decimal 17 ++ rest))) (hg : gap.IsBlank)
    (hr : ∀ b ∈ rest.head?, TokenKind.number.stopsAt b = true) :
    lx.next.1 = .ok ⟨.number, x.decimal 17, x, place file (before ++ gap)⟩ ∧ lx.next.2.value = x ∧
      lx.next.2.Stands file (before ++ gap ++ x.decimal 17) rest := by
  have hw := x.form_writes 17 hx.finite
  have he : (x.form 17).exponent = none := by
    cases he : (x.form 17).exponent with
    | none => rfl
    | some e =>
      rw [← hw.text, Decimal.Form.text, Decimal.Form.body, he] at hmark
      exact absurd (by simp [Decimal.Form.powerText]) hmark
  have ht : x.decimal 17 = (x.form 17).numeral.text := by
    have hsign : (x.form 17).negative = false := by simp [form, Figure.form, hn]
    rw [← hw.text, Decimal.Form.text, Decimal.Form.body, he, hsign]
    simp
  rw [ht] at hs ⊢
  have hend : (x.form 17).numeral.EndsBefore rest := fun b hb =>
    ⟨(TokenKind.class_of_stopsAt (hr b hb)).1, fun _ => (TokenKind.class_of_stopsAt (hr b hb)).2⟩
  obtain ⟨hstands, hok, -⟩ := hs.next_numeral hg hw.isLiteral hend
  obtain ⟨hnext, hvalue⟩ := hok x (value?_form hx hn he)
  exact ⟨hnext, hvalue, hstands⟩

/-- What is printed for a number has one form: that of a small integer, or of a number rounded to
seventeen digits. It is rounded to the number itself, so no two are printed alike, and for a number
that is not negative it is a literal if it has no exponent. -/
theorem number_printed (pos : Pos) (hx : x.IsPlain) :
    let t := (Node.expr (.number pos x)).sexpr
    (∃ w : Decimal.Form, w.Writes t ∧ (∀ w' : Decimal.Form, w'.Writes t → w' = w) ∧
      w.IsOf 17 x.val ∧ IsRounding w.val x) ∧
    (∀ (pos' : Pos) (y : Double), y.IsPlain → (Node.expr (.number pos' y)).sexpr = t → y = x) ∧
    (x.isNegative = false → Figure.mark ∉ t →
      ∀ (lx : Lexer) (file before gap rest : Text), lx.Stands file before (gap ++ (t ++ rest)) →
        gap.IsBlank → (∀ b ∈ rest.head?, TokenKind.number.stopsAt b = true) →
        lx.next.1 = .ok ⟨.number, t, x, place file (before ++ gap)⟩ ∧ lx.next.2.value = x ∧
          lx.next.2.Stands file (before ++ gap ++ t) rest) := by
  simp only [sexpr_number]
  have hw := x.form_writes 17 hx.finite
  refine ⟨⟨x.form 17, hw, fun _ h => h.eq hw, x.form_isOf (by decide), form_isRounding hx⟩,
    fun _ y hy ht => ?_, fun hn hmark lx file before gap rest hs hg hr => ?_⟩
  · have hform : y.form 17 = x.form 17 := (ht ▸ y.form_writes 17 hy.finite).eq hw
    exact (form_isRounding hy).eq (hform ▸ form_isRounding hx)
  · exact next_decimal hx hn hmark hs hg hr

/-- One tenth is printed with its seventeen digits, and read back from them. -/
theorem number_printed_tenth : (⟨0x3FB999999999999A⟩ : Double).IsPlain ∧
    (Node.expr (.number Pos.unset ⟨0x3FB999999999999A⟩)).sexpr = ascii "0.10000000000000001" ∧
    (Lexer.start [] (ascii "0.10000000000000001") true).next.1 =
      .ok ⟨.number, ascii "0.10000000000000001", ⟨0x3FB999999999999A⟩, ⟨1, 1, []⟩⟩ := by
  have hx : (⟨0x3FB999999999999A⟩ : Double).IsPlain := ⟨by decide +kernel, by decide +kernel⟩
  have ht : (Node.expr (.number Pos.unset ⟨0x3FB999999999999A⟩)).sexpr =
      ascii "0.10000000000000001" := by decide +kernel
  obtain ⟨-, -, hread⟩ := number_printed Pos.unset hx
  rw [ht] at hread
  have hs : (Lexer.start [] (ascii "0.10000000000000001") true).Stands [] []
      ([] ++ (ascii "0.10000000000000001" ++ [])) := by
    rw [List.nil_append, List.append_nil]
    exact Lexer.start_stands _ _ _
  exact ⟨hx, ht, (hread (by decide +kernel) (by decide) _ _ _ _ _ hs (by simp [Text.IsBlank])
    (by simp)).1⟩

end Double

end ScriptEngine
