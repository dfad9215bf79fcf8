import Mathlib.Data.List.Induction
import Mathlib.Data.List.TakeWhile
import Mathlib.Tactic.Ring
import ScriptEngine.Double.Decimal
import ScriptEngine.Double.Numeral

/-!
# Runs of digits

What decimal digits denote, and the numerals made of them. `Text.padded` writes a number with a given
number of digits.
-/

namespace ScriptEngine

/-! ## Longest runs -/

theorem takeWhile_run {p : UInt8 → Bool} {run rest : Text} (hp : ∀ b ∈ run, p b = true)
    (hr : ∀ b ∈ rest.head?, p b = false) : (run ++ rest).takeWhile p = run := by
  rw [List.takeWhile_append_of_pos hp]
  cases rest with
  | nil => simp
  | cons b rest => simp [hr b rfl]

theorem dropWhile_run {p : UInt8 → Bool} {run rest : Text} (hp : ∀ b ∈ run, p b = true)
    (hr : ∀ b ∈ rest.head?, p b = false) : (run ++ rest).dropWhile p = rest := by
  rw [List.dropWhile_append_of_pos hp]
  cases rest with
  | nil => rfl
  | cons b rest => simp [hr b rfl]

/-- A longest run is over where it stops. -/
theorem stops_dropWhile (p : UInt8 → Bool) (t : Text) :
    ∀ b ∈ (t.dropWhile p).head?, p b = false := by
  intro b hb
  have := List.head?_dropWhile_not p t
  rw [Option.mem_def] at hb
  simpa [hb] using this

namespace Text

variable {d n k : Nat} {ds : Text}

/-- All bytes are digits. -/
def IsDigits (ds : Text) : Prop := ∀ b ∈ ds, Byte.isDigit b = true

@[simp] theorem isDigits_nil : IsDigits [] := by simp [IsDigits]

@[simp] theorem isDigits_cons {b : UInt8} :
    IsDigits (b :: ds) ↔ Byte.isDigit b = true ∧ IsDigits ds := by simp [IsDigits]

@[simp] theorem isDigits_append {es : Text} : IsDigits (ds ++ es) ↔ IsDigits ds ∧ IsDigits es := by
  simp only [IsDigits, List.mem_append, or_imp, forall_and]

theorem isDigits_takeWhile (t : Text) : IsDigits (t.takeWhile Byte.isDigit) :=
  fun _ hb => List.mem_takeWhile_imp hb

/-! ## Values -/

theorem isDigit_digit (h : d < 10) : Byte.isDigit (digit d) = true := by
  revert d; decide

theorem value_digit (h : d < 10) : (digit d - Byte.zero).toNat = d := by
  revert d; decide

@[simp] theorem digitsValue_nil : digitsValue [] = 0 := rfl

theorem digitsValue_concat (ds : Text) (b : UInt8) :
    digitsValue (ds ++ [b]) = 10 * digitsValue ds + (b - Byte.zero).toNat := by
  simp [digitsValue]

theorem digitsValue_append (ds es : Text) :
    digitsValue (ds ++ es) = digitsValue ds * 10 ^ es.length + digitsValue es := by
  induction es using List.reverseRecOn with
  | nil => simp
  | append_singleton es b ih =>
    rw [← List.append_assoc, digitsValue_concat, ih, digitsValue_concat, List.length_append,
      List.length_singleton, Nat.pow_succ]
    ring

/-! ## Numbers in decimal -/

theorem natOnto_eq (n : Nat) (rest : Text) : natOnto n rest = ofNat n ++ rest := by
  induction n using Nat.strongRecOn generalizing rest with
  | ind n ih =>
    rcases Nat.lt_or_ge n 10 with h | h
    · rw [ofNat, natOnto, if_pos h, natOnto, if_pos h]
      rfl
    · rw [ofNat, natOnto, if_neg (Nat.not_lt.mpr h), ih (n / 10) (by omega)]
      conv_rhs => rw [natOnto, if_neg (Nat.not_lt.mpr h), ih (n / 10) (by omega)]
      simp

theorem ofNat_of_lt (h : n < 10) : ofNat n = [digit n] := by
  rw [ofNat, natOnto, if_pos h]

theorem ofNat_of_le (h : 10 ≤ n) : ofNat n = ofNat (n / 10) ++ [digit (n % 10)] := by
  rw [ofNat, natOnto, if_neg (Nat.not_lt.mpr h), natOnto_eq]

theorem isDigits_ofNat (n : Nat) : IsDigits (ofNat n) := by
  induction n using Nat.strongRecOn with
  | ind n ih =>
    rcases Nat.lt_or_ge n 10 with h | h
    · rw [ofNat_of_lt h]
      simp [isDigit_digit h]
    · rw [ofNat_of_le h]
      simp [isDigit_digit (Nat.mod_lt n (by omega)), ih (n / 10) (by omega)]

theorem ofNat_ne_nil (n : Nat) : ofNat n ≠ [] := by
  rcases Nat.lt_or_ge n 10 with h | h
  · simp [ofNat_of_lt h]
  · simp [ofNat_of_le h]

@[simp] theorem digitsValue_ofNat (n : Nat) : digitsValue (ofNat n) = n := by
  induction n using Nat.strongRecOn with
  | ind n ih =>
    rcases Nat.lt_or_ge n 10 with h | h
    · rw [ofNat_of_lt h, ← List.nil_append [digit n], digitsValue_concat, value_digit h]
      simp
    · rw [ofNat_of_le h, digitsValue_concat, ih (n / 10) (by omega),
        value_digit (Nat.mod_lt n (by omega))]
      omega

/-- The last `k` digits of `n`. -/
def padded : Nat → Nat → Text
  | 0, _ => []
  | k + 1, n => padded k (n / 10) ++ [digit (n % 10)]

@[simp] theorem length_padded (k n : Nat) : (padded k n).length = k := by
  induction k generalizing n with
  | zero => rfl
  | succ k ih => simp [padded, ih]

theorem isDigits_padded (k n : Nat) : IsDigits (padded k n) := by
  induction k generalizing n with
  | zero => simp [padded]
  | succ k ih => simp [padded, ih, isDigit_digit (Nat.mod_lt n (by omega))]

theorem digitsValue_padded (h : n < 10 ^ k) : digitsValue (padded k n) = n := by
  induction k generalizing n with
  | zero => simp_all [padded]
  | succ k ih =>
    rw [padded, digitsValue_concat, ih (by omega), value_digit (Nat.mod_lt n (by omega))]
    omega

/-! ## Trailing zeros -/

theorem eq_dropTrailingZeros_append (ds : Text) :
    ∃ k, ds = Decimal.dropTrailingZeros ds ++ List.replicate k Byte.zero := by
  have h := List.takeWhile_append_dropWhile (p := (· == Byte.zero)) (l := ds.reverse)
  refine ⟨(ds.reverse.takeWhile (· == Byte.zero)).length, ?_⟩
  have hz : ds.reverse.takeWhile (· == Byte.zero) =
      List.replicate (ds.reverse.takeWhile (· == Byte.zero)).length Byte.zero :=
    List.eq_replicate_of_mem fun b hb => by simpa using List.mem_takeWhile_imp hb
  calc ds = (ds.reverse.takeWhile (· == Byte.zero) ++
          ds.reverse.dropWhile (· == Byte.zero)).reverse := by rw [h, List.reverse_reverse]
    _ = Decimal.dropTrailingZeros ds ++ (ds.reverse.takeWhile (· == Byte.zero)).reverse := by
      rw [List.reverse_append, Decimal.dropTrailingZeros]
    _ = _ := by rw [hz, List.reverse_replicate, List.length_replicate]

theorem isDigits_dropTrailingZeros (h : IsDigits ds) : IsDigits (Decimal.dropTrailingZeros ds) := by
  obtain ⟨k, hk⟩ := eq_dropTrailingZeros_append ds
  rw [hk] at h
  exact (isDigits_append.mp h).1

theorem isDigits_replicate_zero (k : Nat) : IsDigits (List.replicate k Byte.zero) := by
  intro b hb
  rw [(List.mem_replicate.mp hb).2]
  rfl

theorem digitsValue_replicate_zero (k : Nat) : digitsValue (List.replicate k Byte.zero) = 0 := by
  induction k with
  | zero => rfl
  | succ k ih => rw [List.replicate_succ', digitsValue_concat, ih]; rfl

end Text

/-! ## Numerals -/

namespace Numeral

variable {n : Numeral} {b : UInt8} {rest : Text}

/-- Digits, and after a point, if there is one, more digits. -/
structure IsLiteral (n : Numeral) : Prop where
  whole_ne_nil : n.whole ≠ []
  isDigits_whole : Text.IsDigits n.whole
  fraction_ne_nil : n.fraction ≠ some []
  isDigits_fraction : ∀ ds ∈ n.fraction, Text.IsDigits ds

theorem text_eq_cons (n : Numeral) {ds : Text} (h : n.whole = b :: ds) :
    ∃ rest, n.text = b :: rest := by
  unfold text
  split
  · exact ⟨ds, h⟩
  · exact ⟨_, by rw [h]; rfl⟩

/-- What follows does not go on with the numeral. -/
def EndsBefore (n : Numeral) (rest : Text) : Prop :=
  ∀ b ∈ rest.head?, Byte.isDigit b = false ∧ (n.fraction = none → b ≠ Byte.point)

/-- A numeral, also one that ends in its point, is read as far as it goes. -/
theorem scan_text_of_isDigits (hw : Text.IsDigits n.whole)
    (hf : ∀ ds ∈ n.fraction, Text.IsDigits ds) (hr : n.EndsBefore rest) :
    scan (n.text ++ rest) = n := by
  obtain ⟨whole, fraction⟩ := n
  have hr' : ∀ b ∈ rest.head?, Byte.isDigit b = false := fun b hb => (hr b hb).1
  cases fraction with
  | none =>
    rw [text, scan, takeWhile_run hw hr', dropWhile_run hw hr']
    cases rest with
    | nil => rfl
    | cons b rest => simp only [if_neg ((hr b rfl).2 rfl)]
  | some ds =>
    have hp : ∀ b ∈ (Byte.point :: ds ++ rest).head?, Byte.isDigit b = false := by
      intro b hb
      cases hb
      rfl
    rw [text, List.append_assoc, scan, takeWhile_run hw hp, dropWhile_run hw hp]
    simp only [List.cons_append, if_true, takeWhile_run (hf ds rfl) hr']

theorem scan_text (h : n.IsLiteral) (hr : n.EndsBefore rest) : scan (n.text ++ rest) = n :=
  scan_text_of_isDigits h.isDigits_whole h.isDigits_fraction hr

theorem IsLiteral.eq_of_text {n' : Numeral} (h : n.IsLiteral) (h' : n'.IsLiteral)
    (ht : n.text = n'.text) : n = n' := by
  have hn : scan (n.text ++ []) = n := scan_text h (by simp [EndsBefore])
  have hn' : scan (n'.text ++ []) = n' := scan_text h' (by simp [EndsBefore])
  rw [← hn, ht, hn']

/-- A numeral is taken from the front, up to a byte that does not go on with it. -/
theorem exists_scan_append (input : Text) :
    ∃ rest, input = (scan input).text ++ rest ∧ (scan input).EndsBefore rest := by
  have he := (List.takeWhile_append_dropWhile (p := Byte.isDigit) (l := input)).symm
  unfold scan
  simp only
  split
  · next b rest hd =>
    by_cases hb : b = Byte.point
    · refine ⟨rest.dropWhile Byte.isDigit, ?_, fun c hc => ⟨stops_dropWhile _ rest c hc, ?_⟩⟩
      · rw [if_pos hb, text, List.append_assoc, List.cons_append,
          List.takeWhile_append_dropWhile, ← hb, ← hd]
        exact he
      · simp [if_pos hb]
    · refine ⟨b :: rest, ?_, fun c hc => ⟨stops_dropWhile _ input c (hd ▸ hc), fun _ => ?_⟩⟩
      · rw [if_neg hb, text, ← hd]
        exact he
      · cases hc
        exact hb
  · next hd =>
    refine ⟨[], ?_, fun c hc => by cases hc⟩
    rw [text, ← hd]
    exact he

theorem whole_scan (input : Text) : (scan input).whole = input.takeWhile Byte.isDigit := by
  unfold scan
  simp only
  split <;> rfl

theorem text_of_endsInPoint (h : n.endsInPoint = true) : n.text = n.whole ++ [Byte.point] := by
  rw [endsInPoint, beq_iff_eq] at h
  rw [text, h]

theorem isDigits_whole_scan (input : Text) : Text.IsDigits (scan input).whole := by
  rw [whole_scan]
  exact Text.isDigits_takeWhile _

theorem isDigits_fraction_scan (input : Text) : ∀ ds ∈ (scan input).fraction, Text.IsDigits ds := by
  intro ds hds
  unfold scan at hds
  simp only at hds
  split at hds
  · simp only [Option.mem_def] at hds
    split at hds
    · cases hds
      exact Text.isDigits_takeWhile _
    · cases hds
  · cases hds

theorem isLiteral_scan (hb : Byte.isDigit b = true)
    (he : (scan (b :: rest)).endsInPoint = false) : (scan (b :: rest)).IsLiteral := by
  refine ⟨?_, isDigits_whole_scan _, ?_, isDigits_fraction_scan _⟩
  · simp [whole_scan, hb]
  · intro h
    simp [endsInPoint, h] at he

end Numeral

end ScriptEngine
