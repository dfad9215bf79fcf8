import Mathlib.Algebra.Ring.Parity
import ScriptEngine.Proofs.Double.Significant

/-!
# Rounding to a grid

A `Grid` is a family of numbers to round to, some of which count as even. `Grid.Nearest q i` says
that no number of the grid is closer to `q` than that of `i`, and that `i` is even if another number
is as close. Such a number is unique if between any two even ones there is a third
(`Grid.Nearest.val_eq`).

Two grids are in use: the doubles up to infinity, which stands where the next number would be
(`Double.nearest_spec`), and the numbers with a given number of digits in some base, whatever their
exponent (`Grid.floating`), to which decimals are written and underflow is judged.
-/

namespace ScriptEngine

variable {ι : Type} {q : ℚ}

structure Grid (ι : Type) where
  Mem : ι → Prop
  val : ι → ℚ
  IsEven : ι → Prop

namespace Grid

variable {G : Grid ι} {i j : ι}

structure Nearest (G : Grid ι) (q : ℚ) (i : ι) : Prop where
  mem : G.Mem i
  closest : ∀ j, G.Mem j → |G.val i - q| ≤ |G.val j - q|
  tie : ∀ j, G.Mem j → |G.val j - q| = |G.val i - q| → G.val j = G.val i ∨ G.IsEven i

/-- Of two even numbers of the grid, one can go closer to the other. -/
def Alternates (G : Grid ι) : Prop :=
  ∀ i j, G.Mem i → G.Mem j → G.IsEven i → G.IsEven j → G.val i < G.val j →
    ∃ k, G.Mem k ∧ G.val i < G.val k ∧ G.val k < G.val j

/-- Between two numbers that are nearest to one number there is nothing left. -/
theorem Nearest.not_lt (hG : G.Alternates) (hi : G.Nearest q i) (hj : G.Nearest q j) :
    ¬G.val i < G.val j := by
  intro hlt
  have hdist : |G.val i - q| = |G.val j - q| :=
    le_antisymm (hi.closest j hj.mem) (hj.closest i hi.mem)
  have hei := (hi.tie j hj.mem hdist.symm).resolve_left hlt.ne'
  have hej := (hj.tie i hi.mem hdist).resolve_left hlt.ne
  obtain ⟨k, hk, hik, hkj⟩ := hG i j hi.mem hj.mem hei hej hlt
  have hc := hi.closest k hk
  rcases abs_cases (G.val i - q) with ⟨h1, _⟩ | ⟨h1, _⟩ <;>
    rcases abs_cases (G.val j - q) with ⟨h2, _⟩ | ⟨h2, _⟩ <;>
    rcases abs_cases (G.val k - q) with ⟨h3, _⟩ | ⟨h3, _⟩ <;>
    rw [h1, h2] at hdist <;> rw [h1, h3] at hc <;> linarith

/-- Rounding keeps the order. -/
theorem Nearest.mono {q' : ℚ} (hG : G.Alternates) (hi : G.Nearest q i) (hj : G.Nearest q' j)
    (h : q ≤ q') : G.val i ≤ G.val j := by
  by_contra hlt
  rw [not_le] at hlt
  have hc := hi.closest j hj.mem
  have hc' := hj.closest i hi.mem
  -- The middle of the two is not above `q` and not below `q'`.
  have hq : q' ≤ q := by
    rcases abs_cases (G.val i - q) with ⟨h1, _⟩ | ⟨h1, _⟩ <;>
      rcases abs_cases (G.val j - q) with ⟨h2, _⟩ | ⟨h2, _⟩ <;>
      rcases abs_cases (G.val i - q') with ⟨h3, _⟩ | ⟨h3, _⟩ <;>
      rcases abs_cases (G.val j - q') with ⟨h4, _⟩ | ⟨h4, _⟩ <;>
      rw [h1, h2] at hc <;> rw [h3, h4] at hc' <;> linarith
  obtain rfl := le_antisymm h hq
  exact hj.not_lt hG hi hlt

theorem Nearest.val_eq (hG : G.Alternates) (hi : G.Nearest q i) (hj : G.Nearest q j) :
    G.val i = G.val j :=
  le_antisymm (hi.mono hG hj le_rfl) (hj.mono hG hi le_rfl)

/-- A number of the grid is nearest to itself. -/
theorem nearest_of_val (hi : G.Mem i) (h : G.val i = q) : G.Nearest q i where
  mem := hi
  closest := fun j _ => by simp [h]
  tie := fun j _ hj => .inl (by rwa [h, sub_self, abs_zero, abs_eq_zero, sub_eq_zero, ← h] at hj)

end Grid

/-! ## Whole numbers -/

namespace Fraction

variable {f : Fraction}

theorem even_round (h : |(f.round : ℚ) - f.val| = 1 / 2) : Even f.round := by
  have hd := f.den_cast_pos
  have hdiv := f.val_eq_div_add_mod
  have hcast : (2 * (f.num % f.den : Nat) : ℚ) = f.den → 2 * (f.num % f.den) = f.den := by
    intro he
    exact_mod_cast he
  rw [Nat.even_iff]
  unfold round at h ⊢
  simp only at h ⊢
  split at h
  · next hlow =>
    rw [if_pos hlow]
    rw [hdiv, sub_add_cancel_left, abs_neg, abs_of_nonneg (by positivity), div_eq_iff hd.ne'] at h
    have := hcast (by linarith)
    omega
  · next hhigh =>
    rw [if_neg hhigh]
    have hmod : f.num % f.den < f.den := Nat.mod_lt _ f.den_pos
    have hlt : ((f.num % f.den : Nat) : ℚ) / f.den < 1 := by
      rw [div_lt_one hd]
      exact_mod_cast hmod
    rw [hdiv, Nat.cast_add, Nat.cast_one, add_sub_add_left_eq_sub, abs_of_pos (by linarith),
      sub_eq_iff_eq_add, ← sub_eq_iff_eq_add', eq_div_iff hd.ne'] at h
    have := hcast (by linarith)
    omega

/-- No whole number is closer than the rounded one, nor is anything that a whole number keeps apart
from the fraction. -/
theorem round_closest {w : ℚ} (hw : (∃ n : Nat, w = n) ∨ ∃ n : Nat, w < n ∧ (n : ℚ) ≤ f.val) :
    |(f.round : ℚ) - f.val| ≤ |w - f.val| ∧
      (|w - f.val| = |(f.round : ℚ) - f.val| → w = f.round ∨ Even f.round) := by
  have hhalf := f.abs_round_sub_val
  -- Two whole numbers that differ are one apart, so both cannot be closer than a half.
  have hwhole (n : Nat) : |(f.round : ℚ) - f.val| ≤ |(n : ℚ) - f.val| ∧
      (|(n : ℚ) - f.val| = |(f.round : ℚ) - f.val| → n = f.round ∨ Even f.round) := by
    by_cases hn : n = f.round
    · simp [hn]
    · have hone : (1 : ℚ) ≤ |(n : ℚ) - f.round| := by
        have : (1 : Int) ≤ |(n : Int) - f.round| := Int.one_le_abs (by omega)
        exact_mod_cast this
      have htri := abs_sub_le (n : ℚ) f.val f.round
      rw [abs_sub_comm f.val] at htri
      exact ⟨by linarith, fun he => .inr (even_round (by linarith))⟩
  rcases hw with ⟨n, rfl⟩ | ⟨n, hlt, hle⟩
  · obtain ⟨h1, h2⟩ := hwhole n
    exact ⟨h1, fun he => (h2 he).imp (fun e => by rw [e]) id⟩
  · have hn := (hwhole n).1
    rw [abs_of_nonpos (a := (n : ℚ) - f.val) (by linarith)] at hn
    rw [abs_of_nonpos (a := w - f.val) (by linarith)]
    exact ⟨by linarith, fun he => absurd he (by linarith)⟩

end Fraction

/-- Rounding in units gives a nearest number, if every other one is a number of units or lies below
one that is not above `q`. -/
theorem Grid.nearest_of_units {G : Grid ι} {i : ι} {u : ℚ} {g : Fraction} (hu : 0 < u)
    (hg : g.val * u = q) (hi : G.Mem i) (hval : G.val i = g.round * u)
    (heven : Even g.round → G.IsEven i)
    (hother : ∀ j, G.Mem j → (∃ n : Nat, G.val j = n * u) ∨ ∃ n : Nat, G.val j < n * u ∧ n * u ≤ q) :
    G.Nearest q i := by
  have hscale (w : ℚ) : |w * u - q| = |w - g.val| * u := by
    rw [← hg, ← sub_mul, abs_mul, abs_of_pos hu]
  have hround (j : ι) (hj : G.Mem j) : |(g.round : ℚ) - g.val| ≤ |G.val j / u - g.val| ∧
      (|G.val j / u - g.val| = |(g.round : ℚ) - g.val| → G.val j / u = g.round ∨ Even g.round) := by
    apply Fraction.round_closest
    rcases hother j hj with ⟨n, hn⟩ | ⟨n, hlt, hle⟩
    · exact .inl ⟨n, by rw [hn, mul_div_cancel_right₀ _ hu.ne']⟩
    · refine .inr ⟨n, by rwa [div_lt_iff₀ hu], ?_⟩
      rw [← hg] at hle
      exact le_of_mul_le_mul_right hle hu
  have hback (j : ι) : G.val j / u * u = G.val j := div_mul_cancel₀ _ hu.ne'
  refine ⟨hi, fun j hj => ?_, fun j hj he => ?_⟩
  · rw [hval, ← hback j, hscale, hscale]
    exact mul_le_mul_of_nonneg_right (hround j hj).1 hu.le
  · rw [hval, ← hback j, hscale, hscale] at he
    rw [hval, ← hback j]
    exact ((hround j hj).2 (mul_right_cancel₀ hu.ne' he)).imp (fun e => by rw [e]) heven

/-! ## Numbers with so many digits -/

namespace Grid

variable {base p : Nat}

/-- The numbers with `p` digits, each with the exponent of its last digit. -/
def floating (base p : Nat) : Grid (Nat × Int) where
  Mem i := base ^ (p - 1) ≤ i.1 ∧ i.1 < base ^ p
  val i := i.1 * (base : ℚ) ^ i.2
  IsEven i := Even i.1

/-- In units of `base ^ e` a number with `p` digits is whole, unless its exponent is smaller: then it
lies below all those with the exponent `e`. -/
theorem floating_units (hb : 1 < base) (hp : 0 < p) (e : Int) {j : Nat × Int}
    (hj : (floating base p).Mem j) :
    (∃ n : Nat, (floating base p).val j = n * (base : ℚ) ^ e ∧ (Even j.1 → Even n)) ∨
      (floating base p).val j < (base ^ (p - 1) : Nat) * (base : ℚ) ^ e := by
  have hb' : (1 : ℚ) < base := by exact_mod_cast hb
  show (∃ n : Nat, (j.1 : ℚ) * (base : ℚ) ^ j.2 = n * (base : ℚ) ^ e ∧ _) ∨
    (j.1 : ℚ) * (base : ℚ) ^ j.2 < _
  rcases le_or_gt e j.2 with he | he
  · obtain ⟨k, hk⟩ := Int.le.dest he
    refine .inl ⟨j.1 * base ^ k, ?_, fun h => h.mul_right _⟩
    rw [← hk, zpow_add₀ (by positivity), zpow_natCast]
    push_cast
    ring
  · right
    calc (j.1 : ℚ) * (base : ℚ) ^ j.2
        < (base ^ p : Nat) * (base : ℚ) ^ j.2 := by
          gcongr
          exact_mod_cast hj.2
      _ = (base ^ (p - 1) : Nat) * (base : ℚ) ^ (j.2 + 1) := by
          obtain ⟨k, rfl⟩ := Nat.exists_eq_add_of_le' hp
          rw [zpow_add_one₀ (by positivity), Nat.pow_succ, Nat.add_sub_cancel]
          push_cast
          ring
      _ ≤ (base ^ (p - 1) : Nat) * (base : ℚ) ^ e := by
          gcongr
          · exact hb'.le
          · omega

theorem floating_alternates (hb : 1 < base) (heven : Even base) (hp : 0 < p) :
    (floating base p).Alternates := by
  intro i j hi hj hei hej hlt
  have hpos : (0 : ℚ) < (base : ℚ) ^ i.2 := by positivity
  have hsucc : i.1 + 1 < base ^ p := by
    have hpow : Even (base ^ p) := heven.pow_of_ne_zero hp.ne'
    have hne : i.1 + 1 ≠ base ^ p := by
      intro h
      rw [← h, Nat.even_add_one] at hpow
      exact hpow hei
    have := hi.2
    omega
  refine ⟨(i.1 + 1, i.2), ⟨hi.1.trans (Nat.le_succ _), hsucc⟩, ?_, ?_⟩
  · show (i.1 : ℚ) * (base : ℚ) ^ i.2 < ((i.1 + 1 : Nat) : ℚ) * (base : ℚ) ^ i.2
    gcongr
    exact Nat.lt_succ_self _
  · -- The even number above is whole in units of the lower one, and not the next one.
    rcases floating_units hb hp i.2 hj with ⟨n, hn, hne⟩ | hbelow
    · rw [hn] at hlt ⊢
      have hin : i.1 < n := by exact_mod_cast lt_of_mul_lt_mul_right hlt hpos.le
      have hodd : n ≠ i.1 + 1 := by
        intro h
        have := hne hej
        rw [h, Nat.even_add_one] at this
        exact this hei
      show ((i.1 + 1 : Nat) : ℚ) * (base : ℚ) ^ i.2 < n * (base : ℚ) ^ i.2
      gcongr
      omega
    · have hle : ((base ^ (p - 1) : Nat) : ℚ) * (base : ℚ) ^ i.2 ≤ i.1 * (base : ℚ) ^ i.2 := by
        gcongr
        exact hi.1
      exact absurd (hlt.trans hbelow) (not_lt.mpr hle)

/-- Rounding in units of the last of `p` digits, and taking a digit off if there is one more then. -/
theorem floating_nearest {g : Fraction} {e : Int} (hb : 1 < base) (heven : Even base) (hp : 1 < p)
    (lo : (base : ℚ) ^ (e + (p - 1 : Nat)) ≤ q) (hi : q < (base : ℚ) ^ (e + p))
    (hg : g.val * (base : ℚ) ^ e = q) :
    (floating base p).Nearest q
      (if g.round = base ^ p then (base ^ (p - 1), e + 1) else (g.round, e)) := by
  have hu : (0 : ℚ) < (base : ℚ) ^ e := by positivity
  have hlo : ((base ^ (p - 1) : Nat) : ℚ) * (base : ℚ) ^ e ≤ q := by
    rwa [zpow_add₀ (by positivity), zpow_natCast, mul_comm, ← Nat.cast_pow] at lo
  have hhi : q < ((base ^ p : Nat) : ℚ) * (base : ℚ) ^ e := by
    rwa [zpow_add₀ (by positivity), zpow_natCast, mul_comm, ← Nat.cast_pow] at hi
  rw [← hg] at hlo hhi
  have hlo' : base ^ (p - 1) ≤ g.round := Fraction.le_round (le_of_mul_le_mul_right hlo hu)
  have hhi' : g.round ≤ base ^ p := Fraction.round_le (lt_of_mul_lt_mul_right hhi hu.le).le
  have hother (j : Nat × Int) (hj : (floating base p).Mem j) :
      (∃ n : Nat, (floating base p).val j = n * (base : ℚ) ^ e) ∨
        ∃ n : Nat, (floating base p).val j < n * (base : ℚ) ^ e ∧ n * (base : ℚ) ^ e ≤ q := by
    rcases floating_units hb (by omega) e hj with ⟨n, hn, _⟩ | h
    · exact .inl ⟨n, hn⟩
    · exact .inr ⟨_, h, hg ▸ hlo⟩
  split
  · next hcarry =>
    refine nearest_of_units hu hg ⟨le_rfl, Nat.pow_lt_pow_right hb (by omega)⟩ ?_ (fun _ => ?_) hother
    · show ((base ^ (p - 1) : Nat) : ℚ) * (base : ℚ) ^ (e + 1) = g.round * (base : ℚ) ^ e
      obtain ⟨k, rfl⟩ := Nat.exists_eq_add_of_le' hp.le
      rw [hcarry, zpow_add_one₀ (by positivity), Nat.pow_succ, Nat.add_sub_cancel]
      push_cast
      ring
    · exact heven.pow_of_ne_zero (by omega)
  · next hfit =>
    exact nearest_of_units hu hg ⟨hlo', lt_of_le_of_ne hhi' hfit⟩ rfl id hother

end Grid

end ScriptEngine
