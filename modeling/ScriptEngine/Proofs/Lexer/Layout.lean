import Mathlib.Data.List.Forall2
import ScriptEngine.Proofs.Lexer.Lexeme

/-!
# Layout

A source is laid out freely: between two tokens stands any number of blanks, also none unless the two
would run together (`clashes`). Whatever the layout, the lexer gives the same tokens, only their
positions differ (`Layout.delivers`).
-/

namespace ScriptEngine

namespace TokenKind

/-- Whether tokens of these kinds run together when nothing stands between them. -/
def clashes (k l : TokenKind) : Bool :=
  k.isWord && l.isWord || k == number && l == number || (k == greater || k == less) && l == equals

theorem stopsAt_of_clashes {k l : TokenKind} {b : UInt8} (hc : k.clashes l = false)
    (hletter : Byte.isLetter b = true → l.isWord = true)
    (hdigit : Byte.isDigit b = true → l = .number) (hequals : b = 61 → l = .equals)
    (hpoint : b ≠ Byte.point) : k.stopsAt b = true := by
  unfold stopsAt
  split
  · have : Byte.isDigit b = false := by
      rw [Bool.eq_false_iff]
      intro hb
      rw [hdigit hb] at hc
      cases hc
    simp [this, hpoint]
  · rw [bne_iff_ne]
    intro hb
    rw [hequals hb] at hc
    cases hc
  · rw [bne_iff_ne]
    intro hb
    rw [hequals hb] at hc
    cases hc
  · rw [Bool.not_eq_true', Bool.eq_false_iff]
    intro hb
    rw [Bool.and_eq_true] at hb
    simp [clashes, hb.1, hletter hb.2] at hc

end TokenKind

/-- Every token the lexer hands out is written in some way. -/
theorem Lexer.spells_of_delivers {lx lx' : Lexer} {ts : List Token} (h : Delivers lx ts lx') :
    ∀ t ∈ ts, t.kind ≠ .endOfInput → ∃ raw, Spells raw t := by
  induction h with
  | refl => exact fun t ht => by cases ht
  | step hn _ ih =>
    intro t ht hk
    rcases List.mem_cons.mp ht with rfl | ht
    · exact Lexer.next_spells hn hk
    · exact ih t ht hk

/-- Nothing but blanks. -/
def Text.IsBlank (gap : Text) : Prop := ∀ b ∈ gap, Byte.isBlank b = true

/-- The text consists of the tokens, in their order, each written in some way. -/
inductive Layout : List Token → Text → Prop where
  | nil {gap : Text} : gap.IsBlank → Layout [] gap
  | cons {t : Token} {ts : List Token} {gap raw rest : Text} : gap.IsBlank → Spells raw t →
      (∀ u ∈ ts.head?, t.kind.clashes u.kind = true → ∃ b ∈ rest.head?, Byte.isBlank b = true) →
      Layout ts rest → Layout (t :: ts) (gap ++ (raw ++ rest))

namespace Layout

variable {ts : List Token} {s : Text}

/-- A token is over where the next one is laid out. -/
theorem stopsAt (h : Layout ts s) {k : TokenKind}
    (hc : ∀ u ∈ ts.head?, k.clashes u.kind = true → ∃ b ∈ s.head?, Byte.isBlank b = true) :
    ∀ b ∈ s.head?, k.stopsAt b = true := by
  intro b hb
  cases h with
  | nil hg => exact Byte.stopsAt_of_isBlank k (hg b (List.mem_of_mem_head? hb))
  | @cons t ts gap raw rest hg hs _ _ =>
    cases gap with
    | cons b' gap =>
      cases hb
      exact Byte.stopsAt_of_isBlank k (hg b List.mem_cons_self)
    | nil =>
      obtain ⟨b', raw', rfl, hblank, hletter, hdigit, hequals, hpoint⟩ := hs.first
      cases hb
      refine TokenKind.stopsAt_of_clashes ?_ hletter hdigit hequals hpoint
      rw [Bool.eq_false_iff]
      intro hkt
      obtain ⟨b', hb', hblank'⟩ := hc t rfl hkt
      cases hb'
      rw [hblank] at hblank'
      cases hblank'

/-- However the tokens are laid out, the lexer gives them, and then the end. -/
theorem delivers (h : Layout ts s) {lx : Lexer} (hp : lx.reader.pending = s) :
    ∃ us last lx', Delivers lx (us ++ [last]) lx' ∧ List.Forall₂ Token.Same ts us ∧
      last.kind = .endOfInput := by
  induction h generalizing lx with
  | @nil gap hg =>
    have hb : lx.begin.reader.pending = [] := by
      rw [Lexer.pending_begin, hp, List.dropWhile_eq_nil_iff]
      exact hg
    exact ⟨[], _, _, .step (Lexer.next_nil hb) (.refl _), .nil, rfl⟩
  | cons hg hs hc hl ih =>
    obtain ⟨u, m, hn, hu, hm⟩ := Lexer.next_of_spells hs hg (hl.stopsAt hc) hp
    obtain ⟨us, last, lx', hd, hus, hlast⟩ := ih hm
    exact ⟨u :: us, last, lx', .step hn hd, .cons hu hus, hlast⟩

end Layout

end ScriptEngine
