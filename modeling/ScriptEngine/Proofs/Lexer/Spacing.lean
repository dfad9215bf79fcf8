import Mathlib.Data.List.Chain
import ScriptEngine.Proofs.Double.Range
import ScriptEngine.Proofs.Lexer.Layout

/-!
# Lexemes with blanks between them

A `Lexeme` is a piece of source that makes one token. A `Spacing` puts lexemes in a row, with blanks
around them as one likes: two neighbours need a blank between them only if they would run together.
However the blanks are chosen, the lexer gives one token for each lexeme, and then the end
(`Spacing.delivers_tokens`).
-/

namespace ScriptEngine

inductive Lexeme where
  /-- A keyword, a separator or an operator. -/
  | fixed (kind : TokenKind) (text : Text) (isText : kind.fixedText? = some text)
  | name (word : Text) (isName : word.IsName)
  /-- A number in range, with the double that it is rounded to. -/
  | number (n : Numeral) (x : Double) (isLiteral : n.IsLiteral)
      (inRange : Double.InRange n.exact.val) (isRounding : Double.IsRounding n.exact.val x)
  | string (quote : UInt8) (contents : Text) (isQuote : Byte.isQuote quote = true)
      (free : quote ∉ contents)

namespace Lexeme

def kind : Lexeme → TokenKind
  | fixed k _ _ => k
  | name _ _ => .ident
  | number .. => .number
  | string _ _ _ _ => .string

/-- The bytes of the source. -/
def raw : Lexeme → Text
  | fixed _ t _ => t
  | name w _ => w
  | number n .. => n.text
  | string q s _ _ => q :: (s ++ [q])

/-- The text of the token. -/
def text : Lexeme → Text
  | string _ s _ _ => s
  | l => l.raw

def value? : Lexeme → Option Double
  | number _ x .. => some x
  | _ => none

/-- The token is the one that the lexeme makes. -/
structure Makes (l : Lexeme) (t : Token) : Prop where
  kind : t.kind = l.kind
  text : t.lexeme = l.text
  value : ∀ x ∈ l.value?, t.value = x

/-- The token made, at no place in particular. -/
def token (l : Lexeme) : Token := ⟨l.kind, l.text, l.value?.getD Double.zero, Pos.unset⟩

theorem spells_token (l : Lexeme) : Spells l.raw l.token := by
  cases l with
  | fixed k t h => exact .fixed (t := token (.fixed k t h)) h
  | name w h => exact .name (t := token (.name w h)) rfl h
  | number n x h hr hx =>
    exact .number (t := token (.number n x h hr hx)) rfl h rfl
      (Numeral.value?_eq_some_iff.mpr ⟨hr, hx⟩)
  | string q s hq hs => exact .string (t := token (.string q s hq hs)) rfl hq hs

theorem makes_of_same {l : Lexeme} {t : Token} (h : l.token.Same t) : l.Makes t := by
  refine ⟨h.kind.symm, h.lexeme.symm, fun x hx => ?_⟩
  cases l with
  | number =>
    cases hx
    exact (h.value rfl).symm
  | _ => cases hx

end Lexeme

/-- Lexemes in a row, each with the blanks after it. -/
structure Spacing where
  lead : Text
  pieces : List (Lexeme × Text)
  lead_isBlank : lead.IsBlank
  isBlank : ∀ p ∈ pieces, p.2.IsBlank
  apart : pieces.IsChain fun p q => p.2 = [] → p.1.kind.clashes q.1.kind = false

namespace Spacing

def lexemes (s : Spacing) : List Lexeme := s.pieces.map Prod.fst

def source (s : Spacing) : Text := s.lead ++ s.pieces.flatMap fun p => p.1.raw ++ p.2

theorem layout_pieces {lead : Text} (hl : lead.IsBlank) {ps : List (Lexeme × Text)}
    (hb : ∀ p ∈ ps, p.2.IsBlank)
    (ha : ps.IsChain fun p q => p.2 = [] → p.1.kind.clashes q.1.kind = false) :
    Layout (ps.map fun p => p.1.token) (lead ++ ps.flatMap fun p => p.1.raw ++ p.2) := by
  induction ps generalizing lead with
  | nil =>
    rw [List.flatMap_nil, List.append_nil]
    exact .nil hl
  | cons p ps ih =>
    rw [List.forall_mem_cons] at hb
    rw [List.isChain_cons] at ha
    rw [List.flatMap_cons, List.append_assoc]
    refine .cons hl p.1.spells_token (fun u hu hc => ?_) (ih hb.1 hb.2 ha.2)
    -- Neighbours that would run together have a blank between them.
    rw [List.head?_map, Option.mem_map] at hu
    obtain ⟨q, hq, rfl⟩ := hu
    have hne : p.2 ≠ [] := fun he => Bool.false_ne_true ((ha.1 q hq he).symm.trans hc)
    obtain ⟨b, gap, hgap⟩ := List.exists_cons_of_ne_nil hne
    exact ⟨b, by simp [hgap], hb.1 b (by simp [hgap])⟩

theorem layout (s : Spacing) : Layout (s.lexemes.map Lexeme.token) s.source := by
  rw [lexemes, List.map_map]
  exact layout_pieces s.lead_isBlank s.isBlank s.apart

/-- Whatever the blanks, each lexeme makes its token. -/
theorem delivers_tokens (s : Spacing) (file : Text) (seekable : Bool) :
    ∃ ts last lx, Delivers (Lexer.start file s.source seekable) (ts ++ [last]) lx ∧
      List.Forall₂ Lexeme.Makes s.lexemes ts ∧ last.kind = .endOfInput := by
  have hp : (Lexer.start file s.source seekable).reader.pending = s.source := rfl
  obtain ⟨ts, last, lx, hd, hts, hl⟩ := s.layout.delivers hp
  rw [List.forall₂_map_left_iff] at hts
  exact ⟨ts, last, lx, hd, hts.imp fun _ _ => Lexeme.makes_of_same, hl⟩

end Spacing

end ScriptEngine
