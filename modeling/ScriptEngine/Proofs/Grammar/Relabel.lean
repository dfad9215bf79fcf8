import Mathlib.Data.List.Forall2
import ScriptEngine.Proofs.Grammar.Derivation
import ScriptEngine.Proofs.Tree.Positions

/-!
# Tokens at other places

Whether a text is derivable does not depend on where its tokens stand. From a derivation of a text
another one is made for the same tokens at other places (`fits_of_aligned`); it is as deep, and its
tree has the positions of these places and is otherwise the same.
-/

namespace ScriptEngine

/-- The other token, as one of the same kind. -/
def TokenOf.move {k : TokenKind} (t : TokenOf k) {u : Token} (h : t.1.Same u) : TokenOf k :=
  ⟨u, h.kind.symm.trans t.2⟩

/-- The other token, as one of the same class. -/
def TokenIn.move {p : TokenKind → Bool} (t : TokenIn p) {u : Token} (h : t.1.Same u) : TokenIn p :=
  ⟨u, h.kind ▸ t.2⟩

namespace Nonterminal

/-- The same tree up to positions. -/
@[simp] def SameTree : (s : Nonterminal) → s.Tree → s.Tree → Prop
  | block, f, g => ∀ p q, (f p).erase = (g q).erase
  | statements, ss, ss' => Stmt.eraseAll ss = Stmt.eraseAll ss'
  | statement, s, s' => s.erase = s'.erase
  | conditional, c, c' => c.erase = c'.erase
  | rootExpr, e, e' | expr, e, e' | term, e, e' | factor, e, e' | call, e, e' | argument, e, e' =>
    e.erase = e'.erase
  | arguments, es, es' | moreArguments, es, es' => Expr.eraseAll es = Expr.eraseAll es'

/-- The same tree, at places that `f` and `f'` make one. -/
@[simp] def Agree (f f' : Pos → Pos) : (s : Nonterminal) → s.Tree → s.Tree → Prop
  | block, b, b' => ∀ p q, f p = f' q → (b p).mapPos f = (b' q).mapPos f'
  | statements, ss, ss' => Stmt.mapPosAll f ss = Stmt.mapPosAll f' ss'
  | statement, s, s' => s.mapPos f = s'.mapPos f'
  | conditional, c, c' => c.mapPos f = c'.mapPos f'
  | rootExpr, e, e' | expr, e, e' | term, e, e' | factor, e, e' | call, e, e' | argument, e, e' =>
    e.mapPos f = e'.mapPos f'
  | arguments, es, es' | moreArguments, es, es' => Expr.mapPosAll f es = Expr.mapPosAll f' es'

end Nonterminal

theorem forall₂_append_left {α β : Type} {R : α → β → Prop} {as bs : List α} {us : List β} :
    List.Forall₂ R (as ++ bs) us ↔
      ∃ vs ws, List.Forall₂ R as vs ∧ List.Forall₂ R bs ws ∧ us = vs ++ ws := by
  induction as generalizing us with
  | nil => simp
  | cons a as ih =>
    simp only [List.cons_append, List.forall₂_cons_left_iff, ih]
    constructor
    · rintro ⟨b, _, hb, ⟨vs, ws, hv, hw, rfl⟩, rfl⟩
      exact ⟨b :: vs, ws, ⟨b, vs, hb, hv, rfl⟩, hw, rfl⟩
    · rintro ⟨_, ws, ⟨b, vs, hb, hv, rfl⟩, hw, rfl⟩
      exact ⟨b, vs ++ ws, hb, ⟨vs, ws, hv, hw, rfl⟩, rfl⟩

theorem forall₂_append_cons_left {α β : Type} {R : α → β → Prop} {a : α} {as bs : List α}
    {us : List β} : List.Forall₂ R (as ++ a :: bs) us ↔
      ∃ vs u ws, List.Forall₂ R as vs ∧ R a u ∧ List.Forall₂ R bs ws ∧ us = vs ++ u :: ws := by
  simp only [forall₂_append_left, List.forall₂_cons_left_iff]
  constructor
  · rintro ⟨vs, _, hv, ⟨u, ws, hu, hw, rfl⟩, rfl⟩
    exact ⟨vs, u, ws, hv, hu, hw, rfl⟩
  · rintro ⟨vs, u, ws, hv, hu, hw, rfl⟩
    exact ⟨vs, _, hv, ⟨u, ws, hu, hw, rfl⟩, rfl⟩

namespace Derivation

open Nonterminal

/-- `D` can be read off the tokens `us`. -/
def Fits {s : Nonterminal} (D : Derivation s) (us : List Token) : Prop :=
  ∃ D' : Derivation s, D'.tokens = us ∧ D'.depth = D.depth ∧ s.SameTree D'.tree D.tree

variable {f f' : Pos → Pos} {us : List Token}

theorem firstPos_of_aligned {ts : List Token} {p q : Pos}
    (h : List.Forall₂ (Token.Aligned f f') ts us) (hp : f p = f' q) :
    f (firstPos ts p) = f' (firstPos us q) := by
  cases h with
  | nil => exact hp
  | cons h _ => exact h.pos

theorem fits_of_aligned {s : Nonterminal} (D : Derivation s)
    (h : List.Forall₂ (Token.Aligned f f') D.tokens us) :
    ∃ D' : Derivation s, D'.tokens = us ∧ D'.depth = D.depth ∧ s.Agree f f' D.tree D'.tree := by
  induction D generalizing us with
  | block ss ih =>
    obtain ⟨SS, rfl, hd, ht⟩ := ih h
    refine ⟨.block SS, rfl, by simp [hd], fun p q hp => ?_⟩
    exact congrArg₂ Block.mk (firstPos_of_aligned h hp) ht
  | noStatement | noArgument | endArguments =>
    cases h
    exact ⟨_, rfl, rfl, rfl⟩
  | moreStatements s ss ihs ihss =>
    obtain ⟨_, _, h1, h2, rfl⟩ := forall₂_append_left.mp h
    obtain ⟨S, rfl, hd, ht⟩ := ihs h1
    obtain ⟨SS, rfl, hd', ht'⟩ := ihss h2
    exact ⟨.moreStatements S SS, rfl, by simp [hd, hd'], by simp_all⟩
  | assign name eq v ih =>
    simp only [tokens, List.forall₂_cons_left_iff] at h
    obtain ⟨n, _, hn, ⟨e, _, he, hv, rfl⟩, rfl⟩ := h
    obtain ⟨V, rfl, hd, ht⟩ := ih hv
    exact ⟨.assign (name.move hn.same) (eq.move he.same) V, rfl, hd,
      by simp_all [TokenOf.move, hn.same.lexeme, hn.pos]⟩
  | callStatement c ih =>
    obtain ⟨C, rfl, hd, ht⟩ := ih h
    exact ⟨.callStatement C, rfl, hd, by simp_all⟩
  | ifThen i c t b e ihc ihb =>
    simp only [tokens, List.forall₂_cons_left_iff, forall₂_append_cons_left,
      List.forall₂_nil_left_iff] at h
    obtain ⟨i', _, hi, ⟨_, t', _, hc, ht, ⟨_, e', _, hb, he, rfl, rfl⟩, rfl⟩, rfl⟩ := h
    obtain ⟨C, rfl, hd, hC⟩ := ihc hc
    obtain ⟨B, rfl, hd', hB⟩ := ihb hb
    refine ⟨.ifThen (i.move hi.same) C (t.move ht.same) B (e.move he.same), rfl, by simp [hd, hd'], ?_⟩
    show Stmt.ifThen (f i.1.pos) _ _ = Stmt.ifThen (f' i'.pos) _ _
    rw [hi.pos, hC, hB _ _ he.pos]
    rfl
  | ifElse i c t b o b' e ihc ihb ihb' =>
    simp only [tokens, List.forall₂_cons_left_iff, forall₂_append_cons_left,
      List.forall₂_nil_left_iff] at h
    obtain ⟨i', _, hi, ⟨_, t', _, hc, ht, ⟨_, o', _, hb, ho, ⟨_, e', _, hb', he, rfl, rfl⟩, rfl⟩,
      rfl⟩, rfl⟩ := h
    obtain ⟨C, rfl, hd, hC⟩ := ihc hc
    obtain ⟨B, rfl, hd', hB⟩ := ihb hb
    obtain ⟨B', rfl, hd'', hB'⟩ := ihb' hb'
    refine ⟨.ifElse (i.move hi.same) C (t.move ht.same) B (o.move ho.same) B' (e.move he.same), rfl,
      by simp [hd, hd', hd''], ?_⟩
    show Stmt.ifElse (f i.1.pos) _ _ _ = Stmt.ifElse (f' i'.pos) _ _ _
    rw [hi.pos, hC, hB _ _ ho.pos, hB' _ _ he.pos]
    rfl
  | loop w c b e ihc ihb =>
    simp only [tokens, List.forall₂_cons_left_iff, forall₂_append_left,
      List.forall₂_nil_left_iff] at h
    obtain ⟨w', _, hw, ⟨_, _, hc, ⟨_, _, hb, ⟨e', _, he, rfl, rfl⟩, rfl⟩, rfl⟩, rfl⟩ := h
    obtain ⟨C, rfl, hd, hC⟩ := ihc hc
    obtain ⟨B, rfl, hd', hB⟩ := ihb hb
    refine ⟨.loop (w.move hw.same) C B (e.move he.same), rfl, by simp [hd, hd'], ?_⟩
    show Stmt.loop (f w.1.pos) _ _ = Stmt.loop (f' w'.pos) _ _
    rw [hw.pos, hC, hB _ _ he.pos]
    rfl
  | comparison l op r ihl ihr =>
    obtain ⟨_, o, _, hl, ho, hr, rfl⟩ := forall₂_append_cons_left.mp h
    obtain ⟨L, rfl, hd, hL⟩ := ihl hl
    obtain ⟨R, rfl, hd', hR⟩ := ihr hr
    exact ⟨.comparison L (op.move ho.same) R, rfl, by simp [hd, hd'],
      by simp_all [TokenIn.move, ho.same.kind, ho.pos]⟩
  | sum l op r ihl ihr =>
    obtain ⟨_, o, _, hl, ho, hr, rfl⟩ := forall₂_append_cons_left.mp h
    obtain ⟨L, rfl, hd, hL⟩ := ihl hl
    obtain ⟨R, rfl, hd', hR⟩ := ihr hr
    exact ⟨.sum L (op.move ho.same) R, rfl, by simp [hd, hd'],
      by simp_all [TokenIn.move, ho.same.kind, ho.pos]⟩
  | product l op r ihl ihr =>
    obtain ⟨_, o, _, hl, ho, hr, rfl⟩ := forall₂_append_cons_left.mp h
    obtain ⟨L, rfl, hd, hL⟩ := ihl hl
    obtain ⟨R, rfl, hd', hR⟩ := ihr hr
    exact ⟨.product L (op.move ho.same) R, rfl, by simp [hd, hd'],
      by simp_all [TokenIn.move, ho.same.kind, ho.pos]⟩
  | ofExpr e ih =>
    obtain ⟨E, rfl, hd, ht⟩ := ih h
    exact ⟨.ofExpr E, rfl, hd, ht⟩
  | ofConditional c ih =>
    obtain ⟨C, rfl, hd, ht⟩ := ih h
    exact ⟨.ofConditional C, rfl, hd, congrArg Condition.toExpr ht⟩
  | ofTerm t ih =>
    obtain ⟨T, rfl, hd, ht⟩ := ih h
    exact ⟨.ofTerm T, rfl, by simp [hd], ht⟩
  | ofFactor f ih =>
    obtain ⟨F, rfl, hd, ht⟩ := ih h
    exact ⟨.ofFactor F, rfl, by simp [hd], ht⟩
  | number n =>
    simp only [tokens, List.forall₂_cons_left_iff, List.forall₂_nil_left_iff] at h
    obtain ⟨u, _, hu, rfl, rfl⟩ := h
    exact ⟨.number (n.move hu.same), rfl, rfl, by simp [TokenOf.move, hu.same.value n.2, hu.pos]⟩
  | var name =>
    simp only [tokens, List.forall₂_cons_left_iff, List.forall₂_nil_left_iff] at h
    obtain ⟨u, _, hu, rfl, rfl⟩ := h
    exact ⟨.var (name.move hu.same), rfl, rfl, by simp [TokenOf.move, hu.same.lexeme, hu.pos]⟩
  | string s =>
    simp only [tokens, List.forall₂_cons_left_iff, List.forall₂_nil_left_iff] at h
    obtain ⟨u, _, hu, rfl, rfl⟩ := h
    exact ⟨.string (s.move hu.same), rfl, rfl, by simp [TokenOf.move, hu.same.lexeme, hu.pos]⟩
  | paren o e c ih =>
    simp only [tokens, List.forall₂_cons_left_iff, forall₂_append_cons_left,
      List.forall₂_nil_left_iff] at h
    obtain ⟨o', _, ho, ⟨_, c', _, he, hc, rfl, rfl⟩, rfl⟩ := h
    obtain ⟨E, rfl, hd, ht⟩ := ih he
    exact ⟨.paren (o.move ho.same) E (c.move hc.same), rfl, by simp [hd], ht⟩
  | callFactor c ih =>
    obtain ⟨C, rfl, hd, ht⟩ := ih h
    exact ⟨.callFactor C, rfl, by simp [hd], ht⟩
  | call name o as c ih =>
    simp only [tokens, List.forall₂_cons_left_iff, forall₂_append_cons_left,
      List.forall₂_nil_left_iff] at h
    obtain ⟨n, _, hn, ⟨o', _, ho, ⟨_, c', _, has, hc, rfl, rfl⟩, rfl⟩, rfl⟩ := h
    obtain ⟨AS, rfl, hd, ht⟩ := ih has
    exact ⟨.call (name.move hn.same) (o.move ho.same) AS (c.move hc.same), rfl, hd,
      by simp_all [TokenOf.move, hn.same.lexeme, hn.pos]⟩
  | someArguments a as iha ihas =>
    obtain ⟨_, _, h1, h2, rfl⟩ := forall₂_append_left.mp h
    obtain ⟨A, rfl, hd, ht⟩ := iha h1
    obtain ⟨AS, rfl, hd', ht'⟩ := ihas h2
    exact ⟨.someArguments A AS, rfl, by simp [hd, hd'], congrArg₂ List.cons ht ht'⟩
  | nextArgument comma a as iha ihas =>
    simp only [tokens, List.forall₂_cons_left_iff, forall₂_append_left] at h
    obtain ⟨k, _, hk, ⟨_, _, h1, h2, rfl⟩, rfl⟩ := h
    obtain ⟨A, rfl, hd, ht⟩ := iha h1
    obtain ⟨AS, rfl, hd', ht'⟩ := ihas h2
    exact ⟨.nextArgument (comma.move hk.same) A AS, rfl, by simp [hd, hd'], congrArg₂ List.cons ht ht'⟩
  | ofRootExpr e ih =>
    obtain ⟨E, rfl, hd, ht⟩ := ih h
    exact ⟨.ofRootExpr E, rfl, hd, ht⟩

theorem fits_of_same {s : Nonterminal} (D : Derivation s)
    (h : List.Forall₂ Token.Same D.tokens us) : D.Fits us := by
  obtain ⟨D', hu, hd, ht⟩ := D.fits_of_aligned (h.imp fun _ _ hs =>
    (⟨hs, rfl⟩ : Token.Aligned (fun _ => Pos.unset) (fun _ => Pos.unset) _ _))
  refine ⟨D', hu, hd, ?_⟩
  cases s with
  | block => exact fun p q => (ht q p rfl).symm
  | _ => exact ht.symm

end Derivation

end ScriptEngine
