import ScriptEngine.Proofs.Parser.Reading

/-!
# Completeness of the parser

Where the tokens ahead are those of a derivation and the next one ends the phrase, the parser of its
class reads them and gives the derivation's tree, if it has the levels and the rounds for it. The
token after a part of a phrase is the first one of what follows the part, or the one after the whole
phrase, so each part ends where the parser stops.
-/

namespace ScriptEngine

namespace Parser

open Nonterminal

variable {σ : Type} [TokenSource σ] {d n rounds : Nat} {expr : Parser σ Expr}

/-- `p` gives the tree of each phrase of the class `s` that is ahead, as long as the phrase is nested
to at most `d` levels and shorter than `n`. -/
def Accepts (s : Nonterminal) (d n : Nat) (p : Parser σ s.Tree) : Prop :=
  ∀ (D : Derivation s) {c c' : Cursor σ}, D.depth ≤ d → D.tokens.length < n →
    c.Reads D.tokens c' → s.endsAt c'.current.kind = true → p c = .ok (D.tree, c')

/-! ## Expressions -/

theorem rootExpr_accepts (he : Accepts .expr d n expr) :
    Accepts .rootExpr d n (rootExpr expr) := by
  intro D c c' hd hn hr hk
  cases D with
  | ofExpr E =>
    have hE := he E hd hn hr (endsAt_expr hk)
    rw [rootExpr, bind_ok hE, current_bind, if_neg]
    · rfl
    · intro h
      rw [(endsAt_of_isComparison h).2] at hk
      cases hk
  | ofConditional C =>
    cases C with
    | comparison E op F =>
      simp only [Derivation.tokens, Cursor.reads_append, Cursor.reads_cons] at hr
      obtain ⟨m, hm, hop, -, m', ha, hF⟩ := hr
      simp only [Derivation.depth, Nat.max_le] at hd
      simp only [Derivation.tokens, List.length_append, List.length_cons] at hn
      have h1 := he E hd.1 (by omega) hm (by rw [hop]; exact (endsAt_of_isComparison op.2).1)
      have h2 := he F hd.2 (by omega) hF (endsAt_expr hk)
      rw [rootExpr, bind_ok h1, current_bind, if_pos (by rw [hop]; exact op.2), bind_ok ha,
        bind_ok h2, hop]
      rfl

theorem argument_accepts (he : Accepts .expr d n expr) :
    Accepts .argument d n (argument expr) := by
  intro D c c' hd hn hr hk
  cases D with
  | ofRootExpr E =>
    have hs : c.current.kind ≠ .string := by
      intro h
      have := Cursor.Reads.startsWith (D := E) hr rfl
      rw [h] at this
      cases this
    rw [argument, current_bind, if_neg hs]
    exact rootExpr_accepts he E hd hn hr hk
  | string s =>
    simp only [Derivation.tokens, Cursor.reads_cons, Cursor.reads_nil] at hr
    obtain ⟨hs, -, m, ha, rfl⟩ := hr
    rw [argument, current_bind, if_pos (by rw [hs]; exact s.2), bind_ok ha, hs]
    rfl

/-- A loop of `n` rounds is enough for fewer than `n` tokens. -/
theorem moreArguments_accepts (he : Accepts .expr d rounds expr) :
    ∀ (n : Nat) (D : Derivation .moreArguments) (seen : List Expr) {c c' : Cursor σ},
      D.depth ≤ d → D.tokens.length < n → n ≤ rounds → c.Reads D.tokens c' →
      c'.current.kind = .closeParen →
      moreArguments expr n seen c = .ok (seen.reverse ++ D.tree, c')
  | 0, _, _, _, _, _, hn, _, _, _ => absurd hn (Nat.not_lt_zero _)
  | n + 1, .endArguments, seen, c, c', _, _, _, hr, hk => by
    rw [Derivation.tokens, Cursor.reads_nil] at hr
    subst hr
    rw [moreArguments, current_bind, if_neg (by rw [hk]; decide)]
    simp
  | n + 1, .nextArgument comma A D, seen, c, c', hd, hn, hle, hr, hk => by
    simp only [Derivation.tokens, Cursor.reads_append, Cursor.reads_cons] at hr
    obtain ⟨hc, -, m, ha, m', hA, hD⟩ := hr
    simp only [Derivation.depth, Nat.max_le] at hd
    simp only [Derivation.tokens, List.length_append, List.length_cons] at hn
    have hend : Nonterminal.argument.endsAt m'.current.kind = true :=
      hD.endsAt (stops_moreArguments D (by simp [endsAt, hk]))
    have h1 := argument_accepts he A hd.1 (by omega) hA hend
    have h2 := moreArguments_accepts he n D (A.tree :: seen) hd.2 (by omega) (by omega) hD hk
    rw [moreArguments, current_bind, if_pos (by rw [hc]; exact comma.2), bind_ok ha, bind_ok h1, h2]
    simp

theorem arguments_accepts (he : Accepts .expr d rounds expr) (D : Derivation .arguments)
    {o : TokenOf .openParen} {p : TokenOf .closeParen} {c c' : Cursor σ} (hd : D.depth ≤ d)
    (hn : D.tokens.length < rounds) (hr : c.Reads (o.1 :: (D.tokens ++ [p.1])) c') :
    arguments rounds expr c = .ok (D.tree, c') := by
  simp only [Cursor.reads_append, Cursor.reads_cons, Cursor.reads_nil] at hr
  obtain ⟨ho, -, m, ha, m', hD, hp, -, _, ha', rfl⟩ := hr
  rw [arguments, eat_bind (by rw [ho]; exact o.2), bind_ok ha, current_bind]
  have hp' : m'.current.kind = .closeParen := by rw [hp]; exact p.2
  cases D with
  | noArgument =>
    rw [Derivation.tokens, Cursor.reads_nil] at hD
    subst hD
    rw [if_pos hp', bind_ok ha']
    rfl
  | someArguments A D =>
    simp only [Derivation.tokens, Cursor.reads_append] at hD
    obtain ⟨m₁, hA, hD⟩ := hD
    simp only [Derivation.depth, Nat.max_le] at hd
    simp only [Derivation.tokens, List.length_append] at hn
    have hs : m.current.kind ≠ .closeParen := by
      intro h
      have := hA.startsWith rfl
      rw [h] at this
      cases this
    have hend : Nonterminal.argument.endsAt m₁.current.kind = true :=
      hD.endsAt (stops_moreArguments D (by simp [endsAt, hp']))
    have h1 := argument_accepts he A hd.1 (by omega) hA hend
    have h2 := moreArguments_accepts he rounds D [A.tree] hd.2 (by omega) (Nat.le_refl _) hD hp'
    rw [if_neg hs, bind_ok h1, bind_ok h2, eat_bind hp', bind_ok ha']
    rfl

theorem factor_accepts (he : Accepts .expr d rounds expr) :
    Accepts .factor (d + 1) rounds (factor rounds expr) := by
  intro D c c' hd hn hr hk
  cases D with
  | number t =>
    simp only [Derivation.tokens, Cursor.reads_cons, Cursor.reads_nil] at hr
    obtain ⟨ht, -, m, ha, rfl⟩ := hr
    rw [factor, current_bind, show c.current.kind = .number by rw [ht]; exact t.2]
    simp only
    rw [bind_ok ha, ht]
    rfl
  | var name =>
    simp only [Derivation.tokens, Cursor.reads_cons, Cursor.reads_nil] at hr
    obtain ⟨ht, -, m, ha, rfl⟩ := hr
    rw [factor, current_bind, show c.current.kind = .ident by rw [ht]; exact name.2]
    simp only
    rw [bind_ok ha, current_bind, if_neg, ht]
    · rfl
    · intro h
      rw [h] at hk
      cases hk
  | paren o E p =>
    simp only [Derivation.tokens, Cursor.reads_append, Cursor.reads_cons, Cursor.reads_nil] at hr
    obtain ⟨ho, -, m, ha, m', hE, hp, -, _, ha', rfl⟩ := hr
    simp only [Derivation.tokens, List.length_append, List.length_cons] at hn
    have hp' : m'.current.kind = .closeParen := by rw [hp]; exact p.2
    have h := he E (Nat.le_of_succ_le_succ hd) (by omega) hE (by rw [hp']; rfl)
    rw [factor, current_bind, show c.current.kind = .openParen by rw [ho]; exact o.2]
    simp only
    rw [bind_ok ha, bind_ok h, eat_bind hp', bind_ok ha']
    rfl
  | callFactor C =>
    cases C with
    | call name o D p =>
      rw [Derivation.tokens, Derivation.tokens, Cursor.reads_cons] at hr
      obtain ⟨ht, -, m, ha, hr⟩ := hr
      simp only [Derivation.tokens, List.length_append, List.length_cons] at hn
      have h := arguments_accepts he D (Nat.le_of_succ_le_succ hd) (by omega) hr
      have ho : m.current.kind = .openParen := by rw [(Cursor.reads_cons.mp hr).1]; exact o.2
      rw [factor, current_bind, show c.current.kind = .ident by rw [ht]; exact name.2]
      simp only
      rw [bind_ok ha, current_bind, if_pos ho, bind_ok h, ht]
      rfl

theorem term_accepts {factor term : Parser σ Expr} (hf : Accepts .factor d n factor)
    (ht : Accepts .term d n term) :
    Accepts .term (d + 1) n (chain TokenKind.isMultiplicative factor term) := by
  intro D c c' hd hn hr hk
  cases D with
  | ofFactor F =>
    have hF := hf F (Nat.le_of_succ_le_succ hd) hn hr (endsAt_factor hk)
    rw [chain, bind_ok hF, current_bind, if_neg]
    · rfl
    · intro h
      rw [(endsAt_of_isMultiplicative h).2] at hk
      cases hk
  | product F op T =>
    simp only [Derivation.tokens, Cursor.reads_append, Cursor.reads_cons] at hr
    obtain ⟨m, hm, hop, -, m', ha, hT⟩ := hr
    simp only [Derivation.depth, Nat.add_le_add_iff_right, Nat.max_le] at hd
    simp only [Derivation.tokens, List.length_append, List.length_cons] at hn
    have h1 := hf F hd.1 (by omega) hm (by rw [hop]; exact (endsAt_of_isMultiplicative op.2).1)
    have h2 := ht T hd.2 (by omega) hT hk
    rw [chain, bind_ok h1, current_bind, if_pos (by rw [hop]; exact op.2), bind_ok ha, bind_ok h2,
      hop]
    rfl

theorem expr_accepts {term expr : Parser σ Expr} (ht : Accepts .term d n term)
    (he : Accepts .expr d n expr) :
    Accepts .expr (d + 1) n (chain TokenKind.isAdditive term expr) := by
  intro D c c' hd hn hr hk
  cases D with
  | ofTerm T =>
    have hT := ht T (Nat.le_of_succ_le_succ hd) hn hr (endsAt_term hk)
    rw [chain, bind_ok hT, current_bind, if_neg]
    · rfl
    · intro h
      rw [(endsAt_of_isAdditive h).2] at hk
      cases hk
  | sum T op E =>
    simp only [Derivation.tokens, Cursor.reads_append, Cursor.reads_cons] at hr
    obtain ⟨m, hm, hop, -, m', ha, hE⟩ := hr
    simp only [Derivation.depth, Nat.add_le_add_iff_right, Nat.max_le] at hd
    simp only [Derivation.tokens, List.length_append, List.length_cons] at hn
    have h1 := ht T hd.1 (by omega) hm (by rw [hop]; exact (endsAt_of_isAdditive op.2).1)
    have h2 := he E hd.2 (by omega) hE hk
    rw [chain, bind_ok h1, current_bind, if_pos (by rw [hop]; exact op.2), bind_ok ha, bind_ok h2,
      hop]
    rfl

theorem exprAt_accepts (rounds d : Nat) :
    Accepts .expr d rounds (exprAt rounds d : Parser σ Expr) ∧
      Accepts .term d rounds (termAt rounds d : Parser σ Expr) ∧
      Accepts .factor d rounds (factorAt rounds d : Parser σ Expr) := by
  induction d with
  | zero =>
    refine ⟨?_, ?_, ?_⟩ <;> intro D _ _ hd <;> cases D <;> simp at hd
  | succ d ih =>
    obtain ⟨he, ht, hf⟩ := ih
    exact ⟨expr_accepts ht he, term_accepts hf ht, factor_accepts he⟩

/-! ## Statements -/

/-- `Accepts` for a parser of blocks. -/
def AcceptsBlock (d n : Nat) (p : Parser σ Block) : Prop :=
  ∀ (D : Derivation .block) {c c' : Cursor σ}, D.depth ≤ d → D.tokens.length < n →
    c.Reads D.tokens c' → c'.current.kind.endsBlock = true → p c = .ok (D.tree c'.current.pos, c')

variable {block : Parser σ Block}

theorem condition_accepts (he : Accepts .expr d n expr) :
    Accepts .conditional d n (condition expr) := by
  intro D c c' hd hn hr hk
  cases D with
  | comparison E op F =>
    simp only [Derivation.tokens, Cursor.reads_append, Cursor.reads_cons] at hr
    obtain ⟨m, hm, hop, -, m', ha, hF⟩ := hr
    simp only [Derivation.depth, Nat.max_le] at hd
    simp only [Derivation.tokens, List.length_append, List.length_cons] at hn
    have h1 := he E hd.1 (by omega) hm (by rw [hop]; exact (endsAt_of_isComparison op.2).1)
    have h2 := he F hd.2 (by omega) hF hk
    rw [condition, bind_ok h1, current_bind, if_pos (by rw [hop]; exact op.2), bind_ok ha,
      bind_ok h2, hop]
    rfl

theorem branch_ifThen (he : Accepts .expr d n expr) (hb : AcceptsBlock d n block)
    {i : TokenOf .ifWord} {C : Derivation .conditional} {t : TokenOf .thenWord}
    {B : Derivation .block} {x : TokenOf .endifWord} {c c' : Cursor σ}
    (hd : (Derivation.ifThen i C t B x).depth ≤ d)
    (hn : (Derivation.ifThen i C t B x).tokens.length < n)
    (hr : c.Reads (Derivation.ifThen i C t B x).tokens c') :
    branch expr block c = .ok ((Derivation.ifThen i C t B x).tree, c') := by
  simp only [Derivation.tokens, Cursor.reads_append, Cursor.reads_cons, Cursor.reads_nil] at hr
  obtain ⟨hi, -, c₁, ha₁, c₂, hC, ht, -, c₃, ha₃, c₄, hB, hx, -, _, ha₄, rfl⟩ := hr
  simp only [Derivation.depth, Nat.max_le] at hd
  simp only [Derivation.tokens, List.length_append, List.length_cons] at hn
  have ht' : c₂.current.kind = .thenWord := by rw [ht]; exact t.2
  have hx' : c₄.current.kind = .endifWord := by rw [hx]; exact x.2
  have h1 := condition_accepts he C hd.1 (by omega) hC (by rw [ht']; rfl)
  have h2 := hb B hd.2 (by omega) hB (by rw [hx']; rfl)
  rw [branch, current_bind, eat_bind (by rw [hi]; exact i.2), bind_ok ha₁, bind_ok h1,
    eat_bind ht', bind_ok ha₃, bind_ok h2, current_bind, if_neg (by rw [hx']; decide),
    eat_bind hx', bind_ok ha₄, hi, hx]
  rfl

theorem branch_ifElse (he : Accepts .expr d n expr) (hb : AcceptsBlock d n block)
    {i : TokenOf .ifWord} {C : Derivation .conditional} {t : TokenOf .thenWord}
    {B : Derivation .block} {o : TokenOf .elseWord} {B' : Derivation .block}
    {x : TokenOf .endifWord} {c c' : Cursor σ}
    (hd : (Derivation.ifElse i C t B o B' x).depth ≤ d)
    (hn : (Derivation.ifElse i C t B o B' x).tokens.length < n)
    (hr : c.Reads (Derivation.ifElse i C t B o B' x).tokens c') :
    branch expr block c = .ok ((Derivation.ifElse i C t B o B' x).tree, c') := by
  simp only [Derivation.tokens, Cursor.reads_append, Cursor.reads_cons, Cursor.reads_nil] at hr
  obtain ⟨hi, -, c₁, ha₁, c₂, hC, ht, -, c₃, ha₃, c₄, hB, ho, -, c₅, ha₅, c₆, hB', hx, -, _, ha₆,
    rfl⟩ := hr
  simp only [Derivation.depth, Nat.max_le] at hd
  simp only [Derivation.tokens, List.length_append, List.length_cons] at hn
  have ht' : c₂.current.kind = .thenWord := by rw [ht]; exact t.2
  have ho' : c₄.current.kind = .elseWord := by rw [ho]; exact o.2
  have hx' : c₆.current.kind = .endifWord := by rw [hx]; exact x.2
  have h1 := condition_accepts he C hd.1 (by omega) hC (by rw [ht']; rfl)
  have h2 := hb B hd.2.1 (by omega) hB (by rw [ho']; rfl)
  have h3 := hb B' hd.2.2 (by omega) hB' (by rw [hx']; rfl)
  rw [branch, current_bind, eat_bind (by rw [hi]; exact i.2), bind_ok ha₁, bind_ok h1,
    eat_bind ht', bind_ok ha₃, bind_ok h2, current_bind, if_pos ho', bind_ok ha₅, bind_ok h3,
    eat_bind hx', bind_ok ha₆, hi, ho, hx]
  rfl

theorem loop_accepts (he : Accepts .expr d n expr) (hb : AcceptsBlock d n block)
    {w : TokenOf .whileWord} {C : Derivation .conditional} {B : Derivation .block}
    {x : TokenOf .endwhileWord} {c c' : Cursor σ} (hd : (Derivation.loop w C B x).depth ≤ d)
    (hn : (Derivation.loop w C B x).tokens.length < n)
    (hr : c.Reads (Derivation.loop w C B x).tokens c') :
    loop expr block c = .ok ((Derivation.loop w C B x).tree, c') := by
  simp only [Derivation.tokens, Cursor.reads_append, Cursor.reads_cons, Cursor.reads_nil] at hr
  obtain ⟨hw, -, c₁, ha₁, c₂, hC, c₃, hB, hx, -, _, ha₃, rfl⟩ := hr
  simp only [Derivation.depth, Nat.max_le] at hd
  simp only [Derivation.tokens, List.length_append, List.length_cons] at hn
  have hx' : c₃.current.kind = .endwhileWord := by rw [hx]; exact x.2
  -- nothing stands between the condition and the body
  have hend : Nonterminal.conditional.endsAt c₂.current.kind = true :=
    hB.endsAt (stops_block B (by simp [hx', endsAt, TokenKind.endsBlock]))
  have h1 := condition_accepts he C hd.1 (by omega) hC hend
  have h2 := hb B hd.2 (by omega) hB (by rw [hx']; rfl)
  rw [loop, current_bind, eat_bind (by rw [hw]; exact w.2), bind_ok ha₁, bind_ok h1, bind_ok h2,
    eat_bind hx', bind_ok ha₃, hw, hx]
  rfl

theorem statement_accepts (he : Accepts .expr d rounds expr) (hb : AcceptsBlock d rounds block) :
    Accepts .statement d rounds (statement rounds expr block) := by
  intro D c c' hd hn hr hk
  rw [statement, current_bind]
  cases D with
  | assign name eq E =>
    simp only [Derivation.tokens, Cursor.reads_cons] at hr
    obtain ⟨ht, -, m, ha, heq, -, m', ha', hE⟩ := hr
    simp only [Derivation.tokens, List.length_cons] at hn
    have h := rootExpr_accepts he E hd (by omega) hE hk
    rw [show c.current.kind = .ident by rw [ht]; exact name.2]
    simp only
    rw [named, current_bind, bind_ok ha, current_bind,
      show m.current.kind = .equals by rw [heq]; exact eq.2]
    simp only
    rw [bind_ok ha', bind_ok h, ht]
    rfl
  | callStatement C =>
    cases C with
    | call name o D p =>
      rw [Derivation.tokens, Derivation.tokens, Cursor.reads_cons] at hr
      obtain ⟨ht, -, m, ha, hr⟩ := hr
      simp only [Derivation.tokens, List.length_append, List.length_cons] at hn
      have h := arguments_accepts he D hd (by omega) hr
      rw [show c.current.kind = .ident by rw [ht]; exact name.2]
      simp only
      rw [named, current_bind, bind_ok ha, current_bind,
        show m.current.kind = .openParen by rw [(Cursor.reads_cons.mp hr).1]; exact o.2]
      simp only
      rw [bind_ok h, ht]
      rfl
  | ifThen i C t B x =>
    rw [show c.current.kind = .ifWord by rw [(Cursor.reads_cons.mp hr).1]; exact i.2]
    exact branch_ifThen he hb hd hn hr
  | ifElse i C t B o B' x =>
    rw [show c.current.kind = .ifWord by rw [(Cursor.reads_cons.mp hr).1]; exact i.2]
    exact branch_ifElse he hb hd hn hr
  | loop w C B x =>
    rw [show c.current.kind = .whileWord by rw [(Cursor.reads_cons.mp hr).1]; exact w.2]
    exact loop_accepts he hb hd hn hr

theorem statements_accepts {stmt : Parser σ Stmt} (hs : Accepts .statement d rounds stmt) :
    ∀ (n : Nat) (D : Derivation .statements) (seen : List Stmt) {c c' : Cursor σ},
      D.depth ≤ d → D.tokens.length < n → n ≤ rounds → c.Reads D.tokens c' →
      c'.current.kind.endsBlock = true →
      statements stmt n seen c = .ok (seen.reverse ++ D.tree, c')
  | 0, _, _, _, _, _, hn, _, _, _ => absurd hn (Nat.not_lt_zero _)
  | n + 1, .noStatement, seen, c, c', _, _, _, hr, hk => by
    rw [Derivation.tokens, Cursor.reads_nil] at hr
    subst hr
    rw [statements, current_bind, if_pos hk]
    simp
  | n + 1, .moreStatements S D, seen, c, c', hd, hn, hle, hr, hk => by
    simp only [Derivation.tokens, Cursor.reads_append] at hr
    obtain ⟨m, hS, hD⟩ := hr
    simp only [Derivation.depth, Nat.max_le] at hd
    simp only [Derivation.tokens, List.length_append] at hn
    have hpos := S.length_tokens_pos rfl
    have hend : Nonterminal.statement.endsAt m.current.kind = true :=
      hD.endsAt (stops_statements D (stops_cons.mpr hk))
    have h1 := hs S hd.1 (by omega) hS hend
    have h2 := statements_accepts hs n D (S.tree :: seen) hd.2 (by omega) (by omega) hD hk
    rw [statements, current_bind, if_neg, bind_ok h1, h2]
    · simp
    · intro h
      have := (endsAt_of_startsStatement (hS.startsWith rfl)).2
      rw [endsAt, h] at this
      cases this

theorem blockAt_accepts (rounds d : Nat) :
    AcceptsBlock d rounds (blockAt rounds d : Parser σ Block) := by
  induction d with
  | zero => intro D c c' hd; cases D; simp at hd
  | succ d ih =>
    intro D c c' hd hn hr hk
    cases D with
    | block D =>
      have hs := statement_accepts (exprAt_accepts rounds d).1 ih
      have h := statements_accepts hs rounds D [] (Nat.le_of_succ_le_succ hd) hn
        (Nat.le_refl _) hr hk
      have hpos : firstPos D.tokens c'.current.pos = c.current.pos := hr.firstPos
      rw [blockAt, current_bind, bind_ok h]
      simp [hpos]

end Parser

end ScriptEngine
