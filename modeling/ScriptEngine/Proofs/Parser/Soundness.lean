import ScriptEngine.Proofs.Parser.Reading

/-!
# Soundness of the parser

Whatever a parser accepts has a derivation with the tree it gives, nested no deeper than the levels it
was allowed; and when it fails, the tokens before the one it fails at begin a phrase of its class.

`Yields p c Q V` says both at once of a run of `p` from `c`: a success satisfies `Q`, and the tokens
read before a failure satisfy `V`. It has a rule for each way of putting parsers together, so that
each parser below is taken apart along its own text. Loops that end for want of rounds are no
exception: they give up something that could have gone on.
-/

namespace ScriptEngine

/-- The failure to nest any deeper. -/
def Rejection.isTooDeep (r : Rejection) : Prop :=
  r.error.cause = .unexpected (Text.ascii "shallower expression") (Text.ascii "nesting depth limit")

variable {σ : Type} [TokenSource σ]

/-- From `c`, the failure `r` comes after the tokens `ts`: the next one is there but is not wanted, or
it cannot be had. -/
inductive Blocked (c : Cursor σ) (r : Rejection) : List Token → Prop where
  | unexpected {c' : Cursor σ} {ts : List Token} {expected found : Text} : c.Reads ts c' →
      r = ⟨c'.index, (.of (.unexpected expected found) c'.current.pos)⟩ → Blocked c r ts
  | missing {c' : Cursor σ} {ts : List Token} : c.Reads ts c' → c'.current.kind ≠ .endOfInput →
      Parser.advance c' = .error r → Blocked c r (ts ++ [c'.current])

theorem Blocked.after {c m : Cursor σ} {r : Rejection} {ts us : List Token} (h : c.Reads ts m)
    (hb : Blocked m r us) : Blocked c r (ts ++ us) := by
  cases hb with
  | unexpected hr e => exact .unexpected (h.trans hr) e
  | missing hr hk ha => rw [← List.append_assoc]; exact .missing (h.trans hr) hk ha

namespace Parser

variable {α β : Type} {p : Parser σ α} {f : α → Parser σ β} {c : Cursor σ}
  {Q R : α → List Token → Cursor σ → Prop} {V W : List Token → Prop}

/-- What becomes of `p` at `c`: a value, the tokens read and the place reached, of which `Q` holds; or
a failure after tokens of which `V` holds; or the failure to nest any deeper. -/
def Yields (p : Parser σ α) (c : Cursor σ) (Q : α → List Token → Cursor σ → Prop)
    (V : List Token → Prop) : Prop :=
  match p c with
  | .ok (a, c') => ∃ ts, c.Reads ts c' ∧ Q a ts c'
  | .error r => r.isTooDeep ∨ ∃ ts, Blocked c r ts ∧ V ts

/-! ## Rules -/

theorem Yields.mono (h : Yields p c Q V) (hQ : ∀ a ts c', Q a ts c' → R a ts c')
    (hV : ∀ ts, V ts → W ts) : Yields p c R W := by
  unfold Yields at h ⊢
  split at h
  · obtain ⟨ts, hr, hq⟩ := h
    exact ⟨ts, hr, hQ _ _ _ hq⟩
  · rcases h with h | ⟨ts, hb, hv⟩
    · exact .inl h
    · exact .inr ⟨ts, hb, hV _ hv⟩

theorem yields_congr {q : Parser σ α} (h : p c = q c) (hq : Yields q c Q V) : Yields p c Q V := by
  unfold Yields at hq ⊢
  rw [h]; exact hq

theorem yields_pure {a : α} (h : Q a [] c) : Yields (pure a) c Q V := ⟨[], .refl c, h⟩

theorem yields_tooDeep : Yields tooDeep c Q V := .inl rfl

theorem yields_unexpected {expected : Text} (h : V []) : Yields (unexpected expected) c Q V :=
  .inr ⟨[], .unexpected (.refl c) rfl, h⟩

theorem Yields.bind {R : β → List Token → Cursor σ → Prop} (hp : Yields p c Q V)
    (hf : ∀ a ts c', c.Reads ts c' → Q a ts c' →
      Yields (f a) c' (fun b us => R b (ts ++ us)) (fun us => W (ts ++ us)))
    (hV : ∀ ts, V ts → W ts) : Yields (p >>= f) c R W := by
  unfold Yields at hp ⊢
  split at hp
  · next a c' e =>
    obtain ⟨ts, hr, hq⟩ := hp
    have hfa := hf a ts c' hr hq
    unfold Yields at hfa
    split at hfa
    · next e' =>
      obtain ⟨us, hr', h⟩ := hfa
      rw [bind_ok e, e']
      exact ⟨ts ++ us, hr.trans hr', h⟩
    · next e' =>
      rw [bind_ok e, e']
      rcases hfa with h | ⟨us, hb, h⟩
      · exact .inl h
      · exact .inr ⟨ts ++ us, hb.after hr, h⟩
  · next e =>
    rw [bind_error e]
    rcases hp with h | ⟨ts, hb, hv⟩
    · exact .inl h
    · exact .inr ⟨ts, hb, hV _ hv⟩

theorem yields_current {f : Token → Parser σ α} (h : Yields (f c.current) c Q V) :
    Yields (current >>= f) c Q V := h

theorem yields_advance {f : Unit → Parser σ α} (hk : c.current.kind ≠ .endOfInput)
    (hf : ∀ c', Yields (f ()) c' (fun a us => Q a (c.current :: us)) fun us => V (c.current :: us))
    (hV : V [c.current]) : Yields (advance >>= f) c Q V := by
  unfold Yields
  rw [bind_eq]
  cases ha : advance c with
  | ok r =>
    obtain ⟨_, m⟩ := r
    have hfm := hf m
    unfold Yields at hfm
    split at hfm
    · next e =>
      obtain ⟨us, hr, h⟩ := hfm
      simp only [e]
      exact ⟨c.current :: us, .step hk ha hr, h⟩
    · next e =>
      simp only [e]
      rcases hfm with h | ⟨us, hb, h⟩
      · exact .inl h
      · exact .inr ⟨c.current :: us, hb.after (.single hk ha), h⟩
  | error r => exact .inr ⟨[c.current], .missing (.refl c) hk ha, hV⟩

/-- Steps over a token of the kind `k` and goes on. -/
theorem yields_eat {k : TokenKind} {f : Unit → Parser σ α} (hk : k ≠ .endOfInput)
    (hf : ∀ (_ : c.current.kind = k) (c' : Cursor σ),
      Yields (f ()) c' (fun a us => Q a (c.current :: us)) fun us => V (c.current :: us))
    (hV : V []) (hV' : c.current.kind = k → V [c.current]) : Yields (eat k >>= f) c Q V := by
  by_cases h : c.current.kind = k
  · exact yields_congr (eat_bind h) (yields_advance (h ▸ hk) (hf h) (hV' h))
  · exact yields_congr (q := Parser.unexpected k.name) (bind_error (eat_ne h)) (yields_unexpected hV)

end Parser

/-! ## Beginnings of phrases -/

/-- `ts` begins a phrase of the class `s`. -/
def Viable (s : Nonterminal) (ts : List Token) : Prop := ∃ D : Derivation s, ts <+: D.tokens

namespace Parser

/-! ## Expressions -/

/-- `p` gives the trees of phrases of the class `s` nested to at most `d` levels, and reads nothing
that does not begin one. -/
def Parses (s : Nonterminal) (d : Nat) (p : Parser σ s.Tree) : Prop :=
  ∀ c, Yields p c (fun a ts _ => ∃ D : Derivation s, D.tokens = ts ∧ D.tree = a ∧ D.depth ≤ d)
    (Viable s)

variable {d rounds : Nat} {expr : Parser σ Expr}

theorem Parses.reads {s : Nonterminal} {p : Parser σ s.Tree} (h : Parses s d p) {a : s.Tree}
    {c c' : Cursor σ} (e : p c = .ok (a, c')) :
    ∃ D : Derivation s, c.Reads D.tokens c' ∧ D.tree = a ∧ D.depth ≤ d := by
  have hc := h c
  unfold Yields at hc
  rw [e] at hc
  obtain ⟨_, hr, D, rfl, ht, hd⟩ := hc
  exact ⟨D, hr, ht, hd⟩

theorem rootExpr_parses (he : Parses .expr d expr) : Parses .rootExpr d (rootExpr expr) := by
  intro c
  refine (he c).bind ?_ ?_
  · rintro _ _ c' - ⟨E, rfl, rfl, hE⟩
    apply yields_current
    split
    · next hop =>
      refine yields_advance (TokenKind.ne_end hop rfl) (fun c'' => ?_) ?_
      · refine (he c'').bind ?_ ?_
        · rintro _ _ _ - ⟨F, rfl, rfl, hF⟩
          exact yields_pure ⟨.ofConditional (.comparison E ⟨_, hop⟩ F), by simp, rfl,
            Nat.max_le.mpr ⟨hE, hF⟩⟩
        · rintro ts ⟨F, hF⟩
          exact ⟨.ofConditional (.comparison E ⟨_, hop⟩ F), by simpa using hF⟩
      · exact ⟨.ofConditional (.comparison E ⟨_, hop⟩ default), by simp⟩
    · exact yields_pure ⟨.ofExpr E, by simp, rfl, hE⟩
  · rintro ts ⟨E, hE⟩
    exact ⟨.ofExpr E, hE⟩

theorem argument_parses (he : Parses .expr d expr) : Parses .argument d (argument expr) := by
  intro c
  apply yields_current
  split
  · next hk =>
    refine yields_advance (by rw [hk]; decide) (fun c' => ?_) ⟨.string ⟨_, hk⟩, by simp⟩
    exact yields_pure ⟨.string ⟨_, hk⟩, rfl, rfl, Nat.zero_le d⟩
  · refine (rootExpr_parses he c).mono ?_ ?_
    · rintro _ _ _ ⟨E, rfl, rfl, hE⟩
      exact ⟨.ofRootExpr E, rfl, rfl, hE⟩
    · rintro ts ⟨E, hE⟩
      exact ⟨.ofRootExpr E, hE⟩

theorem moreArguments_yields (he : Parses .expr d expr) (seen : List Expr) (c : Cursor σ) :
    Yields (moreArguments expr rounds seen) c
      (fun as ts _ => ∃ D : Derivation .moreArguments,
        D.tokens = ts ∧ seen.reverse ++ D.tree = as ∧ D.depth ≤ d) (Viable .moreArguments) := by
  induction rounds generalizing seen c with
  | zero => exact yields_pure ⟨.endArguments, rfl, by simp, Nat.zero_le d⟩
  | succ n ih =>
    apply yields_current
    split
    · next hk =>
      refine yields_advance (by rw [hk]; decide) (fun c' => ?_) ?_
      · refine (argument_parses he c').bind ?_ ?_
        · rintro _ _ c'' - ⟨A, rfl, rfl, hA⟩
          refine (ih _ c'').mono ?_ ?_
          · rintro _ _ _ ⟨D, rfl, rfl, hD⟩
            exact ⟨.nextArgument ⟨_, hk⟩ A D, rfl, by simp, Nat.max_le.mpr ⟨hA, hD⟩⟩
          · rintro ts ⟨D, hD⟩
            exact ⟨.nextArgument ⟨_, hk⟩ A D, by simpa using hD⟩
        · rintro ts ⟨A, hA⟩
          exact ⟨.nextArgument ⟨_, hk⟩ A .endArguments, by simpa using hA⟩
      · exact ⟨.nextArgument ⟨_, hk⟩ (.string default) .endArguments, by simp⟩
    · exact yields_pure ⟨.endArguments, rfl, by simp, Nat.zero_le d⟩

/-- Arguments are read with the parentheses around them. -/
theorem arguments_yields (he : Parses .expr d expr) (c : Cursor σ) :
    Yields (arguments rounds expr) c
      (fun as ts _ => ∃ (o : TokenOf .openParen) (D : Derivation .arguments)
        (p : TokenOf .closeParen), o.1 :: (D.tokens ++ [p.1]) = ts ∧ D.tree = as ∧ D.depth ≤ d)
      fun ts => ∃ (o : TokenOf .openParen) (D : Derivation .arguments) (p : TokenOf .closeParen),
        ts <+: o.1 :: (D.tokens ++ [p.1]) := by
  refine yields_eat (by decide) (fun ho c' => ?_) ⟨default, .noArgument, default, by simp⟩
    fun ho => ⟨⟨_, ho⟩, .noArgument, default, by simp⟩
  apply yields_current
  split
  · next hp =>
    refine yields_advance (by rw [hp]; decide) (fun _ => ?_)
      ⟨⟨_, ho⟩, .noArgument, ⟨_, hp⟩, by simp⟩
    exact yields_pure ⟨⟨_, ho⟩, .noArgument, ⟨_, hp⟩, rfl, rfl, Nat.zero_le d⟩
  · refine (argument_parses he c').bind ?_ ?_
    · rintro _ _ c'' - ⟨A, rfl, rfl, hA⟩
      refine (moreArguments_yields he _ c'').bind ?_ ?_
      · rintro _ _ _ - ⟨D, rfl, rfl, hD⟩
        refine yields_eat (by decide) (fun hp _ => ?_)
          ⟨⟨_, ho⟩, .someArguments A D, default, by simp⟩
          fun hp => ⟨⟨_, ho⟩, .someArguments A D, ⟨_, hp⟩, by simp⟩
        exact yields_pure ⟨⟨_, ho⟩, .someArguments A D, ⟨_, hp⟩, by simp, rfl,
          Nat.max_le.mpr ⟨hA, hD⟩⟩
      · rintro ts ⟨D, hD⟩
        exact ⟨⟨_, ho⟩, .someArguments A D, default, by
          simpa using hD.trans (List.prefix_append _ _)⟩
    · rintro ts ⟨A, hA⟩
      exact ⟨⟨_, ho⟩, .someArguments A .endArguments, default, by
        simpa using hA.trans (List.prefix_append _ _)⟩

theorem factor_parses (he : Parses .expr d expr) : Parses .factor (d + 1) (factor rounds expr) := by
  intro c
  apply yields_current
  split
  · next hk =>
    refine yields_advance (by rw [hk]; decide) (fun c' => ?_) ⟨.var ⟨_, hk⟩, by simp⟩
    apply yields_current
    split
    · refine (arguments_yields he c').bind ?_ ?_
      · rintro _ _ _ - ⟨o, D, p, rfl, rfl, hD⟩
        exact yields_pure ⟨.callFactor (.call ⟨_, hk⟩ o D p), by simp, rfl, Nat.succ_le_succ hD⟩
      · rintro ts ⟨o, D, p, hD⟩
        exact ⟨.callFactor (.call ⟨_, hk⟩ o D p), by simpa using hD⟩
    · exact yields_pure ⟨.var ⟨_, hk⟩, rfl, rfl, by simp⟩
  · next hk =>
    refine yields_advance (by rw [hk]; decide) (fun c' => ?_) ⟨.number ⟨_, hk⟩, by simp⟩
    exact yields_pure ⟨.number ⟨_, hk⟩, rfl, rfl, by simp⟩
  · next hk =>
    refine yields_advance (by rw [hk]; decide) (fun c' => ?_)
      ⟨.paren ⟨_, hk⟩ default default, by simp⟩
    refine (he c').bind ?_ ?_
    · rintro _ _ _ - ⟨E, rfl, rfl, hE⟩
      refine yields_eat (by decide) (fun hp _ => ?_) ⟨.paren ⟨_, hk⟩ E default, by simp⟩
        fun hp => ⟨.paren ⟨_, hk⟩ E ⟨_, hp⟩, by simp⟩
      exact yields_pure ⟨.paren ⟨_, hk⟩ E ⟨_, hp⟩, by simp, rfl, Nat.succ_le_succ hE⟩
    · rintro ts ⟨E, hE⟩
      exact ⟨.paren ⟨_, hk⟩ E default, by simpa using hE.trans (List.prefix_append _ _)⟩
  · exact yields_unexpected ⟨default, List.nil_prefix⟩

theorem term_parses {factor term : Parser σ Expr} (hf : Parses .factor d factor)
    (ht : Parses .term d term) :
    Parses .term (d + 1) (chain TokenKind.isMultiplicative factor term) := by
  intro c
  refine (hf c).bind ?_ ?_
  · rintro _ _ c' - ⟨F, rfl, rfl, hF⟩
    apply yields_current
    split
    · next hop =>
      refine yields_advance (TokenKind.ne_end hop rfl) (fun c'' => ?_)
        ⟨.product F ⟨_, hop⟩ (.ofFactor default), by simp⟩
      refine (ht c'').bind ?_ ?_
      · rintro _ _ _ - ⟨T, rfl, rfl, hT⟩
        exact yields_pure ⟨.product F ⟨_, hop⟩ T, by simp, rfl,
          Nat.succ_le_succ (Nat.max_le.mpr ⟨hF, hT⟩)⟩
      · rintro ts ⟨T, hT⟩
        exact ⟨.product F ⟨_, hop⟩ T, by simpa using hT⟩
    · exact yields_pure ⟨.ofFactor F, by simp, rfl, Nat.succ_le_succ hF⟩
  · rintro ts ⟨F, hF⟩
    exact ⟨.ofFactor F, hF⟩

theorem expr_parses {term expr : Parser σ Expr} (ht : Parses .term d term)
    (he : Parses .expr d expr) : Parses .expr (d + 1) (chain TokenKind.isAdditive term expr) := by
  intro c
  refine (ht c).bind ?_ ?_
  · rintro _ _ c' - ⟨T, rfl, rfl, hT⟩
    apply yields_current
    split
    · next hop =>
      refine yields_advance (TokenKind.ne_end hop rfl) (fun c'' => ?_)
        ⟨.sum T ⟨_, hop⟩ default, by simp⟩
      refine (he c'').bind ?_ ?_
      · rintro _ _ _ - ⟨E, rfl, rfl, hE⟩
        exact yields_pure ⟨.sum T ⟨_, hop⟩ E, by simp, rfl,
          Nat.succ_le_succ (Nat.max_le.mpr ⟨hT, hE⟩)⟩
      · rintro ts ⟨E, hE⟩
        exact ⟨.sum T ⟨_, hop⟩ E, by simpa using hE⟩
    · exact yields_pure ⟨.ofTerm T, by simp, rfl, Nat.succ_le_succ hT⟩
  · rintro ts ⟨T, hT⟩
    exact ⟨.ofTerm T, hT⟩

/-- The three levels of an expression, by induction on the levels allowed. -/
theorem exprAt_parses (rounds d : Nat) :
    Parses .expr d (exprAt rounds d : Parser σ Expr) ∧
      Parses .term d (termAt rounds d : Parser σ Expr) ∧
      Parses .factor d (factorAt rounds d : Parser σ Expr) := by
  induction d with
  | zero => exact ⟨fun _ => yields_tooDeep, fun _ => yields_tooDeep, fun _ => yields_tooDeep⟩
  | succ d ih =>
    obtain ⟨he, ht, hf⟩ := ih
    exact ⟨expr_parses ht he, term_parses hf ht, factor_parses he⟩

/-! ## Statements -/

/-- A parser of blocks; an empty block stands where the parser stops. -/
def ParsesBlock (d : Nat) (p : Parser σ Block) : Prop :=
  ∀ c, Yields p c (fun b ts c' => ∃ D : Derivation .block,
    D.tokens = ts ∧ D.tree c'.current.pos = b ∧ D.depth ≤ d) (Viable .block)

variable {block : Parser σ Block}

theorem condition_parses (he : Parses .expr d expr) :
    Parses .conditional d (condition expr) := by
  intro c
  refine (he c).bind ?_ ?_
  · rintro _ _ c' - ⟨E, rfl, rfl, hE⟩
    apply yields_current
    split
    · next hop =>
      refine yields_advance (TokenKind.ne_end hop rfl) (fun c'' => ?_)
        ⟨.comparison E ⟨_, hop⟩ default, by simp⟩
      refine (he c'').bind ?_ ?_
      · rintro _ _ _ - ⟨F, rfl, rfl, hF⟩
        exact yields_pure ⟨.comparison E ⟨_, hop⟩ F, by simp, rfl, Nat.max_le.mpr ⟨hE, hF⟩⟩
      · rintro ts ⟨F, hF⟩
        exact ⟨.comparison E ⟨_, hop⟩ F, by simpa using hF⟩
    · exact yields_unexpected ⟨.comparison E default default, by simp⟩
  · rintro ts ⟨E, hE⟩
    exact ⟨.comparison E default default, hE.trans (List.prefix_append _ _)⟩

/-- A statement that begins with a name. -/
theorem named_yields (he : Parses .expr d expr) {c : Cursor σ} (hk : c.current.kind = .ident) :
    Yields (named rounds expr) c
      (fun a ts _ => ∃ D : Derivation .statement, D.tokens = ts ∧ D.tree = a ∧ D.depth ≤ d)
      (Viable .statement) := by
  apply yields_current
  refine yields_advance (by rw [hk]; decide) (fun c' => ?_)
    ⟨.callStatement (.call ⟨_, hk⟩ default .noArgument default), by simp⟩
  apply yields_current
  split
  · refine (arguments_yields he c').bind ?_ ?_
    · rintro _ _ _ - ⟨o, D, p, rfl, rfl, hD⟩
      exact yields_pure ⟨.callStatement (.call ⟨_, hk⟩ o D p), by simp, rfl, hD⟩
    · rintro ts ⟨o, D, p, hD⟩
      exact ⟨.callStatement (.call ⟨_, hk⟩ o D p), by simpa using hD⟩
  · next heq =>
    refine yields_advance (by rw [heq]; decide) (fun c'' => ?_)
      ⟨.assign ⟨_, hk⟩ ⟨_, heq⟩ (.ofExpr default), by simp⟩
    refine (rootExpr_parses he c'').bind ?_ ?_
    · rintro _ _ _ - ⟨E, rfl, rfl, hE⟩
      exact yields_pure ⟨.assign ⟨_, hk⟩ ⟨_, heq⟩ E, by simp, rfl, hE⟩
    · rintro ts ⟨E, hE⟩
      exact ⟨.assign ⟨_, hk⟩ ⟨_, heq⟩ E, by simpa using hE⟩
  · exact yields_unexpected ⟨.callStatement (.call ⟨_, hk⟩ default .noArgument default), by simp⟩

theorem branch_parses (he : Parses .expr d expr) (hb : ParsesBlock d block) :
    Parses .statement d (branch expr block) := by
  intro c
  apply yields_current
  refine yields_eat (by decide) (fun hi c₁ => ?_)
    ⟨.ifThen default default default default default, by simp⟩
    fun hi => ⟨.ifThen ⟨_, hi⟩ default default default default, by simp⟩
  refine (condition_parses he c₁).bind ?_ ?_
  · rintro _ _ c₂ - ⟨C, rfl, rfl, hC⟩
    refine yields_eat (by decide) (fun ht c₃ => ?_)
      ⟨.ifThen ⟨_, hi⟩ C default default default, by simp⟩
      fun ht => ⟨.ifThen ⟨_, hi⟩ C ⟨_, ht⟩ default default, by simp⟩
    refine (hb c₃).bind ?_ ?_
    · rintro _ _ c₄ - ⟨B, rfl, rfl, hB⟩
      apply yields_current
      split
      · next ho =>
        refine yields_advance (by rw [ho]; decide) (fun c₅ => ?_)
          ⟨.ifElse ⟨_, hi⟩ C ⟨_, ht⟩ B ⟨_, ho⟩ default default, by simp⟩
        refine (hb c₅).bind ?_ ?_
        · rintro _ _ c₆ - ⟨B', rfl, rfl, hB'⟩
          refine yields_eat (by decide) (fun hx _ => ?_)
            ⟨.ifElse ⟨_, hi⟩ C ⟨_, ht⟩ B ⟨_, ho⟩ B' default, by simp⟩
            fun hx => ⟨.ifElse ⟨_, hi⟩ C ⟨_, ht⟩ B ⟨_, ho⟩ B' ⟨_, hx⟩, by simp⟩
          exact yields_pure ⟨.ifElse ⟨_, hi⟩ C ⟨_, ht⟩ B ⟨_, ho⟩ B' ⟨_, hx⟩, by simp, rfl,
            Nat.max_le.mpr ⟨hC, Nat.max_le.mpr ⟨hB, hB'⟩⟩⟩
        · rintro ts ⟨B', hB'⟩
          exact ⟨.ifElse ⟨_, hi⟩ C ⟨_, ht⟩ B ⟨_, ho⟩ B' default, by
            simpa using hB'.trans (List.prefix_append _ _)⟩
      · refine yields_eat (by decide) (fun hx _ => ?_)
          ⟨.ifThen ⟨_, hi⟩ C ⟨_, ht⟩ B default, by simp⟩
          fun hx => ⟨.ifThen ⟨_, hi⟩ C ⟨_, ht⟩ B ⟨_, hx⟩, by simp⟩
        exact yields_pure ⟨.ifThen ⟨_, hi⟩ C ⟨_, ht⟩ B ⟨_, hx⟩, by simp, rfl,
          Nat.max_le.mpr ⟨hC, hB⟩⟩
    · rintro ts ⟨B, hB⟩
      exact ⟨.ifThen ⟨_, hi⟩ C ⟨_, ht⟩ B default, by
        simpa using hB.trans (List.prefix_append _ _)⟩
  · rintro ts ⟨C, hC⟩
    exact ⟨.ifThen ⟨_, hi⟩ C default default default, by
      simpa using hC.trans (List.prefix_append _ _)⟩

theorem loop_parses (he : Parses .expr d expr) (hb : ParsesBlock d block) :
    Parses .statement d (loop expr block) := by
  intro c
  apply yields_current
  refine yields_eat (by decide) (fun hw c₁ => ?_) ⟨.loop default default default default, by simp⟩
    fun hw => ⟨.loop ⟨_, hw⟩ default default default, by simp⟩
  refine (condition_parses he c₁).bind ?_ ?_
  · rintro _ _ c₂ - ⟨C, rfl, rfl, hC⟩
    refine (hb c₂).bind ?_ ?_
    · rintro _ _ c₃ - ⟨B, rfl, rfl, hB⟩
      refine yields_eat (by decide) (fun hx _ => ?_) ⟨.loop ⟨_, hw⟩ C B default, by simp⟩
        fun hx => ⟨.loop ⟨_, hw⟩ C B ⟨_, hx⟩, by simp⟩
      exact yields_pure ⟨.loop ⟨_, hw⟩ C B ⟨_, hx⟩, by simp, rfl, Nat.max_le.mpr ⟨hC, hB⟩⟩
    · rintro ts ⟨B, hB⟩
      exact ⟨.loop ⟨_, hw⟩ C B default, by simpa using hB.trans (List.prefix_append _ _)⟩
  · rintro ts ⟨C, hC⟩
    exact ⟨.loop ⟨_, hw⟩ C default default, by simpa using hC.trans (List.prefix_append _ _)⟩

theorem statement_parses (he : Parses .expr d expr) (hb : ParsesBlock d block) :
    Parses .statement d (statement rounds expr block) := by
  intro c
  apply yields_current
  split
  · next hk => exact named_yields he hk
  · exact branch_parses he hb c
  · exact loop_parses he hb c
  · exact yields_unexpected ⟨.loop default default default default, List.nil_prefix⟩

theorem statements_yields {stmt : Parser σ Stmt} (hs : Parses .statement d stmt)
    (seen : List Stmt) (c : Cursor σ) :
    Yields (statements stmt rounds seen) c
      (fun ss ts _ => ∃ D : Derivation .statements,
        D.tokens = ts ∧ seen.reverse ++ D.tree = ss ∧ D.depth ≤ d) (Viable .statements) := by
  induction rounds generalizing seen c with
  | zero => exact yields_pure ⟨.noStatement, rfl, by simp, Nat.zero_le d⟩
  | succ n ih =>
    apply yields_current
    split
    · exact yields_pure ⟨.noStatement, rfl, by simp, Nat.zero_le d⟩
    · refine (hs c).bind ?_ ?_
      · rintro _ _ c' - ⟨S, rfl, rfl, hS⟩
        refine (ih _ c').mono ?_ ?_
        · rintro _ _ _ ⟨D, rfl, rfl, hD⟩
          exact ⟨.moreStatements S D, rfl, by simp, Nat.max_le.mpr ⟨hS, hD⟩⟩
        · rintro ts ⟨D, hD⟩
          exact ⟨.moreStatements S D, by simpa using hD⟩
      · rintro ts ⟨S, hS⟩
        exact ⟨.moreStatements S .noStatement, by simpa using hS⟩

theorem blockAt_parses (rounds d : Nat) : ParsesBlock d (blockAt rounds d : Parser σ Block) := by
  induction d with
  | zero => exact fun _ => yields_tooDeep
  | succ d ih =>
    intro c
    apply yields_current
    refine (statements_yields (statement_parses (exprAt_parses rounds d).1 ih) [] c).bind ?_ ?_
    · rintro _ _ c' hr ⟨D, rfl, rfl, hD⟩
      refine yields_pure ⟨.block D, by simp, ?_, Nat.succ_le_succ hD⟩
      simp [hr.firstPos]
    · rintro ts ⟨D, hD⟩
      exact ⟨.block D, hD⟩

end Parser

end ScriptEngine
