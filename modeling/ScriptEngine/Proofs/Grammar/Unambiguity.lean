import ScriptEngine.Proofs.Grammar.Derivation

/-!
# The grammar is unambiguous

A text has at most one derivation (`tokens_injective`). There is nothing between two statements, nor
between the condition of a loop and its body, so the induction is about texts with something after
them: `Determined` compares derivations of one class whose texts, each followed by what ends a phrase
of that class, make up the same tokens. The next token then decides the production, or what comes
after the phrase does.
-/

namespace ScriptEngine

theorem TokenOf.ne {k k' : TokenKind} (t : TokenOf k) (t' : TokenOf k') (hk : k ≠ k') :
    t.1 ≠ t'.1 :=
  fun h => hk (t.2.symm.trans ((congrArg Token.kind h).trans t'.2))

namespace Derivation

open Nonterminal

/-- No other derivation has this one's text in front of something that ends the phrase. -/
def Determined {s : Nonterminal} (D : Derivation s) : Prop :=
  ∀ ⦃D' : Derivation s⦄ ⦃r r' : List Token⦄, s.Stops r → s.Stops r' →
    D.tokens ++ r = D'.tokens ++ r' → D = D' ∧ r = r'

theorem determined_number (n : TokenOf .number) : (number n).Determined := by
  intro D' r r' hr hr' h
  cases D' with
  | number n' =>
    obtain ⟨hn, rfl⟩ := List.cons.inj h
    exact ⟨by rw [Subtype.ext hn], rfl⟩
  | var name' => exact absurd (List.cons.inj h).1 (n.ne name' (by decide))
  | paren o' => exact absurd (List.cons.inj h).1 (n.ne o' (by decide))
  | callFactor c' =>
    cases c' with
    | call name' => exact absurd (List.cons.inj h).1 (n.ne name' (by decide))

theorem determined_var (name : TokenOf .ident) : (var name).Determined := by
  intro D' r r' hr hr' h
  cases D' with
  | number n' => exact absurd (List.cons.inj h).1 (name.ne n' (by decide))
  | var name' =>
    obtain ⟨hn, rfl⟩ := List.cons.inj h
    exact ⟨by rw [Subtype.ext hn], rfl⟩
  | paren o' => exact absurd (List.cons.inj h).1 (name.ne o' (by decide))
  | callFactor c' =>
    cases c' with
    | call name' o' =>
      obtain ⟨-, rfl⟩ := List.cons.inj h
      have := stops_cons.mp hr
      rw [o'.2] at this
      cases this

theorem determined_paren {o : TokenOf .openParen} {e : Derivation .expr} {c : TokenOf .closeParen}
    (he : e.Determined) : (paren o e c).Determined := by
  intro D' r r' hr hr' h
  cases D' with
  | number n' => exact absurd (List.cons.inj h).1 (o.ne n' (by decide))
  | var name' => exact absurd (List.cons.inj h).1 (o.ne name' (by decide))
  | paren o' e' c' =>
    simp only [tokens, List.cons_append, List.append_assoc, List.nil_append, List.cons.injEq] at h
    obtain ⟨ho, h⟩ := h
    obtain ⟨rfl, hrest⟩ := he (c.stops _ rfl) (c'.stops _ rfl) h
    obtain ⟨hc, rfl⟩ := List.cons.inj hrest
    exact ⟨by rw [Subtype.ext ho, Subtype.ext hc], rfl⟩
  | callFactor c' =>
    cases c' with
    | call name' => exact absurd (List.cons.inj h).1 (o.ne name' (by decide))

theorem determined_callFactor {c : Derivation .call} (hc : c.Determined) :
    (callFactor c).Determined := by
  intro D' r r' hr hr' h
  cases D' with
  | callFactor c' =>
    obtain ⟨rfl, rfl⟩ := hc (fun _ _ => rfl) (fun _ _ => rfl) h
    exact ⟨rfl, rfl⟩
  | number n' =>
    cases c with
    | call name => exact absurd (List.cons.inj h).1 (name.ne n' (by decide))
  | paren o' =>
    cases c with
    | call name => exact absurd (List.cons.inj h).1 (name.ne o' (by decide))
  | var name' =>
    cases c with
    | call name o =>
      obtain ⟨-, rfl⟩ := List.cons.inj h
      have := stops_cons.mp hr'
      rw [o.2] at this
      cases this

theorem determined_call {name : TokenOf .ident} {o : TokenOf .openParen}
    {as : Derivation .arguments} {c : TokenOf .closeParen} (has : as.Determined) :
    (call name o as c).Determined := by
  intro D' r r' hr hr' h
  cases D' with
  | call name' o' as' c' =>
    simp only [tokens, List.cons_append, List.append_assoc, List.nil_append, List.cons.injEq] at h
    obtain ⟨hn, ho, h⟩ := h
    obtain ⟨rfl, hrest⟩ := has (c.stops _ rfl) (c'.stops _ rfl) h
    obtain ⟨hc, rfl⟩ := List.cons.inj hrest
    exact ⟨by rw [Subtype.ext hn, Subtype.ext ho, Subtype.ext hc], rfl⟩

theorem determined_ofFactor {f : Derivation .factor} (hf : f.Determined) :
    (ofFactor f).Determined := by
  intro D' r r' hr hr' h
  have hfr := hr.mono fun _ => endsAt_factor
  cases D' with
  | ofFactor f' =>
    obtain ⟨rfl, rfl⟩ := hf hfr (hr'.mono fun _ => endsAt_factor) h
    exact ⟨rfl, rfl⟩
  | product f' op' t' =>
    obtain ⟨hop, hop'⟩ := endsAt_of_isMultiplicative op'.2
    simp only [tokens, List.append_assoc, List.cons_append] at h
    obtain ⟨-, rfl⟩ := hf hfr (stops_cons.mpr hop) h
    rw [stops_cons, hop'] at hr
    cases hr

theorem determined_product {f : Derivation .factor} {op : TokenIn TokenKind.isMultiplicative}
    {t : Derivation .term} (hf : f.Determined) (ht : t.Determined) :
    (product f op t).Determined := by
  intro D' r r' hr hr' h
  obtain ⟨hop, hop'⟩ := endsAt_of_isMultiplicative op.2
  simp only [tokens, List.append_assoc, List.cons_append] at h
  cases D' with
  | ofFactor f' =>
    obtain ⟨-, rfl⟩ := hf (stops_cons.mpr hop) (hr'.mono fun _ => endsAt_factor) h
    rw [stops_cons, hop'] at hr'
    cases hr'
  | product f' op' t' =>
    simp only [tokens, List.append_assoc, List.cons_append] at h
    obtain ⟨rfl, hrest⟩ :=
      hf (stops_cons.mpr hop) (stops_cons.mpr (endsAt_of_isMultiplicative op'.2).1) h
    obtain ⟨hop, hrest⟩ := List.cons.inj hrest
    obtain ⟨rfl, rfl⟩ := ht hr hr' hrest
    exact ⟨by rw [Subtype.ext hop], rfl⟩

theorem determined_ofTerm {t : Derivation .term} (ht : t.Determined) : (ofTerm t).Determined := by
  intro D' r r' hr hr' h
  have htr := hr.mono fun _ => endsAt_term
  cases D' with
  | ofTerm t' =>
    obtain ⟨rfl, rfl⟩ := ht htr (hr'.mono fun _ => endsAt_term) h
    exact ⟨rfl, rfl⟩
  | sum t' op' e' =>
    obtain ⟨hop, hop'⟩ := endsAt_of_isAdditive op'.2
    simp only [tokens, List.append_assoc, List.cons_append] at h
    obtain ⟨-, rfl⟩ := ht htr (stops_cons.mpr hop) h
    rw [stops_cons, hop'] at hr
    cases hr

theorem determined_sum {t : Derivation .term} {op : TokenIn TokenKind.isAdditive}
    {e : Derivation .expr} (ht : t.Determined) (he : e.Determined) : (sum t op e).Determined := by
  intro D' r r' hr hr' h
  obtain ⟨hop, hop'⟩ := endsAt_of_isAdditive op.2
  simp only [tokens, List.append_assoc, List.cons_append] at h
  cases D' with
  | ofTerm t' =>
    obtain ⟨-, rfl⟩ := ht (stops_cons.mpr hop) (hr'.mono fun _ => endsAt_term) h
    rw [stops_cons, hop'] at hr'
    cases hr'
  | sum t' op' e' =>
    simp only [tokens, List.append_assoc, List.cons_append] at h
    obtain ⟨rfl, hrest⟩ := ht (stops_cons.mpr hop) (stops_cons.mpr (endsAt_of_isAdditive op'.2).1) h
    obtain ⟨hop, hrest⟩ := List.cons.inj hrest
    obtain ⟨rfl, rfl⟩ := he hr hr' hrest
    exact ⟨by rw [Subtype.ext hop], rfl⟩

theorem determined_comparison {l : Derivation .expr} {op : TokenIn TokenKind.isComparison}
    {r : Derivation .expr} (hl : l.Determined) (hr : r.Determined) :
    (comparison l op r).Determined := by
  intro D' u u' hu hu' h
  cases D' with
  | comparison l' op' r' =>
    simp only [tokens, List.append_assoc, List.cons_append] at h
    obtain ⟨rfl, hrest⟩ := hl (stops_cons.mpr (endsAt_of_isComparison op.2).1)
      (stops_cons.mpr (endsAt_of_isComparison op'.2).1) h
    obtain ⟨hop, hrest⟩ := List.cons.inj hrest
    obtain ⟨rfl, rfl⟩ := hr hu hu' hrest
    exact ⟨by rw [Subtype.ext hop], rfl⟩

theorem determined_ofExpr {e : Derivation .expr} (he : e.Determined) : (ofExpr e).Determined := by
  intro D' r r' hr hr' h
  have her := hr.mono fun _ => endsAt_expr
  cases D' with
  | ofExpr e' =>
    obtain ⟨rfl, rfl⟩ := he her (hr'.mono fun _ => endsAt_expr) h
    exact ⟨rfl, rfl⟩
  | ofConditional c' =>
    cases c' with
    | comparison l' op' r' =>
      obtain ⟨hop, hop'⟩ := endsAt_of_isComparison op'.2
      simp only [tokens, List.append_assoc, List.cons_append] at h
      obtain ⟨-, rfl⟩ := he her (stops_cons.mpr hop) h
      rw [stops_cons, hop'] at hr
      cases hr

/-- The left operand settles whether a comparison follows, so it has to be determined by itself. -/
theorem determined_ofConditional {l : Derivation .expr} {op : TokenIn TokenKind.isComparison}
    {r : Derivation .expr} (hl : l.Determined) (hr : r.Determined) :
    (ofConditional (comparison l op r)).Determined := by
  intro D' u u' hu hu' h
  cases D' with
  | ofExpr e' =>
    obtain ⟨hop, hop'⟩ := endsAt_of_isComparison op.2
    simp only [tokens, List.append_assoc, List.cons_append] at h
    obtain ⟨-, rfl⟩ := hl (stops_cons.mpr hop) (hu'.mono fun _ => endsAt_expr) h
    rw [stops_cons, hop'] at hu'
    cases hu'
  | ofConditional c' =>
    obtain ⟨rfl, rfl⟩ := determined_comparison hl hr (hu.mono fun _ => endsAt_expr)
      (hu'.mono fun _ => endsAt_expr) h
    exact ⟨rfl, rfl⟩

theorem determined_noArgument : noArgument.Determined := by
  intro D' r r' hr hr' h
  cases D' with
  | noArgument => exact ⟨rfl, h⟩
  | someArguments a' as' =>
    obtain ⟨t, ts, e, hk⟩ := a'.exists_first rfl
    simp only [tokens, e, List.cons_append, List.nil_append] at h
    subst h
    have hc : t.kind = .closeParen := by simpa [endsAt] using hr
    rw [hc] at hk
    cases hk

theorem determined_someArguments {a : Derivation .argument} {as : Derivation .moreArguments}
    (ha : a.Determined) (has : as.Determined) : (someArguments a as).Determined := by
  intro D' r r' hr hr' h
  cases D' with
  | noArgument =>
    obtain ⟨t, ts, e, hk⟩ := a.exists_first rfl
    simp only [tokens, e, List.cons_append, List.nil_append] at h
    subst h
    have hc : t.kind = .closeParen := by simpa [endsAt] using hr'
    rw [hc] at hk
    cases hk
  | someArguments a' as' =>
    simp only [tokens, List.append_assoc] at h
    obtain ⟨rfl, hrest⟩ := ha (stops_moreArguments as hr) (stops_moreArguments as' hr') h
    obtain ⟨rfl, rfl⟩ := has hr hr' hrest
    exact ⟨rfl, rfl⟩

theorem determined_endArguments : endArguments.Determined := by
  intro D' r r' hr hr' h
  cases D' with
  | endArguments => exact ⟨rfl, h⟩
  | nextArgument comma' a' as' =>
    simp only [tokens, List.cons_append, List.nil_append] at h
    subst h
    rw [stops_cons, comma'.2] at hr
    cases hr

theorem determined_nextArgument {comma : TokenOf .comma} {a : Derivation .argument}
    {as : Derivation .moreArguments} (ha : a.Determined) (has : as.Determined) :
    (nextArgument comma a as).Determined := by
  intro D' r r' hr hr' h
  simp only [tokens, List.cons_append, List.append_assoc] at h
  cases D' with
  | endArguments =>
    simp only [tokens, List.nil_append] at h
    subst h
    rw [stops_cons, comma.2] at hr'
    cases hr'
  | nextArgument comma' a' as' =>
    simp only [tokens, List.cons_append, List.append_assoc, List.cons.injEq] at h
    obtain ⟨hc, h⟩ := h
    obtain ⟨rfl, hrest⟩ := ha (stops_moreArguments as hr) (stops_moreArguments as' hr') h
    obtain ⟨rfl, rfl⟩ := has hr hr' hrest
    exact ⟨by rw [Subtype.ext hc], rfl⟩

theorem tokens_ne_string {e : Derivation .rootExpr} {s : TokenOf .string} {r r' : List Token} :
    e.tokens ++ r ≠ s.1 :: r' := by
  obtain ⟨t, ts, he, hk⟩ := e.exists_first rfl
  rw [he]
  intro h
  rw [(List.cons.inj h).1, s.2] at hk
  cases hk

theorem determined_ofRootExpr {e : Derivation .rootExpr} (he : e.Determined) :
    (ofRootExpr e).Determined := by
  intro D' r r' hr hr' h
  cases D' with
  | ofRootExpr e' =>
    obtain ⟨rfl, rfl⟩ := he hr hr' h
    exact ⟨rfl, rfl⟩
  | string s' => exact absurd h tokens_ne_string

theorem determined_string (s : TokenOf .string) : (string s).Determined := by
  intro D' r r' hr hr' h
  cases D' with
  | ofRootExpr e' => exact absurd h.symm tokens_ne_string
  | string s' =>
    obtain ⟨hs, rfl⟩ := List.cons.inj h
    exact ⟨by rw [Subtype.ext hs], rfl⟩

theorem determined_assign {name : TokenOf .ident} {eq : TokenOf .equals}
    {v : Derivation .rootExpr} (hv : v.Determined) : (assign name eq v).Determined := by
  intro D' r r' hr hr' h
  cases D' with
  | assign name' eq' v' =>
    simp only [tokens, List.cons_append, List.cons.injEq] at h
    obtain ⟨hn, he, h⟩ := h
    obtain ⟨rfl, rfl⟩ := hv hr hr' h
    exact ⟨by rw [Subtype.ext hn, Subtype.ext he], rfl⟩
  | callStatement c' =>
    cases c' with
    | call name' o' => exact absurd (List.cons.inj (List.cons.inj h).2).1 (eq.ne o' (by decide))
  | ifThen i' | ifElse i' => exact absurd (List.cons.inj h).1 (name.ne i' (by decide))
  | loop w' => exact absurd (List.cons.inj h).1 (name.ne w' (by decide))

theorem determined_callStatement {c : Derivation .call} (hc : c.Determined) :
    (callStatement c).Determined := by
  intro D' r r' hr hr' h
  cases D' with
  | callStatement c' =>
    obtain ⟨rfl, rfl⟩ := hc (fun _ _ => rfl) (fun _ _ => rfl) h
    exact ⟨rfl, rfl⟩
  | assign name' eq' =>
    cases c with
    | call name o => exact absurd (List.cons.inj (List.cons.inj h).2).1 (o.ne eq' (by decide))
  | ifThen i' | ifElse i' =>
    cases c with
    | call name => exact absurd (List.cons.inj h).1 (name.ne i' (by decide))
  | loop w' =>
    cases c with
    | call name => exact absurd (List.cons.inj h).1 (name.ne w' (by decide))

theorem determined_ifThen {i : TokenOf .ifWord} {c : Derivation .conditional}
    {t : TokenOf .thenWord} {b : Derivation .block} {e : TokenOf .endifWord}
    (hc : c.Determined) (hb : b.Determined) : (ifThen i c t b e).Determined := by
  intro D' r r' hr hr' h
  cases D' with
  | assign name' => exact absurd (List.cons.inj h).1 (i.ne name' (by decide))
  | callStatement c' =>
    cases c' with
    | call name' => exact absurd (List.cons.inj h).1 (i.ne name' (by decide))
  | ifThen i' c' t' b' e' =>
    simp only [tokens, List.cons_append, List.append_assoc, List.nil_append, List.cons.injEq] at h
    obtain ⟨hi, h⟩ := h
    obtain ⟨rfl, hrest⟩ := hc (t.stops _ rfl) (t'.stops _ rfl) h
    obtain ⟨ht, hrest⟩ := List.cons.inj hrest
    obtain ⟨rfl, hend⟩ := hb (e.stops _ rfl) (e'.stops _ rfl) hrest
    obtain ⟨he, rfl⟩ := List.cons.inj hend
    exact ⟨by rw [Subtype.ext hi, Subtype.ext ht, Subtype.ext he], rfl⟩
  | ifElse i' c' t' b' o' =>
    simp only [tokens, List.cons_append, List.append_assoc, List.nil_append, List.cons.injEq] at h
    obtain ⟨-, hrest⟩ := hc (t.stops _ rfl) (t'.stops _ rfl) h.2
    obtain ⟨-, hend⟩ := hb (e.stops _ rfl) (o'.stops _ rfl) (List.cons.inj hrest).2
    exact absurd (List.cons.inj hend).1 (e.ne o' (by decide))
  | loop w' => exact absurd (List.cons.inj h).1 (i.ne w' (by decide))

theorem determined_ifElse {i : TokenOf .ifWord} {c : Derivation .conditional}
    {t : TokenOf .thenWord} {b : Derivation .block} {o : TokenOf .elseWord}
    {b₁ : Derivation .block} {e : TokenOf .endifWord} (hc : c.Determined) (hb : b.Determined)
    (hb₁ : b₁.Determined) : (ifElse i c t b o b₁ e).Determined := by
  intro D' r r' hr hr' h
  cases D' with
  | assign name' => exact absurd (List.cons.inj h).1 (i.ne name' (by decide))
  | callStatement c' =>
    cases c' with
    | call name' => exact absurd (List.cons.inj h).1 (i.ne name' (by decide))
  | ifThen i' c' t' b' e' =>
    simp only [tokens, List.cons_append, List.append_assoc, List.nil_append, List.cons.injEq] at h
    obtain ⟨-, hrest⟩ := hc (t.stops _ rfl) (t'.stops _ rfl) h.2
    obtain ⟨-, hend⟩ := hb (o.stops _ rfl) (e'.stops _ rfl) (List.cons.inj hrest).2
    exact absurd (List.cons.inj hend).1 (o.ne e' (by decide))
  | ifElse i' c' t' b' o' b₁' e' =>
    simp only [tokens, List.cons_append, List.append_assoc, List.nil_append, List.cons.injEq] at h
    obtain ⟨hi, h⟩ := h
    obtain ⟨rfl, hrest⟩ := hc (t.stops _ rfl) (t'.stops _ rfl) h
    obtain ⟨ht, hrest⟩ := List.cons.inj hrest
    obtain ⟨rfl, helse⟩ := hb (o.stops _ rfl) (o'.stops _ rfl) hrest
    obtain ⟨ho, helse⟩ := List.cons.inj helse
    obtain ⟨rfl, hend⟩ := hb₁ (e.stops _ rfl) (e'.stops _ rfl) helse
    obtain ⟨he, rfl⟩ := List.cons.inj hend
    exact ⟨by rw [Subtype.ext hi, Subtype.ext ht, Subtype.ext ho, Subtype.ext he], rfl⟩
  | loop w' => exact absurd (List.cons.inj h).1 (i.ne w' (by decide))

theorem determined_loop {w : TokenOf .whileWord} {c : Derivation .conditional}
    {b : Derivation .block} {e : TokenOf .endwhileWord} (hc : c.Determined) (hb : b.Determined) :
    (loop w c b e).Determined := by
  intro D' r r' hr hr' h
  cases D' with
  | assign name' => exact absurd (List.cons.inj h).1 (w.ne name' (by decide))
  | callStatement c' =>
    cases c' with
    | call name' => exact absurd (List.cons.inj h).1 (w.ne name' (by decide))
  | ifThen i' | ifElse i' => exact absurd (List.cons.inj h).1 (w.ne i' (by decide))
  | loop w' c' b' e' =>
    simp only [tokens, List.cons_append, List.append_assoc, List.nil_append, List.cons.injEq] at h
    obtain ⟨hw, h⟩ := h
    obtain ⟨rfl, hrest⟩ := hc (stops_block b (e.stops _ rfl)) (stops_block b' (e'.stops _ rfl)) h
    obtain ⟨rfl, hend⟩ := hb (e.stops _ rfl) (e'.stops _ rfl) hrest
    obtain ⟨he, rfl⟩ := List.cons.inj hend
    exact ⟨by rw [Subtype.ext hw, Subtype.ext he], rfl⟩

theorem stops_absurd {s : Derivation .statement} {r r' : List Token}
    (hr : statements.Stops r) (h : r = s.tokens ++ r') : False := by
  obtain ⟨t, ts, e, hk⟩ := s.exists_first rfl
  rw [h, e, List.cons_append, stops_cons, (endsAt_of_startsStatement hk).2] at hr
  cases hr

theorem determined_noStatement : noStatement.Determined := by
  intro D' r r' hr hr' h
  cases D' with
  | noStatement => exact ⟨rfl, h⟩
  | moreStatements s' ss' =>
    simp only [tokens, List.nil_append, List.append_assoc] at h
    exact (stops_absurd hr h).elim

theorem determined_moreStatements {s : Derivation .statement} {ss : Derivation .statements}
    (hs : s.Determined) (hss : ss.Determined) : (moreStatements s ss).Determined := by
  intro D' r r' hr hr' h
  simp only [tokens, List.append_assoc] at h
  cases D' with
  | noStatement => exact (stops_absurd hr' h.symm).elim
  | moreStatements s' ss' =>
    simp only [tokens, List.append_assoc] at h
    obtain ⟨rfl, hrest⟩ := hs (stops_statements ss hr) (stops_statements ss' hr') h
    obtain ⟨rfl, rfl⟩ := hss hr hr' hrest
    exact ⟨rfl, rfl⟩

theorem determined_block {ss : Derivation .statements} (hss : ss.Determined) :
    (block ss).Determined := by
  intro D' r r' hr hr' h
  cases D' with
  | block ss' =>
    obtain ⟨rfl, rfl⟩ := hss hr hr' h
    exact ⟨rfl, rfl⟩

theorem determined : {s : Nonterminal} → (D : Derivation s) → D.Determined
  | _, block ss => determined_block ss.determined
  | _, noStatement => determined_noStatement
  | _, moreStatements s ss => determined_moreStatements s.determined ss.determined
  | _, assign _ _ v => determined_assign v.determined
  | _, callStatement c => determined_callStatement c.determined
  | _, ifThen _ c _ b _ => determined_ifThen c.determined b.determined
  | _, ifElse _ c _ b _ b' _ => determined_ifElse c.determined b.determined b'.determined
  | _, loop _ c b _ => determined_loop c.determined b.determined
  | _, comparison l _ r => determined_comparison l.determined r.determined
  | _, ofExpr e => determined_ofExpr e.determined
  | _, ofConditional (comparison l _ r) => determined_ofConditional l.determined r.determined
  | _, ofTerm t => determined_ofTerm t.determined
  | _, sum t _ e => determined_sum t.determined e.determined
  | _, ofFactor f => determined_ofFactor f.determined
  | _, product f _ t => determined_product f.determined t.determined
  | _, number n => determined_number n
  | _, var name => determined_var name
  | _, paren _ e _ => determined_paren e.determined
  | _, callFactor c => determined_callFactor c.determined
  | _, call _ _ as _ => determined_call as.determined
  | _, noArgument => determined_noArgument
  | _, someArguments a as => determined_someArguments a.determined as.determined
  | _, endArguments => determined_endArguments
  | _, nextArgument _ a as => determined_nextArgument a.determined as.determined
  | _, ofRootExpr e => determined_ofRootExpr e.determined
  | _, string s => determined_string s

/-- The grammar is unambiguous: a text has at most one derivation. -/
theorem tokens_injective (s : Nonterminal) : Function.Injective (tokens (s := s)) := by
  intro D D' h
  have hs : s.Stops [] := by simp [Stops]
  have ht : D.tokens ++ [] = D'.tokens ++ [] := by rw [h]
  exact (D.determined hs hs ht).1

end Derivation

end ScriptEngine
