import ScriptEngine.Proofs.Grammar.Relabel
import ScriptEngine.Proofs.Parser.Soundness

/-!
# One token of lookahead

A parser decides everything from the kinds and texts of the tokens it has read and of the one it
looks at. So another run that has like tokens ahead, however they come to it, wherever they stand and
whatever comes after them, comes to the same end (`Echoes`): it is done there too, or it rejects the
token in the same words, or it misses the next one. The other run may be allowed more levels; then
it agrees unless the first fails for want of levels. Rounds do not matter as long as there are at
least as many as tokens that are looked at (`Cursor.seen`).

Nothing is said of the values that parsers give, which decide nothing. The place where a parser ends
is unique (`Concludes.unique`), so it may be found from one value and then used for any other.
If the tokens are the very same, whole programs also come out the same (`Tracks`), since a text has
one derivation.
-/

namespace ScriptEngine

theorem Token.Same.refl (t : Token) : t.Same t := ⟨rfl, rfl, fun _ => rfl⟩

theorem Token.Same.describe {t u : Token} (h : t.Same u) : t.describe = u.describe := by
  unfold Token.describe
  rw [h.kind, h.lexeme]

variable {σ τ : Type} [TokenSource σ] [TokenSource τ]

theorem Parser.index_of_advance {c : Cursor σ} {r : Rejection} (h : advance c = .error r) :
    r.index = c.index + 1 := by
  unfold advance at h
  split at h
  · cases h
  · cases h; rfl

namespace Cursor

/-- There are at most `n` tokens before the end, the current one included. -/
def Within (n : Nat) (c : Cursor σ) : Prop :=
  ∀ ⦃ts c'⦄, c.Reads ts c' → c'.current.kind ≠ .endOfInput → ts.length < n

/-- How many tokens have been looked at when `ts` are read; the end of the input does not count. -/
def seen (c : Cursor σ) (ts : List Token) : Nat :=
  ts.length + if c.current.kind = .endOfInput then 0 else 1

variable {n k : Nat} {c c' c'' : Cursor σ} {ts us : List Token}

theorem Within.length_le (h : Within n c) (hr : c.Reads ts c') : ts.length ≤ n := by
  rcases ts.eq_nil_or_concat with rfl | ⟨us, u, rfl⟩
  · exact Nat.zero_le n
  · rw [List.concat_eq_append] at hr ⊢
    obtain ⟨m, h1, h2⟩ := reads_append.mp hr
    obtain ⟨rfl, hk, -⟩ := reads_cons.mp h2
    rw [List.length_append, List.length_singleton]
    exact h h1 hk

theorem Within.mono (h : Within n c) (hn : n ≤ k) : Within k c :=
  fun _ _ hr he => Nat.lt_of_lt_of_le (h hr he) hn

theorem Within.seen_le (h : Within n c) (hr : c.Reads ts c') : c'.seen ts ≤ n := by
  unfold seen
  split
  · exact h.length_le hr
  · next hk => exact h hr hk

omit [TokenSource σ] in
theorem seen_le_of_lt (c : Cursor σ) (h : ts.length < n) : c.seen ts ≤ n := by
  unfold seen
  split <;> omega

omit [TokenSource σ] in
theorem seen_append (c : Cursor σ) (ts us : List Token) :
    c.seen (ts ++ us) = ts.length + c.seen us := by
  simp only [seen, List.length_append, Nat.add_assoc]

theorem Reads.seen_le (h : c.Reads us c') (ts : List Token) : c.seen ts ≤ c'.seen (ts ++ us) := by
  rw [seen_append]
  cases h with
  | refl => exact Nat.add_le_add_left (Nat.le_add_left _ _) _
  | step =>
    unfold seen
    rw [List.length_cons]
    split <;> omega

theorem Reads.seen_pos (h : c.Reads ts c') (hk : c.current.kind ≠ .endOfInput) :
    0 < c'.seen ts := by
  have := h.seen_le []
  rw [seen, if_neg hk] at this
  exact this

/-- A token that is missing is not read in another way. -/
theorem Reads.not_missing {e : Error} (h : c.Reads ts c')
    (ha : Parser.advance c' = .error ⟨c''.index, e⟩) (h' : c.Reads us c'') : False := by
  have hi : c''.index = c'.index + 1 := Parser.index_of_advance ha
  rw [h.index_eq, h'.index_eq] at hi
  obtain ⟨vs, rfl, hv⟩ := h.split h' (by omega)
  cases hv with
  | refl => simp at hi
  | step _ ha' => rw [ha] at ha'; cases ha'

end Cursor

namespace Parser

variable {α β : Type} {p : Parser σ α} {q : Parser τ α} {f : α → Parser σ β} {g : α → Parser τ β}
  {c c' c'' : Cursor σ} {ts us : List Token} {n : Nat} {L : Prop}

/-! ## The same tokens -/

/-- At each cursor with the tokens ahead that `p` reads and looks at from `c`, `q` does the same. -/
def Tracks (p : Parser σ α) (q : Parser τ α) (c : Cursor σ) : Prop :=
  match p c with
  | .ok (a, c') => ∃ ts, c.Reads ts c' ∧
      ∀ ⦃e e' : Cursor τ⦄, e.Reads ts e' → e'.current = c'.current → q e = .ok (a, e')
  | .error r => r.isTooDeep ∨
      (∃ ts c', c.Reads ts c' ∧ c'.current.kind ≠ .endOfInput ∧ advance c' = .error r) ∨
      ∃ ts c' x y, c.Reads ts c' ∧ r = ⟨c'.index, (.of (.unexpected x y) c'.current.pos)⟩ ∧
        ∀ ⦃e e' : Cursor τ⦄, e.Reads ts e' → e'.current = c'.current →
          q e = .error ⟨e'.index, (.of (.unexpected x y) c'.current.pos)⟩

/-- `Tracks` at every cursor with at most `n` tokens ahead. -/
def TracksWithin (n : Nat) (p : Parser σ α) (q : Parser τ α) : Prop :=
  ∀ ⦃c : Cursor σ⦄, c.Within n → Tracks p q c

/-! ## How parsers end -/

inductive Verdict where
  | done
  | unexpected (expected found : Text)
  | missing

/-- The failure to nest any deeper. -/
def Verdict.tooDeep : Verdict :=
  .unexpected (Text.ascii "shallower expression") (Text.ascii "nesting depth limit")

/-- From `c` the parser comes over `ts` to `c'`. There it is done, or it rejects the token, or it
asks for the next one in vain. -/
inductive Concludes (p : Parser σ α) (c : Cursor σ) : Verdict → List Token → Cursor σ → Prop where
  | done {ts : List Token} {c' : Cursor σ} {a : α} : c.Reads ts c' → p c = .ok (a, c') →
      Concludes p c .done ts c'
  | unexpected {ts : List Token} {c' : Cursor σ} {x y : Text} : c.Reads ts c' →
      p c = .error ⟨c'.index, (.of (.unexpected x y) c'.current.pos)⟩ →
      Concludes p c (.unexpected x y) ts c'
  | missing {ts : List Token} {c' : Cursor σ} {r : Rejection} : c.Reads ts c' →
      c'.current.kind ≠ .endOfInput → advance c' = .error r → p c = .error r →
      Concludes p c .missing ts c'

variable {v w : Verdict}

theorem Concludes.reads (h : Concludes p c v ts c') : c.Reads ts c' := by
  cases h <;> assumption

theorem Concludes.unique (h : Concludes p c v ts c') (h' : Concludes p c w us c'') :
    v = w ∧ ts = us ∧ c' = c'' := by
  cases h with
  | done hr e =>
    cases h' with
    | done hr' e' =>
      rw [e] at e'
      cases e'
      exact ⟨rfl, hr.eq_of_index hr' rfl⟩
    | unexpected _ e' | missing _ _ _ e' => rw [e] at e'; cases e'
  | unexpected hr e =>
    cases h' with
    | done _ e' => rw [e] at e'; cases e'
    | unexpected hr' e' =>
      simp only [e, Except.error.injEq, Rejection.mk.injEq, Error.of_inj,
        Cause.unexpected.injEq] at e'
      obtain ⟨hi, ⟨rfl, rfl⟩, -⟩ := e'
      exact ⟨rfl, hr.eq_of_index hr' hi⟩
    | missing hr' _ ha e' =>
      rw [e] at e'
      cases e'
      exact (hr'.not_missing ha hr).elim
  | missing hr _ ha e =>
    cases h' with
    | done _ e' => rw [e] at e'; cases e'
    | unexpected hr' e' =>
      rw [e] at e'
      cases e'
      exact (hr.not_missing ha hr').elim
    | missing hr' _ ha' e' =>
      have hi := index_of_advance ha
      have hi' := index_of_advance ha'
      rw [e] at e'
      cases e'
      exact ⟨rfl, hr.eq_of_index hr' (by omega)⟩

theorem Concludes.after {a : α} (hr : c.Reads ts c') (e : p c = .ok (a, c'))
    (h : Concludes (f a) c' v us c'') : Concludes (p >>= f) c v (ts ++ us) c'' := by
  cases h with
  | done hr' e' => exact .done (hr.trans hr') ((bind_ok e).trans e')
  | unexpected hr' e' => exact .unexpected (hr.trans hr') ((bind_ok e).trans e')
  | missing hr' hk ha e' => exact .missing (hr.trans hr') hk ha ((bind_ok e).trans e')

/-- What ends without a value ends so whatever should come after it. -/
theorem Concludes.stop (h : Concludes p c v ts c') (hv : v ≠ .done) :
    Concludes (p >>= f) c v ts c' := by
  cases h with
  | done => exact absurd rfl hv
  | unexpected hr e => exact .unexpected hr (bind_error e)
  | missing hr hk ha e => exact .missing hr hk ha (bind_error e)

/-! ## Like tokens -/

/-- `e` comes to `e'` over tokens like `ts`, and `e'` looks at one like that of `c'`. -/
structure Alongside (ts : List Token) (c' : Cursor σ) (e : Cursor τ) (us : List Token)
    (e' : Cursor τ) : Prop where
  reads : e.Reads us e'
  tokens : List.Forall₂ Token.Same ts us
  current : c'.current.Same e'.current

omit [TokenSource σ] in
/-- The same tokens, wherever they come from. -/
theorem Alongside.of_reads {e e' : Cursor τ} (h : e.Reads ts e') (hc : e'.current = c'.current) :
    Alongside ts c' e ts e' :=
  ⟨h, List.forall₂_same.mpr fun t _ => .refl t, hc ▸ .refl _⟩

theorem Alongside.same {e e' : Cursor τ} (h : Alongside ts c' e us e') (hr : c.Reads ts c') :
    c.current.Same e.current := by
  obtain ⟨he, ht, hc⟩ := h
  cases hr with
  | refl => cases ht; rw [Cursor.reads_nil] at he; rw [he]; exact hc
  | step =>
    obtain ⟨_, _, hs, -, rfl⟩ := List.forall₂_cons_left_iff.mp ht
    rw [(Cursor.reads_cons.mp he).1]
    exact hs

omit [TokenSource σ] in
theorem Alongside.seen_eq {e e' : Cursor τ} (h : Alongside ts c' e us e') :
    c'.seen ts = e'.seen us := by
  unfold Cursor.seen
  rw [h.tokens.length_eq, h.current.kind]

/-- What runs alongside a reading in two parts is in two parts too. -/
theorem Alongside.split {e e'' : Cursor τ} {vs : List Token} (hr : c'.Reads us c'')
    (h : Alongside (ts ++ us) c'' e vs e'') :
    ∃ ts' us' e', vs = ts' ++ us' ∧ Alongside ts c' e ts' e' ∧ Alongside us c'' e' us' e'' := by
  obtain ⟨ts', us', h1, h2, rfl⟩ := forall₂_append_left.mp h.tokens
  obtain ⟨e', r1, r2⟩ := Cursor.reads_append.mp h.reads
  have h' : Alongside us c'' e' us' e'' := ⟨r2, h2, h.current⟩
  exact ⟨ts', us', e', rfl, ⟨r1, h1, h'.same hr⟩, h'⟩

/-- From `c` the parser `p` comes to an end, and if it looks at no more than `n` tokens for that,
then at each cursor with like tokens ahead `q` comes to the same end. For want of levels both fail
only if they have the same number of them, which is what `L` stands for. -/
def Echoes (n : Nat) (L : Prop) (p : Parser σ α) (q : Parser τ α) (c : Cursor σ) : Prop :=
  ∃ v ts c', Concludes p c v ts c' ∧ (c'.seen ts ≤ n → (v = .tooDeep → L) →
    ∀ ⦃e us e'⦄, Alongside ts c' e us e' → (v = .missing → ∃ r, advance e' = .error r) →
      Concludes q e v us e')

theorem Echoes.mono {k : Nat} (h : Echoes n L p q c) (hk : k ≤ n) : Echoes k L p q c := by
  obtain ⟨v, ts, c', hp, hq⟩ := h
  exact ⟨v, ts, c', hp, fun hl => hq (Nat.le_trans hl hk)⟩

/-- Nothing is asked of the other parser if no token may be looked at and there is one. -/
theorem Echoes.zero {q' : Parser τ α} (h : Echoes 0 L p q c) (hk : c.current.kind ≠ .endOfInput) :
    Echoes 0 L p q' c := by
  obtain ⟨v, ts, c', hp, -⟩ := h
  exact ⟨v, ts, c', hp, fun hl => absurd (hp.reads.seen_pos hk) (Nat.not_lt.mpr hl)⟩

/-! ## Rules -/

/-- Neither parser takes the token. -/
theorem echoes_of_stop {a : α} (hp : p c = .ok (a, c))
    (hq : ∀ e : Cursor τ, c.current.Same e.current → ∃ b, q e = .ok (b, e)) :
    Echoes n L p q c := by
  refine ⟨.done, [], c, .done (.refl c) hp, fun _ _ e us e' h _ => ?_⟩
  cases h.tokens
  obtain rfl := Cursor.reads_nil.mp h.reads
  obtain ⟨b, hb⟩ := hq e h.current
  exact .done (.refl e) hb

theorem echoes_pure {a b : α} : Echoes n L (pure a) (pure b : Parser τ α) c :=
  echoes_of_stop rfl fun _ _ => ⟨b, rfl⟩

theorem echoes_tooDeep (h : L → q = tooDeep) : Echoes n L tooDeep q c := by
  refine ⟨.tooDeep, [], c, .unexpected (.refl c) rfl, fun _ hL e us e' ha _ => ?_⟩
  cases ha.tokens
  obtain rfl := Cursor.reads_nil.mp ha.reads
  rw [h (hL rfl)]
  exact .unexpected (.refl e) rfl

theorem echoes_unexpected {x : Text} :
    Echoes n L (unexpected x : Parser σ α) (unexpected x : Parser τ α) c := by
  refine ⟨.unexpected x c.current.describe, [], c, .unexpected (.refl c) rfl,
    fun _ _ e us e' h _ => ?_⟩
  cases h.tokens
  obtain rfl := Cursor.reads_nil.mp h.reads
  rw [h.current.describe]
  exact .unexpected (.refl e) rfl

theorem echoes_advance (hk : c.current.kind ≠ .endOfInput) :
    Echoes n L advance (advance : Parser τ Unit) c := by
  cases ha : advance c with
  | ok r =>
    obtain ⟨_, m⟩ := r
    refine ⟨.done, [c.current], m, .done (.single hk ha) ha, fun _ _ e us e' h _ => ?_⟩
    have hr := h.reads
    obtain ⟨_, _, -, ht, rfl⟩ := List.forall₂_cons_left_iff.mp h.tokens
    cases ht
    obtain ⟨-, -, _, ha', h'⟩ := Cursor.reads_cons.mp hr
    rw [Cursor.reads_nil.mp h'] at ha'
    exact .done hr ha'
  | error r =>
    refine ⟨.missing, [], c, .missing (.refl c) hk ha ha, fun _ _ e us e' h hm => ?_⟩
    cases h.tokens
    obtain rfl := Cursor.reads_nil.mp h.reads
    obtain ⟨r', hr'⟩ := hm rfl
    exact .missing (.refl e) (h.current.kind ▸ hk) hr' hr'

/-- The second parser may make up for the tokens that the first has read. -/
theorem Echoes.bind_reads (hp : Echoes n L p q c)
    (hf : ∀ a b ts c', c.Reads ts c' → p c = .ok (a, c') →
      Echoes (n - ts.length) L (f a) (g b) c') : Echoes n L (p >>= f) (q >>= g) c := by
  obtain ⟨v, ts, m, hc, hq⟩ := hp
  by_cases hv : v = .done
  · subst hv
    cases hc with
    | @done _ _ a hr e =>
      -- The end is the same whatever the value of the other parser, so this one serves to find it.
      obtain ⟨w, us, c', hw, -⟩ := hf a a ts m hr e
      refine ⟨w, ts ++ us, c', hw.after hr e, fun hl hL d vs d'' h hm => ?_⟩
      have hl' := hw.reads.seen_le ts
      rw [Cursor.seen_append] at hl
      rw [Cursor.seen_append] at hl'
      obtain ⟨ts', us', d', rfl, h1, h2⟩ := h.split hw.reads
      cases hq (Nat.le_trans hl' hl) nofun h1 nofun with
      | @done _ _ b hr' e' =>
        obtain ⟨w', us'', c'', hw', hg⟩ := hf a b ts m hr e
        obtain ⟨rfl, rfl, rfl⟩ := hw.unique hw'
        exact (hg (by omega) hL h2 hm).after hr' e'
  · exact ⟨v, ts, m, hc.stop hv, fun hl hL d us d' h hm => (hq hl hL h hm).stop hv⟩

theorem Echoes.bind (hp : Echoes n L p q c) (hf : ∀ a b c', Echoes n L (f a) (g b) c') :
    Echoes n L (p >>= f) (q >>= g) c :=
  hp.bind_reads fun a b _ c' _ _ => (hf a b c').mono (Nat.sub_le _ _)

theorem echoes_current {f : Token → Parser σ α} {g : Token → Parser τ α}
    (h : ∀ u, c.current.Same u → Echoes n L (f c.current) (g u) c) :
    Echoes n L (current >>= f) (current >>= g) c := by
  obtain ⟨v, ts, c', hc, -⟩ := h c.current (.refl _)
  refine ⟨v, ts, c', hc.after (p := current) (.refl c) rfl, fun hl hL e us e' ha hm => ?_⟩
  obtain ⟨w, us', c'', hw, hg⟩ := h e.current (ha.same hc.reads)
  obtain ⟨rfl, rfl, rfl⟩ := hc.unique hw
  exact (hg hl hL ha hm).after (p := current) (.refl e) rfl

/-- Over one token, with one round less. -/
theorem echoes_step {f : Unit → Parser σ α} {g : Unit → Parser τ α}
    (hk : c.current.kind ≠ .endOfInput) (hf : ∀ c', Echoes (n - 1) L (f ()) (g ()) c') :
    Echoes n L (advance >>= f) (advance >>= g) c := by
  refine (echoes_advance hk).bind_reads fun _ _ ts c' hr ha => ?_
  obtain ⟨rfl, -⟩ := hr.eq_of_index (.single hk ha) rfl
  exact hf c'

theorem echoes_eat {k : TokenKind} (hk : k ≠ .endOfInput) :
    Echoes n L (eat k) (eat k : Parser τ Unit) c := by
  refine echoes_current fun u hu => ?_
  rw [← hu.kind]
  split
  · next h => exact echoes_advance (h ▸ hk)
  · exact echoes_unexpected

/-! ## Expressions -/

variable {rounds rounds' : Nat} {expr : Parser σ Expr} {expr' : Parser τ Expr}

theorem rootExpr_echoes (he : ∀ c, Echoes n L expr expr' c) (c : Cursor σ) :
    Echoes n L (rootExpr expr) (rootExpr expr') c := by
  refine (he c).bind fun _ _ c₁ => echoes_current fun u hu => ?_
  rw [← hu.kind]
  split
  · next hop =>
    refine (echoes_advance (TokenKind.ne_end hop rfl)).bind fun _ _ c₂ => ?_
    exact (he c₂).bind fun _ _ _ => echoes_pure
  · exact echoes_pure

theorem argument_echoes (he : ∀ c, Echoes n L expr expr' c) (c : Cursor σ) :
    Echoes n L (argument expr) (argument expr') c := by
  refine echoes_current fun u hu => ?_
  rw [← hu.kind]
  split
  · next hk => exact (echoes_advance (by rw [hk]; decide)).bind fun _ _ _ => echoes_pure
  · exact rootExpr_echoes he c

theorem moreArguments_of_ne {e : Cursor τ} {k : Nat} {seen : List Expr}
    (h : e.current.kind ≠ .comma) : moreArguments expr' k seen e = .ok (seen.reverse, e) := by
  cases k with
  | zero => rfl
  | succ k => rw [moreArguments, current_bind, if_neg h]; rfl

theorem moreArguments_echoes (he : ∀ c, Echoes rounds L expr expr' c) {k k' : Nat}
    (hn : n ≤ rounds) (hk : n ≤ k) (hk' : n ≤ k') (seen seen' : List Expr) (c : Cursor σ) :
    Echoes n L (moreArguments expr k seen) (moreArguments expr' k' seen') c := by
  induction k generalizing n k' seen seen' c with
  | zero =>
    obtain rfl : n = 0 := by omega
    by_cases hend : c.current.kind = .endOfInput
    · exact echoes_of_stop rfl fun e hc =>
        ⟨_, moreArguments_of_ne (by rw [← hc.kind, hend]; decide)⟩
    · exact (echoes_pure (b := seen'.reverse)).zero hend
  | succ k ih =>
    have step (m : Nat) (hm : n ≤ m + 1) : Echoes n L (moreArguments expr (k + 1) seen)
        (moreArguments expr' (m + 1) seen') c := by
      refine echoes_current fun u hu => ?_
      rw [← hu.kind]
      split
      · next hc =>
        refine echoes_step (by rw [hc]; decide) fun c₁ => ?_
        refine ((argument_echoes he c₁).mono (by omega)).bind fun _ _ c₂ => ?_
        exact ih (by omega) (by omega) (by omega) _ _ c₂
      · exact echoes_pure
    cases k' with
    | zero =>
      obtain rfl : n = 0 := by omega
      by_cases hend : c.current.kind = .endOfInput
      · exact echoes_of_stop (moreArguments_of_ne (by rw [hend]; decide)) fun _ _ => ⟨_, rfl⟩
      · exact (step 0 (Nat.zero_le 1)).zero hend
    | succ m => exact step m hk'

theorem arguments_echoes (he : ∀ c, Echoes n L expr expr' c) (hr : n ≤ rounds) (hr' : n ≤ rounds')
    (c : Cursor σ) : Echoes n L (arguments rounds expr) (arguments rounds' expr') c := by
  refine (echoes_eat (by decide)).bind fun _ _ c₁ => echoes_current fun u hu => ?_
  rw [← hu.kind]
  split
  · next hk => exact (echoes_advance (by rw [hk]; decide)).bind fun _ _ _ => echoes_pure
  · refine (argument_echoes he c₁).bind fun _ _ c₂ => ?_
    refine (moreArguments_echoes he (Nat.le_refl n) hr hr' _ _ c₂).bind fun _ _ c₃ => ?_
    exact (echoes_eat (by decide)).bind fun _ _ _ => echoes_pure

theorem factor_echoes (he : ∀ c, Echoes n L expr expr' c) (hr : n ≤ rounds) (hr' : n ≤ rounds')
    (c : Cursor σ) : Echoes n L (factor rounds expr) (factor rounds' expr') c := by
  refine echoes_current fun u hu => ?_
  rw [← hu.kind]
  split
  · next hk =>
    refine (echoes_advance (by rw [hk]; decide)).bind fun _ _ c₁ => echoes_current fun u' hu' => ?_
    rw [← hu'.kind]
    split
    · exact (arguments_echoes he hr hr' c₁).bind fun _ _ _ => echoes_pure
    · exact echoes_pure
  · next hk => exact (echoes_advance (by rw [hk]; decide)).bind fun _ _ _ => echoes_pure
  · next hk =>
    refine (echoes_advance (by rw [hk]; decide)).bind fun _ _ c₁ => (he c₁).bind fun _ _ c₂ => ?_
    exact (echoes_eat (by decide)).bind fun _ _ _ => echoes_pure
  · exact echoes_unexpected

theorem chain_echoes {inClass : TokenKind → Bool} {operand rest : Parser σ Expr}
    {operand' rest' : Parser τ Expr} (hcls : inClass .endOfInput = false)
    (ho : ∀ c, Echoes n L operand operand' c) (hr : ∀ c, Echoes n L rest rest' c) (c : Cursor σ) :
    Echoes n L (chain inClass operand rest) (chain inClass operand' rest') c := by
  refine (ho c).bind fun _ _ c₁ => echoes_current fun u hu => ?_
  rw [← hu.kind]
  split
  · next hop =>
    refine (echoes_advance (TokenKind.ne_end hop hcls)).bind fun _ _ c₂ => ?_
    exact (hr c₂).bind fun _ _ _ => echoes_pure
  · exact echoes_pure

theorem exprAt_echoes (hr : n ≤ rounds) (hr' : n ≤ rounds') {d d' : Nat} (hd : d ≤ d')
    (hL : L → d = d') :
    (∀ c, Echoes n L (exprAt rounds d : Parser σ Expr) (exprAt rounds' d' : Parser τ Expr) c) ∧
      (∀ c, Echoes n L (termAt rounds d : Parser σ Expr) (termAt rounds' d' : Parser τ Expr) c) ∧
      ∀ c, Echoes n L (factorAt rounds d : Parser σ Expr)
        (factorAt rounds' d' : Parser τ Expr) c := by
  induction d generalizing d' with
  | zero =>
    refine ⟨fun _ => echoes_tooDeep fun h => ?_, fun _ => echoes_tooDeep fun h => ?_,
      fun _ => echoes_tooDeep fun h => ?_⟩ <;> rw [← hL h] <;> rfl
  | succ d ih =>
    obtain ⟨d', rfl⟩ : ∃ m, d' = m + 1 := ⟨d' - 1, by omega⟩
    obtain ⟨he, ht, hf⟩ := ih (show d ≤ d' by omega) fun h => Nat.succ.inj (hL h)
    exact ⟨chain_echoes rfl ht he, chain_echoes rfl hf ht, factor_echoes he hr hr'⟩

/-! ## Statements -/

variable {block : Parser σ Block} {block' : Parser τ Block}

theorem condition_echoes (he : ∀ c, Echoes n L expr expr' c) (c : Cursor σ) :
    Echoes n L (condition expr) (condition expr') c := by
  refine (he c).bind fun _ _ c₁ => echoes_current fun u hu => ?_
  rw [← hu.kind]
  split
  · next hop =>
    refine (echoes_advance (TokenKind.ne_end hop rfl)).bind fun _ _ c₂ => ?_
    exact (he c₂).bind fun _ _ _ => echoes_pure
  · exact echoes_unexpected

theorem branch_echoes (he : ∀ c, Echoes n L expr expr' c) (hb : ∀ c, Echoes n L block block' c)
    (c : Cursor σ) : Echoes n L (branch expr block) (branch expr' block') c := by
  refine echoes_current fun _ _ => (echoes_eat (by decide)).bind fun _ _ c₁ => ?_
  refine (condition_echoes he c₁).bind fun _ _ c₂ => (echoes_eat (by decide)).bind fun _ _ c₃ => ?_
  refine (hb c₃).bind fun _ _ c₄ => echoes_current fun u hu => ?_
  rw [← hu.kind]
  split
  · next hk =>
    refine (echoes_advance (by rw [hk]; decide)).bind fun _ _ c₅ => (hb c₅).bind fun _ _ c₆ => ?_
    exact (echoes_eat (by decide)).bind fun _ _ _ => echoes_pure
  · exact (echoes_eat (by decide)).bind fun _ _ _ => echoes_pure

theorem loop_echoes (he : ∀ c, Echoes n L expr expr' c) (hb : ∀ c, Echoes n L block block' c)
    (c : Cursor σ) : Echoes n L (loop expr block) (loop expr' block') c := by
  refine echoes_current fun _ _ => (echoes_eat (by decide)).bind fun _ _ c₁ => ?_
  refine (condition_echoes he c₁).bind fun _ _ c₂ => (hb c₂).bind fun _ _ c₃ => ?_
  exact (echoes_eat (by decide)).bind fun _ _ _ => echoes_pure

theorem named_echoes (he : ∀ c, Echoes n L expr expr' c) (hr : n ≤ rounds) (hr' : n ≤ rounds')
    (hk : c.current.kind = .ident) : Echoes n L (named rounds expr) (named rounds' expr') c := by
  refine echoes_current fun _ _ => (echoes_advance (by rw [hk]; decide)).bind fun _ _ c₁ => ?_
  refine echoes_current fun u hu => ?_
  rw [← hu.kind]
  split
  · exact (arguments_echoes he hr hr' c₁).bind fun _ _ _ => echoes_pure
  · next heq =>
    refine (echoes_advance (by rw [heq]; decide)).bind fun _ _ c₂ => ?_
    exact (rootExpr_echoes he c₂).bind fun _ _ _ => echoes_pure
  · exact echoes_unexpected

theorem statement_echoes (he : ∀ c, Echoes n L expr expr' c) (hb : ∀ c, Echoes n L block block' c)
    (hr : n ≤ rounds) (hr' : n ≤ rounds') (c : Cursor σ) :
    Echoes n L (statement rounds expr block) (statement rounds' expr' block') c := by
  refine echoes_current fun u hu => ?_
  rw [← hu.kind]
  split
  · next hk => exact named_echoes he hr hr' hk
  · exact branch_echoes he hb c
  · exact loop_echoes he hb c
  · exact echoes_unexpected

omit [TokenSource τ] in
theorem statements_of_endsBlock {stmt : Parser τ Stmt} {k : Nat} {seen : List Stmt} {e : Cursor τ}
    (h : e.current.kind.endsBlock = true) : statements stmt k seen e = .ok (seen.reverse, e) := by
  cases k with
  | zero => rfl
  | succ k => rw [statements, current_bind, if_pos h]; rfl

/-- Each round reads a statement, which is at least one token. -/
theorem statements_echoes {stmt : Parser σ Stmt} {stmt' : Parser τ Stmt} {d : Nat}
    (hp : Parses .statement d stmt) (hs : ∀ c, Echoes rounds L stmt stmt' c) {k k' : Nat}
    (hn : n ≤ rounds) (hk : n ≤ k) (hk' : n ≤ k') (seen seen' : List Stmt) (c : Cursor σ) :
    Echoes n L (statements stmt k seen) (statements stmt' k' seen') c := by
  induction k generalizing n k' seen seen' c with
  | zero =>
    obtain rfl : n = 0 := by omega
    by_cases hend : c.current.kind = .endOfInput
    · exact echoes_of_stop rfl fun e hc =>
        ⟨_, statements_of_endsBlock (by rw [← hc.kind, hend]; rfl)⟩
    · exact (echoes_pure (b := seen'.reverse)).zero hend
  | succ k ih =>
    have step (m : Nat) (hm : n ≤ m + 1) : Echoes n L (statements stmt (k + 1) seen)
        (statements stmt' (m + 1) seen') c := by
      refine echoes_current fun u hu => ?_
      rw [← hu.kind]
      split
      · exact echoes_pure
      · refine ((hs c).mono hn).bind_reads fun s s' ts c₁ hr e => ?_
        obtain ⟨S, hr', -⟩ := hp.reads e
        obtain ⟨rfl, -⟩ := hr.eq_of_index hr' rfl
        have := S.length_tokens_pos rfl
        exact ih (by omega) (by omega) (by omega) _ _ c₁
    cases k' with
    | zero =>
      obtain rfl : n = 0 := by omega
      by_cases hend : c.current.kind = .endOfInput
      · exact echoes_of_stop (statements_of_endsBlock (by rw [hend]; rfl)) fun _ _ => ⟨_, rfl⟩
      · exact (step 0 (Nat.zero_le 1)).zero hend
    | succ m => exact step m hk'

theorem blockAt_echoes (hr : n ≤ rounds) (hr' : n ≤ rounds') {d d' : Nat} (hd : d ≤ d')
    (hL : L → d = d') (c : Cursor σ) :
    Echoes n L (blockAt rounds d : Parser σ Block) (blockAt rounds' d' : Parser τ Block) c := by
  induction d generalizing d' c with
  | zero => exact echoes_tooDeep fun h => by rw [← hL h]; rfl
  | succ d ih =>
    obtain ⟨d', rfl⟩ : ∃ m, d' = m + 1 := ⟨d' - 1, by omega⟩
    have hd' : d ≤ d' := Nat.le_of_succ_le_succ hd
    have hL' (h : L) : d = d' := Nat.succ.inj (hL h)
    have hs := statement_echoes (exprAt_echoes hr hr' hd' hL').1 (ih hd' hL') hr hr'
    have hp : Parses .statement d
        (statement rounds (exprAt rounds d) (blockAt rounds d) : Parser σ Stmt) :=
      statement_parses (exprAt_parses rounds d).1 (blockAt_parses rounds d)
    refine echoes_current fun _ _ => ?_
    exact (statements_echoes hp hs (Nat.le_refl n) hr hr' [] [] c).bind fun _ _ _ => echoes_pure

end Parser

end ScriptEngine
