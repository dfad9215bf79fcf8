import ScriptEngine.Proofs.Grammar.Derivation
import ScriptEngine.Tree.Parser

/-!
# Reading tokens

`Delivers s ts s'`: asked for tokens, the source `s` hands out `ts` and is then `s'`. `Reads c ts c'`
is the same seen from a parser: the cursor `c` steps over the tokens `ts`, none of them the end of the
input, to `c'`. What a parser does is told by what it reads, so nothing here or below depends on where
the tokens come from.
-/

namespace ScriptEngine

namespace Parser

variable {σ α β : Type} {p : Parser σ α} {f : α → Parser σ β} {c c' : Cursor σ}

/-! ## Sequences of parsers -/

theorem bind_eq (p : Parser σ α) (f : α → Parser σ β) (c : Cursor σ) :
    (p >>= f) c = match p c with
      | .ok (a, c') => f a c'
      | .error r => .error r := by
  show Except.bind (p c) _ = _
  cases p c <;> rfl

theorem bind_ok {a : α} (h : p c = .ok (a, c')) : (p >>= f) c = f a c' := by rw [bind_eq, h]

theorem bind_error {r : Rejection} (h : p c = .error r) : (p >>= f) c = .error r := by
  rw [bind_eq, h]

@[simp] theorem pure_apply (a : α) (c : Cursor σ) : (pure a : Parser σ α) c = .ok (a, c) := rfl

@[simp] theorem current_bind (f : Token → Parser σ β) (c : Cursor σ) :
    (current >>= f) c = f c.current c := rfl

end Parser

/-! ## Readings -/

variable {σ : Type} [TokenSource σ]

/-- `s` hands out `ts`, one after the other, and is `s'` then. -/
inductive Delivers : σ → List Token → σ → Prop where
  | refl (s : σ) : Delivers s [] s
  | step {s m s' : σ} {t : Token} {ts : List Token} : TokenSource.next s = (.ok t, m) →
      Delivers m ts s' → Delivers s (t :: ts) s'

theorem delivers_append {s s' : σ} {ts us : List Token} :
    Delivers s (ts ++ us) s' ↔ ∃ m, Delivers s ts m ∧ Delivers m us s' := by
  induction ts generalizing s with
  | nil => exact ⟨fun h => ⟨s, .refl s, h⟩, fun ⟨_, .refl _, h⟩ => h⟩
  | cons t ts ih =>
    constructor
    · rintro (_ | ⟨hn, h⟩)
      obtain ⟨m, h1, h2⟩ := ih.mp h
      exact ⟨m, .step hn h1, h2⟩
    · rintro ⟨m, _ | ⟨hn, h1⟩, h2⟩
      exact .step hn (ih.mpr ⟨m, h1, h2⟩)

/-- Only what comes next counts. -/
theorem Delivers.of_next_eq {s m s' : σ} {ts : List Token} (h : Delivers m ts s') (hts : ts ≠ [])
    (hn : TokenSource.next m = TokenSource.next s) : Delivers s ts s' := by
  cases h with
  | refl => exact absurd rfl hts
  | step hm h => exact .step (hn.symm.trans hm) h

/-- `c` steps over `ts` to `c'`. -/
inductive Cursor.Reads : Cursor σ → List Token → Cursor σ → Prop where
  | refl (c : Cursor σ) : Reads c [] c
  | step {c m c' : Cursor σ} {ts : List Token} : c.current.kind ≠ .endOfInput →
      Parser.advance c = .ok ((), m) → Reads m ts c' → Reads c (c.current :: ts) c'

theorem Parser.advance_ok {c c' : Cursor σ} (h : advance c = .ok ((), c')) :
    TokenSource.next c.source = (.ok c'.current, c'.source) ∧ c'.index = c.index + 1 := by
  unfold advance at h
  split at h
  · next t s e => cases h; exact ⟨e, rfl⟩
  · cases h

theorem Parser.eat_bind {β : Type} {k : TokenKind} {f : Unit → Parser σ β} {c : Cursor σ}
    (h : c.current.kind = k) : (Parser.eat k >>= f) c = (Parser.advance >>= f) c := by
  have he : Parser.eat k c = Parser.advance c := by
    rw [Parser.eat, Parser.current_bind, if_pos h]
  rw [Parser.bind_eq, Parser.bind_eq, he]

theorem Parser.eat_ne {k : TokenKind} {c : Cursor σ} (h : c.current.kind ≠ k) :
    Parser.eat k c =
      .error ⟨c.index, (.of (.unexpected k.name c.current.describe) c.current.pos)⟩ := by
  rw [Parser.eat, Parser.current_bind, if_neg h]
  rfl

namespace Cursor

variable {c m c' c'' : Cursor σ} {t : Token} {ts us : List Token}

@[simp] theorem reads_nil : Reads c [] c' ↔ c = c' :=
  ⟨fun h => by cases h; rfl, fun h => h ▸ .refl c⟩

theorem reads_cons : Reads c (t :: ts) c' ↔
    c.current = t ∧ t.kind ≠ .endOfInput ∧ ∃ m, Parser.advance c = .ok ((), m) ∧ Reads m ts c' := by
  constructor
  · intro h
    cases h with
    | step hk ha h => exact ⟨rfl, hk, _, ha, h⟩
  · rintro ⟨rfl, hk, m, ha, h⟩
    exact .step hk ha h

theorem reads_append : Reads c (ts ++ us) c' ↔ ∃ m, Reads c ts m ∧ Reads m us c' := by
  induction ts generalizing c with
  | nil => simp
  | cons t ts ih =>
    simp only [List.cons_append, reads_cons, ih]
    constructor
    · rintro ⟨ht, hk, m, ha, m', h1, h2⟩
      exact ⟨m', ⟨ht, hk, m, ha, h1⟩, h2⟩
    · rintro ⟨m', ⟨ht, hk, m, ha, h1⟩, h2⟩
      exact ⟨ht, hk, m, ha, m', h1, h2⟩

theorem Reads.trans (h1 : Reads c ts m) (h2 : Reads m us c') : Reads c (ts ++ us) c' :=
  reads_append.mpr ⟨m, h1, h2⟩

theorem Reads.single (hk : c.current.kind ≠ .endOfInput) (h : Parser.advance c = .ok ((), c')) :
    Reads c [c.current] c' :=
  .step hk h (.refl c')

/-- The current token is the first of those read, or if there is none, that of the end. -/
theorem Reads.head (h : Reads c ts c') : (ts ++ [c'.current]).head? = some c.current := by
  cases h <;> rfl

theorem Reads.firstPos (h : Reads c ts c') : firstPos ts c'.current.pos = c.current.pos := by
  cases h <;> rfl

theorem Reads.endsAt {s : Nonterminal} (h : Reads c ts c') (hs : s.Stops (ts ++ [c'.current])) :
    s.endsAt c.current.kind = true :=
  hs _ h.head

theorem Reads.startsWith {s : Nonterminal} {D : Derivation s} (h : Reads c D.tokens c')
    (hs : s.nullable = false) : s.startsWith c.current.kind = true := by
  obtain ⟨t, ts, e, ht⟩ := D.exists_first hs
  rw [e, reads_cons] at h
  rw [h.1]; exact ht

theorem Reads.index_eq (h : Reads c ts c') : c'.index = c.index + ts.length := by
  induction h with
  | refl => rfl
  | step _ ha _ ih => rw [ih, (Parser.advance_ok ha).2, List.length_cons]; omega

theorem Reads.ne_end (h : Reads c ts c') : ∀ t ∈ ts, t.kind ≠ .endOfInput := by
  induction h with
  | refl => simp
  | step hk _ _ ih => exact fun t ht => (List.mem_cons.mp ht).elim (fun e => e ▸ hk) (ih t)

theorem Reads.current_ne_end (h : Reads c ts c') (hk : c'.current.kind ≠ .endOfInput) :
    c.current.kind ≠ .endOfInput := by
  cases h with
  | refl => exact hk
  | step hc => exact hc

/-- Of two readings from one place the shorter is the beginning of the longer. -/
theorem Reads.split (h1 : Reads c ts c') (h2 : Reads c us c'') (hl : ts.length ≤ us.length) :
    ∃ vs, us = ts ++ vs ∧ Reads c' vs c'' := by
  induction h1 generalizing us with
  | refl => exact ⟨us, rfl, h2⟩
  | step hk ha h ih =>
    cases h2 with
    | refl => simp at hl
    | step hk' ha' h' =>
      rw [ha] at ha'
      cases ha'
      obtain ⟨vs, rfl, hv⟩ := ih h' (by simpa using hl)
      exact ⟨vs, rfl, hv⟩

/-- A reading passes every token on its way. -/
theorem Reads.of_isPrefix (h : Reads c us c') (hp : ts ++ [t] <+: us ++ [c'.current]) :
    ∃ m, Reads c ts m ∧ m.current = t := by
  rcases List.prefix_concat_iff.mp hp with hp | ⟨vs, rfl⟩
  · obtain ⟨rfl, ht⟩ := List.append_inj' hp rfl
    exact ⟨c', h, (List.singleton_inj.mp ht).symm⟩
  · rw [List.append_assoc, reads_append] at h
    obtain ⟨m, h1, h2⟩ := h
    exact ⟨m, h1, (reads_cons.mp h2).1⟩

/-- Nothing is read beyond the end of the input. -/
theorem Reads.of_end (h1 : Reads c ts c') (he : c'.current.kind = .endOfInput)
    (h2 : Reads c us c'') : ∃ vs, ts = us ++ vs ∧ Reads c'' vs c' := by
  rcases Nat.le_total us.length ts.length with hl | hl
  · exact h2.split h1 hl
  · obtain ⟨vs, rfl, hv⟩ := h1.split h2 hl
    cases hv with
    | refl => exact ⟨[], by simp, .refl _⟩
    | step hk => exact absurd he hk

/-- The tokens up to the end of the input are read in one way. -/
theorem Reads.eq_of_end (h1 : Reads c ts c') (h2 : Reads c us c'')
    (he : c'.current.kind = .endOfInput) (he' : c''.current.kind = .endOfInput) :
    ts = us ∧ c' = c'' := by
  obtain ⟨vs, rfl, hv⟩ := h1.of_end he h2
  cases hv with
  | refl => simp
  | step hk => exact absurd he' hk

theorem Reads.eq_of_index (h1 : Reads c ts c') (h2 : Reads c us c'') (h : c'.index = c''.index) :
    ts = us ∧ c' = c'' := by
  have hl : ts.length = us.length := by
    have := h1.index_eq
    have := h2.index_eq
    omega
  obtain ⟨vs, rfl, hv⟩ := h1.split h2 (Nat.le_of_eq hl)
  obtain rfl : vs = [] := by simpa using hl
  rw [reads_nil] at hv
  exact ⟨by simp, hv⟩

/-! ## Sources -/

theorem start_ok {s : σ} (h : start s = .ok c) :
    TokenSource.next s = (.ok c.current, c.source) ∧ c.index = 0 := by
  unfold start at h
  split at h
  · next t s' e => cases h; exact ⟨e, rfl⟩
  · cases h

theorem Reads.delivers (h : Reads c ts c') {s : σ}
    (hs : TokenSource.next s = (.ok c.current, c.source)) :
    Delivers s (ts ++ [c'.current]) c'.source := by
  induction h generalizing s with
  | refl => exact .step hs (.refl _)
  | step hk ha h ih => exact .step hs (ih (Parser.advance_ok ha).1)

theorem reads_of_delivers {s s' : σ} (h : Delivers s (ts ++ [t]) s')
    (hts : ∀ u ∈ ts, u.kind ≠ .endOfInput) (n : Nat) :
    ∃ c c', TokenSource.next s = (.ok c.current, c.source) ∧ c.index = n ∧ Reads c ts c' ∧
      c'.current = t ∧ c'.source = s' := by
  induction ts generalizing s n with
  | nil =>
    cases h with
    | step hn h =>
      cases h
      exact ⟨⟨t, n, s'⟩, _, hn, rfl, .refl _, rfl, rfl⟩
  | cons u us ih =>
    cases h with
    | step hn h =>
      obtain ⟨c, c', hs, hi, hr, ht, hs'⟩ :=
        ih h (fun v hv => hts v (List.mem_cons_of_mem _ hv)) (n + 1)
      rename_i m
      have ha : Parser.advance ⟨u, n, m⟩ = .ok ((), c) := by
        simp only [Parser.advance, hs, ← hi]
      exact ⟨⟨u, n, m⟩, c', hn, rfl, .step (hts u List.mem_cons_self) ha hr, ht, hs'⟩

/-- A source that hands out tokens lets a cursor read them. -/
theorem start_of_delivers {s s' : σ} (h : Delivers s (ts ++ [t]) s')
    (hts : ∀ u ∈ ts, u.kind ≠ .endOfInput) :
    ∃ c c', start s = .ok c ∧ Reads c ts c' ∧ c'.current = t ∧ c'.source = s' := by
  obtain ⟨c, c', hs, hi, hr, ht, hs'⟩ := reads_of_delivers h hts 0
  exact ⟨c, c', by simp only [start, hs, ← hi], hr, ht, hs'⟩

end Cursor

end ScriptEngine
