import ScriptEngine.Proofs.Lexer.Listing
import ScriptEngine.Proofs.Script.Compile

/-!
# Reading tokens as they are needed

The parser asks for a token at a time. That makes no difference to reading the whole source first
and parsing the list of what came out (`compile_listing`), whatever is wrong with the source. Of the
faults in a source the first one is reported, and nothing behind it matters (`compile_lazy`).
-/

namespace ScriptEngine

open ScriptEngine.Parser

/-- A source and how often it has been asked. -/
structure Counted (σ : Type) where
  source : σ
  calls : Nat

instance {σ : Type} [TokenSource σ] : TokenSource (Counted σ) where
  next s := ((TokenSource.next s.source).1, ⟨(TokenSource.next s.source).2, s.calls + 1⟩)

section Sources

variable {σ : Type} [TokenSource σ] {s s' : σ} {ts : List Token}

theorem Delivers.counted (h : Delivers s ts s') (n : Nat) :
    Delivers (⟨s, n⟩ : Counted σ) ts ⟨s', n + ts.length⟩ := by
  induction h generalizing n with
  | refl => exact .refl _
  | @step s m s' t ts hn _ ih =>
    have hn' : TokenSource.next (⟨s, n⟩ : Counted σ) = (.ok t, ⟨m, n + 1⟩) := by
      show (_, _) = _
      rw [hn]
    have hm := ih (n + 1)
    rw [Nat.add_assoc, Nat.add_comm 1] at hm
    exact .step hn' hm

theorem Parser.parse_of_start {c : Cursor σ} (h : Cursor.start s = .ok c) (n : Nat) :
    parse n s = programAt n nestingLimit c := by
  rw [parse, h, ← program_eq]
  rfl

theorem Parser.parse_of_start_error {r : Rejection} (h : Cursor.start s = .error r) (n : Nat) :
    parse n s = .error r := by
  rw [parse, h]
  rfl

end Sources

namespace Script

variable {file source : Text} {r : Rejection} {ts : List Token} {c c' : Cursor Lexer}

theorem listing_of_start_error (h : Cursor.start (Lexer.start file source true) = .error r) :
    (Lexer.start file source true).listing = [.error r.error] ∧ r.index = 0 := by
  unfold Cursor.start at h
  split at h
  · cases h
  · next hn =>
    cases h
    exact ⟨Lexer.listing_of_error hn, rfl⟩

theorem listing_of_advance_error (h : advance c = .error r) :
    c.source.listing = [.error r.error] := by
  unfold advance at h
  split at h
  · cases h
  · next hn =>
    cases h
    exact Lexer.listing_of_error hn

section Started

variable (hs : Cursor.start (Lexer.start file source true) = .ok c)

include hs

theorem map_root_of_start :
    (compile file source).map Script.root =
      (programAt (source.length + 1) nestingLimit c).map Prod.fst := by
  rw [compile_of_start hs]
  cases programAt (source.length + 1) nestingLimit c <;> rfl

theorem compile_eq_error_iff :
    compile file source = .error r ↔
      programAt (source.length + 1) nestingLimit c = .error r := by
  rw [compile_of_start hs]
  cases programAt (source.length + 1) nestingLimit c with
  | ok => exact ⟨nofun, nofun⟩
  | error => exact ⟨fun h => by cases h; rfl, fun h => by cases h; rfl⟩

/-- A compilation reads the beginning of the listing. -/
theorem listing_of_reads (hr : c.Reads ts c') :
    (Lexer.start file source true).listing = (ts ++ [c'.current]).map .ok ++
      if c'.current.kind = .endOfInput then [] else c'.source.listing :=
  Lexer.listing_of_delivers (hr.delivers (Cursor.start_ok hs).1) hr.ne_end

theorem index_of_reads (hr : c.Reads ts c') : c'.index = ts.length := by
  rw [hr.index_eq, (Cursor.start_ok hs).2, Nat.zero_add]

theorem length_of_reads (hr : c.Reads ts c') : ts.length < source.length + 1 :=
  Nat.lt_succ_of_le ((Lexer.start_within hs).length_le hr)

theorem seen_of_reads (hr : c.Reads ts c') : c'.seen ts ≤ source.length + 1 :=
  c'.seen_le_of_lt (length_of_reads hs hr)

end Started

/-! ## Lexing first -/

/-- Lexing first and parsing then comes to the same. -/
theorem compile_listing (file source : Text) :
    (compile file source).map Script.root =
      (parse (source.length + 1) (Lexer.start file source true).listing).map Prod.fst := by
  cases hs : Cursor.start (Lexer.start file source true) with
  | error r =>
    obtain ⟨hl, hi⟩ := listing_of_start_error hs
    have he : Cursor.start (Lexer.start file source true).listing = .error r := by
      rw [hl]
      show Except.error (⟨0, r.error⟩ : Rejection) = _
      rw [← hi]
    rw [compile_of_start_error hs, parse_of_start_error he]
    rfl
  | ok c =>
    obtain ⟨v, ts, c', hc⟩ := exists_concludes (source.length + 1) nestingLimit c
    have hd := delivers_map_ok (ts ++ [c'.current])
      (if c'.current.kind = .endOfInput then [] else c'.source.listing)
    rw [← listing_of_reads hs hc.reads] at hd
    obtain ⟨e, e', he, hr, hcur, hsrc⟩ := Cursor.start_of_delivers hd hc.reads.ne_end
    have hi : e'.index = c'.index := by
      rw [hr.index_eq, (Cursor.start_ok he).2, Nat.zero_add, index_of_reads hs hc.reads]
    rw [map_root_of_start hs, parse_of_start he]
    refine (hc.map_eq (length_of_reads hs hc.reads) hr hcur hi fun hk r ha => ?_).symm
    have hl := listing_of_advance_error ha
    rw [if_neg hk, hl] at hsrc
    have hx : advance e' = .error ⟨e'.index + 1, r.error⟩ := by
      rw [advance, hsrc]
      rfl
    rw [hx, hi, ← index_of_advance ha]

/-- A compilation that succeeds asks once for each entry of the listing. -/
theorem counted_of_ok {root : Block} (h : compile file source = .ok ⟨root, file⟩) :
    (∃ (ts : List Token) (last : Token),
      (Lexer.start file source true).listing = ts.map .ok ++ [.ok last] ∧
      last.kind = .endOfInput) ∧
    ∃ c : Cursor (Counted Lexer),
      parse (source.length + 1) (Counted.mk (Lexer.start file source true) 0) = .ok (root, c) ∧
      c.source.calls = (Lexer.start file source true).listing.length := by
  obtain ⟨ts, last, hl⟩ := exists_lexesTo h
  obtain ⟨D, rfl, rfl, hD⟩ := compile_eq_ok h hl
  have hn : D.tokens.length < source.length + 1 := by
    obtain ⟨c, c', hs, hr, -⟩ := hl.reads
    exact length_of_reads hs hr
  obtain ⟨⟨lx, hd⟩, hts, hk⟩ := hl
  have hb := Lexer.listing_of_delivers hd hts
  rw [if_pos hk, List.append_nil, List.map_append] at hb
  obtain ⟨c, c', hs, hr, rfl, hsrc⟩ := Cursor.start_of_delivers (hd.counted 0) hts
  refine ⟨⟨D.tokens, _, hb, hk⟩, c', ?_, ?_⟩
  · rw [parse_of_start hs]
    exact programAt_accepts D hD hn hr hk
  · rw [hsrc, hb]
    simp

/-- A fault that is reported ends the listing. -/
theorem missing_of_error {f : LexFault} (h : compile file source = .error r)
    (hf : r.error.cause = .lexical f) :
    ∃ ts, (Lexer.start file source true).listing = ts.map .ok ++ [.error r.error] ∧
      Viable .block ts := by
  cases hs : Cursor.start (Lexer.start file source true) with
  | error r' =>
    rw [compile_of_start_error hs] at h
    cases h
    exact ⟨[], (listing_of_start_error hs).1, .block .noStatement, List.nil_prefix⟩
  | ok c =>
    have hp := (compile_eq_error_iff hs).mp h
    have hy := programAt_yields (source.length + 1) nestingLimit c
    rw [Yields, hp] at hy
    rcases hy with hd | ⟨ts, hb, hv⟩
    · rw [Rejection.isTooDeep, hf] at hd
      cases hd
    · cases hb with
      | unexpected _ hr => rw [hr] at hf; cases hf
      | @missing c' ts hr hk ha =>
        refine ⟨ts ++ [c'.current], ?_, hv⟩
        rw [listing_of_reads hs hr, if_neg hk, listing_of_advance_error ha]

/-! ## Sources with like tokens -/

/-- A source with like tokens, as the parser comes upon them. -/
theorem exists_alongside {file' source' : Text} {us : List Token} {m : Lexer}
    (hs : Cursor.start (Lexer.start file source true) = .ok c) (hr : c.Reads ts c')
    (hd : Delivers (Lexer.start file' source' true) us m)
    (ha : List.Forall₂ Token.Alike (ts ++ [c'.current]) us) :
    ∃ vs e e', us = vs ++ [e'.current] ∧
      Cursor.start (Lexer.start file' source' true) = .ok e ∧ Alongside ts c' e vs e' := by
  have hsame := Lexer.same_of_delivers (hr.delivers (Cursor.start_ok hs).1) hd ha
  obtain ⟨vs, u, _, hvs, hu, hnil, rfl⟩ := forall₂_append_cons_left.mp hsame
  cases hnil
  have hts : ∀ v ∈ vs, v.kind ≠ .endOfInput :=
    Token.ne_end_of_alike (hvs.imp fun _ _ h => ⟨h.kind, h.lexeme⟩) hr.ne_end
  obtain ⟨e, e', hs', hr', rfl, -⟩ := Cursor.start_of_delivers hd hts
  exact ⟨vs, e, e', rfl, hs', hr', hvs, hu⟩

/-- Sources of like tokens come to the same end. -/
theorem concludes_of_alongside {file' source' : Text} {e e' : Cursor Lexer} {us : List Token}
    {v : Verdict} (hs : Cursor.start (Lexer.start file source true) = .ok c)
    (hs' : Cursor.start (Lexer.start file' source' true) = .ok e)
    (h : Concludes (programAt (source.length + 1) nestingLimit) c v ts c')
    (ha : Alongside ts c' e us e') (hm : v ≠ .missing) :
    Concludes (programAt (source'.length + 1) nestingLimit) e v us e' :=
  h.echo (seen_of_reads hs h.reads) (ha.seen_eq ▸ seen_of_reads hs' ha.reads)
    (Nat.le_refl _) (fun _ => rfl) ha fun h => absurd h hm

/-- What comes after a token that is rejected does not matter. -/
theorem compile_of_faces {x y file' source' : Text}
    (hs : Cursor.start (Lexer.start file source true) = .ok c)
    (hc : Concludes (programAt (source.length + 1) nestingLimit) c (.unexpected x y) ts c')
    (hf : (Lexer.start file' source' true).faces (ts.length + 1) =
      (Lexer.start file source true).faces (ts.length + 1)) :
    compile file' source' = .error ⟨ts.length, (.of (.unexpected x y) c'.current.pos)⟩ := by
  have hlen : ts.length + 1 = (ts ++ [c'.current]).length := by simp
  rw [hlen] at hf
  obtain ⟨us, m, hd, hfaces⟩ :=
    Lexer.delivers_of_faces (hc.reads.delivers (Cursor.start_ok hs).1) hf
  obtain ⟨vs, e, e', rfl, hs', ha⟩ :=
    exists_alongside hs hc.reads hd (hfaces.imp fun _ _ => Token.alike_of_face)
  have hpos : c'.current.pos = e'.current.pos := by
    obtain ⟨_, _, _, -, hu, hnil, he⟩ := forall₂_append_cons_left.mp hfaces
    cases hnil
    obtain ⟨-, he⟩ := List.append_inj' he rfl
    cases he
    exact congrArg (·.2.2) hu
  cases concludes_of_alongside hs hs' hc ha nofun with
  | unexpected hr e =>
    rw [compile_eq_error_iff hs', e, hpos, index_of_reads hs' hr, ha.tokens.length_eq]

/-! ## Compilations -/

/-- What a compilation fails for. -/
theorem lexical_or_unexpected (h : compile file source = .error r) :
    (∃ f, r.error.cause = .lexical f) ∨
    ∃ x y c ts c', Cursor.start (Lexer.start file source true) = .ok c ∧
      Concludes (programAt (source.length + 1) nestingLimit) c (.unexpected x y) ts c' ∧
      r = ⟨ts.length, (.of (.unexpected x y) c'.current.pos)⟩ := by
  cases hs : Cursor.start (Lexer.start file source true) with
  | error r' =>
    rw [compile_of_start_error hs] at h
    cases h
    exact .inl (Lexer.start_error hs)
  | ok c =>
    have hp := (compile_eq_error_iff hs).mp h
    obtain ⟨v, ts, c', hc⟩ := exists_concludes (source.length + 1) nestingLimit c
    cases hc with
    | done _ e => rw [hp] at e; cases e
    | missing _ _ ha e =>
      rw [hp] at e
      cases e
      exact .inl (Lexer.advance_error ha)
    | unexpected hr e =>
      refine .inr ⟨_, _, c, ts, c', rfl, .unexpected hr e, ?_⟩
      rw [← index_of_reads hs hr]
      exact Except.error.inj (hp.symm.trans e)

/-- Compiling a source is parsing its listing. If it succeeds, the listing ends with the end of the
input and each entry was asked for once. If not, it is for the fault that ends the listing, after
tokens that a program may begin with, or for a token of the listing, whatever comes after that. -/
theorem compile_lazy (file source : Text) :
    (compile file source).map Script.root =
      (parse (source.length + 1) (Lexer.start file source true).listing).map Prod.fst ∧
    (∀ script, compile file source = .ok script →
      (∃ (ts : List Token) (last : Token),
        (Lexer.start file source true).listing = ts.map .ok ++ [.ok last] ∧
        last.kind = .endOfInput) ∧
      ∃ c : Cursor (Counted Lexer),
        parse (source.length + 1) (Counted.mk (Lexer.start file source true) 0) =
          .ok (script.root, c) ∧
        c.source.calls = (Lexer.start file source true).listing.length) ∧
    ∀ r, compile file source = .error r →
      (∃ (f : LexFault) (ts : List Token), r.error.cause = .lexical f ∧
        (Lexer.start file source true).listing = ts.map .ok ++ [.error r.error] ∧
        ∃ D : Derivation .block, ts <+: D.tokens) ∨
      ∃ (x y : Text) (t : Token), r.error.cause = .unexpected x y ∧
        (Lexer.start file source true).listing[r.index]? = some (.ok t) ∧ t.pos = r.error.pos ∧
        ∀ file' source', (Lexer.start file' source' true).faces (r.index + 1) =
          (Lexer.start file source true).faces (r.index + 1) →
          compile file' source' = .error r := by
  refine ⟨compile_listing file source, ?_, fun r h => ?_⟩
  · rintro ⟨root, file'⟩ h
    obtain rfl : file' = file := file_of_compile h
    exact counted_of_ok h
  · rcases lexical_or_unexpected h with ⟨f, hf⟩ | ⟨x, y, c, ts, c', hs, hc, rfl⟩
    · obtain ⟨ts, hl, hv⟩ := missing_of_error h hf
      exact .inl ⟨f, ts, hf, hl, hv⟩
    · refine .inr ⟨x, y, c'.current, rfl, ?_, rfl, fun _ _ hf => compile_of_faces hs hc hf⟩
      rw [listing_of_reads hs hc.reads]
      simp

end Script

end ScriptEngine
