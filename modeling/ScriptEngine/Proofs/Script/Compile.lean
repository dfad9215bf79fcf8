import ScriptEngine.Proofs.Grammar.Unambiguity
import ScriptEngine.Proofs.Lexer.Progress
import ScriptEngine.Proofs.Parser.Program
import ScriptEngine.Script

/-!
# Compilation

A source whose tokens are known compiles to the tree of their derivation, which is the only one, if
there is one and it is not nested too deep (`compile_eq_ok_iff_derivation`). A source that does not
compile is rejected at the first token that no program could have there (`compile_rejects_earliest`).
-/

namespace ScriptEngine

open ScriptEngine.Parser

namespace Script

variable {file source : Text} {ts : List Token} {last : Token} {r : Rejection} {root : Block}

/-- The source consists of the tokens `ts`, up to its end `last`. -/
def LexesTo (file source : Text) (ts : List Token) (last : Token) : Prop :=
  (∃ lx, Delivers (Lexer.start file source true) (ts ++ [last]) lx) ∧
    (∀ t ∈ ts, t.kind ≠ .endOfInput) ∧ last.kind = .endOfInput

/-! ## Where a compilation stands -/

theorem compile_of_start {c : Cursor Lexer}
    (h : Cursor.start (Lexer.start file source true) = .ok c) :
    compile file source =
      (programAt (source.length + 1) nestingLimit c).map fun p => ⟨p.1, file⟩ := by
  show Except.bind (Except.bind (Cursor.start _) _) _ = _
  rw [h, ← program_eq]
  show Except.bind (program (source.length + 1) c) _ = _
  cases program (source.length + 1) c <;> rfl

theorem compile_of_start_error (h : Cursor.start (Lexer.start file source true) = .error r) :
    compile file source = .error r := by
  show Except.bind (Except.bind (Cursor.start _) _) _ = _
  rw [h]
  rfl

theorem file_of_compile {script : Script} (h : compile file source = .ok script) :
    script.file = file := by
  cases hc : Cursor.start (Lexer.start file source true) with
  | error r =>
    rw [compile_of_start_error hc] at h
    cases h
  | ok c =>
    rw [compile_of_start hc] at h
    generalize programAt (source.length + 1) nestingLimit c = p at h
    cases p with
    | error => cases h
    | ok => cases h; rfl

/-- The tokens of a source, as the parser comes upon them. -/
theorem LexesTo.reads (h : LexesTo file source ts last) :
    ∃ c c', Cursor.start (Lexer.start file source true) = .ok c ∧ c.Reads ts c' ∧
      c'.current = last ∧ c.Within source.length := by
  obtain ⟨⟨lx, hd⟩, hts, -⟩ := h
  obtain ⟨c, c', hc, hr, hl, -⟩ := Cursor.start_of_delivers hd hts
  exact ⟨c, c', hc, hr, hl, Lexer.start_within hc⟩

theorem compile_eq_ok (h : compile file source = .ok ⟨root, file⟩)
    (hl : LexesTo file source ts last) :
    ∃ D : Derivation .block, D.tokens = ts ∧ D.tree last.pos = root ∧ D.depth ≤ nestingLimit := by
  obtain ⟨c, c', hc, hr, rfl, -⟩ := hl.reads
  rw [compile_of_start hc] at h
  have hy := programAt_yields (source.length + 1) nestingLimit c
  unfold Yields at hy
  split at hy
  · next b m e =>
    rw [e] at h
    cases h
    obtain ⟨us, hr', hk, D, rfl, rfl, hD⟩ := hy
    obtain ⟨rfl, rfl⟩ := hr.eq_of_end hr' hl.2.2 hk
    exact ⟨D, rfl, rfl, hD⟩
  · next e =>
    rw [e] at h
    cases h

/-- A source that compiles consists of tokens. -/
theorem exists_lexesTo (h : compile file source = .ok ⟨root, file⟩) :
    ∃ ts last, LexesTo file source ts last := by
  cases hc : Cursor.start (Lexer.start file source true) with
  | error r =>
    rw [compile_of_start_error hc] at h
    cases h
  | ok c =>
    rw [compile_of_start hc] at h
    have hy := programAt_yields (source.length + 1) nestingLimit c
    unfold Yields at hy
    split at hy
    · next b m e =>
      obtain ⟨ts, hr, hk, -⟩ := hy
      exact ⟨ts, m.current, ⟨_, hr.delivers (Cursor.start_ok hc).1⟩, hr.ne_end, hk⟩
    · next e =>
      rw [e] at h
      cases h

theorem compile_of_derivation (D : Derivation .block) (hl : LexesTo file source D.tokens last)
    (hd : D.depth ≤ nestingLimit) : compile file source = .ok ⟨D.tree last.pos, file⟩ := by
  obtain ⟨c, c', hc, hr, rfl, hw⟩ := hl.reads
  have hn := hw.length_le hr
  rw [compile_of_start hc, programAt_accepts D hd (Nat.lt_succ_of_le hn) hr hl.2.2]
  rfl

theorem compile_of_deep (D : Derivation .block) (hl : LexesTo file source D.tokens last)
    (hd : nestingLimit < D.depth) : ∃ r, compile file source = .error r ∧ r.isTooDeep := by
  obtain ⟨c, c', hc, hr, rfl, hw⟩ := hl.reads
  have hw' := hw.mono (Nat.le_succ _)
  rcases programAt_derivable (d := nestingLimit) hw' D hr hl.2.2 with e | ⟨r, e, hr'⟩
  · obtain ⟨D', ht, -, hD⟩ := compile_eq_ok (by rw [compile_of_start hc, e]; rfl) hl
    rw [Derivation.tokens_injective _ ht] at hD
    omega
  · exact ⟨r, by rw [compile_of_start hc, e]; rfl, hr'⟩

/-- Compilation finds the one derivation of a source, if there is one that is not too deep. -/
theorem compile_eq_ok_iff_derivation (hl : LexesTo file source ts last) :
    (∀ root, compile file source = .ok ⟨root, file⟩ ↔
      ∃ D : Derivation .block, D.tokens = ts ∧ D.tree last.pos = root ∧ D.depth ≤ nestingLimit) ∧
    (∀ D D' : Derivation .block, D.tokens = ts → D'.tokens = ts → D = D') ∧
    ∀ D : Derivation .block, D.tokens = ts → nestingLimit < D.depth →
      ∃ r, compile file source = .error r ∧ r.error.cause =
        .unexpected (Text.ascii "shallower expression") (Text.ascii "nesting depth limit") := by
  refine ⟨fun root => ⟨fun h => compile_eq_ok h hl, ?_⟩, ?_, ?_⟩
  · rintro ⟨D, rfl, rfl, hd⟩
    exact compile_of_derivation D hl hd
  · intro D D' h h'
    exact Derivation.tokens_injective _ (h.trans h'.symm)
  · rintro D rfl hd
    exact compile_of_deep D hl hd

theorem compile_loop_eq_ok :
    ∃ ts last, LexesTo [] (Text.ascii "while x<y f() endwhile") ts last ∧
      compile [] (Text.ascii "while x<y f() endwhile") = .ok ⟨.mk ⟨1, 1, []⟩
        [.loop ⟨1, 1, []⟩ ⟨⟨1, 8, []⟩, .less, .var ⟨1, 7, []⟩ (Text.ascii "x"),
            .var ⟨1, 9, []⟩ (Text.ascii "y")⟩
          (.mk ⟨1, 11, []⟩ [.expr (.call ⟨1, 11, []⟩ (Text.ascii "f") [])])], []⟩ := by
  let token (k : TokenKind) (s : String) (n : Nat) : TokenOf k :=
    ⟨⟨k, Text.ascii s, Double.zero, ⟨1, n, []⟩⟩, rfl⟩
  let var (s : String) (n : Nat) : Derivation .expr := .ofTerm (.ofFactor (.var (token .ident s n)))
  let D : Derivation .block := .block (.moreStatements
    (.loop (token .whileWord "while" 1)
      (.comparison (var "x" 7) ⟨(token .less "<" 8).1, rfl⟩ (var "y" 9))
      (.block (.moreStatements (.callStatement (.call (token .ident "f" 11)
        (token .openParen "(" 12) .noArgument (token .closeParen ")" 13))) .noStatement))
      (token .endwhileWord "endwhile" 15)) .noStatement)
  have hl : LexesTo [] (Text.ascii "while x<y f() endwhile") D.tokens
      (token .endOfInput "" 22).1 :=
    ⟨⟨_, .step rfl (.step rfl (.step rfl (.step rfl (.step rfl (.step rfl (.step rfl
      (.step rfl (.step rfl (.refl _)))))))))⟩, D.kind_ne_end, rfl⟩
  exact ⟨_, _, hl, ((compile_eq_ok_iff_derivation hl).1 _).mpr ⟨D, rfl, rfl, by decide⟩⟩

/-! ## Rejections -/

/-- A token is rejected where it comes first to be impossible. -/
theorem compile_rejects_earliest {expected found : Text} (h : compile file source = .error r)
    (hc : r.error.cause = .unexpected expected found) (hd : ¬ r.isTooDeep) :
    ∃ (ts : List Token) (t : Token),
      (∃ lx, Delivers (Lexer.start file source true) (ts ++ [t]) lx) ∧
      ts.length = r.index ∧ t.pos = r.error.pos ∧
      (∃ D : Derivation .block, ts <+: D.tokens) ∧
      ∀ (D : Derivation .block) (last : Token), last.kind = .endOfInput →
        ¬ ts ++ [t] <+: D.tokens ++ [last] := by
  have hs : ¬ ∃ f, r.error.cause = .lexical f := by
    rintro ⟨f, hf⟩
    rw [hc] at hf
    cases hf
  cases hst : Cursor.start (Lexer.start file source true) with
  | error r' =>
    rw [compile_of_start_error hst] at h
    cases h
    exact absurd (Lexer.start_error hst) hs
  | ok c =>
    rw [compile_of_start hst] at h
    have hw : c.Within (source.length + 1) := (Lexer.start_within hst).mono (Nat.le_succ _)
    have hp : programAt (source.length + 1) nestingLimit c = .error r := by
      cases e : programAt (source.length + 1) nestingLimit c with
      | ok => rw [e] at h; cases h
      | error => rw [e] at h; cases h; rfl
    obtain ⟨ts, c', hr, hi, hpos, hv, hn⟩ := programAt_unexpected hw hp hd
      fun m hm => hs (Lexer.advance_error hm)
    have hi' := hr.index_eq
    rw [(Cursor.start_ok hst).2] at hi'
    exact ⟨ts, c'.current, ⟨_, hr.delivers (Cursor.start_ok hst).1⟩, by omega, hpos.symm, hv, hn⟩

theorem compile_rejects_earliest_paren :
    ∃ (ts : List Token) (t : Token),
      (∃ lx, Delivers (Lexer.start [] (Text.ascii "x=)") true) (ts ++ [t]) lx) ∧
      ts.length = 2 ∧ t.pos = ⟨1, 3, []⟩ ∧ (∃ D : Derivation .block, ts <+: D.tokens) ∧
      ∀ (D : Derivation .block) (last : Token), last.kind = .endOfInput →
        ¬ ts ++ [t] <+: D.tokens ++ [last] := by
  have h : compile [] (Text.ascii "x=)") = .error ⟨2, (.of (.unexpected
      (Text.ascii "number, identifier or '('") (Text.ascii "')'")) (⟨1, 3, []⟩))⟩ := rfl
  exact compile_rejects_earliest h rfl (by unfold Rejection.isTooDeep; decide)

end Script

end ScriptEngine
