import ScriptEngine.Proofs.Run.Relocation
import ScriptEngine.Proofs.Script.Pipeline

/-!
# Sources with the same tokens

How a program is laid out makes no difference to what it does. Two sources whose tokens agree in
kind and text compile to trees that agree up to positions, or are rejected at the same token in the
same words (`compile_alike`). Programs that agree up to positions do the same, so that what comes of
running the two differs in positions only (`run_reformatted`).
-/

namespace ScriptEngine

open ScriptEngine.Parser

/-! ## Programs without positions -/

/-- Without the position of an error. -/
def Stop.erase : Stop → Stop
  | .failed (.error e) => .failed (.error (.of e.cause Pos.unset))
  | s => s

/-- The same comes of two runs, but for positions. -/
structure Run.EndsAlike {σ α : Type} (r r' : Except Stop α × RunState σ) : Prop where
  result : r.1.mapError Stop.erase = r'.1.mapError Stop.erase
  env : r.2.env = r'.2.env
  host : r.2.host = r'.2.host
  calls : r.2.calls = r'.2.calls
  polls : r.2.polls = r'.2.polls
  trace : r.2.trace.toList.map TraceLine.action = r'.2.trace.toList.map TraceLine.action

variable {σ α : Type}

theorem Run.EndsAlike.symm {r r' : Except Stop α × RunState σ} (h : EndsAlike r r') :
    EndsAlike r' r :=
  ⟨h.result.symm, h.env.symm, h.host.symm, h.calls.symm, h.polls.symm, h.trace.symm⟩

theorem Run.EndsAlike.trans {r r' r'' : Except Stop α × RunState σ} (h : EndsAlike r r')
    (h' : EndsAlike r' r'') : EndsAlike r r'' :=
  ⟨h.result.trans h'.result, h.env.trans h'.env, h.host.trans h'.host, h.calls.trans h'.calls,
    h.polls.trans h'.polls, h.trace.trans h'.trace⟩

theorem MarkedStop.erase_fill (g g' : Pos → Pos) (m : MarkedStop) :
    (m.fill g).erase = (m.fill g').erase := by
  cases m <;> rfl

theorem Account.fill_alike (a : Account σ α) (g g' : Pos → Pos) (trace : Array TraceLine) :
    Run.EndsAlike (a.fill g trace) (a.fill g' trace) := by
  refine ⟨?_, rfl, rfl, rfl, rfl, ?_⟩
  · cases h : a.result with
    | ok => simp [fill, h]; rfl
    | error m =>
      simp only [fill, h]
      exact congrArg Except.error (m.erase_fill g g')
  · simp [fill, MarkedLine.fill, Function.comp_def]

namespace Interpreter

variable {it : Interpreter σ} {p : Plan σ}

theorem execBlock_erase (hi : it.Follows p) (b : Block) (s : RunState σ) :
    Run.EndsAlike ((it.execBlock b).run s) ((it.execBlock b.erase).run s) := by
  obtain ⟨a, -, ha⟩ := (execBlock_narrates hi b).account s
  have hid : (it.execBlock (b.mapPos id)).run s = a.fill id s.trace := ha id s.trace
  have he : (it.execBlock b.erase).run s = a.fill (fun _ => Pos.unset) s.trace := ha _ s.trace
  rw [Block.mapPos_id] at hid
  rw [hid, he]
  exact a.fill_alike id _ s.trace

/-- Programs that agree up to positions do the same. -/
theorem execBlock_alike (hi : it.Follows p) {b b' : Block} (h : b.erase = b'.erase)
    (s : RunState σ) : Run.EndsAlike ((it.execBlock b).run s) ((it.execBlock b').run s) :=
  (h ▸ execBlock_erase hi b s).trans (execBlock_erase hi b' s).symm

end Interpreter

/-! ## Sources -/

namespace Script

variable {file file' source source' : Text} {ts us : List Token} {last last' : Token}

/-- Of two sources with like tokens both compile, to the same tree up to positions, or neither. -/
theorem compile_alike (h : LexesTo file source ts last) (h' : LexesTo file' source' us last')
    (ha : List.Forall₂ Token.Alike (ts ++ [last]) (us ++ [last'])) :
    (∃ script script', compile file source = .ok script ∧ compile file' source' = .ok script' ∧
      script.root.erase = script'.root.erase) ∨
    ∃ r r' x y, compile file source = .error r ∧ compile file' source' = .error r' ∧
      r.index = r'.index ∧ r.error.cause = .unexpected x y ∧
      r'.error.cause = .unexpected x y := by
  obtain ⟨c, c', hs, hr, rfl, -⟩ := h.reads
  obtain ⟨vs, e, e', hvs, hs', hal⟩ := exists_alongside hs hr h'.1.choose_spec ha
  obtain ⟨rfl, -⟩ := List.append_inj' hvs rfl
  cases hc : compile file source with
  | ok script =>
    obtain ⟨root, f⟩ := script
    obtain rfl : f = file := file_of_compile hc
    obtain ⟨D, rfl, rfl, hD⟩ := compile_eq_ok hc h
    obtain ⟨D', rfl, hd, ht⟩ := D.fits_of_same hal.tokens
    exact .inl ⟨_, _, rfl, compile_of_derivation D' h' (hd ▸ hD), (ht _ _).symm⟩
  | error r =>
    have hp := (compile_eq_error_iff hs).mp hc
    obtain ⟨v, ts₀, c₀, hv⟩ := exists_concludes (source.length + 1) nestingLimit c
    -- The token that decides is one of the source, which the other source has one like.
    obtain ⟨rest, rfl, hrest⟩ := hr.of_end h.2.2 hv.reads
    obtain ⟨us₀, _, e₀, rfl, hal₀, -⟩ := hal.split hrest
    have hecho := concludes_of_alongside hs hs' hv hal₀
    cases hv with
    | done _ eb => rw [hp] at eb; cases eb
    | missing _ hk hadv =>
      cases hrest with
      | refl => exact absurd h.2.2 hk
      | step _ hadv' => rw [hadv] at hadv'; cases hadv'
    | unexpected hr₀ er =>
      obtain rfl := Except.error.inj (hp.symm.trans er)
      cases hecho nofun with
      | unexpected hr₀' er' =>
        refine .inr ⟨_, _, _, _, rfl, (compile_eq_error_iff hs').mpr er', ?_, rfl, rfl⟩
        rw [index_of_reads hs hr₀, index_of_reads hs' hr₀', hal₀.tokens.length_eq]

/-- Two sources with the same tokens, wherever they stand, are one program: from one state and with
one registry and one set of options, what comes of the two differs in positions only. -/
theorem run_reformatted (h : LexesTo file source ts last) (h' : LexesTo file' source' us last')
    (ha : List.Forall₂ Token.Alike (ts ++ [last]) (us ++ [last'])) :
    (∃ script script', compile file source = .ok script ∧ compile file' source' = .ok script' ∧
      ∀ {σ : Type} (reg : Registry σ) (options : Options) (fuel : Nat) (state : RunState σ),
        Run.EndsAlike (((reg.interpreter options fuel).execBlock script.root).run state)
          (((reg.interpreter options fuel).execBlock script'.root).run state)) ∨
    ∃ r r' x y, compile file source = .error r ∧ compile file' source' = .error r' ∧
      r.index = r'.index ∧ r.error.cause = .unexpected x y ∧
      r'.error.cause = .unexpected x y := by
  rcases compile_alike h h' ha with ⟨script, script', hs, hs', he⟩ | hr
  · refine .inl ⟨script, script', hs, hs', fun reg options fuel state => ?_⟩
    exact Interpreter.execBlock_alike (reg.interpreter_follows options fuel) he state
  · exact .inr hr

theorem run_reformatted_spacing :
    ∃ script script', compile [] (Text.ascii "x=f('a')") = .ok script ∧
      compile (Text.ascii "g") (Text.ascii "x =\n f(\"a\")") = .ok script' ∧
      ∀ {σ : Type} (reg : Registry σ) (options : Options) (fuel : Nat) (state : RunState σ),
        Run.EndsAlike (((reg.interpreter options fuel).execBlock script.root).run state)
          (((reg.interpreter options fuel).execBlock script'.root).run state) := by
  let token (f : Text) (k : TokenKind) (s : String) (l n : Nat) : Token :=
    ⟨k, Text.ascii s, Double.zero, ⟨l, n, f⟩⟩
  let t := token []
  let u := token (Text.ascii "g")
  have h : LexesTo [] (Text.ascii "x=f('a')")
      [t .ident "x" 1 1, t .equals "=" 1 2, t .ident "f" 1 3, t .openParen "(" 1 4,
        t .string "a" 1 5, t .closeParen ")" 1 8] (t .endOfInput "" 1 8) :=
    ⟨⟨_, .step rfl (.step rfl (.step rfl (.step rfl (.step rfl (.step rfl (.step rfl
      (.refl _)))))))⟩, by decide, rfl⟩
  have h' : LexesTo (Text.ascii "g") (Text.ascii "x =\n f(\"a\")")
      [u .ident "x" 1 1, u .equals "=" 1 3, u .ident "f" 2 2, u .openParen "(" 2 3,
        u .string "a" 2 4, u .closeParen ")" 2 7] (u .endOfInput "" 2 7) :=
    ⟨⟨_, .step rfl (.step rfl (.step rfl (.step rfl (.step rfl (.step rfl (.step rfl
      (.refl _)))))))⟩, by decide, rfl⟩
  have alike (k : TokenKind) (s : String) (l n l' n' : Nat) : (t k s l n).Alike (u k s l' n') :=
    ⟨rfl, rfl⟩
  have ha := run_reformatted h h' (.cons (alike ..) (.cons (alike ..) (.cons (alike ..)
    (.cons (alike ..) (.cons (alike ..) (.cons (alike ..) (.cons (alike ..) .nil)))))))
  refine ha.resolve_right ?_
  rintro ⟨r, -, -, -, hr, -⟩
  have hok : (compile [] (Text.ascii "x=f('a')")).isOk = true := by decide +kernel
  rw [hr] at hok
  cases hok

end Script

end ScriptEngine
