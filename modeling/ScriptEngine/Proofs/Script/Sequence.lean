import ScriptEngine.Proofs.Grammar.Relabel
import ScriptEngine.Proofs.Lexer.Joining
import ScriptEngine.Proofs.Run.Relocation
import ScriptEngine.Proofs.Script.Tokens

/-!
# One script after the other

Two sources with a newline between them are one source, whose program is that of the first followed by
that of the second, further down (`compile_join`). To run it is to run the first and then, if that
ends well, the second (`run_join`). What the second reports of itself is further down too. Functions
may report other places, if they run programs, and these stay where they are (`trace_join_reentrant`).
-/

namespace ScriptEngine

open ScriptEngine.Parser

/-! ## Statements in a row -/

namespace Derivation

def append : Derivation .statements → Derivation .statements → Derivation .statements
  | noStatement, tt => tt
  | moreStatements s ss, tt => moreStatements s (ss.append tt)

theorem tokens_append (ss tt : Derivation .statements) :
    (ss.append tt).tokens = ss.tokens ++ tt.tokens :=
  match ss with
  | noStatement => by simp [append]
  | moreStatements s ss => by simp [append, tokens_append ss tt]

theorem depth_append (ss tt : Derivation .statements) :
    (ss.append tt).depth = max ss.depth tt.depth :=
  match ss with
  | noStatement => by simp [append]
  | moreStatements s ss => by simp [append, depth_append ss tt, max_assoc]

theorem tree_append (ss tt : Derivation .statements) :
    (ss.append tt).tree = List.append ss.tree tt.tree :=
  match ss with
  | noStatement => by simp [append]
  | moreStatements s ss => by simp [append, tree_append ss tt]

end Derivation

theorem Pos.down_zero : Pos.down 0 = id := by
  funext p
  simp [Pos.down]

/-- Further down, if the position is set. -/
def Pos.below (d : Nat) (p : Pos) : Pos := if p.isSet then p.down d else p

theorem Interpreter.run_execBlock_append {σ : Type} (it : Interpreter σ) (p q r : Pos)
    (ss ts : List Stmt) (s : RunState σ) :
    (it.execBlock (.mk r (ss ++ ts))).run s =
      match (it.execBlock (.mk p ss)).run s with
      | (.ok (), s') => (it.execBlock (.mk q ts)).run s'
      | (.error e, s') => (.error e, s') := by
  simp only [execBlock]
  induction ss generalizing s with
  | nil =>
    simp only [execBody]
    rfl
  | cons a ss ih =>
    simp only [List.cons_append, execBody, Run.run_bind]
    rcases (it.traceStatement a).run s with ⟨_ | _, s₁⟩
    · rfl
    · dsimp only
      rcases (it.exec a).run s₁ with ⟨_ | _, s₂⟩
      · rfl
      · exact ih s₂

namespace Script

variable {file s t : Text} {first second : Script}

theorem compile_join {b c : Block} (hs : compile file s = .ok ⟨b, file⟩)
    (ht : compile file t = .ok ⟨c, file⟩) :
    ∃ p, compile file (s ++ Byte.newline :: t) =
      .ok ⟨.mk p (b.body ++ Stmt.mapPosAll (Pos.down (s.count Byte.newline + 1)) c.body), file⟩ := by
  obtain ⟨ts, last, hl⟩ := exists_lexesTo hs
  obtain ⟨us, last', hl'⟩ := exists_lexesTo ht
  obtain ⟨⟨SS⟩, rfl, rfl, hd⟩ := compile_eq_ok hs hl
  obtain ⟨⟨TT⟩, rfl, rfl, hd'⟩ := compile_eq_ok ht hl'
  obtain ⟨⟨m, hm⟩, hts, hlast⟩ := hl
  obtain ⟨⟨m', hm'⟩, hus, hlast'⟩ := hl'
  obtain ⟨ts', us', last'', m'', hj, hfirst, hsecond, hend⟩ :=
    Lexer.delivers_join hm hts hlast hm' hus hlast'
  obtain ⟨SS', rfl, hdepth, htree⟩ := SS.fits_of_aligned hfirst
  obtain ⟨TT', rfl, hdepth', htree'⟩ := TT.fits_of_aligned hsecond
  simp only [Nonterminal.Agree, Pos.down_zero, Stmt.mapPosAll_id] at htree htree'
  have hlex : LexesTo file (s ++ Byte.newline :: t) (Derivation.block (SS'.append TT')).tokens last'' := by
    refine ⟨⟨m'', ?_⟩, Derivation.kind_ne_end _, hend⟩
    simpa [Derivation.tokens_append] using hj
  have hdepth : (Derivation.block (SS'.append TT')).depth ≤ nestingLimit := by
    simp only [Derivation.depth, Derivation.depth_append] at hd hd' ⊢
    omega
  refine ⟨firstPos (SS'.append TT').tokens last''.pos, ?_⟩
  rw [compile_of_derivation _ hlex hdepth, Derivation.tree, Derivation.tree_append, ← htree, ← htree']
  rfl

/-- The positions of a compiled script are set, so it does not matter where others would go. -/
theorem mapPos_congr_of_compile (hs : compile file s = .ok first) {f g : Pos → Pos}
    (h : ∀ p, p.isSet = true → f p = g p) : first.root.mapPos f = first.root.mapPos g := by
  obtain ⟨root, file'⟩ := first
  obtain rfl : file' = file := file_of_compile hs
  obtain ⟨ts, last, hl⟩ := exists_lexesTo hs
  obtain ⟨D, rfl, rfl, -⟩ := compile_eq_ok hs hl
  obtain ⟨lx, hd⟩ := hl.1
  have hset := (Lexer.delivers_places hd (Lexer.start_stands _ _ _)).1
  have haligned : List.Forall₂ (Token.Aligned f g) D.tokens D.tokens :=
    List.forall₂_same.mpr fun t ht =>
      ⟨⟨rfl, rfl, fun _ => rfl⟩, h _ (hset t (List.mem_append_left _ ht)).1.2⟩
  obtain ⟨D', hD', -, hagree⟩ := D.fits_of_aligned haligned
  obtain rfl : D' = D := ((compile_eq_ok_iff_derivation hl).2.1 D' D hD' rfl)
  exact hagree last.pos last.pos (h _ (hset last (by simp)).1.2)

/-- To run the joined script is to run the first, and then, if that ends well, the second further
down. One account tells both the run of the second by itself and its run further down. If the
functions report no places of their own, the latter is the former with all its places moved. -/
theorem run_join (hs : compile file s = .ok first) (ht : compile file t = .ok second) :
    ∃ joined, compile file (s ++ Byte.newline :: t) = .ok joined ∧
      joined.root.body = first.root.body ++
        Stmt.mapPosAll (Pos.down (s.count Byte.newline + 1)) second.root.body ∧
      ∀ {σ : Type} (reg : Registry σ) (options : Options) (fuel : Nat) (state : RunState σ),
        let it := reg.interpreter options fuel
        let run (b : Block) := (it.execBlock b).run
        (∀ e state', run first.root state = (.error e, state') →
          run joined.root state = (.error e, state')) ∧
        ∀ state', run first.root state = (.ok (), state') →
          (∃ a : Account σ Unit, it.Covers (it.blockPassages second.root state') a ∧
            run second.root state' = a.fill id state'.trace ∧
            run joined.root state = a.fill (Pos.down (s.count Byte.newline + 1)) state'.trace ∧
            ∀ g, run (second.root.mapPos g) state' = a.fill g state'.trace) ∧
          (reg.KeepsTo .unplaced → ∀ r final,
            run second.root { state' with trace := #[] } = (r, final) →
            run joined.root state = (r.mapError (Stop.mapPos (Pos.below (s.count Byte.newline + 1))),
              { final with trace := state'.trace ++
                  final.trace.map (TraceLine.mapPos (Pos.below (s.count Byte.newline + 1))) })) := by
  have hcongr (d : Nat) := mapPos_congr_of_compile ht (f := Pos.down d) (g := Pos.below d)
    fun p hp => by rw [Pos.below, if_pos hp]
  obtain ⟨⟨p, ss⟩, f⟩ := first
  obtain ⟨⟨q, tt⟩, f'⟩ := second
  obtain rfl : f = file := file_of_compile hs
  obtain rfl : f' = f := file_of_compile ht
  obtain ⟨r, hj⟩ := compile_join hs ht
  refine ⟨_, hj, rfl, fun reg options fuel state => ?_⟩
  intro it run
  set d := s.count Byte.newline + 1
  have hrun : run (.mk r (ss ++ Stmt.mapPosAll (Pos.down d) tt)) state =
      match run (.mk p ss) state with
      | (.ok (), state') => run ((Block.mk q tt).mapPos (Pos.down d)) state'
      | (.error e, state') => (.error e, state') :=
    it.run_execBlock_append p (Pos.down d q) r ss (Stmt.mapPosAll (Pos.down d) tt) state
  refine ⟨fun e state' (he : run (.mk p ss) state = _) => ?_,
    fun state' (hok : run (.mk p ss) state = _) => ?_⟩
  · rw [he] at hrun
    exact hrun
  · have hnarrates := Interpreter.execBlock_narrates (reg.interpreter_follows options fuel) (.mk q tt)
    obtain ⟨a, hcovers, ha⟩ := hnarrates.account state'
    have hsecond (g : Pos → Pos) (trace : Array TraceLine) :
        run ((Block.mk q tt).mapPos g) { state' with trace } = a.fill g trace := ha g trace
    have hid (trace : Array TraceLine) : run (.mk q tt) { state' with trace } = a.fill id trace := by
      rw [← hsecond, Block.mapPos_id]
    rw [hok] at hrun
    refine ⟨⟨a, hcovers, hid state'.trace, hrun.trans (hsecond _ _), fun g => hsecond g _⟩, ?_⟩
    intro hr result final hfinal
    have hunset (p : Pos) (hp : p.isSet = false) : Pos.below d p = p := by
      rw [Pos.below, hp]
      rfl
    refine hrun.trans ?_
    rw [hcongr d]
    exact (hsecond _ _).trans
      ((hcovers.isOwn hr).fill_eq hunset state'.trace ((hid #[]).symm.trans hfinal))

/-- The second script calls a function and fails at a variable. Its lines in the trace and its error
are one line further down in the run of the joined script. -/
theorem run_join_fails :
    ∃ first second joined, compile [] (Text.ascii "x=1") = .ok first ∧
      compile [] (Text.ascii "f(x) y=z") = .ok second ∧
      compile [] (Text.ascii "x=1\nf(x) y=z") = .ok joined ∧
      let reg : Registry Unit := ⟨[(Text.ascii "f", ⟨some 1, fun _ => .done none⟩)]⟩
      let run (script : Script) :=
        ((reg.interpreter ⟨none, true⟩ 3).execBlock script.root).run
      let start : RunState Unit := .start NameTable.empty ()
      let middle := (run first start).2
      let unbound (line column : Int) : Except Stop Unit :=
        .error (.failed (.error (.of (.undefinedVariable (Text.ascii "z")) ⟨line, column, []⟩)))
      (run second { middle with trace := #[] }).1 = unbound 1 8 ∧
      (run second { middle with trace := #[] }).2.trace =
        #[⟨⟨1, 1, []⟩, .call (Text.ascii "f")⟩, ⟨⟨1, 6, []⟩, .assign (Text.ascii "y")⟩] ∧
      (run joined start).1 = unbound 2 8 ∧
      (run joined start).2.trace = #[⟨⟨1, 1, []⟩, .assign (Text.ascii "x")⟩,
        ⟨⟨2, 1, []⟩, .call (Text.ascii "f")⟩, ⟨⟨2, 6, []⟩, .assign (Text.ascii "y")⟩] := by
  let reg : Registry Unit := ⟨[(Text.ascii "f", ⟨some 1, fun _ => .done none⟩)]⟩
  let run (script : Script) := ((reg.interpreter ⟨none, true⟩ 3).execBlock script.root).run
  let start : RunState Unit := .start NameTable.empty ()
  have hkeeps : reg.KeepsTo .unplaced := by
    intro e he args
    cases List.mem_singleton.mp he
    trivial
  have hcompile : (compile [] (Text.ascii "x=1")).toOption.bind (fun first =>
      (compile [] (Text.ascii "f(x) y=z")).toOption.map fun second =>
        let middle := (run first start).2
        let final := run second { middle with trace := #[] }
        ((run first start).1, middle.trace, final.1, final.2.trace)) =
      some (.ok (), #[⟨⟨1, 1, []⟩, .assign (Text.ascii "x")⟩],
        .error (.failed (.error (.of (.undefinedVariable (Text.ascii "z")) ⟨1, 8, []⟩))),
        #[⟨⟨1, 1, []⟩, .call (Text.ascii "f")⟩, ⟨⟨1, 6, []⟩, .assign (Text.ascii "y")⟩]) := by
    decide +kernel
  cases hs : compile [] (Text.ascii "x=1") with
  | error r =>
    rw [hs] at hcompile
    cases hcompile
  | ok first =>
    cases ht : compile [] (Text.ascii "f(x) y=z") with
    | error r =>
      rw [hs, ht] at hcompile
      cases hcompile
    | ok second =>
      rw [hs, ht] at hcompile
      obtain ⟨hok, hcompile⟩ := Prod.mk.inj (Option.some.inj hcompile)
      obtain ⟨hmiddle, hcompile⟩ := Prod.mk.inj hcompile
      obtain ⟨hresult, htrace⟩ := Prod.mk.inj hcompile
      obtain ⟨joined, hj, -, hrun⟩ := run_join hs ht
      let middle := (run first start).2
      let final := run second { middle with trace := #[] }
      have hmoved : run joined start = (final.1.mapError (Stop.mapPos (Pos.below 1)),
          { final.2 with
            trace := middle.trace ++ final.2.trace.map (TraceLine.mapPos (Pos.below 1)) }) :=
        ((hrun reg ⟨none, true⟩ 3 start).2 middle (Prod.ext hok rfl)).2 hkeeps final.1 final.2 rfl
      refine ⟨first, second, joined, rfl, rfl, hj, hresult, htrace, ?_, ?_⟩
      · show (run joined start).1 = _
        rw [hmoved, show final.1 = _ from hresult]
        rfl
      · show (run joined start).2.trace = _
        rw [hmoved, show middle.trace = _ from hmiddle, show final.2.trace = _ from htrace]
        simp [TraceLine.mapPos, Pos.below, Pos.isSet, Pos.down]

/-- A function runs another program. The line of that program stays where it is. -/
theorem trace_join_reentrant :
    ∃ program first second joined, compile (Text.ascii "p") (Text.ascii "y=1") = .ok program ∧
      compile [] (Text.ascii "x=1") = .ok first ∧ compile [] (Text.ascii "f()") = .ok second ∧
      compile [] (Text.ascii "x=1\nf()") = .ok joined ∧
      let reg : Registry Unit :=
        ⟨[(Text.ascii "f", ⟨some 0, fun _ => .run program.root (.done none)⟩)]⟩
      let run (script : Script) :=
        ((reg.interpreter ⟨none, true⟩ 3).execBlock script.root).run
      let start : RunState Unit := .start NameTable.empty ()
      let middle := (run first start).2
      (run first start).1 = .ok () ∧
      (run joined start).2.trace ≠ middle.trace ++
        (run second { middle with trace := #[] }).2.trace.map (TraceLine.mapPos (Pos.down 1)) := by
  have hruns : (compile (Text.ascii "p") (Text.ascii "y=1")).toOption.bind (fun program =>
      (compile [] (Text.ascii "x=1")).toOption.bind fun first =>
      (compile [] (Text.ascii "f()")).toOption.bind fun second =>
      (compile [] (Text.ascii "x=1\nf()")).toOption.map fun joined =>
        let reg : Registry Unit :=
          ⟨[(Text.ascii "f", ⟨some 0, fun _ => .run program.root (.done none)⟩)]⟩
        let run (script : Script) := ((reg.interpreter ⟨none, true⟩ 3).execBlock script.root).run
        let start : RunState Unit := .start NameTable.empty ()
        let middle := (run first start).2
        ((run first start).1, decide ((run joined start).2.trace = middle.trace ++
          (run second { middle with trace := #[] }).2.trace.map (TraceLine.mapPos (Pos.down 1))))) =
      some (.ok (), false) := by decide +kernel
  cases hp : compile (Text.ascii "p") (Text.ascii "y=1") with
  | error r =>
    rw [hp] at hruns
    cases hruns
  | ok program =>
    cases hs : compile [] (Text.ascii "x=1") with
    | error r =>
      rw [hp, hs] at hruns
      cases hruns
    | ok first =>
      cases ht : compile [] (Text.ascii "f()") with
      | error r =>
        rw [hp, hs, ht] at hruns
        cases hruns
      | ok second =>
        cases hj : compile [] (Text.ascii "x=1\nf()") with
        | error r =>
          rw [hp, hs, ht, hj] at hruns
          cases hruns
        | ok joined =>
          rw [hp, hs, ht, hj] at hruns
          obtain ⟨hok, hne⟩ := Prod.mk.inj (Option.some.inj hruns)
          exact ⟨program, first, second, joined, rfl, rfl, rfl, rfl, hok, of_decide_eq_false hne⟩

end Script

end ScriptEngine
