import ScriptEngine.Proofs.Script.Compile
import ScriptEngine.Proofs.Tree.Faithful
import ScriptEngine.Proofs.Tree.Least

/-!
# Rendering and compiling

A well-formed tree, rendered and compiled, comes back up to positions, and every tree that comes out
of compilation is well formed (`compile_render`).
-/

namespace ScriptEngine

open ScriptEngine.Parser

namespace Script

variable {file source : Text} {ts : List Token} {last : Token} {root t : Block}

theorem LexesTo.spells (h : LexesTo file source ts last) : ∀ t ∈ ts, ∃ raw, Spells raw t := by
  obtain ⟨⟨lx, hd⟩, hts, -⟩ := h
  intro t ht
  exact Lexer.spells_of_delivers hd t (List.mem_append_left _ ht) (hts t ht)

theorem wellFormed_of_compile (h : compile file source = .ok ⟨root, file⟩) : root.WellFormed := by
  obtain ⟨ts, last, hl⟩ := exists_lexesTo h
  obtain ⟨D, rfl, rfl, -⟩ := compile_eq_ok h hl
  exact D.wellFormed hl.spells last.pos

theorem depth_rendering_of_compile (h : compile file source = .ok ⟨root, file⟩) :
    root.rendering.depth ≤ nestingLimit := by
  obtain ⟨ts, last, hl⟩ := exists_lexesTo h
  obtain ⟨D, -, rfl, hd⟩ := compile_eq_ok h hl
  rw [D.rendering_tree last.pos Pos.unset]
  exact D.render_atMost.1.trans hd

/-- A derivation whose tokens are laid out in a source is, up to positions, one of the source. -/
theorem compile_of_layout {D : Derivation .block} (file : Text) (h : Layout D.tokens source)
    (hd : D.depth ≤ nestingLimit) :
    ∃ root, compile file source = .ok ⟨root, file⟩ ∧ ∀ p, root.erase = (D.tree p).erase := by
  have hp : (Lexer.start file source true).reader.pending = source := rfl
  obtain ⟨us, last, lx, hl, hus, hlast⟩ := h.delivers hp
  obtain ⟨D', rfl, hD, ht⟩ := D.fits_of_same hus
  have hl' : LexesTo file source D'.tokens last := ⟨⟨lx, hl⟩, D'.kind_ne_end, hlast⟩
  exact ⟨_, compile_of_derivation D' hl' (hD ▸ hd), ht last.pos⟩

theorem compile_render_of_wellFormed (file : Text) (hw : t.WellFormed)
    (hd : t.rendering.depth ≤ nestingLimit) :
    ∃ root, compile file t.render = .ok ⟨root, file⟩ ∧ root.erase = t.erase := by
  obtain ⟨hs, ht⟩ := t.renders_rendering hw
  obtain ⟨root, hc, hroot⟩ := compile_of_layout file (layout_render hs) hd
  exact ⟨root, hc, (hroot Pos.unset).trans (ht Pos.unset Pos.unset)⟩

/-- Rendered trees compile to themselves, and no other trees come out of compilation. -/
theorem compile_render (t : Block) :
    (t.WellFormed → t.rendering.depth ≤ nestingLimit → ∀ file, ∃ root,
      compile file t.render = .ok ⟨root, file⟩ ∧ root.erase = t.erase) ∧
    ((∃ file source root, compile file source = .ok ⟨root, file⟩ ∧ root.erase = t.erase) ↔
      t.WellFormed ∧ t.rendering.depth ≤ nestingLimit) ∧
    ∀ (D : Derivation .block) (p : Pos), (D.tree p).erase = t.erase →
      t.rendering.parens ≤ D.parens := by
  refine ⟨fun hw hd file => compile_render_of_wellFormed file hw hd, ⟨?_, ?_⟩, ?_⟩
  · rintro ⟨file, source, root, hc, ht⟩
    rw [← Block.rendering_of_erase ht]
    exact ⟨(wellFormed_of_compile hc).of_erase ht, depth_rendering_of_compile hc⟩
  · rintro ⟨hw, hd⟩
    obtain ⟨root, hc, ht⟩ := compile_render_of_wellFormed [] hw hd
    exact ⟨[], _, root, hc, ht⟩
  · intro D p ht
    rw [← Block.rendering_of_erase ht, D.rendering_tree p Pos.unset]
    exact D.render_atMost.2

theorem compile_render_difference :
    ∃ root, compile [] (Text.ascii "x=(1-2)-0.5f(\"it's\")") = .ok ⟨root, []⟩ ∧
      root.erase = .mk Pos.unset
        [.assign Pos.unset (Text.ascii "x") (.binary Pos.unset .minus
          (.binary Pos.unset .minus (.number Pos.unset (.ofMagnitude 0x3FF0000000000000))
            (.number Pos.unset (.ofMagnitude 0x4000000000000000)))
          (.number Pos.unset (.ofMagnitude 0x3FE0000000000000))),
        .expr (.call Pos.unset (Text.ascii "f") [.string Pos.unset (Text.ascii "it's")])] := by
  let number (m : Nat) : Expr := .number Pos.unset (.ofMagnitude m)
  let t : Block := .mk Pos.unset
    [.assign Pos.unset (Text.ascii "x") (.binary Pos.unset .minus
        (.binary Pos.unset .minus (number 0x3FF0000000000000) (number 0x4000000000000000))
        (number 0x3FE0000000000000)),
      .expr (.call Pos.unset (Text.ascii "f") [.string Pos.unset (Text.ascii "it's")])]
  have hn (m : Nat) (h : m < Double.infinity) : (number m).WellFormed .operand :=
    Double.isLiteral_ofMagnitude h
  have hx : (Text.ascii "x").IsName := ⟨by decide, by decide +kernel, by decide +kernel⟩
  have hf : (Text.ascii "f").IsName := ⟨by decide, by decide +kernel, by decide +kernel⟩
  have hw : t.WellFormed :=
    ⟨⟨hx, .inl rfl, ⟨.inl rfl, hn _ (by decide), hn _ (by decide)⟩, hn _ (by decide)⟩,
      ⟨rfl, hf, ⟨rfl, .inl (by decide)⟩, trivial⟩, trivial⟩
  have hr : t.render = Text.ascii "x=(1-2)-0.5f(\"it's\")" := by decide +kernel
  obtain ⟨root, hc, ht⟩ := (compile_render t).1 hw (by decide) []
  exact ⟨root, hr ▸ hc, ht⟩

end Script

end ScriptEngine
