import ScriptEngine.Proofs.Grammar.Unambiguity
import ScriptEngine.Proofs.Parser.Completeness
import ScriptEngine.Proofs.Parser.Lookahead

/-!
# Whole programs

The parser of programs gives the tree of a derivation when it succeeds, accepts whatever is derivable
and not nested too deep, and rejects a token only if no derivable text has it there. The limit on the
nesting is a parameter here, since what a derivable text could go on with is not bounded by it.
-/

namespace ScriptEngine

variable {σ τ : Type} [TokenSource σ] [TokenSource τ]

namespace Parser

variable {rounds d : Nat} {c c' : Cursor σ} {r : Rejection}

/-- A program nested to at most `d` levels. -/
def programAt (rounds d : Nat) : Parser σ Block := do
  let b ← blockAt rounds d
  if (← current).kind = .endOfInput then
    return b
  else
    unexpected (Text.ascii "statement or end of input")

theorem program_eq (rounds : Nat) :
    (program rounds : Parser σ Block) = programAt rounds nestingLimit := rfl

theorem programAt_yields (rounds d : Nat) (c : Cursor σ) :
    Yields (programAt rounds d) c (fun b ts c' => c'.current.kind = .endOfInput ∧
      ∃ D : Derivation .block, D.tokens = ts ∧ D.tree c'.current.pos = b ∧ D.depth ≤ d)
      (Viable .block) := by
  refine (blockAt_parses rounds d c).bind ?_ fun _ h => h
  rintro _ _ c' - ⟨D, rfl, rfl, hD⟩
  apply yields_current
  split
  · next hk => exact yields_pure ⟨hk, D, by simp, rfl, hD⟩
  · exact yields_unexpected ⟨D, by simp⟩

theorem exists_derivation {ts : List Token} {b : Block} (hr : c.Reads ts c')
    (h : programAt rounds d c = .ok (b, c')) :
    ∃ D : Derivation .block, D.tokens = ts ∧ D.tree c'.current.pos = b ∧ D.depth ≤ d ∧
      c'.current.kind = .endOfInput := by
  have hy := programAt_yields rounds d c
  rw [Yields, h] at hy
  obtain ⟨us, hr', hk, D, rfl, hb, hD⟩ := hy
  exact ⟨D, (hr'.eq_of_index hr rfl).1, hb, hD, hk⟩

theorem programAt_accepts (D : Derivation .block) (hd : D.depth ≤ d)
    (hn : D.tokens.length < rounds) (hr : c.Reads D.tokens c')
    (hk : c'.current.kind = .endOfInput) :
    programAt rounds d c = .ok (D.tree c'.current.pos, c') := by
  have h := blockAt_accepts rounds d D hd hn hr (by rw [hk]; rfl)
  rw [programAt, bind_ok h, current_bind, if_pos hk]
  rfl

theorem programAt_echoes {n rounds' d' : Nat} {L : Prop} (hr : n ≤ rounds) (hr' : n ≤ rounds')
    (hd : d ≤ d') (hL : L → d = d') (c : Cursor σ) :
    Echoes n L (programAt rounds d : Parser σ Block) (programAt rounds' d' : Parser τ Block) c := by
  refine (blockAt_echoes hr hr' hd hL c).bind fun _ _ c₁ => echoes_current fun u hu => ?_
  rw [← hu.kind]
  split
  · exact echoes_pure
  · exact echoes_unexpected

theorem exists_concludes (rounds d : Nat) (c : Cursor σ) :
    ∃ v ts c', Concludes (programAt rounds d) c v ts c' := by
  have h : Echoes 0 False (programAt rounds d) (programAt rounds d : Parser σ Block) c :=
    programAt_echoes (Nat.zero_le _) (Nat.zero_le _) (Nat.le_refl d) nofun c
  obtain ⟨v, ts, c', hc, -⟩ := h
  exact ⟨v, ts, c', hc⟩

/-- Programs of like tokens come to the same end. -/
theorem Concludes.echo {rounds' d' : Nat} {v : Verdict} {ts us : List Token} {e e' : Cursor τ}
    (h : Concludes (programAt rounds d) c v ts c') (hr : c'.seen ts ≤ rounds)
    (hr' : c'.seen ts ≤ rounds') (hd : d ≤ d') (hv : v = .tooDeep → d = d')
    (ha : Alongside ts c' e us e') (hm : v = .missing → ∃ r, advance e' = .error r) :
    Concludes (programAt rounds' d') e v us e' := by
  have hp : Echoes (c'.seen ts) (d = d') (programAt rounds d)
      (programAt rounds' d' : Parser τ Block) c := programAt_echoes hr hr' hd (fun h => h) c
  obtain ⟨w, vs, m, hw, hq⟩ := hp
  obtain ⟨rfl, rfl, rfl⟩ := h.unique hw
  exact hq (Nat.le_refl _) hv ha hm

/-- The same tokens, wherever they come from, make the same program or the same rejection. -/
theorem Concludes.map_eq {v : Verdict} {ts : List Token} {e e' : Cursor τ}
    (h : Concludes (programAt rounds d) c v ts c') (hn : ts.length < rounds) (he : e.Reads ts e')
    (hc : e'.current = c'.current) (hi : e'.index = c'.index)
    (hm : c'.current.kind ≠ .endOfInput → ∀ r, advance c' = .error r → advance e' = .error r) :
    (programAt rounds d e).map Prod.fst = (programAt rounds d c).map Prod.fst := by
  have hs := c'.seen_le_of_lt hn
  have hecho := h.echo hs hs (Nat.le_refl d) (fun _ => rfl) (.of_reads he hc)
  cases h with
  | done hr eb =>
    obtain ⟨D, rfl, rfl, hD, hk⟩ := exists_derivation hr eb
    rw [eb, programAt_accepts D hD hn he (hc ▸ hk), hc]
    rfl
  | unexpected _ er =>
    cases hecho nofun with
    | unexpected _ er' => rw [er, er', hc, hi]; rfl
  | missing _ hk ha er =>
    have ha' := hm hk _ ha
    cases hecho fun _ => ⟨_, ha'⟩ with
    | missing _ _ ha'' er' =>
      rw [ha'] at ha''
      rw [er, er', Except.error.inj ha'']
      rfl

theorem programAt_tracks {rounds' d' : Nat} (hle : rounds ≤ rounds') (hd : d ≤ d') :
    TracksWithin rounds (programAt rounds d : Parser σ Block)
      (programAt rounds' d' : Parser τ Block) := by
  intro c hc
  obtain ⟨v, ts, m, hv⟩ := exists_concludes rounds d c
  have hs := hc.seen_le hv.reads
  have hecho (hdeep : v ≠ .tooDeep) (hmiss : v ≠ .missing) ⦃e e' : Cursor τ⦄ (he : e.Reads ts e')
      (hcur : e'.current = m.current) : Concludes (programAt rounds' d') e v ts e' :=
    hv.echo hs (Nat.le_trans hs hle) hd (fun h => absurd h hdeep) (.of_reads he hcur)
      fun h => absurd h hmiss
  unfold Tracks
  cases hv with
  | done hr eb =>
    rw [eb]
    refine ⟨ts, hr, fun e e' he hcur => ?_⟩
    cases hecho nofun nofun he hcur with
    | done he' eb' =>
      -- The tokens have one derivation, so they make one tree.
      obtain ⟨D, rfl, rfl, -⟩ := exists_derivation hr eb
      obtain ⟨D', ht, rfl, -⟩ := exists_derivation he' eb'
      rw [eb', hcur, Derivation.tokens_injective _ ht]
  | @unexpected _ _ x y hr er =>
    rw [er]
    by_cases hdeep : Verdict.unexpected x y = .tooDeep
    · obtain ⟨rfl, rfl⟩ := Verdict.unexpected.inj hdeep
      exact .inl rfl
    · refine .inr (.inr ⟨ts, m, x, y, hr, rfl, fun e e' he hcur => ?_⟩)
      cases hecho hdeep nofun he hcur with
      | unexpected _ er' => rw [er', hcur]
  | missing hr hk ha er =>
    rw [er]
    exact .inr (.inl ⟨ts, m, hr, hk, ha⟩)

/-- A derivable text is rejected for its depth only. -/
theorem programAt_derivable (hc : c.Within rounds) (D : Derivation .block)
    (hr : c.Reads D.tokens c') (hk : c'.current.kind = .endOfInput) :
    programAt rounds d c = .ok (D.tree c'.current.pos, c') ∨
      ∃ r, programAt rounds d c = .error r ∧ r.isTooDeep := by
  -- With levels enough the text is accepted, and the parser at hand does what that one does.
  have hq : programAt (max rounds (D.tokens.length + 1)) (max d D.depth) c =
      .ok (D.tree c'.current.pos, c') :=
    programAt_accepts D (Nat.le_max_right ..) (by omega) hr hk
  have ht : Tracks (programAt rounds d)
      (programAt (max rounds (D.tokens.length + 1)) (max d D.depth) : Parser σ Block) c :=
    programAt_tracks (Nat.le_max_left ..) (Nat.le_max_left ..) hc
  unfold Tracks at ht
  split at ht
  · next b m e =>
    obtain ⟨ts, hr', htr⟩ := ht
    rw [htr hr' rfl] at hq
    exact .inl (e.trans hq)
  · next r e =>
    rcases ht with h | ⟨ts, m, hr', hm, ha⟩ | ⟨ts, m, x, y, hr', -, htr⟩
    · exact .inr ⟨r, e, h⟩
    · obtain ⟨vs, -, hv⟩ := hr.of_end hk hr'
      cases hv with
      | refl => exact absurd hk hm
      | step _ ha' => rw [ha] at ha'; cases ha'
    · rw [htr hr' rfl] at hq
      cases hq

/-! ## Texts that are not derivable -/

theorem delivers_map_ok (ts : List Token) (rest : List (Except Error Token)) :
    Delivers (ts.map .ok ++ rest) ts rest := by
  induction ts with
  | nil => exact .refl rest
  | cons t ts ih => exact .step rfl ih

/-- Each text can be read, with something after it. -/
theorem exists_reads (ts : List Token) (hts : ∀ t ∈ ts, t.kind ≠ .endOfInput) (last : Token) :
    ∃ e e' : Cursor (List (Except Error Token)), e.Reads ts e' ∧ e'.current = last := by
  obtain ⟨e, e', -, hr, he, -⟩ := Cursor.start_of_delivers (delivers_map_ok (ts ++ [last]) []) hts
  exact ⟨e, e', hr, he⟩

/-- No derivable text has the tokens read with the one that is not wanted after them. -/
theorem not_isPrefix_of_unexpected (hc : c.Within rounds) (h : programAt rounds d c = .error r)
    (hd : ¬ r.isTooDeep) (hs : ∀ m : Cursor σ, advance m ≠ .error r) {ts : List Token}
    (hr : c.Reads ts c') (hi : r.index = c'.index) (D : Derivation .block) {last : Token}
    (hlast : last.kind = .endOfInput) : ¬ ts ++ [c'.current] <+: D.tokens ++ [last] := by
  intro hp
  obtain ⟨e, m, hm, rfl⟩ := exists_reads D.tokens D.kind_ne_end last
  have hq : programAt (max rounds (D.tokens.length + 1)) (max d D.depth) e =
      .ok (D.tree m.current.pos, m) :=
    programAt_accepts D (Nat.le_max_right ..) (by omega) hm hlast
  obtain ⟨e', he, hcur⟩ := hm.of_isPrefix hp
  have ht : Tracks (programAt rounds d) (programAt (max rounds (D.tokens.length + 1))
      (max d D.depth) : Parser (List (Except Error Token)) Block) c :=
    programAt_tracks (Nat.le_max_left ..) (Nat.le_max_left ..) hc
  rw [Tracks, h] at ht
  rcases ht with h' | ⟨_, m', _, _, ha⟩ | ⟨us, m', x, y, hr', hrej, htr⟩
  · exact hd h'
  · exact hs m' ha
  · obtain ⟨rfl, rfl⟩ := hr.eq_of_index hr' (by rw [← hi, hrej])
    rw [htr he hcur] at hq
    cases hq

/-- What a program could go on with is not rejected. -/
theorem programAt_unexpected (hc : c.Within rounds) (h : programAt rounds d c = .error r)
    (hd : ¬ r.isTooDeep) (hs : ∀ m : Cursor σ, advance m ≠ .error r) :
    ∃ ts c', c.Reads ts c' ∧ r.index = c'.index ∧ r.error.pos = c'.current.pos ∧
      Viable .block ts ∧ ∀ (D : Derivation .block) (last : Token), last.kind = .endOfInput →
        ¬ ts ++ [c'.current] <+: D.tokens ++ [last] := by
  have hy := programAt_yields rounds d c
  rw [Yields, h] at hy
  obtain ⟨us, hb, hv⟩ := hy.resolve_left hd
  cases hb with
  | missing _ _ ha => exact absurd ha (hs _)
  | unexpected hr hrej =>
    exact ⟨us, _, hr, by rw [hrej], by rw [hrej]; rfl, hv, fun D last hlast =>
      not_isPrefix_of_unexpected hc h hd hs hr (by rw [hrej]) D hlast⟩

end Parser

end ScriptEngine
