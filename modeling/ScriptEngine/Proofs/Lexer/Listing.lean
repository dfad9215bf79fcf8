import Mathlib.Data.List.Forall2
import ScriptEngine.Proofs.Lexer.Accounting

/-!
# All tokens of a source

`listing` is what a lexer hands out if it is asked until the end of the input or the first fault.
Two tokens of a lexer that agree in kind and text are the same but for their places
(`same_of_delivers`), since the text of a numeral decides its value.
-/

namespace ScriptEngine

namespace Token

/-- The same kind and the same text. -/
structure Alike (t u : Token) : Prop where
  kind : t.kind = u.kind
  lexeme : t.lexeme = u.lexeme

/-- What shows of a token: its kind, its text and its place. -/
def face (t : Token) : TokenKind × Text × Pos := (t.kind, t.lexeme, t.pos)

theorem alike_of_face {t u : Token} (h : t.face = u.face) : t.Alike u :=
  ⟨congrArg (·.1) h, congrArg (·.2.1) h⟩

theorem ne_end_of_alike {ts us : List Token} (h : List.Forall₂ Alike ts us)
    (hts : ∀ t ∈ ts, t.kind ≠ .endOfInput) : ∀ u ∈ us, u.kind ≠ .endOfInput := by
  induction h with
  | nil => simp
  | cons htu _ ih =>
    rw [List.forall_mem_cons] at hts ⊢
    exact ⟨htu.kind ▸ hts.1, ih hts.2⟩

end Token

theorem Spells.same {raw raw' : Text} {t u : Token} (ht : Spells raw t) (hu : Spells raw' u)
    (h : t.Alike u) : t.Same u := by
  refine ⟨h.kind, h.lexeme, fun hk => ?_⟩
  have hk' : u.kind = .number := h.kind ▸ hk
  cases ht with
  | fixed hf => rw [hk] at hf; cases hf
  | name hi => rw [hk] at hi; cases hi
  | string hs => rw [hk] at hs; cases hs
  | number _ hn ht hv =>
    cases hu with
    | fixed hf => rw [hk'] at hf; cases hf
    | name hi => rw [hk'] at hi; cases hi
    | string hs => rw [hk'] at hs; cases hs
    | number _ hn' ht' hv' =>
      obtain rfl := hn.eq_of_text hn' (by rw [ht, ht', h.lexeme])
      exact Option.some.inj (hv.symm.trans hv')

namespace Lexer

variable {lx lx' m m' : Lexer} {t : Token} {ts us : List Token} {e : Error} {n : Nat}

theorem same_of_delivers (h : Delivers lx ts m) (h' : Delivers lx' us m')
    (ha : List.Forall₂ Token.Alike ts us) : List.Forall₂ Token.Same ts us := by
  induction ha generalizing lx lx' with
  | nil => exact .nil
  | @cons t u ts us htu _ ih =>
    cases h with
    | step hn h =>
      cases h' with
      | step hn' h' =>
        refine .cons ?_ (ih h h')
        by_cases hk : t.kind = .endOfInput
        · exact ⟨htu.kind, htu.lexeme, fun he => by rw [hk] at he; cases he⟩
        · obtain ⟨_, hs⟩ := next_spells hn hk
          obtain ⟨_, hs'⟩ := next_spells hn' (htu.kind ▸ hk)
          exact hs.same hs' htu

/-! ## Calls -/

/-- What shows of the results of `n` calls. -/
def faces (n : Nat) (lx : Lexer) : List (Except Error (TokenKind × Text × Pos)) :=
  (lx.calls n).map fun r => r.1.map Token.face

/-- A lexer whose first results look like those of another hands out as many tokens. -/
theorem delivers_of_faces (h : Delivers lx ts m) (hf : lx'.faces ts.length = lx.faces ts.length) :
    ∃ us m', Delivers lx' us m' ∧ List.Forall₂ (fun t u => t.face = u.face) ts us := by
  induction h generalizing lx' with
  | refl => exact ⟨[], lx', .refl _, .nil⟩
  | @step lx m₁ _ t ts hn _ ih =>
    have hn : lx.next = (.ok t, m₁) := hn
    simp only [faces, List.length_cons, calls, List.map_cons, List.cons.injEq, hn] at hf
    obtain ⟨h1, h2⟩ := hf
    cases hn' : lx'.next with
    | mk r m₁' =>
      rw [hn'] at h1 h2
      cases r with
      | error => cases h1
      | ok u =>
        obtain ⟨us, m', hd, hus⟩ := ih h2
        exact ⟨u :: us, m', .step hn' hd, .cons (Except.ok.inj h1).symm hus⟩

/-! ## Listings -/

/-- The results up to the end of the input or the first fault. -/
def listing (lx : Lexer) : List (Except Error Token) :=
  match _ : lx.next with
  | (.error e, _) => [.error e]
  | (.ok t, m) => if _ : t.kind = .endOfInput then [.ok t] else .ok t :: m.listing
termination_by lx.reader.pending.length
decreasing_by exact length_pending_next ‹_› ‹_›

theorem listing_of_ok (h : lx.next = (.ok t, m)) :
    lx.listing = .ok t :: if t.kind = .endOfInput then [] else m.listing := by
  rw [listing]
  split
  · next h' => rw [h] at h'; cases h'
  · next h' =>
    rw [h] at h'
    cases h'
    split <;> rfl

theorem listing_of_error (h : lx.next = (.error e, m)) : lx.listing = [.error e] := by
  rw [listing]
  split
  · next h' => rw [h] at h'; cases h'; rfl
  · next h' => rw [h] at h'; cases h'

theorem listing_of_delivers (h : Delivers lx (ts ++ [t]) m)
    (hts : ∀ u ∈ ts, u.kind ≠ .endOfInput) :
    lx.listing = (ts ++ [t]).map .ok ++ if t.kind = .endOfInput then [] else m.listing := by
  induction ts generalizing lx with
  | nil =>
    cases h with
    | step hn h => cases h; exact listing_of_ok hn
  | cons u us ih =>
    cases h with
    | step hn h =>
      rw [listing_of_ok hn, if_neg (hts u List.mem_cons_self),
        ih h fun v hv => hts v (List.mem_cons_of_mem _ hv)]
      rfl

end Lexer

end ScriptEngine
