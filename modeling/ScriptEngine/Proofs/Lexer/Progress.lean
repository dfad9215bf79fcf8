import ScriptEngine.Proofs.Parser.Lookahead
import ScriptEngine.Token.Lexer

/-!
# Progress of the lexer

Each token but the end of the input takes at least one byte, so a source has no more tokens than
bytes (`start_within`). What goes wrong in a lexer is always lexical.
-/

namespace ScriptEngine

namespace Lexer

variable {lx lx' : Lexer} {t : Token} {e : Error} {b : UInt8} {rest : Text}

/-! ## Blanks -/

theorem pending_begin (lx : Lexer) :
    lx.begin.reader.pending = lx.reader.pending.dropWhile Byte.isBlank := by
  have h := List.takeWhile_append_dropWhile (p := Byte.isBlank) (l := lx.reader.pending)
  simp only [begin, Reader.skipBlanks, Reader.pending_skip]
  calc lx.reader.pending.drop (lx.reader.pending.takeWhile Byte.isBlank).length
      = (lx.reader.pending.takeWhile Byte.isBlank ++
          lx.reader.pending.dropWhile Byte.isBlank).drop
            (lx.reader.pending.takeWhile Byte.isBlank).length := by rw [h]
    _ = lx.reader.pending.dropWhile Byte.isBlank := List.drop_left

theorem length_pending_begin (lx : Lexer) :
    lx.begin.reader.pending.length ≤ lx.reader.pending.length := by
  rw [pending_begin]
  exact (List.dropWhile_suffix _).length_le

/-! ## The four sorts of token -/

theorem next_nil (h : lx.begin.reader.pending = []) : lx.next = lx.begin.emit .endOfInput := by
  simp only [next, h]

theorem next_cons (h : lx.begin.reader.pending = b :: rest) :
    lx.next =
      if Byte.isLetter b then lx.begin.word
      else if Byte.isDigit b then lx.begin.numeral
      else if Byte.isQuote b then lx.begin.quoted b rest
      else lx.begin.symbol b := by
  simp only [next, h]

/-- What holds of the end and of each sort of token holds of whatever comes next. -/
theorem next_cases (P : Except Error Token × Lexer → Prop)
    (nil : lx.begin.reader.pending = [] → P (lx.begin.emit .endOfInput))
    (word : ∀ {b rest}, lx.begin.reader.pending = b :: rest → Byte.isLetter b = true →
      P lx.begin.word)
    (numeral : ∀ {b rest}, lx.begin.reader.pending = b :: rest → Byte.isDigit b = true →
      P lx.begin.numeral)
    (quoted : ∀ {b rest}, lx.begin.reader.pending = b :: rest → Byte.isQuote b = true →
      P (lx.begin.quoted b rest))
    (symbol : ∀ {b rest}, lx.begin.reader.pending = b :: rest → P (lx.begin.symbol b)) :
    P lx.next := by
  cases hp : lx.begin.reader.pending with
  | nil => rw [next_nil hp]; exact nil hp
  | cons b rest =>
    rw [next_cons hp]
    split
    · next hb => exact word hp hb
    · split
      · next hb => exact numeral hp hb
      · split
        · next hb => exact quoted hp hb
        · exact symbol hp

@[simp] theorem pending_take (lx : Lexer) (n : Nat) (t : Text) :
    (lx.take n t).reader.pending = lx.reader.pending.drop n := by
  simp [take]

/-- What becomes of a lexer that stands at a token: it reads some bytes for it, or fails. -/
def Takes (lx : Lexer) (r : Except Error Token × Lexer) : Prop :=
  match r.1 with
  | .ok t => t.kind ≠ .endOfInput → r.2.reader.pending.length < lx.reader.pending.length
  | .error e => ∃ f, e.cause = .lexical f

theorem takes_emit {n : Nat} {s : Text} {k : TokenKind} (hp : lx.reader.pending = b :: rest)
    (hn : 0 < n) : lx.Takes ((lx.take n s).emit k) := by
  intro _
  show (lx.take n s).reader.pending.length < lx.reader.pending.length
  rw [pending_take, List.length_drop, hp, List.length_cons]
  omega

theorem word_takes (hp : lx.reader.pending = b :: rest) (hb : Byte.isLetter b = true) :
    lx.Takes lx.word :=
  takes_emit hp (by simp [hp, hb])

theorem length_scan_pos (h : Byte.isDigit b = true) :
    0 < (Numeral.scan (b :: rest)).text.length := by
  have hw : 0 < (Numeral.scan (b :: rest)).whole.length := by
    unfold Numeral.scan
    simp only [List.takeWhile_cons, h, if_true]
    split <;> simp
  unfold Numeral.text
  split
  · exact hw
  · rw [List.length_append]; omega

theorem numeral_takes (hp : lx.reader.pending = b :: rest) (hb : Byte.isDigit b = true) :
    lx.Takes lx.numeral := by
  unfold numeral
  simp only
  split
  · exact ⟨_, rfl⟩
  · split
    · exact takes_emit (s := (Numeral.scan lx.reader.pending).text) (k := .number) hp
        (by rw [hp]; exact length_scan_pos hb)
    · exact ⟨_, rfl⟩

theorem quoted_takes (hp : lx.reader.pending = b :: rest) : lx.Takes (lx.quoted b rest) := by
  unfold quoted
  simp only
  split
  · exact takes_emit hp (by omega)
  · exact ⟨_, rfl⟩

theorem length_fixedText_pos {k : TokenKind} (h : k ∈ symbols) :
    0 < (k.fixedText?.getD []).length := by
  revert h; cases k <;> decide

theorem symbol_takes (hp : lx.reader.pending = b :: rest) : lx.Takes (lx.symbol b) := by
  unfold symbol
  split
  · next k hk => exact takes_emit hp (length_fixedText_pos (List.mem_of_find?_eq_some hk))
  · exact ⟨_, rfl⟩

theorem next_takes (lx : Lexer) : lx.Takes lx.next := by
  have hle := lx.length_pending_begin
  have h : lx.begin.Takes lx.next :=
    next_cases lx.begin.Takes (fun _ hk => absurd rfl hk) (fun hp hb => word_takes hp hb)
      (fun hp hb => numeral_takes hp hb) (fun hp _ => quoted_takes hp) (fun hp => symbol_takes hp)
  unfold Takes at h ⊢
  split at h
  · exact fun hk => Nat.lt_of_lt_of_le (h hk) hle
  · exact h

theorem length_pending_next (h : lx.next = (.ok t, lx')) (hk : t.kind ≠ .endOfInput) :
    lx'.reader.pending.length < lx.reader.pending.length := by
  have := lx.next_takes
  rw [h] at this
  exact this hk

/-- What goes wrong is lexical. -/
theorem next_error (h : lx.next = (.error e, lx')) : ∃ f, e.cause = .lexical f := by
  have := lx.next_takes
  rw [h] at this
  exact this

theorem start_error {r : Rejection} (h : Cursor.start lx = .error r) :
    ∃ f, r.error.cause = .lexical f := by
  unfold Cursor.start at h
  split at h
  · cases h
  · next hn => cases h; exact next_error hn

theorem advance_error {c : Cursor Lexer} {r : Rejection} (h : Parser.advance c = .error r) :
    ∃ f, r.error.cause = .lexical f := by
  unfold Parser.advance at h
  split at h
  · cases h
  · next hn => cases h; exact next_error hn

/-! ## Whole sources -/

theorem length_of_reads {c c' : Cursor Lexer} {ts : List Token} (h : c.Reads ts c')
    (hk : c'.current.kind ≠ .endOfInput) : ts.length ≤ c.source.reader.pending.length := by
  induction h with
  | refl => exact Nat.zero_le _
  | step _ ha h ih =>
    have := length_pending_next (Parser.advance_ok ha).1 (h.current_ne_end hk)
    have := ih hk
    rw [List.length_cons]
    omega

/-- A source has no more tokens than bytes. -/
theorem start_within {file source : Text} {c : Cursor Lexer}
    (h : Cursor.start (Lexer.start file source true) = .ok c) : c.Within source.length := by
  intro ts c' hr hk
  have h1 : c.source.reader.pending.length < source.length :=
    length_pending_next (Cursor.start_ok h).1 (hr.current_ne_end hk)
  have h2 := length_of_reads hr hk
  omega

end Lexer

end ScriptEngine
