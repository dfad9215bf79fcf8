import ScriptEngine.Proofs.Lexer.Window
import ScriptEngine.Token.Scanner

/-!
# The scanner and the lexer

A scanner that reads a stream byte by byte gives the answers of the lexer, which has the whole text
before it (`Scanner.Mirrors.answers_eq`). A scanner mirrors a lexer if it holds the first of the bytes
that are ahead, and the stream will give the others: the bits of a stream that has failed make its
content as good as read to the end (`Stream.unread`).
-/

namespace ScriptEngine

/-! ## What a stream will give -/

namespace Stream

variable {s : Stream} {b : UInt8} {rest : Text}

def unread (s : Stream) : Text := if s.isGood then s.content.drop s.offset else []

theorem get_of_unread_cons (h : s.unread = b :: rest) :
    s.get = (some b, { s with offset := s.offset + 1 }) ∧
      unread { s with offset := s.offset + 1 } = rest := by
  unfold unread at h
  split at h
  · next hgood =>
    have hb : s.content[s.offset]? = some b := by rw [← List.head?_drop, h, List.head?_cons]
    refine ⟨by rw [get, if_pos hgood, hb], ?_⟩
    have hgood' : isGood { s with offset := s.offset + 1 } = true := hgood
    rw [unread, if_pos hgood', ← List.tail_drop, h, List.tail_cons]
  · cases h

theorem get_of_unread_nil (h : s.unread = []) : s.get.1 = none ∧ s.get.2.unread = [] := by
  unfold get
  split
  · next hgood =>
    rw [unread, if_pos hgood] at h
    rw [← List.head?_drop, h]
    exact ⟨rfl, rfl⟩
  · exact ⟨rfl, by simp [unread, isGood]⟩

theorem get_frame (s : Stream) : s.get.2.content = s.content ∧ s.get.2.seekable = s.seekable := by
  unfold get
  split
  · split <;> exact ⟨rfl, rfl⟩
  · exact ⟨rfl, rfl⟩

/-- What it has given and will give. -/
def input (s : Stream) : Text := s.content.take s.offset ++ s.unread

theorem input_of_isGood (h : s.isGood = true) : s.input = s.content := by
  rw [input, unread, if_pos h, List.take_append_drop]

theorem input_get (s : Stream) : s.get.2.input = s.input := by
  unfold get
  split
  · next hgood =>
    rw [input_of_isGood hgood]
    split
    · exact input_of_isGood (s := { s with offset := s.offset + 1 }) hgood
    · next hend =>
      have hall : s.content.take s.offset = s.content :=
        List.take_of_length_le (List.getElem?_eq_none_iff.mp hend)
      show s.content.take s.offset ++ [] = s.content
      rw [hall, List.append_nil]
  · next hbad =>
    rw [input, input, unread, unread, if_neg hbad, if_neg (by simp [isGood])]

end Stream

/-! ## Places further on -/

namespace Lexer

variable {lx : Lexer} {b : UInt8} {rest : Text}

theorem take_take (lx : Lexer) (m n : Nat) (s t : Text) : (lx.take m s).take n t = lx.take (m + n) t := by
  simp [Lexer.take, Reader.skip_add]

theorem pending_take_one (hb : lx.reader.pending = b :: rest) (text : Text) :
    (lx.take 1 text).reader.pending = rest := by
  rw [pending_take, hb]
  rfl

/-- Where the lexer stands when it has read past a byte. -/
theorem here_take_one (hp : lx.primed = true) (hb : lx.reader.pending = b :: rest) (text : Text) :
    (lx.take 1 text).here =
      let pos := if b = Byte.newline then ⟨lx.here.line + 1, 0, lx.here.file⟩ else lx.here
      ⟨pos.line, if rest.isEmpty then pos.column else pos.column + 1, pos.file⟩ := by
  obtain ⟨file, source, seekable, ⟨pending, line, before⟩, primed, lexeme, value, tokenPos⟩ := lx
  cases hp
  cases hb
  simp only [here, take, Reader.skip, if_true]
  split <;> cases rest <;> simp [Reader.column]

/-- After the bytes that have the property. -/
theorem pending_take_takeWhile (lx : Lexer) (p : UInt8 → Bool) (text : Text) :
    (lx.take (lx.reader.pending.takeWhile p).length text).reader.pending =
      lx.reader.pending.dropWhile p := by
  rw [pending_take]
  calc lx.reader.pending.drop (lx.reader.pending.takeWhile p).length
    _ = (lx.reader.pending.takeWhile p ++ lx.reader.pending.dropWhile p).drop
          (lx.reader.pending.takeWhile p).length := by rw [List.takeWhile_append_dropWhile]
    _ = lx.reader.pending.dropWhile p := List.drop_left

theorem here_cutShort (lx : Lexer) : lx.cutShort.here = lx.here := by
  cases hp : lx.primed with
  | true =>
    simp only [here, cutShort, hp, if_true, Reader.column]
    cases lx.reader.pending <;> simp
  | false => simp [here, cutShort, hp]

end Lexer

theorem Numeral.scan_text_scan (input : Text) :
    Numeral.scan (Numeral.scan input).text = Numeral.scan input := by
  have h : Numeral.scan ((Numeral.scan input).text ++ []) = Numeral.scan input :=
    Numeral.scan_text_of_isDigits (Numeral.isDigits_whole_scan input)
      (Numeral.isDigits_fraction_scan input) (by simp [Numeral.EndsBefore])
  rwa [List.append_nil] at h

theorem Text.any_head?_isDigit (s : Text) :
    s.head?.any Byte.isDigit = !(s.takeWhile Byte.isDigit).isEmpty := by
  cases s with
  | nil => rfl
  | cons b s => cases hb : Byte.isDigit b <;> simp [hb]

/-! ## Bytes in a row -/

namespace Scanner

/-- The scanner is where the lexer is, and shows what it shows. What it has read and will read is
`input`. -/
structure Mirrors (input : Text) (sc : Scanner) (lx : Lexer) : Prop where
  input : sc.stream.input = input
  source : sc.stream.content = lx.source
  seekable : sc.stream.seekable = lx.seekable
  held : sc.held = if lx.primed then lx.reader.pending.head? else some Byte.space
  unread : sc.stream.unread = if lx.primed then lx.reader.pending.tail else lx.reader.pending
  pos : sc.pos = lx.here
  tokenPos : sc.tokenPos = lx.tokenPos
  lexeme : sc.lexeme = lx.lexeme
  value : sc.value = lx.value

variable {sc : Scanner} {lx : Lexer} {b : UInt8} {rest input : Text} {p : UInt8 → Bool}

theorem start_mirrors (file source : Text) (seekable : Bool) :
    (start file source seekable).Mirrors source (Lexer.start file source seekable) :=
  ⟨rfl, rfl, rfl, rfl, rfl, rfl, rfl, rfl, rfl⟩

theorem Mirrors.held_eq (h : sc.Mirrors input lx) (hp : lx.primed = true) :
    sc.held = lx.reader.pending.head? := by
  rw [h.held, if_pos hp]

theorem Mirrors.held_of_cons (h : sc.Mirrors input lx) (hp : lx.primed = true)
    (hb : lx.reader.pending = b :: rest) : sc.held = some b := by
  rw [h.held_eq hp, hb, List.head?_cons]

theorem Mirrors.byte_of_cons (h : sc.Mirrors input lx) (hp : lx.primed = true)
    (hb : lx.reader.pending = b :: rest) : sc.byte = b := by
  rw [byte, h.held_of_cons hp hb, Option.getD_some]

/-- What the scanner holds and where, after it has read what the stream gives. -/
theorem advance_reads (sc : Scanner) :
    sc.advance.held = sc.stream.unread.head? ∧ sc.advance.stream.unread = sc.stream.unread.tail ∧
    sc.advance.pos =
      let pos := if sc.held = some Byte.newline then ⟨sc.pos.line + 1, 0, sc.pos.file⟩ else sc.pos
      ⟨pos.line, if sc.stream.unread.isEmpty then pos.column else pos.column + 1, pos.file⟩ := by
  cases hu : sc.stream.unread with
  | nil =>
    obtain ⟨hget, hrest⟩ := Stream.get_of_unread_nil hu
    simp [advance, hget, hrest]
  | cons b rest =>
    obtain ⟨hget, hrest⟩ := Stream.get_of_unread_cons hu
    simp [advance, hget, hrest]

theorem advance_frame (sc : Scanner) :
    sc.advance.stream.input = sc.stream.input ∧ sc.advance.stream.content = sc.stream.content ∧
    sc.advance.stream.seekable = sc.stream.seekable ∧ sc.advance.tokenPos = sc.tokenPos ∧
    sc.advance.lexeme = sc.lexeme ∧ sc.advance.value = sc.value :=
  ⟨sc.stream.input_get, sc.stream.get_frame.1, sc.stream.get_frame.2, rfl, rfl, rfl⟩

/-- The scanner at the next byte. -/
theorem Mirrors.advance (h : sc.Mirrors input lx) (hp : lx.primed = true)
    (hb : lx.reader.pending = b :: rest) : sc.advance.Mirrors input (lx.take 1 lx.lexeme) := by
  obtain ⟨hheld, hunread, hpos⟩ := sc.advance_reads
  obtain ⟨hinput, hcontent, hseekable, htoken, hlexeme, hvalue⟩ := sc.advance_frame
  have hrest : sc.stream.unread = rest := by rw [h.unread, if_pos hp, hb, List.tail_cons]
  have hp' : (lx.take 1 lx.lexeme).primed = true := hp
  have hpending := Lexer.pending_take_one hb lx.lexeme
  refine ⟨hinput.trans h.input, hcontent.trans h.source, hseekable.trans h.seekable, ?_, ?_, ?_,
    htoken.trans h.tokenPos, hlexeme.trans h.lexeme, hvalue.trans h.value⟩
  · rw [hheld, hrest, if_pos hp', hpending]
  · rw [hunread, hrest, if_pos hp', hpending]
  · rw [hpos, Lexer.here_take_one hp hb, hrest, h.held_of_cons hp hb, h.pos]
    simp only [Option.some.injEq]

/-- The scanner at the first byte. -/
theorem Mirrors.advance_fresh (h : sc.Mirrors input lx) (hp : lx.primed = false) :
    sc.advance.Mirrors input { lx with primed := true } := by
  obtain ⟨hheld, hunread, hpos⟩ := sc.advance_reads
  obtain ⟨hinput, hcontent, hseekable, htoken, hlexeme, hvalue⟩ := sc.advance_frame
  have hrest : sc.stream.unread = lx.reader.pending := by simpa [hp] using h.unread
  have hheld' : sc.held = some Byte.space := by simpa [hp] using h.held
  have hspace : ¬ some Byte.space = some Byte.newline := by decide
  refine ⟨hinput.trans h.input, hcontent.trans h.source, hseekable.trans h.seekable, ?_, ?_, ?_,
    htoken.trans h.tokenPos, hlexeme.trans h.lexeme, hvalue.trans h.value⟩
  · rw [hheld, hrest, if_pos rfl]
  · rw [hunread, hrest, if_pos rfl]
  · rw [hpos, hrest, hheld', if_neg hspace, h.pos]
    simp only [Lexer.here, hp, Reader.column, if_true, Bool.false_eq_true, if_false]
    cases lx.reader.pending <;> simp

theorem Mirrors.withLexeme (h : sc.Mirrors input lx) (text : Text) :
    { sc with lexeme := text }.Mirrors input { lx with lexeme := text } :=
  ⟨h.input, h.source, h.seekable, h.held, h.unread, h.pos, h.tokenPos, rfl, h.value⟩

theorem Mirrors.push (h : sc.Mirrors input lx) (hp : lx.primed = true)
    (hb : lx.reader.pending = b :: rest) : sc.push.Mirrors input (lx.take 1 (lx.lexeme ++ [b])) := by
  rw [Scanner.push, h.lexeme, h.byte_of_cons hp hb]
  exact (h.withLexeme (lx.lexeme ++ [b])).advance hp hb

theorem skipWhile_of_true (hb : sc.held = some b) (h : p b = true) :
    sc.skipWhile p = sc.advance.skipWhile p := by
  rw [skipWhile]
  split
  · next c hc =>
    cases hb.symm.trans hc
    rw [if_pos h]
  · next hc => cases hb.symm.trans hc

theorem skipWhile_of_false (h : ∀ b ∈ sc.held, p b = false) : sc.skipWhile p = sc := by
  rw [skipWhile]
  split
  · next b hb => rw [if_neg (by simp [h b hb])]
  · rfl

theorem pushWhile_of_true (hb : sc.held = some b) (h : p b = true) :
    sc.pushWhile p = sc.push.pushWhile p := by
  rw [pushWhile]
  split
  · next c hc =>
    cases hb.symm.trans hc
    rw [if_pos h]
  · next hc => cases hb.symm.trans hc

theorem pushWhile_of_false (h : ∀ b ∈ sc.held, p b = false) : sc.pushWhile p = sc := by
  rw [pushWhile]
  split
  · next b hb => rw [if_neg (by simp [h b hb])]
  · rfl

/-- The scanner skips what the lexer skips. -/
theorem Mirrors.skipWhile (h : sc.Mirrors input lx) (hp : lx.primed = true) (p : UInt8 → Bool) :
    (sc.skipWhile p).Mirrors input (lx.take (lx.reader.pending.takeWhile p).length lx.lexeme) := by
  generalize hpending : lx.reader.pending = pending
  -- The induction is on the bytes ahead of the lexer: the scanner has one of them less after a step.
  induction pending generalizing sc lx with
  | nil =>
    rw [skipWhile_of_false (by simp [h.held_eq hp, hpending])]
    exact h
  | cons b rest ih =>
    have hheld := h.held_of_cons hp hpending
    cases hb : p b with
    | true =>
      rw [skipWhile_of_true hheld hb, List.takeWhile_cons_of_pos hb, List.length_cons, Nat.add_comm,
        ← Lexer.take_take lx 1 _ lx.lexeme]
      exact ih (h.advance hp hpending) hp (Lexer.pending_take_one hpending _)
    | false =>
      rw [skipWhile_of_false (by simp [hheld, hb]), List.takeWhile_cons_of_neg (by simp [hb])]
      exact h

/-- The scanner takes what the lexer takes. -/
theorem Mirrors.pushWhile (h : sc.Mirrors input lx) (hp : lx.primed = true) (p : UInt8 → Bool) :
    (sc.pushWhile p).Mirrors input (lx.take (lx.reader.pending.takeWhile p).length
      (lx.lexeme ++ lx.reader.pending.takeWhile p)) := by
  generalize hpending : lx.reader.pending = pending
  induction pending generalizing sc lx with
  | nil =>
    rw [pushWhile_of_false (by simp [h.held_eq hp, hpending]), List.takeWhile_nil, List.append_nil]
    exact h
  | cons b rest ih =>
    have hheld := h.held_of_cons hp hpending
    cases hb : p b with
    | true =>
      have := ih (h.push hp hpending) hp (Lexer.pending_take_one hpending _)
      rw [Lexer.take_take] at this
      rw [pushWhile_of_true hheld hb, List.takeWhile_cons_of_pos hb, List.length_cons, Nat.add_comm]
      simpa [Lexer.take] using this
    | false =>
      rw [pushWhile_of_false (by simp [hheld, hb]), List.takeWhile_cons_of_neg (by simp [hb]),
        List.append_nil]
      exact h

/-! ## Tokens -/

/-- A scanner and a lexer give the same and go on alike. -/
structure Agree (input : Text) (r : Except Error Token × Scanner) (r' : Except Error Token × Lexer) :
    Prop where
  result : r.1 = r'.1
  mirrors : r.2.Mirrors input r'.2

theorem Mirrors.emit (h : sc.Mirrors input lx) (k : TokenKind) : Agree input (sc.emit k) (lx.emit k) := by
  refine ⟨?_, h⟩
  rw [Scanner.emit, Lexer.emit, h.lexeme, h.value, h.tokenPos]

theorem Mirrors.fail (h : sc.Mirrors input lx) (fault : LexFault) (pos : Pos) :
    Agree input (sc.fail fault pos) (lx.fail fault pos) :=
  ⟨rfl, h⟩

theorem Mirrors.withValue (h : sc.Mirrors input lx) (x : Double) :
    { sc with value := x }.Mirrors input { lx with value := x } :=
  ⟨h.input, h.source, h.seekable, h.held, h.unread, h.pos, h.tokenPos, h.lexeme, rfl⟩

theorem Mirrors.begin (h : sc.Mirrors input lx) : sc.begin.Mirrors input lx.begin := by
  let begun := ({ sc with lexeme := [] } : Scanner).skipWhile Byte.isBlank
  have hbegun : begun.Mirrors input
      { lx with reader := lx.reader.skipBlanks, primed := true, lexeme := [] } := by
    cases hp : lx.primed with
    | true =>
      have hskip := (h.withLexeme []).skipWhile hp Byte.isBlank
      rwa [Lexer.take, hp] at hskip
    | false =>
      -- The blank that the scanner holds at first is not in the source.
      have hheld : ({ sc with lexeme := [] } : Scanner).held = some Byte.space := by
        simpa [hp] using h.held
      have hfirst : begun = ({ sc with lexeme := [] } : Scanner).advance.skipWhile Byte.isBlank :=
        skipWhile_of_true hheld (by decide)
      rw [hfirst]
      exact ((h.withLexeme []).advance_fresh hp).skipWhile rfl Byte.isBlank
  exact ⟨hbegun.input, hbegun.source, hbegun.seekable, hbegun.held, hbegun.unread, hbegun.pos,
    hbegun.pos, hbegun.lexeme, hbegun.value⟩

theorem Mirrors.word (h : sc.Mirrors input lx) (hp : lx.primed = true) (hl : lx.lexeme = []) :
    Agree input sc.word lx.word := by
  have hword := h.pushWhile hp Byte.isLetter
  rw [hl, List.nil_append] at hword
  rw [Scanner.word, hword.lexeme]
  exact hword.emit _

/-- A numeral that has been taken is complete. -/
theorem number_agrees {n : Numeral} (hn : Numeral.scan lx.reader.pending = n)
    (he : n.endsInPoint = false) (h : sc.Mirrors input (lx.take n.text.length n.text)) :
    Agree input sc.number lx.numeral := by
  have hscan : Numeral.scan sc.lexeme = n := by
    rw [h.lexeme, ← hn]
    exact Numeral.scan_text_scan _
  unfold Scanner.number Lexer.numeral
  simp only [hscan, hn, he, Bool.false_eq_true, if_false]
  cases n.value? with
  | some x => exact (h.withValue x).emit .number
  | none =>
    rw [h.lexeme, h.tokenPos]
    exact h.fail _ _

/-- What follows the digits before a point. -/
theorem Mirrors.fraction {whole : Text} (h : sc.Mirrors input (lx.take whole.length whole))
    (hp : lx.primed = true) (hrest : (lx.take whole.length whole).reader.pending = Byte.point :: rest) :
    sc.push.Mirrors input (lx.take (whole ++ [Byte.point]).length (whole ++ [Byte.point])) ∧
    sc.push.held = rest.head? ∧
    (sc.push.pushWhile Byte.isDigit).Mirrors input
      (lx.take (whole ++ Byte.point :: rest.takeWhile Byte.isDigit).length
        (whole ++ Byte.point :: rest.takeWhile Byte.isDigit)) := by
  have hpoint : sc.push.Mirrors input ((lx.take whole.length whole).take 1 (whole ++ [Byte.point])) :=
    h.push hp hrest
  have hpending := Lexer.pending_take_one hrest (whole ++ [Byte.point])
  have hheld := hpoint.held_eq hp
  have hdigits := hpoint.pushWhile hp Byte.isDigit
  rw [hpending] at hheld hdigits
  rw [Lexer.take_take] at hpoint hdigits
  refine ⟨by rwa [List.length_append], hheld, ?_⟩
  have hcount : (whole ++ Byte.point :: rest.takeWhile Byte.isDigit).length =
      whole.length + (1 + (rest.takeWhile Byte.isDigit).length) := by
    simp [Nat.add_comm]
  rw [Lexer.take_take] at hdigits
  rw [hcount, List.append_cons]
  exact hdigits

theorem Mirrors.numeral (h : sc.Mirrors input lx) (hp : lx.primed = true) (hl : lx.lexeme = []) :
    Agree input sc.numeral lx.numeral := by
  have hwhole := h.pushWhile hp Byte.isDigit
  rw [hl, List.nil_append] at hwhole
  have hrest := Lexer.pending_take_takeWhile lx Byte.isDigit (lx.reader.pending.takeWhile Byte.isDigit)
  have hheld := hwhole.held_eq hp
  rw [hrest] at hheld
  dsimp only [Scanner.numeral]
  by_cases hpoint : (lx.reader.pending.dropWhile Byte.isDigit).head? = some Byte.point
  · obtain ⟨tail, hd⟩ := List.head?_eq_some_iff.mp hpoint
    rw [hd] at hrest
    have hn : Numeral.scan lx.reader.pending =
        ⟨lx.reader.pending.takeWhile Byte.isDigit, some (tail.takeWhile Byte.isDigit)⟩ := by
      rw [Numeral.scan, hd]
      rfl
    obtain ⟨hpush, hnext, hdigits⟩ := hwhole.fraction hp hrest
    rw [if_pos (hheld.trans hpoint), hnext, Text.any_head?_isDigit]
    cases hds : tail.takeWhile Byte.isDigit with
    | nil =>
      rw [hds] at hn
      rw [hpush.lexeme, hpush.pos, Lexer.numeral, hn]
      exact hpush.fail _ _
    | cons d ds =>
      rw [hds] at hn hdigits
      exact number_agrees hn rfl hdigits
  · have hn : Numeral.scan lx.reader.pending = ⟨lx.reader.pending.takeWhile Byte.isDigit, none⟩ := by
      unfold Numeral.scan
      cases hd : lx.reader.pending.dropWhile Byte.isDigit with
      | nil => rfl
      | cons c tail =>
        rw [hd] at hpoint
        simp only [if_neg (fun hc : c = Byte.point => hpoint (congrArg some hc))]
    rw [if_neg (hheld ▸ hpoint)]
    exact number_agrees hn rfl hwhole

theorem Mirrors.quoted (h : sc.Mirrors input lx) (hp : lx.primed = true) (hl : lx.lexeme = [])
    (hb : lx.reader.pending = b :: rest) : Agree input (sc.quoted b) (lx.quoted b rest) := by
  have hopen := h.advance hp hb
  have hpending := Lexer.pending_take_one hb lx.lexeme
  have htext := hopen.pushWhile hp (· != b)
  have hrest := Lexer.pending_take_takeWhile (lx.take 1 lx.lexeme) (· != b) (rest.takeWhile (· != b))
  rw [hpending, show (lx.take 1 lx.lexeme).lexeme = [] from hl, List.nil_append] at htext
  rw [hpending] at hrest
  have hheld := htext.held_eq hp
  rw [hrest] at hheld
  dsimp only [Scanner.quoted, Lexer.quoted]
  have hlength : (rest.takeWhile (· != b)).length + (rest.dropWhile (· != b)).length = rest.length := by
    rw [← List.length_append, List.takeWhile_append_dropWhile]
  cases hd : rest.dropWhile (· != b) with
  | nil =>
    rw [hd] at hheld hlength
    rw [if_neg (by simp [hheld]), if_neg (by simp at hlength; omega), htext.tokenPos]
    rw [Lexer.take_take, Nat.add_comm] at htext
    exact htext.fail _ _
  | cons c tail =>
    have hc : c = b := by
      have := List.head?_dropWhile_not (· != b) rest
      simpa [hd] using this
    subst hc
    rw [hd] at hheld hrest hlength
    rw [if_pos (hheld.trans List.head?_cons), if_pos (by simp at hlength; omega)]
    have hclose := htext.advance hp hrest
    rw [Lexer.take_take, Lexer.take_take] at hclose
    have hcount : 1 + ((rest.takeWhile (· != c)).length + 1) = (rest.takeWhile (· != c)).length + 2 := by
      omega
    rw [hcount] at hclose
    exact hclose.emit .string

/-! ## Operators -/

theorem operatorFrom_of_isPrefix {found : Option TokenKind} (hheld : sc.held.isSome = true)
    (h : operators.any (fun k => (sc.lexeme ++ [sc.byte]).isPrefixOf (k.fixedText?.getD [])) = true) :
    sc.operatorFrom found = sc.push.operatorFrom
      ((operators.find? (·.fixedText? == some (sc.lexeme ++ [sc.byte]))).or found) := by
  rw [operatorFrom]
  split
  · rw [if_pos h]
  · next hnone =>
    rw [hnone] at hheld
    cases hheld

theorem operatorFrom_of_not_isPrefix {found : Option TokenKind}
    (h : operators.any (fun k => (sc.lexeme ++ [sc.byte]).isPrefixOf (k.fixedText?.getD [])) = false) :
    sc.operatorFrom found = (found, sc) := by
  have hnone : operators.find? (·.fixedText? == some (sc.lexeme ++ [sc.byte])) = none := by
    rw [List.any_eq_false] at h
    refine List.find?_eq_none.mpr fun k hk hfixed => h k hk ?_
    rw [eq_of_beq hfixed, Option.getD_some]
    exact List.isPrefixOf_iff_prefix.mpr (List.prefix_refl _)
  rw [operatorFrom, hnone, Option.none_or]
  split
  · rw [if_neg (by simp only [h]; exact Bool.false_ne_true)]
  · rfl

/-- Takes a byte with which an operator goes on. -/
theorem Mirrors.operator_step (h : sc.Mirrors input lx) (hp : lx.primed = true)
    (hb : lx.reader.pending = b :: rest)
    (hpre : operators.any (fun k => (lx.lexeme ++ [b]).isPrefixOf (k.fixedText?.getD [])) = true)
    (found : Option TokenKind) :
    sc.operatorFrom found = sc.push.operatorFrom
      ((operators.find? (·.fixedText? == some (lx.lexeme ++ [b]))).or found) ∧
    sc.push.Mirrors input (lx.take 1 (lx.lexeme ++ [b])) := by
  have hbyte := h.byte_of_cons hp hb
  have hsome : sc.held.isSome = true := by rw [h.held_of_cons hp hb, Option.isSome_some]
  have hpre' : operators.any
      (fun k => (sc.lexeme ++ [sc.byte]).isPrefixOf (k.fixedText?.getD [])) = true := by
    rwa [h.lexeme, hbyte]
  rw [operatorFrom_of_isPrefix hsome hpre', h.lexeme, hbyte]
  exact ⟨rfl, h.push hp hb⟩

/-- Stops at a byte with which no operator goes on, or at the end. -/
theorem Mirrors.operator_stop (h : sc.Mirrors input lx) (hp : lx.primed = true)
    (hpre : ∀ b, b = lx.reader.pending.head?.getD 255 →
      operators.any (fun k => (lx.lexeme ++ [b]).isPrefixOf (k.fixedText?.getD [])) = false)
    (found : Option TokenKind) : sc.operatorFrom found = (found, sc) := by
  have hbyte : sc.byte = lx.reader.pending.head?.getD 255 := by rw [byte, h.held_eq hp]
  refine operatorFrom_of_not_isPrefix ?_
  rw [h.lexeme]
  exact hpre _ hbyte

/-- Takes the bytes of an operator. -/
theorem Mirrors.operatorFrom_append (h : sc.Mirrors input lx) (hp : lx.primed = true) {k : TokenKind}
    (hk : k ∈ operators) {text taken : Text} (hfixed : k.fixedText? = some text)
    (hb : lx.reader.pending = taken ++ rest) (htext : lx.lexeme ++ taken = text)
    (found : Option TokenKind) :
    ∃ sc' : Scanner, sc.operatorFrom found = sc'.operatorFrom (if taken = [] then found else some k) ∧
      sc'.Mirrors input (lx.take taken.length text) := by
  induction taken generalizing sc lx found with
  | nil =>
    rw [List.append_nil] at htext
    subst htext
    exact ⟨sc, rfl, h⟩
  | cons b taken ih =>
    have hpre : operators.any (fun k => (lx.lexeme ++ [b]).isPrefixOf (k.fixedText?.getD [])) = true := by
      refine List.any_eq_true.mpr ⟨k, hk, List.isPrefixOf_iff_prefix.mpr ⟨taken, ?_⟩⟩
      rw [hfixed, Option.getD_some, ← htext, List.append_assoc]
      rfl
    obtain ⟨hstep, hpush⟩ := h.operator_step hp hb hpre found
    have hrest := Lexer.pending_take_one hb (lx.lexeme ++ [b])
    have htext' : (lx.take 1 (lx.lexeme ++ [b])).lexeme ++ taken = text := by
      rw [← htext]
      exact (List.append_cons lx.lexeme b taken).symm
    obtain ⟨sc', hloop, hmirrors⟩ := ih hpush hp hrest htext'
      ((operators.find? (·.fixedText? == some (lx.lexeme ++ [b]))).or found)
    rw [Lexer.take_take] at hmirrors
    refine ⟨sc', ?_, by rwa [List.length_cons, Nat.add_comm]⟩
    rw [hstep, hloop, if_neg (List.cons_ne_nil b taken)]
    split
    · next hnil =>
      -- The last byte makes the text complete.
      subst hnil
      have hfind : ∀ k ∈ operators, ∀ t ∈ k.fixedText?,
          operators.find? (·.fixedText? == some t) = some k := by decide +kernel
      rw [htext, hfind k hk text hfixed, Option.some_or]
    · rfl

/-- No operator goes on where the lexer sees one end. -/
theorem any_isPrefix_of_stopsAt {k : TokenKind} (hk : k ∈ operators) {text : Text}
    (hfixed : k.fixedText? = some text) (h : ∀ c ∈ rest.head?, k.stopsAt c = true) :
    operators.any (fun k => (text ++ [rest.head?.getD 255]).isPrefixOf (k.fixedText?.getD [])) = false := by
  have hlonger : ∀ k ∈ operators, ∀ t ∈ k.fixedText?, ∀ k' ∈ operators, ∀ c ∈ k'.fixedText?.getD [],
      (t ++ [c]).isPrefixOf (k'.fixedText?.getD []) = true → c ≠ 255 ∧ k.stopsAt c = false := by
    decide +kernel
  refine List.any_eq_false.mpr fun k' hk' hpre => ?_
  have hmem := (List.isPrefixOf_iff_prefix.mp hpre).subset (List.mem_append_right _ List.mem_cons_self)
  obtain ⟨hne, hstop⟩ := hlonger k hk text hfixed k' hk' _ hmem hpre
  cases hrest : rest.head? with
  | none =>
    rw [hrest] at hne
    exact hne rfl
  | some c =>
    rw [hrest, Option.getD_some, h c hrest] at hstop
    cases hstop

theorem Mirrors.operator (h : sc.Mirrors input lx) (hp : lx.primed = true) (hl : lx.lexeme = [])
    {k : TokenKind} (hk : k ∈ operators) {text : Text} (hfixed : k.fixedText? = some text)
    (hb : lx.reader.pending = text ++ rest) (hstop : ∀ c ∈ rest.head?, k.stopsAt c = true) :
    Agree input sc.operator ((lx.take text.length text).emit k) := by
  have hne : text ≠ [] := by
    rintro rfl
    revert hfixed
    exact (by decide +kernel : ∀ k ∈ operators, k.fixedText? ≠ some []) k hk
  obtain ⟨sc', hloop, hmirrors⟩ := h.operatorFrom_append hp hk hfixed hb (by rw [hl, List.nil_append]) none
  have hrest : (lx.take text.length text).reader.pending = rest := by
    rw [Lexer.pending_take, hb, List.drop_left]
  have hend := hmirrors.operator_stop hp (fun c hc => by
    rw [hrest] at hc
    exact hc ▸ any_isPrefix_of_stopsAt hk hfixed hstop) (some k)
  have hdone : sc.operatorFrom none = (some k, sc') := by rw [hloop, if_neg hne, hend]
  have hfound : (some k).filter (·.fixedText? == some sc'.lexeme) = some k := by
    rw [Option.filter_some, hmirrors.lexeme, hfixed]
    exact if_pos (beq_self_eq_true _)
  simp only [Scanner.operator, hdone, hfound]
  exact hmirrors.emit k

/-- A separator or an operator, if there is one. -/
theorem Mirrors.symbol (h : sc.Mirrors input lx) (hp : lx.primed = true) (hl : lx.lexeme = [])
    (hb : lx.reader.pending = b :: rest) : Agree input (sc.symbol b) (lx.symbol b) := by
  have hmem : ∀ k, k ∈ separators ∨ k ∈ operators → k ∈ symbols := by
    intro k
    cases k <;> decide +kernel
  have hsort : ∀ k ∈ symbols, k ∈ separators ∨ k ∈ operators := by decide +kernel
  unfold Scanner.symbol Lexer.symbol
  rw [hb]
  cases hk : symbolAt? (b :: rest) with
  | none =>
    rw [symbolAt?, List.find?_eq_none] at hk
    have hseparators : separators.find? (·.fixedText? == some [b]) = none := by
      refine List.find?_eq_none.mpr fun k hsep hfixed => hk k (hmem k (.inl hsep)) ?_
      rw [eq_of_beq hfixed, Option.getD_some]
      exact List.isPrefixOf_iff_prefix.mpr ⟨rest, rfl⟩
    have hoperators : operators.any (fun k => [b].isPrefixOf (k.fixedText?.getD [])) = false := by
      -- The first byte of an operator is an operator itself.
      have hfirst : ∀ k ∈ operators, ∃ k' ∈ operators,
          k'.fixedText?.getD [] = (k.fixedText?.getD []).take 1 := by decide +kernel
      refine List.any_eq_false.mpr fun k hop hpre => ?_
      obtain ⟨k', hop', htext⟩ := hfirst k hop
      obtain ⟨w, hw⟩ := List.isPrefixOf_iff_prefix.mp hpre
      refine hk k' (hmem k' (.inr hop')) ?_
      rw [htext, ← hw]
      exact List.isPrefixOf_iff_prefix.mpr ⟨rest, rfl⟩
    have hstop := h.operator_stop hp (fun c hc => by
      rw [hb, List.head?_cons, Option.getD_some] at hc
      rw [hl, hc]
      exact hoperators) none
    rw [hseparators]
    simp only [Scanner.operator, hstop, Option.filter_none, h.byte_of_cons hp hb, h.tokenPos]
    exact h.fail _ _
  | some k =>
    have hsymbol : k ∈ symbols := List.mem_of_find?_eq_some hk
    have hfixed := fixedText?_of_mem_symbols hsymbol
    obtain ⟨hpre, -⟩ := List.find?_eq_some_iff_append.mp hk
    obtain ⟨rest', hrest⟩ := List.isPrefixOf_iff_prefix.mp hpre
    have hstop := stopsAt_of_symbolAt? hfixed (hrest ▸ hk)
    rcases hsort k hsymbol with hsep | hop
    · have hsingle : ∀ k ∈ separators, (k.fixedText?.getD []).length = 1 ∧
          separators.find? (·.fixedText? == some (k.fixedText?.getD [])) = some k := by decide +kernel
      obtain ⟨hlength, hfind⟩ := hsingle k hsep
      obtain ⟨c, hc⟩ := List.length_eq_one_iff.mp hlength
      rw [hc] at hrest hfind
      cases hrest
      rw [hfind]
      simp only [hc]
      have hpush := h.push hp hb
      rw [hl] at hpush
      exact hpush.emit k
    · have hother : ∀ k ∈ operators,
          separators.find? (·.fixedText? == some ((k.fixedText?.getD []).take 1)) = none := by decide +kernel
      have hb' : (k.fixedText?.getD []).take 1 = [b] := by
        have hpos := List.length_pos_iff.mp (Lexer.length_fixedText_pos hsymbol)
        obtain ⟨c, w, hw⟩ := List.exists_cons_of_ne_nil hpos
        rw [hw] at hrest ⊢
        cases hrest
        rfl
      rw [← hb', hother k hop]
      exact h.operator hp hl hop hfixed (hb.trans hrest.symm) hstop

/-! ## Requests -/

theorem Mirrors.next (h : sc.Mirrors input lx) : Agree input sc.next lx.next := by
  have hbegin := h.begin
  have hheld := hbegin.held_eq rfl
  unfold Scanner.next
  cases hp : lx.begin.reader.pending with
  | nil =>
    rw [hp] at hheld
    simp only [hheld, Lexer.next_nil hp, List.head?_nil]
    exact hbegin.emit _
  | cons b rest =>
    rw [hp] at hheld
    simp only [hheld, Lexer.next_cons hp, List.head?_cons]
    split
    · exact hbegin.word rfl rfl
    · split
      · exact hbegin.numeral rfl rfl
      · split
        · exact hbegin.quoted rfl rfl hp
        · exact hbegin.symbol rfl rfl hp

end Scanner

/-! ## Going back -/

namespace Stream

variable {s : Stream}

theorem seek_of_seekable (h : s.seekable = true) : s.clear.seek 0 = .ofText s.content true := by
  simp [seek, clear, ofText, h]

theorem seek_of_not_seekable (h : s.seekable = false) :
    s.clear.seek 0 = { s with eof := false, failed := true } := by
  simp [seek, clear, h]

end Stream

namespace Scanner

variable {sc : Scanner} {lx : Lexer} {input : Text}

theorem restart_of_seekable (h : sc.stream.seekable = true) :
    sc.restart = (.ok (), start sc.pos.file sc.stream.content true) := by
  rw [restart, Stream.seek_of_seekable h]
  rfl

theorem restart_of_not_seekable (h : sc.stream.seekable = false) :
    sc.restart = (.error (.of (.lexical .cannotRestart) sc.pos),
      { sc with stream := { sc.stream with eof := false, failed := true } }) := by
  rw [restart, Stream.seek_of_not_seekable h]
  rfl

theorem Mirrors.file (h : sc.Mirrors input lx) : sc.pos.file = lx.file := by
  rw [h.pos]
  rfl

/-- All that a scanner has of a stream that gives nothing is the byte that it holds. -/
theorem Mirrors.exhausted (h : sc.Mirrors input lx) {s : Stream} (hunread : s.unread = [])
    (hseekable : s.seekable = sc.stream.seekable) :
    { sc with stream := s }.Mirrors (s.content.take s.offset)
      { lx.cutShort with source := s.content } := by
  refine ⟨?_, rfl, hseekable.trans h.seekable, ?_, ?_, ?_, h.tokenPos, h.lexeme, h.value⟩
  · rw [Stream.input, hunread, List.append_nil]
  · rw [h.held]
    cases hp : lx.primed with
    | true => simp [Lexer.cutShort, hp, List.head?_take]
    | false => simp [Lexer.cutShort, hp]
  · show s.unread = _
    rw [hunread]
    cases hp : lx.primed with
    | true => cases hpending : lx.reader.pending <;> simp [Lexer.cutShort, hp, hpending]
    | false => simp [Lexer.cutShort, hp]
  · exact h.pos.trans lx.here_cutShort.symm

theorem Mirrors.restart_of_seekable (h : sc.Mirrors input lx) (hs : lx.seekable = true) :
    sc.restart = (.ok (), start lx.file lx.source true) := by
  rw [Scanner.restart_of_seekable (h.seekable.trans hs), h.file, h.source]

theorem Mirrors.restart_of_not_seekable (h : sc.Mirrors input lx) (hs : lx.seekable = false) :
    sc.restart.2.Mirrors (sc.stream.content.take sc.stream.offset) lx.cutShort := by
  rw [Scanner.restart_of_not_seekable (h.seekable.trans hs)]
  have hdead : Stream.unread { sc.stream with eof := false, failed := true } = [] := by
    simp [Stream.unread, Stream.isGood]
  have hsource : ({ lx.cutShort with source := sc.stream.content } : Lexer) = lx.cutShort := by
    rw [h.source]
    rfl
  exact hsource ▸ h.exhausted hdead rfl

/-! ## Requests -/

open Rewindable

theorem Mirrors.ask_agrees (h : sc.Mirrors input lx) (r : Request) :
    (ask sc r).1 = (ask lx r).1 ∧ ∃ input', (ask sc r).2.Mirrors input' (ask lx r).2 := by
  cases r with
  | next => exact ⟨congrArg (Except.map some) h.next.result, input, h.next.mirrors⟩
  | restart =>
    cases hs : lx.seekable with
    | true =>
      have hlexer : lx.restart = (.ok (), Lexer.start lx.file lx.source true) := by
        rw [Lexer.restart, if_pos hs]
      show sc.restart.1.map _ = lx.restart.1.map _ ∧ ∃ _, sc.restart.2.Mirrors _ lx.restart.2
      rw [h.restart_of_seekable hs, hlexer]
      exact ⟨rfl, lx.source, start_mirrors _ _ _⟩
    | false =>
      have hlexer : lx.restart = (.error (.of (.lexical .cannotRestart) lx.here), lx.cutShort) := by
        rw [Lexer.restart, hs]
        rfl
      have hresult : sc.restart.1 = .error (.of (.lexical .cannotRestart) lx.here) := by
        rw [Scanner.restart_of_not_seekable (h.seekable.trans hs), h.pos]
      refine ⟨?_, sc.stream.content.take sc.stream.offset, ?_⟩
      · show sc.restart.1.map _ = lx.restart.1.map _
        rw [hresult, hlexer]
      · show sc.restart.2.Mirrors _ lx.restart.2
        rw [hlexer]
        exact h.restart_of_not_seekable hs

/-- The answers of a scanner are those of the lexer, whatever it is asked. -/
theorem Mirrors.answers_eq (h : sc.Mirrors input lx) (rs : List Request) :
    answers sc rs = answers lx rs := by
  induction rs generalizing sc lx input with
  | nil => rfl
  | cons r rs ih =>
    obtain ⟨hresult, input', hask⟩ := h.ask_agrees r
    have hanswer : answer sc r = answer lx r := by
      rw [answer, answer, hresult]
      exact congr (congr (congrArg _ hask.lexeme) hask.value) hask.tokenPos
    rw [answers, answers, hanswer, ih hask]

theorem Mirrors.mirrors_after (h : sc.Mirrors input lx) (rs : List Request) :
    ∃ input', (after sc rs).Mirrors input' (after lx rs) := by
  induction rs generalizing sc lx input with
  | nil => exact ⟨input, h⟩
  | cons r rs ih =>
    obtain ⟨-, input', hask⟩ := h.ask_agrees r
    exact ih hask

end Scanner

end ScriptEngine
