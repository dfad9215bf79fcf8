import Mathlib.Data.List.DropRight
import ScriptEngine.Proofs.Lexer.Layout

/-!
# Accounting for a source

However often the lexer is asked, and whatever goes wrong on the way, nothing of the source gets
lost: what has been consumed is, call by call, the blanks skipped and the raw text of what the call
gave (`Outcome`), and every position is counted from what stands before it (`Text.place`). A call
that takes nothing of its own is repeated by every later one (`calls_account`).
-/

namespace ScriptEngine

/-! ## Places in a text -/

namespace Text

/-- The bytes after the last newline. -/
def lastLine (t : Text) : Text := t.rtakeWhile (· != Byte.newline)

/-- The position of a byte with `before` in front of it. -/
def place (file before : Text) : Pos :=
  ⟨1 + before.count Byte.newline, 1 + before.lastLine.length, file⟩

/-- The position of the end of a text: that of its last byte, if its last line is not empty. -/
def endPlace (file t : Text) : Pos := ⟨1 + t.count Byte.newline, t.lastLine.length, file⟩

/-- The position of the first byte of `rest`, or of the end if there is none. -/
def placeIn (file before : Text) : Text → Pos
  | [] => endPlace file before
  | _ :: _ => place file before

@[simp] theorem lastLine_newline (t : Text) : lastLine (t ++ [Byte.newline]) = [] :=
  List.rtakeWhile_concat_neg _ _ _ (by simp)

theorem lastLine_concat (t : Text) {b : UInt8} (h : b ≠ Byte.newline) :
    lastLine (t ++ [b]) = lastLine t ++ [b] :=
  List.rtakeWhile_concat_pos _ _ _ (by simpa using h)

theorem lastLine_append (t : Text) {s : Text} (h : Byte.newline ∉ s) :
    lastLine (t ++ s) = lastLine t ++ s := by
  induction s generalizing t with
  | nil => simp
  | cons b s ih =>
    rw [List.mem_cons, not_or] at h
    rw [List.append_cons, ih _ h.2, lastLine_concat t (Ne.symm h.1), ← List.append_cons]

end Text

/-- Further up, or on the same line further to the left. -/
def Pos.Before (p q : Pos) : Prop := p.line < q.line ∨ p.line = q.line ∧ p.column < q.column

theorem Text.place_before (file before : Text) {s : Text} (h : s ≠ []) :
    (place file before).Before (place file (before ++ s)) := by
  have hs := List.length_pos_of_ne_nil h
  by_cases hn : Byte.newline ∈ s
  · have := List.count_pos_iff.mpr hn
    left
    simp only [place, List.count_append]
    omega
  · right
    simp only [place, List.count_append, List.count_eq_zero.mpr hn, lastLine_append _ hn,
      List.length_append]
    omega

namespace Reader

variable {r : Reader} {before s rest : Text}

/-- The reader has come past `before`. -/
structure HasRead (r : Reader) (before : Text) : Prop where
  line : r.line = 1 + before.count Byte.newline
  before : r.before = before.lastLine.length

theorem HasRead.skip (h : r.HasRead before) (hp : r.pending = s ++ rest) :
    (r.skip s.length).HasRead (before ++ s) := by
  induction s generalizing r before with
  | nil => simpa [Reader.skip] using h
  | cons b s ih =>
    obtain ⟨pending, line, col⟩ := r
    obtain ⟨hl, hc⟩ := h
    simp only at hp hl hc
    subst hp hl hc
    rw [List.length_cons, List.cons_append, Reader.skip, List.append_cons]
    split
    · next hb =>
      subst hb
      exact ih ⟨by simp [Nat.add_assoc], by simp⟩ rfl
    · next hb =>
      exact ih ⟨by simp [hb], by simp [Text.lastLine_concat _ hb]⟩ rfl

end Reader

/-! ## Lexers on their way -/

namespace Lexer

variable {lx : Lexer} {file before gap raw rest : Text} {r : Except Error Token × Lexer}

/-- The lexer has consumed `before`, and `rest` is still to come. -/
structure Stands (lx : Lexer) (file before rest : Text) : Prop where
  file : lx.file = file
  read : lx.reader.HasRead before
  pending : lx.reader.pending = rest

theorem start_stands (file source : Text) (seekable : Bool) :
    (start file source seekable).Stands file [] source :=
  ⟨rfl, ⟨rfl, rfl⟩, rfl⟩

theorem Stands.take (h : lx.Stands file before (raw ++ rest)) (text : Text) :
    (lx.take raw.length text).Stands file (before ++ raw) rest :=
  ⟨h.file, h.read.skip h.pending, by rw [pending_take, h.pending]; exact List.drop_left⟩

theorem Stands.here (h : lx.Stands file before rest) (hp : lx.primed = true) :
    lx.here = Text.placeIn file before rest := by
  obtain ⟨hf, ⟨hl, hb⟩, hr⟩ := h
  cases rest with
  | nil => simp [Lexer.here, hp, hf, hl, hb, Reader.column, hr, Text.placeIn, Text.endPlace]
  | cons b rest =>
    simp [Lexer.here, hp, hf, hl, hb, Reader.column, hr, Text.placeIn, Text.place]
    omega

/-- The lexer stands at the start of a token. -/
structure Begun (lx : Lexer) (file before rest : Text) : Prop where
  stands : lx.Stands file before rest
  primed : lx.primed = true
  lexeme : lx.lexeme = []
  tokenPos : lx.tokenPos = Text.placeIn file before rest

theorem Stands.begin (h : lx.Stands file before (gap ++ rest)) (hg : gap.IsBlank)
    (hr : ∀ b ∈ rest.head?, Byte.isBlank b = false) : lx.begin.Begun file (before ++ gap) rest := by
  have hgap : lx.reader.pending.takeWhile Byte.isBlank = gap := by
    rw [h.pending]
    exact takeWhile_run hg hr
  have hread : (lx.reader.skip (lx.reader.pending.takeWhile Byte.isBlank).length).HasRead
      (before ++ gap) := by
    rw [hgap]
    exact h.read.skip h.pending
  have hs : lx.begin.Stands file (before ++ gap) rest := by
    refine ⟨h.file, hread, ?_⟩
    rw [pending_begin, h.pending]
    exact dropWhile_run hg hr
  exact ⟨hs, rfl, rfl, hs.here rfl⟩

theorem begin_begun (h : lx.Stands file before rest) :
    ∃ gap rest', rest = gap ++ rest' ∧ gap.IsBlank ∧ lx.begin.Begun file (before ++ gap) rest' := by
  have hsplit := (List.takeWhile_append_dropWhile (p := Byte.isBlank) (l := rest)).symm
  have hg : Text.IsBlank (rest.takeWhile Byte.isBlank) := fun b hb => List.mem_takeWhile_imp hb
  exact ⟨_, _, hsplit, hg, Stands.begin (hsplit ▸ h) hg (stops_dropWhile _ rest)⟩

/-- There are no blanks left to skip. -/
theorem begin_begin (lx : Lexer) : lx.begin.begin = lx.begin := by
  have hb : lx.begin.reader.pending.takeWhile Byte.isBlank = [] := by
    rw [pending_begin, List.takeWhile_eq_nil_iff]
    exact fun hn => List.dropWhile_get_zero_not _ _ hn
  have hr : lx.begin.reader.skipBlanks = lx.begin.reader := by
    rw [Reader.skipBlanks, hb]
    rfl
  conv_lhs => rw [begin, hr]
  rfl

theorem next_begin (lx : Lexer) : lx.begin.next = lx.next := by
  rw [next, begin_begin]
  rfl

/-! ## What a call gives -/

/-- How a call comes out that stands after `before` at the start of a token: by what it takes, what
it leaves, its result and the text of the token. A failed call has taken the text up to the fault.
-/
inductive Outcome (file before : Text) :
    (raw rest : Text) → Except Error Token → (text : Text) → Prop where
  | token {t : Token} {rest : Text} : t.kind ≠ .string → t.kind ≠ .endOfInput → t.lexeme ≠ [] →
      t.pos = Text.place file before → Outcome file before t.lexeme rest (.ok t) t.lexeme
  | string {t : Token} {quote : UInt8} {rest : Text} : t.kind = .string →
      Byte.isQuote quote = true → quote ∉ t.lexeme → t.pos = Text.place file before →
      Outcome file before (quote :: (t.lexeme ++ [quote])) rest (.ok t) t.lexeme
  | ending {t : Token} : t.kind = .endOfInput → t.lexeme = [] → t.pos = Text.endPlace file before →
      Outcome file before [] [] (.ok t) []
  | missingDigit {ds rest : Text} : ds ≠ [] → ds.IsDigits →
      (∀ b ∈ rest.head?, Byte.isDigit b = false) →
      Outcome file before (ds ++ [Byte.point]) rest
        (.error (.of (.lexical (.missingDigit (ds ++ [Byte.point])))
          (Text.placeIn file (before ++ (ds ++ [Byte.point])) rest))) (ds ++ [Byte.point])
  | outOfRange {n : Numeral} {rest : Text} : n.IsLiteral → n.value? = none →
      Outcome file before n.text rest
        (.error (.of (.lexical (.outOfRange n.text)) (Text.place file before))) n.text
  | unterminated {quote : UInt8} {text : Text} : Byte.isQuote quote = true → quote ∉ text →
      Outcome file before (quote :: text) []
        (.error (.of (.lexical (.unterminated quote)) (Text.place file before))) text
  | unexpected {b : UInt8} {rest : Text} :
      Outcome file before [] (b :: rest)
        (.error (.of (.lexical (.unexpected b)) (Text.place file before))) []

theorem Outcome.file_eq {t : Token} {text : Text} (h : Outcome file before raw rest (.ok t) text) :
    t.pos.file = file := by
  cases h with
  | token _ _ _ hp | string _ _ _ hp | ending _ _ hp =>
    rw [hp]
    rfl

theorem Outcome.isSet {t : Token} {text : Text} (h : Outcome file before raw rest (.ok t) text) :
    t.pos.isSet = true := by
  cases h with
  | token _ _ _ hp | string _ _ _ hp | ending _ _ hp =>
    rw [hp, Pos.isSet, decide_eq_true_eq]
    simp only [Text.place, Text.endPlace]
    omega

theorem Outcome.place_eq {t : Token} {text : Text} (h : Outcome file before raw rest (.ok t) text)
    (hk : t.kind ≠ .endOfInput) : t.pos = Text.place file before ∧ raw ≠ [] := by
  cases h with
  | token _ _ hne hp => exact ⟨hp, hne⟩
  | string _ _ _ hp => exact ⟨hp, List.cons_ne_nil _ _⟩
  | ending he => exact absurd he hk

/-- What becomes of a lexer that stands at the start of a token. -/
structure Reading (lx : Lexer) (file before raw rest : Text) (r : Except Error Token × Lexer) : Prop
    where
  pending : lx.reader.pending = raw ++ rest
  outcome : Outcome file before raw rest r.1 r.2.lexeme
  stands : r.2.Stands file (before ++ raw) rest
  tokenPos : r.2.tokenPos = lx.tokenPos
  idle : raw = [] → r.2 = lx

theorem isWord_wordKind (w : Text) : (wordKind w).isWord = true := by
  rw [wordKind]
  cases h : keywords.find? (·.fixedText? == some w) with
  | none => rfl
  | some k => exact isWord_of_mem (List.mem_of_find?_eq_some h)

theorem ne_of_isWord {k : TokenKind} (h : k.isWord = true) : k ≠ .string ∧ k ≠ .endOfInput := by
  constructor <;> (rintro rfl; cases h)

theorem ne_of_mem_symbols {k : TokenKind} (h : k ∈ symbols) : k ≠ .string ∧ k ≠ .endOfInput := by
  constructor <;> (rintro rfl; revert h; decide)

theorem Begun.pos {b : UInt8} (h : lx.Begun file before (b :: rest)) :
    lx.tokenPos = Text.place file before := h.tokenPos

/-- A token whose raw text is its text. -/
theorem Begun.reading_take {b : UInt8} {k : TokenKind} {x : Double} {text : Text}
    (h : lx.Begun file before (b :: text)) (hp : lx.reader.pending = raw ++ rest) (hne : raw ≠ [])
    (hk : k ≠ .string ∧ k ≠ .endOfInput) :
    lx.Reading file before raw rest ({ lx.take raw.length raw with value := x }.emit k) := by
  have hs : lx.Stands file before (raw ++ rest) := by
    rw [← hp, h.stands.pending]
    exact h.stands
  have ht := hs.take raw
  exact ⟨hp, .token (t := ⟨k, raw, x, lx.tokenPos⟩) hk.1 hk.2 hne h.pos,
    ⟨ht.file, ht.read, ht.pending⟩, rfl, fun e => absurd e hne⟩

theorem word_reading {b : UInt8} {text : Text} (h : lx.Begun file before (b :: text))
    (hb : Byte.isLetter b = true) : ∃ raw rest, lx.Reading file before raw rest lx.word := by
  have hp := (List.takeWhile_append_dropWhile (p := Byte.isLetter) (l := lx.reader.pending)).symm
  have hne : lx.reader.pending.takeWhile Byte.isLetter ≠ [] := by simp [h.stands.pending, hb]
  exact ⟨_, _, h.reading_take (x := lx.value) hp hne (ne_of_isWord (isWord_wordKind _))⟩

theorem symbol_reading {b : UInt8} {text : Text} (h : lx.Begun file before (b :: text)) :
    ∃ raw rest, lx.Reading file before raw rest (lx.symbol b) := by
  unfold symbol
  split
  · next k hk =>
    rw [symbolAt?] at hk
    have hmem := List.mem_of_find?_eq_some hk
    have hpre := List.find?_some hk
    obtain ⟨rest, hp⟩ := List.isPrefixOf_iff_prefix.mp hpre
    have hne := List.ne_nil_of_length_pos (length_fixedText_pos hmem)
    exact ⟨_, rest, h.reading_take (x := lx.value) hp.symm hne (ne_of_mem_symbols hmem)⟩
  · have hs : lx.Stands file (before ++ []) (b :: text) := by simpa using h.stands
    refine ⟨[], b :: text, h.stands.pending, ?_, hs, rfl, fun _ => rfl⟩
    show Outcome file before [] (b :: text) (.error (.of (.lexical (.unexpected b)) lx.tokenPos))
      lx.lexeme
    rw [h.pos, h.lexeme]
    exact .unexpected

theorem quoted_reading {b : UInt8} {text : Text} (h : lx.Begun file before (b :: text))
    (hb : Byte.isQuote b = true) :
    ∃ raw rest, lx.Reading file before raw rest (lx.quoted b text) := by
  have hn : b ∉ text.takeWhile (· != b) := fun hm => by simpa using List.mem_takeWhile_imp hm
  have he := (List.takeWhile_append_dropWhile (p := (· != b)) (l := text)).symm
  unfold quoted
  set s := text.takeWhile (· != b) with hs
  simp only
  cases hd : text.dropWhile (· != b) with
  | nil =>
    rw [hd, List.append_nil] at he
    rw [if_neg (by rw [← he]; exact Nat.lt_irrefl _)]
    have hst : lx.Stands file before (b :: s ++ []) := by simpa [← he] using h.stands
    have ht : (lx.take (s.length + 1) s).Stands file (before ++ b :: s) [] := hst.take s
    refine ⟨b :: s, [], by simpa [← he] using h.stands.pending, ?_, ht, rfl, fun e => by cases e⟩
    show Outcome file before (b :: s) [] (.error (.of (.lexical (.unterminated b)) lx.tokenPos)) s
    rw [h.pos]
    exact .unterminated hb hn
  | cons c rest =>
    obtain rfl : c = b := by
      have := List.head?_dropWhile_not (· != b) text
      simpa [hd] using this
    rw [hd] at he
    rw [if_pos (by rw [he]; simp)]
    have hp : lx.reader.pending = c :: (s ++ [c]) ++ rest := by
      rw [h.stands.pending, he]
      simp
    have hst : lx.Stands file before (c :: (s ++ [c]) ++ rest) := by
      rw [← hp, h.stands.pending]
      exact h.stands
    have ht : (lx.take (s.length + 2) s).Stands file (before ++ c :: (s ++ [c])) rest := by
      simpa using hst.take s
    exact ⟨_, rest, hp, .string (t := ⟨.string, s, lx.value, lx.tokenPos⟩) rfl hb hn h.pos, ht, rfl,
      fun e => by cases e⟩

theorem numeral_reading {b : UInt8} {text : Text} (h : lx.Begun file before (b :: text))
    (hb : Byte.isDigit b = true) : ∃ raw rest, lx.Reading file before raw rest lx.numeral := by
  obtain ⟨rest, hp, hr⟩ := Numeral.exists_scan_append lx.reader.pending
  have hne : (Numeral.scan lx.reader.pending).text ≠ [] := by
    rw [h.stands.pending]
    exact List.ne_nil_of_length_pos (length_scan_pos hb)
  have hlit : (Numeral.scan lx.reader.pending).endsInPoint = false →
      (Numeral.scan lx.reader.pending).IsLiteral := by
    rw [h.stands.pending]
    exact Numeral.isLiteral_scan hb
  have hs : lx.Stands file before ((Numeral.scan lx.reader.pending).text ++ rest) := by
    rw [← hp, h.stands.pending]
    exact h.stands
  have ht := hs.take (Numeral.scan lx.reader.pending).text
  unfold numeral
  simp only
  split
  · next he =>
    have hw : (Numeral.scan lx.reader.pending).whole ≠ [] := by
      simp [Numeral.whole_scan, h.stands.pending, hb]
    have hd := Numeral.isDigits_whole_scan lx.reader.pending
    refine ⟨_, rest, hp, ?_, ht, rfl, fun e => absurd e hne⟩
    show Outcome file before _ rest (.error (.of (.lexical (.missingDigit _)) (Lexer.here _)))
      (Numeral.scan lx.reader.pending).text
    rw [ht.here h.primed, Numeral.text_of_endsInPoint he]
    exact .missingDigit hw hd fun b hb => (hr b hb).1
  · next he =>
    split
    · exact ⟨_, rest, h.reading_take hp hne ⟨by decide, by decide⟩⟩
    · next hv =>
      refine ⟨_, rest, hp, ?_, ht, rfl, fun e => absurd e hne⟩
      show Outcome file before _ rest (.error (.of (.lexical (.outOfRange _)) lx.tokenPos)) _
      rw [h.pos]
      exact .outOfRange (hlit (by simpa using he)) hv

theorem next_reading (h : lx.begin.Begun file before rest) :
    ∃ raw rest', lx.begin.Reading file before raw rest' lx.next := by
  have hp := h.stands.pending
  refine next_cases (fun r => ∃ raw rest', lx.begin.Reading file before raw rest' r) (fun e => ?_)
    (fun e hb => ?_) (fun e hb => ?_) (fun e hb => ?_) (fun e => ?_)
  · obtain rfl := hp.symm.trans e
    have hs : lx.begin.Stands file (before ++ []) [] := by simpa using h.stands
    let t : Token := ⟨.endOfInput, [], lx.value, lx.begin.tokenPos⟩
    exact ⟨[], [], e, .ending (t := t) rfl rfl h.tokenPos, hs, rfl, fun _ => rfl⟩
  · obtain rfl := hp.symm.trans e
    exact word_reading h hb
  · obtain rfl := hp.symm.trans e
    exact numeral_reading h hb
  · obtain rfl := hp.symm.trans e
    exact quoted_reading h hb
  · obtain rfl := hp.symm.trans e
    exact symbol_reading h

/-! ## Calls in a row -/

/-- A call that skips `gap` and takes `raw`, with `before` consumed already and `rest` to come. -/
structure Accounted (file before gap raw rest : Text) (r : Except Error Token × Lexer) : Prop where
  gap_isBlank : gap.IsBlank
  outcome : Outcome file (before ++ gap) raw rest r.1 r.2.lexeme
  tokenPos : r.2.tokenPos = Text.placeIn file (before ++ gap) (raw ++ rest)
  progress : raw ≠ [] ∨ r.2.next = r

/-- Each call of a row takes up where the one before has stopped; together they consume `taken`. -/
inductive Accounts (file : Text) :
    (before taken rest : Text) → List (Except Error Token × Lexer) → Prop where
  | nil {before rest : Text} : Accounts file before [] rest []
  | cons {before gap raw taken rest : Text} {r : Except Error Token × Lexer}
      {rs : List (Except Error Token × Lexer)} :
      Accounted file before gap raw (taken ++ rest) r →
      Accounts file (before ++ gap ++ raw) taken rest rs →
      Accounts file before (gap ++ raw ++ taken) rest (r :: rs)

/-- The results of `n` calls, each with the lexer it leaves. -/
def calls : Nat → Lexer → List (Except Error Token × Lexer)
  | 0, _ => []
  | n + 1, lx => lx.next :: calls n lx.next.2

/-- The lexer after `n` calls. -/
def afterCalls : Nat → Lexer → Lexer
  | 0, lx => lx
  | n + 1, lx => afterCalls n lx.next.2

theorem next_accounted (h : lx.Stands file before rest) :
    ∃ gap raw rest', rest = gap ++ raw ++ rest' ∧ Accounted file before gap raw rest' lx.next ∧
      lx.next.2.Stands file (before ++ gap ++ raw) rest' := by
  obtain ⟨gap, rest₁, rfl, hg, hb⟩ := begin_begun h
  obtain ⟨raw, rest', hr⟩ := next_reading hb
  have he : rest₁ = raw ++ rest' := hb.stands.pending.symm.trans hr.pending
  refine ⟨gap, raw, rest', by rw [he, List.append_assoc], ⟨hg, hr.outcome, ?_, ?_⟩, hr.stands⟩
  · rw [hr.tokenPos, hb.tokenPos, he]
  · rcases eq_or_ne raw [] with hraw | hraw
    · exact .inr (by rw [hr.idle hraw, next_begin])
    · exact .inl hraw

/-- Each token has its place, and the places follow one another. -/
theorem delivers_places {lx' : Lexer} {ts : List Token} (h : Delivers lx ts lx')
    (hs : lx.Stands file before rest) :
    (∀ t ∈ ts, (t.pos.file = file ∧ t.pos.isSet = true) ∧
      (t.kind ≠ .endOfInput → ∃ s, t.pos = Text.place file (before ++ s))) ∧
    ts.Pairwise fun t u => t.kind ≠ .endOfInput → u.kind ≠ .endOfInput → t.pos.Before u.pos := by
  induction h generalizing before rest with
  | refl => simp
  | @step lx m _ t ts hn _ ih =>
    obtain ⟨gap, raw, rest', rfl, ha, hs'⟩ := next_accounted hs
    have hn' : lx.next = (.ok t, m) := hn
    rw [hn'] at ha hs'
    obtain ⟨hf, hts⟩ := ih hs'
    have hfirst : (t.pos.file = file ∧ t.pos.isSet = true) ∧
        (t.kind ≠ .endOfInput → ∃ s, t.pos = Text.place file (before ++ s)) :=
      ⟨⟨ha.outcome.file_eq, ha.outcome.isSet⟩, fun hk => ⟨gap, (ha.outcome.place_eq hk).1⟩⟩
    refine ⟨List.forall_mem_cons.mpr ⟨hfirst, fun u hu => ⟨(hf u hu).1, fun hk => ?_⟩⟩,
      List.pairwise_cons.mpr ⟨fun u hu hk hk' => ?_, hts⟩⟩
    · obtain ⟨s, hp⟩ := (hf u hu).2 hk
      exact ⟨gap ++ raw ++ s, by rw [hp]; simp⟩
    · obtain ⟨s, hp⟩ := (hf u hu).2 hk'
      obtain ⟨hp', hne⟩ := ha.outcome.place_eq hk
      rw [hp, hp', List.append_assoc _ raw s]
      exact Text.place_before file _ (by simp [hne])

theorem accounts_of_stands (n : Nat) (h : lx.Stands file before rest) :
    ∃ taken rest', rest = taken ++ rest' ∧ (lx.afterCalls n).reader.pending = rest' ∧
      Accounts file before taken rest' (lx.calls n) := by
  induction n generalizing lx before rest with
  | zero => exact ⟨[], rest, rfl, h.pending, .nil⟩
  | succ n ih =>
    obtain ⟨gap, raw, rest₁, rfl, ha, hs⟩ := next_accounted h
    obtain ⟨taken, rest', rfl, hp, hr⟩ := ih hs
    exact ⟨gap ++ raw ++ taken, rest', by simp, hp, .cons ha hr⟩

/-- Whatever the source and however many calls there are, they account for what they consume. -/
theorem calls_account (file source : Text) (seekable : Bool) (n : Nat) :
    ∃ taken rest, source = taken ++ rest ∧
      ((start file source seekable).afterCalls n).reader.pending = rest ∧
      Accounts file [] taken rest ((start file source seekable).calls n) :=
  accounts_of_stands n (start_stands file source seekable)

end Lexer

end ScriptEngine
