import ScriptEngine.Proofs.Lexer.Scanning

/-!
# Restarting

A scanner is asked for tokens and restarts in any order, and answers each `Request` also after errors.
On a stream that can seek, a restart makes it a fresh scanner. On one that cannot, a restart fails and
only cuts off the input: the scanner goes on as one whose input ends after the byte it holds
(`Scanner.restart_resets_or_cuts`). What it answers is what the lexer answers, which has the text before
it that the stream will give.
-/

namespace ScriptEngine

open Rewindable

namespace Rewindable

variable {σ : Type} [Rewindable σ]

theorem after_cons (s : σ) (r : Request) (rs : List Request) :
    after s (r :: rs) = after (ask s r).2 rs := rfl

theorem after_concat (s : σ) (rs : List Request) (r : Request) :
    after s (rs ++ [r]) = (ask (after s rs) r).2 := by
  simp [after]

/-- What one request preserves holds after any. -/
theorem after_induction {P : σ → Prop} (step : ∀ s r, P s → P (ask s r).2) {s : σ} (h : P s)
    (rs : List Request) : P (after s rs) := by
  induction rs generalizing s with
  | nil => exact h
  | cons r rs ih => exact ih (step s r h)

end Rewindable

namespace Lexer

variable {lx : Lexer} {file source taken left : Text} {r : Request}

theorem ask_next (lx : Lexer) : ask lx .next = (lx.next.1.map some, lx.next.2) := rfl

theorem ask_restart (lx : Lexer) :
    ask lx .restart = (lx.restart.1.map fun _ => none, lx.restart.2) := rfl

/-- What a lexer is never told again. -/
structure Origin (lx : Lexer) (file source : Text) (seekable : Bool) : Prop where
  file : lx.file = file
  source : lx.source = source
  seekable : lx.seekable = seekable

theorem next_origin (lx : Lexer) :
    lx.next.2.Origin lx.file lx.source lx.seekable ∧ lx.next.2.primed = true := by
  refine next_cases (fun r => r.2.Origin lx.file lx.source lx.seekable ∧ r.2.primed = true)
    (fun _ => ⟨⟨rfl, rfl, rfl⟩, rfl⟩) (fun _ _ => ⟨⟨rfl, rfl, rfl⟩, rfl⟩) (fun _ _ => ?_)
    (fun _ _ => ?_) (fun _ => ?_)
  · unfold numeral
    simp only
    split
    · exact ⟨⟨rfl, rfl, rfl⟩, rfl⟩
    · split
      · exact ⟨⟨rfl, rfl, rfl⟩, rfl⟩
      · exact ⟨⟨rfl, rfl, rfl⟩, rfl⟩
  · unfold quoted
    simp only
    split
    · exact ⟨⟨rfl, rfl, rfl⟩, rfl⟩
    · exact ⟨⟨rfl, rfl, rfl⟩, rfl⟩
  · unfold symbol
    split
    · exact ⟨⟨rfl, rfl, rfl⟩, rfl⟩
    · exact ⟨⟨rfl, rfl, rfl⟩, rfl⟩

theorem restart_of_seekable (h : lx.Origin file source true) :
    lx.restart = (.ok (), start file source true) := by
  rw [restart, if_pos h.seekable, h.file, h.source]

theorem restart_of_not_seekable (h : lx.seekable = false) :
    lx.restart = (.error (.of (.lexical .cannotRestart) lx.here), lx.cutShort) := by
  rw [restart, if_neg (by rw [h]; exact Bool.false_ne_true)]

theorem Origin.ask {seekable : Bool} (h : lx.Origin file source seekable) (r : Request) :
    (ask lx r).2.Origin file source seekable := by
  cases r with
  | next =>
    obtain ⟨⟨hf, hs, hk⟩, -⟩ := lx.next_origin
    exact ⟨hf.trans h.file, hs.trans h.source, hk.trans h.seekable⟩
  | restart =>
    cases seekable with
    | true =>
      show lx.restart.2.Origin file source true
      rw [restart_of_seekable h]
      exact ⟨rfl, rfl, rfl⟩
    | false =>
      show lx.restart.2.Origin file source false
      rw [restart_of_not_seekable h.seekable]
      exact ⟨h.file, h.source, h.seekable⟩

theorem origin_after (file source : Text) (seekable : Bool) (rs : List Request) :
    (after (start file source seekable) rs).Origin file source seekable :=
  after_induction (P := fun lx : Lexer => lx.Origin file source seekable) (fun _ r h => h.ask r)
    ⟨rfl, rfl, rfl⟩ rs

/-! ## Along an input that cannot be rewound -/

/-- A lexer on the way through an input that it cannot rewind, `asked` for a token or not yet. -/
structure Along (lx : Lexer) (file taken left : Text) (asked : Bool) : Prop where
  stands : lx.Stands file taken left
  seekable : lx.seekable = false
  primed : lx.primed = asked
  fresh : asked = false → taken = []

variable {asked : Bool}

theorem start_along (file source : Text) : (start file source false).Along file [] source false :=
  ⟨start_stands file source false, rfl, rfl, fun _ => rfl⟩

theorem Along.here (h : lx.Along file taken left asked) :
    lx.here = if asked then Text.placeIn file taken left else ⟨1, 0, file⟩ := by
  cases asked with
  | true => exact h.stands.here h.primed
  | false =>
    obtain ⟨hf, ⟨hl, hb⟩, -⟩ := h.stands
    rw [h.fresh rfl] at hl hb
    rw [Lexer.here, h.primed, hf, hl, if_neg Bool.false_ne_true, hb]
    rfl

theorem Along.next (h : lx.Along file taken left asked) :
    ∃ raw left', left = raw ++ left' ∧ lx.next.2.Along file (taken ++ raw) left' true := by
  obtain ⟨gap, raw, rest, rfl, -, hs⟩ := next_accounted h.stands
  obtain ⟨ho, hp⟩ := lx.next_origin
  exact ⟨gap ++ raw, rest, rfl, by rwa [← List.append_assoc], ho.seekable.trans h.seekable, hp,
    fun e => by cases e⟩

theorem Along.cutShort (h : lx.Along file taken left asked) :
    lx.cutShort = lx.withPending (left.take asked.toNat) := by
  have hseen : (if lx.primed then 1 else 0) = asked.toNat := by
    rw [h.primed]
    cases asked <;> rfl
  show lx.withPending (lx.reader.pending.take (if lx.primed then 1 else 0)) = _
  rw [hseen, h.stands.pending]

theorem Along.restart (h : lx.Along file taken left asked) :
    lx.restart.2.Along file taken (left.take asked.toNat) asked := by
  rw [restart_of_not_seekable h.seekable, h.cutShort]
  exact ⟨⟨h.stands.file, ⟨h.stands.read.line, h.stands.read.before⟩, rfl⟩, h.seekable, h.primed,
    h.fresh⟩

theorem Along.nexts (h : lx.Along file taken left asked) (k : Nat) :
    ∃ raw left', left = raw ++ left' ∧
      (after lx (List.replicate k .next)).Along file (taken ++ raw) left' (asked || k != 0) := by
  induction k generalizing lx taken left asked with
  | zero => exact ⟨[], left, rfl, by simpa [after] using h⟩
  | succ k ih =>
    obtain ⟨raw, left₁, rfl, h₁⟩ := h.next
    obtain ⟨raw', left', rfl, h'⟩ := ih h₁
    refine ⟨raw ++ raw', left', by rw [List.append_assoc], ?_⟩
    rw [List.replicate_succ, after_cons, ← List.append_assoc]
    simpa [ask_next] using h'

/-! ## After a failed restart -/

/-- The source as it was told to the lexer at its start. -/
def withSource (lx : Lexer) (s : Text) : Lexer := { lx with source := s }

theorem numeral_withSource (lx : Lexer) (s : Text) :
    (lx.withSource s).numeral = (lx.numeral.1, lx.numeral.2.withSource s) := by
  have hr : (lx.withSource s).reader = lx.reader := rfl
  unfold numeral
  simp only [hr]
  split
  · rfl
  · split
    · rfl
    · rfl

theorem quoted_withSource (lx : Lexer) (s : Text) (b : UInt8) (rest : Text) :
    (lx.withSource s).quoted b rest =
      ((lx.quoted b rest).1, (lx.quoted b rest).2.withSource s) := by
  unfold quoted
  simp only
  split
  · rfl
  · rfl

theorem symbol_withSource (lx : Lexer) (s : Text) (b : UInt8) :
    (lx.withSource s).symbol b = ((lx.symbol b).1, (lx.symbol b).2.withSource s) := by
  have hr : (lx.withSource s).reader = lx.reader := rfl
  unfold symbol
  simp only [hr]
  split
  · rfl
  · rfl

/-- Tokens do not depend on where the lexer would go back to. -/
theorem next_withSource (lx : Lexer) (s : Text) :
    (lx.withSource s).next = (lx.next.1, lx.next.2.withSource s) := by
  have hb : (lx.withSource s).begin = lx.begin.withSource s := rfl
  cases hp : lx.begin.reader.pending with
  | nil =>
    rw [next_nil hp, next_nil (by rw [hb]; exact hp), hb]
    rfl
  | cons b rest =>
    rw [next_cons hp, next_cons (by rw [hb]; exact hp), hb, numeral_withSource, quoted_withSource,
      symbol_withSource]
    split
    · rfl
    · split
      · rfl
      · split
        · rfl
        · rfl

theorem ask_withSource (h : lx.seekable = false) (s : Text) (r : Request) :
    ask (lx.withSource s) r = ((ask lx r).1, (ask lx r).2.withSource s) := by
  cases r with
  | next => simp only [ask_next, next_withSource]
  | restart =>
    have h' : (lx.withSource s).seekable = false := h
    rw [ask_restart, ask_restart, restart_of_not_seekable h, restart_of_not_seekable h']
    rfl

theorem seekable_ask (h : lx.seekable = false) (r : Request) : (ask lx r).2.seekable = false := by
  have ho : lx.Origin lx.file lx.source false := ⟨rfl, rfl, h⟩
  exact (ho.ask r).seekable

theorem run_withSource (h : lx.seekable = false) (s : Text) (rs : List Request) :
    answers (lx.withSource s) rs = answers lx rs ∧
      after (lx.withSource s) rs = (after lx rs).withSource s := by
  induction rs generalizing lx with
  | nil => exact ⟨rfl, rfl⟩
  | cons r rs ih =>
    obtain ⟨ha, hl⟩ := ih (seekable_ask h r)
    simp only [answers, answer, after_cons, ask_withSource h, ha, hl]
    exact ⟨rfl, trivial⟩

/-- Tokens asked for in a row depend on what is taken for them and on the byte after. -/
theorem nexts_peek (lx : Lexer) (k : Nat) : ∃ raw rest, lx.reader.pending = raw ++ rest ∧
    (after lx (List.replicate k .next)).reader.pending = rest ∧
    ∀ c : Text, c.head? = rest.head? →
      answers (lx.withPending (raw ++ c)) (List.replicate k .next) =
        answers lx (List.replicate k .next) ∧
      after (lx.withPending (raw ++ c)) (List.replicate k .next) =
        (after lx (List.replicate k .next)).withPending c := by
  induction k generalizing lx with
  | zero => exact ⟨[], lx.reader.pending, rfl, rfl, fun c _ => ⟨rfl, rfl⟩⟩
  | succ k ih =>
    obtain ⟨raw, rest, hp, hrest, hpeek⟩ := lx.next_peeks
    obtain ⟨raw', rest', hp', hrest', hpeek'⟩ := ih lx.next.2
    obtain rfl : rest = raw' ++ rest' := hrest.symm.trans hp'
    refine ⟨raw ++ raw', rest', by rw [hp, List.append_assoc], hrest', fun c hc => ?_⟩
    have hn := hpeek (raw' ++ c) (by rw [List.head?_append, List.head?_append, hc])
    obtain ⟨ha, hl⟩ := hpeek' c hc
    rw [List.append_assoc]
    simp only [List.replicate_succ, answers, answer, after_cons, ask_next, hn, ha, hl]
    exact ⟨rfl, trivial⟩

/-- Up to the first restart, a source that ends after the byte held makes no difference. -/
theorem exists_shortened (file source : Text) (k : Nat) : ∃ taken rest, source = taken ++ rest ∧
    let nexts := List.replicate k Request.next
    let lx := after (start file source false) nexts
    let held := rest.take (k != 0).toNat
    let short := start file (taken ++ held) false
    lx.Along file taken rest (k != 0) ∧
    answers short nexts = answers (start file source false) nexts ∧
    after short nexts = (lx.withPending held).withSource (taken ++ held) := by
  cases k with
  | zero => exact ⟨[], source, rfl, start_along file source, rfl, rfl⟩
  | succ k =>
    obtain ⟨taken, rest, hsource, hrest, hpeek⟩ := nexts_peek (start file source false) (k + 1)
    obtain ⟨taken', rest', hsource', h⟩ := (start_along file source).nexts (k + 1)
    obtain rfl : rest' = rest := h.stands.pending.symm.trans hrest
    obtain rfl : taken = taken' := List.append_cancel_right (hsource.symm.trans hsource')
    refine ⟨taken, rest', hsource', h, ?_⟩
    have hhead : (rest'.take 1).head? = rest'.head? := by simp [List.head?_take]
    obtain ⟨hanswers, hafter⟩ := hpeek (rest'.take 1) hhead
    have hseek : ((start file source false).withPending (taken ++ rest'.take 1)).seekable = false := rfl
    obtain ⟨hs, hs'⟩ := run_withSource hseek (taken ++ rest'.take 1) (List.replicate (k + 1) .next)
    rw [hanswers] at hs
    rw [hafter] at hs'
    exact ⟨hs, hs'⟩

end Lexer

/-! ## Scanners -/

namespace Scanner

variable {sc : Scanner} {lx : Lexer} {file source taken left input : Text} {asked : Bool}

/-- What the stream has given: all that is taken, and the byte that is held. -/
theorem Mirrors.read_eq (h : sc.Mirrors (taken ++ left) lx) (ha : lx.Along file taken left asked) :
    sc.stream.content.take sc.stream.offset = taken ++ left.take asked.toNat := by
  have hinput := h.input
  rw [Stream.input, h.unread, ha.primed, ha.stands.pending] at hinput
  cases asked with
  | true =>
    have hleft : left = left.take 1 ++ left.tail := by rw [← List.drop_one, List.take_append_drop]
    rw [if_pos rfl] at hinput
    refine List.append_cancel_right (hinput.trans ?_)
    rw [Bool.toNat_true, List.append_assoc, ← hleft]
  | false =>
    rw [Bool.toNat_false, List.take_zero, List.append_nil]
    exact List.append_cancel_right hinput

/-- A scanner that cannot rewind its stream, with the lexer that it mirrors. -/
theorem mirrors_along (file source : Text) (steps : List Request) :
    ∃ taken left, taken ++ left <+: source ∧
      let lx := after (Lexer.start file source false) steps
      lx.Along file taken left (steps.contains .next) ∧
      (after (start file source false) steps).Mirrors (taken ++ left) lx := by
  -- The requests are taken from the first on; what is left only gets shorter.
  induction steps using List.reverseRecOn with
  | nil =>
    exact ⟨[], source, List.prefix_refl _, Lexer.start_along file source, start_mirrors _ _ _⟩
  | append_singleton steps r ih =>
    obtain ⟨taken, left, hprefix, ha, hm⟩ := ih
    simp only [after_concat]
    cases r with
    | next =>
      obtain ⟨raw, left', rfl, ha'⟩ := ha.next
      refine ⟨taken ++ raw, left', by rwa [List.append_assoc], ?_, ?_⟩
      · rw [show (steps ++ [Request.next]).contains .next = true by simp]
        exact ha'
      · rw [List.append_assoc]
        exact hm.next.mirrors
    | restart =>
      refine ⟨taken, left.take (steps.contains .next).toNat, ?_, ?_, ?_⟩
      · exact ((List.prefix_append_right_inj taken).mpr (List.take_prefix _ left)).trans hprefix
      · rw [show (steps ++ [Request.restart]).contains .next = steps.contains .next by simp]
        exact ha.restart
      · rw [← hm.read_eq ha, Lexer.ask_restart, Lexer.restart_of_not_seekable ha.seekable]
        exact hm.restart_of_not_seekable ha.seekable

theorem Mirrors.nexts (h : sc.Mirrors input lx) (k : Nat) :
    (after sc (List.replicate k .next)).Mirrors input (after lx (List.replicate k .next)) := by
  induction k generalizing sc lx with
  | zero => exact h
  | succ k ih => exact ih h.next.mirrors

/-- The scanner holds the first byte of what is left, at its place, and the stream has given what comes
before and that byte. Until it is `asked` for a token, it holds a blank at column zero. -/
structure IsAt (sc : Scanner) (file taken left : Text) (asked : Bool) : Prop where
  held : sc.held = if asked then left.head? else some Byte.space
  pos : sc.pos = if asked then Text.placeIn file taken left else ⟨1, 0, file⟩
  read : sc.stream.content.take sc.stream.offset = taken ++ left.take asked.toNat

theorem Mirrors.isAt (h : sc.Mirrors (taken ++ left) lx) (ha : lx.Along file taken left asked) :
    sc.IsAt file taken left asked := by
  refine ⟨?_, h.pos.trans ha.here, h.read_eq ha⟩
  rw [h.held, ha.primed, ha.stands.pending]

/-- The input ends after the byte held. -/
def cut (sc : Scanner) : Scanner :=
  { sc with stream := { sc.stream with content := sc.stream.content.take sc.stream.offset } }

theorem unread_cut (sc : Scanner) : sc.cut.stream.unread = [] := by
  simp [cut, Stream.unread]

/-- After a restart that fails, nothing is left but the byte held. -/
theorem Mirrors.answers_restart (h : sc.Mirrors input lx) (hs : lx.seekable = false)
    (more : List Request) : answers (ask sc .restart).2 more = answers lx.cutShort more :=
  (h.restart_of_not_seekable hs).answers_eq more

theorem Mirrors.answers_cut (h : sc.Mirrors input lx) (hs : lx.seekable = false)
    (more : List Request) : answers sc.cut more = answers lx.cutShort more := by
  have hcut := (h.exhausted sc.unread_cut rfl).answers_eq more
  have hs' : lx.cutShort.seekable = false := hs
  exact hcut.trans (Lexer.run_withSource hs' _ more).1

/-- On a stream that can seek, a restart makes a fresh scanner of any. On one that cannot, a restart
fails at the position of the byte held and changes nothing that the scanner shows, and the scanner goes
on as if the input ended after that byte: as one that has come as far in an input that does. -/
theorem restart_resets_or_cuts (file source : Text) :
    (∀ (seekable : Bool) (steps : List Request),
      answers (start file source seekable) steps = answers (Lexer.start file source seekable) steps) ∧
    (∀ steps more : List Request,
      let sc := after (start file source true) steps
      ask sc .restart = (.ok none, start file source true) ∧
      answers (ask sc .restart).2 more = answers (start file source true) more) ∧
    (∀ steps more : List Request,
      let sc := after (start file source false) steps
      (∃ taken left, taken ++ left <+: source ∧
        sc.IsAt file taken left (steps.contains .next)) ∧
      answer sc .restart =
        ⟨.error (.of (.lexical .cannotRestart) sc.pos), sc.lexeme, sc.value, sc.tokenPos⟩ ∧
      answers (ask sc .restart).2 more = answers sc.cut more) ∧
    ∀ (k : Nat) (more : List Request),
      let nexts := List.replicate k Request.next
      let sc := after (start file source false) nexts
      let short := start file sc.cut.stream.content false
      answers short nexts = answers (start file source false) nexts ∧
      answers (ask sc .restart).2 more = answers (after short nexts) more := by
  refine ⟨fun seekable steps => (start_mirrors file source seekable).answers_eq steps, ?_, ?_, ?_⟩
  · intro steps more sc
    obtain ⟨input, hm⟩ := (start_mirrors file source true).mirrors_after steps
    have ho := Lexer.origin_after file source true steps
    have hr : ask sc .restart = (.ok none, start file source true) := by
      show (sc.restart.1.map _, sc.restart.2) = _
      rw [hm.restart_of_seekable ho.seekable, ho.file, ho.source]
      rfl
    exact ⟨hr, by rw [hr]⟩
  · intro steps more sc
    obtain ⟨taken, left, hprefix, ha, hm⟩ := mirrors_along file source steps
    refine ⟨⟨taken, left, hprefix, hm.isAt ha⟩, ?_, ?_⟩
    · have hrestart := restart_of_not_seekable (hm.seekable.trans ha.seekable)
      show Answer.mk (sc.restart.1.map _) sc.restart.2.lexeme sc.restart.2.value sc.restart.2.tokenPos = _
      rw [hrestart]
      rfl
    · rw [hm.answers_restart ha.seekable, hm.answers_cut ha.seekable]
  · intro k more nexts sc short
    obtain ⟨taken, rest, rfl, ha, hanswers, hafter⟩ := Lexer.exists_shortened file source k
    have hm := (start_mirrors file (taken ++ rest) false).nexts k
    have hcontent : sc.cut.stream.content = taken ++ rest.take (k != 0).toNat := hm.read_eq ha
    have hshort : short = start file (taken ++ rest.take (k != 0).toNat) false :=
      congrArg (start file · false) hcontent
    have hshort' := start_mirrors file (taken ++ rest.take (k != 0).toNat) false
    rw [hshort]
    refine ⟨?_, ?_⟩
    · rw [hshort'.answers_eq, hanswers, (start_mirrors _ _ _).answers_eq]
    · rw [hm.answers_restart ha.seekable, (hshort'.nexts k).answers_eq, hafter, ← ha.cutShort]
      have hs : (Lexer.cutShort (after (Lexer.start file (taken ++ rest) false)
        (List.replicate k .next))).seekable = false := ha.seekable
      exact (Lexer.run_withSource hs _ more).1.symm

end Scanner

end ScriptEngine
