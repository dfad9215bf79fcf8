import ScriptEngine.Proofs.Lexer.Accounting
import ScriptEngine.Proofs.Tree.Positions

/-!
# Sources one after the other

No token reaches over a newline that follows it, and none depends on the line it stands in. So two
sources that consist of tokens, with a newline between them, consist of the tokens of both
(`delivers_join`); those of the second stand further down by the lines of the first.
-/

namespace ScriptEngine

/-- Further down by `d` lines. -/
def Pos.down (d : Nat) (p : Pos) : Pos := ⟨p.line + d, p.column, p.file⟩

/-! ## Readers of a longer text -/

/-- Nothing, or a blank first. -/
def Text.Parts (more : Text) : Prop := ∀ b ∈ more.head?, Byte.isBlank b = true

variable {d n : Nat} {more : Text}

/-- The second reader stands `d` lines further down, with `more` at the end of what is to come. -/
structure Reader.Moved (d : Nat) (more : Text) (r r' : Reader) : Prop where
  pending : r'.pending = r.pending ++ more
  line : r'.line = r.line + d
  before : r'.before = r.before

theorem Reader.Moved.skip {r r' : Reader} (h : r.Moved d more r') (hn : n ≤ r.pending.length) :
    (r.skip n).Moved d more (r'.skip n) := by
  induction n generalizing r r' with
  | zero => exact h
  | succ n ih =>
    obtain ⟨pending, line, before⟩ := r
    obtain ⟨pending', line', before'⟩ := r'
    obtain ⟨hp, hl, hb⟩ := h
    dsimp only at hp hl hb
    subst hp hl hb
    cases pending with
    | nil => cases hn
    | cons b rest =>
      have hn' : n ≤ rest.length := Nat.le_of_succ_le_succ hn
      simp only [Reader.skip, List.cons_append]
      split
      · exact ih ⟨rfl, Nat.add_right_comm line d 1, rfl⟩ hn'
      · exact ih ⟨rfl, rfl, rfl⟩ hn'

theorem takeWhile_parts {p : UInt8 → Bool} (s : Text) (hm : ∀ b ∈ more.head?, p b = false) :
    (s ++ more).takeWhile p = s.takeWhile p := by
  induction s with
  | nil =>
    cases more with
    | nil => rfl
    | cons b rest => simp [hm b rfl]
  | cons b s ih => simp [List.takeWhile_cons, ih]

theorem dropWhile_parts {p : UInt8 → Bool} (s : Text) (hm : ∀ b ∈ more.head?, p b = false) :
    (s ++ more).dropWhile p = s.dropWhile p ++ more := by
  induction s with
  | nil =>
    cases more with
    | nil => rfl
    | cons b rest => simp [hm b rfl]
  | cons b s ih =>
    cases hb : p b with
    | true => simp [hb, ih]
    | false => simp [hb]

theorem takeWhile_append_of_dropWhile {p : UInt8 → Bool} {s : Text} (h : s.dropWhile p ≠ []) :
    (s ++ more).takeWhile p = s.takeWhile p := by
  induction s with
  | nil => exact absurd rfl h
  | cons b s ih =>
    cases hb : p b with
    | true =>
      rw [List.dropWhile_cons, if_pos hb] at h
      simp [hb, ih h]
    | false => simp [hb]

theorem Text.Parts.ne {b : UInt8} (hm : more.Parts) (hb : Byte.isBlank b = false) :
    b ∉ more.head? := fun h => by
  rw [hm b h] at hb
  cases hb

theorem Text.Parts.isLetter (hm : more.Parts) : ∀ b ∈ more.head?, Byte.isLetter b = false := by
  intro b hb
  rw [Bool.eq_false_iff]
  intro h
  exact hm.ne (Byte.class_of_isLetter h).1 hb

theorem Text.Parts.isDigit (hm : more.Parts) : ∀ b ∈ more.head?, Byte.isDigit b = false := by
  intro b hb
  rw [Bool.eq_false_iff]
  intro h
  exact hm.ne (Byte.class_of_isDigit h).1 hb

theorem Numeral.scan_parts (s : Text) (hm : more.Parts) : scan (s ++ more) = scan s := by
  rw [scan, scan, takeWhile_parts s hm.isDigit, dropWhile_parts s hm.isDigit]
  cases s.dropWhile Byte.isDigit with
  | cons b rest => simp only [List.cons_append, takeWhile_parts rest hm.isDigit]
  | nil =>
    cases more with
    | nil => rfl
    | cons b rest =>
      have hpoint : b ≠ Byte.point := by
        rintro rfl
        exact hm.ne rfl rfl
      simp [hpoint]

theorem isPrefixOf_parts {k : Text} (s : Text) (hm : more.Parts) (hk : ∀ b ∈ k, Byte.isBlank b = false) :
    k.isPrefixOf (s ++ more) = k.isPrefixOf s := by
  induction k generalizing s with
  | nil => simp
  | cons b k ih =>
    rw [List.forall_mem_cons] at hk
    cases s with
    | nil =>
      cases more with
      | nil => rfl
      | cons c rest =>
        have hne : b ≠ c := by
          rintro rfl
          exact hm.ne hk.1 rfl
        simp [List.isPrefixOf, hne]
    | cons c s => simp only [List.cons_append, List.isPrefixOf, ih s hk.2]

theorem symbolAt?_parts (s : Text) (hm : more.Parts) : symbolAt? (s ++ more) = symbolAt? s := by
  have hk : ∀ k ∈ symbols, ∀ b ∈ k.fixedText?.getD [], Byte.isBlank b = false := by
    decide +kernel
  rw [symbolAt?, symbolAt?]
  generalize symbols = ks at hk ⊢
  induction ks with
  | nil => rfl
  | cons k ks ih =>
    rw [List.forall_mem_cons] at hk
    rw [List.find?_cons, List.find?_cons, isPrefixOf_parts s hm hk.1, ih hk.2]

namespace Lexer

variable {lx lx' m : Lexer} {t : Token} {ts : List Token}

structure Moved (d : Nat) (more : Text) (lx lx' : Lexer) : Prop where
  file : lx'.file = lx.file
  reader : lx.reader.Moved d more lx'.reader

/-- Both stand at the start of a token. -/
structure Ready (d : Nat) (more : Text) (lx lx' : Lexer) : Prop extends lx.Moved d more lx' where
  tokenPos : lx'.tokenPos = lx.tokenPos.down d

theorem Moved.begin {b : UInt8} {rest : Text} (h : lx.Moved d more lx')
    (hp : lx.begin.reader.pending = b :: rest) : lx.begin.Ready d more lx'.begin := by
  have htake : (lx.reader.pending ++ more).takeWhile Byte.isBlank =
      lx.reader.pending.takeWhile Byte.isBlank := by
    rw [pending_begin] at hp
    exact takeWhile_append_of_dropWhile (by simp [hp])
  have hr : lx.begin.reader.Moved d more lx'.begin.reader := by
    show (lx.reader.skip _).Moved d more (lx'.reader.skip _)
    rw [h.reader.pending, htake]
    exact h.reader.skip (List.takeWhile_prefix _).length_le
  refine ⟨⟨h.file, hr⟩, ?_⟩
  have hp' : lx'.begin.reader.pending = b :: (rest ++ more) := by
    rw [hr.pending, hp, List.cons_append]
  show lx'.begin.here = lx.begin.here.down d
  have hline := hr.line
  have hbefore := hr.before
  have hfile : lx'.begin.file = lx.begin.file := h.file
  have hprimed : lx.begin.primed = true ∧ lx'.begin.primed = true := ⟨rfl, rfl⟩
  simp [Lexer.here, Pos.down, hfile, hline, hbefore, hp, hp', hprimed, Reader.column]

/-- A token that one lexer gives, the other gives as well. -/
def Alike (d : Nat) (more : Text) (r r' : Except Error Token × Lexer) : Prop :=
  ∀ t, r.1 = .ok t → t.kind ≠ .endOfInput →
    ∃ u, r'.1 = .ok u ∧ t.Aligned (Pos.down d) id u ∧ r.2.Moved d more r'.2

theorem Ready.alike_emit {k : TokenKind} (h : lx.Ready d more lx') (text : Text) (hk : k ≠ .number)
    (hn : n ≤ lx.reader.pending.length) :
    Alike d more ((lx.take n text).emit k) ((lx'.take n text).emit k) := by
  intro t ht _
  cases ht
  exact ⟨_, rfl, ⟨⟨rfl, rfl, fun e => absurd e hk⟩, h.tokenPos.symm⟩, h.file, h.reader.skip hn⟩

theorem alike_fail {f : LexFault} {p : Pos} {r : Except Error Token × Lexer} :
    Alike d more (lx.fail f p) r := fun _ ht => by cases ht

theorem Ready.word (h : lx.Ready d more lx') (hm : more.Parts) : Alike d more lx.word lx'.word := by
  rw [Lexer.word, Lexer.word, h.reader.pending, takeWhile_parts _ hm.isLetter]
  have hk : wordKind (lx.reader.pending.takeWhile Byte.isLetter) ≠ .number := by
    intro hk
    have hw := isWord_wordKind (lx.reader.pending.takeWhile Byte.isLetter)
    rw [hk] at hw
    cases hw
  exact h.alike_emit _ hk (List.takeWhile_prefix _).length_le

theorem Ready.numeral (h : lx.Ready d more lx') (hm : more.Parts) :
    Alike d more lx.numeral lx'.numeral := by
  have hn : (Numeral.scan lx.reader.pending).text.length ≤ lx.reader.pending.length := by
    obtain ⟨rest, hp, -⟩ := Numeral.exists_scan_append lx.reader.pending
    conv_rhs => rw [hp]
    simp
  rw [Lexer.numeral, Lexer.numeral, h.reader.pending, Numeral.scan_parts _ hm]
  split
  · exact alike_fail
  · split
    · intro t ht _
      cases ht
      exact ⟨_, rfl, ⟨⟨rfl, rfl, fun _ => rfl⟩, h.tokenPos.symm⟩, h.file, h.reader.skip hn⟩
    · exact alike_fail

theorem Ready.quoted {b : UInt8} {rest : Text} (h : lx.Ready d more lx')
    (hp : lx.reader.pending = b :: rest) :
    Alike d more (lx.quoted b rest) (lx'.quoted b (rest ++ more)) := by
  rw [Lexer.quoted, Lexer.quoted]
  split
  · next hlt =>
    have htake : (rest ++ more).takeWhile (· != b) = rest.takeWhile (· != b) := by
      refine takeWhile_append_of_dropWhile fun hd => ?_
      have he := List.takeWhile_append_dropWhile (p := (· != b)) (l := rest)
      rw [hd, List.append_nil] at he
      rw [he] at hlt
      exact Nat.lt_irrefl _ hlt
    rw [htake, if_pos (by simp; omega)]
    exact h.alike_emit _ (by decide) (by rw [hp]; simp; omega)
  · exact alike_fail

theorem Ready.symbol (h : lx.Ready d more lx') (hm : more.Parts) (b : UInt8) :
    Alike d more (lx.symbol b) (lx'.symbol b) := by
  rw [Lexer.symbol, Lexer.symbol, h.reader.pending, symbolAt?_parts _ hm]
  split
  · next k hk =>
    rw [symbolAt?] at hk
    have hpre := List.find?_some hk
    rw [List.isPrefixOf_iff_prefix] at hpre
    have hnum : k ≠ .number := by
      rintro rfl
      exact absurd (List.mem_of_find?_eq_some hk) (by decide)
    exact h.alike_emit _ hnum hpre.length_le
  · exact alike_fail

theorem Moved.next (h : lx.Moved d more lx') (hm : more.Parts) : Alike d more lx.next lx'.next := by
  cases hp : lx.begin.reader.pending with
  | nil =>
    rw [next_nil hp]
    intro t ht hk
    cases ht
    exact absurd rfl hk
  | cons b rest =>
    have hr := h.begin hp
    have hp' : lx'.begin.reader.pending = b :: (rest ++ more) := by
      rw [hr.reader.pending, hp, List.cons_append]
    rw [next_cons hp, next_cons hp']
    split
    · exact hr.word hm
    · split
      · exact hr.numeral hm
      · split
        · exact hr.quoted hp
        · exact hr.symbol hm b

/-! ## Two sources in one -/

theorem Moved.delivers (h : lx.Moved d more lx') (hm : more.Parts) (hd : Delivers lx ts m)
    (hts : ∀ t ∈ ts, t.kind ≠ .endOfInput) :
    ∃ us m', Delivers lx' us m' ∧ List.Forall₂ (Token.Aligned (Pos.down d) id) ts us ∧
      m.Moved d more m' := by
  induction hd generalizing lx' with
  | refl => exact ⟨[], lx', .refl _, .nil, h⟩
  | @step lx m₁ m t ts hn _ ih =>
    rw [List.forall_mem_cons] at hts
    have hn' : lx.next = (.ok t, m₁) := hn
    obtain ⟨u, hu, htu, hmoved⟩ := h.next hm t (by rw [hn']) hts.1
    rw [hn'] at hmoved
    obtain ⟨us, m', hd', hus, hm'⟩ := ih hmoved hts.2
    exact ⟨u :: us, m', .step (Prod.ext hu rfl) hd', .cons htu hus, hm'⟩

theorem Stands.delivers {file before rest : Text} (h : lx.Stands file before rest)
    (hd : Delivers lx ts m) :
    ∃ taken rest', rest = taken ++ rest' ∧ m.Stands file (before ++ taken) rest' := by
  induction hd generalizing before rest with
  | refl => exact ⟨[], rest, rfl, by simpa using h⟩
  | @step lx m₁ m t ts hn _ ih =>
    obtain ⟨gap, raw, rest₁, rfl, -, hs⟩ := next_accounted h
    have hn' : lx.next = (.ok t, m₁) := hn
    rw [hn'] at hs
    obtain ⟨taken, rest', rfl, hs'⟩ := ih hs
    exact ⟨gap ++ raw ++ taken, rest', by simp, by simpa using hs'⟩

/-- At the end there are only blanks to come. -/
theorem Stands.isBlank_of_end {file before rest : Text} (h : lx.Stands file before rest)
    (hn : lx.next = (.ok t, m)) (hk : t.kind = .endOfInput) : rest.IsBlank := by
  obtain ⟨gap, raw, rest', rfl, ha, -⟩ := next_accounted h
  have ho := ha.outcome
  rw [hn] at ho
  dsimp only at ho
  generalize m.lexeme = text at ho
  cases ho with
  | token _ hne => exact absurd hk hne
  | string hs =>
    rw [hs] at hk
    cases hk
  | ending => simpa using ha.gap_isBlank

theorem next_of_isBlank (h : lx.reader.pending.IsBlank) :
    ∃ t m, lx.next = (.ok t, m) ∧ t.kind = .endOfInput := by
  have hb : lx.begin.reader.pending = [] := by
    rw [pending_begin, List.dropWhile_eq_nil_iff]
    exact h
  exact ⟨_, _, next_nil hb, rfl⟩

/-- After its last token, a source has only blanks left. -/
theorem exists_last {file source : Text} {last : Token}
    (h : Delivers (start file source true) (ts ++ [last]) m) (hlast : last.kind = .endOfInput) :
    ∃ m₁ taken gap, Delivers (start file source true) ts m₁ ∧ source = taken ++ gap ∧
      gap.IsBlank ∧ m₁.Stands file taken gap := by
  obtain ⟨m₁, hd, hend⟩ := delivers_append.mp h
  obtain ⟨taken, gap, hsplit, hs⟩ := (start_stands file source true).delivers hd
  rcases hend with _ | ⟨hn, ⟨⟩⟩
  exact ⟨m₁, taken, gap, hd, hsplit, hs.isBlank_of_end hn hlast, hs⟩

/-- Blanks may be skipped beforehand. -/
theorem next_skip {gap rest : Text} (hg : gap.IsBlank) (hp : lx.reader.pending = gap ++ rest) :
    { lx with reader := lx.reader.skip gap.length }.next = lx.next := by
  have hr : (lx.reader.skip gap.length).skipBlanks = lx.reader.skipBlanks := by
    rw [Reader.skipBlanks, Reader.skipBlanks, ← Reader.skip_add, Reader.pending_skip, hp,
      List.drop_left, List.takeWhile_append_of_pos hg, List.length_append]
  have hb : { lx with reader := lx.reader.skip gap.length }.begin = lx.begin := by
    rw [begin, begin, hr]
  rw [next, hb]
  rfl

/-- The lexer that has come to the end of a first source stands, but for the lines, like one at the
beginning of the second. -/
theorem Stands.start_moved {file s t gap : Text} (h : lx.Stands file s (gap ++ t)) {n : Nat}
    (hn : (s ++ gap).count Byte.newline = n) (hl : (s ++ gap).lastLine = []) (seekable : Bool) :
    (start file t seekable).Moved n [] { lx with reader := lx.reader.skip gap.length } := by
  have hr := h.read.skip h.pending
  refine ⟨h.file, ?_, ?_, ?_⟩
  · simp [h.pending, start, Reader.start]
  · rw [hr.line, hn]
    rfl
  · rw [hr.before, hl]
    rfl

/-- Two sources with a newline between them give the tokens of the one and then those of the other. -/
theorem delivers_join {file s t : Text} {us : List Token} {last last' : Token} {m' : Lexer}
    (hs : Delivers (start file s true) (ts ++ [last]) m) (hts : ∀ t ∈ ts, t.kind ≠ .endOfInput)
    (hlast : last.kind = .endOfInput)
    (ht : Delivers (start file t true) (us ++ [last']) m') (hus : ∀ t ∈ us, t.kind ≠ .endOfInput)
    (hlast' : last'.kind = .endOfInput) :
    ∃ ts' us' last'' m'',
      Delivers (start file (s ++ Byte.newline :: t) true) (ts' ++ (us' ++ [last''])) m'' ∧
      List.Forall₂ (Token.Aligned (Pos.down 0) id) ts ts' ∧
      List.Forall₂ (Token.Aligned (Pos.down (s.count Byte.newline + 1)) id) us us' ∧
      last''.kind = .endOfInput := by
  obtain ⟨m₁, taken, gap, hs₁, hsplit, hgap, hst⟩ := exists_last hs hlast
  obtain ⟨m₂, taken', gap', ht₂, -, hgap', hst'⟩ := exists_last ht hlast'
  -- The first source up to its last token.
  have hmoved : (start file s true).Moved 0 (Byte.newline :: t)
      (start file (s ++ Byte.newline :: t) true) := ⟨rfl, rfl, rfl, rfl⟩
  have hparts : Text.Parts (Byte.newline :: t) := by
    intro b hb
    cases hb
    rfl
  obtain ⟨ts', j₁, hj₁, halign, hmoved₁⟩ := hmoved.delivers hparts hs₁ hts
  -- The blanks after it, the newline, and the second source.
  have hstands : j₁.Stands file taken ((gap ++ [Byte.newline]) ++ t) := by
    refine ⟨hmoved₁.file.trans hst.file, ⟨?_, ?_⟩, ?_⟩
    · exact hmoved₁.reader.line.trans hst.read.line
    · exact hmoved₁.reader.before.trans hst.read.before
    · rw [hmoved₁.reader.pending, hst.pending, List.append_assoc]
      rfl
  have hblank : (gap ++ [Byte.newline]).IsBlank :=
    List.forall_mem_append.mpr ⟨hgap, List.forall_mem_singleton.mpr rfl⟩
  have hread : taken ++ (gap ++ [Byte.newline]) = s ++ [Byte.newline] := by
    rw [hsplit, List.append_assoc]
  have hmoved₂ := hstands.start_moved (n := s.count Byte.newline + 1) (by simp [hread])
    (by simp [hread]) true
  obtain ⟨us', j₂, hj₂, halign', hmoved₃⟩ := hmoved₂.delivers (fun _ hb => by cases hb) ht₂ hus
  have hend : j₂.reader.pending.IsBlank := by
    rw [hmoved₃.reader.pending, hst'.pending, List.append_nil]
    exact hgap'
  obtain ⟨last'', m'', hn'', hlast''⟩ := next_of_isBlank hend
  refine ⟨ts', us', last'', m'', delivers_append.mpr ⟨j₁, hj₁, ?_⟩, halign, halign', hlast''⟩
  have hrest := delivers_append.mpr ⟨j₂, hj₂, .step hn'' (.refl m'')⟩
  exact hrest.of_next_eq (by simp) (next_skip hblank hstands.pending)

end Lexer

end ScriptEngine
