import ScriptEngine.Proofs.Lexer.Accounting

/-!
# One byte ahead

A call of the lexer depends on the bytes it takes and on the one after them, and on nothing further
(`Lexer.next_peeks`): whatever else stands behind that byte, it gives the same and leaves the same.
-/

namespace ScriptEngine

/-! ## Numerals and symbols -/

/-- A numeral is told by its text and the byte after it. -/
theorem Numeral.exists_scan_peek (input : Text) :
    ∃ rest, input = (scan input).text ++ rest ∧
      ∀ c : Text, c.head? = rest.head? → scan ((scan input).text ++ c) = scan input := by
  obtain ⟨rest, hp, hr⟩ := exists_scan_append input
  refine ⟨rest, hp, fun c hc => ?_⟩
  refine scan_text_of_isDigits (isDigits_whole_scan _) (isDigits_fraction_scan _) ?_
  rw [EndsBefore, hc]
  exact hr

theorem stopsAt_of_symbolAt? {k : TokenKind} {s rest : Text} (h : k.fixedText? = some s)
    (hk : symbolAt? (s ++ rest) = some k) : ∀ b ∈ rest.head?, k.stopsAt b = true := by
  have hmem : k ∈ symbols := List.mem_of_find?_eq_some hk
  intro b hb
  obtain ⟨rest, rfl⟩ := List.head?_eq_some_iff.mp hb
  cases k with
  | number | string | ident | ifWord | thenWord | elseWord | endifWord | whileWord | endwhileWord
  | endOfInput => exact absurd hmem (by decide)
  | greater =>
    cases h
    rw [TokenKind.stopsAt, bne_iff_ne]
    rintro rfl
    have hge : symbolAt? (Text.ascii ">=" ++ rest) = some .greaterEq :=
      symbolAt?_of_mem (by decide) rfl fun _ _ => rfl
    cases hge.symm.trans hk
  | less =>
    cases h
    rw [TokenKind.stopsAt, bne_iff_ne]
    rintro rfl
    have hle : symbolAt? (Text.ascii "<=" ++ rest) = some .lessEq :=
      symbolAt?_of_mem (by decide) rfl fun _ _ => rfl
    cases hle.symm.trans hk
  | _ => rfl

/-- Whether there is a symbol can be seen from the first byte. -/
theorem symbolAt?_eq_none {b : UInt8} {s s' : Text} (h : symbolAt? (b :: s) = none) :
    symbolAt? (b :: s') = none := by
  have hfirst : ∀ k ∈ symbols, ∃ k' ∈ symbols,
      k'.fixedText?.getD [] = (k.fixedText?.getD []).take 1 := by decide
  rw [symbolAt?, List.find?_eq_none] at h ⊢
  intro k hk hpre
  obtain ⟨k', hk', he⟩ := hfirst k hk
  obtain ⟨c, t, ht⟩ := List.exists_cons_of_length_pos (Lexer.length_fixedText_pos hk)
  rw [ht, List.isPrefixOf_iff_prefix, List.cons_prefix_cons] at hpre
  refine h k' hk' ?_
  rw [he, ht, hpre.1, List.isPrefixOf_iff_prefix]
  exact List.cons_prefix_cons.mpr ⟨rfl, List.nil_prefix⟩

/-! ## The same place with another input -/

namespace Reader

variable {r : Reader} {s x : Text}

def withPending (r : Reader) (t : Text) : Reader := { r with pending := t }

theorem skip_withPending (hp : r.pending = s ++ x) (y : Text) :
    (r.withPending (s ++ y)).skip s.length = (r.skip s.length).withPending y := by
  induction s generalizing r with
  | nil => rfl
  | cons b s ih =>
    obtain ⟨pending, line, before⟩ := r
    dsimp only at hp
    subst hp
    simp only [withPending, List.cons_append, List.length_cons, skip]
    split
    · exact ih (r := ⟨s ++ x, line + 1, 0⟩) rfl
    · exact ih (r := ⟨s ++ x, line, before + 1⟩) rfl

end Reader

namespace Lexer

variable {lx : Lexer} {gap raw rest : Text} {b : UInt8}

def withPending (lx : Lexer) (t : Text) : Lexer := { lx with reader := lx.reader.withPending t }

theorem withPending_self {t : Text} (h : lx.reader.pending = t) : lx.withPending t = lx := by
  subst h
  rfl

theorem here_withPending {c : Text} (h : c.head? = lx.reader.pending.head?) :
    (lx.withPending c).here = lx.here := by
  have he : c.isEmpty = lx.reader.pending.isEmpty := by
    rw [Bool.eq_iff_iff, List.isEmpty_iff, List.isEmpty_iff, ← List.head?_eq_none_iff, h,
      List.head?_eq_none_iff]
  simp only [here, withPending, Reader.withPending, Reader.column, he]

theorem take_withPending (hp : lx.reader.pending = raw ++ rest) (text c : Text) :
    (lx.withPending (raw ++ c)).take raw.length text =
      (lx.take raw.length text).withPending c := by
  simp only [take, withPending, Reader.skip_withPending hp]

theorem begin_withPending (hp : lx.reader.pending = gap ++ rest) (hg : gap.IsBlank)
    (hr : ∀ b ∈ rest.head?, Byte.isBlank b = false) {c : Text} (hc : c.head? = rest.head?) :
    (lx.withPending (gap ++ c)).begin = lx.begin.withPending c := by
  have ht : (gap ++ rest).takeWhile Byte.isBlank = gap := takeWhile_run hg hr
  have ht' : (gap ++ c).takeWhile Byte.isBlank = gap := takeWhile_run hg (hc ▸ hr)
  have hs : (lx.reader.withPending (gap ++ c)).skipBlanks =
      lx.reader.skipBlanks.withPending c := by
    rw [Reader.skipBlanks, Reader.skipBlanks, hp, ht]
    show ((lx.reader.withPending (gap ++ c)).skip ((gap ++ c).takeWhile Byte.isBlank).length) = _
    rw [ht', Reader.skip_withPending hp]
  have hh : c.head? = lx.begin.reader.pending.head? := by
    rw [pending_begin, hp, dropWhile_run hg hr, hc]
  have hpos : ({ lx.begin with tokenPos := lx.tokenPos }.withPending c).here = lx.begin.here :=
    here_withPending hh
  simp only [begin, withPending, hs] at hpos ⊢
  rw [hpos]
  rfl

/-! ## What a call looks at -/

/-- What `go` gives and where it ends depends on what it takes and on the byte after. -/
def Peeks (lx : Lexer) (go : Lexer → Except Error Token × Lexer) : Prop :=
  ∃ raw rest, lx.reader.pending = raw ++ rest ∧ (go lx).2.reader.pending = rest ∧
    ∀ c : Text, c.head? = rest.head? →
      go (lx.withPending (raw ++ c)) = ((go lx).1, (go lx).2.withPending c)

variable {go : Lexer → Except Error Token × Lexer}

theorem peeks_of (hp : lx.reader.pending = raw ++ rest)
    (h : ∀ c : Text, c.head? = rest.head? →
      go (lx.withPending (raw ++ c)) = ((go lx).1, (go lx).2.withPending c)) : lx.Peeks go := by
  refine ⟨raw, rest, hp, ?_, h⟩
  have hrest := h rest rfl
  rw [withPending_self hp] at hrest
  rw [hrest]
  rfl

theorem peeks_of_all (h : (go lx).2.reader.pending = []) : lx.Peeks go := by
  refine peeks_of (List.append_nil _).symm fun c hc => ?_
  rw [List.head?_nil, List.head?_eq_none_iff] at hc
  rw [hc, List.append_nil, withPending_self rfl, withPending_self h]

theorem word_peeks (lx : Lexer) : lx.Peeks word := by
  have hp := (List.takeWhile_append_dropWhile (p := Byte.isLetter) (l := lx.reader.pending)).symm
  refine peeks_of hp fun c hc => ?_
  have ht : (lx.withPending (lx.reader.pending.takeWhile Byte.isLetter ++ c)).reader.pending.takeWhile
      Byte.isLetter = lx.reader.pending.takeWhile Byte.isLetter := by
    refine takeWhile_run (fun b hb => List.mem_takeWhile_imp hb) ?_
    rw [hc]
    exact stops_dropWhile _ _
  rw [word, ht, take_withPending hp]
  rfl

theorem numeral_peeks (lx : Lexer) : lx.Peeks numeral := by
  obtain ⟨rest, hp, hscan⟩ := Numeral.exists_scan_peek lx.reader.pending
  refine peeks_of hp fun c hc => ?_
  unfold numeral
  set n := Numeral.scan lx.reader.pending with hn
  have hs : Numeral.scan (lx.withPending (n.text ++ c)).reader.pending = n := hscan c hc
  have hh : ((lx.take n.text.length n.text).withPending c).here =
      (lx.take n.text.length n.text).here := by
    refine here_withPending ?_
    rw [hc, pending_take, hp, List.drop_left]
  simp only [hs, take_withPending hp, hh]
  split
  · rfl
  · split
    · rfl
    · rfl

theorem quoted_peeks (hp : lx.reader.pending = b :: rest) :
    lx.Peeks fun l => l.quoted b l.reader.pending.tail := by
  have hn : b ∉ rest.takeWhile (· != b) := fun hm => by simpa using List.mem_takeWhile_imp hm
  have he := (List.takeWhile_append_dropWhile (p := (· != b)) (l := rest)).symm
  have hhead := List.head?_dropWhile_not (· != b) rest
  set text := rest.takeWhile (· != b) with htext
  cases hd : rest.dropWhile (· != b) with
  | nil =>
    -- The string is never closed, so all is taken.
    rw [hd, List.append_nil] at he
    refine peeks_of_all ?_
    simp only [quoted, hp, List.tail_cons, ← htext, ← he]
    rw [if_neg (Nat.lt_irrefl _)]
    show (lx.take (rest.length + 1) rest).reader.pending = []
    rw [pending_take, hp, List.drop_eq_nil_iff, List.length_cons]
  | cons q after =>
    obtain rfl : q = b := by simpa [hd] using hhead
    rw [hd] at he
    have hp' : lx.reader.pending = q :: (text ++ [q]) ++ after := by
      rw [hp, he]
      simp
    have hlen : text.length + 2 = (q :: (text ++ [q])).length := by simp
    refine peeks_of hp' fun c _ => ?_
    have htail : (lx.withPending (q :: (text ++ [q]) ++ c)).reader.pending.tail = text ++ q :: c := by
      simp [withPending, Reader.withPending]
    have htake : (text ++ q :: c).takeWhile (· != q) = text :=
      takeWhile_run (fun x hx => by simpa using fun e : x = q => hn (e ▸ hx)) (by simp)
    have hlt (t : Text) : text.length < (text ++ q :: t).length := by simp
    simp only [htail, quoted, htake, if_pos (hlt c), hlen, take_withPending hp', hp, List.tail_cons,
      ← htext]
    rw [he, if_pos (hlt after)]
    rfl

theorem symbol_peeks (hp : lx.reader.pending = b :: rest) : lx.Peeks (symbol · b) := by
  cases hk : symbolAt? lx.reader.pending with
  | none =>
    have hp' : lx.reader.pending = [] ++ b :: rest := hp
    refine peeks_of hp' fun c hc => ?_
    obtain ⟨c, rfl⟩ := List.head?_eq_some_iff.mp hc
    have hk' : symbolAt? (lx.withPending (b :: c)).reader.pending = none :=
      symbolAt?_eq_none (hp ▸ hk)
    simp only [symbol, List.nil_append, hk, hk']
    rfl
  | some k =>
    have hmem : k ∈ symbols := List.mem_of_find?_eq_some hk
    have hfixed := fixedText?_of_mem_symbols hmem
    have hpre := List.find?_some hk
    obtain ⟨after, ha⟩ := List.isPrefixOf_iff_prefix.mp hpre
    refine peeks_of ha.symm fun c hc => ?_
    have hstop := stopsAt_of_symbolAt? hfixed (ha ▸ hk)
    have hk' : symbolAt? (lx.withPending (k.fixedText?.getD [] ++ c)).reader.pending = some k :=
      symbolAt?_of_mem hmem hfixed (hc ▸ hstop)
    simp only [symbol, hk, hk', take_withPending ha.symm]
    rfl

/-- A call that goes on with `go` after the blanks, as its first byte tells. -/
theorem Peeks.next (h : lx.begin.Peeks go)
    (hgo : ∀ l : Lexer, l.begin.reader.pending.head? = lx.begin.reader.pending.head? →
      l.next = go l.begin) : lx.Peeks next := by
  obtain ⟨raw, rest, hp, hrest, hc⟩ := h
  have hsplit := (List.takeWhile_append_dropWhile (p := Byte.isBlank) (l := lx.reader.pending)).symm
  rw [← pending_begin, hp] at hsplit
  set gap := lx.reader.pending.takeWhile Byte.isBlank with hgap
  have hg : Text.IsBlank gap := fun b hb => List.mem_takeWhile_imp hb
  have hr : ∀ b ∈ (raw ++ rest).head?, Byte.isBlank b = false := by
    rw [← hp, pending_begin]
    exact stops_dropWhile _ _
  have hn := hgo lx rfl
  refine ⟨gap ++ raw, rest, by rw [hsplit, List.append_assoc], by rw [hn]; exact hrest,
    fun c he => ?_⟩
  have hhead : (raw ++ c).head? = (raw ++ rest).head? := by
    rw [List.head?_append, List.head?_append, he]
  have hb := begin_withPending hsplit hg hr hhead
  rw [List.append_assoc, hn, hgo _ (by rw [hb, hp]; exact hhead), hb]
  exact hc c he

/-- The next token depends on what is taken for it and on the byte after. -/
theorem next_peeks (lx : Lexer) : lx.Peeks next := by
  cases hp : lx.begin.reader.pending with
  | nil =>
    have hend : lx.begin.Peeks (emit · .endOfInput) := peeks_of_all hp
    refine hend.next fun l hl => next_nil ?_
    rw [hp] at hl
    exact List.head?_eq_none_iff.mp hl
  | cons b rest =>
    have hcons : ∀ l : Lexer, l.begin.reader.pending.head? = lx.begin.reader.pending.head? →
        ∃ r, l.begin.reader.pending = b :: r := by
      intro l hl
      rw [hp] at hl
      exact List.head?_eq_some_iff.mp hl
    by_cases hletter : Byte.isLetter b = true
    · refine (word_peeks _).next fun l hl => ?_
      obtain ⟨r, hr⟩ := hcons l hl
      rw [next_cons hr, if_pos hletter]
    · by_cases hdigit : Byte.isDigit b = true
      · refine (numeral_peeks _).next fun l hl => ?_
        obtain ⟨r, hr⟩ := hcons l hl
        rw [next_cons hr, if_neg hletter, if_pos hdigit]
      · by_cases hquote : Byte.isQuote b = true
        · refine (quoted_peeks hp).next fun l hl => ?_
          obtain ⟨r, hr⟩ := hcons l hl
          rw [next_cons hr, if_neg hletter, if_neg hdigit, if_pos hquote, hr]
          rfl
        · refine (symbol_peeks hp).next fun l hl => ?_
          obtain ⟨r, hr⟩ := hcons l hl
          rw [next_cons hr, if_neg hletter, if_neg hdigit, if_neg hquote]

end Lexer

end ScriptEngine
