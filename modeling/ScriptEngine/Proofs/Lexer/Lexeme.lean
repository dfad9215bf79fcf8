import ScriptEngine.Proofs.Lexer.Progress
import ScriptEngine.Proofs.Text.Digits
import ScriptEngine.Proofs.Tree.Positions

/-!
# How tokens are written

`Spells raw t`: the bytes `raw` are a way to write the token `t`, its position aside. The lexer gives
only tokens that can be written (`next_spells`), and where one is written, followed by a byte that
does not belong to it (`stopsAt`), the lexer reads it (`next_of_spells`).
-/

namespace ScriptEngine

/-- Letters, at least one, and not those of a keyword. -/
structure Text.IsName (w : Text) : Prop where
  ne_nil : w ≠ []
  letters : ∀ b ∈ w, Byte.isLetter b = true
  not_keyword : ∀ k ∈ keywords, k.fixedText? ≠ some w

inductive Spells : Text → Token → Prop where
  | fixed {t : Token} : t.kind.fixedText? = some t.lexeme → Spells t.lexeme t
  | name {t : Token} : t.kind = .ident → t.lexeme.IsName → Spells t.lexeme t
  | number {t : Token} {n : Numeral} : t.kind = .number → n.IsLiteral → n.text = t.lexeme →
      n.value? = some t.value → Spells t.lexeme t
  | string {t : Token} {quote : UInt8} : t.kind = .string → Byte.isQuote quote = true →
      quote ∉ t.lexeme → Spells (quote :: (t.lexeme ++ [quote])) t

namespace TokenKind

/-- Keywords and names. -/
def isWord : TokenKind → Bool
  | ident | ifWord | thenWord | elseWord | endifWord | whileWord | endwhileWord => true
  | _ => false

/-- Whether a token of the kind is over before the byte. -/
def stopsAt (k : TokenKind) (b : UInt8) : Bool :=
  match k with
  | number => !(Byte.isDigit b || b == Byte.point)
  | greater | less => b != 61
  | k => !(k.isWord && Byte.isLetter b)

variable {k : TokenKind} {b : UInt8}

theorem isLetter_of_stopsAt (hk : k.isWord = true) (h : k.stopsAt b = true) :
    Byte.isLetter b = false := by
  unfold stopsAt at h
  split at h
  · cases hk
  · cases hk
  · cases hk
  · simpa [hk] using h

theorem class_of_stopsAt (h : number.stopsAt b = true) :
    Byte.isDigit b = false ∧ b ≠ Byte.point := by
  simpa [stopsAt] using h

end TokenKind

/-! ## Classes of bytes -/

namespace Byte

variable {b : UInt8}

theorem isBlank_iff : isBlank b = true ↔ 9 ≤ b.toNat ∧ b.toNat ≤ 13 ∨ b.toNat = 32 := by
  simp [isBlank, space, UInt8.le_iff_toNat_le, ← UInt8.toNat_inj]

theorem isLetter_iff : isLetter b = true ↔
    65 ≤ b.toNat ∧ b.toNat ≤ 90 ∨ 97 ≤ b.toNat ∧ b.toNat ≤ 122 := by
  simp [isLetter, UInt8.le_iff_toNat_le]

theorem isDigit_iff : isDigit b = true ↔ 48 ≤ b.toNat ∧ b.toNat ≤ 57 := by
  simp [isDigit, zero, UInt8.le_iff_toNat_le]

theorem class_of_isLetter (h : isLetter b = true) :
    isBlank b = false ∧ isDigit b = false ∧ b ≠ 61 ∧ b ≠ point := by
  refine ⟨?_, ?_, ?_, ?_⟩
  · rw [isLetter_iff] at h
    rw [Bool.eq_false_iff, ne_eq, isBlank_iff]
    omega
  · rw [isLetter_iff] at h
    rw [Bool.eq_false_iff, ne_eq, isDigit_iff]
    omega
  · rintro rfl
    cases h
  · rintro rfl
    cases h

theorem class_of_isDigit (h : isDigit b = true) :
    isBlank b = false ∧ isLetter b = false ∧ b ≠ 61 ∧ b ≠ point := by
  refine ⟨?_, ?_, ?_, ?_⟩
  · rw [isDigit_iff] at h
    rw [Bool.eq_false_iff, ne_eq, isBlank_iff]
    omega
  · rw [isDigit_iff] at h
    rw [Bool.eq_false_iff, ne_eq, isLetter_iff]
    omega
  · rintro rfl
    cases h
  · rintro rfl
    cases h

theorem class_of_isQuote (h : isQuote b = true) :
    isBlank b = false ∧ isLetter b = false ∧ isDigit b = false ∧ b ≠ 61 ∧ b ≠ point := by
  simp only [isQuote, Bool.or_eq_true, beq_iff_eq] at h
  rcases h with rfl | rfl <;> decide

theorem stopsAt_of_isBlank (k : TokenKind) (h : isBlank b = true) : k.stopsAt b = true := by
  have hletter : isLetter b = false := by
    rw [Bool.eq_false_iff]
    intro hb
    rw [(class_of_isLetter hb).1] at h
    cases h
  have hdigit : isDigit b = false := by
    rw [Bool.eq_false_iff]
    intro hb
    rw [(class_of_isDigit hb).1] at h
    cases h
  have hequals : b ≠ 61 := by
    rintro rfl
    cases h
  have hpoint : b ≠ point := by
    rintro rfl
    cases h
  unfold TokenKind.stopsAt
  split <;> simp [hletter, hdigit, hequals, hpoint]

end Byte

/-! ## First bytes -/

/-- By its first byte it can be seen what a written token is not. -/
theorem Spells.first {raw : Text} {t : Token} (h : Spells raw t) :
    ∃ b rest, raw = b :: rest ∧ Byte.isBlank b = false ∧
      (Byte.isLetter b = true → t.kind.isWord = true) ∧
      (Byte.isDigit b = true → t.kind = .number) ∧ (b = 61 → t.kind = .equals) ∧
      b ≠ Byte.point := by
  cases h with
  | fixed h =>
    have key : ∀ k : TokenKind, ∀ s ∈ k.fixedText?, ∃ b rest, s = b :: rest ∧
        Byte.isBlank b = false ∧ (Byte.isLetter b = true → k.isWord = true) ∧
        (Byte.isDigit b = true → k = .number) ∧ (b = 61 → k = .equals) ∧ b ≠ Byte.point := by
      rintro k s hs
      cases k <;> cases hs <;> exact ⟨_, _, rfl, by decide⟩
    exact key _ _ h
  | name hk hn =>
    obtain ⟨b, rest, e⟩ := List.exists_cons_of_ne_nil hn.ne_nil
    have hb := Byte.class_of_isLetter (hn.letters b (by simp [e]))
    exact ⟨b, rest, e, hb.1, fun _ => by rw [hk]; rfl, by simp [hb], by simp [hb], hb.2.2.2⟩
  | @number t n hk hn ht =>
    obtain ⟨b, rest, e⟩ := List.exists_cons_of_ne_nil hn.whole_ne_nil
    have hb := Byte.class_of_isDigit (hn.isDigits_whole b (by simp [e]))
    obtain ⟨rest', e'⟩ := n.text_eq_cons e
    exact ⟨b, rest', by rw [← ht, e'], hb.1, by simp [hb], fun _ => hk, by simp [hb], hb.2.2.2⟩
  | string hk hq =>
    have hb := Byte.class_of_isQuote hq
    exact ⟨_, _, rfl, hb.1, by simp [hb], by simp [hb], by simp [hb], hb.2.2.2.2⟩

/-! ## Reading what is written -/

theorem wordKind_of_isName {w : Text} (h : w.IsName) : wordKind w = .ident := by
  have : keywords.find? (·.fixedText? == some w) = none := by
    rw [List.find?_eq_none]
    exact fun k hk => by simpa using h.not_keyword k hk
  rw [wordKind, this]
  rfl

theorem wordKind_of_mem {k : TokenKind} {w : Text} (hk : k ∈ keywords)
    (h : k.fixedText? = some w) : wordKind w = k := by
  have : ∀ k ∈ keywords, ∀ w ∈ k.fixedText?, wordKind w = k := by decide
  exact this k hk w h

theorem wordKind_cases (w : Text) : (wordKind w).fixedText? = some w ∨
    wordKind w = .ident ∧ ∀ k ∈ keywords, k.fixedText? ≠ some w := by
  unfold wordKind
  cases h : keywords.find? (·.fixedText? == some w) with
  | some k => exact .inl (by simpa using List.find?_some h)
  | none =>
    rw [List.find?_eq_none] at h
    exact .inr ⟨rfl, fun k hk => by simpa using h k hk⟩

theorem fixedText?_of_mem_symbols {k : TokenKind} (hk : k ∈ symbols) :
    k.fixedText? = some (k.fixedText?.getD []) := by
  revert k
  decide

theorem symbolAt?_of_mem {k : TokenKind} {s rest : Text} (hk : k ∈ symbols)
    (h : k.fixedText? = some s) (hr : ∀ b ∈ rest.head?, k.stopsAt b = true) :
    symbolAt? (s ++ rest) = some k := by
  cases k with
  | number | string | ident | ifWord | thenWord | elseWord | endifWord | whileWord | endwhileWord
  | endOfInput => exact absurd hk (by decide)
  | greater | less =>
    cases h
    cases rest with
    | nil => rfl
    | cons c rest =>
      have hc : ((61 : UInt8) == c && [].isPrefixOf rest) = false := by
        have : c ≠ 61 := by simpa [TokenKind.stopsAt] using hr c rfl
        rw [Bool.and_eq_false_iff, beq_eq_false_iff_ne]
        exact .inl this.symm
      -- All but the symbol with the equals sign are told apart by the first byte.
      show (match ((61 : UInt8) == c && [].isPrefixOf rest) with | true => _ | false => _) = _
      rw [hc]
      rfl
  | _ => cases h; rfl

namespace Lexer

variable {lx lx' : Lexer} {t : Token} {raw gap rest : Text}

theorem pending_begin_of_gap {b : UInt8} (hg : ∀ b ∈ gap, Byte.isBlank b = true)
    (hb : Byte.isBlank b = false) (hp : lx.reader.pending = gap ++ b :: rest) :
    lx.begin.reader.pending = b :: rest := by
  rw [pending_begin, hp]
  exact dropWhile_run hg (by simp [hb])

theorem next_of_word (hg : ∀ b ∈ gap, Byte.isBlank b = true) (hne : raw ≠ [])
    (hl : ∀ b ∈ raw, Byte.isLetter b = true) (hr : ∀ b ∈ rest.head?, Byte.isLetter b = false)
    (hp : lx.reader.pending = gap ++ (raw ++ rest)) :
    ∃ u lx', lx.next = (.ok u, lx') ∧ u.kind = wordKind raw ∧ u.lexeme = raw ∧
      lx'.reader.pending = rest := by
  obtain ⟨b, w, rfl⟩ := List.exists_cons_of_ne_nil hne
  have hb := hl b List.mem_cons_self
  have hp' := pending_begin_of_gap hg (Byte.class_of_isLetter hb).1 hp
  have ht : lx.begin.reader.pending.takeWhile Byte.isLetter = b :: w := by
    rw [hp']
    exact takeWhile_run hl hr
  rw [next_cons hp', if_pos hb, word, ht]
  exact ⟨_, _, rfl, rfl, rfl, by rw [pending_take, hp']; exact List.drop_left⟩

theorem next_of_numeral {n : Numeral} {x : Double} (hg : ∀ b ∈ gap, Byte.isBlank b = true)
    (hn : n.IsLiteral) (hv : n.value? = some x)
    (hr : ∀ b ∈ rest.head?, Byte.isDigit b = false ∧ b ≠ Byte.point)
    (hp : lx.reader.pending = gap ++ (n.text ++ rest)) :
    ∃ u lx', lx.next = (.ok u, lx') ∧ u.kind = .number ∧ u.lexeme = n.text ∧ u.value = x ∧
      lx'.reader.pending = rest := by
  obtain ⟨b, ds, e⟩ := List.exists_cons_of_ne_nil hn.whole_ne_nil
  have hb := hn.isDigits_whole b (by simp [e])
  obtain ⟨ds', e'⟩ := n.text_eq_cons e
  have hp' : lx.begin.reader.pending = n.text ++ rest := by
    rw [e'] at hp ⊢
    exact pending_begin_of_gap hg (Byte.class_of_isDigit hb).1 hp
  have hc := Byte.class_of_isDigit hb
  rw [next_cons (by rw [hp', e', List.cons_append]), if_neg (by simp [hc]), if_pos hb, numeral, hp',
    Numeral.scan_text hn fun b hb => ⟨(hr b hb).1, fun _ => (hr b hb).2⟩]
  have hend : n.endsInPoint = false := by simpa [Numeral.endsInPoint] using hn.fraction_ne_nil
  simp only [hend, hv, Bool.false_eq_true, if_false]
  refine ⟨_, _, rfl, rfl, rfl, rfl, ?_⟩
  show (lx.begin.take n.text.length n.text).reader.pending = rest
  rw [pending_take, hp']
  exact List.drop_left

theorem next_of_string {quote : UInt8} (hg : ∀ b ∈ gap, Byte.isBlank b = true)
    (hq : Byte.isQuote quote = true) (hs : quote ∉ raw)
    (hp : lx.reader.pending = gap ++ (quote :: (raw ++ [quote]) ++ rest)) :
    ∃ u lx', lx.next = (.ok u, lx') ∧ u.kind = .string ∧ u.lexeme = raw ∧
      lx'.reader.pending = rest := by
  have hb := Byte.class_of_isQuote hq
  have hp' : lx.begin.reader.pending = quote :: (raw ++ quote :: rest) :=
    pending_begin_of_gap hg hb.1 (by simpa using hp)
  have ht : (raw ++ quote :: rest).takeWhile (· != quote) = raw :=
    takeWhile_run (fun b hb => by simpa using fun e : b = quote => hs (e ▸ hb)) (by simp)
  rw [next_cons hp', if_neg (by simp [hb]), if_neg (by simp [hb]), if_pos hq, quoted]
  simp only [ht]
  rw [if_pos (by simp)]
  refine ⟨_, _, rfl, rfl, rfl, ?_⟩
  rw [pending_take, hp']
  simp

theorem next_of_symbol {k : TokenKind} (hg : ∀ b ∈ gap, Byte.isBlank b = true)
    (hk : k ∈ symbols) (h : k.fixedText? = some raw) (hr : ∀ b ∈ rest.head?, k.stopsAt b = true)
    (hp : lx.reader.pending = gap ++ (raw ++ rest)) :
    ∃ u lx', lx.next = (.ok u, lx') ∧ u.kind = k ∧ u.lexeme = raw ∧ lx'.reader.pending = rest := by
  have hfirst : ∀ k ∈ symbols, ∀ s ∈ k.fixedText?, s.head?.any (fun b =>
      !(Byte.isBlank b || Byte.isLetter b || Byte.isDigit b || Byte.isQuote b)) = true := by decide
  have hb := hfirst k hk raw h
  obtain ⟨b, w, rfl⟩ : ∃ b w, raw = b :: w := by
    cases raw with
    | nil => cases hb
    | cons b w => exact ⟨b, w, rfl⟩
  simp only [List.head?_cons, Option.any_some, Bool.not_eq_true', Bool.or_eq_false_iff] at hb
  obtain ⟨⟨⟨hblank, hletter⟩, hdigit⟩, hquote⟩ := hb
  have hp' := pending_begin_of_gap hg hblank hp
  rw [next_cons hp', if_neg (by simp [hletter]), if_neg (by simp [hdigit]), if_neg (by simp [hquote]),
    symbol, hp']
  rw [show b :: List.append w rest = (b :: w) ++ rest from rfl, symbolAt?_of_mem hk h hr]
  simp only [h, Option.getD_some]
  exact ⟨_, _, rfl, rfl, rfl, by rw [pending_take, hp']; exact List.drop_left⟩

theorem mem_of_fixedText? {k : TokenKind} (h : k.fixedText? = some raw) :
    (k ∈ keywords ∧ raw ≠ [] ∧ ∀ b ∈ raw, Byte.isLetter b = true) ∨ k ∈ symbols := by
  revert raw
  cases k <;> decide +kernel

theorem isWord_of_mem {k : TokenKind} (h : k ∈ keywords) : k.isWord = true := by
  revert h
  cases k <;> decide

/-- The lexer reads what is written, up to a byte that does not belong to it. -/
theorem next_of_spells (hs : Spells raw t) (hg : ∀ b ∈ gap, Byte.isBlank b = true)
    (hr : ∀ b ∈ rest.head?, t.kind.stopsAt b = true)
    (hp : lx.reader.pending = gap ++ (raw ++ rest)) :
    ∃ u lx', lx.next = (.ok u, lx') ∧ t.Same u ∧ lx'.reader.pending = rest := by
  have hword : t.kind.isWord = true → ∀ b ∈ rest.head?, Byte.isLetter b = false :=
    fun hk b hb => TokenKind.isLetter_of_stopsAt hk (hr b hb)
  cases hs with
  | fixed h =>
    have hnum : t.kind ≠ .number := by
      intro hk
      rw [hk] at h
      cases h
    rcases mem_of_fixedText? h with ⟨hk, hne, hl⟩ | hk
    · obtain ⟨u, lx', hn, hkind, hlex, hp'⟩ :=
        next_of_word hg hne hl (hword (isWord_of_mem hk)) hp
      have hsame : t.kind = u.kind := by rw [hkind, wordKind_of_mem hk h]
      exact ⟨u, lx', hn, ⟨hsame, hlex.symm, fun hk => absurd hk hnum⟩, hp'⟩
    · obtain ⟨u, lx', hn, hkind, hlex, hp'⟩ := next_of_symbol hg hk h hr hp
      exact ⟨u, lx', hn, ⟨hkind.symm, hlex.symm, fun hk => absurd hk hnum⟩, hp'⟩
  | name hk hname =>
    obtain ⟨u, lx', hn, hkind, hlex, hp'⟩ :=
      next_of_word hg hname.ne_nil hname.letters (hword (by rw [hk]; rfl)) hp
    exact ⟨u, lx', hn, ⟨by rw [hkind, hk, wordKind_of_isName hname], hlex.symm, by simp [hk]⟩, hp'⟩
  | @number t n hk hlit htext hv =>
    rw [← htext] at hp
    rw [hk] at hr
    obtain ⟨u, lx', hn, hkind, hlex, hval, hp'⟩ :=
      next_of_numeral hg hlit hv (fun b hb => TokenKind.class_of_stopsAt (hr b hb)) hp
    exact ⟨u, lx', hn, ⟨hk.trans hkind.symm, by rw [hlex, htext], fun _ => hval.symm⟩, hp'⟩
  | string hk hq hmem =>
    obtain ⟨u, lx', hn, hkind, hlex, hp'⟩ := next_of_string hg hq hmem hp
    exact ⟨u, lx', hn, ⟨hk.trans hkind.symm, hlex.symm, by simp [hk]⟩, hp'⟩

/-! ## Writing what is read -/

/-- What is read as a token can be written. -/
def Gives (r : Except Error Token × Lexer) : Prop :=
  ∀ t, r.1 = .ok t → t.kind ≠ .endOfInput → ∃ raw, Spells raw t

theorem gives_fail {f : LexFault} {p : Pos} : Gives (lx.fail f p) := fun _ h => by cases h

theorem word_gives {b : UInt8} (hp : lx.reader.pending = b :: rest)
    (hb : Byte.isLetter b = true) : Gives lx.word := by
  intro t ht _
  cases ht
  rcases wordKind_cases (lx.reader.pending.takeWhile Byte.isLetter) with h | ⟨h, hk⟩
  · exact ⟨_, .fixed h⟩
  · have hne : lx.reader.pending.takeWhile Byte.isLetter ≠ [] := by simp [hp, hb]
    exact ⟨_, .name h ⟨hne, fun b hb => List.mem_takeWhile_imp hb, hk⟩⟩

theorem numeral_gives {b : UInt8} (hp : lx.reader.pending = b :: rest)
    (hb : Byte.isDigit b = true) : Gives lx.numeral := by
  unfold numeral
  simp only
  split
  · exact gives_fail
  · next he =>
    split
    · next x hv =>
      intro t ht _
      cases ht
      rw [hp] at he hv ⊢
      exact ⟨_, .number rfl (Numeral.isLiteral_scan hb (by simpa using he)) rfl hv⟩
    · exact gives_fail

theorem quoted_gives {b : UInt8} (hb : Byte.isQuote b = true) : Gives (lx.quoted b rest) := by
  unfold quoted
  simp only
  split
  · intro t ht _
    cases ht
    exact ⟨_, .string rfl hb fun hm => by simpa using List.mem_takeWhile_imp hm⟩
  · exact gives_fail

theorem symbol_gives {b : UInt8} : Gives (lx.symbol b) := by
  unfold symbol
  split
  · next k hk =>
    intro t ht _
    cases ht
    have hmem := List.mem_of_find?_eq_some hk
    exact ⟨_, .fixed (fixedText?_of_mem_symbols hmem)⟩
  · exact gives_fail

/-- The lexer gives tokens that can be written. -/
theorem next_spells (h : lx.next = (.ok t, lx')) (hk : t.kind ≠ .endOfInput) :
    ∃ raw, Spells raw t := by
  have hgives : Gives lx.next := by
    refine next_cases Gives (fun _ => ?_) (fun hp hb => word_gives hp hb)
      (fun hp hb => numeral_gives hp hb) (fun _ hb => quoted_gives hb) (fun _ => symbol_gives)
    intro t ht hk
    cases ht
    exact absurd rfl hk
  exact hgives t (by rw [h]) hk

end Lexer

end ScriptEngine
