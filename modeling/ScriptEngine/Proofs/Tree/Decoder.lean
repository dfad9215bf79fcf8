import ScriptEngine.Proofs.Double.Figure
import ScriptEngine.Proofs.Lexer.Lexeme
import ScriptEngine.Proofs.Tree.Shape

/-!
# Reading S-expressions

`Shape.decode` reads an S-expression from the front of a text. It finds every tree again whose
contents can be told from the text around them (`Shape.IsPlain`), and stops where its text ends
(`Shape.decode_text`). What it needs to see after the text is a space, a closing parenthesis or the
end.

A list is read by its head and the items after it; which tree it is then depends on their number only.
-/

namespace ScriptEngine

/-- Letters, at least one. -/
structure Text.IsWord (w : Text) : Prop where
  ne_nil : w ≠ []
  letters : ∀ b ∈ w, Byte.isLetter b = true

/-- Nothing, or a space or a closing parenthesis first. -/
def Text.Closes (rest : Text) : Prop := ∀ b ∈ rest.head?, b = Byte.space ∨ b = Byte.closeParen

namespace Shape

/-! ## Plain trees -/

mutual

/-- Names are words, numbers have one text, strings are free of the quote they are written in, and
operators belong to their nodes. -/
@[simp] def IsPlain : Shape → Prop
  | number x => x.IsPlain
  | string s => Byte.doubleQuote ∉ s
  | var n => n.IsWord
  | binary op l r => (op.isAdditive || op.isMultiplicative) = true ∧ l.IsPlain ∧ r.IsPlain
  | comparison op l r => op.isComparison = true ∧ l.IsPlain ∧ r.IsPlain
  | call n args => n.IsWord ∧ AllPlain args
  | assign n v => n.IsWord ∧ v.IsPlain
  | block ss => AllPlain ss
  | ifThen c t => c.IsPlain ∧ t.IsPlain
  | ifElse c t e => c.IsPlain ∧ t.IsPlain ∧ e.IsPlain
  | loop c b => c.IsPlain ∧ b.IsPlain

@[simp] def AllPlain : List Shape → Prop
  | [] => True
  | t :: ts => t.IsPlain ∧ AllPlain ts

end

theorem AllPlain.forall_mem {ts : List Shape} (h : AllPlain ts) : ∀ t ∈ ts, t.IsPlain := by
  induction ts with
  | nil => simp
  | cons t ts ih => exact List.forall_mem_cons.mpr ⟨h.1, ih h.2⟩

/-! ## The decoder -/

/-- What a list begins with. -/
inductive Head where
  | operator (op : TokenKind)
  | call (name : Text)
  | assign (name : Text)
  | block
  | branch
  | loop

namespace Head

def text : Head → Text
  | operator op => op.symbol
  | call n => Text.ascii "call " ++ n
  | assign n => Text.ascii "assign " ++ n
  | block => Text.ascii "block"
  | branch => Text.ascii "if"
  | loop => Text.ascii "while"

def IsPlain : Head → Prop
  | operator op => (op.isAdditive || op.isMultiplicative || op.isComparison) = true
  | call n | assign n => n.IsWord
  | _ => True

/-- Neither a space nor a closing parenthesis. -/
def isInner (b : UInt8) : Bool := !(b == Byte.space || b == Byte.closeParen)

/-- The head at the front of a text: a word, and after some words a name. -/
def read (input : Text) : Option (Head × Text) :=
  let word := input.takeWhile isInner
  let rest := input.dropWhile isInner
  let name := (rest.drop 1).takeWhile isInner
  let afterName := (rest.drop 1).dropWhile isInner
  if word = Text.ascii "call" then some (call name, afterName)
  else if word = Text.ascii "assign" then some (assign name, afterName)
  else if word = Text.ascii "block" then some (block, rest)
  else if word = Text.ascii "if" then some (branch, rest)
  else if word = Text.ascii "while" then some (loop, rest)
  else (TokenKind.all.find? (·.symbol == word)).map fun op => (operator op, rest)

/-- The tree with this head and these items. -/
def build : Head → List Shape → Option Shape
  | operator op, [l, r] => some (if op.isComparison then .comparison op l r else .binary op l r)
  | call n, args => some (.call n args)
  | assign n, [v] => some (.assign n v)
  | block, ss => some (.block ss)
  | branch, [c, t] => some (.ifThen c t)
  | branch, [c, t, e] => some (.ifElse c t e)
  | loop, [c, b] => some (.loop c b)
  | _, _ => none

end Head

/-- Items, each after a space, up to a closing parenthesis; `fuel` is more than there are. -/
def readItems (readItem : Text → Option (Shape × Text)) : Nat → Text → Option (List Shape × Text)
  | 0, _ => none
  | _ + 1, [] => none
  | fuel + 1, b :: rest =>
    if b = Byte.closeParen then some ([], rest)
    else if b = Byte.space then do
      let (t, rest) ← readItem rest
      let (ts, rest) ← readItems readItem fuel rest
      return (t :: ts, rest)
    else none

/-- The tree at the front of a text no longer than `fuel`, and what comes after it. -/
def readAt : Nat → Text → Option (Shape × Text)
  | 0, _ => none
  | _ + 1, [] => none
  | fuel + 1, b :: rest =>
    if b = Byte.openParen then do
      let (head, rest) ← Head.read rest
      let (items, rest) ← readItems (readAt fuel) (fuel + 1) rest
      return (← head.build items, rest)
    else if b = Byte.doubleQuote then
      some (string (rest.takeWhile (· != Byte.doubleQuote)),
        (rest.dropWhile (· != Byte.doubleQuote)).drop 1)
    else if Byte.isLetter b then
      some (var ((b :: rest).takeWhile Byte.isLetter), (b :: rest).dropWhile Byte.isLetter)
    else
      let (x, rest) := Double.scan (b :: rest)
      some (number x, rest)

def decode (input : Text) : Option (Shape × Text) := readAt input.length input

/-! ## Lists -/

variable {head : Head} {c t : Shape} {items ts : List Shape} {rest : Text} {fuel : Nat}

theorem isInner_of_isLetter {b : UInt8} (h : Byte.isLetter b = true) : Head.isInner b = true := by
  have hs : b ≠ Byte.space := by rintro rfl; cases h
  have hc : b ≠ Byte.closeParen := by rintro rfl; cases h
  simp [Head.isInner, hs, hc]

theorem isInner_of_closes (h : rest.Closes) : ∀ b ∈ rest.head?, Head.isInner b = false := by
  intro b hb
  rcases h b hb with rfl | rfl <;> rfl

theorem closes_textAll (ts : List Shape) (rest : Text) :
    (textAll ts ++ Byte.closeParen :: rest).Closes := by
  intro b hb
  cases ts with
  | nil => cases hb; exact .inr rfl
  | cons t ts => cases hb; exact .inl rfl

/-- A word with nothing to it is a head by itself. -/
theorem Head.read_word {w : Text} (hw : ∀ b ∈ w, isInner b = true) (hr : rest.Closes)
    (hne : w ≠ Text.ascii "call" ∧ w ≠ Text.ascii "assign") :
    read (w ++ rest) =
      if w = Text.ascii "block" then some (block, rest)
      else if w = Text.ascii "if" then some (branch, rest)
      else if w = Text.ascii "while" then some (loop, rest)
      else (TokenKind.all.find? (·.symbol == w)).map fun op => (operator op, rest) := by
  have hstop := isInner_of_closes hr
  rw [read]
  simp only [takeWhile_run hw hstop, dropWhile_run hw hstop, if_neg hne.1, if_neg hne.2]

/-- After the word of a call or an assignment comes a name. -/
theorem Head.read_name {w n : Text} (hw : w = Text.ascii "call" ∨ w = Text.ascii "assign")
    (hn : n.IsWord) (hr : rest.Closes) :
    read (w ++ Byte.space :: (n ++ rest)) =
      if w = Text.ascii "call" then some (call n, rest) else some (assign n, rest) := by
  have hinner : ∀ b ∈ w, isInner b = true := by
    rcases hw with rfl | rfl <;> decide +kernel
  have hspace : ∀ b ∈ (Byte.space :: (n ++ rest)).head?, isInner b = false := by
    intro b hb
    cases hb
    rfl
  have hn' : ∀ b ∈ n, isInner b = true := fun b hb => isInner_of_isLetter (hn.letters b hb)
  have hstop := isInner_of_closes hr
  rw [read]
  simp only [takeWhile_run hinner hspace, dropWhile_run hinner hspace, List.drop_one, List.tail_cons,
    takeWhile_run hn' hstop, dropWhile_run hn' hstop]
  rcases hw with rfl | rfl <;> rfl

theorem Head.read_text (hh : head.IsPlain) (hr : rest.Closes) :
    read (head.text ++ rest) = some (head, rest) := by
  cases head with
  | operator op =>
    have hop : ∀ op : TokenKind, (op.isAdditive || op.isMultiplicative || op.isComparison) = true →
        (∀ b ∈ op.symbol, isInner b = true) ∧
        (op.symbol ≠ Text.ascii "call" ∧ op.symbol ≠ Text.ascii "assign") ∧
        op.symbol ≠ Text.ascii "block" ∧ op.symbol ≠ Text.ascii "if" ∧
        op.symbol ≠ Text.ascii "while" ∧ TokenKind.all.find? (·.symbol == op.symbol) = some op := by
      intro op h
      revert h
      cases op <;> decide +kernel
    obtain ⟨hw, hne, h1, h2, h3, hfind⟩ := hop op hh
    rw [text, read_word hw hr hne, if_neg h1, if_neg h2, if_neg h3, hfind]
    rfl
  | call n =>
    rw [text, show Text.ascii "call " ++ n ++ rest = Text.ascii "call" ++ Byte.space :: (n ++ rest) by
      simp [Text.ascii]; rfl, read_name (.inl rfl) hh hr, if_pos rfl]
  | assign n =>
    rw [text, show Text.ascii "assign " ++ n ++ rest =
        Text.ascii "assign" ++ Byte.space :: (n ++ rest) by simp [Text.ascii]; rfl,
      read_name (.inr rfl) hh hr, if_neg (by decide)]
  | block =>
    rw [text, read_word (by decide +kernel) hr (by decide), if_pos rfl]
  | branch =>
    rw [text, read_word (by decide +kernel) hr (by decide), if_neg (by decide), if_pos rfl]
  | loop =>
    rw [text, read_word (by decide +kernel) hr (by decide), if_neg (by decide), if_neg (by decide),
      if_pos rfl]

theorem readItems_textAll {readItem : Text → Option (Shape × Text)}
    (hread : ∀ t ∈ ts, ∀ rest : Text, rest.Closes → readItem (t.text ++ rest) = some (t, rest))
    (hf : ts.length < fuel) (rest : Text) :
    readItems readItem fuel (textAll ts ++ Byte.closeParen :: rest) = some (ts, rest) := by
  induction ts generalizing fuel with
  | nil =>
    obtain ⟨k, rfl⟩ := Nat.exists_eq_succ_of_ne_zero (Nat.ne_of_gt hf)
    rfl
  | cons t ts ih =>
    obtain ⟨k, rfl⟩ := Nat.exists_eq_succ_of_ne_zero (Nat.ne_of_gt (Nat.zero_lt_of_lt hf))
    rw [List.forall_mem_cons] at hread
    have ht := hread.1 _ (closes_textAll ts rest)
    have hts := ih hread.2 (Nat.lt_of_succ_lt_succ hf)
    have hspace : Byte.space ≠ Byte.closeParen := by decide
    simp [readItems, hspace, ht, hts]

theorem length_le_textAll (ts : List Shape) : ts.length ≤ (textAll ts).length := by
  induction ts with
  | nil => simp
  | cons t ts ih =>
    simp only [textAll, List.length_cons, List.length_append]
    omega

theorem length_text_lt_textAll (h : t ∈ ts) : t.text.length < (textAll ts).length := by
  induction ts with
  | nil => cases h
  | cons u ts ih =>
    simp only [textAll, List.length_cons, List.length_append]
    rcases List.mem_cons.mp h with rfl | h
    · omega
    · have := ih h
      omega

/-- `t` is written as the list of a head and items. -/
structure Form (t : Shape) (head : Head) (items : List Shape) : Prop where
  text : t.text = form head.text (textAll items)
  build : head.build items = some t
  head : head.IsPlain
  items : ∀ c ∈ items, c.IsPlain

namespace Form

theorem length_text (h : Form t head items) :
    t.text.length = head.text.length + (textAll items).length + 2 := by
  simp only [h.text, form, List.length_cons, List.length_append, List.length_nil]
  omega

theorem length_lt (h : Form t head items) (hc : c ∈ items) : c.text.length + 1 < t.text.length := by
  have := length_text_lt_textAll hc
  rw [h.length_text]
  omega

theorem length_items_lt (h : Form t head items) : items.length + 1 < t.text.length := by
  have := length_le_textAll items
  rw [h.length_text]
  omega

theorem readAt (h : Form t head items) (hf : items.length ≤ fuel)
    (hread : ∀ c ∈ items, ∀ rest : Text, rest.Closes →
      Shape.readAt fuel (c.text ++ rest) = some (c, rest)) :
    Shape.readAt (fuel + 1) (t.text ++ rest) = some (t, rest) := by
  have hhead := Head.read_text h.head (closes_textAll items rest)
  have hitems := readItems_textAll hread (Nat.lt_succ_of_le hf) rest
  rw [h.text]
  simp [form, Shape.readAt, hhead, hitems, h.build]

end Form

theorem exists_form (h : t.IsPlain) :
    (∃ head items, Form t head items) ∨
      (∃ x, t = number x) ∨ (∃ s, t = string s) ∨ ∃ n, t = var n := by
  cases t with
  | number x => exact .inr (.inl ⟨x, rfl⟩)
  | string s => exact .inr (.inr (.inl ⟨s, rfl⟩))
  | var n => exact .inr (.inr (.inr ⟨n, rfl⟩))
  | binary op l r =>
    obtain ⟨hop, hl, hr⟩ := h
    have hnc : op.isComparison = false := by revert hop; cases op <;> decide
    exact .inl ⟨.operator op, [l, r], by simp [Head.text], by simp [Head.build, hnc],
      by simp [Head.IsPlain, hnc, hop], by simp [hl, hr]⟩
  | comparison op l r =>
    obtain ⟨hop, hl, hr⟩ := h
    exact .inl ⟨.operator op, [l, r], by simp [Head.text], by simp [Head.build, hop],
      by simp [Head.IsPlain, hop], by simp [hl, hr]⟩
  | call n args => exact .inl ⟨.call n, args, rfl, rfl, h.1, AllPlain.forall_mem h.2⟩
  | assign n v => exact .inl ⟨.assign n, [v], by simp [Head.text], rfl, h.1, by simpa using h.2⟩
  | block ss => exact .inl ⟨.block, ss, rfl, rfl, trivial, AllPlain.forall_mem h⟩
  | ifThen c t => exact .inl ⟨.branch, [c, t], by simp [Head.text], rfl, trivial, by simpa using h⟩
  | ifElse c t e =>
    exact .inl ⟨.branch, [c, t, e], by simp [Head.text], rfl, trivial, by simpa using h⟩
  | loop c b => exact .inl ⟨.loop, [c, b], by simp [Head.text], rfl, trivial, by simpa using h⟩

/-! ## Numbers, strings and names -/

theorem stops_of_closes (h : rest.Closes) : Figure.Stops rest := by
  intro b hb
  rcases h b hb with rfl | rfl <;> decide

/-- A number begins like neither a list nor a string nor a name. -/
theorem decimal_eq_cons {x : Double} (h : x.IsPlain) : ∃ b w, x.decimal 17 = b :: w ∧
    b ≠ Byte.openParen ∧ b ≠ Byte.doubleQuote ∧ Byte.isLetter b = false := by
  obtain ⟨b, w, hw, hb⟩ := Figure.text_eq_cons (Decimal.isLiteral_figure 17 (Double.fraction x.magnitude))
  rw [Double.decimal_of_isPlain h, hw]
  cases x.isNegative with
  | true => exact ⟨Byte.minus, b :: w, rfl, by decide⟩
  | false =>
    refine ⟨b, w, rfl, ?_, ?_, ?_⟩
    · rintro rfl; cases hb
    · rintro rfl; cases hb
    · exact (Byte.class_of_isDigit hb).2.1

theorem readAt_number {x : Double} (h : x.IsPlain) (hr : rest.Closes) :
    readAt (fuel + 1) (x.decimal 17 ++ rest) = some (number x, rest) := by
  have hscan := Double.scan_decimal h (stops_of_closes hr)
  obtain ⟨b, w, hw, hopen, hquote, hletter⟩ := decimal_eq_cons h
  rw [hw] at hscan ⊢
  simp only [List.cons_append] at hscan ⊢
  rw [readAt, if_neg hopen, if_neg hquote, if_neg (by simp [hletter]), hscan]

theorem readAt_string {s : Text} (h : Byte.doubleQuote ∉ s) :
    readAt (fuel + 1) ((string s).text ++ rest) = some (string s, rest) := by
  have hs : ∀ b ∈ s, (b != Byte.doubleQuote) = true := by
    intro b hb
    rw [bne_iff_ne]
    rintro rfl
    exact h hb
  have hstop : ∀ b ∈ (Byte.doubleQuote :: rest).head?, (b != Byte.doubleQuote) = false := by
    intro b hb
    cases hb
    rfl
  have hne : Byte.doubleQuote ≠ Byte.openParen := by decide
  simp [readAt, hne, takeWhile_run hs hstop, dropWhile_run hs hstop]

theorem readAt_var {n : Text} (h : n.IsWord) (hr : rest.Closes) :
    readAt (fuel + 1) (n ++ rest) = some (var n, rest) := by
  have hstop : ∀ b ∈ rest.head?, Byte.isLetter b = false := by
    intro b hb
    rcases hr b hb with rfl | rfl <;> rfl
  have htake := takeWhile_run h.letters hstop
  have hdrop := dropWhile_run h.letters hstop
  obtain ⟨b, w, rfl⟩ := List.exists_cons_of_ne_nil h.ne_nil
  have hb := h.letters b List.mem_cons_self
  have hopen : b ≠ Byte.openParen := by rintro rfl; cases hb
  have hquote : b ≠ Byte.doubleQuote := by rintro rfl; cases hb
  simp only [List.cons_append] at htake hdrop ⊢
  rw [readAt, if_neg hopen, if_neg hquote, if_pos hb, htake, hdrop]

/-! ## All trees -/

theorem text_ne_nil (h : t.IsPlain) : t.text ≠ [] := by
  rcases exists_form h with ⟨head, items, hform⟩ | ⟨x, rfl⟩ | ⟨s, rfl⟩ | ⟨n, rfl⟩
  · simp [hform.text, form]
  · obtain ⟨b, w, hw, -⟩ := decimal_eq_cons h
    simp [hw]
  · simp
  · exact h.ne_nil

theorem readAt_text (h : t.IsPlain) (hf : t.text.length ≤ fuel) (hr : rest.Closes) :
    readAt fuel (t.text ++ rest) = some (t, rest) := by
  induction fuel generalizing t rest with
  | zero => exact absurd (List.eq_nil_of_length_eq_zero (Nat.le_zero.mp hf)) (text_ne_nil h)
  | succ fuel ih =>
    rcases exists_form h with ⟨head, items, hform⟩ | ⟨x, rfl⟩ | ⟨s, rfl⟩ | ⟨n, rfl⟩
    · -- Items are shorter than the list they stand in, so there is fuel for them.
      refine hform.readAt ?_ fun c hc rest hrest => ih (hform.items c hc) ?_ hrest
      · have := hform.length_items_lt
        omega
      · have := hform.length_lt hc
        omega
    · exact readAt_number h hr
    · exact readAt_string h
    · exact readAt_var h hr

theorem decode_text (h : t.IsPlain) (hr : rest.Closes) : decode (t.text ++ rest) = some (t, rest) :=
  readAt_text h (by simp) hr

end Shape

/-- A plain tree is read back from its S-expression, up to the byte where that ends; for a node this
is the node without its positions. -/
theorem sexpr_decodes :
    (∀ (t : Shape) (rest : Text), t.IsPlain → rest.Closes →
      Shape.decode (t.text ++ rest) = some (t, rest)) ∧
    ∀ (n : Node) (rest : Text), n.shape.IsPlain → rest.Closes →
      n.sexpr = n.shape.text ∧
      (Shape.decode (n.sexpr ++ rest)).map (fun r => (r.1.toNode, r.2)) = some (n.erase, rest) := by
  refine ⟨fun t rest h hr => Shape.decode_text h hr, fun n rest h hr => ⟨n.sexpr_eq, ?_⟩⟩
  rw [n.sexpr_eq, Shape.decode_text h hr, Option.map_some, n.toNode_shape]

/-- A comparison of a string with a negative number, and a block, as the operands of a sum. -/
theorem sexpr_decodes_operands :
    let t : Shape := .binary .plus
      (.comparison .less (.string (Text.ascii ") (")) (.number ⟨0xBFF8000000000000⟩))
      (.block [.ifThen (.var [97]) (.call [98] [])])
    Shape.decode (t.text ++ [Byte.closeParen]) = some (t, [Byte.closeParen]) := by
  intro t
  refine sexpr_decodes.1 t _ ?_ fun b hb => by cases hb; exact .inr rfl
  have hletter : ∀ b : UInt8, Byte.isLetter b = true → Text.IsWord [b] := fun b hb =>
    ⟨by simp, by simpa using hb⟩
  have hx : (⟨0xBFF8000000000000⟩ : Double).IsPlain := ⟨by decide +kernel, by decide +kernel⟩
  simp only [t, Shape.IsPlain, Shape.AllPlain]
  exact ⟨rfl, ⟨rfl, by decide, hx⟩, ⟨hletter 97 rfl, hletter 98 rfl, trivial⟩, trivial⟩

end ScriptEngine
