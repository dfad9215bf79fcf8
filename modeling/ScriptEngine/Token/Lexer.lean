import ScriptEngine.Double.Numeral
import ScriptEngine.Token.Basic

/-!
# The lexer

A `Reader` is a place in a source: the bytes still to come, with the line and the number of bytes of
that line already read. A `Lexer` adds what the last token left behind. `Lexer.next` skips blanks and
takes the longest token from the front, or fails; after a failure the lexer stands where the fault
was found and can be asked again.

`Lexer.restart` goes back to the beginning of a source that can be rewound. On one that cannot, it
fails, and all that the lexer will still see is the byte it has already looked at.
-/

namespace ScriptEngine

/-! ## Places in a source -/

structure Reader where
  /-- The bytes still to come. -/
  pending : Text
  line : Nat
  /-- How many bytes of the line have been read. -/
  before : Nat
  deriving DecidableEq

namespace Reader

def start (source : Text) : Reader := ⟨source, 1, 0⟩

/-- Reads past `n` bytes. -/
def skip : Nat → Reader → Reader
  | 0, r => r
  | _ + 1, ⟨[], line, before⟩ => ⟨[], line, before⟩
  | n + 1, ⟨b :: rest, line, before⟩ =>
    if b = Byte.newline then skip n ⟨rest, line + 1, 0⟩ else skip n ⟨rest, line, before + 1⟩

def skipBlanks (r : Reader) : Reader := r.skip (r.pending.takeWhile Byte.isBlank).length

/-- The column of the next byte, counted from one; at the end, that of the last byte. -/
def column (r : Reader) : Nat := if r.pending.isEmpty then r.before else r.before + 1

@[simp] theorem pending_skip (n : Nat) (r : Reader) : (r.skip n).pending = r.pending.drop n := by
  induction n generalizing r with
  | zero => simp [skip]
  | succ n ih =>
    obtain ⟨pending, line, before⟩ := r
    cases pending with
    | nil => simp [skip]
    | cons b rest =>
      rw [skip]
      split <;> simp [ih]

theorem skip_add (m n : Nat) (r : Reader) : r.skip (m + n) = (r.skip m).skip n := by
  induction m generalizing r with
  | zero => simp [skip]
  | succ m ih =>
    obtain ⟨pending, line, before⟩ := r
    rw [Nat.succ_add]
    cases pending with
    | nil => cases n <;> simp [skip]
    | cons b rest =>
      simp only [skip]
      split <;> exact ih _

end Reader

/-! ## Fixed texts -/

def keywords : List TokenKind :=
  [.ifWord, .thenWord, .elseWord, .endifWord, .whileWord, .endwhileWord]

/-- Longer texts come before their beginnings. -/
def symbols : List TokenKind :=
  [.openParen, .closeParen, .comma, .equals, .plus, .minus, .star, .slash, .greaterEq, .greater,
    .lessEq, .less]

/-- The keyword that a whole word is, or an identifier. -/
def wordKind (word : Text) : TokenKind :=
  (keywords.find? (·.fixedText? == some word)).getD .ident

/-- The longest symbol at the front of `input`. -/
def symbolAt? (input : Text) : Option TokenKind :=
  symbols.find? fun k => (k.fixedText?.getD []).isPrefixOf input

/-! ## The lexer -/

structure Lexer where
  file : Text
  source : Text
  /-- Whether the source can be read again from its beginning. -/
  seekable : Bool
  reader : Reader
  /-- Whether the next byte has been looked at. -/
  primed : Bool
  /-- The text of the last token, or of the fault in its place. -/
  lexeme : Text
  /-- The last number read. -/
  value : Double
  /-- Where the last token started. -/
  tokenPos : Pos
  deriving DecidableEq

namespace Lexer

def start (file source : Text) (seekable : Bool) : Lexer where
  file
  source
  seekable
  reader := Reader.start source
  primed := false
  lexeme := []
  value := Double.zero
  tokenPos := Pos.unset

/-- The position of the next byte, or of the end; before anything is read, column zero. -/
def here (lx : Lexer) : Pos :=
  ⟨lx.reader.line, if lx.primed then lx.reader.column else lx.reader.before, lx.file⟩

/-- Skips blanks and marks the start of a token. -/
def begin (lx : Lexer) : Lexer :=
  let lx := { lx with reader := lx.reader.skipBlanks, primed := true, lexeme := [] }
  { lx with tokenPos := lx.here }

/-- Reads past `n` bytes, leaving `lexeme` as the text read. -/
def take (lx : Lexer) (n : Nat) (lexeme : Text) : Lexer :=
  { lx with reader := lx.reader.skip n, lexeme }

def emit (lx : Lexer) (kind : TokenKind) : Except Error Token × Lexer :=
  (.ok ⟨kind, lx.lexeme, lx.value, lx.tokenPos⟩, lx)

def fail (lx : Lexer) (fault : LexFault) (pos : Pos) : Except Error Token × Lexer :=
  (.error (.of (.lexical fault) pos), lx)

def word (lx : Lexer) : Except Error Token × Lexer :=
  let text := lx.reader.pending.takeWhile Byte.isLetter
  (lx.take text.length text).emit (wordKind text)

def numeral (lx : Lexer) : Except Error Token × Lexer :=
  let n := Numeral.scan lx.reader.pending
  let lx := lx.take n.text.length n.text
  if n.endsInPoint then lx.fail (.missingDigit n.text) lx.here
  else
    match n.value? with
    | some x => { lx with value := x }.emit .number
    | none => lx.fail (.outOfRange n.text) lx.tokenPos

/-- A string whose opening quote is `quote` and which goes on with `rest`. -/
def quoted (lx : Lexer) (quote : UInt8) (rest : Text) : Except Error Token × Lexer :=
  let text := rest.takeWhile (· != quote)
  if text.length < rest.length then (lx.take (text.length + 2) text).emit .string
  else (lx.take (text.length + 1) text).fail (.unterminated quote) lx.tokenPos

def symbol (lx : Lexer) (first : UInt8) : Except Error Token × Lexer :=
  match symbolAt? lx.reader.pending with
  | some k =>
    let text := k.fixedText?.getD []
    (lx.take text.length text).emit k
  | none => lx.fail (.unexpected first) lx.tokenPos

/-- The next token, or what is wrong in its place. -/
def next (lx : Lexer) : Except Error Token × Lexer :=
  let lx := lx.begin
  match lx.reader.pending with
  | [] => lx.emit .endOfInput
  | b :: rest =>
    if Byte.isLetter b then lx.word
    else if Byte.isDigit b then lx.numeral
    else if Byte.isQuote b then lx.quoted b rest
    else lx.symbol b

/-- Keeps of the input only the byte that has been looked at. -/
def cutShort (lx : Lexer) : Lexer :=
  let seen := if lx.primed then 1 else 0
  { lx with reader := { lx.reader with pending := lx.reader.pending.take seen } }

/-- Goes back to the beginning of the source. -/
def restart (lx : Lexer) : Except Error Unit × Lexer :=
  if lx.seekable then (.ok (), start lx.file lx.source true)
  else (.error (.of (.lexical .cannotRestart) lx.here), lx.cutShort)

instance : Rewindable Lexer where
  next := next
  restart := restart
  lexeme := lexeme
  value := value
  tokenPos := tokenPos

end Lexer

end ScriptEngine
