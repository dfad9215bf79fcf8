import ScriptEngine.Token.Lexer

/-!
# Scanning a stream

A `Stream` gives the bytes of its content one after the other. At the end, and whenever an operation
does not succeed, it sets bits that stop all further reading until they are cleared.

A `Scanner` reads tokens from a stream. It holds the byte that it read last, which is the first one
that no token has taken, and knows the position of that byte. `Scanner.restart` clears the bits of the
stream and goes back to its beginning, which a stream that cannot seek refuses to do.
-/

namespace ScriptEngine

/-! ## Streams -/

structure Stream where
  content : Text
  /-- How many bytes have been read. -/
  offset : Nat
  /-- Whether another offset can be chosen. -/
  seekable : Bool
  eof : Bool
  failed : Bool
  deriving DecidableEq

namespace Stream

def ofText (content : Text) (seekable : Bool) : Stream := ⟨content, 0, seekable, false, false⟩

def isGood (s : Stream) : Bool := !s.eof && !s.failed

/-- Takes a byte. At the end of the content both bits are set; while one of them is set, there is
nothing to take. -/
def get (s : Stream) : Option UInt8 × Stream :=
  if s.isGood then
    match s.content[s.offset]? with
    | some b => (some b, { s with offset := s.offset + 1 })
    | none => (none, { s with eof := true, failed := true })
  else (none, { s with failed := true })

def clear (s : Stream) : Stream := { s with eof := false, failed := false }

/-- Goes to an offset within the content, unless the stream has failed or cannot seek. -/
def seek (s : Stream) (offset : Nat) : Stream :=
  if s.failed then { s with eof := false }
  else if s.seekable && offset ≤ s.content.length then { s with offset, eof := false }
  else { s with eof := false, failed := true }

/-- How many bytes are left. -/
def left (s : Stream) : Nat := s.content.length - s.offset

theorem left_get (s : Stream) : s.get.1.toList.length + s.get.2.left ≤ s.left := by
  unfold get
  split
  · split
    · next h =>
      have hlt : s.offset < s.content.length := (List.getElem?_eq_some_iff.mp h).1
      simp only [left, Option.toList_some, List.length_singleton]
      omega
    · simp [left]
  · simp [left]

end Stream

/-! ## Scanners -/

structure Scanner where
  stream : Stream
  /-- The byte read last, or none at the end of the input; a blank before anything is read. -/
  held : Option UInt8
  /-- The position of the byte held. -/
  pos : Pos
  /-- Where the last token started. -/
  tokenPos : Pos
  /-- The text of the last token, or of the fault in its place. -/
  lexeme : Text
  /-- The last number read. -/
  value : Double
  deriving DecidableEq

namespace Scanner

def start (file source : Text) (seekable : Bool) : Scanner where
  stream := .ofText source seekable
  held := some Byte.space
  pos := ⟨1, 0, file⟩
  tokenPos := Pos.unset
  lexeme := []
  value := Double.zero

/-- Reads a byte. The one after a newline stands on a new line. -/
def advance (sc : Scanner) : Scanner :=
  let pos := if sc.held = some Byte.newline then { sc.pos with line := sc.pos.line + 1, column := 0 }
    else sc.pos
  let (held, stream) := sc.stream.get
  { sc with
    stream
    held
    pos := if held.isSome then { pos with column := pos.column + 1 } else pos }

/-- The byte held; what the end of the input looks like, if it is taken for a byte. -/
def byte (sc : Scanner) : UInt8 := sc.held.getD 255

/-- Adds the byte held to the text and reads another. -/
def push (sc : Scanner) : Scanner := { sc with lexeme := sc.lexeme ++ [sc.byte] }.advance

/-- How many bytes can still be taken. -/
def ahead (sc : Scanner) : Nat := sc.held.toList.length + sc.stream.left

theorem ahead_advance {sc : Scanner} {b : UInt8} (h : sc.held = some b) :
    sc.advance.ahead < sc.ahead := by
  have hget := sc.stream.left_get
  simp only [ahead, advance, h, Option.toList_some, List.length_singleton]
  omega

theorem ahead_push {sc : Scanner} {b : UInt8} (h : sc.held = some b) : sc.push.ahead < sc.ahead := by
  have h' : ({ sc with lexeme := sc.lexeme ++ [sc.byte] } : Scanner).held = some b := h
  exact ahead_advance h'

def skipWhile (p : UInt8 → Bool) (sc : Scanner) : Scanner :=
  match _h : sc.held with
  | some b => if p b then sc.advance.skipWhile p else sc
  | none => sc
termination_by sc.ahead
decreasing_by exact ahead_advance _h

def pushWhile (p : UInt8 → Bool) (sc : Scanner) : Scanner :=
  match _h : sc.held with
  | some b => if p b then sc.push.pushWhile p else sc
  | none => sc
termination_by sc.ahead
decreasing_by exact ahead_push _h

def emit (sc : Scanner) (kind : TokenKind) : Except Error Token × Scanner :=
  (.ok ⟨kind, sc.lexeme, sc.value, sc.tokenPos⟩, sc)

def fail (sc : Scanner) (fault : LexFault) (pos : Pos) : Except Error Token × Scanner :=
  (.error (.of (.lexical fault) pos), sc)

/-! ## Tokens -/

/-- Skips blanks and marks the start of a token. -/
def begin (sc : Scanner) : Scanner :=
  let sc := { sc with lexeme := [] }.skipWhile Byte.isBlank
  { sc with tokenPos := sc.pos }

def word (sc : Scanner) : Except Error Token × Scanner :=
  let sc := sc.pushWhile Byte.isLetter
  sc.emit (wordKind sc.lexeme)

/-- The number that the text read so far denotes. -/
def number (sc : Scanner) : Except Error Token × Scanner :=
  match (Numeral.scan sc.lexeme).value? with
  | some x => { sc with value := x }.emit .number
  | none => sc.fail (.outOfRange sc.lexeme) sc.tokenPos

def numeral (sc : Scanner) : Except Error Token × Scanner :=
  let sc := sc.pushWhile Byte.isDigit
  if sc.held = some Byte.point then
    let sc := sc.push
    if sc.held.any Byte.isDigit then (sc.pushWhile Byte.isDigit).number
    else sc.fail (.missingDigit sc.lexeme) sc.pos
  else sc.number

def quoted (sc : Scanner) (quote : UInt8) : Except Error Token × Scanner :=
  let sc := sc.advance.pushWhile (· != quote)
  if sc.held = some quote then sc.advance.emit .string
  else sc.fail (.unterminated quote) sc.tokenPos

def separators : List TokenKind := [.openParen, .closeParen, .comma]

def operators : List TokenKind :=
  [.equals, .plus, .minus, .star, .slash, .greater, .greaterEq, .less, .lessEq]

/-- Takes bytes as long as an operator begins with them, and gives the last operator that they have
made up on the way; `found` is the one so far. -/
def operatorFrom (sc : Scanner) (found : Option TokenKind) : Option TokenKind × Scanner :=
  let candidate := sc.lexeme ++ [sc.byte]
  let found := (operators.find? (·.fixedText? == some candidate)).or found
  match _h : sc.held with
  | some _ =>
    if operators.any fun k => candidate.isPrefixOf (k.fixedText?.getD []) then
      sc.push.operatorFrom found
    else (found, sc)
  | none => (found, sc)
termination_by sc.ahead
decreasing_by exact ahead_push _h

def operator (sc : Scanner) : Except Error Token × Scanner :=
  let (found, sc) := sc.operatorFrom none
  match found.filter (·.fixedText? == some sc.lexeme) with
  | some k => sc.emit k
  | none => sc.fail (.unexpected sc.byte) sc.tokenPos

/-- A separator or an operator, with `first` for the byte held. -/
def symbol (sc : Scanner) (first : UInt8) : Except Error Token × Scanner :=
  match separators.find? (·.fixedText? == some [first]) with
  | some k => sc.push.emit k
  | none => sc.operator

/-- The next token, or what is wrong in its place. -/
def next (sc : Scanner) : Except Error Token × Scanner :=
  let sc := sc.begin
  match sc.held with
  | none => sc.emit .endOfInput
  | some b =>
    if Byte.isLetter b then sc.word
    else if Byte.isDigit b then sc.numeral
    else if Byte.isQuote b then sc.quoted b
    else sc.symbol b

/-- Goes back to the beginning of the stream. -/
def restart (sc : Scanner) : Except Error Unit × Scanner :=
  let stream := sc.stream.clear.seek 0
  if stream.failed then (.error (.of (.lexical .cannotRestart) sc.pos), { sc with stream })
  else
    (.ok (),
      { stream
        held := some Byte.space
        pos := { sc.pos with line := 1, column := 0 }
        tokenPos := Pos.unset
        lexeme := []
        value := Double.zero })

instance : Rewindable Scanner where
  next := next
  restart := restart
  lexeme := lexeme
  value := value
  tokenPos := tokenPos

end Scanner

end ScriptEngine
