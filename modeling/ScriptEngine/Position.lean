import ScriptEngine.Text

/-!
# Positions

A position is a line, a column and the name of a file. Lines count from one, so a position whose
line is not positive is unset.
-/

namespace ScriptEngine

structure Pos where
  line : Int
  column : Int
  file : Text
  deriving DecidableEq

namespace Pos

def unset : Pos := ⟨0, 0, []⟩

def isSet (p : Pos) : Bool := 0 < p.line

/-- What stands before a message or a trace line. -/
def label (p : Pos) : Text :=
  p.file ++ Byte.colon :: Text.ofInt p.line ++ Byte.colon :: Text.ofInt p.column ++
    [Byte.colon, Byte.space]

/-- A text with the position in front, if it is set. -/
def before (p : Pos) (text : Text) : Text := if p.isSet then p.label ++ text else text

end Pos

end ScriptEngine
