import ScriptEngine.Token.Lexer
import ScriptEngine.Tree.Parser

/-!
# Scripts

A script is a program read from a source, with the name of the file it came from.
-/

namespace ScriptEngine

structure Script where
  root : Block
  file : Text

namespace Script

/-- Reads a program from a source, a token at a time. -/
def compile (file source : Text) : Except Rejection Script := do
  let (root, _) ← Parser.parse (source.length + 1) (Lexer.start file source true)
  return ⟨root, file⟩

end Script

end ScriptEngine
