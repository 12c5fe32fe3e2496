import DeskCalc.Command
import DeskCalc.Lexeme

/-!
# Tokens

The tokens of a line are its lexemes without the blanks, with every symbol
decoded as a command.
-/

namespace DeskCalc

/-- A unit of a line that is carried out. -/
inductive Token where
  | command (c : Command)
  /-- The text of a literal, not yet read as a number. -/
  | literal (text : List Char)
  /-- A character that is no command. -/
  | invalid (c : Char)
  deriving DecidableEq, Repr

namespace Token

def ofSymbol (c : Char) : Token :=
  match Command.ofChar? c with
  | some cmd => command cmd
  | none => invalid c

def ofLexeme? : Lexeme → Option Token
  | .blank _ => none
  | .literal text => some (literal text)
  | .symbol c => some (ofSymbol c)

/-- The tokens of a line, from left to right. -/
def ofLine (line : List Char) : List Token :=
  (Lexeme.scan line).filterMap ofLexeme?

end Token

end DeskCalc
