import Lox.Token.Lexeme

/-!
# Reading tokens one by one

This file is about a place in a text and the step from it to the next token. Lines are counted in
one function, `Cursor.advance`, which every step goes through, so a token's line is one more than
the number of line ends in front of it, whatever those line ends stood in.
-/

namespace Lox

/-- Why a text cannot be split into tokens. -/
inductive LexError where
  /-- A character that no token starts with, outside strings and comments. -/
  | unexpectedCharacter (c : Char) (line : Nat)
  /-- A string that nothing closes; the line is that of its opening quote. -/
  | unterminatedString (line : Nat)
deriving DecidableEq, Repr

namespace LexError

def line : LexError → Nat
  | unexpectedCharacter _ line => line
  | unterminatedString line => line

def message : LexError → String
  | unexpectedCharacter c line =>
    "[line " ++ toString line ++ "] Error: Unexpected character '" ++ c.toString ++ "'."
  | unterminatedString line => "[line " ++ toString line ++ "] Error: Unterminated string."

end LexError

/-- A place in a text: the characters that follow it, and its line. -/
structure Cursor where
  rest : List Char
  line : Nat

namespace Cursor

/-- The start of a text. -/
def start (text : String) : Cursor := ⟨text.toList, 1⟩

/-- The place `n` characters further on. -/
def advance (c : Cursor) (n : Nat) : Cursor :=
  ⟨c.rest.drop n, c.line + (c.rest.take n).count '\n'⟩

/-- The place after blank characters and comments. -/
def skipTrivia (c : Cursor) : Cursor := c.advance (triviaLength false c.rest)

/-- The next token, and the place after it. At the end of the text the token is always the one for
the end. An unexpected character stays in front of the place, so it is met again; an unterminated
string is passed with all that follows it. -/
def next (c : Cursor) : Except LexError Token × Cursor :=
  let c := c.skipTrivia
  match Head.ofText c.rest with
  | .finished => (.ok (Token.atEnd c.line), c)
  | .lexeme kind chars literal =>
    (.ok ⟨kind, String.ofList chars, literal, c.line⟩, c.advance chars.length)
  | .unterminated => (.error (.unterminatedString c.line), c.advance c.rest.length)
  | .unexpected char => (.error (.unexpectedCharacter char c.line), c)

end Cursor

end Lox
