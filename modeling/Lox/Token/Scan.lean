import Lox.Token.Cursor

/-!
# All tokens of a text

What repeated steps of a `Cursor` deliver is held here as data. The tokens in front of the end or of
the first error form a list, and what follows them for ever is one of three endings.
-/

namespace Lox

/-- What comes after the last token. -/
inductive Ending where
  /-- The end of the text, on this line. -/
  | finished (line : Nat)
  /-- A character that no token starts with. -/
  | unexpected (c : Char) (line : Nat)
  /-- A string that opens on line `line` and is not closed up to the end, on line `last`. -/
  | unterminated (line last : Nat)
deriving DecidableEq, Repr

namespace Ending

/-- What an attempt to read past the last token gives, and what stands there afterwards. -/
def next : Ending → Except LexError Token × Ending
  | finished line => (.ok (Token.atEnd line), finished line)
  | unexpected c line => (.error (.unexpectedCharacter c line), unexpected c line)
  | unterminated line last => (.error (.unterminatedString line), finished last)

end Ending

/-- The tokens of a text, and what ends them. -/
structure Scan where
  tokens : List Token
  ending : Ending

namespace Scan

/-- The tokens from a place on, at most `bound` of them. -/
def upTo : Nat → Cursor → Scan
  | 0, c => ⟨[], .finished c.line⟩
  | bound + 1, c =>
    match c.next with
    | (.ok token, after) =>
      if token.kind = .endOfText then ⟨[], .finished token.line⟩
      else
        let later := upTo bound after
        ⟨token :: later.tokens, later.ending⟩
    | (.error (.unexpectedCharacter char line), _) => ⟨[], .unexpected char line⟩
    | (.error (.unterminatedString line), after) => ⟨[], .unterminated line after.line⟩

/-- The tokens from a place on. Each takes a character at least, which bounds their number. -/
def ofCursor (c : Cursor) : Scan := upTo (c.rest.length + 1) c

def ofText (text : String) : Scan := ofCursor (Cursor.start text)

/-- The next token and what follows it. -/
def next : Scan → Except LexError Token × Scan
  | ⟨token :: later, ending⟩ => (.ok token, ⟨later, ending⟩)
  | ⟨[], ending⟩ => (ending.next.1, ⟨[], ending.next.2⟩)

/-- The tokens with the one for the end of the text, or the first error. -/
def toTokens (scan : Scan) : Except LexError (List Token) :=
  match scan.ending.next.1 with
  | .ok last => .ok (scan.tokens ++ [last])
  | .error error => .error error

end Scan

/-- The tokens of a text; the last is the one for its end. -/
def tokenize (text : String) : Except LexError (List Token) := (Scan.ofText text).toTokens

end Lox
