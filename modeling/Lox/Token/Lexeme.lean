import Lox.Token
import Lox.Text.Alphabetic
import Lox.Text.Blank
import Lox.Text.Numeric

/-!
# What a text starts with

This file is about the first few characters of a text, seen without its place. They are either
something to skip (blank characters and comments) or a lexeme, and a lexeme is taken as long as its
form allows: `>=` and not `>`, all digits of a number, the whole of a word. The kind and the literal
of a token depend on its lexeme alone, so they are found here too.
-/

namespace Lox

open Text

/-! ## What is skipped -/

/-- How many characters at the start of a text are blank or belong to a comment. A comment runs
from `//` up to the end of its line; `inComment` says whether the text starts inside one. -/
def triviaLength (inComment : Bool) : List Char → Nat
  | [] => 0
  | c :: rest =>
    if inComment then 1 + triviaLength (c != '\n') rest
    else if isBlank c then 1 + triviaLength false rest
    else if c == '/' && rest.head? == some '/' then 1 + triviaLength true rest
    else 0

/-! ## The forms of lexemes -/

/-- Operators and punctuation; one that starts with another stands before it. -/
def operators : List (List Char × TokenKind) :=
  [(['!', '='], .bangEqual), (['=', '='], .equalEqual), (['<', '='], .lessEqual),
    (['>', '='], .greaterEqual), (['!'], .bang), (['='], .equal), (['<'], .less),
    (['>'], .greater), (['('], .leftParen), ([')'], .rightParen), (['\x7b'], .leftBrace),
    (['\x7d'], .rightBrace), ([','], .comma), (['.'], .dot), (['-'], .minus), (['+'], .plus),
    ([';'], .semicolon), (['*'], .star), (['/'], .slash)]

/-- The longest operator a text starts with. -/
def operator? (text : List Char) : Option (List Char × TokenKind) :=
  operators.find? fun (lexeme, _) => lexeme.isPrefixOf text

theorem operator?_isPrefix {text chars : List Char} {kind : TokenKind}
    (found : operator? text = some (chars, kind)) : chars <+: text := by
  unfold operator? at found
  have isPrefix := List.find?_some found
  exact List.isPrefixOf_iff_prefix.mp isPrefix

/-- The characters a word may start with. -/
def isWordStart (c : Char) : Bool := isAlphabetic c || c == '_'

/-- The characters a word may go on with. -/
def isWordPart (c : Char) : Bool := isAlphabetic c || isNumeric c || c == '_'

/-- The digits after a point at the start of a text, or none if no digit follows the point. -/
def fractionDigits : List Char → List Char
  | '.' :: rest => rest.takeWhile Char.isDigit
  | _ => []

/-! ## The first lexeme -/

/-- What stands at the start of a text whose trivia are skipped. -/
inductive Head where
  /-- The text is over. -/
  | finished
  | lexeme (kind : TokenKind) (chars : List Char) (literal : Option Value)
  /-- A quote opens a string that nothing closes. -/
  | unterminated
  /-- No lexeme starts with this character. -/
  | unexpected (c : Char)

namespace Head

/-- A number: digits, and if a point and another digit follow, these and all digits after. -/
def number (text : List Char) : Head :=
  let whole := text.takeWhile Char.isDigit
  let fraction := fractionDigits (text.dropWhile Char.isDigit)
  let chars := if fraction.isEmpty then whole else whole ++ '.' :: fraction
  lexeme .number chars (some (.number (Number.ofDigits whole fraction)))

/-- A word: reserved, or else an identifier. -/
def word (text : List Char) : Head :=
  let chars := text.takeWhile isWordPart
  let kind := (TokenKind.keyword? (String.ofList chars)).getD .identifier
  lexeme kind chars kind.wordValue?

/-- A string, whose opening quote is already passed: all up to the next quote, line ends included.
Nothing in it has a special meaning. -/
def string (text : List Char) : Head :=
  let inner := text.takeWhile (· != '"')
  match text.dropWhile (· != '"') with
  | [] => unterminated
  | _ :: _ => lexeme .string ('"' :: (inner ++ ['"'])) (some (.string (String.ofList inner)))

/-- The head of a text whose trivia are skipped. -/
def ofText : List Char → Head
  | [] => finished
  | c :: rest =>
    if c == '"' then string rest
    else if c.isDigit then number (c :: rest)
    else if isWordStart c then word (c :: rest)
    else
      match operator? (c :: rest) with
      | some (chars, kind) => lexeme kind chars none
      | none => unexpected c

/-! ## A lexeme is what the text starts with -/

theorem fractionDigits_isPrefix {text : List Char} (some : ¬ (fractionDigits text).isEmpty) :
    '.' :: fractionDigits text <+: text := by
  unfold fractionDigits at some ⊢
  split
  · exact (List.prefix_cons_inj '.').mpr (List.takeWhile_prefix _)
  · simp at some

theorem number_isPrefix {text chars : List Char} {kind : TokenKind} {literal : Option Value}
    (head : number text = lexeme kind chars literal) : chars <+: text := by
  injection head with _ chars_eq
  subst chars_eq
  split
  · exact List.takeWhile_prefix _
  · next some =>
    have whole := List.takeWhile_append_dropWhile (p := Char.isDigit) (l := text)
    obtain ⟨later, eq⟩ := fractionDigits_isPrefix some
    exact ⟨later, by rw [List.append_assoc, eq, whole]⟩

end Head

end Lox
