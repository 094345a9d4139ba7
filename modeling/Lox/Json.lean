import Lox.Number.Shortest
import Lox.Number.Decimal

/-!
# JSON documents and their text

Documents are data, and there are two ways to write one down: on a single line, or with one line for
each item. The members of an object are written in the order in which the document has them, a
string with the shortest escape for each character that needs one, and a number with the fewest
digits that read back as it.
-/

namespace Lox

inductive Json where
  | null
  | boolean (b : Bool)
  /-- A count, written without a point. -/
  | natural (n : Nat)
  /-- A finite number, written with a point or an exponent. -/
  | number (x : Float)
  | text (s : String)
  | list (items : List Json)
  | object (members : List (String × Json))
deriving Inhabited

namespace Json

/-! ## Scalars -/

/-- Numbers from `0.00001` up to sixteen digits in front of the point have no exponent. -/
def pointRange : Number.PointRange := ⟨-4, 16⟩

/-- The escape of a character without one of its own. -/
def hexEscape (c : Char) : List Char :=
  ['\\', 'u', '0', '0', Nat.digitChar (c.toNat / 16), Nat.digitChar (c.toNat % 16)]

/-- A character inside a string: the quote, the backslash and control characters are escaped. -/
def escape (c : Char) : List Char :=
  match c with
  | '"' => ['\\', '"']
  | '\\' => ['\\', '\\']
  | '\x08' => ['\\', 'b']
  | '\t' => ['\\', 't']
  | '\n' => ['\\', 'n']
  | '\x0c' => ['\\', 'f']
  | '\r' => ['\\', 'r']
  | c => if c.toNat < 32 then hexEscape c else [c]

def quoted (s : String) : String := "\"" ++ String.ofList (s.toList.flatMap escape) ++ "\""

/-! ## On one line -/

mutual

/-- The text without blanks or line ends. -/
def compact : Json → String
  | null => "null"
  | boolean b => if b then "true" else "false"
  | natural n => toString n
  | number x => Number.shortestText pointRange x
  | text s => quoted s
  | list [] => "[]"
  | list (item :: items) => "[" ++ compact item ++ compactItems items ++ "]"
  | object [] => "\x7b\x7d"
  | object ((key, value) :: members) =>
    "\x7b" ++ quoted key ++ ":" ++ compact value ++ compactMembers members ++ "\x7d"

/-- The items after the first. -/
def compactItems : List Json → String
  | [] => ""
  | item :: items => "," ++ compact item ++ compactItems items

/-- The members after the first. -/
def compactMembers : List (String × Json) → String
  | [] => ""
  | (key, value) :: members => "," ++ quoted key ++ ":" ++ compact value ++ compactMembers members

end

/-! ## On many lines -/

/-- A line end, and the blanks in front of an item `depth` levels inside the document. -/
def newline (depth : Nat) : String := "\n" ++ String.ofList (List.replicate (2 * depth) ' ')

mutual

/-- The text of a document that stands `depth` levels inside another, each item on a line of its
own. Empty lists and objects stay on one line. -/
def indentedAt (depth : Nat) : Json → String
  | null => "null"
  | boolean b => if b then "true" else "false"
  | natural n => toString n
  | number x => Number.shortestText pointRange x
  | text s => quoted s
  | list [] => "[]"
  | list (item :: items) =>
    "[" ++ newline (depth + 1) ++ indentedAt (depth + 1) item ++ indentedItems (depth + 1) items
      ++ newline depth ++ "]"
  | object [] => "\x7b\x7d"
  | object ((key, value) :: members) =>
    "\x7b" ++ newline (depth + 1) ++ quoted key ++ ": " ++ indentedAt (depth + 1) value
      ++ indentedMembers (depth + 1) members ++ newline depth ++ "\x7d"

/-- The items after the first, `depth` levels inside the document. -/
def indentedItems (depth : Nat) : List Json → String
  | [] => ""
  | item :: items => "," ++ newline depth ++ indentedAt depth item ++ indentedItems depth items

/-- The members after the first, `depth` levels inside the document. -/
def indentedMembers (depth : Nat) : List (String × Json) → String
  | [] => ""
  | (key, value) :: members =>
    "," ++ newline depth ++ quoted key ++ ": " ++ indentedAt depth value
      ++ indentedMembers depth members

end

/-- The text with two blanks for each level. -/
def indented (json : Json) : String := json.indentedAt 0

end Json

end Lox
