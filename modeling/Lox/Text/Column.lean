/-!
# Columns

In a column, texts are filled up with blanks to a common width. A text that is wider already stays
as it is.
-/

namespace Lox.Text

/-- Blanks to fill up a text of `length` characters. -/
def blanks (width length : Nat) : String := String.ofList (List.replicate (width - length) ' ')

/-- A text at the right edge of a column. -/
def alignRight (width : Nat) (text : String) : String := blanks width text.length ++ text

/-- A text at the left edge of a column. -/
def alignLeft (width : Nat) (text : String) : String := text ++ blanks width text.length

end Lox.Text
