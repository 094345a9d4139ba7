import Lox.Text.Ranges

/-!
# Blank characters

Blank characters separate tokens and mean nothing else. They are those with the Unicode property
`White_Space`, not only the six of ASCII.
-/

namespace Lox.Text

/-- The code points with the property `White_Space`. -/
def blankRanges : Ranges :=
  [(9, 13), (32, 32), (133, 133), (160, 160), (5760, 5760), (8192, 8202), (8232, 8233),
    (8239, 8239), (8287, 8287), (12288, 12288)]

/-- A space, a line end, or any other character with the property `White_Space`. -/
def isBlank (c : Char) : Bool := blankRanges.holds c.toNat

theorem blankRanges_ascends : blankRanges.ascends 0 = true := by decide

example : blankRanges.count = 25 := by decide

end Lox.Text
