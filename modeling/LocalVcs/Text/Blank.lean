/-
# Blank characters

The characters of the Unicode property `White_Space`, and cutting them off the ends of a text.

The standard `trim` cuts them off what `Refs` reads.
-/
import LocalVcs.Text.Ranges

namespace LocalVcs.Text

/-- The code points with the property `White_Space`, as closed ranges in ascending order. -/
def blankRanges : List (Nat × Nat) :=
  [(0x09, 0x0D), (0x20, 0x20), (0x85, 0x85), (0xA0, 0xA0), (0x1680, 0x1680), (0x2000, 0x200A),
   (0x2028, 0x2029), (0x202F, 0x202F), (0x205F, 0x205F), (0x3000, 0x3000)]

/-- A character that counts as white space. -/
def isBlank (c : Char) : Bool := inRanges c.toNat blankRanges

/-- A text without the blanks it begins with. -/
def trimStart (cs : List Char) : List Char := cs.dropWhile isBlank

/-- A text without the blanks at its two ends. -/
def trim (cs : List Char) : List Char := (trimStart (trimStart cs).reverse).reverse

/-- The text of a string without the blanks at its two ends. -/
def trimmed (text : String) : String := String.ofList (trim text.toList)

end LocalVcs.Text
