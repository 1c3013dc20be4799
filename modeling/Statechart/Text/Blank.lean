/-!
# Blank characters

The characters with the White_Space property, and the text between the blank ends
of a string.
-/

namespace Statechart.Text

/-- The code points with the White_Space property. -/
def blankCodes : List Nat :=
  [0x9, 0xA, 0xB, 0xC, 0xD, 0x20, 0x85, 0xA0, 0x1680,
   0x2000, 0x2001, 0x2002, 0x2003, 0x2004, 0x2005, 0x2006, 0x2007, 0x2008, 0x2009, 0x200A,
   0x2028, 0x2029, 0x202F, 0x205F, 0x3000]

/-- A character is blank when it has the White_Space property. -/
def isBlank (c : Char) : Bool :=
  blankCodes.contains c.toNat

/-- The characters of `s` after its leading blanks. -/
def dropBlank (s : List Char) : List Char :=
  s.dropWhile isBlank

/-- The characters of `s` between its leading and its trailing blanks. -/
def trim (s : List Char) : List Char :=
  ((dropBlank s).reverse.dropWhile isBlank).reverse

end Statechart.Text
