/-!
White space. A character is blank when it has the Unicode property `White_Space`; texts are
trimmed of blank characters at both ends.
-/

namespace ChatAgent.Text

/-- The code points with the property `White_Space`. -/
def isBlank (c : Char) : Bool :=
  let n := c.toNat
  (0x09 ≤ n && n ≤ 0x0d) || n == 0x20 || n == 0x85 || n == 0xa0 || n == 0x1680 ||
    (0x2000 ≤ n && n ≤ 0x200a) || n == 0x2028 || n == 0x2029 || n == 0x202f || n == 0x205f ||
    n == 0x3000

/-- The characters without the blank ones at the front. -/
def trimLeft (cs : List Char) : List Char := cs.dropWhile isBlank

/-- The characters without the blank ones at the end. -/
def trimRight (cs : List Char) : List Char := (cs.reverse.dropWhile isBlank).reverse

/-- A text without the blank characters at either end. -/
def trim (s : String) : String := String.ofList (trimRight (trimLeft s.toList))

/-- A text is blank when it has no character but blank ones; the empty text is. -/
def isBlankText (s : String) : Bool := s.toList.all isBlank

/-- A text without the slashes at its end. -/
def trimSlashes (s : String) : String :=
  String.ofList (s.toList.reverse.dropWhile (· == '/')).reverse

/-- The ASCII letters made small, all else left alone. -/
def lowercase (s : String) : String := String.ofList (s.toList.map Char.toLower)

end ChatAgent.Text
