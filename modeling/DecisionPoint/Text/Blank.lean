/-!
Blank characters and trimming. Documents, tenant names and timestamps are
all trimmed of the characters Unicode calls white space, a wider class than
the four blanks that JSON allows between its tokens.
-/

namespace DecisionPoint.Text

/-- The characters with the Unicode property `White_Space`. -/
def isBlank (c : Char) : Bool :=
  let n := c.toNat
  (0x09 ≤ n && n ≤ 0x0D) || n == 0x20 || n == 0x85 || n == 0xA0 || n == 0x1680 ||
    (0x2000 ≤ n && n ≤ 0x200A) || n == 0x2028 || n == 0x2029 || n == 0x202F ||
    n == 0x205F || n == 0x3000

/-- The text from its first character that is not blank. -/
def skipBlank (cs : List Char) : List Char :=
  cs.dropWhile isBlank

/-- The text between its first and its last character that is not blank. -/
def trimBlank (cs : List Char) : List Char :=
  (skipBlank (skipBlank cs).reverse).reverse

def trim (s : String) : String :=
  String.ofList (trimBlank s.toList)

end DecisionPoint.Text
