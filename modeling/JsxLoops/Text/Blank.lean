/-!
Blank characters and trimming. A character is blank when it has the Unicode property White_Space;
trimming removes blanks from one end or both.
-/

namespace JsxLoops.Text

def isBlank (c : Char) : Bool :=
  let code := c.toNat
  (9 ≤ code && code ≤ 13) || code == 32 || code == 0x85 || code == 0xA0 || code == 0x1680 ||
    (0x2000 ≤ code && code ≤ 0x200A) || code == 0x2028 || code == 0x2029 || code == 0x202F ||
    code == 0x205F || code == 0x3000

def trimLeft (s : List Char) : List Char := s.dropWhile isBlank

/-- Drops the longest run at the end whose characters all satisfy `p`. -/
def dropRight (p : Char → Bool) (s : List Char) : List Char :=
  (s.reverse.dropWhile p).reverse

def trimRight (s : List Char) : List Char := dropRight isBlank s

def trim (s : List Char) : List Char := trimRight (trimLeft s)

end JsxLoops.Text
