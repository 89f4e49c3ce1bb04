import JsxLoops.Json.Value

/-!
Reading JSON. A text holds one value with blanks around it; nothing else is let through.
-/

namespace JsxLoops.Json

abbrev Reader (α : Type) := List Char → Option (α × List Char)

def isGap (c : Char) : Bool := c == ' ' || c == '\n' || c == '\t' || c == '\r'

def skipGap (text : List Char) : List Char := text.dropWhile isGap

/-! ### Strings -/

def hexValue? (c : Char) : Option Nat :=
  if '0' ≤ c ∧ c ≤ '9' then some (c.toNat - '0'.toNat)
  else if 'a' ≤ c ∧ c ≤ 'f' then some (c.toNat - 'a'.toNat + 10)
  else if 'A' ≤ c ∧ c ≤ 'F' then some (c.toNat - 'A'.toNat + 10)
  else none

def hexCode? (a b c d : Char) : Option Nat := do
  return 4096 * (← hexValue? a) + 256 * (← hexValue? b) + 16 * (← hexValue? c) + (← hexValue? d)

def escapedCode? : Char → Option Nat
  | '\x22' => some 0x22
  | '\x5c' => some 0x5C
  | '/' => some 0x2F
  | 'b' => some 8
  | 'f' => some 12
  | 'n' => some 10
  | 'r' => some 13
  | 't' => some 9
  | _ => none

/-- The codes of a string after its opening quote. Characters stand for their code points, and
escapes for units of 16 bits. -/
def readCodes : Reader (List Nat)
  | [] => none
  | '\x22' :: rest => some ([], rest)
  | '\x5c' :: 'u' :: a :: b :: c :: d :: rest => do
    let code ← hexCode? a b c d
    let (codes, rest) ← readCodes rest
    return (code :: codes, rest)
  | '\x5c' :: c :: rest => do
    let code ← escapedCode? c
    let (codes, rest) ← readCodes rest
    return (code :: codes, rest)
  | c :: rest => do
    if c.toNat < 0x20 then none
    let (codes, rest) ← readCodes rest
    return (c.toNat :: codes, rest)

/-- The characters of some codes, where two halves make one character. -/
def joinHalves : List Nat → Option (List Char)
  | [] => some []
  | high :: low :: rest =>
    if 0xD800 ≤ high ∧ high < 0xDC00 then
      if 0xDC00 ≤ low ∧ low < 0xE000 then
        (joinHalves rest).map
          (Char.ofNat (0x10000 + 0x400 * (high - 0xD800) + (low - 0xDC00)) :: ·)
      else none
    else if 0xDC00 ≤ high ∧ high < 0xE000 then none
    else (joinHalves (low :: rest)).map (Char.ofNat high :: ·)
  | [code] => if 0xD800 ≤ code ∧ code < 0xE000 then none else some [Char.ofNat code]

def readString : Reader (Option String) := fun text => do
  let (codes, rest) ← readCodes text
  return ((joinHalves codes).map String.ofList, rest)

/-! ### Numbers -/

def splitDigits (text : List Char) : List Char × List Char :=
  (text.takeWhile Char.isDigit, text.dropWhile Char.isDigit)

/-- The digits before a point: a zero, or some that do not start with one. -/
def readWhole : Reader (List Char)
  | '0' :: rest => some (['0'], rest)
  | text =>
    let (digits, rest) := splitDigits text
    if digits.isEmpty then none else some (digits, rest)

def readFraction : Reader (Option (List Char))
  | '.' :: rest =>
    let (digits, rest) := splitDigits rest
    if digits.isEmpty then none else some (some digits, rest)
  | text => some (none, text)

def readExponentDigits (negative : Bool) : Reader (Option Int) := fun text =>
  let (digits, rest) := splitDigits text
  if digits.isEmpty then none
  else
    let value : Int := digitsValue digits
    some (some (if negative then -value else value), rest)

def readExponent : Reader (Option Int)
  | 'e' :: '+' :: rest | 'E' :: '+' :: rest => readExponentDigits false rest
  | 'e' :: '-' :: rest | 'E' :: '-' :: rest => readExponentDigits true rest
  | 'e' :: rest | 'E' :: rest => readExponentDigits false rest
  | text => some (none, text)

def readNumeral : Reader Numeral := fun text => do
  let (negative, text) := match text with
    | '-' :: rest => (true, rest)
    | _ => (false, text)
  let (whole, text) ← readWhole text
  let (fraction, text) ← readFraction text
  let (exponent, text) ← readExponent text
  return (⟨negative, whole, fraction, exponent⟩, text)

/-! ### Values -/

/-- Items with commas between them, up to `close`. At most `count` are read. -/
def readListed {α : Type} (item : Reader α) (close : Char) : Nat → Reader (List α)
  | 0, _ => none
  | count + 1, text => do
    let (first, text) ← item text
    match skipGap text with
    | ',' :: rest =>
      let (more, rest) ← readListed item close count rest
      return (first :: more, rest)
    | c :: rest => if c = close then some ([first], rest) else none
    | [] => none

def readItems {α : Type} (item : Reader α) (close : Char) : Reader (List α) := fun text =>
  match skipGap text with
  | c :: rest =>
    if c = close then some ([], rest) else readListed item close text.length (c :: rest)
  | [] => none

def readMember (value : Reader Value) : Reader (Option String × Value) := fun text =>
  match skipGap text with
  | '\x22' :: rest => do
    let (key, rest) ← readString rest
    match skipGap rest with
    | ':' :: rest =>
      let (v, rest) ← value rest
      return ((key, v), rest)
    | _ => none
  | _ => none

/-- A value in which at most `depth` arrays and objects stand inside each other. -/
def readValue : Nat → Reader Value
  | 0, _ => none
  | depth + 1, text =>
    match skipGap text with
    | 'n' :: 'u' :: 'l' :: 'l' :: rest => some (.null, rest)
    | 't' :: 'r' :: 'u' :: 'e' :: rest => some (.bool true, rest)
    | 'f' :: 'a' :: 'l' :: 's' :: 'e' :: rest => some (.bool false, rest)
    | '\x22' :: rest => (readString rest).map fun (s, rest) => (.string s, rest)
    | '[' :: rest =>
      (readItems (readValue depth) ']' rest).map fun (items, rest) => (.array items, rest)
    | '\x7b' :: rest =>
      (readItems (readMember (readValue depth)) '\x7d' rest).map fun (members, rest) =>
        (.object members, rest)
    | text => (readNumeral text).map fun (n, rest) => (.number n, rest)

def parse (text : List Char) : Option Value := do
  let (v, rest) ← readValue (text.length + 1) text
  if (skipGap rest).isEmpty then some v else none

end JsxLoops.Json
