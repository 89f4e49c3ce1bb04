import JsxLoops.Json.Value

/-!
Writing JSON. A value is written without blanks. In a string, quotes, backslashes and control
characters are escaped, and all else stands as it is.
-/

namespace JsxLoops.Json

def hexDigit (n : Nat) : Char := Nat.digitChar (n % 16)

def escapeChar (c : Char) : List Char :=
  if c = '\x22' then ['\x5c', '\x22']
  else if c = '\x5c' then ['\x5c', '\x5c']
  else if c.toNat = 8 then ['\x5c', 'b']
  else if c.toNat = 9 then ['\x5c', 't']
  else if c.toNat = 10 then ['\x5c', 'n']
  else if c.toNat = 12 then ['\x5c', 'f']
  else if c.toNat = 13 then ['\x5c', 'r']
  else if c.toNat < 0x20 then ['\x5c', 'u', '0', '0', hexDigit (c.toNat / 16), hexDigit c.toNat]
  else [c]

def writeString (text : String) : List Char :=
  '\x22' :: text.toList.flatMap escapeChar ++ ['\x22']

def Numeral.ofNat (n : Nat) : Numeral := ⟨false, Nat.toDigits 10 n, none, none⟩

def writeExponent (e : Int) : List Char :=
  'e' :: if e < 0 then '-' :: Nat.toDigits 10 (-e).toNat else Nat.toDigits 10 e.toNat

def Numeral.write (n : Numeral) : List Char :=
  (if n.negative then ['-'] else []) ++ n.whole ++
    (match n.fraction with
      | some digits => '.' :: digits
      | none => []) ++
    match n.exponent with
    | some e => writeExponent e
    | none => []

namespace Value

mutual

/-- The text of a value. A string with half of a pair is written empty. -/
def write : Value → List Char
  | .null => "null".toList
  | .bool true => "true".toList
  | .bool false => "false".toList
  | .number value => value.write
  | .string text => writeString (text.getD "")
  | .array [] => ['[', ']']
  | .array (v :: rest) => '[' :: (v.write ++ writeItems rest)
  | .object [] => ['\x7b', '\x7d']
  | .object ((key, v) :: rest) =>
    '\x7b' :: (writeString (key.getD "") ++ ':' :: (v.write ++ writeMembers rest))

/-- Further items of an array, each after its comma. -/
def writeItems : List Value → List Char
  | [] => [']']
  | v :: rest => ',' :: (v.write ++ writeItems rest)

/-- Further members of an object, each after its comma. -/
def writeMembers : List (Option String × Value) → List Char
  | [] => ['\x7d']
  | (key, v) :: rest =>
    ',' :: (writeString (key.getD "") ++ ':' :: (v.write ++ writeMembers rest))

end

end Value

end JsxLoops.Json
