/-!
JSON values as they are written: members keep their order and may repeat a key, and numbers keep
their digits.
-/

namespace JsxLoops.Json

/-- A number as it is written. -/
structure Numeral where
  negative : Bool
  whole : List Char
  fraction : Option (List Char)
  exponent : Option Int
deriving DecidableEq, Repr

def digitsValue (digits : List Char) : Nat :=
  digits.foldl (fun n c => 10 * n + (c.toNat - '0'.toNat)) 0

namespace Numeral

def natural? (n : Numeral) : Option Nat :=
  if n.negative || n.fraction.isSome || n.exponent.isSome then none
  else some (digitsValue n.whole)

/-- Whether the number is too large for a double: it rounds to 2^1024 or more. -/
def overflows (n : Numeral) : Bool :=
  let fraction := n.fraction.getD []
  let digits := (n.whole ++ fraction).dropWhile (· == '0')
  let exponent := n.exponent.getD 0 - (fraction.length : Int)
  let places := exponent + (digits.length : Int)
  if digits.isEmpty || places < 309 then false
  else if 309 < places then true
  else
    let limit := Nat.pow 2 1024 - Nat.pow 2 970
    if 0 ≤ exponent then limit ≤ digitsValue digits * Nat.pow 10 exponent.toNat
    else limit * Nat.pow 10 (-exponent).toNat ≤ digitsValue digits

end Numeral

inductive Value where
  | null
  | bool (value : Bool)
  | number (value : Numeral)
  /-- A string, unless one of its escapes is half of a pair. -/
  | string (text : Option String)
  | array (items : List Value)
  | object (members : List (Option String × Value))
deriving Repr

namespace Value

mutual

/-- How many arrays and objects stand inside each other. -/
def depth : Value → Nat
  | .array items => depthOfItems items + 1
  | .object members => depthOfMembers members + 1
  | _ => 0

def depthOfItems : List Value → Nat
  | [] => 0
  | v :: rest => max v.depth (depthOfItems rest)

def depthOfMembers : List (Option String × Value) → Nat
  | [] => 0
  | (_, v) :: rest => max v.depth (depthOfMembers rest)

end

mutual

/-- Whether every string is a text and every number fits a double. -/
def isSound : Value → Bool
  | .string text => text.isSome
  | .number value => !value.overflows
  | .array items => soundItems items
  | .object members => soundMembers members
  | _ => true

def soundItems : List Value → Bool
  | [] => true
  | v :: rest => v.isSound && soundItems rest

def soundMembers : List (Option String × Value) → Bool
  | [] => true
  | (key, v) :: rest => key.isSome && v.isSound && soundMembers rest

end

def ofText (text : String) : Value := .string (some text)

def ofFields (fields : List (String × Value)) : Value :=
  .object (fields.map fun (name, v) => (some name, v))

def text? : Value → Option String
  | .string text => text
  | _ => none

def bool? : Value → Option Bool
  | .bool value => some value
  | _ => none

def natural? : Value → Option Nat
  | .number value => value.natural?
  | _ => none

def texts? : Value → Option (List String)
  | .array items => items.mapM text?
  | _ => none

end Value

end JsxLoops.Json
