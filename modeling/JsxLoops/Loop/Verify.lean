import JsxLoops.Report
import JsxLoops.Loop.Adapter
import JsxLoops.Loop.Site

/-!
Verification. The shape that every lowered loop must have is checked on the finished tree, in the
order of the sites; the first defect is reported.
-/

namespace JsxLoops.Loop

open JsxLoops.Tree

/-- The node at a location that the store must have. -/
def lookup (s : Store) (l : Loc) : Except Defect (Node Loc) :=
  match s.nodes[l.index]? with
  | some n => .ok n
  | none => .error (.outOfBounds l.index)

def lastStatement? : Body Loc → Option Loc
  | .block statements => statements.getLast?
  | .value _ => none

/-- The record that a function returns at the end of its block. -/
def returnedRecord (s : Store) (f : Lambda Loc) : Except Defect (List (Entry Loc)) := do
  let some last := lastStatement? f.body | throw .noRecord
  let .returning (some record) ← lookup s last | throw .noRecord
  let .object entries ← lookup s record | throw .noRecord
  return entries

def verifyCallback (s : Store) (site : Site) : Except Defect (List (Entry Loc)) := do
  let .lambda f ← lookup s site.callback | throw .noCallback
  if f.params.map Binder.name? ≠ [some site.itemName, some site.indexName] then
    throw (.parameters site.itemName site.indexName)
  returnedRecord s f

/-- Reads a number of at most 64 bits, with a plus sign in front or without. -/
def fieldNumber? (text : List Char) : Option Nat :=
  let digits := match text with
    | '+' :: rest => rest
    | _ => text
  if !digits.isEmpty && digits.all Char.isDigit then
    let n := digits.foldl (fun n c => 10 * n + (c.toNat - '0'.toNat)) 0
    if n < UInt64.size then some n else none
  else none

/-- The number of a field whose name starts with `_` and the letter `kind`. -/
def numberOf? (kind : Char) (name : String) : Option Nat :=
  match name.toList with
  | '_' :: c :: rest => if c = kind then fieldNumber? rest else none
  | _ => none

/-- The next number after a field of this name, if it has the number that was due. -/
def countField (kind : Char) (due : Nat) (name : String) : Except Defect Nat :=
  match numberOf? kind name with
  | some n => if n = due then .ok (due + 1) else .error (.misnumberedField name)
  | none => .ok due

/-- Checks the fields that follow those in `seen`, when the numbered ones are due to go on with
`dynamic` and `style`. -/
def verifyFields (seen : List String) (dynamic style : Nat) :
    List (Option String) → Except Defect Unit
  | [] => .ok ()
  | none :: _ => .error .unnamedField
  | some name :: rest => do
    if seen.contains name then throw (.repeatedField name)
    let dynamic ← countField 'd' dynamic name
    let style ← countField 's' style name
    verifyFields (name :: seen) dynamic style rest

def verifyRecord (site : Site) (entries : List (Entry Loc)) : Except Defect Unit :=
  let names := entries.map Entry.fieldName?
  match names with
  | some item :: some key :: _ =>
    if item = site.itemName ∧ key = keyField then verifyFields [] 0 0 names
    else .error (.recordHead site.itemName)
  | _ => .error (.recordHead site.itemName)

/-- The values of the four attributes of a site's wrapper. -/
def verifyValues (site : Site) (attributes : List (Attribute Loc)) : Except Defect Unit :=
  match attributes with
  | [.named _ (.expression _), .named _ (.literal item), .named _ (.literal index),
      .named _ (.literal key)] =>
    let quoted (text : String) := "\x22" ++ text ++ "\x22"
    if item = quoted site.itemName ∧ index = quoted site.indexName ∧ key = quoted keyField then
      .ok ()
    else .error .values
  | _ => .error .values

def verifyWrapper (adapter : Adapter) (s : Store) (site : Site) : Except Defect Unit := do
  let .element e ← lookup s site.wrapper | throw .noElement
  if e.tag ≠ "block" then throw (.tag e.tag)
  let names := e.attributes.filterMap Attribute.name?
  if names.length = e.attributes.length ∧ names = adapter.loopAttributes then
    verifyValues site e.attributes
  else throw (.attributes names adapter.loopAttributes)

def verifySite (adapter : Adapter) (s : Store) (site : Site) : Except Defect Unit := do
  verifyRecord site (← verifyCallback s site)
  verifyWrapper adapter s site

/-- Checks sites that follow one with the number `previous`. -/
def verifyAfter (adapter : Adapter) (s : Store) (previous : Option UInt32) :
    List Site → Except Fault Unit
  | [] => .ok ()
  | site :: rest => do
    if previous.any (site.id ≤ ·) then throw (.loop site.id .unordered)
    (verifySite adapter s site).mapError (.loop site.id)
    verifyAfter adapter s (some site.id) rest

def verify (adapter : Adapter) (s : Store) (sites : List Site) : Except Fault Unit :=
  verifyAfter adapter s none sites

end JsxLoops.Loop
