import JsxLoops.Text.Digit
import JsxLoops.Tree.Store

/-!
Records. On every round a lowered loop returns a record: the item under its own name, a key, and
one field for each value that the template shows. A draft collects them; its fields are numbered
`_d0`, `_d1`, … for values and `_s0`, `_s1`, … for styles, or carry the name of a local variable.
The item is kept as it is, replaced by a nested loop over it, or copied with nested loops in place
of some of its properties.
-/

namespace JsxLoops.Loop

open JsxLoops.Tree

/-- What a value of the template depends on. -/
inductive Dependency where
  | itemWhole
  | indexWhole
  | nestedCarrier
  | styleValue
  | generic
deriving DecidableEq, Repr

/-- A value of the template and the field that carries it. -/
structure Slot where
  kind : Dependency
  source : Loc
  field : String
  position : Nat
deriving DecidableEq, Repr

/-- How the value under the item's name came about. -/
inductive ItemSource where
  | raw
  | merged
  | shallowMerged (paths : List (List String))
deriving DecidableEq, Repr

def keyField : String := "_key"

structure Schema where
  itemField : String
  itemSource : ItemSource
  slots : List Slot
deriving DecidableEq, Repr

def Schema.fieldNames (s : Schema) : List String :=
  s.itemField :: keyField :: (s.slots.map Slot.field).filter (· != s.itemField)

/-- The value under the item's name. -/
inductive ItemValue where
  | raw
  | merged (call : Loc)
  /-- A copy in which the calls stand at the end of their paths. -/
  | overridden (entries : List (List String × Loc))
deriving DecidableEq, Repr

/-- A record in the making. -/
structure Draft where
  item : String
  keyToken : String
  itemValue : ItemValue := .raw
  slots : List Slot := []
  fields : List (String × Loc) := []
  dynamicCount : Nat := 0
  styleCount : Nat := 0
deriving DecidableEq, Repr

def isNumberedField (name : String) : Bool :=
  match name.toList with
  | '_' :: kind :: digits =>
    (kind == 'd' || kind == 's') && !digits.isEmpty && digits.all Text.isDecimalDigit
  | _ => false

/-- Whether one of two paths starts with the other. -/
def overlap (p q : List String) : Bool := p.isPrefixOf q || q.isPrefixOf p

namespace Draft

def pushSlot (d : Draft) (kind : Dependency) (source : Loc) (field : String) : Draft :=
  { d with slots := d.slots ++ [⟨kind, source, field, d.slots.length⟩] }

/-- Adds a numbered field, whose name is returned. -/
def pushDynamic (d : Draft) (kind : Dependency) (source value : Loc) : String × Draft :=
  let field := "_d" ++ toString d.dynamicCount
  (field, { d.pushSlot kind source field with
    fields := d.fields ++ [(field, value)], dynamicCount := d.dynamicCount + 1 })

/-- Adds a numbered field for a style, which passes through `createStyle`. -/
def pushStyle (d : Draft) (source : Loc) (createStyle : String) : Edit (String × Draft) := do
  let field := "_s" ++ toString d.styleCount
  let value ← Edit.callNamed createStyle [source]
  return (field, { d.pushSlot .styleValue source field with
    fields := d.fields ++ [(field, value)], styleCount := d.styleCount + 1 })

/-- Notes that the template shows the whole item. Only the first time counts. -/
def noteItem (d : Draft) (source : Loc) : Draft :=
  if d.slots.any (·.kind == .itemWhole) then d else d.pushSlot .itemWhole source d.item

/-- Puts a nested loop in the place of the item, if nothing was merged into that yet. -/
def mergeItem (d : Draft) (source call : Loc) : Option Draft :=
  match d.itemValue with
  | .raw => some { d.pushSlot .nestedCarrier source d.item with itemValue := .merged call }
  | _ => none

/-- Puts a nested loop in the place of a property of the item, unless it would overlap with what
was merged before. -/
def mergePath (d : Draft) (source : Loc) (path : List String) (call : Loc) : Option Draft :=
  let merged (entries : List (List String × Loc)) : Draft :=
    { d.pushSlot .nestedCarrier source d.item with
      itemValue := .overridden (entries ++ [(path, call)]) }
  match d.itemValue with
  | .raw => some (merged [])
  | .merged _ => none
  | .overridden entries =>
    if entries.any fun e => overlap e.1 path then none else some (merged entries)

/-- Adds a field of a given name, unless that could be taken for another field. -/
def pushNamed (d : Draft) (source : Loc) (name : String) (value : Loc) : Option Draft :=
  if name == d.item || name == keyField || isNumberedField name ||
      d.fields.any (·.1 == name) then none
  else
    some { d.pushSlot .nestedCarrier source name with fields := d.fields ++ [(name, value)] }

end Draft

/-! ### Building -/

/-- The first properties of some paths, each once. -/
def pathHeads {α : Type} (entries : List (List String × α)) : List String :=
  (entries.filterMap fun e => e.1.head?).eraseDups

def pathsUnder {α : Type} (head : String) (entries : List (List String × α)) :
    List (List String × α) :=
  entries.filterMap fun e => match e.1 with
    | [] => none
    | first :: rest => if first == head then some (rest, e.2) else none

/-- A shallow copy of what `base` leads to, with the calls at the end of their paths. Paths of more
than one property copy what is on the way. The copies are at most `depth` deep. -/
def overrideTo : Nat → List String → List (List String × Loc) → Edit Loc
  | 0, base, _ => Edit.path (base.headD "") base.tail
  | depth + 1, base, entries => do
    let whole ← Edit.path (base.headD "") base.tail
    let fields ← (pathHeads entries).mapM fun head => do
      let value ← match pathsUnder head entries with
        | [([], call)] => pure call
        | under => overrideTo depth (base ++ [head]) under
      return Entry.field head value
    Edit.add (.object (.spread whole :: fields))

/-- A shallow copy of an item with the calls at the end of their paths. -/
def overrideItem (item : String) (entries : List (List String × Loc)) : Edit Loc :=
  overrideTo ((entries.map fun e => e.1.length).foldl max 0 + 1) [item] entries

namespace Draft

def itemSource (d : Draft) : ItemSource :=
  match d.itemValue with
  | .raw => .raw
  | .merged _ => .merged
  | .overridden entries => .shallowMerged (entries.map Prod.fst)

def schema (d : Draft) : Schema := ⟨d.item, d.itemSource, d.slots⟩

def buildItem (d : Draft) : Edit Loc :=
  match d.itemValue with
  | .raw => Edit.name d.item
  | .merged call => pure call
  | .overridden entries => overrideItem d.item entries

def build (d : Draft) : Edit Loc := do
  let item ← d.buildItem
  let key ← Edit.name d.keyToken
  Edit.add (.object (.field d.item item :: .field keyField key ::
    d.fields.map fun f => .field f.1 f.2))

end Draft

end JsxLoops.Loop
