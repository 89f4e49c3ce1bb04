import JsxLoops.Text.Blank
import JsxLoops.Json.Read
import JsxLoops.Json.Write
import JsxLoops.Loop.Adapter
import JsxLoops.Tree.Print

/-!
Options of a compilation. They are read from a JSON object, or from an array of the same values in
the order of the fields; a blank text stands for the defaults. They are written as an object with
all its fields.
-/

namespace JsxLoops

open JsxLoops.Json (Value)
open JsxLoops.Loop (Adapter AdapterChoice)
open JsxLoops.Tree (Style)

structure Options where
  adapter : AdapterChoice := .standard
  startId : UInt32 := 0
  style : Style := .pretty
  verify : Bool := true
  filePath : String := "<anonymous>"
deriving DecidableEq, Repr

abbrev Fields := String → Option Value

namespace Fields

def required {α : Type} (fields : Fields) (name : String) (decode : Value → Option α) : Option α :=
  (fields name).bind decode

def optional {α : Type} (fields : Fields) (name : String) (decode : Value → Option α)
    (default : α) : Option α :=
  match fields name with
  | some v => decode v
  | none => some default

/-- The fields of a value. An object may give each of the names once, and others at will; an array
gives them in order. -/
def ofValue (names : List String) : Value → Option Fields
  | .object members =>
    if members.all (·.1.isSome) &&
        names.all fun name => (members.countP fun m => m.1 == some name) ≤ 1 then
      some fun name => (members.find? fun m => m.1 == some name).map (·.2)
    else none
  | .array items =>
    if items.length ≤ names.length then some fun name => (names.zip items).lookup name else none
  | _ => none

end Fields

def adapterNames : List String :=
  ["name", "forAttr", "forItem", "forIndex", "key", "createStyle", "styleAttributes"]

def Loop.Adapter.ofFields (fields : Fields) : Option Adapter := do
  return {
    name := ← fields.required "name" Value.text?
    forAttribute := ← fields.required "forAttr" Value.text?
    itemAttribute := ← fields.required "forItem" Value.text?
    indexAttribute := ← fields.required "forIndex" Value.text?
    keyAttribute := ← fields.required "key" Value.text?
    createStyle := ← fields.optional "createStyle" Value.text? Adapter.defaultCreateStyle
    styleAttributes :=
      ← fields.optional "styleAttributes" Value.texts? Adapter.defaultStyleAttributes }

def adapterDepth : Nat := 126

def decodeAdapter (v : Value) : Option AdapterChoice :=
  match v with
  | .string text => text.map .preset
  | v =>
    if v.isSound && v.depth ≤ adapterDepth then
      ((Fields.ofValue adapterNames v).bind Adapter.ofFields).map .custom
    else none

def encodeAdapter : AdapterChoice → Value
  | .preset name => .ofText name
  | .custom a =>
    .ofFields
      [("name", .ofText a.name), ("forAttr", .ofText a.forAttribute),
        ("forItem", .ofText a.itemAttribute), ("forIndex", .ofText a.indexAttribute),
        ("key", .ofText a.keyAttribute), ("createStyle", .ofText a.createStyle),
        ("styleAttributes", .array (a.styleAttributes.map .ofText))]

def decodeWord (v : Value) : Option UInt32 := do
  let n ← v.natural?
  if n < UInt32.size then some n.toUInt32 else none

def styleNamed? : String → Option Style
  | "pretty" => some .pretty
  | "concise" => some .concise
  | _ => none

def decodeStyle : Value → Option Style
  | .string (some name) => styleNamed? name
  | .object [(some name, .null)] => styleNamed? name
  | _ => none

def styleName : Style → String
  | .pretty => "pretty"
  | .concise => "concise"

def optionNames : List String := ["adapter", "startId", "style", "verify", "filePath"]

namespace Options

def ofFields (fields : Fields) : Option Options := do
  let default : Options := {}
  return {
    adapter := ← fields.optional "adapter" decodeAdapter default.adapter
    startId := ← fields.optional "startId" decodeWord default.startId
    style := ← fields.optional "style" decodeStyle default.style
    verify := ← fields.optional "verify" Value.bool? default.verify
    filePath := ← fields.optional "filePath" Value.text? default.filePath }

def parse (text : String) : Option Options :=
  if (Text.trim text.toList).isEmpty then some {}
  else (Json.parse text.toList).bind fun v => (Fields.ofValue optionNames v).bind ofFields

def toValue (o : Options) : Value :=
  .ofFields
    [("adapter", encodeAdapter o.adapter), ("startId", .number (.ofNat o.startId.toNat)),
      ("style", .ofText (styleName o.style)), ("verify", .bool o.verify),
      ("filePath", .ofText o.filePath)]

def render (o : Options) : String := String.ofList o.toValue.write

end Options

end JsxLoops
