import JsxLoops.Text.Position

/-!
Reports of what went wrong. A `Fault` is a cause; its report gives it a code, a wording, and the
file and place it is found at. The code alone decides the kind of a report and the guarantee that
was broken.
-/

namespace JsxLoops

open JsxLoops.Text (Position)

structure Report where
  code : String
  message : String
  file : String
  /-- Where in the file, if that is known. -/
  place : Option Position
  context : Option String
  hints : List String
deriving DecidableEq, Repr

namespace Report

def occursIn (part : List Char) : List Char → Bool
  | [] => part.isEmpty
  | c :: rest => part.isPrefixOf (c :: rest) || occursIn part rest

def isInputCode (code : String) : Bool := occursIn "-ERR-".toList code.toList

def kind (r : Report) : String :=
  if isInputCode r.code then "COMPILER_INPUT_ERROR" else "COMPILER_INVARIANT_VIOLATION"

/-- What holds wherever a code is not reported. -/
def guaranteeOf : String → String
  | "LIST001" => "Lowered callbacks take exactly (item, index)."
  | "LIST002" => "Every record starts with the item field followed by _key."
  | "LIST003" => "Record fields are unique and _d/_s fields are numbered contiguously from 0."
  | "LIST004" => "Loop wrappers are <block> elements carrying the four loop attributes in order."
  | "LIST005" => "Loop site ids strictly increase in discovery order."
  | "LIST-ERR-SYNTAX" => "Templates must be valid TSX."
  | "LIST-ERR-ADAPTER" => "Loop attributes come from a known platform adapter."
  | "LIST-ERR-OPTIONS" => "Compile options are valid JSON."
  | _ => "Unknown invariant."

def guarantee (r : Report) : String := guaranteeOf r.code

def display (r : Report) : String :=
  let place := match r.place with
    | some p => ":" ++ toString p.line ++ ":" ++ toString p.column
    | none => ""
  "[" ++ r.code ++ "] " ++ r.message ++ " (" ++ r.file ++ place ++ ")"

/-- The report as seen from a whole in which the reported text begins at `base`. -/
def relativeTo (base : Position) (r : Report) : Report :=
  { r with place := r.place.map base.relativeTo }

end Report

/-! ### Causes -/

/-- What can be wrong with a lowered loop. A loop that names a node outside the store is not
reported: looking the node up ends the run. -/
inductive Defect where
  | outOfBounds (index : Nat)
  | unordered
  | noCallback
  | parameters (item index : String)
  | noRecord
  | recordHead (item : String)
  | unnamedField
  | repeatedField (name : String)
  | misnumberedField (name : String)
  | noElement
  | tag (found : String)
  | attributes (found expected : List String)
  | values
deriving DecidableEq, Repr

namespace Defect

def code : Defect → String
  | .noCallback | .parameters _ _ => "LIST001"
  | .noRecord | .recordHead _ => "LIST002"
  | .unnamedField | .repeatedField _ | .misnumberedField _ => "LIST003"
  | .noElement | .tag _ | .attributes _ _ | .values => "LIST004"
  | .unordered => "LIST005"
  | .outOfBounds _ => ""

def message : Defect → String
  | .outOfBounds index => "index out of bounds: the index is " ++ toString index ++ "."
  | .unordered => "site ids are not increasing."
  | .noCallback => "callback is not a function."
  | .parameters item index => "expected parameters (" ++ item ++ ", " ++ index ++ ")."
  | .noRecord => "callback does not end in a record return."
  | .recordHead item => "record must start with " ++ item ++ " and _key."
  | .unnamedField => "record has a non-static key."
  | .repeatedField name => "duplicate record field '" ++ name ++ "'."
  | .misnumberedField name => "field '" ++ name ++ "' is out of sequence."
  | .noElement => "wrapper is not an element."
  | .tag found => "wrapper tag is <" ++ found ++ ">."
  | .attributes found _ => "wrapper attributes are [" ++ ", ".intercalate found ++ "]."
  | .values => "wrapper attribute values do not match the site."

def hints : Defect → List String
  | .attributes _ expected => ["Expected [" ++ ", ".intercalate expected ++ "]."]
  | _ => []

end Defect

/-- Why a compilation has no result. -/
inductive Fault where
  /-- A text that is no expression. -/
  | template (source : String)
  /-- A text that is no module. -/
  | module
  | adapter (name : String)
  | options
  /-- A loop that was not lowered as it should be. -/
  | loop (id : UInt32) (defect : Defect)
deriving DecidableEq, Repr

namespace Fault

def code : Fault → String
  | .template _ | .module => "LIST-ERR-SYNTAX"
  | .adapter _ => "LIST-ERR-ADAPTER"
  | .options => "LIST-ERR-OPTIONS"
  | .loop _ defect => defect.code

def message : Fault → String
  | .template _ => "Invalid expression syntax"
  | .module => "Invalid module syntax"
  | .adapter name => "Unknown adapter '" ++ name ++ "'."
  | .options => "Options parse error"
  | .loop id defect => "Loop site " ++ toString id.toNat ++ ": " ++ defect.message

def context : Fault → Option String
  | .template source => some source
  | _ => none

def hints : Fault → List String
  | .adapter _ => ["Use one of: ali, wechat, bytedance."]
  | .loop _ defect => defect.hints
  | _ => []

/-- Faults are reported at the start of the file; faulty options have no place. -/
def place : Fault → Option Position
  | .options => none
  | _ => some .start

def report (file : String) (f : Fault) : Report where
  code := f.code
  message := f.message
  file := file
  place := f.place
  context := f.context
  hints := f.hints

end Fault

end JsxLoops
