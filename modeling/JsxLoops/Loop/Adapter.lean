/-!
Platform adapters: how the attributes of a loop are called on one platform, and which attributes
hold styles.
-/

namespace JsxLoops.Loop

structure Adapter where
  name : String
  forAttribute : String
  itemAttribute : String
  indexAttribute : String
  keyAttribute : String
  /-- The function that every style value passes through. -/
  createStyle : String
  styleAttributes : List String
deriving DecidableEq, Repr

namespace Adapter

def defaultCreateStyle : String := "__create_style__"

def defaultStyleAttributes : List String := ["style"]

/-- The adapter of a platform whose loop attributes stand in one namespace. -/
def ofNamespace (name scope : String) : Adapter where
  name := name
  forAttribute := scope ++ ":for"
  itemAttribute := scope ++ ":for-item"
  indexAttribute := scope ++ ":for-index"
  keyAttribute := scope ++ ":key"
  createStyle := defaultCreateStyle
  styleAttributes := defaultStyleAttributes

def ali : Adapter := ofNamespace "ali" "a"

def wechat : Adapter := ofNamespace "wechat" "wx"

def bytedance : Adapter := ofNamespace "bytedance" "tt"

def ofName? : String → Option Adapter
  | "ali" | "alipay" => some ali
  | "wechat" | "weixin" => some wechat
  | "bytedance" | "toutiao" => some bytedance
  | _ => none

def loopAttributes (a : Adapter) : List String :=
  [a.forAttribute, a.itemAttribute, a.indexAttribute, a.keyAttribute]

def isStyle (a : Adapter) (name : String) : Bool := a.styleAttributes.contains name

end Adapter

/-- An adapter as it is asked for: by the name of a known one, or spelled out. -/
inductive AdapterChoice where
  | preset (name : String)
  | custom (adapter : Adapter)
deriving DecidableEq, Repr

namespace AdapterChoice

def standard : AdapterChoice := .preset "ali"

/-- The chosen adapter, or the name that is not known. -/
def resolve : AdapterChoice → Except String Adapter
  | .preset name =>
    match Adapter.ofName? name with
    | some adapter => .ok adapter
    | none => .error name
  | .custom adapter => .ok adapter

end AdapterChoice

end JsxLoops.Loop
