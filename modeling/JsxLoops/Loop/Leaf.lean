import JsxLoops.Loop.Adapter
import JsxLoops.Loop.Record

/-!
Leaves: the values that the template of a loop shows, and the lists that nested loops go over.
Both are told apart by how they use the names of the loop.
-/

namespace JsxLoops.Loop

open JsxLoops.Tree

/-- The names that a loop binds for its template. -/
structure LoopScope where
  item : String
  index : String
  locals : List String
deriving DecidableEq, Repr

def LoopScope.binds (scope : LoopScope) (name : String) : Bool :=
  scope.item == name || scope.index == name || scope.locals.contains name

inductive LeafShape where
  | item
  | index
  | style
  | computed
deriving DecidableEq, Repr

def LeafShape.dependency : LeafShape → Dependency
  | .item => .itemWhole
  | .index => .indexWhole
  | .style => .styleValue
  | .computed => .generic

/-- Whether a leaf stands in an attribute for styles; none is a leaf in the text. -/
def Adapter.isStylePosition (adapter : Adapter) : Option String → Bool
  | some name => adapter.isStyle name
  | none => false

def leafShape (adapter : Adapter) (scope : LoopScope) (s : Store) (position : Option String)
    (l : Loc) : LeafShape :=
  if adapter.isStylePosition position then .style
  else
    match s.get (s.stripParens l) with
    | .name name =>
      if name == scope.item then .item
      else if name == scope.index then .index
      else .computed
    | _ => .computed

/-- What a nested loop goes over, as seen from the loop around it. -/
inductive NestedSource where
  | item
  | itemPath (properties : List String)
  | local (name : String)
  | unrelated
deriving DecidableEq, Repr

def nestedSource (scope : LoopScope) (s : Store) (receiver : Loc) : NestedSource :=
  match s.staticPath receiver with
  | some (root, properties) =>
    if root == scope.item then
      if properties.isEmpty then .item else .itemPath properties
    else if properties.isEmpty && scope.locals.contains root then .local root
    else .unrelated
  | none => .unrelated

end JsxLoops.Loop
