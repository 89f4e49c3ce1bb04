import JsxLoops.Tree.Node

/-!
Stores of nodes. A node is addressed by its location, and locations never move: a node may be
replaced where it stands, and every holder of the location then sees the new one. Reading a store
from a location visits at most as many nodes in depth as the store holds.
-/

namespace JsxLoops.Tree

/-- Where a node stands in a store. -/
structure Loc where
  index : Nat
deriving DecidableEq, Repr, Inhabited

structure Store where
  nodes : Array (Node Loc)
deriving Inhabited

namespace Store

def empty : Store := ⟨#[]⟩

def size (s : Store) : Nat := s.nodes.size

/-- The node at a location. Past the end there is an empty literal: what a tree is made of never
lies there, and verification, which may be handed any location, has a lookup that fails. -/
def get (s : Store) (l : Loc) : Node Loc := s.nodes.getD l.index (.literal "")

def add (s : Store) (n : Node Loc) : Loc × Store := (⟨s.size⟩, ⟨s.nodes.push n⟩)

def put (s : Store) (l : Loc) (n : Node Loc) : Store := ⟨s.nodes.setIfInBounds l.index n⟩

/-! ### Reading -/

/-- Reads what hangs at a location by a rule for one node, which is given the reading of others.
At most `depth` nodes are visited on the way down. -/
def visit {α : Type} (s : Store) (rule : (Loc → α) → Loc → Node Loc → α) (stop : α) :
    Nat → Loc → α
  | 0, _ => stop
  | depth + 1, l => rule (s.visit rule stop depth) l (s.get l)

/-- Reads what hangs at a location, as deep as the store can be. -/
def read {α : Type} (s : Store) (rule : (Loc → α) → Loc → Node Loc → α) (stop : α) (l : Loc) : α :=
  s.visit rule stop s.size l

def stripParens (s : Store) (l : Loc) : Loc :=
  s.read (fun inside l n => match n with
    | .paren inner => inside inner
    | _ => l) l l

/-- The root name and the properties of a chain of plain members, parentheses aside. -/
def staticPath (s : Store) (l : Loc) : Option (String × List String) :=
  s.read (fun inside _ n => match n with
    | .paren inner => inside inner
    | .name name => some (name, [])
    | .member object property false =>
      (inside object).map fun (root, properties) => (root, properties ++ [property])
    | _ => none) none l

/-- The location reached by taking the numbered child at each step. -/
def descend (s : Store) : List Nat → Loc → Option Loc
  | [], l => some l
  | i :: path, l =>
    match (s.get l).children[i]? with
    | some child => s.descend path child
    | none => none

/-! ### Writing -/

/-- Points a child `old` to `new`, and notes that there was one. -/
def repoint (old new l : Loc) : StateM Bool Loc :=
  if l = old then do
    set true
    return new
  else return l

/-- Points every child `old` of the node at `holder` to `new`, and tells whether there was one. -/
def replaceChild (s : Store) (holder old new : Loc) : Bool × Store :=
  let swept := ((s.get holder).mapM (repoint old new)).run false
  (swept.2, s.put holder swept.1)

/-- Moves a node to a fresh place and leaves an empty literal behind. -/
def relocate (s : Store) (l : Loc) : Loc × Store :=
  (s.put l (.literal "")).add (s.get l)

end Store

/-! ### Edits -/

abbrev Edit := StateM Store

namespace Edit

def add (n : Node Loc) : Edit Loc := fun s => s.add n

def put (l : Loc) (n : Node Loc) : Edit Unit := modify fun s => s.put l n

def node (l : Loc) : Edit (Node Loc) := return (← get).get l

def replaceChild (holder old new : Loc) : Edit Bool := fun s => s.replaceChild holder old new

def relocate (l : Loc) : Edit Loc := fun s => s.relocate l

def name (text : String) : Edit Loc := add (.name text)

def callNamed (callee : String) (arguments : List Loc) : Edit Loc := do
  add (.call (← name callee) arguments)

/-- Members taken one after the other from what stands at `l`. -/
def members (l : Loc) : List String → Edit Loc
  | [] => return l
  | property :: more => do members (← add (.member l property false)) more

def path (root : String) (properties : List String) : Edit Loc := do
  members (← name root) properties

/-- Copies what hangs at a location into fresh places, at most `depth` nodes deep. -/
def cloneTo : Nat → Loc → Edit Loc
  | 0, l => return l
  | depth + 1, l => do add (← (← node l).mapM (cloneTo depth))

/-- Copies what hangs at a location into fresh places. -/
def clone (l : Loc) : Edit Loc := do cloneTo (← get).size l

end Edit

/-! ### Whole trees -/

/-- A tree of nodes without locations. -/
inductive Subtree where
  | node (n : Node Subtree)

/-- The tree that hangs at a location, if it is at most `depth` nodes deep. -/
def Store.unfoldTo (s : Store) : Nat → Loc → Option Subtree
  | 0, _ => none
  | depth + 1, l => .node <$> (s.get l).mapM (s.unfoldTo depth)

def Store.unfold (s : Store) (l : Loc) : Option Subtree := s.unfoldTo s.size l

end JsxLoops.Tree
