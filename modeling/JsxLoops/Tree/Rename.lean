import JsxLoops.Tree.Scope

/-!
Renaming. A walk goes down from the roots and turns back at every function and every block that
binds the name. It notes the places to rewrite: names, verbatim code, and the code of parameters and
declared variables, which has no location of its own and stands at a position of its owner. The
notes are worked through when the walk is over, each kind in its turn.
-/

namespace JsxLoops.Tree

/-- A place that renaming rewrites. -/
inductive Target where
  | name (l : Loc)
  | code (l : Loc)
  | param (owner : Loc) (position : Nat)
  | declarator (owner : Loc) (position : Nat)
deriving DecidableEq, Repr

namespace Target

def loc : Target → Loc
  | .name l | .code l | .param l _ | .declarator l _ => l

def isName : Target → Bool
  | .name _ => true
  | _ => false

def isCode : Target → Bool
  | .code _ => true
  | _ => false

/-- Whether the place is a position of its owner. -/
def isSlot : Target → Bool
  | .param _ _ | .declarator _ _ => true
  | _ => false

end Target

/-- Whether the code mentions a name that it does not declare. -/
def Verbatim.refersTo (name : String) (v : Verbatim) : Bool :=
  !v.declares.contains name && v.mentions.contains name

def Binder.refersTo (name : String) : Binder → Bool
  | .verbatim code => code.refersTo name
  | _ => false

/-- The places of a list of binders whose code refers to a name. -/
def Binder.targets (name : String) (place : Nat → Target) (binders : List Binder) : List Target :=
  binders.zipIdx.flatMap fun (b, i) => if b.refersTo name then [place i] else []

/-! ### The walk -/

namespace Store

/-- Whether a function binds the name, by its parameters, its own name or its block. -/
def rebinds (s : Store) (name : String) (f : Lambda Loc) : Bool :=
  f.boundNames.contains name ||
    match f.body with
    | .block statements => (s.declaredNames statements).contains name
    | .value _ => false

/-- The places in a node and in what stands in it. -/
def targetsIn (s : Store) (name : String) (inside : Loc → List Target) (l : Loc) :
    Node Loc → List Target
  | .name found => if found == name then [.name l] else []
  | .verbatim code => if code.refersTo name then [.code l] else []
  | .lambda f =>
    if s.rebinds name f then []
    else Binder.targets name (.param l) f.params ++ f.body.children.flatMap inside
  | .block statements =>
    if (s.declaredNames statements).contains name then [] else statements.flatMap inside
  | .declaration _ declarators =>
    declarators.zipIdx.flatMap fun (d, i) =>
      (if d.binder.refersTo name then [.declarator l i] else []) ++ d.value.toList.flatMap inside
  | n => n.children.flatMap inside

def targets (s : Store) (name : String) (l : Loc) : List Target :=
  s.read (s.targetsIn name) [] l

end Store

/-! ### The rewriting -/

def Binder.openCount (name : String) (b : Binder) : Nat :=
  b.code?.elim 0 fun code => code.openCount name

def Declarator.rename {α : Type} (source target : String) (d : Declarator α) : Declarator α :=
  { d with binder := d.binder.rename source target }

def Node.rewrite {α : Type} (source target : String) : Target → Node α → Nat × Node α
  | .name _, _ => (1, .name target)
  | .code _, .verbatim code => (code.openCount source, .verbatim (code.rename source target))
  | .param _ i, .lambda f =>
    (f.params[i]?.elim 0 (Binder.openCount source),
      .lambda { f with params := f.params.modify i (Binder.rename source target) })
  | .declarator _ i, .declaration keyword declarators =>
    (declarators[i]?.elim 0 fun d => d.binder.openCount source,
      .declaration keyword (declarators.modify i (Declarator.rename source target)))
  | _, n => (0, n)

namespace Store

def rewrite (source target : String) (done : Nat × Store) (t : Target) : Nat × Store :=
  let written := (done.2.get t.loc).rewrite source target t
  (done.1 + written.1, done.2.put t.loc written.2)

/-- Renames the free mentions of `source` below the roots, and counts them. -/
def rename (s : Store) (roots : List Loc) (source target : String) : Nat × Store :=
  if source = target then (0, s)
  else
    let found := roots.flatMap (s.targets source)
    (found.filter Target.isName ++ found.filter Target.isCode ++ found.filter Target.isSlot).foldl
      (rewrite source target) (0, s)

end Store

def Edit.rename (roots : List Loc) (source target : String) : Edit Nat :=
  fun s => s.rename roots source target

end JsxLoops.Tree
