import JsxLoops.Tree.Store

/-!
Where markup and returns stand in a tree.
-/

namespace JsxLoops.Tree.Store

def hasMarkup (s : Store) (l : Loc) : Bool :=
  s.read (fun inside _ n => match n with
    | .element _ | .fragment _ => true
    | .verbatim code => code.hasMarkup
    | n => n.children.any inside) false l

/-- Whether what hangs at a location returns from the function it stands in. -/
def returnsAt (s : Store) (l : Loc) : Bool :=
  s.read (fun inside _ n => match n with
    | .returning _ => true
    | .verbatim code => code.hasReturn
    | .lambda _ => false
    | n => n.children.any inside) false l

/-- Whether statements return from the function they stand in. -/
def returns (s : Store) (statements : List Loc) : Bool := statements.any s.returnsAt

def markupAt (s : Store) (l : Loc) : List Loc :=
  s.read (fun inside l n =>
    if n.isMarkup then [l] else n.children.flatMap inside) [] l

def markupRoots (s : Store) (statements : List Loc) : List Loc := statements.flatMap s.markupAt

end JsxLoops.Tree.Store
