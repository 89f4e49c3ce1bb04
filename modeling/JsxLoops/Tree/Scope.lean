import JsxLoops.Tree.Store

/-!
Names and their scopes. A function binds its parameters, its own name and what its block declares;
a block binds what it declares. A mention is free where nothing around it, inside the part that is
looked at, binds its name. Free mentions are listed with the location that holds them.
-/

namespace JsxLoops.Tree

/-- What stands in a node in source order: the code of its binders, and its children. -/
inductive Content (α : Type) where
  | code (code : Verbatim)
  | child (child : α)
deriving DecidableEq, Repr

def Binder.contents {α : Type} (b : Binder) : List (Content α) := b.code?.toList.map .code

/-- The contents of a node. A parameter stands before the body of its function, and a declared
variable before its value. -/
def Node.contents {α : Type} : Node α → List (Content α)
  | .lambda f => f.params.flatMap Binder.contents ++ f.body.children.map .child
  | .declaration _ declarators =>
    declarators.flatMap fun d => d.binder.contents ++ d.value.toList.map .child
  | n => n.children.map .child

/-- A mention of a name, in the node at a location. -/
structure Mention where
  loc : Loc
  name : String
deriving DecidableEq, Repr

namespace Store

def declaredNames (s : Store) (statements : List Loc) : List String :=
  statements.flatMap fun l => match s.get l with
    | .declaration _ declarators => declarators.flatMap fun d => d.binder.names
    | _ => []

def scopeNames (s : Store) : Node Loc → List String
  | .lambda f =>
    f.boundNames ++ match f.body with
      | .block statements => s.declaredNames statements
      | .value _ => []
  | .block statements => s.declaredNames statements
  | _ => []

/-- The mentions in a node itself and in what stands in it, scopes aside. -/
def mentionsIn (inside : Loc → List Mention) (l : Loc) (n : Node Loc) : List Mention :=
  match n with
  | .name name => [⟨l, name⟩]
  | .verbatim code => code.openMentions.map (⟨l, ·⟩)
  | n => n.contents.flatMap fun c => match c with
    | .code code => code.openMentions.map (⟨l, ·⟩)
    | .child child => inside child

def freeMentions (s : Store) (l : Loc) : List Mention :=
  s.read (fun inside l n =>
    (mentionsIn inside l n).filter fun m => !(s.scopeNames n).contains m.name) [] l

def freeNames (s : Store) (l : Loc) : List String :=
  ((s.freeMentions l).map Mention.name).eraseDups

end Store

end JsxLoops.Tree
