/-!
The nodes of a render tree. A node is one construct with its data; its children are of a type `α`
left open, so that the same node can hold locations in a store, whole subtrees, or what was
computed from them. `children` lists them in source order and `map` changes each of them.
-/

namespace JsxLoops.Tree

/-! ### Code kept as text -/

/-- A stretch of verbatim code: plain text, or a name it mentions. -/
inductive Piece where
  | text (text : String)
  | mention (name : String)
deriving DecidableEq, Repr

namespace Piece

def spelling : Piece → String
  | .text s | .mention s => s

def mentioned? : Piece → Option String
  | .mention name => some name
  | .text _ => none

def rename (source target : String) : Piece → Piece
  | .mention name => .mention (if name == source then target else name)
  | p => p

end Piece

/-- Code that is kept as written. The names it mentions stay reachable, and what it declares, and
whether it holds markup or returns, is known of the whole. -/
structure Verbatim where
  pieces : List Piece
  declares : List String
  hasMarkup : Bool
  hasReturn : Bool
deriving DecidableEq, Repr

namespace Verbatim

def text (v : Verbatim) : String := String.join (v.pieces.map Piece.spelling)

def mentions (v : Verbatim) : List String := v.pieces.filterMap Piece.mentioned?

/-- The mentioned names that the code does not declare itself. -/
def openMentions (v : Verbatim) : List String :=
  v.mentions.filter fun name => !v.declares.contains name

/-- How often the code mentions `name` from outside. -/
def openCount (v : Verbatim) (name : String) : Nat := v.openMentions.count name

/-- Renames the mentions of `source`, unless the code declares that name itself. -/
def rename (source target : String) (v : Verbatim) : Verbatim :=
  if v.declares.contains source then v
  else { v with pieces := v.pieces.map (Piece.rename source target) }

end Verbatim

/-- What a parameter or a declared variable binds. -/
inductive Binder where
  | plain (name : String)
  | annotated (name annotation : String)
  | verbatim (code : Verbatim)
deriving DecidableEq, Repr

namespace Binder

def names : Binder → List String
  | .plain name | .annotated name _ => [name]
  | .verbatim code => code.declares

def name? : Binder → Option String
  | .plain name | .annotated name _ => some name
  | .verbatim _ => none

def code? : Binder → Option Verbatim
  | .verbatim code => some code
  | _ => none

def rename (source target : String) : Binder → Binder
  | .verbatim code => .verbatim (code.rename source target)
  | b => b

end Binder

/-! ### Parts of nodes -/

inductive LambdaForm where
  | arrow
  | function (name : Option String)
deriving DecidableEq, Repr

inductive Body (α : Type) where
  | value (value : α)
  | block (statements : List α)
deriving DecidableEq, Repr

structure Lambda (α : Type) where
  form : LambdaForm
  isAsync : Bool
  generator : Bool
  params : List Binder
  body : Body α
deriving DecidableEq, Repr

def Lambda.boundNames {α : Type} (f : Lambda α) : List String :=
  f.params.flatMap Binder.names ++
    match f.form with
    | .function (some name) => [name]
    | _ => []

inductive Key (α : Type) where
  | name (name : String)
  | literal (text : String)
  | computed (key : α)
deriving DecidableEq, Repr

inductive Entry (α : Type) where
  | pair (key : Key α) (value : α) (shorthand : Bool)
  | spread (value : α)
deriving DecidableEq, Repr

namespace Entry

variable {α : Type}

def field (name : String) (value : α) : Entry α := .pair (.name name) value false

def fieldName? : Entry α → Option String
  | .pair (.name name) _ _ => some name
  | _ => none

end Entry

inductive AttributeValue (α : Type) where
  | absent
  | literal (text : String)
  | expression (value : α)
  | mustache (path : String)
deriving DecidableEq, Repr

inductive Attribute (α : Type) where
  | named (name : String) (value : AttributeValue α)
  | spread (value : α)
deriving DecidableEq, Repr

namespace Attribute

variable {α : Type}

def quoted (name value : String) : Attribute α := .named name (.literal ("\"" ++ value ++ "\""))

def name? : Attribute α → Option String
  | .named name _ => some name
  | .spread _ => none

end Attribute

structure Element (α : Type) where
  tag : String
  attributes : List (Attribute α)
  children : List α
  selfClosing : Bool
deriving DecidableEq, Repr

structure Declarator (α : Type) where
  binder : Binder
  value : Option α
deriving DecidableEq, Repr

/-! ### Nodes -/

/-- One construct of a render tree. -/
inductive Node (α : Type) where
  | name (name : String)
  | literal (text : String)
  | verbatim (code : Verbatim)
  | member (object : α) (property : String) (optional : Bool)
  | index (object index : α)
  | call (callee : α) (arguments : List α)
  | lambda (f : Lambda α)
  | object (entries : List (Entry α))
  | array (items : List α)
  | spread (inner : α)
  | binary (op : String) (left right : α)
  | logical (op : String) (left right : α)
  | unary (op : String) (argument : α)
  | conditional (test yes no : α)
  | paren (inner : α)
  | element (e : Element α)
  | fragment (children : List α)
  | text (text : String)
  | container (inner : α)
  | mustache (path : String)
  | returning (value : Option α)
  | performing (inner : α)
  | declaration (keyword : String) (declarators : List (Declarator α))
  | branch (test yes : α) (no : Option α)
  | block (statements : List α)
deriving DecidableEq, Repr

variable {α β : Type}

/-! ### Children -/

def Body.children : Body α → List α
  | .value v => [v]
  | .block body => body

def Key.children : Key α → List α
  | .computed k => [k]
  | _ => []

def Entry.children : Entry α → List α
  | .pair k v _ => k.children ++ [v]
  | .spread v => [v]

def AttributeValue.children : AttributeValue α → List α
  | .expression v => [v]
  | _ => []

def Attribute.children : Attribute α → List α
  | .named _ v => v.children
  | .spread v => [v]

namespace Node

def children : Node α → List α
  | .name _ | .literal _ | .verbatim _ | .text _ | .mustache _ => []
  | .member o _ _ => [o]
  | .index o i => [o, i]
  | .call callee args => callee :: args
  | .lambda f => f.body.children
  | .object entries => entries.flatMap Entry.children
  | .array items => items
  | .spread inner | .paren inner | .container inner | .performing inner => [inner]
  | .binary _ left right | .logical _ left right => [left, right]
  | .unary _ argument => [argument]
  | .conditional test yes no => [test, yes, no]
  | .element e => e.attributes.flatMap Attribute.children ++ e.children
  | .fragment inner => inner
  | .returning v => v.toList
  | .declaration _ declarators => declarators.filterMap Declarator.value
  | .branch test yes no => test :: yes :: no.toList
  | .block body => body

/-- The binders of the node itself: the parameters of a function, or the declared variables. -/
def binders : Node α → List Binder
  | .lambda f => f.params
  | .declaration _ declarators => declarators.map Declarator.binder
  | _ => []

def isMarkup : Node α → Bool
  | .element _ | .fragment _ => true
  | _ => false

end Node

/-! ### Changing every child -/

def Body.map (f : α → β) : Body α → Body β
  | .value v => .value (f v)
  | .block body => .block (body.map f)

def Key.map (f : α → β) : Key α → Key β
  | .name s => .name s
  | .literal s => .literal s
  | .computed k => .computed (f k)

def Entry.map (f : α → β) : Entry α → Entry β
  | .pair k v short => .pair (k.map f) (f v) short
  | .spread v => .spread (f v)

def AttributeValue.map (f : α → β) : AttributeValue α → AttributeValue β
  | .absent => .absent
  | .literal s => .literal s
  | .expression v => .expression (f v)
  | .mustache p => .mustache p

def Attribute.map (f : α → β) : Attribute α → Attribute β
  | .named s v => .named s (v.map f)
  | .spread v => .spread (f v)

namespace Node

def map (f : α → β) : Node α → Node β
  | .name s => .name s
  | .literal s => .literal s
  | .verbatim c => .verbatim c
  | .member o p opt => .member (f o) p opt
  | .index o i => .index (f o) (f i)
  | .call callee args => .call (f callee) (args.map f)
  | .lambda l => .lambda ⟨l.form, l.isAsync, l.generator, l.params, l.body.map f⟩
  | .object entries => .object (entries.map (Entry.map f))
  | .array items => .array (items.map f)
  | .spread inner => .spread (f inner)
  | .binary op left right => .binary op (f left) (f right)
  | .logical op left right => .logical op (f left) (f right)
  | .unary op argument => .unary op (f argument)
  | .conditional test yes no => .conditional (f test) (f yes) (f no)
  | .paren inner => .paren (f inner)
  | .element e =>
    .element ⟨e.tag, e.attributes.map (Attribute.map f), e.children.map f, e.selfClosing⟩
  | .fragment inner => .fragment (inner.map f)
  | .text s => .text s
  | .container inner => .container (f inner)
  | .mustache p => .mustache p
  | .returning v => .returning (v.map f)
  | .performing inner => .performing (f inner)
  | .declaration keyword declarators =>
    .declaration keyword (declarators.map fun d => ⟨d.binder, d.value.map f⟩)
  | .branch test yes no => .branch (f test) (f yes) (no.map f)
  | .block body => .block (body.map f)

end Node

/-! ### Changing every child with an effect -/

section Effects

variable {m : Type → Type} [Monad m]

def Body.mapM (f : α → m β) : Body α → m (Body β)
  | .value v => return .value (← f v)
  | .block body => return .block (← body.mapM f)

def Key.mapM (f : α → m β) : Key α → m (Key β)
  | .name s => return .name s
  | .literal s => return .literal s
  | .computed k => return .computed (← f k)

def Entry.mapM (f : α → m β) : Entry α → m (Entry β)
  | .pair k v short => return .pair (← k.mapM f) (← f v) short
  | .spread v => return .spread (← f v)

def AttributeValue.mapM (f : α → m β) : AttributeValue α → m (AttributeValue β)
  | .absent => return .absent
  | .literal s => return .literal s
  | .expression v => return .expression (← f v)
  | .mustache p => return .mustache p

def Attribute.mapM (f : α → m β) : Attribute α → m (Attribute β)
  | .named s v => return .named s (← v.mapM f)
  | .spread v => return .spread (← f v)

def mapOption (f : α → m β) : Option α → m (Option β)
  | some a => return some (← f a)
  | none => return none

def Node.mapM (f : α → m β) : Node α → m (Node β)
  | .name s => return .name s
  | .literal s => return .literal s
  | .verbatim c => return .verbatim c
  | .member o p opt => return .member (← f o) p opt
  | .index o i => return .index (← f o) (← f i)
  | .call callee args => return .call (← f callee) (← args.mapM f)
  | .lambda l => return .lambda ⟨l.form, l.isAsync, l.generator, l.params, ← l.body.mapM f⟩
  | .object entries => return .object (← entries.mapM (Entry.mapM f))
  | .array items => return .array (← items.mapM f)
  | .spread inner => return .spread (← f inner)
  | .binary op left right => return .binary op (← f left) (← f right)
  | .logical op left right => return .logical op (← f left) (← f right)
  | .unary op argument => return .unary op (← f argument)
  | .conditional test yes no => return .conditional (← f test) (← f yes) (← f no)
  | .paren inner => return .paren (← f inner)
  | .element e =>
    return .element
      ⟨e.tag, ← e.attributes.mapM (Attribute.mapM f), ← e.children.mapM f, e.selfClosing⟩
  | .fragment inner => return .fragment (← inner.mapM f)
  | .text s => return .text s
  | .container inner => return .container (← f inner)
  | .mustache p => return .mustache p
  | .returning v => return .returning (← mapOption f v)
  | .performing inner => return .performing (← f inner)
  | .declaration keyword declarators =>
    return .declaration keyword
      (← declarators.mapM fun d => return ⟨d.binder, ← mapOption f d.value⟩)
  | .branch test yes no => return .branch (← f test) (← f yes) (← mapOption f no)
  | .block body => return .block (← body.mapM f)

end Effects

end JsxLoops.Tree
