/-!
Phrases: the source as a tree of spans. A phrase is a stretch of the source, what it is, and the
phrases it is made of in source order. Only the shapes that later stages tell apart have a shape
of their own; every other construct is `other`, whose parts still hold the names used inside it.
-/

namespace JsxLoops.Surface

/-- A stretch of the source, counted in characters: `start` inclusive, `stop` exclusive. -/
structure Span where
  start : Nat
  stop : Nat
deriving DecidableEq, Repr, Inhabited

def Span.holds (outer inner : Span) : Bool :=
  outer.start ≤ inner.start && inner.stop ≤ outer.stop

def Span.slice (source : List Char) (span : Span) : List Char :=
  (source.drop span.start).take (span.stop - span.start)

/-- How an entry of an object literal is keyed. A computed key is the first part of the entry. -/
inductive KeyForm where
  | named (name : String)
  | quoted (span : Span)
  | computed
  /-- A private name or a big number. -/
  | special
deriving DecidableEq, Repr

/-- What a phrase is. -/
inductive Shape where
  /-- A name used as a value, as the target of an assignment or as a type. -/
  | use (name : String)
  /-- A name that is declared. -/
  | bind (name : String)
  | this
  /-- A literal; `quoted` marks string literals. -/
  | literal (quoted : Bool)
  /-- A missing item of an array literal. -/
  | hole
  /-- `[object]` -/
  | member (property : String) (optional : Bool)
  /-- `[object]`, for a member with a private name. -/
  | privateMember
  /-- `[object, index]` -/
  | index (optional : Bool)
  /-- Callee, then arguments. A call with type arguments is `other`. -/
  | call (optional : Bool)
  /-- A whole optional chain. -/
  | chain
  /-- Items; `trailing` tells whether a comma follows the last. -/
  | array (trailing : Bool)
  | spread
  /-- Entries and spreads; `trailing` tells whether a comma follows the last. -/
  | object (trailing : Bool)
  /-- Computed key, if any, then the value. -/
  | entry (key : KeyForm) (shorthand : Bool)
  /-- A shorthand entry with a default, legal only as an assignment target. -/
  | defaulted
  | unary (op : String)
  | binary (op : String)
  | logical (op : String)
  | conditional
  | paren
  /-- Target, then value. -/
  | assign (op : String)
  | awaits
  /-- An expression with a type assertion. -/
  | asserted
  /-- An expression with type arguments that are not part of a call. -/
  | instantiated
  /-- Head, parameters, result type, body. -/
  | lambda (arrow isAsync generator : Bool) (name : Option String)
  | params
  /-- A parameter; `name` is set when its pattern is a single name. -/
  | param (name : Option String)
  | rest
  /-- The body of an arrow that is one expression. -/
  | concise
  /-- A braced body; `directives` tells whether string statements lead it. -/
  | body (directives : Bool)
  /-- Names, attributes, children, closing name. -/
  | element (tag : Span) (selfClosing : Bool)
  | fragment
  /-- At most one part, the value. -/
  | attribute (name : Span)
  | spreadAttribute
  | quotedValue
  | container
  | emptyContainer
  | spreadChild
  | text
  | returns
  | exprStatement
  | declaration (keyword : String)
  /-- Pattern, annotation, and the value if there is one. -/
  | declarator
  | branch
  | block
  | other
deriving DecidableEq, Repr

/-- A stretch of the source with its shape and its parts in source order. -/
structure Phrase where
  span : Span
  shape : Shape
  parts : List Phrase

namespace Phrase

def leaf (span : Span) (shape : Shape) : Phrase := ⟨span, shape, []⟩

/-- Several phrases taken together where at most one stands in the grammar. -/
def group (parts : List Phrase) : Phrase := ⟨⟨0, 0⟩, .other, parts⟩

/-- Whether the phrase is an element or a fragment, parentheses aside. -/
def isMarkup : Phrase → Bool
  | ⟨_, .element _ _, _⟩ | ⟨_, .fragment, _⟩ => true
  | ⟨_, .paren, [inner]⟩ => inner.isMarkup
  | _ => false

end Phrase

end JsxLoops.Surface
