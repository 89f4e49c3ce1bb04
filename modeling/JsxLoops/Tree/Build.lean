import JsxLoops.Text.Blank
import JsxLoops.Surface.Grammar
import JsxLoops.Surface.Mark
import JsxLoops.Tree.Store

/-!
From phrases to nodes. The constructs that loops are lowered through become nodes of their own;
everything else is kept as verbatim code.
-/

namespace JsxLoops.Tree

open JsxLoops.Surface

/-! ### Verbatim code -/

/-- Puts a used name in front of the first one that does not start before it. -/
def insertUse (u : Span × String) : List (Span × String) → List (Span × String)
  | [] => [u]
  | v :: rest => if u.1.start ≤ v.1.start then u :: v :: rest else v :: insertUse u rest

/-- Used names in the order of their starts; names with the same start keep their order. -/
def sortUses (uses : List (Span × String)) : List (Span × String) := uses.foldr insertUse []

def sliceText (source : List Char) (span : Span) : String := String.ofList (span.slice source)

/-- Plain text between two positions, if there is any. -/
def textPiece (source : List Char) (start stop : Nat) : List Piece :=
  if start < stop then [.text (sliceText source ⟨start, stop⟩)] else []

/-- Cuts the source from `cursor` to `stop` at the used names. A name that starts before the
cursor, or is not spelled as it is called, stays part of the text. -/
def cutPieces (source : List Char) (stop : Nat) : Nat → List (Span × String) → List Piece
  | cursor, [] => textPiece source cursor stop
  | cursor, (span, name) :: rest =>
    if span.start < cursor || sliceText source span != name then cutPieces source stop cursor rest
    else textPiece source cursor span.start ++ .mention name :: cutPieces source stop span.stop rest

def verbatimCode (source : List Char) (span : Span) (marks : List Mark) : Verbatim where
  pieces :=
    cutPieces source span.stop span.start
      (sortUses ((marks.filterMap Mark.use?).filter fun u => span.holds u.1))
  declares :=
    (((marks.filterMap Mark.bind?).filter fun b => span.holds b.1).map (·.2)).eraseDups
  hasMarkup := marks.contains .markup
  hasReturn := marks.contains .returns

/-! ### Binders -/

def withoutArrows : List Char → List Char
  | '=' :: '>' :: rest => withoutArrows rest
  | c :: rest => c :: withoutArrows rest
  | [] => []

def plainParam (name : String) (text : List Char) : Option Binder :=
  if !name.toList.isPrefixOf text then none
  else
    match Text.trim (text.drop name.length) with
    | [] => some (.plain name)
    | ':' :: rest =>
      let annotation := Text.trim rest
      if annotation.isEmpty || (withoutArrows annotation).contains '=' then none
      else some (.annotated name (String.ofList annotation))
    | _ => none

def paramBinder (source : List Char) (marks : List Mark) (p : Phrase) : Binder :=
  let kept := Binder.verbatim (verbatimCode source p.span marks)
  match p.shape with
  | .param (some name) => (plainParam name (p.span.slice source)).getD kept
  | _ => kept

def isAsciiName (text : List Char) : Bool :=
  let isStart (c : Char) := c.isAlpha || c == '_' || c == '$'
  match text with
  | [] => false
  | c :: rest => isStart c && rest.all fun d => isStart d || d.isDigit

/-- The text of a declared variable in front of its value, equals signs left out. -/
def declaredHead (text : List Char) : List Char :=
  Text.trimRight (Text.dropRight (· == '=') (Text.trimRight text))

def declaredBinder (source : List Char) (span : Span) (valueStart : Nat) (target : Phrase) :
    Binder :=
  let head := declaredHead (Span.slice source ⟨span.start, valueStart⟩)
  if isAsciiName head then .plain (String.ofList head)
  else .verbatim (verbatimCode source ⟨span.start, span.start + head.length⟩ target.marks)

/-! ### Nodes -/

def isPlainReceiver : Phrase → Bool
  | ⟨_, .use _, _⟩ | ⟨_, .this, _⟩ => true
  | ⟨_, .member _ false, [object]⟩ => isPlainReceiver object
  | ⟨_, .index false, object :: _⟩ => isPlainReceiver object
  | _ => false

/-- Whether the arguments of a call follow its callee with only blanks between. -/
def opensArguments (source : List Char) (calleeStop callStop : Nat) : Bool :=
  (Text.trimLeft (Span.slice source ⟨calleeStop, callStop⟩)).head? == some '('

/-- Whether an entry of an object literal has a node of its own. -/
def isPlainEntry (p : Phrase) : Bool :=
  match p.shape, p.parts with
  | .entry .special _, _ => false
  | .entry .computed _, [_, _] => true
  | .entry _ _, [_] => true
  | .spread, [_] => true
  | _, _ => false

/-- Whether a function states no type parameters and no result type. -/
def isUntyped (source : List Char) (start : Nat) (params body : Span) : Bool :=
  !(Span.slice source ⟨start, params.start⟩).contains '<' &&
    !(Span.slice source ⟨params.stop, body.start⟩).contains ':'

section

variable (source : List Char) (inside : Phrase → Edit Loc)

def keepVerbatim (p : Phrase) : Edit Loc :=
  Edit.add (.verbatim (verbatimCode source p.span p.marks))

def buildEntry (p : Phrase) : Edit (Entry Loc) := do
  match p.shape, p.parts with
  | .entry .computed short, [key, value] =>
    return .pair (.computed (← inside key)) (← inside value) short
  | .entry (.named name) short, [value] => return .pair (.name name) (← inside value) short
  | .entry (.quoted span) short, [value] =>
    return .pair (.literal (sliceText source span)) (← inside value) short
  | .spread, [value] => return .spread (← inside value)
  | _, _ => return .spread (← keepVerbatim source p)

def buildAttributeValue (p : Phrase) : Edit (AttributeValue Loc) := do
  match p.shape, p.parts with
  | .quotedValue, _ => return .literal (sliceText source p.span)
  | .container, [value] => return .expression (← inside value)
  | _, _ => return .expression (← inside p)

def buildAttribute (p : Phrase) : Edit (Attribute Loc) := do
  match p.shape, p.parts with
  | .attribute name, [value] =>
    return .named (sliceText source name) (← buildAttributeValue source inside value)
  | .attribute name, _ => return .named (sliceText source name) .absent
  | .spreadAttribute, [value] => return .spread (← inside value)
  | _, _ => return .spread (← keepVerbatim source p)

def buildDeclarator (p : Phrase) : Edit (Declarator Loc) := do
  match p.parts with
  | [target, _, value] =>
    let init ← inside value
    return ⟨declaredBinder source p.span value.span.start target, some init⟩
  | target :: _ => return ⟨declaredBinder source p.span p.span.stop target, none⟩
  | [] => return ⟨.plain (sliceText source p.span), none⟩

/-- A function with nodes for its parameters and its body. -/
def buildLambda (form : LambdaForm) (isAsync generator : Bool) (params : Phrase)
    (body : Edit (Body Loc)) : Edit Loc := do
  let binders := params.parts.map (paramBinder source params.marks)
  Edit.add (.lambda ⟨form, isAsync, generator, binders, ← body⟩)

def buildNode (p : Phrase) : Edit Loc := do
  let kept := keepVerbatim source p
  match p.shape, p.parts with
  | .use name, _ => Edit.name name
  | .literal _, _ => Edit.add (.literal (sliceText source p.span))
  | .member property false, [object] => Edit.add (.member (← inside object) property false)
  | .index false, [object, index] => Edit.add (.index (← inside object) (← inside index))
  | .call false, callee :: args =>
    if opensArguments source callee.span.stop p.span.stop then
      Edit.add (.call (← inside callee) (← args.mapM inside))
    else kept
  | .chain, [⟨_, .call false, ⟨span, .member property true, [object]⟩ :: args⟩] =>
    if isPlainReceiver object && opensArguments source span.stop p.span.stop then
      let callee ← Edit.add (.member (← inside object) property true)
      Edit.add (.call callee (← args.mapM inside))
    else kept
  | .array _, items =>
    if items.any (·.shape == .hole) then kept else Edit.add (.array (← items.mapM inside))
  | .spread, [inner] => Edit.add (.spread (← inside inner))
  | .object _, entries =>
    if entries.all isPlainEntry then
      Edit.add (.object (← entries.mapM (buildEntry source inside)))
    else kept
  | .unary op, [argument] => Edit.add (.unary op (← inside argument))
  | .binary op, [left, right] => Edit.add (.binary op (← inside left) (← inside right))
  | .logical op, [left, right] => Edit.add (.logical op (← inside left) (← inside right))
  | .conditional, [test, yes, no] =>
    Edit.add (.conditional (← inside test) (← inside yes) (← inside no))
  | .paren, [inner] => Edit.add (.paren (← inside inner))
  | .lambda true isAsync generator _, [_, params, _, ⟨span, .concise, [value]⟩] =>
    if isUntyped source p.span.start params.span span then
      buildLambda source .arrow isAsync generator params (return .value (← inside value))
    else kept
  | .lambda arrow isAsync generator name, [_, params, _, ⟨span, .body false, statements⟩] =>
    if isUntyped source p.span.start params.span span then
      let form := if arrow then .arrow else .function name
      buildLambda source form isAsync generator params
        (return .block (← statements.mapM inside))
    else kept
  | .element tag selfClosing, [_, attributes, children, _] =>
    let attributes ← attributes.parts.mapM (buildAttribute source inside)
    let children ← children.parts.mapM inside
    Edit.add (.element ⟨sliceText source tag, attributes, children, selfClosing⟩)
  | .fragment, children => Edit.add (.fragment (← children.mapM inside))
  | .text, _ | .emptyContainer, _ => Edit.add (.text (sliceText source p.span))
  | .container, [inner] => Edit.add (.container (← inside inner))
  | .returns, [value] => Edit.add (.returning (some (← inside value)))
  | .returns, [] => Edit.add (.returning none)
  | .exprStatement, [inner] => Edit.add (.performing (← inside inner))
  | .declaration keyword, items =>
    Edit.add (.declaration keyword (← items.mapM (buildDeclarator source inside)))
  | .branch, [test, yes] => Edit.add (.branch (← inside test) (← inside yes) none)
  | .branch, [test, yes, no] =>
    Edit.add (.branch (← inside test) (← inside yes) (some (← inside no)))
  | .block, statements => Edit.add (.block (← statements.mapM inside))
  | _, _ => kept

end

/-- The node of a phrase that is at most `depth` phrases deep. -/
def buildTo (source : List Char) : Nat → Phrase → Edit Loc
  | 0, p => keepVerbatim source p
  | depth + 1, p => buildNode source (buildTo source depth) p

/-- A template: a store and the location of its root. -/
structure Template where
  store : Store
  root : Loc

def Template.parse (source : List Char) : Option Template :=
  (readExpression source).map fun p =>
    let (root, store) := (buildTo source (depthFor source) p).run .empty
    ⟨store, root⟩

end JsxLoops.Tree
