import JsxLoops.Proofs.Located
import JsxLoops.Tree.Build
import JsxLoops.Tree.Print

/-!
Formulas whose print says what they are. Whether a tree is legible is checked node by node: there
are neither functions nor markup, names and literals are spelled as such, no code is kept verbatim,
operands bind as tightly as their place asks for, and none of the places is used where the print of
a node runs together with what is printed next to it or is mistaken for something else.
-/

namespace JsxLoops.Tree

open JsxLoops.Surface JsxLoops.Text

/-! ### Spellings -/

/-- A word, which may be reserved. -/
def isWordText (text : String) : Bool :=
  match text.toList with
  | c :: r => opensName c && r.all continuesName
  | [] => false

def isNameText (text : String) : Bool :=
  isWordText text && !reservedWords.contains text && !(["let", "async"].contains text)

def isNumberText (text : String) : Bool :=
  match text.toList with
  | c :: r =>
    (c.isDigit || (c == '.' && r.head?.any Char.isDigit)) &&
      (numberTail c r).rest.isEmpty && (numberTail c r).size == r.length && (numberTail c r).sound
  | [] => false

def isQuotedText (text : String) : Bool :=
  match text.toList with
  | c :: r => (c == '\x22' || c == '\x27') &&
      quotedTail c .none 1 true r == some (r.length + 1, [], true)
  | [] => false

def isLiteralText (text : String) : Bool :=
  isQuotedText text || isNumberText text || ["null", "true", "false"].contains text

/-! ### How tightly trees bind -/

def thisCode : Verbatim := ⟨[.text "this"], [], false, false⟩

def logicalOperators : List String := ["??", "||", "&&"]

def binaryOperators : List String :=
  ["|", "^", "&", "==", "!=", "===", "!==", ">", "<=", ">=", "in", "instanceof", ">>", ">>>", "+",
   "-", "*", "/", "%", "**"]

def operatorLevel (op : String) : Nat := bindingLevel ⟨.sign, op, ⟨0, 0⟩, false, false⟩

namespace Located

/-- A member that is skipped if its object is missing. -/
def isOptional (t : Located) : Bool :=
  match t.here with
  | .member _ _ optional => optional
  | _ => false

/-- How tightly the tree holds together where it stands among operators: 15 if members and calls
may follow it, 14 if it is an operand, and 0 if it is no expression. -/
def strength (t : Located) : Nat :=
  match t.here with
  | .name _ | .literal _ | .index _ _ | .object _ | .array _ | .paren _ => 15
  | .verbatim code => if code == thisCode then 15 else 0
  | .member _ _ optional => if optional then 0 else 15
  | .call callee _ => if callee.isOptional then 14 else 15
  | .unary _ _ => 14
  | .binary op _ _ | .logical op _ _ => operatorLevel op + 1
  | .conditional _ _ _ => 1
  | _ => 0

/-- The tree is an expression. -/
def isValue (t : Located) : Bool := 1 ≤ t.strength

def isItem (t : Located) : Bool :=
  t.isValue || match t.here with
    | .spread _ => true
    | _ => false

def isNumber (t : Located) : Bool :=
  match t.here with
  | .literal text => isNumberText text
  | _ => false

def isString (t : Located) : Bool :=
  match t.here with
  | .literal text => isQuotedText text
  | _ => false

def isLogical (t : Located) : Bool :=
  match t.here with
  | .logical op _ _ => op == "&&" || op == "||"
  | _ => false

def isUnary (t : Located) : Bool :=
  match t.here with
  | .unary _ _ => true
  | _ => false

/-! ### Edges -/

/-- The first token of what is printed for an expression. -/
inductive Opening where
  | name (text : String)
  | keyword (text : String)
  | literal (text : String)
  | sign (text : String)
deriving DecidableEq

instance : Inhabited Opening := ⟨.sign ""⟩

/-- How the print of a node starts, given how that of its children does. -/
def Opening.ofNode : Node Opening → Opening
  | .name text => .name text
  | .literal text =>
    if ["null", "true", "false"].contains text then .keyword text else .literal text
  | .verbatim code => .keyword code.text
  | .object _ => .sign "\x7b"
  | .array _ => .sign "["
  | .paren _ => .sign "("
  | .unary op _ => if op.toList.all Char.isAlpha then .keyword op else .sign op
  | .member t _ _ | .index t _ | .call t _ | .binary _ t _ | .logical _ t _ | .conditional t _ _ =>
    t
  | _ => .sign ""

def opening : Located → Opening := fold fun _ _ m => .ofNode m

theorem opening_node (l : Loc) (n : Node Located) :
    (node l n).opening = .ofNode (n.map opening) := fold_node _ l n

def isSimple (t : Located) : Bool :=
  match t.here with
  | .name _ | .verbatim _ => true
  | _ => false

/-- The print ends in a name in parentheses that could be the parameters of an arrow, if a result
type followed. -/
def endsInParams : Located → Bool := fold fun _ n m =>
  match n, m with
  | .paren inner, _ => inner.isSimple
  | _, .conditional _ _ no => no
  | _, _ => false

theorem endsInParams_paren (l : Loc) (inner : Located) :
    (node l (.paren inner)).endsInParams = inner.isSimple := fold_node _ l _

theorem endsInParams_conditional (l : Loc) (test yes no : Located) :
    (node l (.conditional test yes no)).endsInParams = no.endsInParams := fold_node _ l _

/-- A name or `this`, reached through plain members. -/
def isReceiver : Located → Bool := fold fun _ _ m =>
  match m with
  | .name _ | .verbatim _ => true
  | .member t _ optional => t && !optional
  | .index t _ => t
  | _ => false

theorem isReceiver_member (l : Loc) (object : Located) (property : String) (optional : Bool) :
    (node l (.member object property optional)).isReceiver = (object.isReceiver && !optional) :=
  fold_node _ l _

theorem isReceiver_index (l : Loc) (object index : Located) :
    (node l (.index object index)).isReceiver = object.isReceiver := fold_node _ l _

end Located

/-! ### Legible trees -/

open Located

/-- The operands of an operator bind tightly enough. Only `**` groups to the right. -/
def fairOperands (op : String) (left right : Located) : Bool :=
  if op == "**" then 14 ≤ left.strength && !left.isUnary && 13 ≤ right.strength
  else operatorLevel op + 1 ≤ left.strength && operatorLevel op + 2 ≤ right.strength

def fairKey : Key Located → Bool
  | .name name => isWordText name
  | .literal text => (isQuotedText text || isNumberText text) && text.toList.getLast? != some 'n'
  | .computed key => key.isValue

def fairEntry : Entry Located → Bool
  | .pair key value short =>
    fairKey key && value.isValue &&
      (!short || match key, value.here with
        | .name name, .name used => isNameText name && used == name
        | _, _ => false)
  | .spread value => value.isValue

/-- What the place of a node asks of its children. -/
def fairNode : Node Located → Bool
  | .name name => isNameText name
  | .literal text => isLiteralText text
  | .verbatim code => code == thisCode
  | .member object property optional =>
    object.strength == 15 && !object.isNumber && isWordText property &&
      (!optional || object.isReceiver)
  | .index object index => object.strength == 15 && index.isValue
  | .call callee args => (callee.strength == 15 || callee.isOptional) && args.all isItem
  | .object entries => entries.all fairEntry
  | .array items => items.all isItem
  | .spread inner => inner.isValue
  | .binary op left right => binaryOperators.contains op && fairOperands op left right
  | .logical op left right =>
    logicalOperators.contains op && fairOperands op left right &&
      (op != "??" || (!left.isLogical && !right.isLogical))
  | .unary op argument =>
    unaryOperators.contains op && 14 ≤ argument.strength &&
      match argument.here with
      | .unary inner _ => !(op == inner && ["+", "-"].contains op)
      | _ => true
  | .conditional test yes no =>
    2 ≤ test.strength && yes.isValue && no.isValue && !yes.endsInParams
  | .paren inner =>
    inner.isValue && inner.opening != .sign "\x7b" && inner.opening != .sign "["
  | _ => false

/-- Every node stands where its print says what it is. -/
def Located.isLegible : Located → Bool := fold fun _ n m => fairNode n && m.children.all id

theorem Located.isLegible_node {l : Loc} {n : Node Located} :
    (node l n).isLegible = true ↔ fairNode n = true ∧ ∀ c ∈ n.children, c.isLegible = true := by
  rw [isLegible, fold_node, Node.children_map, List.all_map, Bool.and_eq_true, List.all_eq_true]
  rfl

end JsxLoops.Tree
