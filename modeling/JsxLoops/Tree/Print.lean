import JsxLoops.Tree.Store

/-!
Printing. A tree is printed as source text, either on one line or with objects and blocks spread
over indented lines. Only separators depend on the style.
-/

namespace JsxLoops.Tree

inductive Style where
  /-- Objects and blocks on lines of their own, indented by two spaces. -/
  | pretty
  /-- Everything on one line. -/
  | concise
deriving DecidableEq, Repr

abbrev Printed := Nat → String

namespace Style

def lineBreak (level : Nat) : String := "\n" ++ String.ofList (List.replicate (2 * level) ' ')

/-- Braces around lines, each followed by `separator` save the last. -/
def braced (style : Style) (separator : String) (lines : List Printed) (level : Nat) : String :=
  match style, lines with
  | _, [] => "\x7b\x7d"
  | .concise, _ =>
    "\x7b " ++ (separator ++ " ").intercalate (lines.map (· level)) ++ " \x7d"
  | .pretty, _ =>
    "\x7b" ++ lineBreak (level + 1) ++
      (separator ++ lineBreak (level + 1)).intercalate (lines.map (· (level + 1))) ++
      lineBreak level ++ "\x7d"

end Style

def Binder.print : Binder → String
  | .plain name => name
  | .annotated name annotation => name ++ ": " ++ annotation
  | .verbatim code => code.text

/-- What a node shows to the one around it: how it is printed, and whether it is an object or a
name. -/
structure Shown where
  isObject : Bool
  name? : Option String
  text : Printed

section

variable (style : Style)

def printBlock (statements : List Shown) : Printed :=
  style.braced "" (statements.map Shown.text)

/-- An arrow that yields an object literal needs parentheses around it. -/
def printArrowValue (value : Shown) (level : Nat) : String :=
  if value.isObject then "(" ++ value.text level ++ ")" else value.text level

def printLambda (f : Lambda Shown) (level : Nat) : String :=
  let lead := if f.isAsync then "async " else ""
  let params := "(" ++ ", ".intercalate (f.params.map Binder.print) ++ ")"
  match f.form with
  | .arrow =>
    lead ++ params ++ " => " ++
      match f.body with
      | .value value => printArrowValue value level
      | .block statements => printBlock style statements level
  | .function name =>
    let name := match name with
      | some name => " " ++ name
      | none => ""
    lead ++ "function" ++ (if f.generator then "*" else "") ++ name ++ params ++ " " ++
      match f.body with
      | .block statements => printBlock style statements level
      | .value value => "\x7b return " ++ value.text level ++ "; \x7d"

def printKey (key : Key Shown) (level : Nat) : String :=
  match key with
  | .name name => name
  | .literal text => text
  | .computed key => "[" ++ key.text level ++ "]"

def printEntry (e : Entry Shown) (level : Nat) : String :=
  match e with
  | .pair k value short =>
    let full := printKey k level ++ ": " ++ value.text level
    match k with
    | .name name => if short && value.name? == some name then name else full
    | _ => full
  | .spread value => "..." ++ value.text level

def printAttribute (a : Attribute Shown) (level : Nat) : String :=
  match a with
  | .named name .absent => name
  | .named name (.literal text) => name ++ "=" ++ text
  | .named name (.expression value) => name ++ "=\x7b" ++ value.text level ++ "\x7d"
  | .named name (.mustache path) => name ++ "=\"\x7b\x7b" ++ path ++ "\x7d\x7d\""
  | .spread value => "\x7b..." ++ value.text level ++ "\x7d"

def printElement (e : Element Shown) (level : Nat) : String :=
  let attributes := String.join (e.attributes.map fun a => " " ++ printAttribute a level)
  let opening := "<" ++ e.tag ++ attributes
  if e.selfClosing && e.children.isEmpty then opening ++ " />"
  else opening ++ ">" ++ String.join (e.children.map (·.text level)) ++ "</" ++ e.tag ++ ">"

def printDeclarator (d : Declarator Shown) (level : Nat) : String :=
  match d.value with
  | some value => d.binder.print ++ " = " ++ value.text level
  | none => d.binder.print

def printNode (n : Node Shown) (level : Nat) : String :=
  let listed (items : List Shown) := ", ".intercalate (items.map (·.text level))
  match n with
  | .name text | .literal text | .text text => text
  | .verbatim code => code.text
  | .member object property optional =>
    object.text level ++ (if optional then "?." else ".") ++ property
  | .index object index => object.text level ++ "[" ++ index.text level ++ "]"
  | .call callee arguments => callee.text level ++ "(" ++ listed arguments ++ ")"
  | .lambda f => printLambda style f level
  | .object entries => style.braced "," (entries.map printEntry) level
  | .array items => "[" ++ listed items ++ "]"
  | .spread inner => "..." ++ inner.text level
  | .binary op left right | .logical op left right =>
    left.text level ++ " " ++ op ++ " " ++ right.text level
  | .unary op argument =>
    op ++ (if op.toList.all Char.isAlpha then " " else "") ++ argument.text level
  | .conditional test yes no =>
    test.text level ++ " ? " ++ yes.text level ++ " : " ++ no.text level
  | .paren inner => "(" ++ inner.text level ++ ")"
  | .element e => printElement e level
  | .fragment children => "<>" ++ String.join (children.map (·.text level)) ++ "</>"
  | .container inner => "\x7b" ++ inner.text level ++ "\x7d"
  | .mustache path => "\x7b\x7b " ++ path ++ " \x7d\x7d"
  | .returning (some value) => "return " ++ value.text level ++ ";"
  | .returning none => "return;"
  | .performing inner => inner.text level ++ ";"
  | .declaration keyword declarators =>
    keyword ++ " " ++ ", ".intercalate (declarators.map (printDeclarator · level)) ++ ";"
  | .branch test yes no =>
    let otherwise := match no with
      | some no => " else " ++ no.text level
      | none => ""
    "if (" ++ test.text level ++ ") " ++ yes.text level ++ otherwise
  | .block statements => printBlock style statements level

def Shown.ofNode (n : Node Shown) : Shown where
  isObject := match n with
    | .object _ => true
    | _ => false
  name? := match n with
    | .name name => some name
    | _ => none
  text := printNode style n

end

/-- What hangs at a location, as it is printed. -/
def Store.shown (s : Store) (style : Style) (l : Loc) : Shown :=
  s.read (fun inside _ n => Shown.ofNode style (n.map inside)) ⟨false, none, fun _ => ""⟩ l

def Store.print (s : Store) (style : Style) (l : Loc) : String := (s.shown style l).text 0

end JsxLoops.Tree
