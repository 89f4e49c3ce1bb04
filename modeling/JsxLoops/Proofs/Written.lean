import JsxLoops.Proofs.Erasure
import JsxLoops.Proofs.Legible
import JsxLoops.Proofs.Lexeme

/-!
The lexemes of a tree. What is printed for a tree is a list of lexemes, of which the first has in
front of it the blanks that the place of the tree asks for.
-/

namespace JsxLoops.Tree

open JsxLoops.Surface JsxLoops.Text

/-- The lexemes of a tree, given the blanks in front of the first and the level of indentation. -/
abbrev Writing := List Char → Nat → List Lexeme

namespace Style

/-- The blanks between the braces of an object or block and what stands in them. -/
def gap (style : Style) (level : Nat) : List Char :=
  match style with
  | .concise => [' ']
  | .pretty => '\n' :: List.replicate (2 * level) ' '

/-- The level of indentation between the braces of an object or block. -/
def inner (style : Style) (level : Nat) : Nat :=
  match style with
  | .concise => level
  | .pretty => level + 1

end Style

section

open Lexeme

/-! ### Words and signs -/

def literalLexeme (gap : List Char) (text : String) : Lexeme :=
  let kind := if isQuotedText text then .quoted else if isNumberText text then .number else .word
  ⟨.code, gap, kind, text, []⟩

/-- A binary operator. Only the first of several angles is scanned at once. -/
def operatorLexeme (op : String) : Lexeme :=
  match op.toList with
  | '>' :: tail => ⟨.code, [' '], .sign, ">", tail⟩
  | _ => if op.toList.all Char.isAlpha then word [' '] op else sign [' '] op

def unaryLexeme (gap : List Char) (op : String) : Lexeme :=
  if op.toList.all Char.isAlpha then word gap op else sign gap op

/-! ### Lists -/

def writeListed (first others : List Char) (items : List Writing) (level : Nat) : List Lexeme :=
  match items with
  | [] => []
  | item :: items => item first level ++ items.flatMap fun w => sign [] "," :: w others level

def writeBetween (gap : List Char) (opening closing : String) (items : List Writing) (level : Nat) :
    List Lexeme :=
  sign gap opening :: writeListed [] [' '] items level ++ [sign [] closing]

variable (style : Style)

def writeKey (key : Key Writing) : Writing := fun gap level =>
  match key with
  | .name name => [word gap name]
  | .literal text => [literalLexeme gap text]
  | .computed key => sign gap "[" :: key [] level ++ [sign [] "]"]

def writeEntry (e : Entry Writing) : Writing := fun gap level =>
  match e with
  | .pair key value short =>
    if short then writeKey key gap level
    else writeKey key gap level ++ sign [] ":" :: value [' '] level
  | .spread value => sign gap "..." :: value [] level

def writeObject (gap : List Char) (entries : List (Entry Writing)) (level : Nat) : List Lexeme :=
  match entries with
  | [] => [sign gap "\x7b", sign [] "\x7d"]
  | _ =>
    let inside := style.gap (style.inner level)
    sign gap "\x7b" ::
      writeListed inside inside (entries.map writeEntry) (style.inner level) ++
      [sign (style.gap level) "\x7d"]

/-- The lexemes of a node, given those of its children. -/
def writeNode (n : Node Writing) : Writing := fun gap level =>
  match n with
  | .name text => [word gap text]
  | .literal text => [literalLexeme gap text]
  | .verbatim code => [word gap code.text]
  | .member object property optional =>
    object gap level ++ [sign [] (if optional then "?." else "."), word [] property]
  | .index object index => object gap level ++ sign [] "[" :: index [] level ++ [sign [] "]"]
  | .call callee args => callee gap level ++ writeBetween [] "(" ")" args level
  | .object entries => writeObject style gap entries level
  | .array items => writeBetween gap "[" "]" items level
  | .spread inner => sign gap "..." :: inner [] level
  | .binary op left right | .logical op left right =>
    left gap level ++ operatorLexeme op :: right [' '] level
  | .unary op argument =>
    unaryLexeme gap op :: argument (if op.toList.all Char.isAlpha then [' '] else []) level
  | .conditional test yes no =>
    test gap level ++ sign [' '] "?" :: yes [' '] level ++ sign [' '] ":" :: no [' '] level
  | .paren inner => sign gap "(" :: inner [] level ++ [sign [] ")"]
  | _ => []

end

def Located.written (style : Style) : Located → Writing := fold fun _ _ m => writeNode style m

theorem Located.written_node (style : Style) (l : Loc) (n : Node Located) :
    (node l n).written style = writeNode style (n.map (written style)) :=
  fold_node _ l n

end JsxLoops.Tree
