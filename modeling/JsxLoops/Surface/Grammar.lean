import JsxLoops.Surface.Declaration

/-!
The grammar as a whole, and its two entries: one expression at the front of a text, and a module.
-/

namespace JsxLoops.Surface

open Parse

def readRule (g : Grammar) : Rule → Parse Phrase
  | .expression => expression g
  | .assignment typedArrows => assignment g typedArrows
  | .operators level => operators g level
  | .operand => operand g
  | .type => type g
  | .typeOperand => typeOperand g
  | .resultType => resultType g
  | .pattern => pattern g
  | .access => access g
  | .callee => callee g
  | .element inChild => element g inChild
  | .statement single => statement g single

def grammar : Nat → Grammar
  | 0, _ => fail
  | depth + 1, rule => readRule (grammar depth) rule

/-- Rules nest at most this deep: between two tokens a reader enters only a few rules. -/
def depthFor (source : List Char) : Nat := 8 * source.length + 64

def topContext (source : List Char) : Context where
  bound := source.length + 1
  allowIn := true
  yields := false
  awaits := true
  returns := false
  decorating := false
  conditionals := true
  ambient := false

def startState (pos : Nat) (rest : List Char) : State :=
  let first := scan pos rest
  ⟨first.token, first.rest, pos, [], first.sound⟩

/-- Runs `p` on a text and refuses it if anything was flawed. -/
def run {α : Type} (p : Parse α) (source : List Char) (pos : Nat) (rest : List Char) : Option α :=
  match p (topContext source) (startState pos rest) with
  | some (a, s) => if s.sound && s.looseDefaults.isEmpty then some a else none
  | none => none

/-- The expression at the front of a text. What follows it does not matter, save that the token
after it must be well formed. -/
def readExpression (source : List Char) : Option Phrase :=
  run (grammar (depthFor source) .expression) source 0 source

def moduleItems (g : Grammar) : Parse (List Phrase) :=
  many (do
    if ← isAtKind .eof then return none
    return some (← g (.statement false)))

/-- A first line that names the program to run a script with. -/
def skipHashbang (source : List Char) : Nat × List Char :=
  match source with
  | '#' :: '!' :: r =>
    let line := r.takeWhile (!isLineEnd ·)
    (line.length + 2, r.drop line.length)
  | _ => (0, source)

def readModule (source : List Char) : Option (List Phrase) :=
  let (pos, rest) := skipHashbang source
  run (moduleItems (grammar (depthFor source))) source pos rest

end JsxLoops.Surface
