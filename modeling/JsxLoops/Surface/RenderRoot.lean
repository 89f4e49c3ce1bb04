import JsxLoops.Surface.Grammar

/-!
The render root of a module: the markup that its component renders. Markup is a candidate where it
is returned or is the whole body of an arrow, parentheses aside. The root is the first candidate
among those inside the fewest functions.
-/

namespace JsxLoops.Surface

/-- A candidate: in how many functions it stands, and where. -/
structure Candidate where
  depth : Nat
  span : Span
deriving DecidableEq, Repr

def Phrase.offer (depth : Nat) (p : Phrase) : List Candidate :=
  if p.isMarkup then [⟨depth, p.span⟩] else []

mutual

def Phrase.candidates (depth : Nat) : Phrase → List Candidate
  | ⟨_, .lambda _ _ _ _, parts⟩ => candidatesOf (depth + 1) parts
  | ⟨_, .concise, [value]⟩ => value.offer depth ++ value.candidates depth
  | ⟨_, .returns, [value]⟩ => value.offer depth ++ value.candidates depth
  | ⟨_, _, parts⟩ => candidatesOf depth parts

def candidatesOf (depth : Nat) : List Phrase → List Candidate
  | [] => []
  | p :: rest => p.candidates depth ++ candidatesOf depth rest

end

def shallowest : List Candidate → Option Candidate
  | [] => none
  | c :: rest =>
    match shallowest rest with
    | some best => if best.depth < c.depth then some best else some c
    | none => some c

/-- The span of the render root of a module. The outer `none` is a text that is no module. -/
def renderRoot (source : List Char) : Option (Option Span) :=
  (readModule source).map fun items => (shallowest (candidatesOf 0 items)).map (·.span)

end JsxLoops.Surface
