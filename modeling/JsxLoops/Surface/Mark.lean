import JsxLoops.Surface.Phrase

/-!
What a phrase leaves behind when it is kept as text: the names it uses and declares, whether it
holds markup, and whether it returns from the function it stands in.
-/

namespace JsxLoops.Surface

inductive Mark where
  | use (span : Span) (name : String)
  | bind (span : Span) (name : String)
  | markup
  | returns
deriving DecidableEq, Repr

namespace Mark

def use? : Mark → Option (Span × String)
  | .use span name => some (span, name)
  | _ => none

def bind? : Mark → Option (Span × String)
  | .bind span name => some (span, name)
  | _ => none

end Mark

def Shape.marks (span : Span) : Shape → List Mark
  | .use name => [.use span name]
  | .bind name => [.bind span name]
  | .element _ _ | .fragment => [.markup]
  | .returns => [.returns]
  | _ => []

/-- The marks that a phrase lets through from its parts. A return inside a function is no return
from what holds the function. -/
def Shape.letsOut : Shape → Mark → Bool
  | .lambda _ _ _ _, .returns => false
  | _, _ => true

mutual

def Phrase.marks : Phrase → List Mark
  | ⟨span, shape, parts⟩ => shape.marks span ++ (marksOf parts).filter shape.letsOut

def marksOf : List Phrase → List Mark
  | [] => []
  | p :: rest => p.marks ++ marksOf rest

end

end JsxLoops.Surface
