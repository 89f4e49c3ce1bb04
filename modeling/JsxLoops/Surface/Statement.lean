import JsxLoops.Surface.Operator

/-!
Statements, apart from declarations of types and modules.
-/

namespace JsxLoops.Surface

open Parse

variable (g : Grammar)

def fullExpression : Parse Phrase := within ({ · with allowIn := true }) (g .expression)

/-- An expression in parentheses, as after `if` or `while`. -/
def condition : Parse Phrase := do
  expect "("
  let test ← fullExpression g
  expect ")"
  return test

def block : Parse Phrase := do
  let start ← here
  expect "\x7b"
  let body ← statements g
  expect "\x7d"
  close start .block body

/-! ### Variables -/

/-- A declared variable. Unless it heads a loop over a collection, a pattern or a constant needs a
value. -/
def declarator (keyword : String) : Parse (Phrase × Bool) := do
  let start ← here
  let target ← g .pattern
  let named := match target.shape with
    | .bind _ => true
    | _ => false
  if named && (← isAt "!") && !(← onNewLine) then advance
  let type ← annotation g
  let value ← if ← eat "=" then pure [← g (.assignment true)] else pure []
  let complete := !value.isEmpty || (named && keyword != "const") || (← read).ambient
  return (← close start .declarator (target :: .group type :: value), complete)

/-- Declared variables, and whether all that need a value have one. -/
def declarators (keyword : String) : Parse (List Phrase × Bool) := do
  let first ← declarator g keyword
  let more ← many (do
    if ← eat "," then return some (← declarator g keyword)
    return none)
  let all := first :: more
  return (all.map (·.1), all.all (·.2))

/-- A declaration of variables that starts with `var`, `let` or `const`. -/
def variableStatement (start : Nat) : Parse Phrase := do
  let keyword ← token
  advance
  let (items, complete) ← within ({ · with allowIn := true }) (declarators g keyword.text)
  flawIf !complete
  endStatement
  close start (.declaration keyword.text) items

/-- Whether `let` declares variables here rather than being a name. -/
def letDeclares : Parse Bool := do
  let next ← nextToken
  return next.isBindable || next.isAny ["[", "\x7b"]

def usingDeclares : Parse Bool := do
  let name : Parse Bool := do
    let t ← token
    return t.isBindable && !t.newline && !t.is "of"
  lookahead (do
    if ← eat "await" then
      if (← onNewLine) || !(← isAt "using") then return false
    if !(← isAt "using") then return false
    step
    name) false

def resources (start : Nat) : Parse Phrase := do
  discard (eat "await")
  advance
  let (items, _) ← within ({ · with allowIn := true }) (declarators g "const")
  flawIf (items.any fun item => item.parts.length < 3)
  endStatement
  close start .other items

/-! ### Loops -/

def overCollection (start : Nat) (left : List Phrase) : Parse Phrase := do
  let collection ← if ← eat "in" then fullExpression g else do
    expect "of"
    oneExpression g
  expect ")"
  let body ← g (.statement true)
  close start .other (left ++ [collection, body])

/-- The rest of a counting loop: test, step and body. -/
def counting (start : Nat) (left : List Phrase) : Parse Phrase := do
  expect ";"
  let test ← if ← isAt ";" then pure [] else pure [← fullExpression g]
  expect ";"
  let next ← if ← isAt ")" then pure [] else pure [← fullExpression g]
  expect ")"
  let body ← g (.statement true)
  close start .other (left ++ test ++ next ++ [body])

def headDeclares : Parse Bool := do
  if ← isAtAny ["var", "const"] then return true
  if ← isAt "let" then return ← letDeclares
  usingDeclares

def forStatement : Parse Phrase := do
  let start ← here
  advance
  if ← isAt "await" then
    flawIf !(← read).awaits
    advance
  expect "("
  if ← isAt ";" then return ← counting g start []
  if ← headDeclares then
    discard (eat "await")
    let keyword ← token
    advance
    let (items, complete) ← within ({ · with allowIn := false }) (declarators g keyword.text)
    if ← isAtAny ["in", "of"] then return ← overCollection g start items
    flawIf !complete
    return ← counting g start items
  let first ← token
  let lead ← within ({ · with allowIn := false }) (g .expression)
  if ← isAtAny ["in", "of"] then
    flawIf ((← isAt "of") && (first.is "let" || (first.is "async" && lead.shape == .use "async")))
    acceptTarget true lead
    overCollection g start [lead]
  else counting g start [lead]

def doWhile : Parse Phrase := do
  let start ← here
  advance
  let body ← g (.statement true)
  expect "while"
  let test ← condition g
  discard (eat ";")
  close start .other [body, test]

/-! ### Branches and jumps -/

def ifStatement : Parse Phrase := do
  let start ← here
  advance
  let test ← condition g
  let yes ← g (.statement true)
  let no ← if ← eat "else" then pure [← g (.statement true)] else pure []
  close start .branch (test :: yes :: no)

def conditioned : Parse Phrase := do
  let start ← here
  advance
  let test ← condition g
  let body ← g (.statement true)
  close start .other [test, body]

def switchCase : Parse (List Phrase) := do
  let test ← if ← eat "default" then pure [] else do
    expect "case"
    pure [← fullExpression g]
  expect ":"
  let body ← many (do
    if (← isAtAny ["case", "default", "\x7d"]) || (← isAtKind .eof) then return none
    return some (← g (.statement false)))
  return test ++ body

def switchStatement : Parse Phrase := do
  let start ← here
  advance
  let subject ← condition g
  expect "\x7b"
  let cases ← many (do
    if (← isAt "\x7d") || (← isAtKind .eof) then return none
    return some (← switchCase g))
  expect "\x7d"
  close start .other (subject :: cases.flatten)

def tryStatement : Parse Phrase := do
  let start ← here
  advance
  let body ← block g
  let caught ← if ← eat "catch" then do
      let param ← if ← eat "(" then do
          let p ← g .pattern
          let type ← annotation g
          expect ")"
          pure (p :: type)
        else pure []
      let handler ← block g
      pure (param ++ [handler])
    else pure []
  let last ← if ← eat "finally" then pure [← block g] else pure []
  flawIf (caught.isEmpty && last.isEmpty)
  close start .other (body :: caught ++ last)

def returnStatement : Parse Phrase := do
  let start ← here
  advance
  let value ← if ← atStatementEnd then pure [] else pure [← fullExpression g]
  endStatement
  flawIf !(← read).returns
  close start .returns value

def throwStatement : Parse Phrase := do
  let start ← here
  advance
  flawIf (← onNewLine)
  let value ← fullExpression g
  endStatement
  close start .other [value]

def jump : Parse Phrase := do
  let start ← here
  advance
  if !(← atStatementEnd) then
    if !(← token).isPlainName then fail
    step
  endStatement
  close start .other []

/-! ### Other statements -/

/-- A function declared by a statement. Where only a single statement may stand it is plain. -/
def functionStatement (single : Bool) : Parse Phrase := do
  let f ← function g true
  match f.shape with
  | .lambda _ isAsync generator _ => flawIf (single && (isAsync || generator))
  | _ => pure ()
  return ⟨f.span, .other, [f]⟩

def expressionStatement : Parse Phrase := do
  let start ← here
  let value ← fullExpression g
  if let .use _ := value.shape then
    if ← eat ":" then
      let body ← g (.statement true)
      return ← close start .other [body]
  endStatement
  close start .exprStatement [value]

/-- The statements that are told by their first word or sign. `none` for all others. -/
def plainStatement (single : Bool) : Parse (Option Phrase) := do
  let start ← here
  let t ← token
  match t.kind with
  | .sign =>
    if t.is "\x7b" then return some (← block g)
    if t.is ";" then
      advance
      return some (← close start .other [])
    return none
  | .word =>
    if t.is "if" then return some (← ifStatement g)
    if t.is "return" then return some (← returnStatement g)
    if t.isAny ["var", "const"] && !(← nextIs "enum") then
      flawIf (single && t.is "const")
      return some (← variableStatement g start)
    if t.is "let" && !t.escaped then
      if ← letDeclares then
        flawIf single
        return some (← variableStatement g start)
      return none
    if ← atFunction then return some (← functionStatement g single)
    if t.is "class" then
      flawIf single
      return some (← classTail g start [])
    if t.is "for" then return some (← forStatement g)
    if t.isAny ["while", "with"] then return some (← conditioned g)
    if t.is "do" then return some (← doWhile g)
    if t.isAny ["break", "continue"] then return some (← jump)
    if t.is "switch" then return some (← switchStatement g)
    if t.is "throw" then return some (← throwStatement g)
    if t.is "try" then return some (← tryStatement g)
    if t.is "debugger" then
      advance
      endStatement
      return some (← close start .other [])
    if t.isAny ["using", "await"] then
      if ← usingDeclares then return some (← resources g start)
    return none
  | _ => return none

end JsxLoops.Surface
