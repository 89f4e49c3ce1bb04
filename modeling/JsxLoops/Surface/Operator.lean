import JsxLoops.Surface.Operand

/-!
Operators: unary and binary ones by level of binding, conditionals, assignments and arrows.
-/

namespace JsxLoops.Surface

open Parse

variable (g : Grammar)

/-! ### Targets of assignments -/

/-- Checks that `p` can be assigned to; `patterns` tells whether an array or object literal can.
The defaults of its shorthand entries are then no longer loose. -/
def acceptTo : Nat → Bool → Phrase → Parse Unit
  | 0, _, _ => fail
  | fuel + 1, patterns, p => do
    let item (q : Phrase) : Parse Unit :=
      match q.shape with
      | .assign op => flawIf (op != "=")
      | _ => acceptTo fuel true q
    let last := p.parts.length
    let spread (position : Nat) (trailing : Bool) (q : Phrase) : Parse Unit := do
      if position + 1 != last then fail
      flawIf trailing
      match q.parts with
      | [inner] => acceptTo fuel true inner
      | _ => fail
    match p.shape, p.parts with
    | .use _, _ | .member _ _, _ | .privateMember, _ | .index _, _ => return
    | .paren, [inner] => acceptTo fuel false inner
    | .asserted, inner :: _ => acceptTo fuel false inner
    | .array trailing, parts =>
      if !patterns then fail
      parts.zipIdx.forM fun (q, i) =>
        match q.shape with
        | .hole => pure ()
        | .spread => spread i trailing q
        | _ => item q
    | .object trailing, parts =>
      if !patterns then fail
      parts.zipIdx.forM fun (q, i) =>
        match q.shape, q.parts.getLast? with
        | .spread, _ => spread i trailing q
        | .defaulted, _ =>
          modify fun s => { s with looseDefaults := s.looseDefaults.erase q.span.start }
        | .entry _ _, some value => item value
        | _, _ => fail
    | _, _ => fail

/-- Checks that `p` can be assigned to, by an operator that takes patterns or one that does not. -/
def acceptTarget (patterns : Bool) (p : Phrase) : Parse Unit := do
  acceptTo ((← read).bound + 1) patterns p

/-! ### Unary operators -/

def unaryOperators : List String := ["+", "-", "~", "!", "typeof", "void", "delete"]

/-- Whether `await` is an operator here. Outside asynchronous code it is read as one only to be
refused. -/
def atAwait : Parse Bool := do
  if !(← isAt "await") then return false
  if (← read).awaits then return true
  let next ← nextToken
  return !next.newline && (next.isWord || next.kind == .number || next.kind == .quoted)

def update : Parse Phrase := do
  let start ← here
  if ← isAtAny ["++", "--"] then
    advance
    let target ← g .operand
    acceptTarget false target
    return ← close start .other [target]
  if ← isAt "<" then
    let next ← nextToken
    if next.isWord || next.is ">" then return ← g (.element false)
  let target ← access g
  if (← isAtAny ["++", "--"]) && !(← onNewLine) then
    acceptTarget false target
    advance
    return ← close start .other [target]
  return target

def operand : Parse Phrase := do
  let start ← here
  let t ← token
  if t.isAny unaryOperators then
    advance
    let argument ← g .operand
    close start (.unary t.text) [argument]
  else if ← atAwait then
    flawIf !(← read).awaits
    advance
    let argument ← within ({ · with awaits := true }) (g .operand)
    close start .awaits [argument]
  else update g

/-! ### Binary operators -/

/-- How tightly an operator binds; 0 for what is none. -/
def bindingLevel (t : Token) : Nat :=
  if t.is "??" then 1
  else if t.is "||" then 2
  else if t.is "&&" then 3
  else if t.is "|" then 4
  else if t.is "^" then 5
  else if t.is "&" then 6
  else if t.isAny ["==", "!=", "===", "!=="] then 7
  else if t.isAny ["<", ">", "<=", ">=", "in", "instanceof", "as", "satisfies"] then 8
  else if t.isAny ["<<", ">>", ">>>"] then 9
  else if t.isAny ["+", "-"] then 10
  else if t.isAny ["*", "/", "%"] then 11
  else if t.is "**" then 12
  else 0

/-- A logical phrase that may not be mixed with `??` without parentheses. -/
def refusesCoalescing (p : Phrase) : Bool := p.shape == .logical "&&" || p.shape == .logical "||"

/-- A phrase to which `**` may not apply without parentheses. -/
def refusesPower (p : Phrase) : Bool :=
  match p.shape with
  | .unary _ | .awaits => true
  | _ => false

def joined (start : Nat) (op : String) (left right : Phrase) : Parse Phrase := do
  if op == "??" then
    flawIf (refusesCoalescing left || refusesCoalescing right)
    close start (.logical op) [left, right]
  else if op == "&&" || op == "||" then close start (.logical op) [left, right]
  else
    flawIf (op == "**" && refusesPower left)
    close start (.binary op) [left, right]

/-- Operators that bind tighter than `level`, applied to `left`. Only `**` groups to the right. -/
def operatorsAfter (start level : Nat) : Nat → Phrase → Parse Phrase
  | 0, left => return left
  | fuel + 1, left => do
    joinAngles
    let t ← token
    let own := bindingLevel t
    if own == 0 || own < level || (own == level && own != 12) then return left
    if t.is "in" && !(← read).allowIn then return left
    if t.isAny ["as", "satisfies"] then
      if t.newline then return left
      advance
      let type ← g .type
      operatorsAfter start level fuel (← close start .asserted [left, type])
    else
      advance
      let right ← g (.operators own)
      operatorsAfter start level fuel (← joined start t.text left right)

def privateMembership : Parse Phrase := do
  let start ← here
  step
  expect "in"
  let right ← g (.operators 8)
  close start .other [right]

def operators (level : Nat) : Parse Phrase := do
  let start ← here
  let left ← if (← isAtKind .privateName) && (← read).allowIn then privateMembership g
    else operand g
  operatorsAfter g start level (← read).bound left

/-! ### Assignments, conditionals, sequences -/

def assignmentOperators : List String :=
  ["=", "+=", "-=", "*=", "/=", "%=", "**=", "<<=", ">>=", ">>>=", "&=", "|=", "^=", "&&=", "||=",
   "??="]

def yieldExpression : Parse Phrase := do
  let start ← here
  advance
  let t ← token
  if t.newline || t.kind == .eof || t.isAny [")", "]", "\x7d", ",", ";", ":", "in"] then
    return ← close start .other []
  discard (eat "*")
  let value ← g (.assignment true)
  close start .other [value]

def assignment (typedArrows : Bool) : Parse Phrase := do
  if (← read).yields && (← isAt "yield") then return ← yieldExpression g
  if let some arrow ← parenthesizedArrow g typedArrows then return arrow
  if let some arrow ← asyncNameArrow g typedArrows then return arrow
  let start ← here
  let left ← operators g 0
  let t ← token
  if t.is "=>" then
    if let .use name := left.shape then
      return ← nameArrow g start false left.span name typedArrows
  if t.isAny assignmentOperators then
    acceptTarget (t.is "=") left
    advance
    let value ← g (.assignment typedArrows)
    return ← close start (.assign t.text) [left, value]
  if t.is "?" then
    advance
    let yes ← within ({ · with allowIn := true }) (g (.assignment false))
    expect ":"
    let no ← g (.assignment typedArrows)
    return ← close start .conditional [left, yes, no]
  return left

def expression : Parse Phrase :=
  within ({ · with decorating := false }) do
    let start ← here
    let first ← g (.assignment true)
    let more ← many (do
      if ← eat "," then return some (← g (.assignment true))
      return none)
    if more.isEmpty then return first
    close start .other (first :: more)

end JsxLoops.Surface
