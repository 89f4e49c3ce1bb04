import JsxLoops.Surface.Scan

/-!
Reading phrases off tokens. A reader sees the current token and the characters after it, and may
fail, which undoes everything a caller was trying. A flaw is milder: it is remembered and spoils
the whole text, but reading goes on, so that a flaw inside something tried does not make another
reading be preferred.
-/

namespace JsxLoops.Surface

/-- Where the reader stands in the grammar. -/
structure Context where
  /-- More rounds than any loop over the source can take. -/
  bound : Nat
  /-- `in` is an operator here. -/
  allowIn : Bool
  yields : Bool
  awaits : Bool
  /-- `return` is allowed here. -/
  returns : Bool
  /-- Inside the expression of a decorator. -/
  decorating : Bool
  /-- `extends` opens a conditional type here. -/
  conditionals : Bool
  /-- Inside a declaration without code. -/
  ambient : Bool

structure State where
  token : Token
  /-- The characters after the current token. -/
  rest : List Char
  /-- Where the token before the current one ends. -/
  lastStop : Nat
  /-- Where shorthand entries with a default start that no assignment has taken as a target yet. -/
  looseDefaults : List Nat
  sound : Bool

abbrev Parse := ReaderT Context (StateT State Option)

namespace Parse

def fail {α : Type} : Parse α := fun _ _ => none

/-- Remembers that the source is not well formed. -/
def flaw : Parse Unit := modify fun s => { s with sound := false }

def flawIf (condition : Bool) : Parse Unit := if condition then flaw else pure ()

def attempt {α : Type} (p : Parse α) : Parse (Option α) := fun ctx s =>
  match p ctx s with
  | some (a, s') => some (some a, s')
  | none => some (none, s)

/-- Runs `p` for its answer only; a failure answers `fallback`. -/
def lookahead {α : Type} (p : Parse α) (fallback : α) : Parse α := fun ctx s =>
  match p ctx s with
  | some (a, _) => some (a, s)
  | none => some (fallback, s)

def within {α : Type} (change : Context → Context) (p : Parse α) : Parse α :=
  fun ctx => p (change ctx)

def token : Parse Token := return (← get).token

def here : Parse Nat := return (← get).token.span.start

def isAt (spelling : String) : Parse Bool := return (← token).is spelling

def isAtAny (spellings : List String) : Parse Bool := return (← token).isAny spellings

def isAtKind (kind : TokenKind) : Parse Bool := return (← token).kind == kind

def onNewLine : Parse Bool := return (← token).newline

def put (s : State) (next : Scanned) : State :=
  { s with
    token := next.token, rest := next.rest, lastStop := s.token.span.stop
    sound := s.sound && next.sound }

/-- Moves on, whatever the current token is used as. -/
def step : Parse Unit := modify fun s => put s (scan s.token.span.stop s.rest)

/-- Moves on past a token used for its spelling; a keyword may not be written with an escape. -/
def advance : Parse Unit := do
  let t ← token
  flawIf (t.escaped && t.isKeyword)
  step

def stepChild : Parse Unit := modify fun s => put s (scanChild s.token.span.stop s.rest)

def stepValue : Parse Unit := modify fun s => put s (scanValue s.token.span.stop s.rest)

def eat (spelling : String) : Parse Bool := do
  if ← isAt spelling then
    advance
    return true
  return false

def expect (spelling : String) : Parse Unit := do
  if ← isAt spelling then advance else fail

/-- Expects a sign after which the inside of an element, or code, goes on. -/
def expectThen (spelling : String) (inChild : Bool) : Parse Unit := do
  if ← isAt spelling then
    if inChild then stepChild else advance
  else fail

/-- The answer of `p` about what follows the current token. -/
def peek {α : Type} (p : Parse α) (fallback : α) : Parse α :=
  lookahead (do step; p) fallback

def nextIs (spelling : String) : Parse Bool := peek (isAt spelling) false

def nextToken : Parse Token := do
  let s ← get
  return (scan s.token.span.stop s.rest).token

/-- Joins a closing angle with the signs that directly follow it. -/
def joinAngles : Parse Unit := modify fun s =>
  if s.token.is ">" then
    let (t, rest) := scanAngles s.token s.rest
    { s with token := t, rest := rest }
  else s

/-- Takes the first angle of a shift or comparison sign on its own. -/
def splitAngle : Parse Unit := modify fun s =>
  let t := s.token
  if t.isAny ["<<", "<<=", "<="] then
    { s with
      token := { t with text := "<", span := ⟨t.span.start, t.span.start + 1⟩ }
      rest := t.text.toList.drop 1 ++ s.rest }
  else s

/-- A phrase from `start` to the end of the last token read. -/
def close (start : Nat) (shape : Shape) (parts : List Phrase) : Parse Phrase :=
  return ⟨⟨start, (← get).lastStop⟩, shape, parts⟩

def rounds {α : Type} (p : Parse (Option α)) : Nat → Parse (List α)
  | 0 => return []
  | fuel + 1 => do
    match ← p with
    | some a => return a :: (← rounds p fuel)
    | none => return []

def many {α : Type} (p : Parse (Option α)) : Parse (List α) := do
  rounds p (← read).bound

/-- Further items up to the sign `closing`, each after a comma, and whether a comma stands directly
before that sign. -/
def listedMore (closing : String) (item : Parse Phrase) : Nat → Parse (List Phrase × Bool)
  | 0 => return ([], false)
  | fuel + 1 => do
    if ← isAt closing then return ([], false)
    expect ","
    if ← isAt closing then return ([], true)
    let first ← item
    let (more, trailing) ← listedMore closing item fuel
    return (first :: more, trailing)

/-- Items separated by commas up to the sign `closing`, which is left standing, and whether a comma
stands directly before it. -/
def listed (closing : String) (item : Parse Phrase) : Parse (List Phrase × Bool) := do
  if (← isAt closing) || (← isAtKind .eof) then return ([], false)
  let first ← item
  let (more, trailing) ← listedMore closing item (← read).bound
  return (first :: more, trailing)

def endStatement : Parse Unit := do
  if ← eat ";" then return
  if (← isAt "\x7d") || (← isAtKind .eof) || (← onNewLine) then return
  fail

def atStatementEnd : Parse Bool := do
  return (← isAtAny [";", "\x7d"]) || (← isAtKind .eof) || (← onNewLine)

/-! ### Names -/

def propertyWord : Parse Token := do
  let t ← token
  if t.isWord then
    step
    return t
  fail

/-- The words that are operators here may not be names. -/
def checkName (t : Token) : Parse Unit := do
  let ctx ← read
  flawIf ((ctx.awaits && t.text == "await") || (ctx.yields && t.text == "yield"))

def bound : Parse Phrase := do
  let t ← token
  if !t.isBindable then fail
  checkName t
  step
  return .leaf t.span (.bind t.text)

def used : Parse Phrase := do
  let t ← token
  let ctx ← read
  if !t.isUsable ctx.yields ctx.awaits then fail
  checkName t
  step
  return .leaf t.span (.use t.text)

end Parse

/-- The recursive rules of the grammar. -/
inductive Rule where
  /-- Expressions separated by commas. -/
  | expression
  /-- One expression; `typedArrows` tells whether an arrow may state its result type here. -/
  | assignment (typedArrows : Bool)
  /-- Operands joined by operators that bind tighter than `level`. -/
  | operators (level : Nat)
  /-- An operand with the operators before it. -/
  | operand
  | type
  /-- A type without unions in front of it: operators and what they apply to. -/
  | typeOperand
  /-- A type, or a statement about a parameter. -/
  | resultType
  | pattern
  /-- An operand with its members and calls, as a decorator or a superclass is written. -/
  | access
  /-- An operand with its members, as what `new` applies to is written. -/
  | callee
  | element (inChild : Bool)
  /-- A statement; `single` where no declaration may stand. -/
  | statement (single : Bool)
deriving DecidableEq, Repr

/-- How to read each rule. The rules are given to the readers that need them, so that each of
those is an ordinary definition. -/
abbrev Grammar := Rule → Parse Phrase

end JsxLoops.Surface
