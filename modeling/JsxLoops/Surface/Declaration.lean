import JsxLoops.Surface.Statement

/-!
Declarations of types, namespaces and enumerations, and the items of a module.
-/

namespace JsxLoops.Surface

open Parse

variable (g : Grammar)

/-! ### Types and enumerations -/

def enumMember : Parse Phrase := do
  let start ← here
  let (_, key) ← propertyKey g
  let value ← initializer g
  close start .other (key ++ value)

def enumDeclaration (start : Nat) : Parse Phrase := do
  expect "enum"
  let name ← bound
  expect "\x7b"
  let (members, _) ← listed "\x7d" (enumMember g)
  expect "\x7d"
  close start .other (name :: members)

def typeAlias (start : Nat) : Parse Phrase := do
  expect "type"
  let name ← bound
  let generics ← typeParameters g
  expect "="
  let type ← g .type
  endStatement
  close start .other (name :: generics ++ [type])

def interfaceDeclaration (start : Nat) : Parse Phrase := do
  expect "interface"
  let name ← bound
  let generics ← typeParameters g
  let bases ← if ← eat "extends" then do
      let first ← superclass g
      let more ← many (do
        if ← eat "," then return some (← superclass g)
        return none)
      pure (first ++ more.flatten)
    else pure []
  let members ← typeMembers g
  close start .other (name :: generics ++ bases ++ [members])

/-! ### Namespaces -/

def namespaceItems : Parse (List Phrase) := do
  expect "\x7b"
  let items ← within ({ · with allowIn := true, returns := false }) (statements g)
  expect "\x7d"
  return items

def namespaceDeclaration (start : Nat) : Parse Phrase := do
  if ← isAt "global" then
    step
    let items ← namespaceItems g
    return ← close start .other items
  advance
  if ← isAtKind .quoted then
    step
    let items ← if ← isAt "\x7b" then namespaceItems g else do
      endStatement
      pure []
    return ← close start .other items
  let first ← bound
  let more ← many (do
    if ← eat "." then return some (← bound)
    return none)
  let items ← namespaceItems g
  close start .other (first :: more ++ items)

/-! ### Declarations after modifiers -/

/-- Whether a declaration that only types know starts at the current token, modifiers skipped. -/
def declares : Nat → Parse Bool
  | 0 => return false
  | fuel + 1 => do
    let t ← token
    if !t.isWord then return false
    if t.isAny ["var", "let", "const", "function", "class", "enum"] then return true
    if t.isAny ["interface", "type"] then
      let next ← nextToken
      return next.isBindable && !next.newline
    if t.isAny ["module", "namespace"] then
      let next ← nextToken
      return !next.newline && (next.isBindable || next.kind == .quoted)
    if t.is "global" then
      let next ← nextToken
      return next.is "\x7b" || next.is "export" || next.isPlainName
    if t.is "import" then
      let next ← nextToken
      return next.kind == .quoted || next.isWord || next.isAny ["*", "\x7b"]
    if t.is "static" then
      step
      return ← declares fuel
    if t.isAny ["abstract", "accessor", "async", "declare", "private", "protected", "public",
        "readonly"] then
      step
      if ← onNewLine then return false
      return ← declares fuel
    return false

def importAlias (start : Nat) : Parse Phrase := do
  let name ← bound
  expect "="
  let value ← if (← isAt "require") && (← nextIs "(") then do
      step
      step
      if !(← isAtKind .quoted) then fail
      step
      expect ")"
      pure []
    else pure [← typeName]
  endStatement
  close start .other (name :: value)

def declaration (start : Nat) (decorations : List Phrase) : Parse Phrase := do
  let mods ← modifiers
  let t ← token
  within (fun ctx => { ctx with ambient := ctx.ambient || mods.contains "declare" }) do
    if t.is "enum" then enumDeclaration g start
    else if t.is "type" then typeAlias g start
    else if t.is "interface" then interfaceDeclaration g start
    else if t.isAny ["namespace", "module", "global"] then namespaceDeclaration g start
    else if t.is "class" then classTail g start decorations
    else if t.isAny ["var", "let", "const"] then variableStatement g start
    else if t.is "function" then
      let f ← function g true
      return ⟨⟨start, f.span.stop⟩, .other, [f]⟩
    else if t.is "import" then
      advance
      importAlias start
    else fail

/-! ### Imports -/

def exportedName : Parse Token := do
  let t ← token
  if t.isWord || t.kind == .quoted then
    step
    return t
  fail

/-- The name of the module that an import or export refers to, with its attributes. -/
def moduleSource : Parse Unit := do
  if !(← isAtKind .quoted) then fail
  step
  if (← isAt "with") || ((← isAt "assert") && !(← onNewLine)) then
    advance
    discard (objectLiteral g)

/-- An item of a braced import. A leading `type` is a modifier unless it is the name itself. -/
def importItem : Parse Phrase := do
  let t ← token
  let next ← nextToken
  if t.is "type" && (next.isWord || next.kind == .quoted) && !next.is "as" then advance
  let name ← exportedName
  if ← eat "as" then bound
  else
    if !name.isBindable then fail
    return .leaf name.span (.bind name.text)

def importClause : Parse (List Phrase) := do
  if ← eat "*" then
    expect "as"
    return [← bound]
  expect "\x7b"
  let (items, _) ← listed "\x7d" importItem
  expect "\x7d"
  return items

def importDeclaration : Parse Phrase := do
  let start ← here
  advance
  if ← isAtKind .quoted then
    moduleSource g
    endStatement
    return ← close start .other []
  let t ← token
  if t.is "type" then
    let next ← nextToken
    if next.isAny ["\x7b", "*"] || (next.isBindable && !next.is "from") then advance
    else if next.is "from" then
      if ← peek (nextIs "from") false then advance
  else if t.isAny ["defer", "source"] then
    let next ← nextToken
    if next.is "*" || (next.isBindable && !next.is "from") then advance
  if (← token).isBindable then
    if ← nextIs "=" then return ← importAlias start
  let default? ← if (← token).isBindable then pure [← bound] else pure []
  let named ← if default?.isEmpty then importClause
    else if ← eat "," then importClause
    else pure []
  expect "from"
  moduleSource g
  endStatement
  close start .other (default? ++ named)

/-! ### Exports -/

def exportItem : Parse Phrase := do
  let start ← here
  let t ← token
  let next ← nextToken
  if t.is "type" && (next.isWord || next.kind == .quoted) && !next.is "as" then advance
  let name ← exportedName
  if ← eat "as" then discard exportedName
  let own : Shape := if name.isBindable then .use name.text else .literal true
  close start .other [.leaf name.span own]

def exportList (start : Nat) : Parse Phrase := do
  expect "\x7b"
  let (items, _) ← listed "\x7d" exportItem
  expect "\x7d"
  if ← eat "from" then
    moduleSource g
    endStatement
    return ← close start .other []
  flawIf (items.any fun item => item.parts.any fun name => name.shape == .literal true)
  endStatement
  close start .other items

def exportDefault (start : Nat) (decorations : List Phrase) : Parse Phrase := do
  expect "default"
  let t ← token
  let next ← nextToken
  let value ←
    if ← atFunction then function g false
    else if t.isAny ["class", "@"] || (t.is "abstract" && next.is "class") then do
      let own ← decorators g
      discard (eat "abstract")
      classTail g (← here) (decorations ++ own)
    else if t.is "interface" && next.isBindable && !next.newline then
      interfaceDeclaration g (← here)
    else do
      let e ← oneExpression g
      endStatement
      pure e
  close start .other [value]

def exportDeclaration (decorations : List Phrase) : Parse Phrase := do
  let start ← here
  advance
  let t ← token
  let next ← nextToken
  if t.is "=" then
    advance
    let value ← oneExpression g
    endStatement
    close start .other [value]
  else if t.is "as" && next.is "namespace" then
    advance
    advance
    discard bound
    endStatement
    close start .other []
  else if t.is "import" && !next.isAny ["(", "."] then
    advance
    if (← isAt "type") && (← nextToken).isBindable then advance
    importAlias start
  else if t.is "default" then exportDefault g start decorations
  else if t.is "\x7b" then exportList g start
  else if t.is "type" && next.is "\x7b" then
    advance
    exportList g start
  else if t.is "*" || (t.is "type" && next.is "*") then
    discard (eat "type")
    advance
    if ← eat "as" then discard exportedName
    expect "from"
    moduleSource g
    endStatement
    close start .other []
  else
    let own ← decorators g
    if ← atFunction then
      let f ← function g true
      close start .other [f]
    else
      let d ← declaration g (← here) (decorations ++ own)
      close start .other [d]

/-! ### Statements -/

/-- Decorators and the class, or the export of a class, that they stand before. -/
def decorated : Parse Phrase := do
  let start ← here
  let decorations ← decorators g
  if ← isAt "export" then exportDeclaration g decorations
  else declaration g start decorations

def statement (single : Bool) : Parse Phrase := do
  if let some s ← plainStatement g single then return s
  let t ← token
  if t.is "@" then return ← decorated g
  if t.is "export" then return ← exportDeclaration g []
  if t.is "import" && !(← nextToken).isAny ["(", "."] then return ← importDeclaration g
  if t.isWord then
    if ← lookahead (do declares (← read).bound) false then
      return ← declaration g (← here) []
  expressionStatement g

end JsxLoops.Surface
