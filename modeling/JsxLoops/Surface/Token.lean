import JsxLoops.Surface.Phrase

/-!
Tokens and the classes of words. A word token is any name or keyword; which words are reserved, and
which may stand as a name, is decided here.
-/

namespace JsxLoops.Surface

inductive TokenKind where
  | eof
  | word
  | privateName
  | quoted
  | number
  /-- A template without holes. -/
  | template
  /-- A template up to its first hole. -/
  | templateHead
  | sign
  | text
  /-- Characters that begin no token. -/
  | bad
deriving DecidableEq, Repr

structure Token where
  kind : TokenKind
  /-- The decoded word, the spelling of a sign, or the suffix of a number. -/
  text : String
  span : Span
  /-- A line break stands between this token and the one before it. -/
  newline : Bool
  /-- A word written with an escape, or a template with a malformed escape. -/
  escaped : Bool
deriving Repr

namespace Token

/-- Whether the token is the given sign or word. -/
def is (t : Token) (spelling : String) : Bool :=
  match t.kind with
  | .word | .sign => t.text == spelling
  | _ => false

def isAny (t : Token) (spellings : List String) : Bool := spellings.any t.is

def isWord (t : Token) : Bool := t.kind == .word

end Token

def reservedWords : List String :=
  ["await", "break", "case", "catch", "class", "const", "continue", "debugger", "default", "delete",
   "do", "else", "enum", "export", "extends", "false", "finally", "for", "function", "if", "import",
   "in", "instanceof", "new", "null", "return", "super", "switch", "this", "throw", "true", "try",
   "typeof", "var", "void", "while", "with", "yield"]

/-- Words with a meaning in some places that may be names in others. -/
def contextualWords : List String :=
  ["abstract", "accessor", "any", "as", "assert", "asserts", "async", "bigint", "boolean",
   "constructor", "declare", "defer", "from", "get", "global", "implements", "infer", "interface",
   "intrinsic", "is", "keyof", "let", "meta", "module", "namespace", "never", "number", "object",
   "of", "out", "override", "package", "private", "protected", "public", "readonly", "require",
   "satisfies", "set", "source", "static", "string", "symbol", "target", "type", "undefined",
   "unique", "unknown", "using"]

/-- Words that may stand before a declaration, a member or a parameter. -/
def modifierWords : List String :=
  ["abstract", "accessor", "async", "const", "declare", "default", "export", "in", "out",
   "override", "private", "protected", "public", "readonly", "static"]

namespace Token

def isReserved (t : Token) : Bool := t.isWord && reservedWords.contains t.text

def isKeyword (t : Token) : Bool :=
  t.isWord && (reservedWords.contains t.text || contextualWords.contains t.text)

def isPlainName (t : Token) : Bool := t.isWord && !t.isReserved

def isBindable (t : Token) : Bool := t.isPlainName || t.is "yield" || t.is "await"

/-- A word that may be used as a value where `yields` and `awaits` tell which operators exist. -/
def isUsable (t : Token) (yields awaits : Bool) : Bool :=
  t.isPlainName || (!yields && t.is "yield") || (!awaits && t.is "await")

def isModifier (t : Token) : Bool := t.isWord && modifierWords.contains t.text

def isPropertyName (t : Token) : Bool :=
  match t.kind with
  | .word | .quoted | .number | .privateName => true
  | _ => false

def followsModifier (t : Token) : Bool :=
  t.isAny ["[", "\x7b", "*", "..."] || t.isPropertyName

end Token

end JsxLoops.Surface
