import JsxLoops.Text.Letter
import JsxLoops.Surface.Token

/-!
Scanning: from characters to one token. What a character sequence means depends on where it stands
(code, the inside of an element, the value of an attribute, the end of a template hole), so there
is one scanner per place and the grammar asks for the one it needs.
-/

namespace JsxLoops.Surface

open JsxLoops.Text (opensName continuesName)

/-- A token, the characters after it, and whether it was well formed. -/
structure Scanned where
  token : Token
  rest : List Char
  sound : Bool

/-! ### Gaps between tokens -/

def isLineEnd (c : Char) : Bool :=
  c == '\n' || c == '\r' || c.toNat == 0x2028 || c.toNat == 0x2029

/-- Characters that separate tokens without ending a line. -/
def isGap (c : Char) : Bool :=
  let code := c.toNat
  code == 9 || code == 11 || code == 12 || code == 32 || code == 0x85 || code == 0xA0 ||
    code == 0x1680 || (0x2000 ≤ code && code ≤ 0x200B) || code == 0x202F || code == 0x205F ||
    code == 0x3000 || code == 0xFEFF

/-- What a gap is made of where the scanner stands. -/
inductive GapMode where
  | blank
  | lineComment
  | blockComment

structure Gap where
  newline : Bool
  pos : Nat
  rest : List Char
  sound : Bool

/-- Skips blanks, line ends and comments. Only an unclosed block comment is unsound. -/
def skipGap : GapMode → Bool → Nat → List Char → Gap
  | .blank, newline, pos, '/' :: '/' :: r => skipGap .lineComment newline (pos + 2) r
  | .blank, newline, pos, '/' :: '*' :: r => skipGap .blockComment newline (pos + 2) r
  | .blank, newline, pos, c :: r =>
    if isLineEnd c then skipGap .blank true (pos + 1) r
    else if isGap c then skipGap .blank newline (pos + 1) r
    else ⟨newline, pos, c :: r, true⟩
  | .lineComment, newline, pos, c :: r =>
    if isLineEnd c then skipGap .blank true (pos + 1) r
    else skipGap .lineComment newline (pos + 1) r
  | .blockComment, newline, pos, '*' :: '/' :: r => skipGap .blank newline (pos + 2) r
  | .blockComment, newline, pos, c :: r =>
    skipGap .blockComment (newline || isLineEnd c) (pos + 1) r
  | .blockComment, newline, pos, [] => ⟨newline, pos, [], false⟩
  | _, newline, pos, [] => ⟨newline, pos, [], true⟩

/-! ### Escapes in strings and templates -/

def isHexDigit (c : Char) : Bool :=
  c.isDigit || ('a' ≤ c && c ≤ 'f') || ('A' ≤ c && c ≤ 'F')

def hexValue (c : Char) : Nat :=
  if c.isDigit then c.toNat - 48
  else if 'a' ≤ c then c.toNat - 87
  else c.toNat - 55

/-- How far an escape has been read. -/
inductive Escape where
  | none
  /-- After the backslash. -/
  | opened
  /-- Hexadecimal digits still to come. -/
  | hex (left : Nat)
  /-- After the backslash and `u`. -/
  | unicode
  /-- Inside the braces of a code point; `any` tells whether a digit was seen. -/
  | braced (value : Nat) (any : Bool)
  /-- After the backslash and `0`. -/
  | zero
  /-- After the backslash and a carriage return. -/
  | carriage

namespace Escape

/-- The state after `c`, if `c` belongs to the escape or opens one. -/
def feed : Escape → Char → Option Escape
  | .none, c => if c == '\x5c' then some .opened else Option.none
  | .opened, c =>
    some (if c == 'x' then .hex 2 else if c == 'u' then .unicode else if c == '0' then .zero
      else if c == '\r' then .carriage else .none)
  | .hex left, c =>
    if isHexDigit c then some (if left ≤ 1 then .none else .hex (left - 1)) else Option.none
  | .unicode, c =>
    if c == '\x7b' then some (.braced 0 false)
    else if isHexDigit c then some (.hex 3)
    else Option.none
  | .braced value any, c =>
    if isHexDigit c then
      let value := 16 * value + hexValue c
      if value ≤ 0x10FFFF then some (.braced value true) else Option.none
    else if any && c == '\x7d' then some .none
    else Option.none
  | .zero, _ => Option.none
  | .carriage, c => if c == '\n' then some .none else Option.none

/-- Whether the escape is broken off if its next character does not belong to it. -/
def incomplete : Escape → Bool
  | .hex _ | .unicode | .braced _ _ => true
  | _ => false

/-- Whether `c` makes an escape of octal digits, which templates refuse. -/
def octal : Escape → Char → Bool
  | .opened, c => '1' ≤ c && c ≤ '9'
  | .zero, c => c.isDigit
  | _, _ => false

end Escape

/-- The rest of a string literal: its length with the closing quote, what follows, and whether
all its escapes are complete. A line end or the end of the source leaves it unclosed. -/
def quotedTail (quote : Char) : Escape → Nat → Bool → List Char → Option (Nat × List Char × Bool)
  | _, _, _, [] => none
  | e, n, sound, c :: r =>
    match e.feed c with
    | some e' => quotedTail quote e' (n + 1) sound r
    | none =>
      let sound := sound && !e.incomplete
      if c == quote then some (n + 1, r, sound)
      else if c == '\n' || c == '\r' then none
      else if c == '\x5c' then quotedTail quote .opened (n + 1) sound r
      else quotedTail quote .none (n + 1) sound r

/-- How a stretch of template text ends. -/
structure TemplateEnd where
  size : Nat
  rest : List Char
  malformed : Bool
  /-- It ends before a hole rather than at the closing backtick. -/
  hole : Bool

def templateTail : Escape → Nat → Bool → List Char → Option TemplateEnd
  | _, _, _, [] => none
  | e, n, malformed, c :: r =>
    let malformed := malformed || e.octal c
    match e.feed c with
    | some e' => templateTail e' (n + 1) malformed r
    | none =>
      let malformed := malformed || e.incomplete
      if c == '\x60' then some ⟨n + 1, r, malformed, false⟩
      else if c == '$' then
        match r with
        | '\x7b' :: r' => some ⟨n + 2, r', malformed, true⟩
        | _ => templateTail .none (n + 1) malformed r
      else if c == '\x5c' then templateTail .opened (n + 1) malformed r
      else templateTail .none (n + 1) malformed r

/-! ### Names -/

/-- `count` hexadecimal digits, continuing the value `acc`. -/
def takeHex : Nat → Nat → List Char → Option (Nat × List Char)
  | 0, acc, r => some (acc, r)
  | count + 1, acc, c :: r => if isHexDigit c then takeHex count (16 * acc + hexValue c) r else none
  | _ + 1, _, [] => none

/-- The character written by an escape in a name, the escape's size, and what follows it. -/
def nameEscape : List Char → Option (Char × Nat × List Char)
  | '\x5c' :: 'u' :: '\x7b' :: r =>
    let digits := r.takeWhile isHexDigit
    let code := digits.foldl (fun acc c => 16 * acc + hexValue c) 0
    match r.dropWhile isHexDigit with
    | '\x7d' :: rest =>
      if digits.isEmpty || 0x10FFFF < code || !code.isValidChar then none
      else some (Char.ofNat code, digits.length + 4, rest)
    | _ => none
  | '\x5c' :: 'u' :: r =>
    match takeHex 4 0 r with
    | some (code, rest) => if code.isValidChar then some (Char.ofNat code, 6, rest) else none
    | none => none
  | _ => none

structure NameTail where
  chars : List Char
  size : Nat
  rest : List Char
  escaped : Bool
  sound : Bool

/-- The rest of a name. Each round reads a run of plain characters and at most one escape. -/
def nameTail : Nat → List Char → NameTail
  | 0, r => ⟨[], 0, r, false, true⟩
  | fuel + 1, r =>
    let run := r.takeWhile continuesName
    let rest := r.dropWhile continuesName
    match rest with
    | '\x5c' :: _ =>
      match nameEscape rest with
      | some (c, size, rest') =>
        let tail := nameTail fuel rest'
        ⟨run ++ c :: tail.chars, run.length + size + tail.size, tail.rest, true,
          tail.sound && continuesName c⟩
      | none => ⟨run, run.length + 1, rest.drop 1, true, false⟩
    | _ => ⟨run, run.length, rest, false, true⟩

/-! ### Numbers -/

/-- A stretch of a number: its size, what follows, and whether it is well formed. -/
structure Stretch where
  size : Nat
  rest : List Char
  sound : Bool

namespace Stretch

/-- Continues a stretch with what `next` reads after it. -/
def followedBy (s : Stretch) (next : List Char → Stretch) : Stretch :=
  let t := next s.rest
  ⟨s.size + t.size, t.rest, s.sound && t.sound⟩

def one (rest : List Char) : Stretch := ⟨1, rest, true⟩

end Stretch

/-- Digits, where a single separator may stand between two of them. -/
def moreDigits (isDigit : Char → Bool) : List Char → Stretch
  | [] => ⟨0, [], true⟩
  | '_' :: r =>
    match r with
    | [] => ⟨1, [], false⟩
    | d :: r' =>
      if isDigit d then
        let s := moreDigits isDigit r'
        { s with size := s.size + 2 }
      else ⟨1, r, false⟩
  | c :: r =>
    if isDigit c then
      let s := moreDigits isDigit r
      { s with size := s.size + 1 }
    else ⟨0, c :: r, true⟩

def someDigits (isDigit : Char → Bool) : List Char → Stretch
  | c :: r =>
    if isDigit c then (Stretch.one r).followedBy (moreDigits isDigit) else ⟨0, c :: r, false⟩
  | [] => ⟨0, [], false⟩

def fractionDigits : List Char → Stretch
  | c :: r => if c.isDigit then (Stretch.one r).followedBy (moreDigits Char.isDigit)
    else ⟨0, c :: r, true⟩
  | [] => ⟨0, [], true⟩

def exponentDigits : List Char → Stretch
  | '+' :: r => (Stretch.one r).followedBy (someDigits Char.isDigit)
  | '-' :: r => (Stretch.one r).followedBy (someDigits Char.isDigit)
  | r => someDigits Char.isDigit r

def optionalExponent : List Char → Stretch
  | 'e' :: r => (Stretch.one r).followedBy exponentDigits
  | 'E' :: r => (Stretch.one r).followedBy exponentDigits
  | r => ⟨0, r, true⟩

/-- No name and no digit may follow a number directly. -/
def numberEnd : List Char → Stretch
  | c :: r => if c.isDigit || opensName c then ⟨1, r, false⟩ else ⟨0, c :: r, true⟩
  | [] => ⟨0, [], true⟩

def optionalBig : List Char → Stretch
  | 'n' :: r => Stretch.one r
  | r => ⟨0, r, true⟩

def decimalEnd : List Char → Stretch
  | '.' :: r => ((Stretch.one r).followedBy fractionDigits).followedBy optionalExponent
  | 'n' :: r => Stretch.one r
  | r => optionalExponent r

def afterZero : List Char → Stretch
  | c :: r =>
    if c == 'b' || c == 'B' then
      ((Stretch.one r).followedBy (someDigits fun d => d == '0' || d == '1')).followedBy optionalBig
    else if c == 'o' || c == 'O' then
      ((Stretch.one r).followedBy (someDigits fun d => '0' ≤ d && d ≤ '7')).followedBy optionalBig
    else if c == 'x' || c == 'X' then
      ((Stretch.one r).followedBy (someDigits isHexDigit)).followedBy optionalBig
    else if c.isDigit then
      let digits := c :: r.takeWhile Char.isDigit
      let rest := r.dropWhile Char.isDigit
      let start : Stretch := ⟨digits.length, rest, true⟩
      if digits.any (fun d => d == '8' || d == '9') then
        match rest with
        | '.' :: _ => start.followedBy decimalEnd
        | 'e' :: _ => start.followedBy decimalEnd
        | _ => start
      else start
    else decimalEnd (c :: r)
  | [] => ⟨0, [], true⟩

/-- A number whose first character is `first`; a point stands first only before a digit. -/
def numberTail (first : Char) (r : List Char) : Stretch :=
  let body :=
    if first == '.' then (someDigits Char.isDigit r).followedBy optionalExponent
    else if first == '0' then afterZero r
    else (moreDigits Char.isDigit r).followedBy decimalEnd
  body.followedBy numberEnd

/-! ### Regular expressions -/

def patternTail : Bool → Bool → Nat → List Char → Option (Nat × List Char)
  | _, _, _, [] => none
  | escape, inClass, n, c :: r =>
    if isLineEnd c then none
    else if escape then patternTail false inClass (n + 1) r
    else if c == '/' && !inClass then some (n + 1, r)
    else patternTail (c == '\x5c') (c == '[' || (inClass && c != ']')) (n + 1) r

/-- Flags are known letters, each at most once. -/
def soundFlags : List Char → Bool
  | [] => true
  | c :: r => "gimsuydv".toList.contains c && !r.contains c && soundFlags r

def isFlagChar (c : Char) : Bool := c.isAlphanum || c == '_' || c == '$'

/-! ### Tokens of code -/

/-- Signs, longer ones before their beginnings. A closing angle is always one sign. -/
def signs : List (List Char) :=
  ["...", "===", "!==", "**=", "<<=", "&&=", "||=", "??=",
   "=>", "==", "!=", "<=", "<<", "&&", "||", "??", "?.", "++", "--", "+=", "-=", "*=", "/=", "%=",
   "&=", "|=", "^=", "**",
   "\x7b", "\x7d", "(", ")", "[", "]", ";", ",", "<", ">", "+", "-", "*", "/", "%", "&", "|", "^",
   "!", "~", "?", ":", "=", "@", "."].map String.toList

/-- The sign at the front. An optional link is not read before a digit. -/
def signAt (cs : List Char) : Option (List Char) :=
  match cs with
  | '?' :: '.' :: d :: _ => if d.isDigit then some ['?'] else signs.find? (·.isPrefixOf cs)
  | _ => signs.find? (·.isPrefixOf cs)

/-- The token that starts at the front of `cs`, which holds no gap there. -/
def scanAt (newline : Bool) (pos : Nat) (cs : List Char) : Scanned :=
  let token kind text size escaped : Token := ⟨kind, text, ⟨pos, pos + size⟩, newline, escaped⟩
  let bad size rest : Scanned := ⟨token .bad "" size false, rest, false⟩
  let named kind (n : NameTail) lead first : Scanned :=
    ⟨token kind (String.ofList (first ++ n.chars)) (lead + n.size) n.escaped, n.rest, n.sound⟩
  match cs with
  | [] => ⟨token .eof "" 0 false, [], true⟩
  | c :: r =>
    if opensName c then named .word (nameTail cs.length r) 1 [c]
    else if c == '\x5c' then
      match nameEscape cs with
      | some (first, size, rest) =>
        let n := nameTail cs.length rest
        named .word { n with escaped := true, sound := n.sound && opensName first } size [first]
      | none => bad 1 r
    else if c == '#' then
      match r with
      | first :: r' =>
        if opensName first then named .privateName (nameTail cs.length r') 2 [first]
        else match nameEscape r with
          | some (first, size, rest) =>
            let n := nameTail cs.length rest
            named .privateName { n with sound := n.sound && opensName first } (size + 1) [first]
          | none => bad 1 r
      | [] => bad 1 r
    else if c.isDigit || (c == '.' && (r.head?.any Char.isDigit)) then
      let s := numberTail c r
      let big := (cs.take (s.size + 1)).getLast? == some 'n'
      ⟨token .number (if big then "n" else "") (s.size + 1) false, s.rest, s.sound⟩
    else if c == '\x22' || c == '\x27' then
      match quotedTail c .none 1 true r with
      | some (size, rest, sound) => ⟨token .quoted "" size false, rest, sound⟩
      | none => bad (cs.length) []
    else if c == '\x60' then
      match templateTail .none 1 false r with
      | some e =>
        ⟨token (if e.hole then .templateHead else .template) "" e.size e.malformed, e.rest, true⟩
      | none => bad (cs.length) []
    else match signAt cs with
      | some sign => ⟨token .sign (String.ofList sign) sign.length false, cs.drop sign.length, true⟩
      | none => bad 1 r

def scan (pos : Nat) (cs : List Char) : Scanned :=
  let gap := skipGap .blank false pos cs
  let s := scanAt gap.newline gap.pos gap.rest
  { s with sound := s.sound && gap.sound }

/-! ### Tokens elsewhere -/

/-- The next token between the tags of an element: an opening angle or brace, or text up to the
next one. Text holds no closing angle or brace. -/
def scanChild (pos : Nat) (cs : List Char) : Scanned :=
  let token kind text size : Token := ⟨kind, text, ⟨pos, pos + size⟩, false, false⟩
  match cs with
  | [] => ⟨token .eof "" 0, [], true⟩
  | '<' :: r => ⟨token .sign "<" 1, r, true⟩
  | '\x7b' :: r => ⟨token .sign "\x7b" 1, r, true⟩
  | _ =>
    let isText c := c != '<' && c != '\x7b'
    let text := cs.takeWhile isText
    ⟨token .text "" text.length, cs.dropWhile isText, text.all fun c => c != '>' && c != '\x7d'⟩

/-- The next token where the value of an attribute starts: a string without escapes, or code. -/
def scanValue (pos : Nat) (cs : List Char) : Scanned :=
  let gap := skipGap .blank false pos cs
  match gap.rest with
  | c :: r =>
    if c == '\x22' || c == '\x27' then
      let body := r.takeWhile (· != c)
      let size := body.length + 2
      match r.dropWhile (· != c) with
      | _ :: rest => ⟨⟨.quoted, "", ⟨gap.pos, gap.pos + size⟩, gap.newline, false⟩, rest, gap.sound⟩
      | [] => ⟨⟨.bad, "", ⟨gap.pos, gap.pos + size⟩, gap.newline, false⟩, [], false⟩
    else scan pos cs
  | [] => scan pos cs

/-- The template text after a hole, from the closing brace that ends at `pos`. -/
def scanTemplate (pos : Nat) (cs : List Char) : Scanned :=
  match templateTail .none 0 false cs with
  | some e =>
    ⟨⟨if e.hole then .templateHead else .template, "", ⟨pos - 1, pos + e.size⟩, false, e.malformed⟩,
      e.rest, true⟩
  | none => ⟨⟨.bad, "", ⟨pos - 1, pos + cs.length⟩, false, false⟩, [], false⟩

/-- A regular expression, from the slash that starts at `start`. -/
def scanPattern (start : Nat) (newline : Bool) (cs : List Char) : Scanned :=
  match patternTail false false 1 cs with
  | some (size, rest) =>
    let flags := rest.takeWhile isFlagChar
    ⟨⟨.number, "", ⟨start, start + size + flags.length⟩, newline, false⟩,
      rest.dropWhile isFlagChar, soundFlags flags⟩
  | none => ⟨⟨.bad, "", ⟨start, start + cs.length + 1⟩, newline, false⟩, [], false⟩

/-- Joins a closing angle with the angles and equals sign that directly follow it. -/
def scanAngles (t : Token) (cs : List Char) : Token × List Char :=
  let joined sign : Token × List Char :=
    ({ t with text := sign, span := ⟨t.span.start, t.span.start + sign.length⟩ },
      cs.drop (sign.length - 1))
  match cs with
  | '>' :: '>' :: '=' :: _ => joined ">>>="
  | '>' :: '>' :: _ => joined ">>>"
  | '>' :: '=' :: _ => joined ">>="
  | '>' :: _ => joined ">>"
  | '=' :: _ => joined ">="
  | _ => (t, cs)

/-- Extends a word by the hyphens and name characters that directly follow it. -/
def extendTag (t : Token) (cs : List Char) : Token × List Char :=
  let isPart c := c == '-' || continuesName c
  let more := cs.takeWhile isPart
  let span := ⟨t.span.start, t.span.stop + more.length⟩
  ({ t with text := t.text ++ String.ofList more, span }, cs.dropWhile isPart)

end JsxLoops.Surface
