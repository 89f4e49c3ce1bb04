/-!
Places in a text. Lines and columns count from one; a line ends at a line feed and columns count
characters. Offsets count the bytes of the UTF-8 form. They have 32 bits, and so do the numbers of a
place: each is at most one more than the bytes in front of it, and no text has as many
    as 2 ^ 32 - 1.
-/

namespace JsxLoops.Text

structure Position where
  line : Nat
  column : Nat
deriving DecidableEq, Repr

namespace Position

def start : Position := ⟨1, 1⟩

def advance (p : Position) (c : Char) : Position :=
  if c = '\n' then ⟨p.line + 1, 1⟩ else ⟨p.line, p.column + 1⟩

def behind (text : List Char) : Position := text.foldl advance start

/-- Where `p`, a place in a part that begins at `base`, is in the whole. -/
def relativeTo (base p : Position) : Position :=
  let line := p.line + (base.line - 1)
  ⟨line, if line = base.line then p.column + (base.column - 1) else p.column⟩

end Position

def byteLength : List Char → Nat
  | [] => 0
  | c :: rest => c.utf8Size + byteLength rest

/-- The characters in the first `count` bytes, or none if these end inside a character. -/
def takeBytes (count : Nat) : List Char → Option (List Char)
  | [] => some []
  | c :: rest =>
    if count = 0 then some []
    else if count < c.utf8Size then none
    else (takeBytes (count - c.utf8Size) rest).map (c :: ·)

/-- The place at a byte offset. Past the end it is the end; inside a character there is none. -/
def positionAt? (source : List Char) (offset : Nat) : Option Position :=
  (takeBytes offset source).map Position.behind

end JsxLoops.Text
