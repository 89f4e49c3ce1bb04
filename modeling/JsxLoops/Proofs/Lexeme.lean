import JsxLoops.Surface.Grammar

/-!
Texts as lists of lexemes. A lexeme is a token as it is written, with the blanks in front of it. A
list of lexemes is linked if every one of them is scanned as the token that it stands for, whatever
of the list follows it. On a linked list the reader goes from lexeme to lexeme, so that what it
does can be followed without looking at characters.
-/

namespace JsxLoops.Surface

/-- Where a token stands, which decides how it is scanned. -/
inductive Place where
  | code
  /-- Between the tags of an element. -/
  | child
  /-- Where the value of an attribute starts. -/
  | value
deriving DecidableEq

def Place.scan : Place → Nat → List Char → Scanned
  | .code => Surface.scan
  | .child => scanChild
  | .value => scanValue

structure Lexeme where
  place : Place
  /-- The blanks in front of the token. -/
  gap : List Char
  kind : TokenKind
  spelling : String
  /-- Characters right after the token that belong to it only where the grammar asks for them: the
  hyphens of a tag, or what makes a longer sign of a closing angle. -/
  tail : List Char

namespace Lexeme

def word (gap : List Char) (text : String) : Lexeme := ⟨.code, gap, .word, text, []⟩

def sign (gap : List Char) (text : String) : Lexeme := ⟨.code, gap, .sign, text, []⟩

def childSign (text : String) : Lexeme := ⟨.child, [], .sign, text, []⟩

def chars (x : Lexeme) : List Char := x.gap ++ (x.spelling.toList ++ x.tail)

def width (x : Lexeme) : Nat := x.gap.length + (x.spelling.length + x.tail.length)

@[simp] theorem length_chars (x : Lexeme) : x.chars.length = x.width := by
  simp [chars, width, String.length_toList]

/-- The token of a lexeme that starts, with its gap, at `stop`. -/
def token (x : Lexeme) (stop : Nat) : Token where
  kind := x.kind
  text := match x.kind with
    | .word | .sign => x.spelling
    | .number => if x.spelling.toList.getLast? == some 'n' then "n" else ""
    | _ => ""
  span := ⟨stop + x.gap.length, stop + x.gap.length + x.spelling.length⟩
  newline := x.gap.any isLineEnd
  escaped := false

section

variable (x : Lexeme) (stop : Nat) (gap : List Char) (text w : String)

@[simp] theorem token_kind : (x.token stop).kind = x.kind := rfl

@[simp] theorem token_start : (x.token stop).span.start = stop + x.gap.length := rfl

@[simp] theorem token_newline : (x.token stop).newline = x.gap.any isLineEnd := rfl

@[simp] theorem token_escaped : (x.token stop).escaped = false := rfl

theorem token_span {x : Lexeme} (h : x.tail = []) :
    (x.token stop).span = ⟨stop + x.gap.length, stop + x.width⟩ := by
  simp [token, width, h, Nat.add_assoc]

@[simp] theorem kind_word : (word gap text).kind = .word := rfl

@[simp] theorem gap_word : (word gap text).gap = gap := rfl

@[simp] theorem tail_word : (word gap text).tail = [] := rfl

@[simp] theorem place_word : (word gap text).place = .code := rfl

@[simp] theorem text_word : ((word gap text).token stop).text = text := rfl

@[simp] theorem is_word : ((word gap text).token stop).is w = (text == w) := rfl

@[simp] theorem isWord_word : ((word gap text).token stop).isWord = true := rfl

@[simp] theorem span_word : ((word gap text).token stop).span =
    ⟨stop + gap.length, stop + (word gap text).width⟩ := token_span stop rfl

@[simp] theorem kind_sign : (sign gap text).kind = .sign := rfl

@[simp] theorem gap_sign : (sign gap text).gap = gap := rfl

@[simp] theorem tail_sign : (sign gap text).tail = [] := rfl

@[simp] theorem place_sign : (sign gap text).place = .code := rfl

@[simp] theorem text_sign : ((sign gap text).token stop).text = text := rfl

@[simp] theorem is_sign : ((sign gap text).token stop).is w = (text == w) := rfl

@[simp] theorem isWord_sign : ((sign gap text).token stop).isWord = false := rfl

@[simp] theorem span_sign : ((sign gap text).token stop).span =
    ⟨stop + gap.length, stop + (sign gap text).width⟩ := token_span stop rfl

end

/-- The lexeme is scanned as its token where `rest` follows it. -/
def Leads (x : Lexeme) (rest : List Char) : Prop :=
  ∀ stop, x.place.scan stop (x.chars ++ rest) = ⟨x.token stop, x.tail ++ rest, true⟩

end Lexeme

def charsOf (xs : List Lexeme) : List Char := xs.flatMap Lexeme.chars

def widthOf (xs : List Lexeme) : Nat := xs.foldr (fun x n => x.width + n) 0

@[simp] theorem charsOf_nil : charsOf [] = [] := rfl

@[simp] theorem charsOf_cons (x : Lexeme) (xs : List Lexeme) :
    charsOf (x :: xs) = x.chars ++ charsOf xs := rfl

@[simp] theorem charsOf_append (xs ys : List Lexeme) :
    charsOf (xs ++ ys) = charsOf xs ++ charsOf ys := List.flatMap_append

@[simp] theorem widthOf_nil : widthOf [] = 0 := rfl

@[simp] theorem widthOf_cons (x : Lexeme) (xs : List Lexeme) :
    widthOf (x :: xs) = x.width + widthOf xs := rfl

@[simp] theorem widthOf_append (xs ys : List Lexeme) :
    widthOf (xs ++ ys) = widthOf xs + widthOf ys := by
  induction xs with
  | nil => simp
  | cons x xs ih => simp [ih, Nat.add_assoc]

@[simp] theorem length_charsOf (xs : List Lexeme) : (charsOf xs).length = widthOf xs := by
  induction xs with
  | nil => rfl
  | cons x xs ih => simp [ih]

def Linked : List Lexeme → Prop
  | [] => True
  | x :: xs => x.Leads (charsOf xs) ∧ Linked xs

theorem Linked.of_append {xs ys : List Lexeme} (h : Linked (xs ++ ys)) : Linked ys := by
  induction xs with
  | nil => exact h
  | cons x xs ih => exact ih h.2

def Starts (place : Place) : List Lexeme → Prop
  | [] => True
  | x :: _ => x.place = place

/-- The state of the reader in front of a list of lexemes, after a token that ends at `stop`. -/
def stand (sound : Bool) (stop : Nat) (xs : List Lexeme) : State where
  token := match xs with
    | [] => ⟨.eof, "", ⟨stop, stop⟩, false, false⟩
    | x :: _ => x.token stop
  rest := match xs with
    | [] => []
    | x :: xs => x.tail ++ charsOf xs
  lastStop := stop
  looseDefaults := []
  sound := sound

section

variable {b : Bool} {stop : Nat} {x : Lexeme} {xs : List Lexeme}

@[simp] theorem stand_token_cons : (stand b stop (x :: xs)).token = x.token stop := rfl

@[simp] theorem stand_rest_cons : (stand b stop (x :: xs)).rest = x.tail ++ charsOf xs := rfl

@[simp] theorem stand_lastStop : (stand b stop xs).lastStop = stop := rfl

theorem scan_charsOf {place : Place} (h : Linked xs) (hplace : Starts place xs) :
    place.scan stop (charsOf xs) = ⟨(stand b stop xs).token, (stand b stop xs).rest, true⟩ := by
  cases xs with
  | nil => cases place <;> rfl
  | cons x xs =>
    rw [← hplace]
    exact h.1 stop

end

structure Ready (xs : List Lexeme) : Prop where
  linked : Linked xs
  starts : Starts .code xs

structure Spells (source : List Char) (stop : Nat) (xs : List Lexeme) : Prop where
  drop : source.drop stop = charsOf xs
  linked : Linked xs

namespace Spells

variable {source : List Char} {stop : Nat} {x : Lexeme} {xs ys : List Lexeme}

theorem append (h : Spells source stop (xs ++ ys)) : Spells source (stop + widthOf xs) ys where
  drop := by
    rw [← List.drop_drop, h.drop, charsOf_append, ← length_charsOf, List.drop_left]
  linked := h.linked.of_append

theorem tail (h : Spells source stop (x :: xs)) : Spells source (stop + x.width) xs :=
  (show Spells source stop ([x] ++ xs) from h).append

theorem width_le (h : Spells source stop xs) : widthOf xs ≤ source.length := by
  rw [← length_charsOf, ← h.drop, List.length_drop]
  omega

theorem slice (h : Spells source stop (xs ++ ys)) {k : Nat} (hk : k ≤ widthOf xs) :
    Span.slice source ⟨stop + k, stop + widthOf xs⟩ = (charsOf xs).drop k := by
  have hlength : ((charsOf xs).drop k).length = stop + widthOf xs - (stop + k) := by
    rw [List.length_drop, length_charsOf]
    omega
  rw [Span.slice, ← List.drop_drop, h.drop, charsOf_append,
    List.drop_append_of_le_length (by simpa using hk), ← hlength, List.take_left]

end Spells

/-! ### Running readers -/

namespace Parse

section

variable {α β : Type} (ctx : Context) (s : State)

@[simp] theorem bind_run (p : Parse α) (f : α → Parse β) :
    (p >>= f) ctx s = (p ctx s).bind fun r => f r.1 ctx r.2 := rfl

@[simp] theorem pure_run (a : α) : (pure a : Parse α) ctx s = some (a, s) := rfl

@[simp] theorem map_run (f : α → β) (p : Parse α) :
    (f <$> p) ctx s = (p ctx s).map fun r => (f r.1, r.2) := by
  change (p ctx s).bind _ = _
  cases p ctx s <;> rfl

@[simp] theorem discard_run (p : Parse α) :
    (discard p : Parse PUnit) ctx s = (p ctx s).map fun r => (⟨⟩, r.2) := by
  change (p ctx s).bind _ = _
  cases p ctx s <;> rfl

@[simp] theorem fail_run : (fail : Parse α) ctx s = none := rfl

@[simp] theorem within_run (change : Context → Context) (p : Parse α) :
    within change p ctx s = p (change ctx) s := rfl

@[simp] theorem read_run : (read : Parse Context) ctx s = some (ctx, s) := rfl

@[simp] theorem get_run : (get : Parse State) ctx s = some (s, s) := rfl

@[simp] theorem modify_run (f : State → State) :
    (modify f : Parse Unit) ctx s = some ((), f s) := rfl

@[simp] theorem token_run : token ctx s = some (s.token, s) := rfl

@[simp] theorem here_run : here ctx s = some (s.token.span.start, s) := rfl

@[simp] theorem isAt_run (w : String) : isAt w ctx s = some (s.token.is w, s) := rfl

@[simp] theorem isAtAny_run (ws : List String) :
    isAtAny ws ctx s = some (s.token.isAny ws, s) := rfl

@[simp] theorem isAtKind_run (k : TokenKind) :
    isAtKind k ctx s = some (s.token.kind == k, s) := rfl

@[simp] theorem onNewLine_run : onNewLine ctx s = some (s.token.newline, s) := rfl

@[simp] theorem close_run (start : Nat) (shape : Shape) (parts : List Phrase) :
    close start shape parts ctx s = some (⟨⟨start, s.lastStop⟩, shape, parts⟩, s) := rfl

@[simp] theorem flawIf_false_run : flawIf false ctx s = some ((), s) := rfl

theorem eat_of_false {w : String} (h : s.token.is w = false) : eat w ctx s = some (false, s) := by
  simp [eat, h]

theorem expect_of_false {w : String} (h : s.token.is w = false) : expect w ctx s = none := by
  simp [expect, h]

end

section

variable {ctx : Context} {b : Bool} {stop : Nat} {x : Lexeme} {xs : List Lexeme} {w : String}

theorem step_stand (h : x.tail = [] ∧ Ready xs) :
    step ctx (stand b stop (x :: xs)) = some ((), stand b (stop + x.width) xs) := by
  have hscan : scan (stop + x.width) (charsOf xs) = _ := scan_charsOf (b := b) h.2.linked h.2.starts
  simp [step, put, Lexeme.token_span stop h.1, h.1, hscan, stand]

theorem advance_stand (h : x.tail = [] ∧ Ready xs) :
    advance ctx (stand b stop (x :: xs)) = some ((), stand b (stop + x.width) xs) := by
  simp [advance, step_stand h]

theorem eat_stand (h : x.tail = [] ∧ Ready xs ∧ (x.token stop).is w = true) :
    eat w ctx (stand b stop (x :: xs)) = some (true, stand b (stop + x.width) xs) := by
  simp [eat, h.2.2, advance_stand ⟨h.1, h.2.1⟩]

theorem expect_stand (h : x.tail = [] ∧ Ready xs ∧ (x.token stop).is w = true) :
    expect w ctx (stand b stop (x :: xs)) = some ((), stand b (stop + x.width) xs) := by
  simp [expect, h.2.2, advance_stand ⟨h.1, h.2.1⟩]

theorem nextToken_stand (h : x.tail = [] ∧ Ready xs) :
    nextToken ctx (stand b stop (x :: xs)) =
      some ((stand b (stop + x.width) xs).token, stand b stop (x :: xs)) := by
  have hscan : scan (stop + x.width) (charsOf xs) = _ := scan_charsOf (b := b) h.2.linked h.2.starts
  simp [nextToken, Lexeme.token_span stop h.1, h.1, hscan]

theorem nextIs_stand (h : x.tail = [] ∧ Ready xs) :
    nextIs w ctx (stand b stop (x :: xs)) =
      some ((stand b (stop + x.width) xs).token.is w, stand b stop (x :: xs)) := by
  simp [nextIs, peek, lookahead, step_stand h]

end

end Parse

end JsxLoops.Surface
