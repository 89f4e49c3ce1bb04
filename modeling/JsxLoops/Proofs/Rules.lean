import JsxLoops.Proofs.Sequences

/-!
What it means that the reader takes what is written for a tree. There is one statement for each
rule of the grammar that a tree may be read by: as the front of a chain of members and calls, as an
operand, among operators, or as a whole expression. Each says in front of what the tree may stand.
-/

namespace JsxLoops.Surface

open Parse

/-- Whether no member, call or update goes on with what stands before the lexeme. -/
def Lexeme.stopsLinks (x : Lexeme) : Bool :=
  match x.kind with
  | .template | .templateHead => false
  | .word | .sign => !([".", "[", "!", "<", "<<", "?.", "(", "++", "--"].contains x.spelling)
  | _ => true

def StopsLinks : List Lexeme → Prop
  | [] => True
  | x :: _ => x.stopsLinks = true

def linked (g : Grammar) (start : Nat) : Parse (Phrase × Bool) := do
  let e ← primary g
  links g start true (← read).bound e false

section

variable {g : Grammar} {start stop n : Nat} {p : Phrase} {b ch : Bool} {ctx : Context}
  {rest : List Lexeme}

theorem link_of_stopsLinks (h : StopsLinks rest) :
    link g start p true ch ctx (stand b stop rest) = some (none, stand b stop rest) := by
  cases rest with
  | nil => simp [link, stand]
  | cons x rest =>
    have hx : x.stopsLinks = true := h
    obtain ⟨place, gap, kind, spelling, tail⟩ := x
    cases kind <;> simp [Lexeme.stopsLinks] at hx <;>
      simp [link, Lexeme.token, Token.is, Token.isAny, hx]

theorem link_bracket {gap : List Char} (h : ctx.decorating = false) :
    link g start p true ch ctx (stand b stop (.sign gap "[" :: rest)) =
      (indexLink g start p false ctx (stand b stop (.sign gap "[" :: rest))).map
        fun r => (some (r.1, false), r.2) := by
  simp [link, h]

theorem links_of_stopsLinks (h : StopsLinks rest) (hn : 0 < n) :
    links g start true n p ch ctx (stand b stop rest) = some ((p, ch), stand b stop rest) := by
  obtain ⟨n, rfl⟩ : ∃ k, n = k + 1 := ⟨n - 1, by omega⟩
  simp [links, link_of_stopsLinks h]

end

end JsxLoops.Surface

namespace JsxLoops.Tree

open Located JsxLoops.Surface Parse

/-- The context of an expression that is not part of the head of a loop or of a decorator. -/
structure Suits (source : List Char) (ctx : Context) : Prop where
  bound : ctx.bound = source.length + 1
  allowIn : ctx.allowIn = true
  decorating : ctx.decorating = false

/-- A phrase says what a tree is: the tree is built for it, and the reader is told by it what it
needs to know about the tree. -/
structure Says (source : List Char) (t : Located) (p : Phrase) : Prop where
  builds : Builds source p t
  coalescing : refusesCoalescing p = t.isLogical
  power : refusesPower p = t.isUnary
  quoted : p.shape = .literal true → t.isString = true
  plain : p.shape ≠ .hole ∧ p.shape ≠ .instantiated
  receiver : t.isReceiver = true → isPlainReceiver p = true

/-- A tree is written in front of `rest` at a place of the source. -/
structure Site (source : List Char) (ctx : Context) (stop : Nat) (xs rest : List Lexeme) :
    Prop where
  suits : Suits source ctx
  ready : Ready rest
  spells : Spells source stop (xs ++ rest)

theorem Site.fuel {source : List Char} {ctx : Context} {stop k : Nat} {xs rest : List Lexeme}
    (h : Site source ctx stop xs rest) (hk : k ≤ widthOf xs) :
    ctx.bound - k = (ctx.bound - (k + 1)) + 1 := by
  have hle := h.spells.width_le
  have hbound := h.suits.bound
  rw [widthOf_append] at hle
  omega

theorem Site.next {source : List Char} {ctx : Context} {start stop : Nat} {xs rest : List Lexeme}
    {p : Phrase} (h : Site source ctx stop xs rest) (hspan : p.span = ⟨start, stop + widthOf xs⟩) :
    Spells source p.span.stop rest := by
  rw [hspan]
  exact h.spells.append

/-- Signs in front of which an expression is over. -/
def closers : List String := [")", "]", "\x7d", ",", ";", ":"]

/-- An expression is over in front of the lexemes. -/
def Ends (rest : List Lexeme) : Prop :=
  rest = [] ∨ ∃ gap text xs, rest = .sign gap text :: xs ∧ text ∈ closers

def Colon (rest : List Lexeme) : Prop := ∃ gap xs, rest = .sign gap ":" :: xs

section Specs

variable (source : List Char) (style : Style) (t : Located)

/-- The reader `r` takes what is written for the tree and gives a phrase that says it. -/
def Yields (r : Parse Phrase) (ctx : Context) (b : Bool) (stop : Nat) (gap : List Char)
    (level : Nat) (rest : List Lexeme) : Prop :=
  ∃ p, r ctx (stand b stop (t.written style gap level ++ rest)) =
      some (p, stand b p.span.stop rest) ∧
    p.span = ⟨stop + gap.length, stop + widthOf (t.written style gap level)⟩ ∧ Says source t p

/-- The tree is read as the front of a chain. Reading goes on with the links that follow, after as
many links of its own as there are characters at most. -/
def ReadsLinked : Prop :=
  ∀ ⦃d : Nat⦄ ⦃ctx : Context⦄ ⦃b : Bool⦄ ⦃stop : Nat⦄ ⦃gap : List Char⦄ ⦃level : Nat⦄
    ⦃rest : List Lexeme⦄, 4 * t.height ≤ d →
    Site source ctx stop (t.written style gap level) rest →
    ∃ p k, k ≤ widthOf (t.written style gap level) ∧
      linked (grammar d) (stop + gap.length) ctx
          (stand b stop (t.written style gap level ++ rest)) =
        links (grammar d) (stop + gap.length) true (ctx.bound - k) p false ctx
          (stand b p.span.stop rest) ∧
      p.span = ⟨stop + gap.length, stop + widthOf (t.written style gap level)⟩ ∧ Says source t p

def ReadsOperand : Prop :=
  ∀ ⦃d : Nat⦄ ⦃ctx : Context⦄ ⦃b : Bool⦄ ⦃stop : Nat⦄ ⦃gap : List Char⦄ ⦃level : Nat⦄
    ⦃rest : List Lexeme⦄, 4 * t.height ≤ d →
    Site source ctx stop (t.written style gap level) rest → StopsLinks rest →
    Yields source style t (operand (grammar d)) ctx b stop gap level rest

/-- The tree is read as a whole expression. In front of a colon it must not end in what could be
the parameters of an arrow. -/
def ReadsValue : Prop :=
  ∀ ⦃d : Nat⦄ ⦃y : Bool⦄ ⦃ctx : Context⦄ ⦃b : Bool⦄ ⦃stop : Nat⦄ ⦃gap : List Char⦄
    ⦃level : Nat⦄ ⦃rest : List Lexeme⦄, 4 * t.height + 1 ≤ d →
    Site source ctx stop (t.written style gap level) rest → Ends rest →
    (t.endsInParams = true → ¬Colon rest) →
    Yields source style t (grammar d (.assignment y)) ctx b stop gap level rest

/-- An optional member is read as the front of a chain, but no tree is built for it alone. -/
def ReadsOptional : Prop :=
  ∀ ⦃k : Loc⦄ ⦃object : Located⦄ ⦃property : String⦄, t = node k (.member object property true) →
  ∀ ⦃d : Nat⦄ ⦃ctx : Context⦄ ⦃b : Bool⦄ ⦃stop : Nat⦄ ⦃gap : List Char⦄ ⦃level : Nat⦄
    ⦃rest : List Lexeme⦄, 4 * t.height ≤ d →
    Site source ctx stop (t.written style gap level) rest →
    ∃ q k, k ≤ widthOf (t.written style gap level) ∧
      linked (grammar d) (stop + gap.length) ctx
          (stand b stop (t.written style gap level ++ rest)) =
        links (grammar d) (stop + gap.length) true (ctx.bound - k)
          ⟨⟨stop + gap.length, stop + widthOf (t.written style gap level)⟩,
            .member property true, [q]⟩
          true ctx (stand b (stop + widthOf (t.written style gap level)) rest) ∧
      Builds source q object ∧ isPlainReceiver q = true

def ReadsItem : Prop :=
  ∀ ⦃d : Nat⦄ ⦃ctx : Context⦄ ⦃b : Bool⦄ ⦃stop : Nat⦄ ⦃gap : List Char⦄
    ⦃level : Nat⦄ ⦃rest : List Lexeme⦄, 4 * t.height + 1 ≤ d →
    Site source ctx stop (t.written style gap level) rest → Ends rest → ¬Colon rest →
    Yields source style t (spreadable (grammar d)) ctx b stop gap level rest

end Specs

end JsxLoops.Tree
