import JsxLoops.Proofs.Growth
import JsxLoops.Proofs.Openings

/-!
Reading what is written item by item. If a reader takes what is written for every item of a list,
then the loop of the grammar takes what is written for the whole list: items with commas between
them up to a closing sign.
-/

namespace JsxLoops.Tree

open Located JsxLoops.Surface Parse

/-! ### Items with commas between them -/

def Delimits (closing : String) (rest : List Lexeme) : Prop :=
  ∃ gap text xs, rest = .sign gap text :: xs ∧ (text = "," ∨ text = closing)

/-- A reader takes what is written for an item of a list. -/
structure Takes (source : List Char) (ctx : Context) (item : Parse Phrase) (closing : String)
    (w : List Char → List Lexeme) (Q : Phrase → Prop) : Prop where
  opens : ∀ gap, ∃ x xs, w gap = x :: xs ∧ x.place = .code ∧ x.kind ≠ .eof ∧
    ∀ stop, (x.token stop).is closing = false
  reads : ∀ (b : Bool) (stop : Nat) (gap : List Char) (rest : List Lexeme), Ready rest →
    Delimits closing rest → Spells source stop (w gap ++ rest) →
    ∃ p, item ctx (stand b stop (w gap ++ rest)) = some (p, stand b p.span.stop rest) ∧
      p.span.stop = stop + widthOf (w gap) ∧ Q p

section
variable {source : List Char} {ctx : Context} {item : Parse Phrase} {closing : String} {α : Type}
  {w : α → Writing} {Q : α → Phrase → Prop} {level : Nat} {b : Bool} {g : List Char}
  {rest : List Lexeme}

theorem Takes.ready {w : List Char → List Lexeme} {Q : Phrase → Prop} {stop : Nat} {gap : List Char}
    (h : Takes source ctx item closing w Q) (hs : Spells source stop (w gap ++ rest)) :
    Ready (w gap ++ rest) := by
  obtain ⟨x, xs, hx, hplace, -⟩ := h.opens gap
  exact ⟨hs.linked, by rw [hx]; exact hplace⟩

theorem Takes.ready_listed {first others : List Char} {items : List α} {stop : Nat}
    (h : ∀ a ∈ items, Takes source ctx item closing (w a · level) (Q a))
    (hs : Spells source stop
      (writeListed first others (items.map w) level ++ .sign g closing :: rest)) :
    Ready (writeListed first others (items.map w) level ++ .sign g closing :: rest) := by
  cases items with
  | nil => exact ⟨hs.linked, rfl⟩
  | cons a items =>
    rw [List.map_cons, writeListed, List.append_assoc] at hs ⊢
    exact (h a List.mem_cons_self).ready hs

theorem delimits_flatMap (items : List α) (others : List Char) :
    Delimits closing
      (items.flatMap (fun a => .sign [] "," :: w a others level) ++ .sign g closing :: rest) := by
  cases items with
  | nil => exact ⟨g, closing, rest, rfl, .inr rfl⟩
  | cons a items => exact ⟨[], ",", _, rfl, .inl rfl⟩

theorem listedMore_written (hclosing : closing ≠ ",") (others : List Char) {items : List α}
    (h : ∀ a ∈ items, Takes source ctx item closing (w a · level) (Q a)) {fuel stop : Nat}
    (hfuel : items.length < fuel)
    (hs : Spells source stop
      (items.flatMap (fun a => .sign [] "," :: w a others level) ++ .sign g closing :: rest)) :
    ∃ ps e, listedMore closing item fuel ctx (stand b stop
        (items.flatMap (fun a => .sign [] "," :: w a others level) ++ .sign g closing :: rest)) =
        some ((ps, false), stand b e (.sign g closing :: rest)) ∧
      e = stop + widthOf (items.flatMap fun a => .sign [] "," :: w a others level) ∧
      List.Forall₂ Q items ps := by
  induction items generalizing fuel stop with
  | nil =>
    obtain ⟨fuel, rfl⟩ : ∃ k, fuel = k + 1 := ⟨fuel - 1, by omega⟩
    exact ⟨[], stop, by simp [listedMore], rfl, .nil⟩
  | cons a items ih =>
    obtain ⟨fuel, rfl⟩ : ∃ k, fuel = k + 1 := ⟨fuel - 1, by omega⟩
    have ha := h a List.mem_cons_self
    rw [List.flatMap_cons, List.cons_append, List.cons_append, List.append_assoc] at hs ⊢
    have hsa := hs.tail
    have hready := ha.ready hsa
    have hmore : Ready (items.flatMap (fun a => .sign [] "," :: w a others level) ++
        .sign g closing :: rest) := by
      refine ⟨hsa.append.linked, ?_⟩
      cases items <;> rfl
    obtain ⟨p, hp, hstop, hq⟩ := ha.reads b _ others _ hmore (delimits_flatMap items others) hsa
    have hnext := hsa.append
    rw [← hstop] at hnext
    obtain ⟨ps, e, hps, he, hall⟩ :=
      ih (fun c hc => h c (List.mem_cons_of_mem a hc)) (by simpa using hfuel) hnext
    have hopen (stop : Nat) (ys : List Lexeme) :
        (stand b stop (w a others level ++ ys)).token.is closing = false := by
      obtain ⟨x, xs, hx, -, -, hno⟩ := ha.opens others
      rw [hx]
      exact hno stop
    refine ⟨p :: ps, e, ?_, ?_, .cons hq hall⟩
    · simp [listedMore, hclosing.symm, expect_stand, hready, hopen, hp, hps]
    · simp [he, hstop]
      omega

theorem length_le_widthOf (w : α → Writing) (level : Nat) (items : List α) (others : List Char) :
    items.length ≤ widthOf (items.flatMap fun a => .sign [] "," :: w a others level) := by
  induction items with
  | nil => exact Nat.zero_le _
  | cons a items ih =>
    have hcomma : (Lexeme.sign [] ",").width = 1 := rfl
    simp [hcomma]
    omega

theorem listed_written {first others : List Char} {items : List α}
    (h : ∀ a ∈ items, Takes source ctx item closing (w a · level) (Q a))
    (hbound : ctx.bound = source.length + 1) (hclosing : closing ≠ ",") {stop : Nat}
    (hs : Spells source stop
      (writeListed first others (items.map w) level ++ .sign g closing :: rest)) :
    ∃ ps e, listed closing item ctx (stand b stop
        (writeListed first others (items.map w) level ++ .sign g closing :: rest)) =
        some ((ps, false), stand b e (.sign g closing :: rest)) ∧
      e = stop + widthOf (writeListed first others (items.map w) level) ∧
      List.Forall₂ Q items ps := by
  cases items with
  | nil => exact ⟨[], stop, by simp [listed, writeListed], rfl, .nil⟩
  | cons a items =>
    have ha := h a List.mem_cons_self
    rw [List.map_cons, writeListed, List.flatMap_map, List.append_assoc] at hs ⊢
    have hready := ha.ready hs
    have hmore : Ready (items.flatMap (fun a => .sign [] "," :: w a others level) ++
        .sign g closing :: rest) := by
      refine ⟨hs.append.linked, ?_⟩
      cases items <;> rfl
    obtain ⟨p, hp, hstop, hq⟩ := ha.reads b _ first _ hmore (delimits_flatMap items others) hs
    have hnext := hs.append
    rw [← hstop] at hnext
    have hfuel : items.length < source.length + 1 := by
      have := length_le_widthOf w level items others
      have := hnext.width_le
      rw [widthOf_append] at this
      omega
    obtain ⟨ps, e, hps, he, hall⟩ := listedMore_written (b := b) hclosing others
      (fun c hc => h c (List.mem_cons_of_mem a hc)) hfuel hnext
    obtain ⟨x, xs, hx, -, hkind, hno⟩ := ha.opens first
    have hopen : (stand b stop (w a first level ++ (items.flatMap (fun a =>
        .sign [] "," :: w a others level) ++ .sign g closing :: rest))).token = x.token stop := by
      rw [hx]
      rfl
    refine ⟨p :: ps, e, ?_, ?_, .cons hq hall⟩
    · simp [listed, hopen, hno, hkind, hp, hbound, hps]
    · simp [he, hstop, Nat.add_assoc]

end

end JsxLoops.Tree
