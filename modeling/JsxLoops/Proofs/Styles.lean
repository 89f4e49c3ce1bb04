import JsxLoops.Proofs.Erasure
import Mathlib

/-!
The two styles side by side. What is printed for a tree is laid out over lines in one style and runs
on in the other. Both texts are put together from the same pieces, and only a piece that ends a line
is a different text in each. From this follows what the texts have in common, where the short one
can end a line, and how every brace of the long one is closed.
-/

namespace JsxLoops.Tree

def Binder.strings : Binder → List String
  | .plain name => [name]
  | .annotated name annotation => [name, annotation]
  | .verbatim code => [code.text]

def Entry.strings {α : Type} : Entry α → List String
  | .pair (.name s) _ _ | .pair (.literal s) _ _ => [s]
  | _ => []

def Attribute.strings {α : Type} : Attribute α → List String
  | .named name (.literal s) | .named name (.mustache s) => [name, s]
  | .named name _ => [name]
  | .spread _ => []

namespace Node

variable {α β : Type}

/-- The strings that a node holds itself. -/
def strings : Node α → List String
  | .name s | .literal s | .text s | .mustache s | .member _ s _ | .binary s _ _ | .logical s _ _
  | .unary s _ => [s]
  | .verbatim code => [code.text]
  | .lambda f =>
    f.params.flatMap Binder.strings ++
      match f.form with
      | .function (some s) => [s]
      | _ => []
  | .object entries => entries.flatMap Entry.strings
  | .element e => e.tag :: e.attributes.flatMap Attribute.strings
  | .declaration keyword declarators => keyword :: declarators.flatMap (·.binder.strings)
  | _ => []

/-- An object or a block with something in it, be it the body of a function. -/
def isSpread : Node α → Bool
  | .object entries => !entries.isEmpty
  | .block statements | .lambda ⟨_, _, _, _, .block statements⟩ => !statements.isEmpty
  | _ => false

theorem strings_map (f : α → β) (n : Node α) : (n.map f).strings = n.strings := by
  cases n with
  | object entries =>
    simp only [map, strings, List.flatMap_map]
    congr 1
    funext e
    rcases e with ⟨_ | _ | _, _, _⟩ | _ <;> rfl
  | element e =>
    simp only [map, strings, List.flatMap_map]
    congr 2
    funext a
    rcases a with ⟨_, _ | _ | _ | _⟩ | _ <;> rfl
  | declaration keyword declarators => simp [map, strings, List.flatMap_map]
  | _ => rfl

theorem isSpread_map (f : α → β) (n : Node α) : (n.map f).isSpread = n.isSpread := by
  cases n with
  | lambda l => rcases l with ⟨_, _, _, _, _ | _⟩ <;> simp [map, Body.map, isSpread]
  | _ => simp [map, isSpread]

end Node

/-! ### Texts in both styles -/

/-- A text without its spaces and line ends. -/
def bare (text : List Char) : List Char := text.filter fun c => c != ' ' && c != '\n'

/-- The text `x` is laid out over lines from a level on, and `y` is the same text on one line. There
are `k` pairs of braces in it whose contents stand on lines of their own: one level further in, and
with the closing brace on a line indented to the level of the opening one. -/
inductive Lays (S : String → Prop) : Nat → Nat → String → String → Prop
  /-- Signs and words of the grammar. -/
  | sign {i : Nat} (x : String) (plain : '\n' ∉ x.toList) : Lays S i 0 x x
  | stored {i : Nat} {x : String} (hx : S x) : Lays S i 0 x x
  | next {i : Nat} : Lays S i 0 (Style.lineBreak i) " "
  | append {i k k' : Nat} {x y x' y' : String} (h : Lays S i k x y)
      (h' : Lays S i k' x' y') : Lays S i (k + k') (x ++ x') (y ++ y')
  | braces {i k : Nat} {x y : String} (h : Lays S (i + 1) k x y) :
      Lays S i (k + 1)
        ("\x7b" ++ Style.lineBreak (i + 1) ++ x ++ Style.lineBreak i ++ "\x7d")
        ("\x7b " ++ y ++ " \x7d")

structure Twins (S : String → Prop) (k : Nat) (v v' : Shown) : Prop where
  isObject : v.isObject = v'.isObject
  name? : v.name? = v'.name?
  eq_zero : v.name?.isSome → k = 0
  lays : ∀ i j, Lays S i k (v.text i) (v'.text j)

theorem Lays.of_eq {S : String → Prop} {i k k' : Nat} {x y : String} (h : Lays S i k x y)
    (hk : k = k') : Lays S i k' x y := hk ▸ h

theorem Twins.between {S : String → Prop} {i j k : Nat} {v v' : Shown} (h : Twins S k v v')
    (before after : String) (hbefore : '\n' ∉ before.toList) (hafter : '\n' ∉ after.toList) :
    Lays S i k (before ++ v.text i ++ after) (before ++ v'.text j ++ after) :=
  (((Lays.sign before hbefore).append (h.lays i j)).append (.sign after hafter)).of_eq (by simp)

namespace Lays

open Node (isSpread)

attribute [local simp] isSpread Node.children Body.children Entry.children Key.children
  Attribute.children AttributeValue.children Nat.add_assoc

variable {S : String → Prop} {i j k : Nat} {x y : String} {α : Type}

section Lists

variable {items : List α} {w : α → Nat}

theorem join {f g : α → String} (h : ∀ c ∈ items, Lays S i (w c) (f c) (g c)) :
    Lays S i (items.map w).sum (String.join (items.map f)) (String.join (items.map g)) := by
  induction items with
  | nil => exact .sign "" (by decide)
  | cons c items ih =>
    simp only [List.map_cons, String.join_cons, List.sum_cons]
    exact (h c List.mem_cons_self).append (ih fun d hd => h d (List.mem_cons_of_mem c hd))

theorem intercalate {f g : α → String} (hsep : Lays S i 0 x y)
    (h : ∀ c ∈ items, Lays S i (w c) (f c) (g c)) :
    Lays S i (items.map w).sum (x.intercalate (items.map f)) (y.intercalate (items.map g)) := by
  cases items with
  | nil => exact .sign "" (by decide)
  | cons c items =>
    induction items generalizing c with
    | nil => simpa using h c List.mem_cons_self
    | cons d items ih =>
      have hrest := ih d fun e he => h e (List.mem_cons_of_mem c he)
      simp only [List.map_cons, List.sum_cons, String.intercalate_cons_cons] at hrest ⊢
      exact ((h c List.mem_cons_self).append hsep).append hrest

theorem braced {separator : String} (hsep : ∀ i, Lays S i 0 separator separator)
    {f g : α → Printed} (h : ∀ c ∈ items, ∀ i j, Lays S i (w c) (f c i) (g c j)) :
    Lays S i ((!items.isEmpty).toNat + (items.map w).sum)
      (Style.pretty.braced separator (items.map f) i)
      (Style.concise.braced separator (items.map g) j) := by
  cases items with
  | nil => exact .sign "\x7b\x7d" (by decide)
  | cons c items =>
    have hlines := intercalate ((hsep (i + 1)).append next) fun d hd => h d hd (i + 1) j
    simp only [Style.braced, List.map_map]
    exact hlines.braces.of_eq (Nat.add_comm _ _)

variable {f g : α → Shown} (h : ∀ c ∈ items, Twins S (w c) (f c) (g c))
include h

theorem listed : Lays S i (items.map w).sum
    (", ".intercalate ((items.map f).map (·.text i)))
    (", ".intercalate ((items.map g).map (·.text j))) := by
  simp only [List.map_map]
  exact intercalate (.sign ", " (by decide)) fun c hc => (h c hc).lays i j

theorem joined : Lays S i (items.map w).sum (String.join ((items.map f).map (·.text i)))
    (String.join ((items.map g).map (·.text j))) := by
  simp only [List.map_map]
  exact join fun c hc => (h c hc).lays i j

theorem block : Lays S i ((!items.isEmpty).toNat + (items.map w).sum)
    (printBlock .pretty (items.map f) i) (printBlock .concise (items.map g) j) := by
  simp only [printBlock, List.map_map]
  exact braced (fun _ => .sign "" (by decide)) fun c hc => (h c hc).lays

end Lists

theorem signed (marked : Bool) (x : String) (plain : '\n' ∉ x.toList) :
    Lays S i 0 (if marked then x else "") (if marked then x else "") := by
  cases marked
  exacts [.sign "" (by decide), .sign x plain]

theorem binder {b : Binder} (hs : ∀ x ∈ b.strings, S x) : Lays S i 0 b.print b.print := by
  cases b with
  | annotated name annotation =>
    exact ((stored (hs _ (.head _))).append (.sign ": " (by decide))).append
      (stored (hs _ (.tail _ (.head _))))
  | _ => exact stored (hs _ (.head _))

variable {f g : α → Shown} {w : α → Nat}

theorem lambda {l : Lambda α} (hs : ∀ x ∈ (Node.lambda l).strings, S x)
    (h : ∀ c ∈ l.body.children, Twins S (w c) (f c) (g c)) :
    Lays S i ((Node.lambda l).isSpread.toNat + (l.body.children.map w).sum)
      (printNode .pretty ((Node.lambda l).map f) i)
      (printNode .concise ((Node.lambda l).map g) j) := by
  obtain ⟨form, isAsync, generator, params, body⟩ := l
  have hparams : Lays S i 0 ("(" ++ ", ".intercalate (params.map Binder.print) ++ ")")
      ("(" ++ ", ".intercalate (params.map Binder.print) ++ ")") := by
    exact (((sign "(" (by decide)).append (intercalate (w := fun _ => 0)
      (.sign ", " (by decide)) fun b hb =>
      binder fun x hx => hs x (List.mem_append_left _ (List.mem_flatMap_of_mem hb hx)))).append
      (.sign ")" (by decide))).of_eq (by simp)
  cases form with
  | arrow =>
    have hlead := ((signed (S := S) (i := i) isAsync "async " (by decide)).append hparams).append
      (.sign " => " (by decide))
    cases body with
    | block statements => exact (hlead.append (block h)).of_eq (by simp)
    | value value =>
      have hvalue := h value (.head _)
      refine (hlead.append ?_).of_eq (k := 0 + 0 + 0 + w value) (by simp)
      simp only [Body.map, printArrowValue, ← hvalue.isObject]
      split
      · exact hvalue.between "(" ")" (by decide) (by decide)
      · exact hvalue.lays i j
  | function name =>
    have hlead {x : String} (hname : Lays S i 0 x x) :=
      (((((signed isAsync "async " (by decide)).append
      (.sign "function" (by decide))).append (signed generator "*" (by decide))).append
      hname).append hparams).append
      (.sign " " (by decide))
    have hnamed (x : String) (hx : name = some x) : Lays S i 0 (" " ++ x) (" " ++ x) :=
      (sign " " (by decide)).append (stored (hs x (List.mem_append_right _ (by simp [hx]))))
    cases body with
    | block statements =>
      cases name with
      | none => exact ((hlead (.sign "" (by decide))).append (block h)).of_eq (by simp)
      | some name =>
        exact ((hlead (hnamed name rfl)).append (block h)).of_eq (by simp)
    | value value =>
      have hvalue := (h value (.head _)).between (i := i) (j := j) "\x7b return " "; \x7d"
        (by decide) (by decide)
      cases name with
      | none => exact ((hlead (.sign "" (by decide))).append hvalue).of_eq (by simp)
      | some name =>
        exact ((hlead (hnamed name rfl)).append hvalue).of_eq (by simp)

theorem entry {e : Entry α} (hs : ∀ x ∈ e.strings, S x)
    (h : ∀ c ∈ e.children, Twins S (w c) (f c) (g c)) (i j : Nat) :
    Lays S i (e.children.map w).sum (printEntry (e.map f) i)
      (printEntry (e.map g) j) := by
  cases e with
  | spread value =>
    exact ((sign "..." (by decide)).append ((h value (.head _)).lays i j)).of_eq (by simp)
  | pair key value short =>
    have hvalue := h value (List.mem_append_right _ (.head _))
    have hpair {x y : String} (hkey : Lays S i (key.children.map w).sum x y) :
        Lays S i ((Entry.pair key value short).children.map w).sum
          (x ++ ": " ++ (f value).text i) (y ++ ": " ++ (g value).text j) :=
      ((hkey.append (.sign ": " (by decide))).append (hvalue.lays i j)).of_eq (by simp)
    cases key with
    | name name =>
      have hname := stored (i := i) (hs name (.head _))
      simp only [printEntry, Entry.map, Key.map, ← hvalue.name?]
      split
      · refine hname.of_eq ?_
        simp_all [Entry.children, Key.children, hvalue.eq_zero]
      · exact hpair hname
    | literal text => exact hpair (stored (hs text (.head _)))
    | computed key => exact hpair (((h key (.head _)).between "[" "]" (by decide)
      (by decide)).of_eq (by simp))

theorem attributed {a : Attribute α} (hs : ∀ x ∈ a.strings, S x)
    (h : ∀ c ∈ a.children, Twins S (w c) (f c) (g c)) :
    Lays S i (a.children.map w).sum (printAttribute (a.map f) i)
      (printAttribute (a.map g) j) := by
  cases a with
  | spread value =>
    exact ((h value (.head _)).between "\x7b..." "\x7d" (by decide) (by decide)).of_eq (by simp)
  | named name value =>
    have hname : S name := by cases value <;> exact hs name (.head _)
    cases value with
    | absent => exact stored hname
    | literal text =>
      exact ((stored hname).append (.sign "=" (by decide))).append
        (stored (hs text (.tail _ (.head _))))
    | expression value =>
      exact ((((stored hname).append (.sign "=\x7b" (by decide))).append
        ((h value (.head _)).lays i j)).append
        (.sign "\x7d" (by decide))).of_eq (by simp)
    | mustache path =>
      exact (((stored hname).append (.sign "=\"\x7b\x7b" (by decide))).append
        (stored (hs path (.tail _ (.head _))))).append (.sign "\x7d\x7d\"" (by decide))

theorem element {e : Element α} (hs : ∀ x ∈ (Node.element e).strings, S x)
    (h : ∀ c ∈ (Node.element e).children, Twins S (w c) (f c) (g c)) :
    Lays S i ((Node.element e).children.map w).sum
      (printNode .pretty ((Node.element e).map f) i)
      (printNode .concise ((Node.element e).map g) j) := by
  obtain ⟨tag, attributes, children, selfClosing⟩ := e
  have htag := stored (i := i) (hs tag (.head _))
  have hattributes := join fun a (ha : a ∈ attributes) =>
    (sign " " (by decide)).append (attributed (i := i) (j := j)
      (fun x hx => hs x (.tail _ (List.mem_flatMap_of_mem ha hx)))
      fun c hc => h c (List.mem_append_left _ (List.mem_flatMap_of_mem ha hc)))
  have hchildren := joined (i := i) (j := j) fun c hc =>
    h c (List.mem_append_right _ hc)
  have hopening := ((sign "<" (by decide)).append htag).append hattributes
  simp only [printNode, printElement, Node.map, List.map_map, Function.comp_def,
    List.isEmpty_map] at hchildren ⊢
  split
  · refine (hopening.append (.sign " />" (by decide))).of_eq ?_
    simp_all [Node.children, List.flatMap, List.sum_flatten, Function.comp_def]
  · refine (((((hopening.append (.sign ">" (by decide))).append hchildren).append
      (.sign "</" (by decide))).append
      htag).append (.sign ">" (by decide))).of_eq ?_
    simp [Node.children, List.flatMap, List.sum_flatten, Function.comp_def]

theorem node {n : Node α} (hs : ∀ x ∈ n.strings, S x)
    (h : ∀ c ∈ n.children, Twins S (w c) (f c) (g c)) :
    Lays S i (n.isSpread.toNat + (n.children.map w).sum) (printNode .pretty (n.map f) i)
      (printNode .concise (n.map g) j) := by
  have hsub (c : α) (hc : c ∈ n.children) := (h c hc).lays i j
  cases n with
  | name s | literal s | text s | verbatim s => exact stored (hs _ (.head _))
  | member object property optional =>
    have hdot : Lays S i 0 (if optional then "?." else ".") (if optional then "?." else ".") := by
      cases optional
      exacts [.sign "." (by decide), .sign "?." (by decide)]
    exact (((hsub object (.head _)).append hdot).append (stored (hs property (.head _)))).of_eq
      (by simp)
  | index object index =>
    exact (((hsub object (.head _)).append (.sign "[" (by decide))).append
      (hsub index (.tail _ (.head _)))).append
      (.sign "]" (by decide)) |>.of_eq (by simp)
  | call callee arguments =>
    exact (((hsub callee (.head _)).append (.sign "(" (by decide))).append
      (listed fun c hc => h c (.tail _ hc))).append (.sign ")" (by decide))
      |>.of_eq (by simp)
  | lambda l => exact lambda hs h
  | object entries =>
    have hentries := braced (i := i) (j := j) (fun _ => .sign "," (by decide)) fun e he =>
      entry (fun x hx => hs x (List.mem_flatMap_of_mem he hx))
        fun c hc => h c (List.mem_flatMap_of_mem he hc)
    simp only [printNode, Node.map, List.map_map, Function.comp_def]
    exact hentries.of_eq (by simp [isSpread, Node.children, List.flatMap, List.sum_flatten,
      Function.comp_def])
  | array items =>
    exact (((sign "[" (by decide)).append (listed h)).append (.sign "]" (by decide))).of_eq
      (by simp)
  | spread inner =>
    exact ((sign "..." (by decide)).append (hsub inner (.head _))).of_eq (by simp)
  | binary op left right | logical op left right =>
    exact ((((hsub left (.head _)).append (.sign " " (by decide))).append
      (stored (hs op (.head _)))).append
      (.sign " " (by decide))).append (hsub right (.tail _ (.head _))) |>.of_eq (by simp)
  | unary op argument =>
    exact (((stored (hs op (.head _))).append (signed _ " " (by decide))).append
      (hsub argument (.head _))).of_eq (by simp)
  | conditional test yes no =>
    exact ((((hsub test (.head _)).append (.sign " ? " (by decide))).append
      (hsub yes (.tail _ (.head _)))).append
      (.sign " : " (by decide))).append (hsub no (.tail _ (.tail _ (.head _))))
      |>.of_eq (by simp)
  | paren inner =>
    exact ((h inner (.head _)).between "(" ")" (by decide) (by decide)).of_eq (by simp)
  | container inner =>
    exact ((h inner (.head _)).between "\x7b" "\x7d" (by decide) (by decide)).of_eq (by simp)
  | element e => exact (element hs h).of_eq (by simp)
  | fragment children =>
    exact (((sign "<>" (by decide)).append (joined h)).append (.sign "</>" (by decide))).of_eq
      (by simp)
  | mustache path =>
    exact ((sign "\x7b\x7b " (by decide)).append (stored (hs path (.head _)))).append
      (.sign " \x7d\x7d" (by decide))
  | returning value =>
    cases value with
    | none => exact .sign "return;" (by decide)
    | some value =>
      exact ((h value (.head _)).between "return " ";" (by decide) (by decide)).of_eq (by simp)
  | performing inner =>
    exact ((hsub inner (.head _)).append (.sign ";" (by decide))).of_eq (by simp)
  | declaration keyword declarators =>
    have hdeclarators := intercalate (i := i) (w := fun d => (d.value.map w).getD 0)
      (f := fun d => printDeclarator ⟨d.binder, d.value.map f⟩ i)
      (g := fun d => printDeclarator ⟨d.binder, d.value.map g⟩ j) (.sign ", " (by decide))
      fun d (hd : d ∈ declarators) => by
        obtain ⟨binder, value⟩ := d
        have hbinder := Lays.binder (i := i) fun x hx =>
          hs x (.tail _ (List.mem_flatMap_of_mem hd hx))
        cases value with
        | none => exact hbinder
        | some value =>
          exact ((hbinder.append (.sign " = " (by decide))).append
            (hsub value (List.mem_filterMap.2 ⟨_, hd, rfl⟩))).of_eq (by simp)
    simp only [printNode, Node.map, List.map_map, Function.comp_def]
    refine ((((stored (hs keyword (.head _))).append (.sign " " (by decide))).append
      hdeclarators).append
      (.sign ";" (by decide))).of_eq ?_
    simp only [isSpread, Node.children, Bool.toNat_false, Nat.zero_add, Nat.add_zero]
    clear hs h hsub hdeclarators
    induction declarators with
    | nil => rfl
    | cons d declarators ih => cases hd : d.value <;> simp [hd, ih]
  | branch test yes no =>
    have hif := ((h test (.head _)).between (i := i) (j := j) "if (" ") " (by decide)
      (by decide)).append
      (hsub yes (.tail _ (.head _)))
    cases no with
    | none => exact (hif.append (.sign "" (by decide))).of_eq (by simp)
    | some no =>
      exact (hif.append ((sign " else " (by decide)).append
        (hsub no (.tail _ (.tail _ (.head _)))))).of_eq (by simp)
  | block statements => exact block h

/-! ### What the texts have in common -/

theorem bare_eq (h : Lays S i k x y) : bare x.toList = bare y.toList := by
  induction h with
  | sign | stored => rfl
  | next => simp [bare, Style.lineBreak]
  | append _ _ ih ih' => simp_all [bare]
  | braces _ ih => simp_all [bare, Style.lineBreak]

theorem exists_of_newline (h : Lays S i k x y) (hy : '\n' ∈ y.toList) :
    ∃ z, S z ∧ '\n' ∈ z.toList := by
  induction h with
  | sign _ plain => exact absurd hy plain
  | stored hx => exact ⟨_, hx, hy⟩
  | next => simp at hy
  | append _ _ ih ih' => exact (by simpa using hy : _ ∨ _).elim ih ih'
  | braces _ ih => exact ih (by simpa using hy)

end Lays

namespace Located

/-- How many objects and blocks with something in them hang in a tree. -/
def spreads (t : Located) : Nat := t.cells.countP fun c => c.head.isSpread

theorem spreads_node (l : Loc) (n : Node Located) :
    (node l n).spreads = n.isSpread.toNat + (n.children.map spreads).sum := by
  have hchildren (cs : List Located) :
      (cellsOf cs).countP (fun c => c.head.isSpread) = (cs.map spreads).sum := by
    induction cs with
    | nil => rfl
    | cons c cs ih => simp [ih, spreads]
  rw [spreads, cells_node, Multiset.countP_add, hchildren, Multiset.countP_eq_card_filter,
    Multiset.filter_singleton, Node.isSpread_map]
  cases n.isSpread <;> rfl

theorem twins {S : String → Prop} {t : Located}
    (hs : ∀ u, Occurs u t → ∀ x ∈ u.here.strings, S x) :
    Twins S t.spreads (t.shown .pretty) (t.shown .concise) := by
  induction t using induct with
  | node l n ih =>
    have hchildren (c : Located) (hc : c ∈ n.children) := ih c hc fun u hu => hs u (.child hc hu)
    rw [spreads_node, shown, shown, fold_node, fold_node]
    refine ⟨?_, ?_, fun hname => ?_, fun level level' => Lays.node (hs _ .self) hchildren⟩
    · simp only [Shown.ofNode]
      cases n <;> rfl
    · simp only [Shown.ofNode]
      cases n <;> rfl
    · simp only [Shown.ofNode] at hname
      cases n with
      | name => rfl
      | _ => cases hname

end Located

/-- The pretty text is laid out over lines and the concise one is the same on one line: as many
pairs of braces are spread as there are objects and blocks with something in them, and the level is
zero again at the end. Spaces and line ends apart the two are equal, and the concise one ends a line
only in a string that the tree holds. -/
theorem Store.print_lays {s : Store} {root l : Loc} (h : s.IsTree root) (hl : s.Reaches root l) :
    Lays (fun x => ∃ l', s.Reaches l l' ∧ x ∈ (s.get l').strings) 0 (s.treeAt l).spreads
      (s.print .pretty l) (s.print .concise l) ∧
    bare (s.print .pretty l).toList = bare (s.print .concise l).toList ∧
    ('\n' ∈ (s.print .concise l).toList →
      ∃ x, (∃ l', s.Reaches l l' ∧ x ∈ (s.get l').strings) ∧ '\n' ∈ x.toList) := by
  have hshows := (h.of_reaches hl).shows_treeAt
  have hprint (style : Style) : s.print style l = ((s.treeAt l).shown style).text 0 := by
    rw [← hshows.shown, loc_treeAt]
    rfl
  have hlays := (Located.twins (t := s.treeAt l) fun u hu x hx =>
    show ∃ l', s.Reaches l l' ∧ x ∈ (s.get l').strings by
      have hreached := hshows.reaches_iff.2 ⟨u, hu, rfl⟩
      rw [loc_treeAt] at hreached
      exact ⟨u.loc, hreached, by rwa [hshows.get _ hu.root_mem, Node.strings_map]⟩).lays 0 0
  rw [hprint, hprint]
  exact ⟨hlays, hlays.bare_eq, hlays.exists_of_newline⟩

/-- A block that returns an object. -/
def returnedObject : Store :=
  ⟨#[.name "a", .object [.pair (.name "a") ⟨0⟩ true], .returning (some ⟨1⟩), .block [⟨2⟩]]⟩

theorem returnedObject_lays :
    returnedObject.IsTree ⟨3⟩ ∧
      returnedObject.print .pretty ⟨3⟩ = "\x7b\n  return \x7b\n    a\n  \x7d;\n\x7d" ∧
      returnedObject.print .concise ⟨3⟩ = "\x7b return \x7b a \x7d; \x7d" ∧
      Lays (fun x => ∃ l', returnedObject.Reaches ⟨3⟩ l' ∧ x ∈ (returnedObject.get l').strings) 0 2
        (returnedObject.print .pretty ⟨3⟩) (returnedObject.print .concise ⟨3⟩) := by
  have htree : returnedObject.IsTree ⟨3⟩ :=
    Store.isTree_of_filled (by decide) (by decide) (by decide)
  have hblock : returnedObject.treeAt ⟨3⟩ =
    .node ⟨3⟩ (.block [.node ⟨2⟩ (.returning (some (.node ⟨1⟩
      (.object [.pair (.name "a") (.node ⟨0⟩ (.name "a")) true]))))]) := rfl
  have hspreads : (returnedObject.treeAt ⟨3⟩).spreads = 2 := by
    simp [hblock, Located.spreads_node, Node.isSpread, Node.children]
  exact ⟨htree, by decide +kernel, by decide +kernel,
    (Store.print_lays htree (.refl _)).1.of_eq hspreads⟩

end JsxLoops.Tree
