import JsxLoops.Loop.Lower
import JsxLoops.Proofs.Mapping
import JsxLoops.Proofs.Records
import JsxLoops.Proofs.Rewriting

/-!
Lowering as a relation on trees. `Lowers` says what the descent makes of the parts of a tree, rule
by rule and without a store: which loops it finds, what each of them becomes, and what the record
of the loop around holds in the end. What a run keeps is proved by induction on this relation.
-/

namespace JsxLoops.Loop

open JsxLoops.Tree Located

/-! ### Conditions -/

/-- A condition that markup is shown under, as trees. -/
inductive Premise where
  | operand (op : String) (left : Located)
  | whenTrue (test : Located)
  | whenFalse (test : Located)

namespace Premise

def guard : Premise → Guard
  | .operand op left => .operand op left.loc
  | .whenTrue test => .whenTrue test.loc
  | .whenFalse test => .whenFalse test.loc

def tree : Premise → Located
  | .operand _ left => left
  | .whenTrue test | .whenFalse test => test

end Premise

def groups {α : Type} : Node α → Bool
  | .logical _ _ _ | .conditional _ _ _ => true
  | _ => false

/-- The tree in parentheses where it needs them. -/
inductive Grouped (t : Located) : Located → Prop
  | bare (h : groups t.here = false) : Grouped t t
  | paren (l : Loc) (h : groups t.here = true) : Grouped t (.node l (.paren t))

/-- The value is reached only where the condition shows it. The condition is copied. -/
inductive Shielded (v : Located) : Premise → Located → Prop
  | operand {op : String} {left copy left' v' : Located} (l : Loc) (hcopy : copy.erase = left.erase)
    (hleft : Grouped copy left') (hv : Grouped v v') :
    Shielded v (.operand op left) (.node l (.logical op left' v'))
  | whenTrue {test copy test' : Located} (l k : Loc) (hcopy : copy.erase = test.erase)
    (htest : Grouped copy test') :
    Shielded v (.whenTrue test) (.node l (.conditional test' v (.node k (.literal "null"))))
  | whenFalse {test copy test' : Located} (l k : Loc) (hcopy : copy.erase = test.erase)
    (htest : Grouped copy test') :
    Shielded v (.whenFalse test) (.node l (.conditional test' (.node k (.literal "null")) v))

/-- The value under conditions, the outermost first. -/
inductive Guarded (v : Located) : List Premise → Located → Prop
  | nil : Guarded v [] v
  | cons {g : Premise} {gs : List Premise} {u t : Located} (h : Guarded v gs u)
    (hg : Shielded u g t) : Guarded v (g :: gs) t

/-! ### Loops -/

/-- A loop whose template is being lowered, with the log of its record. -/
structure Ledger (adapter : Adapter) where
  scope : LoopScope
  outer : List LoopScope
  id : UInt32
  keyToken : String
  log : List Event
  draft : Draft
  logged : Logged adapter scope { item := scope.item, keyToken } log draft

namespace Ledger

variable {adapter : Adapter}

/-- The ledger of a loop before its template is lowered. -/
def start (adapter : Adapter) (scope : LoopScope) (outer : List LoopScope) (tokens : Tokens) :
    Ledger adapter where
  scope := scope
  outer := outer
  id := tokens.id
  keyToken := tokens.keyToken
  log := []
  draft := { item := scope.item, keyToken := tokens.keyToken }
  logged := .nil

def owner (L : Ledger adapter) : Owner := ⟨L.scope, L.outer, L.draft, L.id⟩

def note (L : Ledger adapter) {e : Event} {d : Draft} (h : Noted adapter L.scope L.draft e d) :
    Ledger adapter where
  scope := L.scope
  outer := L.outer
  id := L.id
  keyToken := L.keyToken
  log := L.log ++ [e]
  draft := d
  logged := L.logged.snoc h

/-- Whether a leaf is moved into the record: it is no function, and depends on the loop. -/
def takes (L : Ledger adapter) (v : Located) : Bool :=
  match v.strip.here with
  | .lambda _ => false
  | _ => L.owner.dependsOn v.freeNames

/-- The path to what an event put into the record. -/
def path (L : Ledger adapter) (e : Event) : String :=
  match e.holding with
  | .field name => L.owner.path name
  | _ => L.owner.path L.scope.item

end Ledger

namespace Mapping

def itemName (m : Mapping) : String := m.candidate.itemName

/-- A tree of the body, after the index got the name that belongs to the loop. -/
def renamed (m : Mapping) (tokens : Tokens) (t : Located) : Located :=
  match m.names[1]? with
  | some index => t.renameFree index tokens.indexName
  | none => t

/-- The names that the loop binds for its template. -/
def scope (m : Mapping) (tokens : Tokens) : LoopScope :=
  ⟨m.itemName, tokens.indexName, declaredBy (m.leading.map (m.renamed tokens))⟩

end Mapping

def wrapperNode (adapter : Adapter) (item index : String) (source : Located)
    (inner : List Located) : Node Located :=
  .element ⟨"block", [.named adapter.forAttribute (.expression source),
    .quoted adapter.itemAttribute item, .quoted adapter.indexAttribute index,
    .quoted adapter.keyAttribute keyField], inner, false⟩

def handedOver (t : Located) : List Located :=
  match t.here with
  | .fragment children => children
  | _ => [t]

structure Lowered (adapter : Adapter) where
  /-- The mapping call as it was found. -/
  mapping : Mapping
  tokens : Tokens
  parent : Option UInt32
  /-- The statements in front of the return, after lowering. -/
  leading : List Located
  /-- The template, after lowering. -/
  subtree : Located
  ledger : Ledger adapter
  record : Located
  last : Loc
  /-- The value of the loop attribute. -/
  source : Located
  binding : Binding
  wrapper : Loc

namespace Lowered

variable {adapter : Adapter}

/-- The rewritten mapping call. -/
def call (lp : Lowered adapter) : Located :=
  lp.mapping.withCallback [.plain lp.mapping.itemName, .plain lp.tokens.indexName]
    (.block (lp.leading ++ [.node lp.last (.returning (some lp.record))]))

/-- The wrapper with all that stands in it. -/
def tree (lp : Lowered adapter) : Located :=
  .node lp.wrapper (wrapperNode adapter lp.mapping.itemName lp.tokens.indexName lp.source
    (handedOver lp.subtree))

/-- What is reported of the loop. -/
def site (lp : Lowered adapter) : Site where
  id := lp.tokens.id
  parent := lp.parent
  itemName := lp.mapping.itemName
  indexName := lp.tokens.indexName
  keyToken := lp.tokens.keyToken
  source := lp.mapping.receiver.loc
  mappingCall := lp.mapping.call
  callback := lp.mapping.callback
  wrapper := lp.wrapper
  ownedSubtree := lp.subtree.loc
  bodyStatements := lp.leading.map loc
  schema := lp.ledger.draft.schema
  binding := lp.binding

end Lowered

/-- The loop attribute of a nested loop reaches what the record holds. -/
inductive Reaches (item : String) (receiver : Located) : Holding → Binding → Located → Prop
  | merged (l : Loc) : Reaches item receiver .merged .itemMerge (.node l (.name item))
  | under {path : List String} {copy : Located} (h : copy.erase = receiver.erase) :
    Reaches item receiver (.under path) (.itemPath (".".intercalate (item :: path))) copy
  | named {name : String} {t : Located} (h : IsPath item [name] t) :
    Reaches item receiver (.field name) (.local name) t
  | field (l : Loc) (name : String) :
    Reaches item receiver (.field name) (.field name) (.node l (.name name))

/-- A loop is bound: by itself, or through the record of the loop around it. -/
inductive Bound {adapter : Adapter} (gs : List Premise) (lp : Lowered adapter) :
    Option (Ledger adapter) → Option (Ledger adapter) → Prop
  | inline (hs : lp.source = lp.call) (hb : lp.binding = .inline) : Bound gs lp none none
  | nested {L : Ledger adapter} {e : Event} {d : Draft} (h : Noted adapter L.scope L.draft e d)
    (hu : e.use = .loop lp.wrapper lp.binding) (hs : e.source = lp.mapping.receiver)
    (hc : Guarded lp.call gs e.carrier)
    (hr : Reaches L.scope.item lp.mapping.receiver e.holding lp.binding lp.source) :
    Bound gs lp (some L) (some (L.note h))

/-! ### The relation -/

/-- Where a run stands: the loops lowered so far, and the one whose template is being lowered. -/
structure Stage (adapter : Adapter) where
  allocator : Allocator
  loops : List (Lowered adapter)
  ledger : Option (Ledger adapter)

inductive Part where
  | node (t : Located)
  | attribute (holder : Loc) (position : Nat) (a : Attribute Located)
  /-- A child of an element or a fragment. -/
  | child (t : Located)
  /-- An operand that is shown under further conditions. -/
  | operand (under : List Premise) (t : Located)
  /-- A statement in front of the return, in which only markup is lowered. -/
  | statement (t : Located)
  | loop (m : Mapping)
  /-- What a loop becomes. -/
  | wrapper (w : Located)

/-- The parts of a node that are lowered, in order. -/
def partsOf (l : Loc) : Node Located → List Part
  | .element e => e.attributes.mapIdx (fun i a => .attribute l i a) ++ e.children.map .child
  | .fragment children => children.map .child
  | .conditional test yes no => [.operand [.whenTrue test] yes, .operand [.whenFalse test] no]
  | .logical op left right => [.operand [.operand op left] right]
  | .paren inner => [.operand [] inner]
  | _ => []

/-- The nodes differ only in the parts that are lowered. -/
def SameAround : Node Located → Node Located → Prop
  | .element e, n => ∃ as cs, n = .element ⟨e.tag, as, cs, e.selfClosing⟩ ∧
      as.length = e.attributes.length
  | .fragment _, n => ∃ cs, n = .fragment cs
  | .conditional test _ _, n => ∃ yes no, n = .conditional test yes no
  | .logical op left _, n => ∃ right, n = .logical op left right
  | .paren _, n => ∃ inner, n = .paren inner
  | n, n' => n' = n

/-- Where an expression stands that may be lowered. -/
inductive Place where
  | spot (spot : Spot)
  | operand (under : List Premise)

inductive Verdict where
  | loop
  | enter
  | leaf
  | leave
deriving DecidableEq

namespace Place

/-- The part in which a tree stands at the place. -/
def holding : Place → Located → Part
  | .spot (.text c), v => .child (.node c (.container v))
  | .spot (.attribute l i name), v => .attribute l i (.named name (.expression v))
  | .operand under, v => .operand under v

def taken : Place → Located → Part
  | .spot (.text _), w => .child w
  | .spot (.attribute l i name), w => .attribute l i (.named name (.expression w))
  | .operand under, w => .operand under w

def premises : Place → List Premise
  | .spot _ => []
  | .operand under => under

def verdict : Place → Located → Verdict
  | .spot (.attribute _ _ _), v => if v.hasMarkup then .enter else .leaf
  | .spot (.text _), v =>
    match candidateTree? v with
    | .ok _ => .loop
    | .error reason =>
      if v.hasMarkup then if reason = .notMapCall then .enter else .leave else .leaf
  | .operand _, v =>
    match candidateTree? v with
    | .ok _ => .loop
    | .error reason => if reason = .notMapCall && v.hasMarkup then .enter else .leave

end Place

def Spot.shown : Spot → String → Part
  | .text c, path => .child (.node c (.mustache path))
  | .attribute l i name, path => .attribute l i (.named name (.mustache path))

def Part.Inert : Part → Prop
  | .attribute _ _ a => ∀ name v, a ≠ .named name (.expression v)
  | .child t => t.here.isMarkup = false ∧ ∀ v, t.here ≠ .container v
  | _ => False

section

variable (adapter : Adapter) (start : Nat)

/-- Parts are lowered one after the other, under conditions, at a stage. New wrappers stand at
locations from `start` on, later ones after earlier ones. -/
inductive Lowers : List Premise → List Part → Stage adapter → List Part → Stage adapter → Prop
  | nil {gs : List Premise} {σ : Stage adapter} : Lowers gs [] σ [] σ
  | cons {gs : List Premise} {p p' : Part} {ps ps' : List Part} {σ σ₁ σ₂ : Stage adapter}
    (h : Lowers gs [p] σ [p'] σ₁) (hs : Lowers gs ps σ₁ ps' σ₂) :
    Lowers gs (p :: ps) σ (p' :: ps') σ₂
  | node {gs : List Premise} {l : Loc} {n n' : Node Located} {σ σ' : Stage adapter}
    (hn : SameAround n n') (h : Lowers gs (partsOf l n) σ (partsOf l n') σ') :
    Lowers gs [.node (.node l n)] σ [.node (.node l n')] σ'
  | inert {gs : List Premise} {p : Part} {σ : Stage adapter} (h : p.Inert) : Lowers gs [p] σ [p] σ
  | markup {gs : List Premise} {t t' : Located} {σ σ' : Stage adapter}
    (hm : t.here.isMarkup = true) (h : Lowers gs [.node t] σ [.node t'] σ') :
    Lowers gs [.child t] σ [.child t'] σ'
  | leave {gs : List Premise} {place : Place} {v : Located} {σ : Stage adapter}
    (hv : place.verdict v = .leave) :
    Lowers gs [place.holding v] σ [place.holding v] σ
  | enter {gs : List Premise} {place : Place} {v v' : Located} {σ σ' : Stage adapter}
    (hv : place.verdict v = .enter)
    (h : Lowers (gs ++ place.premises) [.node v] σ [.node v'] σ') :
    Lowers gs [place.holding v] σ [place.holding v'] σ'
  | keep {gs : List Premise} {spot : Spot} {v : Located} {σ : Stage adapter}
    (hv : Place.verdict (.spot spot) v = .leaf) (hl : ∀ L, σ.ledger = some L → L.takes v = false) :
    Lowers gs [Place.holding (.spot spot) v] σ [Place.holding (.spot spot) v] σ
  | move {gs : List Premise} {spot : Spot} {v : Located} {a : Allocator}
    {loops : List (Lowered adapter)} {L : Ledger adapter} {e : Event} {d : Draft}
    (hv : Place.verdict (.spot spot) v = .leaf) (hl : L.takes v = true)
    (he : Noted adapter L.scope L.draft e d) (hu : e.use = .spot spot) (hs : e.source = v) :
    Lowers gs [Place.holding (.spot spot) v] ⟨a, loops, some L⟩
      [spot.shown (L.path e)] ⟨a, loops, some (L.note he)⟩
  | loop {gs : List Premise} {place : Place} {ps : List Loc} {m : Mapping} {w : Located}
    {σ σ' : Stage adapter} (hv : place.verdict (inParens ps m.tree) = .loop)
    (h : Lowers (gs ++ place.premises) [.loop m] σ [.wrapper w] σ') :
    Lowers gs [place.holding (inParens ps m.tree)] σ [place.taken w] σ'
  | search {gs : List Premise} {l : Loc} {n n' : Node Located} {σ σ' : Stage adapter}
    (hm : n.isMarkup = false) (hn : n'.shape = n.shape)
    (h : Lowers gs (n.children.map .statement) σ (n'.children.map .statement) σ') :
    Lowers gs [.statement (.node l n)] σ [.statement (.node l n')] σ'
  | found {gs : List Premise} {t t' : Located} {σ σ' : Stage adapter}
    (hm : t.here.isMarkup = true) (h : Lowers [] [.node t] σ [.node t'] σ') :
    Lowers gs [.statement t] σ [.statement t'] σ'
  | site {gs : List Premise} (lp : Lowered adapter) {σ σ₁ σ₂ : Stage adapter}
    {parent : Option (Ledger adapter)} (hm : lp.mapping.Valid)
    (htokens : lp.tokens = σ.allocator.allocate.1) (hparent : lp.parent = σ.ledger.map Ledger.id)
    (hleading : Lowers []
      (lp.mapping.leading.map fun t => .statement (lp.mapping.renamed lp.tokens t))
      ⟨σ.allocator.allocate.2, σ.loops, none⟩ (lp.leading.map .statement) σ₁)
    (hsubtree : Lowers [] [.node (lp.mapping.renamed lp.tokens lp.mapping.subtree)]
      { σ₁ with ledger := some (.start adapter (lp.mapping.scope lp.tokens)
        (σ.ledger.elim [] fun L => L.outer ++ [L.scope]) lp.tokens) }
      [.node lp.subtree] σ₂)
    (hledger : σ₂.ledger = some lp.ledger)
    (hrecord : IsRecord lp.mapping.itemName lp.tokens.keyToken lp.ledger.log lp.record)
    (hwrapper : start ≤ lp.wrapper.index)
    (hfresh : ∀ inner ∈ σ₂.loops, inner.wrapper.index < lp.wrapper.index)
    (hbound : Bound gs lp σ.ledger parent) :
    Lowers gs [.loop lp.mapping] σ [.wrapper lp.tree] ⟨σ₂.allocator, σ₂.loops ++ [lp], parent⟩

end

theorem Lowers.append {adapter : Adapter} {start : Nat} {gs : List Premise}
    {ps ps' qs qs' : List Part} {σ σ₁ σ₂ : Stage adapter}
    (h : Lowers adapter start gs ps σ ps' σ₁) (hs : Lowers adapter start gs qs σ₁ qs' σ₂) :
    Lowers adapter start gs (ps ++ qs) σ (ps' ++ qs') σ₂ := by
  induction h with
  | nil => exact hs
  | cons h _ _ ihs => exact .cons h (ihs hs)
  | node hn h => exact .cons (.node hn h) hs
  | inert h => exact .cons (.inert h) hs
  | markup hm h => exact .cons (.markup hm h) hs
  | leave hv => exact .cons (.leave hv) hs
  | enter hv h => exact .cons (.enter hv h) hs
  | keep hv hl => exact .cons (.keep hv hl) hs
  | move hv hl he hu hsource => exact .cons (.move hv hl he hu hsource) hs
  | loop hv h => exact .cons (.loop hv h) hs
  | search hm hn h => exact .cons (.search hm hn h) hs
  | found hm h => exact .cons (.found hm h) hs
  | site lp hm htokens hparent hleading hsubtree hledger hrecord hwrapper hfresh hbound =>
    exact .cons (.site lp hm htokens hparent hleading hsubtree hledger hrecord hwrapper hfresh
      hbound) hs

/-! ### The loop around -/

structure Ledger.Grows {adapter : Adapter} (L L' : Ledger adapter) : Prop where
  scope : L'.scope = L.scope
  outer : L'.outer = L.outer
  id : L'.id = L.id
  keyToken : L'.keyToken = L.keyToken
  log : L.log <+: L'.log

/-- The loop around is the same one later on, if there is one. -/
inductive Continues {adapter : Adapter} : Option (Ledger adapter) → Option (Ledger adapter) → Prop
  | alone : Continues none none
  | within {L L' : Ledger adapter} (h : L.Grows L') : Continues (some L) (some L')

theorem Continues.refl {adapter : Adapter} (o : Option (Ledger adapter)) : Continues o o := by
  cases o with
  | none => exact .alone
  | some L => exact .within ⟨rfl, rfl, rfl, rfl, List.prefix_rfl⟩

theorem Continues.trans {adapter : Adapter} {o o' o'' : Option (Ledger adapter)}
    (h : Continues o o') (h' : Continues o' o'') : Continues o o'' := by
  cases h with
  | alone => exact h'
  | within h =>
    cases h' with
    | within h' => exact .within ⟨h'.scope.trans h.scope, h'.outer.trans h.outer, h'.id.trans h.id,
        h'.keyToken.trans h.keyToken, h.log.trans h'.log⟩

theorem Continues.eq_none {adapter : Adapter} {o o' : Option (Ledger adapter)}
    (h : Continues o o') (ho : o = none) : o' = none := by
  cases h with
  | alone => rfl
  | within => cases ho

theorem Continues.note {adapter : Adapter} {L : Ledger adapter} {e : Event} {d : Draft}
    (h : Noted adapter L.scope L.draft e d) : Continues (some L) (some (L.note h)) :=
  .within ⟨rfl, rfl, rfl, rfl, List.prefix_append _ _⟩

theorem Lowers.continues {adapter : Adapter} {start : Nat} {gs : List Premise} {ps ps' : List Part}
    {σ σ' : Stage adapter} (h : Lowers adapter start gs ps σ ps' σ') :
    Continues σ.ledger σ'.ledger := by
  induction h with
  | nil | inert | leave | keep => exact .refl _
  | cons _ _ ih ihs => exact ih.trans ihs
  | node _ _ ih | markup _ _ ih | enter _ _ ih | loop _ _ ih | search _ _ _ ih | found _ _ ih =>
    exact ih
  | move _ _ he => exact .note he
  | site lp _ _ _ _ _ _ _ _ _ hbound =>
    generalize hσ : Stage.ledger _ = o at hbound
    cases hbound with
    | inline => exact hσ ▸ .alone
    | nested h => exact hσ ▸ .note h

end JsxLoops.Loop
