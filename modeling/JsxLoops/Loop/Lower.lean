import JsxLoops.Loop.Candidate
import JsxLoops.Loop.Leaf
import JsxLoops.Loop.Site

/-!
Lowering. Every mapping call that the template can show is replaced by a wrapper element with four
loop attributes. The callback then returns a record instead of markup, and the values shown in the
markup become paths into that record. A nested loop is carried by the record of the loop around
it; the conditions it stands under go with it.

One node is lowered by a rule that is given the lowering of the nodes below, so the whole descends
at most as deep as the store is large.
-/

namespace JsxLoops.Loop

open JsxLoops.Tree

/-- A condition that markup is shown under. -/
inductive Guard where
  /-- The right operand of a logical operator. -/
  | operand (op : String) (left : Loc)
  | whenTrue (test : Loc)
  | whenFalse (test : Loc)
deriving DecidableEq, Repr

/-- A loop whose template is being lowered. -/
structure Owner where
  scope : LoopScope
  /-- The scopes around it, innermost last. -/
  outer : List LoopScope
  draft : Draft
  id : UInt32
deriving DecidableEq, Repr

namespace Owner

def dependsOn (o : Owner) (names : List String) : Bool :=
  names.any fun name => o.scope.binds name || o.outer.any (·.binds name)

/-- How the template reaches a field of the record. -/
def path (o : Owner) (field : String) : String := o.scope.item ++ "." ++ field

end Owner

/-! ### The state of a run -/

structure Pass where
  store : Store
  allocator : Allocator
  sites : List Site

abbrev Lower := StateM Pass

namespace Lower

def edit {α : Type} (e : Edit α) : Lower α := fun p =>
  let (a, store) := e.run p.store
  (a, { p with store })

def store : Lower Store := return (← get).store

def allocate : Lower Tokens := fun p =>
  let (tokens, allocator) := p.allocator.allocate
  (tokens, { p with allocator })

def record (site : Site) : Lower Unit := modify fun p => { p with sites := p.sites ++ [site] }

end Lower

/-! ### Leaves -/

/-- Moves a leaf that depends on the loop into the record, and gives the path to it. Functions
stay where they are. -/
def lowerLeaf (adapter : Adapter) (position : Option String) (l : Loc) (o : Owner) :
    Edit (Option String × Owner) := do
  let s ← get
  match s.get (s.stripParens l) with
  | .lambda _ => return (none, o)
  | _ =>
    if !o.dependsOn (s.freeNames l) then return (none, o)
    match leafShape adapter o.scope s position l with
    | .item => return (some (o.path o.scope.item), { o with draft := o.draft.noteItem l })
    | .style =>
      let (field, draft) ← o.draft.pushStyle l adapter.createStyle
      return (some (o.path field), { o with draft })
    | shape =>
      let (field, draft) := o.draft.pushDynamic shape.dependency l l
      return (some (o.path field), { o with draft })

/-- Lowers a leaf for the loop around it, if there is one, and writes the path to it where it
stood. -/
def lowerSpot (adapter : Adapter) (position : Option String) (l : Loc)
    (write : String → Edit Unit) :
    Option Owner → Lower (Option Owner)
  | none => return none
  | some o => do
    let (path?, o) ← Lower.edit (lowerLeaf adapter position l o)
    if let some path := path? then Lower.edit (write path)
    return some o

/-- The same attribute with a path into a record for its value. -/
def mustacheAttribute {α : Type} (path : String) : Attribute α → Attribute α
  | .named name _ => .named name (.mustache path)
  | a => a

/-- Gives the attribute at a position of an element a path into a record for its value. -/
def setMustache (l : Loc) (position : Nat) (path : String) : Edit Unit := do
  match ← Edit.node l with
  | .element e =>
    Edit.put l (.element
      { e with attributes := e.attributes.modify position (mustacheAttribute path) })
  | _ => return ()

/-! ### Nested loops -/

/-- Puts parentheses around an operator that would group otherwise. -/
def parenthesize (l : Loc) : Edit Loc := do
  match ← Edit.node l with
  | .logical _ _ _ | .conditional _ _ _ => Edit.add (.paren l)
  | _ => return l

/-- A value that is only reached where the condition shows it. -/
def Guard.apply (g : Guard) (value : Loc) : Edit Loc := do
  match g with
  | .operand op left =>
    let left ← parenthesize (← Edit.clone left)
    Edit.add (.logical op left (← parenthesize value))
  | .whenTrue test =>
    let test ← parenthesize (← Edit.clone test)
    Edit.add (.conditional test value (← Edit.add (.literal "null")))
  | .whenFalse test =>
    let test ← parenthesize (← Edit.clone test)
    Edit.add (.conditional test (← Edit.add (.literal "null")) value)

def guardedValue (guards : List Guard) (value : Loc) : Edit Loc :=
  guards.foldrM Guard.apply value

/-- The wrapper of a loop. A fragment hands over its children. -/
def wrapSubtree (adapter : Adapter) (subtree call : Loc) (item index : String) : Edit Loc := do
  let children := match ← Edit.node subtree with
    | .fragment children => children
    | _ => [subtree]
  Edit.add (.element {
    tag := "block"
    attributes :=
      [.named adapter.forAttribute (.expression call), .quoted adapter.itemAttribute item,
        .quoted adapter.indexAttribute index, .quoted adapter.keyAttribute keyField]
    children
    selfClosing := false })

def expressionAttribute {α : Type} (value : α) : Attribute α → Attribute α
  | .named name _ => .named name (.expression value)
  | a => a

/-- Makes the loop attribute of a wrapper hold an expression. -/
def bindWrapper (wrapper value : Loc) : Edit Unit := do
  match ← Edit.node wrapper with
  | .element e =>
    Edit.put wrapper (.element
      { e with attributes := e.attributes.modify 0 (expressionAttribute value) })
  | _ => return ()

def returnRecord (callback : Loc) (leading : List Loc) (record : Loc) : Edit Unit := do
  let last ← Edit.add (.returning (some record))
  match ← Edit.node callback with
  | .lambda f => Edit.put callback (.lambda { f with body := .block (leading ++ [last]) })
  | _ => return ()

/-- Carries a nested loop, whose call is `call`, by a numbered field. -/
def attachField (o : Owner) (receiver call wrapper : Loc) : Edit (Binding × Owner) := do
  let (field, draft) := o.draft.pushDynamic .generic receiver call
  bindWrapper wrapper (← Edit.name field)
  return (.field field, { o with draft })

/-- Moves the call of a nested loop into the record of the loop around it, as near to what it goes
over as that allows, and binds the wrapper to it. -/
def attachNested (o : Owner) (c : Candidate) (guards : List Guard) (wrapper : Loc) :
    Edit (Binding × Owner) := do
  let call ← guardedValue guards c.call
  let fallback := attachField o c.receiver call wrapper
  match nestedSource o.scope (← get) c.receiver with
  | .item =>
    match o.draft.mergeItem c.receiver call with
    | some draft =>
      bindWrapper wrapper (← Edit.name o.scope.item)
      return (.itemMerge, { o with draft })
    | none => fallback
  | .itemPath properties =>
    match o.draft.mergePath c.receiver properties call with
    | some draft =>
      bindWrapper wrapper (← Edit.clone c.receiver)
      return (.itemPath (".".intercalate (o.scope.item :: properties)), { o with draft })
    | none => fallback
  | .local name =>
    match o.draft.pushNamed c.receiver name call with
    | some draft =>
      bindWrapper wrapper (← Edit.path o.scope.item [name])
      return (.local name, { o with draft })
    | none => fallback
  | .unrelated => fallback

/-! ### The descent -/

/-- Finishes a loop whose template is lowered: its callback returns the drafted record, and its
wrapper is made and bound. -/
def finishSite (adapter : Adapter) (c : Candidate) (tokens : Tokens) (draft : Draft)
    (guards : List Guard) (parent : Option Owner) : Lower (Loc × Option Owner) := do
  let record ← Lower.edit draft.build
  Lower.edit (returnRecord c.callback c.leading record)
  let wrapper ← Lower.edit (wrapSubtree adapter c.subtree c.call c.itemName tokens.indexName)
  let (binding, parent) ← match parent with
    | some o => do
      let (binding, o) ← Lower.edit (attachNested o c guards wrapper)
      pure (binding, some o)
    | none => pure (.inline, none)
  Lower.record {
    id := tokens.id
    parent := parent.map Owner.id
    itemName := c.itemName
    indexName := tokens.indexName
    keyToken := tokens.keyToken
    source := c.receiver
    mappingCall := c.call
    callback := c.callback
    wrapper
    ownedSubtree := c.subtree
    bodyStatements := c.leading
    schema := draft.schema
    binding }
  return (wrapper, parent)

section

variable (adapter : Adapter) (inside : Loc → List Guard → Option Owner → Lower (Option Owner))

/-- Lowers a loop and gives its wrapper. The markup in the leading statements is lowered first and
belongs to no loop. -/
def lowerSite (c : Candidate) (guards : List Guard) (parent : Option Owner) :
    Lower (Loc × Option Owner) := do
  let tokens ← Lower.allocate
  Lower.edit (c.normalize tokens)
  let s ← Lower.store
  let scope : LoopScope := ⟨c.itemName, tokens.indexName, s.declaredNames c.leading⟩
  (s.markupRoots c.leading).forM fun root => discard (inside root [] none)
  let outer := match parent with
    | some o => o.outer ++ [o.scope]
    | none => []
  let draft : Draft := { item := c.itemName, keyToken := tokens.keyToken }
  let draft := match ← inside c.subtree [] (some ⟨scope, outer, draft, tokens.id⟩) with
    | some o => o.draft
    | none => draft
  finishSite adapter c tokens draft guards parent

/-- Lowers a loop and puts its wrapper in the place of the child `old` of `holder`. -/
def lowerSiteIn (holder old : Loc) (c : Candidate) (guards : List Guard) (owner : Option Owner) :
    Lower (Option Owner) := do
  let (wrapper, owner) ← lowerSite adapter inside c guards owner
  discard (Lower.edit (Edit.replaceChild holder old wrapper))
  return owner

def lowerAttribute (l : Loc) (guards : List Guard) (owner : Option Owner)
    (item : Attribute Loc × Nat) : Lower (Option Owner) := do
  match item.1 with
  | .named name (.expression value) =>
    if (← Lower.store).hasMarkup value then inside value guards owner
    else lowerSpot adapter (some name) value (setMustache l item.2) owner
  | _ => return owner

def lowerChild (holder : Loc) (guards : List Guard) (owner : Option Owner) (child : Loc) :
    Lower (Option Owner) := do
  let s ← Lower.store
  match s.get child with
  | .element _ | .fragment _ => inside child guards owner
  | .container value =>
    match candidate? s value with
    | .ok c => lowerSiteIn adapter inside holder child c guards owner
    | .error reason =>
      if s.hasMarkup value then
        if reason = .notMapCall then inside value guards owner else return owner
      else lowerSpot adapter none value (fun path => Edit.put child (.mustache path)) owner
  | _ => return owner

def lowerOperand (holder operand : Loc) (guards : List Guard) (owner : Option Owner) :
    Lower (Option Owner) := do
  let s ← Lower.store
  match candidate? s operand with
  | .ok c => lowerSiteIn adapter inside holder operand c guards owner
  | .error reason =>
    if reason = .notMapCall && s.hasMarkup operand then inside operand guards owner
    else return owner

/-- Lowers what stands in a node: the attributes and children of markup, or the operands that an
operator can show. -/
def lowerNode (l : Loc) (guards : List Guard) (owner : Option Owner) : Lower (Option Owner) := do
  match (← Lower.store).get l with
  | .element e =>
    let owner ← e.attributes.zipIdx.foldlM (lowerAttribute adapter inside l guards) owner
    e.children.foldlM (lowerChild adapter inside l guards) owner
  | .fragment children => children.foldlM (lowerChild adapter inside l guards) owner
  | .conditional test yes no =>
    let owner ← lowerOperand adapter inside l yes (guards ++ [.whenTrue test]) owner
    lowerOperand adapter inside l no (guards ++ [.whenFalse test]) owner
  | .logical op left right =>
    lowerOperand adapter inside l right (guards ++ [.operand op left]) owner
  | .paren inner => lowerOperand adapter inside l inner guards owner
  | _ => return owner

end

/-- Lowers what hangs at a location, at most `depth` nodes deep. -/
def lowerTo (adapter : Adapter) : Nat → Loc → List Guard → Option Owner → Lower (Option Owner)
  | 0, _, _, owner => return owner
  | depth + 1, l, guards, owner => lowerNode adapter (lowerTo adapter depth) l guards owner

/-- Makes the first site with a wrapper at `source` have it at `target`. -/
def moveWrapper (source target : Loc) (sites : List Site) : List Site :=
  sites.modify (sites.findIdx (·.wrapper = source)) fun site => { site with wrapper := target }

/-- Lowers a loop that is the root itself. Its wrapper takes the place of the call, so that the
root stays where it is. -/
def lowerRootSite (adapter : Adapter) (depth : Nat) (c : Candidate) : Lower Unit := do
  let call ← Lower.edit (Edit.relocate c.call)
  let (wrapper, _) ← lowerSite adapter (lowerTo adapter depth) { c with call } [] none
  Lower.edit do
    let n ← Edit.node wrapper
    Edit.put wrapper (.literal "")
    Edit.put c.call n
  modify fun p => { p with sites := moveWrapper wrapper c.call p.sites }

/-- Lowers all loops below a root, and counts them. The sites end up in the order of their
numbers. -/
def lowerLoops (adapter : Adapter) (root : Loc) : Lower Nat := do
  let p ← get
  match candidate? p.store root with
  | .ok c => lowerRootSite adapter p.store.size c
  | .error _ =>
    if p.store.hasMarkup root then
      discard (lowerTo adapter p.store.size root [] none)
  let sites := (← get).sites.mergeSort fun a b => a.id ≤ b.id
  modify fun p => { p with sites }
  return sites.length - p.sites.length

end JsxLoops.Loop
