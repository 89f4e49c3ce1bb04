import JsxLoops.Loop.Leaf
import JsxLoops.Loop.Site
import JsxLoops.Proofs.Editing
import Mathlib.Algebra.BigOperators.Group.List.Basic

/-!
What a record is made of. While a template is lowered, a log is kept of what uses the record: an
`Event` says which spot of the template or which nested loop it is, and where the record holds the
value for it. A draft that was made by such a log holds what the log says, and building it gives a
tree, `IsRecord`, in which every held value has its place.
-/

namespace JsxLoops.Loop

open JsxLoops.Tree Located

/-! ### Events -/

/-- Where a template shows a value of a record. -/
inductive Spot where
  | text (container : Loc)
  | attribute (holder : Loc) (position : Nat) (name : String)

/-- The attribute that the spot is. -/
def Spot.position : Spot → Option String
  | .text _ => none
  | .attribute _ _ name => some name

/-- The shape of a leaf that stands in a given attribute. -/
def leafOf (adapter : Adapter) (scope : LoopScope) (position : Option String) (v : Located) :
    LeafShape :=
  if adapter.isStylePosition position then .style
  else
    match v.strip.here with
    | .name name =>
      if name == scope.item then .item
      else if name == scope.index then .index
      else .computed
    | _ => .computed

theorem leafOf_eq_style_iff {adapter : Adapter} {scope : LoopScope} {position : Option String}
    {v : Located} :
    leafOf adapter scope position v = .style ↔ adapter.isStylePosition position = true := by
  rw [leafOf]
  split
  · simp_all
  · split
    · split_ifs <;> simp_all
    · simp_all

theorem leafOf_eq_item_iff {adapter : Adapter} {scope : LoopScope} {position : Option String}
    {v : Located} : leafOf adapter scope position v = .item ↔
      adapter.isStylePosition position = false ∧ v.strip.here = .name scope.item := by
  rw [leafOf]
  split
  · simp_all
  · split
    · split_ifs <;> simp_all
    · simp_all

/-- What a nested loop goes over, as seen from the loop around it. -/
def nestedOf (scope : LoopScope) (receiver : Located) : NestedSource :=
  match receiver.staticPath with
  | some (root, properties) =>
    if root == scope.item then
      if properties.isEmpty then .item else .itemPath properties
    else if properties.isEmpty && scope.locals.contains root then .local root
    else .unrelated
  | none => .unrelated

theorem leafShape_eq {adapter : Adapter} {scope : LoopScope} {s : Store} {v : Located}
    (h : s.Shows v) (position : Option String) :
    leafShape adapter scope s position v.loc = leafOf adapter scope position v := by
  rw [leafShape, leafOf, h.stripParens, h.strip.get_loc]
  cases v.strip.here <;> rfl

theorem nestedSource_eq {scope : LoopScope} {s : Store} {receiver : Located}
    (h : s.Shows receiver) : nestedSource scope s receiver.loc = nestedOf scope receiver := by
  rw [nestedSource, h.staticPath]
  rfl

theorem nestedOf_of_staticPath {scope : LoopScope} {receiver : Located} {path : List String}
    (h : receiver.staticPath = some (scope.item, path)) :
    nestedOf scope receiver = if path.isEmpty then .item else .itemPath path := by
  simp [nestedOf, h]

theorem nestedOf_eq_itemPath {scope : LoopScope} {receiver : Located} {path : List String}
    (h : nestedOf scope receiver = .itemPath path) :
    receiver.staticPath = some (scope.item, path) ∧ path ≠ [] := by
  rw [nestedOf] at h
  split at h
  case h_2 => cases h
  case h_1 root properties hpath =>
    split at h
    case isTrue hroot =>
      split at h
      · cases h
      case isFalse hne =>
        obtain rfl := NestedSource.itemPath.inj h
        exact ⟨by rw [hpath, beq_iff_eq.1 hroot], by simpa using hne⟩
    case isFalse => split at h <;> cases h

theorem nestedOf_eq_local {scope : LoopScope} {receiver : Located} {name : String}
    (h : nestedOf scope receiver = .local name) :
    receiver.staticPath = some (name, []) ∧ name ∈ scope.locals := by
  rw [nestedOf] at h
  split at h
  case h_2 => cases h
  case h_1 root properties hpath =>
    split at h
    · split at h <;> cases h
    · split at h
      case isTrue hc =>
        obtain rfl := NestedSource.local.inj h
        simp only [Bool.and_eq_true, List.isEmpty_iff, List.contains_iff_mem] at hc
        exact ⟨by rw [hpath, hc.1], hc.2⟩
      · cases h

/-- What uses a record: a spot of the template, or the wrapper of a nested loop. -/
inductive Use where
  | spot (spot : Spot)
  | loop (wrapper : Loc) (binding : Binding)

inductive Holding where
  /-- It is the item, which needs no place of its own. -/
  | item
  /-- In the place of the item. -/
  | merged
  /-- In the place of a property of the item. -/
  | under (path : List String)
  | field (name : String)

structure Event where
  use : Use
  /-- What the value was taken from. -/
  source : Located
  holding : Holding
  /-- What the record holds. -/
  carrier : Located

namespace Event

def held (e : Event) : List Located :=
  match e.holding with
  | .item => []
  | _ => [e.carrier]

def field? (e : Event) : Option (String × Located) :=
  match e.holding with
  | .field name => some (name, e.carrier)
  | _ => none

end Event

/-! ### Drafts -/

namespace Draft

variable {d d' : Draft} {source value : Loc}

theorem mergeItem_eq_some (h : d.mergeItem source value = some d') : d.itemValue = .raw ∧
    d' = { d.pushSlot .nestedCarrier source d.item with itemValue := .merged value } := by
  rw [mergeItem] at h
  split at h
  · exact ⟨‹_›, (Option.some.inj h).symm⟩
  · cases h

theorem mergePath_eq_some {path : List String} (h : d.mergePath source path value = some d') :
    ∃ entries, (d.itemValue = .raw ∧ entries = [] ∨ d.itemValue = .overridden entries ∧
      ∀ e ∈ entries, overlap e.1 path = false) ∧
    d' = { d.pushSlot .nestedCarrier source d.item with
      itemValue := .overridden (entries ++ [(path, value)]) } := by
  simp only [mergePath] at h
  split at h
  · exact ⟨[], .inl ⟨‹_›, rfl⟩, (Option.some.inj h).symm⟩
  · cases h
  · split at h
    · cases h
    case isFalse hany =>
      refine ⟨_, .inr ⟨‹_›, fun e he => ?_⟩, (Option.some.inj h).symm⟩
      rw [List.any_eq_true] at hany
      exact Bool.eq_false_iff.2 fun ho => hany ⟨e, he, ho⟩

theorem pushNamed_eq_some {name : String} (h : d.pushNamed source name value = some d') :
    (name ≠ d.item ∧ name ≠ keyField ∧ isNumberedField name = false ∧
      ∀ f ∈ d.fields, f.1 ≠ name) ∧
    d' = { d.pushSlot .nestedCarrier source name with fields := d.fields ++ [(name, value)] } := by
  rw [pushNamed] at h
  split at h
  · cases h
  case isFalse hc =>
    simp only [Bool.or_eq_true, not_or, Bool.not_eq_true, List.any_eq_false,
      beq_iff_eq] at hc
    obtain ⟨⟨⟨hitem, hkey⟩, hnumber⟩, hfields⟩ := hc
    exact ⟨⟨hitem, hkey, hnumber, hfields⟩, (Option.some.inj h).symm⟩

/-- The draft has no place for a nested loop over the receiver but a numbered field. -/
def Refuses (d : Draft) (scope : LoopScope) (receiver carrier : Located) : Prop :=
  match nestedOf scope receiver with
  | .item => d.mergeItem receiver.loc carrier.loc = none
  | .itemPath path => d.mergePath receiver.loc path carrier.loc = none
  | .local name => d.pushNamed receiver.loc name carrier.loc = none
  | .unrelated => True

theorem Refuses.staticPath_ne {scope : LoopScope} {receiver carrier : Located}
    (h : d.Refuses scope receiver carrier) (hraw : d.itemValue = .raw) (path : List String) :
    receiver.staticPath ≠ some (scope.item, path) := by
  intro hpath
  rw [Refuses, nestedOf_of_staticPath hpath] at h
  cases path with
  | nil => simp [mergeItem, hraw] at h
  | cons x path => simp [mergePath, hraw] at h

end Draft

/-- The draft `d` becomes `d'` by noting an event. -/
inductive Noted (adapter : Adapter) (scope : LoopScope) (d : Draft) : Event → Draft → Prop
  | item (spot : Spot) (v : Located) (h : leafOf adapter scope spot.position v = .item) :
    Noted adapter scope d ⟨.spot spot, v, .item, v⟩ (d.noteItem v.loc)
  | value (spot : Spot) (v : Located) (shape : LeafShape) (hs : shape = .index ∨ shape = .computed)
    (h : leafOf adapter scope spot.position v = shape) :
    Noted adapter scope d
      ⟨.spot spot, v, .field (d.pushDynamic shape.dependency v.loc v.loc).1, v⟩
      (d.pushDynamic shape.dependency v.loc v.loc).2
  | style (spot : Spot) (v : Located) (call callee : Loc)
    (h : leafOf adapter scope spot.position v = .style) :
    Noted adapter scope d
      ⟨.spot spot, v, .field ("_s" ++ toString d.styleCount),
        .node call (.call (.node callee (.name adapter.createStyle)) [v])⟩
      { d.pushSlot .styleValue v.loc ("_s" ++ toString d.styleCount) with
        fields := d.fields ++ [("_s" ++ toString d.styleCount, call)]
        styleCount := d.styleCount + 1 }
  | merged {d' : Draft} (wrapper : Loc) (receiver carrier : Located)
    (hs : nestedOf scope receiver = .item)
    (h : d.mergeItem receiver.loc carrier.loc = some d') :
    Noted adapter scope d ⟨.loop wrapper .itemMerge, receiver, .merged, carrier⟩ d'
  | under {d' : Draft} (wrapper : Loc) (receiver carrier : Located) (path : List String)
    (hs : nestedOf scope receiver = .itemPath path)
    (h : d.mergePath receiver.loc path carrier.loc = some d') :
    Noted adapter scope d
      ⟨.loop wrapper (.itemPath (".".intercalate (scope.item :: path))), receiver, .under path,
        carrier⟩ d'
  | named {d' : Draft} (wrapper : Loc) (receiver carrier : Located) (name : String)
    (hs : nestedOf scope receiver = .local name)
    (h : d.pushNamed receiver.loc name carrier.loc = some d') :
    Noted adapter scope d ⟨.loop wrapper (.local name), receiver, .field name, carrier⟩ d'
  | field (wrapper : Loc) (receiver carrier : Located)
    (h : d.Refuses scope receiver carrier) :
    Noted adapter scope d
      ⟨.loop wrapper (.field (d.pushDynamic .generic receiver.loc carrier.loc).1), receiver,
        .field (d.pushDynamic .generic receiver.loc carrier.loc).1, carrier⟩
      (d.pushDynamic .generic receiver.loc carrier.loc).2

theorem Noted.staticPath_source {adapter : Adapter} {scope : LoopScope} {d d' : Draft} {e : Event}
    {path : List String} (h : Noted adapter scope d e d') (he : e.holding = .under path) :
    e.source.staticPath = some (scope.item, path) := by
  cases h with
  | under wrapper receiver carrier path' hs =>
    obtain rfl := Holding.under.inj he
    exact (nestedOf_eq_itemPath hs).1
  | _ => cases he

/-- The draft that is there after all events of a log. -/
inductive Logged (adapter : Adapter) (scope : LoopScope) (start : Draft) : List Event → Draft → Prop
  | nil : Logged adapter scope start [] start
  | snoc {log : List Event} {e : Event} {d d' : Draft} (h : Logged adapter scope start log d)
    (he : Noted adapter scope d e d') : Logged adapter scope start (log ++ [e]) d'

/-! ### What a log holds -/

inductive ItemTree where
  | raw
  | merged (carrier : Located)
  | overridden (entries : List (List String × Located))

namespace ItemTree

def entries : ItemTree → List (List String × Located)
  | .overridden entries => entries
  | _ => []

def trees : ItemTree → List Located
  | .raw => []
  | .merged carrier => [carrier]
  | .overridden entries => entries.map Prod.snd

/-- The same value with locations for trees. -/
def value : ItemTree → ItemValue
  | .raw => .raw
  | .merged carrier => .merged carrier.loc
  | .overridden entries => .overridden (entries.map fun e => (e.1, e.2.loc))

def note (i : ItemTree) (e : Event) : ItemTree :=
  match e.holding with
  | .merged => .merged e.carrier
  | .under path => .overridden (i.entries ++ [(path, e.carrier)])
  | _ => i

/-- No path is empty, and none starts with another. -/
structure Apart {α : Type} (entries : List (List String × α)) : Prop where
  nonempty : ∀ e ∈ entries, e.1 ≠ []
  apart : entries.Pairwise fun a b => overlap a.1 b.1 = false

end ItemTree

theorem ItemTree.Apart.snoc {α : Type} {entries : List (List String × α)} {path : List String}
    {x : α} (h : Apart entries) (hpath : path ≠ [])
    (hapart : ∀ e ∈ entries, overlap e.1 path = false) : Apart (entries ++ [(path, x)]) where
  nonempty e he := by
    rcases List.mem_append.1 he with he | he
    · exact h.nonempty e he
    · rwa [List.mem_singleton.1 he]
  apart := by
    refine List.pairwise_append.2 ⟨h.apart, List.pairwise_singleton _ _, fun a ha b hb => ?_⟩
    rw [List.mem_singleton.1 hb]
    exact hapart a ha

def itemOf (log : List Event) : ItemTree := log.foldl ItemTree.note .raw

def fieldsOf (log : List Event) : List (String × Located) := log.filterMap Event.field?

def heldBy (log : List Event) : List Located := log.flatMap Event.held

structure Draft.Holds (d : Draft) (log : List Event) : Prop where
  item : d.itemValue = (itemOf log).value
  fields : d.fields = (fieldsOf log).map fun f => (f.1, f.2.loc)
  apart : ItemTree.Apart (itemOf log).entries
  cells : cellsOf (heldBy log) =
    cellsOf (itemOf log).trees + cellsOf ((fieldsOf log).map Prod.snd)

@[simp] theorem itemOf_append (log : List Event) (e : Event) :
    itemOf (log ++ [e]) = (itemOf log).note e := by
  simp [itemOf]

@[simp] theorem heldBy_append (log more : List Event) :
    heldBy (log ++ more) = heldBy log ++ heldBy more := by
  simp [heldBy]

@[simp] theorem fieldsOf_append (log more : List Event) :
    fieldsOf (log ++ more) = fieldsOf log ++ fieldsOf more := by
  simp [fieldsOf]

theorem ItemTree.value_eq_raw {i : ItemTree} (h : i.value = .raw) : i = .raw := by
  cases i <;> simp_all [ItemTree.value]

theorem ItemTree.value_eq_overridden {i : ItemTree} {entries : List (List String × Loc)}
    (h : i.value = .overridden entries) :
    ∃ es, i = .overridden es ∧ entries = es.map fun e => (e.1, e.2.loc) := by
  cases i with
  | overridden es => exact ⟨es, rfl, (ItemValue.overridden.inj h).symm⟩
  | _ => simp [ItemTree.value] at h

theorem Draft.Holds.field {d d' : Draft} {log : List Event} {e : Event} {name : String}
    (h : d.Holds log) (he : e.holding = .field name) (hitem : d'.itemValue = d.itemValue)
    (hfields : d'.fields = d.fields ++ [(name, e.carrier.loc)]) : d'.Holds (log ++ [e]) where
  item := by rw [hitem, h.item, itemOf_append, ItemTree.note, he]
  fields := by simp [hfields, h.fields, fieldsOf, Event.field?, he]
  apart := by
    rw [itemOf_append, ItemTree.note, he]
    exact h.apart
  cells := by
    have hn : (itemOf log).note e = itemOf log := by rw [ItemTree.note, he]
    have hheld : heldBy [e] = [e.carrier] := by simp [heldBy, Event.held, he]
    have hf : fieldsOf [e] = [(name, e.carrier)] := by simp [fieldsOf, Event.field?, he]
    rw [heldBy_append, fieldsOf_append, itemOf_append, hn, hheld, hf]
    simp only [cellsOf_append, cellsOf_cons, cellsOf_nil, List.map_append, List.map_cons,
      List.map_nil, h.cells]
    abel

theorem Draft.Holds.change {d d' : Draft} {log : List Event} {e : Event} (h : d.Holds log)
    (hheld : e.held = [e.carrier]) (hfield : e.field? = none)
    (hitem : d'.itemValue = ((itemOf log).note e).value) (hfields : d'.fields = d.fields)
    (hapart : ItemTree.Apart ((itemOf log).note e).entries)
    (htrees : ((itemOf log).note e).trees = (itemOf log).trees ++ [e.carrier]) :
    d'.Holds (log ++ [e]) where
  item := by rw [hitem, itemOf_append]
  fields := by simp [hfields, h.fields, fieldsOf, hfield]
  apart := by rwa [itemOf_append]
  cells := by
    have hheld : heldBy [e] = [e.carrier] := by simp [heldBy, hheld]
    have hf : fieldsOf [e] = [] := by simp [fieldsOf, hfield]
    rw [heldBy_append, fieldsOf_append, itemOf_append, hheld, hf, htrees]
    simp only [cellsOf_append, cellsOf_cons, cellsOf_nil, List.append_nil, h.cells]
    abel

theorem Noted.holds {adapter : Adapter} {scope : LoopScope} {d d' : Draft} {log : List Event}
    {e : Event} (he : Noted adapter scope d e d') (h : d.Holds log) : d'.Holds (log ++ [e]) := by
  cases he with
  | item spot v =>
    have hn : (itemOf log).note ⟨.spot spot, v, .item, v⟩ = itemOf log := rfl
    have hheld : heldBy [⟨.spot spot, v, .item, v⟩] = [] := rfl
    have hf : fieldsOf [⟨.spot spot, v, .item, v⟩] = [] := rfl
    have hsame : (d.noteItem v.loc).itemValue = d.itemValue ∧
        (d.noteItem v.loc).fields = d.fields := by
      rw [Draft.noteItem]
      split <;> exact ⟨rfl, rfl⟩
    refine ⟨?_, ?_, ?_, ?_⟩
    · rw [hsame.1, h.item, itemOf_append, hn]
    · rw [hsame.2, h.fields, fieldsOf_append, hf, List.append_nil]
    · rw [itemOf_append, hn]
      exact h.apart
    · rw [itemOf_append, hn, heldBy_append, fieldsOf_append, hheld, hf, List.append_nil,
        List.append_nil]
      exact h.cells
  | value spot v shape hs hshape => exact h.field rfl rfl rfl
  | style spot v call callee => exact h.field rfl rfl rfl
  | field wrapper receiver carrier => exact h.field rfl rfl rfl
  | named wrapper receiver carrier name hs hd =>
    obtain ⟨-, rfl⟩ := Draft.pushNamed_eq_some hd
    exact h.field rfl rfl rfl
  | merged wrapper receiver carrier hs hd =>
    obtain ⟨hraw, rfl⟩ := Draft.mergeItem_eq_some hd
    have hi : itemOf log = .raw := ItemTree.value_eq_raw (h.item ▸ hraw)
    exact h.change rfl rfl rfl rfl ⟨by simp [ItemTree.note, ItemTree.entries],
      by simp [ItemTree.note, ItemTree.entries]⟩ (by simp [hi, ItemTree.note, ItemTree.trees])
  | under wrapper receiver carrier path hs hd =>
    obtain ⟨-, hpath⟩ := nestedOf_eq_itemPath hs
    obtain ⟨entries, ⟨hraw, rfl⟩ | ⟨hover, hapart⟩, rfl⟩ := Draft.mergePath_eq_some hd
    · have hi : itemOf log = .raw := ItemTree.value_eq_raw (h.item ▸ hraw)
      exact h.change rfl rfl (by simp [hi, ItemTree.note, ItemTree.entries, ItemTree.value]) rfl
        ⟨by simp [hi, ItemTree.note, ItemTree.entries, hpath],
          by simp [hi, ItemTree.note, ItemTree.entries]⟩
        (by simp [hi, ItemTree.note, ItemTree.entries, ItemTree.trees])
    · obtain ⟨es, hi, rfl⟩ := ItemTree.value_eq_overridden (h.item ▸ hover)
      have ha : ItemTree.Apart es := by simpa [hi, ItemTree.entries] using h.apart
      refine h.change rfl rfl (by simp [hi, ItemTree.note, ItemTree.entries, ItemTree.value]) rfl
        ?_ (by simp [hi, ItemTree.note, ItemTree.entries, ItemTree.trees])
      simp only [hi, ItemTree.note, ItemTree.entries]
      exact ha.snoc hpath fun e he => hapart (e.1, e.2.loc) (List.mem_map_of_mem he)

theorem Logged.holds {adapter : Adapter} {scope : LoopScope} {item keyToken : String}
    {log : List Event} {d : Draft} (h : Logged adapter scope { item, keyToken } log d) :
    d.Holds log := by
  induction h with
  | nil => exact ⟨rfl, rfl, ⟨by simp [itemOf, ItemTree.entries], by
    simp [itemOf, ItemTree.entries]⟩,
      by simp [heldBy, itemOf, fieldsOf, ItemTree.trees]⟩
  | snoc _ he ih => exact he.holds ih

/-! ### Building -/

/-- The tree has the carriers at the end of their paths from `base`, and copies what is on the
way. -/
inductive Overrides : List String → List (List String × Located) → Located → Prop
  | carrier (base : List String) (t : Located) : Overrides base [([], t)] t
  | copy {base : List String} {entries : List (List String × Located)} {whole : Located}
    {fields : List (String × Located)} (l : Loc) (hpaths : ∀ e ∈ entries, e.1 ≠ [])
    (hwhole : IsPath (base.headD "") base.tail whole)
    (hnames : fields.map Prod.fst = pathHeads entries)
    (hfields : ∀ f ∈ fields, Overrides (base ++ [f.1]) (pathsUnder f.1 entries) f.2) :
    Overrides base entries
      (.node l (.object (.spread whole :: fields.map fun f => .field f.1 f.2)))

/-- The tree is the value under the item's name. -/
inductive IsItem (item : String) : ItemTree → Located → Prop
  | raw (l : Loc) : IsItem item .raw (.node l (.name item))
  | merged (carrier : Located) : IsItem item (.merged carrier) carrier
  | overridden {entries : List (List String × Located)} {t : Located}
    (h : Overrides [item] entries t) : IsItem item (.overridden entries) t

inductive IsRecord (item keyToken : String) (log : List Event) : Located → Prop
  | intro {v : Located} (l key : Loc) (h : IsItem item (itemOf log) v) :
    IsRecord item keyToken log (.node l (.object (.field item v ::
      .field keyField (.node key (.name keyToken)) ::
      (fieldsOf log).map fun f => .field f.1 f.2)))

theorem pathHeads_map {α β : Type} (f : α → β) (entries : List (List String × α)) :
    pathHeads (entries.map fun e => (e.1, f e.2)) = pathHeads entries := by
  simp [pathHeads, List.filterMap_map]

theorem pathsUnder_map {α β : Type} (f : α → β) (head : String)
    (entries : List (List String × α)) :
    pathsUnder head (entries.map fun e => (e.1, f e.2)) =
      (pathsUnder head entries).map fun e => (e.1, f e.2) := by
  rw [pathsUnder, pathsUnder, List.filterMap_map, List.map_filterMap]
  refine List.filterMap_congr fun e _ => ?_
  obtain ⟨_ | ⟨first, path⟩, x⟩ := e
  · rfl
  · simp only [Function.comp]
    split <;> rfl

theorem mem_pathsUnder {α : Type} {head : String} {entries : List (List String × α)}
    {e : List String × α} : e ∈ pathsUnder head entries ↔ (head :: e.1, e.2) ∈ entries := by
  rw [pathsUnder, List.mem_filterMap]
  constructor
  · rintro ⟨⟨_ | ⟨first, path⟩, x⟩, hx, he⟩
    · cases he
    · simp only [beq_iff_eq] at he
      split at he
      case isTrue hf =>
        subst hf
        obtain rfl := Option.some.inj he
        exact hx
      case isFalse => cases he
  · intro h
    exact ⟨_, h, by simp⟩

theorem mem_pathHeads {α : Type} {head : String} {entries : List (List String × α)} :
    head ∈ pathHeads entries ↔ ∃ path x, (head :: path, x) ∈ entries := by
  rw [pathHeads, List.mem_eraseDups, List.mem_filterMap]
  constructor
  · rintro ⟨⟨_ | ⟨first, path⟩, x⟩, hx, he⟩
    · cases he
    · obtain rfl := Option.some.inj he
      exact ⟨path, x, hx⟩
  · rintro ⟨path, x, hx⟩
    exact ⟨_, hx, rfl⟩

theorem nodup_pathHeads {α : Type} (entries : List (List String × α)) :
    (pathHeads entries).Nodup := by
  suffices list : ∀ (k : Nat) (xs : List String), xs.length ≤ k → xs.eraseDups.Nodup from
    list _ _ le_rfl
  intro k
  induction k with
  | zero =>
    intro xs hk
    rw [List.length_eq_zero_iff.1 (Nat.le_zero.1 hk)]
    simp
  | succ k ih =>
    intro xs hk
    cases xs with
    | nil => simp
    | cons x xs =>
      rw [List.eraseDups_cons, List.nodup_cons, List.mem_eraseDups]
      refine ⟨by simp, ih _ ?_⟩
      have := List.length_filter_le (fun b => !b == x) xs
      rw [List.length_cons] at hk
      omega

theorem overlap_cons (x : String) (p q : List String) :
    overlap (x :: p) (x :: q) = overlap p q := by
  simp [overlap]

theorem overlap_nil_left (q : List String) : overlap [] q = true := by
  simp [overlap]

theorem overlap_nil_right (p : List String) : overlap p [] = true := by
  simp [overlap]

theorem ItemTree.Apart.under {α : Type} {entries : List (List String × α)} (h : Apart entries)
    (head : String) :
    (∃ t, pathsUnder head entries = [([], t)]) ∨ Apart (pathsUnder head entries) := by
  have hp : (pathsUnder head entries).Pairwise fun a b => overlap a.1 b.1 = false := by
    rw [pathsUnder, List.pairwise_filterMap]
    refine h.apart.imp fun {a b} hab x hx y hy => ?_
    obtain ⟨_ | ⟨first, p⟩, t⟩ := a
    · cases hx
    · obtain ⟨_ | ⟨first', q⟩, u⟩ := b
      · cases hy
      · simp only [beq_iff_eq, Option.ite_none_right_eq_some, Option.some.injEq] at hx hy
        obtain ⟨rfl, rfl⟩ := hx
        obtain ⟨rfl, rfl⟩ := hy
        rwa [overlap_cons] at hab
  generalize pathsUnder head entries = es at hp
  by_cases hne : ∀ e ∈ es, e.1 ≠ []
  · exact .inr ⟨hne, hp⟩
  · left
    simp only [not_forall, not_not] at hne
    obtain ⟨⟨path, t⟩, he, rfl⟩ := hne
    obtain _ | ⟨a, _ | ⟨b, es⟩⟩ := es
    · cases he
    · exact ⟨t, by rw [List.mem_singleton.1 he]⟩
    · have hap := List.pairwise_cons.1 hp
      rcases List.mem_cons.1 he with rfl | he
      · exact absurd (hap.1 b List.mem_cons_self) (by simp [overlap_nil_left])
      · exact absurd (hap.1 _ he) (by simp [overlap_nil_right])

theorem pathsUnder_perm {α : Type} {heads : List String} (hn : heads.Nodup)
    {entries : List (List String × α)}
    (h : ∀ e ∈ entries, ∃ x ∈ heads, ∃ path, e.1 = x :: path) :
    (heads.flatMap fun x => (pathsUnder x entries).map Prod.snd).Perm (entries.map Prod.snd) := by
  induction entries with
  | nil =>
    have hnil : (heads.flatMap fun x => (pathsUnder x ([] : List (List String × α))).map Prod.snd) =
        [] := List.flatMap_eq_nil_iff.2 fun _ _ => rfl
    rw [hnil]
    exact .nil
  | cons e entries ih =>
    obtain ⟨y, hy, path, he⟩ := h e List.mem_cons_self
    have hunder (x : String) : (pathsUnder x (e :: entries)).map Prod.snd =
        (if x = y then [e.2] else []) ++ (pathsUnder x entries).map Prod.snd := by
      by_cases hxy : x = y
      · simp [pathsUnder, he, hxy]
      · simp [pathsUnder, he, hxy, Ne.symm hxy]
    have hone : (heads.flatMap fun x => if x = y then [e.2] else []) = [e.2] := by
      obtain ⟨before, after, rfl⟩ := List.append_of_mem hy
      have hapart : ∀ x ∈ before ++ after, x ≠ y := fun x hx hxy =>
        (List.nodup_cons.1 (List.nodup_middle.1 hn)).1 (hxy ▸ hx)
      have hnone (xs : List String) (hxs : ∀ x ∈ xs, x ≠ y) :
          (xs.flatMap fun x => if x = y then [e.2] else []) = [] :=
        List.flatMap_eq_nil_iff.2 fun x hx => if_neg (hxs x hx)
      rw [List.flatMap_append, List.flatMap_cons, if_pos rfl,
        hnone before fun x hx => hapart x (List.mem_append_left after hx),
        hnone after fun x hx => hapart x (List.mem_append_right before hx)]
      rfl
    simp only [hunder]
    refine (List.flatMap_append_perm heads _ _).symm.trans ?_
    rw [hone, List.map_cons]
    exact (ih fun x hx => h x (List.mem_cons_of_mem e hx)).cons e.2

theorem pathHeads_perm {α : Type} {entries : List (List String × α)}
    (h : ∀ e ∈ entries, e.1 ≠ []) :
    ((pathHeads entries).flatMap fun x => (pathsUnder x entries).map Prod.snd).Perm
      (entries.map Prod.snd) :=
  pathsUnder_perm (nodup_pathHeads entries) fun e he => by
    obtain ⟨x, path, hx⟩ := List.exists_cons_of_ne_nil (h e he)
    exact ⟨x, mem_pathHeads.2 ⟨path, e.2, hx ▸ he⟩, path, hx⟩

/-- The value that stands under the first property `head` of some paths. -/
def overrideAt (depth : Nat) (base : List String) (entries : List (List String × Loc))
    (head : String) : Edit Loc :=
  match pathsUnder head entries with
  | [([], call)] => pure call
  | under => overrideTo depth (base ++ [head]) under

theorem overrideTo_succ (d : Nat) (base : List String) (entries : List (List String × Loc)) :
    overrideTo (d + 1) base entries = (do
      let whole ← Edit.path (base.headD "") base.tail
      let fields ← (pathHeads entries).mapM fun x => do
        return Entry.field x (← overrideAt d base entries x)
      Edit.add (.object (.spread whole :: fields))) := by
  rw [overrideTo]
  congr 1
  funext whole
  congr 2
  funext x
  rw [overrideAt]
  generalize pathsUnder x entries = under
  obtain _ | ⟨⟨_ | ⟨_, _⟩, _⟩, _ | ⟨_, _⟩⟩ := under <;> rfl

theorem Gives.overrideFields {d : Nat} {base heads : List String}
    {entries : List (List String × Located)} {locs : List (List String × Loc)} {s : Store}
    {rest : Multiset Cell}
    (h : s.Owns (cellsOf (heads.flatMap fun x => (pathsUnder x entries).map Prod.snd) + rest))
    (hstep : ∀ x ∈ heads, ∀ {s : Store} {rest : Multiset Cell},
      s.Owns (cellsOf ((pathsUnder x entries).map Prod.snd) + rest) →
      Gives (overrideAt d base locs x) s rest (Overrides (base ++ [x]) (pathsUnder x entries))) :
    ∃ (fields : List (String × Located)) (s' : Store),
      Runs (heads.mapM fun x => do return Entry.field x (← overrideAt d base locs x)) s
        (fields.map fun f => Entry.field f.1 f.2.loc) s' ∧ s.size ≤ s'.size ∧
      s'.Owns (cellsOf (fields.map Prod.snd) + rest) ∧ fields.map Prod.fst = heads ∧
      ∀ f ∈ fields, Overrides (base ++ [f.1]) (pathsUnder f.1 entries) f.2 := by
  induction heads generalizing s rest with
  | nil => exact ⟨[], s, .pure _ s, le_rfl, by simpa using h, rfl, by simp⟩
  | cons x heads ih =>
    simp only [List.flatMap_cons, cellsOf_append] at h
    obtain ⟨t, s', hrun, hle, hown, ht⟩ := hstep x List.mem_cons_self (h.congr (add_assoc _ _ _))
    obtain ⟨fields, s'', hruns, hle', hown', hnames, hfields⟩ := ih
      (hown.congr (show _ = _ + (t.cells + rest) by abel))
      (fun y hy => hstep y (List.mem_cons_of_mem x hy))
    refine ⟨(x, t) :: fields, s'', ?_, hle.trans hle', hown'.congr ?_, by simp [hnames], ?_⟩
    · rw [List.mapM_cons]
      refine Runs.bind (hrun.bind (.pure (Entry.field x t.loc) s')) ?_
      exact hruns.bind (.pure _ _)
    · simp only [List.map_cons, cellsOf_cons]
      abel
    · intro f hf
      rcases List.mem_cons.1 hf with rfl | hf
      · exact ht
      · exact hfields f hf

theorem Gives.overrideCopy {d : Nat} {base : List String} {entries : List (List String × Located)}
    {s : Store} {rest : Multiset Cell} (hpaths : ∀ e ∈ entries, e.1 ≠ [])
    (h : s.Owns (cellsOf (entries.map Prod.snd) + rest))
    (hstep : ∀ x ∈ pathHeads entries, ∀ {s : Store} {rest : Multiset Cell},
      s.Owns (cellsOf ((pathsUnder x entries).map Prod.snd) + rest) →
      Gives (overrideAt d base (entries.map fun e => (e.1, e.2.loc)) x) s rest
        (Overrides (base ++ [x]) (pathsUnder x entries))) :
    Gives (overrideTo (d + 1) base (entries.map fun e => (e.1, e.2.loc))) s rest
      (Overrides base entries) := by
  have hcells : cellsOf ((pathHeads entries).flatMap fun x => (pathsUnder x entries).map Prod.snd) =
      cellsOf (entries.map Prod.snd) :=
    ((pathHeads_perm hpaths).map cells).sum_eq
  obtain ⟨whole, s₁, hrun₁, hle₁, hown₁, hwhole⟩ := Gives.path (base.headD "") base.tail h
  rw [← hcells, ← add_assoc, add_comm whole.cells, add_assoc] at hown₁
  obtain ⟨fields, s₂, hrun₂, hle₂, hown₂, hnames, hfields⟩ := Gives.overrideFields hown₁ hstep
  let n : Node Located := .object (.spread whole :: fields.map fun f => .field f.1 f.2)
  have hkids : n.children = whole :: fields.map Prod.snd := by
    simp [n, Node.children, List.flatMap_map, ← List.map_eq_flatMap]
  have hn : n.map loc = .object (.spread whole.loc :: fields.map fun f => .field f.1 f.2.loc) := by
    simp [n, Node.map, Entry.map, Entry.field, Key.map]
  obtain ⟨t, s₃, hrun₃, hle₃, hown₃, ht, -⟩ := Gives.add n (hown₂.congr
    (show _ = cellsOf n.children + rest by rw [hkids, cellsOf_cons]; abel))
  refine ⟨t, s₃, ?_, hle₁.trans (hle₂.trans hle₃), hown₃, ?_⟩
  · rw [overrideTo_succ, pathHeads_map]
    rw [hn] at hrun₃
    exact hrun₁.bind (hrun₂.bind hrun₃)
  · rw [← eta t, ht]
    exact .copy t.loc hpaths hwhole hnames hfields

theorem Gives.overrideTo {d : Nat} {base : List String} {entries : List (List String × Located)}
    {s : Store} {rest : Multiset Cell} (ha : ItemTree.Apart entries)
    (hd : ∀ e ∈ entries, e.1.length ≤ d)
    (h : s.Owns (cellsOf (entries.map Prod.snd) + rest)) :
    Gives (overrideTo (d + 1) base (entries.map fun e => (e.1, e.2.loc))) s rest
      (Overrides base entries) := by
  induction d generalizing base entries s rest with
  | zero =>
    refine Gives.overrideCopy ha.nonempty h fun x hx => ?_
    obtain ⟨path, t, hm⟩ := mem_pathHeads.1 hx
    exact absurd (hd _ hm) (by simp)
  | succ d ih =>
    refine Gives.overrideCopy ha.nonempty h fun x hx s rest hs => ?_
    rw [overrideAt, pathsUnder_map]
    rcases ha.under x with ⟨t, ht⟩ | hunder
    · rw [ht] at hs ⊢
      exact .pure (by simpa using hs) (.carrier _ t)
    · have hlen : ∀ e ∈ pathsUnder x entries, e.1.length ≤ d := fun e he => by
        simpa using hd _ (mem_pathsUnder.1 he)
      split
      case h_1 call he =>
        obtain ⟨e, hmem, hpath⟩ : ∃ e ∈ pathsUnder x entries, e.1 = [] := by
          obtain ⟨e, hone, hcall⟩ := List.map_eq_singleton_iff.1 he
          exact ⟨e, by simp [hone], congrArg Prod.fst hcall⟩
        exact absurd hpath (hunder.nonempty e hmem)
      case h_2 => exact ih hunder hlen hs

theorem le_foldl_max {xs : List Nat} {m x : Nat} (h : x ≤ m ∨ x ∈ xs) : x ≤ xs.foldl max m := by
  induction xs generalizing m with
  | nil => simpa using h
  | cons y xs ih =>
    refine ih ?_
    rcases h with h | h
    · exact .inl (h.trans (le_max_left m y))
    · rcases List.mem_cons.1 h with rfl | h
      · exact .inl (le_max_right m x)
      · exact .inr h

theorem Gives.buildItem {adapter : Adapter} {scope : LoopScope} {item keyToken : String}
    {log : List Event} {d : Draft} {s : Store} {rest : Multiset Cell}
    (hd : Logged adapter scope { item, keyToken } log d)
    (hitem : d.item = item) (h : s.Owns (cellsOf (itemOf log).trees + rest)) :
    Gives d.buildItem s rest (IsItem item (itemOf log)) := by
  have hholds := hd.holds
  rw [Draft.buildItem, hholds.item, hitem]
  have hapart := hholds.apart
  cases hi : itemOf log with
  | raw =>
    rw [hi] at h
    refine (Gives.name item (by simpa [ItemTree.trees] using h)).mono fun t ht => ?_
    rw [← eta t, ht]
    exact .raw t.loc
  | merged carrier =>
    rw [hi] at h
    exact .pure (by simpa [ItemTree.trees] using h) (.merged carrier)
  | overridden entries =>
    rw [hi] at h hapart
    refine (Gives.overrideTo hapart (fun e he => ?_) h).mono fun t ht => .overridden ht
    rw [List.map_map]
    exact le_foldl_max (.inr (List.mem_map_of_mem (f := fun e => e.1.length) he))

theorem Noted.names {adapter : Adapter} {scope : LoopScope} {d d' : Draft} {e : Event}
    (he : Noted adapter scope d e d') : d'.item = d.item ∧ d'.keyToken = d.keyToken := by
  cases he with
  | item spot v =>
    rw [Draft.noteItem]
    split <;> exact ⟨rfl, rfl⟩
  | merged wrapper receiver carrier hs hd =>
    obtain ⟨-, rfl⟩ := Draft.mergeItem_eq_some hd
    exact ⟨rfl, rfl⟩
  | under wrapper receiver carrier path hs hd =>
    obtain ⟨entries, -, rfl⟩ := Draft.mergePath_eq_some hd
    exact ⟨rfl, rfl⟩
  | named wrapper receiver carrier name hs hd =>
    obtain ⟨-, rfl⟩ := Draft.pushNamed_eq_some hd
    exact ⟨rfl, rfl⟩
  | _ => exact ⟨rfl, rfl⟩

theorem Logged.names {adapter : Adapter} {scope : LoopScope} {start d : Draft} {log : List Event}
    (h : Logged adapter scope start log d) : d.item = start.item ∧ d.keyToken = start.keyToken := by
  induction h with
  | nil => exact ⟨rfl, rfl⟩
  | snoc _ he ih => exact ⟨he.names.1.trans ih.1, he.names.2.trans ih.2⟩

theorem Gives.build {adapter : Adapter} {scope : LoopScope} {item keyToken : String}
    {log : List Event} {d : Draft} {s : Store} {rest : Multiset Cell}
    (hd : Logged adapter scope { item, keyToken } log d)
    (h : s.Owns (cellsOf (heldBy log) + rest)) :
    Gives d.build s rest (IsRecord item keyToken log) := by
  obtain ⟨hitem, hkey⟩ := hd.names
  have hholds := hd.holds
  rw [hholds.cells, add_assoc] at h
  obtain ⟨v, s₁, hrun₁, hle₁, hown₁, hv⟩ := Gives.buildItem hd hitem h
  obtain ⟨k, s₂, hrun₂, hle₂, hown₂, hk⟩ := Gives.name keyToken hown₁
  let n : Node Located := .object (.field item v :: .field keyField k ::
    (fieldsOf log).map fun f => .field f.1 f.2)
  have hkids : n.children = v :: k :: (fieldsOf log).map Prod.snd := by
    simp [n, Node.children, List.flatMap_map, ← List.map_eq_flatMap]
  have hn : n.map loc = .object (.field d.item v.loc :: .field keyField k.loc ::
      d.fields.map fun f => .field f.1 f.2) := by
    simp [n, Node.map, Entry.map, Entry.field, Key.map, hholds.fields, hitem]
  obtain ⟨t, s₃, hrun₃, hle₃, hown₃, ht, -⟩ := Gives.add n (hown₂.congr
    (show _ = cellsOf n.children + rest by rw [hkids]; simp only [cellsOf_cons]; abel))
  refine ⟨t, s₃, ?_, hle₁.trans (hle₂.trans hle₃), hown₃, ?_⟩
  · rw [hn] at hrun₃
    have hrun₂ : Runs (Edit.name d.keyToken) s₁ k.loc s₂ := by rwa [hkey]
    exact hrun₁.bind (hrun₂.bind hrun₃)
  · have hke : k = .node k.loc (.name keyToken) := by rw [← hk, eta]
    rw [← eta t, ht]
    simp only [n]
    rw [hke]
    exact .intro t.loc k.loc hv

end JsxLoops.Loop
