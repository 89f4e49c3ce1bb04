import JsxLoops.Proofs.Loops

/-!
What the templates of loops show. A run that starts on a tree without mustaches makes every one of
them by an event in the log of a loop, and shows every event of that log: a mustache at its spot, or
the wrapper of a nested loop. Between the wrapper of the loop and what is shown there are only nodes
that were there before, so no other wrapper stands between.
-/

namespace JsxLoops.Tree

variable {α β : Type}

def Attribute.isMustache : Attribute α → Bool
  | .named _ (.mustache _) => true
  | _ => false

/-- Whether the node itself shows a path, as a text or in an attribute. -/
def Node.hasMustache : Node α → Bool
  | .mustache _ => true
  | .element e => e.attributes.any Attribute.isMustache
  | _ => false

@[simp] theorem Node.hasMustache_map (f : α → β) (n : Node α) :
    (n.map f).hasMustache = n.hasMustache := by
  cases n with
  | element e =>
    have hattribute (a : Attribute α) : (a.map f).isMustache = a.isMustache := by
      rcases a with ⟨_, _ | _ | _ | _⟩ | _ <;> rfl
    simp [Node.map, Node.hasMustache, List.any_map, Function.comp_def, hattribute]
  | _ => rfl

@[simp] theorem Node.hasMustache_renameHere (a b : String) (n : Node α) :
    (n.renameHere a b).hasMustache = n.hasMustache := by
  cases n <;> rfl

end JsxLoops.Tree

namespace JsxLoops.Loop

open JsxLoops.Tree Located

variable {adapter : Adapter} {start : Nat} {gs : List Premise} {ps ps' : List Part}
  {σ σ' : Stage adapter}

/-! ### Trees before a run -/

def Clean (t : Located) : Prop := ∀ u, Occurs u t → u.here.hasMustache = false

/-- The tree as it was before the run: it stands below `start` and shows no path. -/
def Pristine (start : Nat) (t : Located) : Prop :=
  Clean t ∧ ∀ u, Occurs u t → u.loc.index < start

theorem Clean.occurs {t u : Located} (h : Clean t) (hu : Occurs u t) : Clean u :=
  fun v hv => h v (hv.trans hu)

theorem Clean.node {l : Loc} {n : Node Located} (hn : n.hasMustache = false)
    (h : ∀ c ∈ n.children, Clean c) : Clean (.node l n) := by
  intro u hu
  cases hu with
  | self => exact hn
  | child hc hu => exact h _ hc u hu

theorem hasMustache_renameFree (a b : String) (t : Located) :
    (t.renameFree a b).here.hasMustache = t.here.hasMustache := by
  obtain ⟨l, n⟩ := t
  rw [renameFree_node]
  split
  · rfl
  · rw [here_node, Node.hasMustache_renameHere, Node.hasMustache_map, here_node]

theorem Clean.of_erase_eq {t u : Located} (h : Clean t) (he : u.erase = t.erase) : Clean u := by
  induction t using Located.induct generalizing u with
  | node l n ih =>
    obtain ⟨l', n'⟩ := u
    rw [erase_node, erase_node, Subtree.node.injEq] at he
    refine .node ?_ fun c hc => ?_
    · rw [← Node.hasMustache_map erase, he, Node.hasMustache_map]
      exact h _ .self
    · have hkids : n'.children.map erase = n.children.map erase := by
        rw [← Node.children_map, ← Node.children_map, he]
      have hmem : c.erase ∈ n.children.map erase := hkids ▸ List.mem_map_of_mem hc
      obtain ⟨d, hd, hcd⟩ := List.mem_map.1 hmem
      exact ih d hd (h.occurs (.of_mem (t := .node l n) hd)) hcd.symm

namespace Pristine

variable {t u : Located}

theorem occurs (h : Pristine start t) (hu : Occurs u t) : Pristine start u :=
  ⟨h.1.occurs hu, fun v hv => h.2 v (hv.trans hu)⟩

theorem child (h : Pristine start t) (hu : u ∈ t.here.children) : Pristine start u :=
  h.occurs (.of_mem hu)

theorem renamed (h : Pristine start t) (m : Mapping) (tokens : Tokens) :
    Pristine start (m.renamed tokens t) := by
  rw [Mapping.renamed]
  split
  case h_2 => exact h
  case h_1 index _ =>
    have hsource {u : Located} (hu : Occurs u (t.renameFree index tokens.indexName)) :
        ∃ v, Occurs v t ∧ u.loc = v.loc ∧ u.here.hasMustache = v.here.hasMustache := by
      obtain ⟨v, hv, rfl | rfl⟩ := occurs_renameFree hu
      · exact ⟨u, hv, rfl, rfl⟩
      · exact ⟨v, hv, loc_renameFree _ _ v, hasMustache_renameFree _ _ v⟩
    refine ⟨fun u hu => ?_, fun u hu => ?_⟩
    · obtain ⟨v, hv, -, hm⟩ := hsource hu
      exact hm.trans (h.1 v hv)
    · obtain ⟨v, hv, hl, -⟩ := hsource hu
      rw [hl]
      exact h.2 v hv

end Pristine

/-- The part is made of trees as they were before the run. -/
def Part.Pristine (start : Nat) : Part → Prop
  | .node t | .child t | .statement t => Loop.Pristine start t
  | .operand under t => Loop.Pristine start t ∧ ∀ g ∈ under, Loop.Pristine start g.tree
  | .attribute _ _ a => a.isMustache = false ∧ ∀ c ∈ a.children, Loop.Pristine start c
  | .loop m => Loop.Pristine start m.callee ∧ (∀ t ∈ m.leading, Loop.Pristine start t) ∧
      Loop.Pristine start m.subtree
  | .wrapper _ => False

namespace Pristine

theorem parts {l : Loc} {n : Node Located} (h : Pristine start (.node l n)) :
    ∀ p ∈ partsOf l n, p.Pristine start := by
  intro p hp
  cases partOf_of_mem hp with
  | @valued e i a hn ha =>
    subst hn
    have hattributes : e.attributes.any Attribute.isMustache = false := h.1 _ .self
    have hmem := List.mem_of_getElem? ha
    refine ⟨Bool.eq_false_iff.2 (List.any_eq_false.1 hattributes a hmem), fun c hc => ?_⟩
    exact h.child (List.mem_append_left _ (List.mem_flatMap.2 ⟨a, hmem, hc⟩))
  | child _ hc => exact h.child hc
  | operand _ hc hunder => exact ⟨h.child hc, fun g hg => h.child (hunder g hg)⟩

theorem holding {place : Place} {v : Located} (h : (place.holding v).Pristine start) :
    Pristine start v ∧ ∀ g ∈ place.premises, Pristine start g.tree := by
  rcases place with (c | _) | _
  · exact ⟨Pristine.child h (List.mem_singleton_self v), by simp [Place.premises]⟩
  · exact ⟨h.2 v (List.mem_singleton_self v), by simp [Place.premises]⟩
  · exact h

theorem loop {parens : List Loc} {m : Mapping} (h : Pristine start (inParens parens m.tree)) :
    (Part.loop m).Pristine start := by
  have hm : Pristine start m.tree := h.occurs (occurs_inParens _ _)
  exact ⟨hm.child List.mem_cons_self, fun t ht => hm.occurs (m.occurs_leading ht),
    hm.occurs m.occurs_subtree⟩

end Pristine

/-! ### Mustaches and events -/

inductive Shown : Located → Spot → String → Prop
  | text (l : Loc) (path : String) : Shown (.node l (.mustache path)) (.text l) path
  | named {l : Loc} {e : Element Located} {i : Nat} {name path : String}
    (h : e.attributes[i]? = some (.named name (.mustache path))) :
    Shown (.node l (.element e)) (.attribute l i name) path

theorem Shown.hasMustache {u : Located} {spot : Spot} {text : String} (h : Shown u spot text) :
    u.here.hasMustache = true := by
  cases h with
  | text => rfl
  | named h => exact List.any_eq_true.2 ⟨_, List.mem_of_getElem? h, rfl⟩

theorem Ledger.Grows.path {L L' : Ledger adapter} (h : L.Grows L') (e : Event) :
    L'.path e = L.path e := by
  simp only [Ledger.path, Ledger.owner, Owner.path, h.scope]

/-- The path at a spot comes from an event in one of some logs. -/
def Explained (ledgers : List (Ledger adapter)) (spot : Spot) (text : String) : Prop :=
  ∃ L ∈ ledgers, ∃ e ∈ L.log, e.use = .spot spot ∧ text = L.path e

def AllExplained (ledgers : List (Ledger adapter)) (t : Located) : Prop :=
  ∀ u, Occurs u t → ∀ spot text, Shown u spot text → Explained ledgers spot text

namespace AllExplained

variable {ledgers ledgers' : List (Ledger adapter)} {t : Located}

theorem of_clean (h : Clean t) : AllExplained ledgers t := by
  intro u hu spot text hs
  have hm := hs.hasMustache
  rw [h u hu] at hm
  cases hm

theorem mono (h : AllExplained ledgers t)
    (hs : ∀ L ∈ ledgers, ∃ L' ∈ ledgers', L.Grows L') : AllExplained ledgers' t := by
  intro u hu spot text hshown
  obtain ⟨L, hL, e, he, huse, rfl⟩ := h u hu spot text hshown
  obtain ⟨L', hL', hg⟩ := hs L hL
  exact ⟨L', hL', e, hg.log.subset he, huse, (hg.path e).symm⟩

theorem occurs {u : Located} (h : AllExplained ledgers t) (hu : Occurs u t) :
    AllExplained ledgers u := fun v hv => h v (hv.trans hu)

theorem node {l : Loc} {n : Node Located}
    (hn : ∀ spot text, Shown (.node l n) spot text → Explained ledgers spot text)
    (h : ∀ c ∈ n.children, AllExplained ledgers c) : AllExplained ledgers (.node l n) := by
  intro u hu
  cases hu with
  | self => exact hn
  | child hc hu => exact h _ hc u hu

theorem plain {l : Loc} {n : Node Located} (hn : n.hasMustache = false)
    (h : ∀ c ∈ n.children, AllExplained ledgers c) : AllExplained ledgers (.node l n) :=
  node (fun spot text hs => by
    have hm := hs.hasMustache
    rw [here_node, hn] at hm
    cases hm) h

end AllExplained

def Part.AllExplained (ledgers : List (Ledger adapter)) : Part → Prop
  | .node t | .child t | .operand _ t | .statement t | .wrapper t => Loop.AllExplained ledgers t
  | .attribute l i a =>
    (∀ name text, a = .named name (.mustache text) →
      Explained ledgers (.attribute l i name) text) ∧
    ∀ c ∈ a.children, Loop.AllExplained ledgers c
  | .loop _ => True

theorem Part.AllExplained.mono {ledgers ledgers' : List (Ledger adapter)} {p : Part}
    (h : p.AllExplained ledgers) (hs : ∀ L ∈ ledgers, ∃ L' ∈ ledgers', L.Grows L') :
    p.AllExplained ledgers' := by
  cases p with
  | «attribute» l i a =>
    refine ⟨fun name text ha => ?_, fun c hc => (h.2 c hc).mono hs⟩
    obtain ⟨L, hL, e, he, huse, rfl⟩ := h.1 name text ha
    obtain ⟨L', hL', hg⟩ := hs L hL
    exact ⟨L', hL', e, hg.log.subset he, huse, (hg.path e).symm⟩
  | loop => trivial
  | _ => exact Loop.AllExplained.mono h hs

theorem Part.Pristine.allExplained {ledgers : List (Ledger adapter)} {p : Part}
    (h : p.Pristine start) : p.AllExplained ledgers := by
  cases p with
  | «attribute» l i a =>
    refine ⟨fun name text ha => ?_, fun c hc => .of_clean (h.2 c hc).1⟩
    have hm := h.1
    rw [ha] at hm
    cases hm
  | loop => trivial
  | wrapper => cases h
  | operand => exact .of_clean h.1.1
  | _ => exact .of_clean h.1

theorem AllExplained.of_parts {ledgers : List (Ledger adapter)} {l : Loc} {n n' : Node Located}
    (hn : SameAround n n') (hp : Pristine start (.node l n))
    (h : ∀ p ∈ partsOf l n', p.AllExplained ledgers) : AllExplained ledgers (.node l n') := by
  obtain rfl | ⟨-, hparts, hchildren⟩ := hn.eq_or_hasParts l
  · exact .of_clean hp.1
  refine .node (fun spot text hs => ?_) fun c hc => ?_
  · cases hs with
    | text => cases hparts
    | named ha =>
      obtain ⟨hi, ha⟩ := List.getElem?_eq_some_iff.1 ha
      exact (h _ (List.mem_append_left _ (List.mem_mapIdx.2 ⟨_, hi, rfl⟩))).1 _ _ ha
  · rcases hchildren c hc with hc | ⟨p, hpart, hc⟩
    · exact .of_clean (hp.child hc).1
    · have hexplained := h p hpart
      cases partOf_of_mem hpart with
      | valued => exact hexplained.2 c hc
      | child | operand => exact List.mem_singleton.1 hc ▸ hexplained

/-! ### What is moved -/

/-- The nodes that records and conditions are put together from. -/
def Connective : Node Located → Prop
  | .name _ | .literal _ | .member _ _ _ | .call _ _ | .object _ | .paren _ | .logical _ _ _
  | .conditional _ _ _ => True
  | _ => False

/-- The property passes from parts to the records and conditions put together from them. -/
def Connects (P : Located → Prop) : Prop :=
  ∀ l n, Connective n → (∀ c ∈ n.children, P c) → P (.node l n)

theorem Connects.isPath {P : Located → Prop} (hP : Connects P) {root : String}
    {properties : List String} {t : Located} (h : IsPath root properties t) : P t := by
  induction h with
  | name => exact hP _ _ trivial (by simp [Node.children])
  | member _ _ _ ih => exact hP _ _ trivial (by simpa [Node.children] using ih)

theorem connects_clean : Connects Clean := fun _ n hn h =>
  .node (by cases n <;> first | rfl | cases hn) h

theorem mem_heldBy_of_itemOf {log : List Event} {x : Located} (h : x ∈ (itemOf log).trees) :
    x ∈ heldBy log := by
  induction log using List.reverseRecOn with
  | nil => cases h
  | append_singleton log e ih =>
    rw [itemOf_append, ItemTree.note] at h
    rw [heldBy_append]
    have hlast (hx : x = e.carrier) (hi : e.holding ≠ .item) : x ∈ heldBy [e] := by
      rw [heldBy, List.flatMap_singleton, Event.held]
      split
      case h_1 he => exact absurd he hi
      case h_2 => exact List.mem_singleton.2 hx
    split at h
    case h_1 he =>
      exact List.mem_append_right _ (hlast (List.mem_singleton.1 h) (by simp [he]))
    case h_2 path he =>
      rw [ItemTree.trees, List.map_append, List.map_singleton] at h
      rcases List.mem_append.1 h with h | h
      · refine List.mem_append_left _ (ih ?_)
        generalize itemOf log = i at h
        cases i with
        | overridden entries => exact h
        | _ => cases h
      · exact List.mem_append_right _ (hlast (List.mem_singleton.1 h) (by simp [he]))
    case h_3 => exact List.mem_append_left _ (ih h)

section

variable {P : Located → Prop} (hP : Connects P)
include hP

theorem Connects.held {scope : LoopScope} {d d' : Draft} {e : Event} {spot : Spot}
    (h : Noted adapter scope d e d') (hu : e.use = .spot spot) (hs : P e.source) :
    ∀ x ∈ e.held, P x := by
  intro x hx
  cases h with
  | item => cases hx
  | value =>
    obtain rfl := List.mem_singleton.1 hx
    exact hs
  | style _ v call callee =>
    obtain rfl := List.mem_singleton.1 hx
    have hname : P (.node callee (.name adapter.createStyle)) :=
      hP _ _ trivial (by simp [Node.children])
    exact hP _ _ trivial (by simpa [Node.children] using ⟨hname, hs⟩)
  | merged | under | named | field => cases hu

theorem Connects.reaches {item : String} {receiver source : Located} {holding : Holding}
    {binding : Binding} (h : Reaches item receiver holding binding source)
    (hr : ∀ copy : Located, copy.erase = receiver.erase → P copy) : P source := by
  cases h with
  | merged | field => exact hP _ _ trivial (by simp [Node.children])
  | under he => exact hr _ he
  | named hp => exact hP.isPath hp

theorem Connects.overrides {base : List String} {entries : List (List String × Located)}
    {t : Located} (h : Overrides base entries t) (hs : ∀ e ∈ entries, P e.2) : P t := by
  induction h with
  | carrier base t => exact hs _ (List.mem_singleton_self _)
  | @copy base entries whole fields l _ hwhole _ _ ih =>
    refine hP _ _ trivial fun c hc => ?_
    simp only [Node.children, List.flatMap_cons, Entry.children_spread, List.flatMap_map,
      Entry.children_field, List.cons_append, List.nil_append, List.mem_cons, List.mem_flatMap,
      List.not_mem_nil, or_false] at hc
    rcases hc with rfl | ⟨f, hf, rfl⟩
    · exact hP.isPath hwhole
    · exact ih f hf fun e he => hs (f.1 :: e.1, e.2) (mem_pathsUnder.1 he)

theorem Connects.record {item keyToken : String} {log : List Event} {record : Located}
    (hr : IsRecord item keyToken log record) (h : ∀ x ∈ heldBy log, P x) : P record := by
  obtain ⟨l, key, hv⟩ := hr
  have hname (l : Loc) (x : String) : P (.node l (.name x)) :=
    hP _ _ trivial (by simp [Node.children])
  refine hP _ _ trivial fun c hc => ?_
  simp only [Node.children, List.flatMap_cons, Entry.children_field, List.flatMap_map,
    List.cons_append, List.nil_append, List.mem_cons, List.mem_flatMap,
    List.not_mem_nil, or_false] at hc
  rcases hc with rfl | rfl | ⟨f, hf, rfl⟩
  · have htrees : ∀ x ∈ (itemOf log).trees, P x := fun x hx => h x (mem_heldBy_of_itemOf hx)
    generalize itemOf log = i at hv htrees
    cases hv with
    | raw => exact hname _ _
    | merged => exact htrees _ (List.mem_singleton_self _)
    | overridden hv => exact hP.overrides hv fun e he => htrees _ (List.mem_map_of_mem he)
  · exact hP _ _ trivial (by simp [Node.children])
  · obtain ⟨e, he, hfield⟩ := List.mem_filterMap.1 hf
    obtain ⟨hh, hc⟩ := Event.field?_eq_some hfield
    refine h _ (List.mem_flatMap.2 ⟨e, he, ?_⟩)
    rw [Event.held, hh]
    exact List.mem_singleton.2 hc.symm

theorem Connects.grouped {t u : Located} (hg : Grouped t u) (h : P t) : P u := by
  cases hg with
  | bare => exact h
  | paren => exact hP _ _ trivial (by simpa [Node.children] using h)

theorem Connects.shielded {v t : Located} {g : Premise} (hs : Shielded v g t)
    (hg : ∀ copy : Located, copy.erase = g.tree.erase → P copy) (h : P v) : P t := by
  have hnull (k : Loc) : P (.node k (.literal "null")) := hP _ _ trivial (by simp [Node.children])
  cases hs with
  | operand l hcopy hleft hv =>
    have hcondition := hP.grouped hleft (hg _ hcopy)
    exact hP _ _ trivial (by simpa [Node.children] using ⟨hcondition, hP.grouped hv h⟩)
  | whenTrue l k hcopy htest =>
    have hcondition := hP.grouped htest (hg _ hcopy)
    exact hP _ _ trivial (by simpa [Node.children] using ⟨hcondition, h, hnull k⟩)
  | whenFalse l k hcopy htest =>
    have hcondition := hP.grouped htest (hg _ hcopy)
    exact hP _ _ trivial (by simpa [Node.children] using ⟨hcondition, hnull k, h⟩)

theorem Connects.guarded {v t : Located} (hv : Guarded v gs t)
    (hgs : ∀ g ∈ gs, ∀ copy : Located, copy.erase = g.tree.erase → P copy) (h : P v) : P t := by
  induction hv with
  | nil => exact h
  | cons _ hs ih =>
    exact hP.shielded hs (hgs _ List.mem_cons_self)
      (ih fun g hg => hgs g (List.mem_cons_of_mem _ hg))

end

section

variable {ledgers : List (Ledger adapter)}

theorem connects_allExplained : Connects (AllExplained ledgers) := fun _ n hn h =>
  .plain (by cases n <;> first | rfl | cases hn) h

theorem Bound.allExplained {lp : Lowered adapter} {o o' : Option (Ledger adapter)}
    (h : Bound gs lp o o') (hgs : ∀ g ∈ gs, Clean g.tree) (hr : Clean lp.mapping.receiver)
    (hcall : AllExplained ledgers lp.call) :
    AllExplained ledgers lp.source ∧ ∀ x ∈ heldBy (o'.elim [] Ledger.log),
      x ∈ heldBy (o.elim [] Ledger.log) ∨ AllExplained ledgers x := by
  cases h with
  | inline hs => exact ⟨hs ▸ hcall, fun x hx => .inl hx⟩
  | @nested L e d hn hu hs hc hreach =>
    refine ⟨.of_clean (connects_clean.reaches hreach fun _ he => hr.of_erase_eq he), fun x hx => ?_⟩
    simp only [Option.elim_some, Ledger.note, heldBy_append] at hx
    rcases List.mem_append.1 hx with hx | hx
    · exact .inl hx
    · rw [heldBy, List.flatMap_singleton, Event.held] at hx
      split at hx
      · cases hx
      · obtain rfl := List.mem_singleton.1 hx
        exact .inr (connects_allExplained.guarded hc
          (fun g hg _ he => .of_clean ((hgs g hg).of_erase_eq he)) hcall)

theorem Lowered.allExplained_call (lp : Lowered adapter) (hcallee : Clean lp.mapping.callee)
    (hleading : ∀ t ∈ lp.leading, AllExplained ledgers t)
    (hrecord : AllExplained ledgers lp.record) : AllExplained ledgers lp.call := by
  have hbody : ∀ t ∈ lp.leading ++ [.node lp.last (.returning (some lp.record))],
      AllExplained ledgers t := by
    intro t ht
    rcases List.mem_append.1 ht with ht | ht
    · exact hleading t ht
    · obtain rfl := List.mem_singleton.1 ht
      exact .plain rfl (by simpa [Node.children] using hrecord)
  have hcallback (parens : List Loc) {t : Located} (ht : AllExplained ledgers t) :
      AllExplained ledgers (inParens parens t) := by
    induction parens with
    | nil => exact ht
    | cons l parens ih => exact .plain rfl fun c hc => List.mem_singleton.1 hc ▸ ih
  refine .plain rfl fun c hc => ?_
  rcases List.mem_cons.1 hc with rfl | hc
  · exact .of_clean hcallee
  · obtain rfl := List.mem_singleton.1 hc
    exact hcallback _ (.plain rfl hbody)

end

/-! ### Every mustache comes from an event -/

theorem Node.hasMustache_of_shape {n n' : Node Located} (h : n'.shape = n.shape) :
    n'.hasMustache = n.hasMustache := by
  rw [← Node.hasMustache_map (fun _ => ()) n, ← Node.hasMustache_map (fun _ => ()) n']
  exact congrArg Node.hasMustache h

theorem Place.allExplained_holding {ledgers : List (Ledger adapter)} (place : Place) {v : Located}
    (h : AllExplained ledgers v) : (place.holding v).AllExplained ledgers := by
  rcases place with (c | _) | _
  · exact AllExplained.plain rfl (by simpa [Node.children] using h)
  · exact ⟨by simp, by simpa using h⟩
  · exact h

theorem Place.allExplained_taken {ledgers : List (Ledger adapter)} (place : Place) {w : Located}
    (h : AllExplained ledgers w) : (place.taken w).AllExplained ledgers := by
  rcases place with (_ | _) | _
  · exact h
  · exact ⟨by simp, by simpa using h⟩
  · exact h

theorem Spot.allExplained_shown {ledgers : List (Ledger adapter)} (spot : Spot) {path : String}
    (h : Explained ledgers spot path) : (spot.shown path).AllExplained ledgers := by
  cases spot with
  | text c =>
    refine AllExplained.node (fun spot text hs => ?_) (by simp [Node.children])
    cases hs
    exact h
  | «attribute» l i name =>
    refine ⟨fun name' text ha => ?_, by simp⟩
    obtain ⟨rfl, hvalue⟩ := Attribute.named.inj ha
    obtain rfl := AttributeValue.mustache.inj hvalue
    exact h

/-- All paths in a wrapper come from events, if those in the loop attribute and in the template
do. -/
theorem Lowered.allExplained_tree {ledgers : List (Ledger adapter)} (lp : Lowered adapter)
    (hsource : AllExplained ledgers lp.source) (hsubtree : AllExplained ledgers lp.subtree) :
    AllExplained ledgers lp.tree := by
  refine .plain rfl fun c hc => ?_
  rw [children_wrapperNode] at hc
  rcases List.mem_cons.1 hc with rfl | hc
  · exact hsource
  · rw [handedOver] at hc
    split at hc
    case h_1 cs hn => exact hsubtree.occurs (.of_mem (by rw [hn]; exact hc))
    case h_2 =>
      obtain rfl := List.mem_singleton.1 hc
      exact hsubtree

/-- Every path in what a run leaves comes from an event, in the log of the loop around or in that
of a loop that was found; so does every path in what was moved into the record around. -/
theorem Lowers.allExplained (h : Lowers adapter start gs ps σ ps' σ') :
    (∀ p ∈ ps, p.Pristine start) → (∀ g ∈ gs, Pristine start g.tree) →
    (∀ p ∈ ps', p.AllExplained σ'.ledgers) ∧
      ∀ x ∈ heldBy σ'.log, x ∈ heldBy σ.log ∨ AllExplained σ'.ledgers x := by
  induction h with
  | nil => exact fun _ _ => ⟨by simp, fun x hx => .inl hx⟩
  | @cons _ p p' ps ps' σ σ₁ σ₂ _ hs ih ihs =>
    intro hps hgs
    obtain ⟨hp, hheld⟩ := ih (List.forall_mem_singleton.2 (hps p List.mem_cons_self)) hgs
    obtain ⟨hps', hheld'⟩ := ihs (fun q hq => hps q (List.mem_cons_of_mem p hq)) hgs
    refine ⟨fun q hq => ?_, fun x hx => ?_⟩
    · rcases List.mem_cons.1 hq with rfl | hq
      · exact (hp q (List.mem_singleton_self q)).mono hs.ledgers_grow
      · exact hps' q hq
    · rcases hheld' x hx with hx | hx
      · exact (hheld x hx).imp_right fun hx => hx.mono hs.ledgers_grow
      · exact .inr hx
  | @node _ l n n' _ _ hn _ ih =>
    intro hps hgs
    have hnode : Pristine start (.node l n) := hps _ (List.mem_singleton_self _)
    obtain ⟨hparts, hheld⟩ := ih hnode.parts hgs
    exact ⟨List.forall_mem_singleton.2 (AllExplained.of_parts hn hnode hparts), hheld⟩
  | inert | leave | keep =>
    exact fun hps _ => ⟨fun p hp => (hps p hp).allExplained, fun x hx => .inl hx⟩
  | markup _ _ ih =>
    intro hps hgs
    have hp := List.forall_mem_singleton.1 hps
    obtain ⟨hnode, hheld⟩ := ih (List.forall_mem_singleton.2 hp) hgs
    have hp' := List.forall_mem_singleton.1 hnode
    exact ⟨List.forall_mem_singleton.2 hp', hheld⟩
  | found _ _ ih =>
    intro hps _
    have hp := List.forall_mem_singleton.1 hps
    obtain ⟨hnode, hheld⟩ := ih (List.forall_mem_singleton.2 hp) (by simp)
    have hp' := List.forall_mem_singleton.1 hnode
    exact ⟨List.forall_mem_singleton.2 hp', hheld⟩
  | @enter _ place v v' _ _ _ _ ih =>
    intro hps hgs
    obtain ⟨hv, hunder⟩ := Pristine.holding (hps _ (List.mem_singleton_self _))
    obtain ⟨hv', hheld⟩ := ih (List.forall_mem_singleton.2 hv)
      (List.forall_mem_append.2 ⟨hgs, hunder⟩)
    have hp' := List.forall_mem_singleton.1 hv'
    exact ⟨List.forall_mem_singleton.2 (place.allExplained_holding hp'), hheld⟩
  | @move _ spot v a loops L e d _ _ he hu hs =>
    intro hps _
    obtain ⟨hv, -⟩ := Pristine.holding (hps _ (List.mem_singleton_self _))
    refine ⟨?_, fun x hx => ?_⟩
    · have hexplained : Explained (Stage.ledgers ⟨a, loops, some (L.note he)⟩) spot (L.path e) :=
        ⟨L.note he, List.mem_append_left _ (List.mem_singleton_self _), e,
          List.mem_append_right _ (List.mem_singleton_self _), hu, rfl⟩
      exact List.forall_mem_singleton.2 (spot.allExplained_shown hexplained)
    · simp only [Stage.log, Option.elim_some, Ledger.note, heldBy_append] at hx
      rcases List.mem_append.1 hx with hx | hx
      · exact .inl hx
      · exact .inr (.of_clean (connects_clean.held he hu (hs ▸ hv.1)
          x (by simpa [heldBy] using hx)))
  | @loop _ place _ _ _ _ _ _ _ ih =>
    intro hps hgs
    obtain ⟨hv, hunder⟩ := Pristine.holding (hps _ (List.mem_singleton_self _))
    obtain ⟨hw, hheld⟩ := ih (List.forall_mem_singleton.2 hv.loop)
      (List.forall_mem_append.2 ⟨hgs, hunder⟩)
    have hp' := List.forall_mem_singleton.1 hw
    exact ⟨List.forall_mem_singleton.2 (place.allExplained_taken hp'), hheld⟩
  | @search _ l n n' _ _ _ hn _ ih =>
    intro hps hgs
    have hnode : Pristine start (.node l n) := hps _ (List.mem_singleton_self _)
    obtain ⟨hchildren, hheld⟩ := ih (fun p hp => by
      obtain ⟨c, hc, rfl⟩ := List.mem_map.1 hp
      exact hnode.child hc) hgs
    have hnone : n'.hasMustache = false :=
      (Node.hasMustache_of_shape hn).trans (hnode.1 _ .self)
    exact ⟨List.forall_mem_singleton.2 (AllExplained.plain hnone fun c hc =>
      hchildren _ (List.mem_map_of_mem hc)), hheld⟩
  | @site _ lp σ σ₁ σ₂ parent _ _ _ hleading hsubtree hledger hrecord _ _ hbound ihl ihs =>
    intro hps hgs
    obtain ⟨hcallee, hpl, hpt⟩ : (Part.loop lp.mapping).Pristine start :=
      hps _ (List.mem_singleton_self _)
    obtain ⟨hl, -⟩ := ihl (fun p hp => by
      obtain ⟨t, ht, rfl⟩ := List.mem_map.1 hp
      exact (hpl t ht).renamed _ _) (by simp)
    obtain ⟨ht, hheld⟩ := ihs (List.forall_mem_singleton.2 (hpt.renamed _ _)) (by simp)
    let σ' : Stage adapter := ⟨σ₂.allocator, σ₂.loops ++ [lp], parent⟩
    -- the ledger of the template is now that of a loop
    have hgrow : ∀ L ∈ σ₂.ledgers, ∃ L' ∈ σ'.ledgers, L.Grows L' := by
      intro L hL
      refine ⟨L, List.mem_append_right _ ?_, .refl L⟩
      rw [Stage.ledgers, hledger] at hL
      rw [List.map_append]
      rcases List.mem_append.1 hL with hL | hL
      · exact List.mem_append_right _ hL
      · exact List.mem_append_left _ hL
    have hgrow₁ : ∀ L ∈ σ₁.ledgers, ∃ L' ∈ σ'.ledgers, L.Grows L' := by
      intro L hL
      rw [Stage.ledgers, hleading.continues.eq_none rfl] at hL
      obtain ⟨x, hx, rfl⟩ := List.mem_map.1 hL
      refine hgrow _ (List.mem_append_right _ (List.mem_map_of_mem ?_))
      exact hsubtree.loops_prefix.subset hx
    have hrecord' : AllExplained σ'.ledgers lp.record := by
      refine connects_allExplained.record hrecord fun x hx => ?_
      rw [Stage.log, hledger] at hheld
      exact ((hheld x hx).resolve_left List.not_mem_nil).mono hgrow
    have hcall : AllExplained σ'.ledgers lp.call :=
      lp.allExplained_call hcallee.1
        (fun t ht => Loop.AllExplained.mono (hl _ (List.mem_map_of_mem ht)) hgrow₁) hrecord'
    have htemplate := (List.forall_mem_singleton.1 ht).mono hgrow
    obtain ⟨hsource, hmoved⟩ := hbound.allExplained (fun g hg => (hgs g hg).1)
      (hcallee.1.occurs lp.mapping.receiver_occurs_callee) hcall
    exact ⟨List.forall_mem_singleton.2 (lp.allExplained_tree hsource htemplate), hmoved⟩

/-! ### Every event is shown -/

/-- A tree stands in another one, and all nodes above it were there before the run. -/
inductive Reach (start : Nat) (u : Located) : Located → Prop
  | self : Reach start u u
  | child {l : Loc} {n : Node Located} {c : Located} (hl : l.index < start)
    (hc : c ∈ n.children) (h : Reach start u c) : Reach start u (.node l n)

inductive Target where
  | mustache (spot : Spot) (text : String)
  | wrapper (w : Located)

def Target.At : Target → Located → Prop
  | .mustache spot text, u => Shown u spot text
  | .wrapper w, u => u = w

/-- The tree shows something, below nodes that were there before the run. -/
def Displays (start : Nat) (t : Located) (g : Target) : Prop := ∃ u, Reach start u t ∧ g.At u

theorem Displays.child {l : Loc} {n : Node Located} {c : Located} {g : Target}
    (h : Displays start c g) (hl : l.index < start) (hc : c ∈ n.children) :
    Displays start (.node l n) g := by
  obtain ⟨u, hu, hg⟩ := h
  exact ⟨u, .child hl hc hu, hg⟩

def Part.Displays (start : Nat) : Part → Target → Prop
  | .node t, g | .child t, g | .operand _ t, g | .statement t, g | .wrapper t, g =>
    Loop.Displays start t g
  | .attribute l i a, g =>
    (∃ name text, a = .named name (.mustache text) ∧ g = .mustache (.attribute l i name) text) ∨
      ∃ c ∈ a.children, Loop.Displays start c g
  | .loop _, _ => False

theorem Displays.of_parts {l : Loc} {n : Node Located} {p : Part} {g : Target}
    (h : p.Displays start g) (hl : l.index < start) (hp : p ∈ partsOf l n) :
    Displays start (.node l n) g := by
  cases partOf_of_mem hp with
  | valued hn ha =>
    subst hn
    rcases h with ⟨name, text, he, rfl⟩ | ⟨c, hc, h⟩
    · exact ⟨_, .self, .named (by rw [ha, he])⟩
    · exact h.child hl
        (List.mem_append_left _ (List.mem_flatMap.2 ⟨_, List.mem_of_getElem? ha, hc⟩))
  | child _ hc | operand _ hc => exact Displays.child h hl hc

theorem Place.displays_holding {place : Place} {v v' : Located} {g : Target}
    (hp : (place.holding v).Pristine start) (h : Displays start v' g) :
    (place.holding v').Displays start g := by
  rcases place with (c | _) | _
  · exact h.child (l := c) (hp.2 _ .self) (List.mem_singleton_self v')
  · exact .inr ⟨v', List.mem_singleton_self v', h⟩
  · exact h

theorem Place.displays_taken {place : Place} {w : Located} {g : Target}
    (h : Displays start w g) : (place.taken w).Displays start g := by
  rcases place with (_ | _) | _
  · exact h
  · exact .inr ⟨w, List.mem_singleton_self w, h⟩
  · exact h

theorem Spot.displays_shown (spot : Spot) (path : String) :
    (spot.shown path).Displays start (.mustache spot path) := by
  cases spot with
  | text c => exact ⟨_, .self, .text c path⟩
  | «attribute» l i name => exact .inl ⟨name, path, rfl, rfl⟩

/-- What an event of a log has in the template. -/
inductive Aims (loops : List (Lowered adapter)) (L : Ledger adapter) (e : Event) : Target → Prop
  | spot {spot : Spot} (hu : e.use = .spot spot) : Aims loops L e (.mustache spot (L.path e))
  | loop {lp : Lowered adapter} (hlp : lp ∈ loops) (hu : e.use = .loop lp.wrapper lp.binding) :
    Aims loops L e (.wrapper lp.tree)

theorem Aims.mono {loops loops' : List (Lowered adapter)} {L L' : Ledger adapter} {e : Event}
    {g : Target} (h : Aims loops L e g) (hs : loops ⊆ loops') (hL : L.Grows L') :
    Aims loops' L' e g := by
  cases h with
  | spot hu =>
    rw [← hL.path e]
    exact .spot hu
  | loop hlp hu => exact .loop (hs hlp) hu

/-- Between two stages every event that is noted is shown in some parts, and every event of a loop
that is found is shown in the template of that loop. -/
structure AllShown (start : Nat) (σ : Stage adapter) (ps : List Part)
    (σ' : Stage adapter) : Prop where
  log : ∀ L, σ'.ledger = some L → ∀ e ∈ L.log, e ∈ σ.log ∨
    ∃ g, Aims σ'.loops L e g ∧ ∃ p ∈ ps, p.Displays start g
  loops : ∀ lp ∈ σ'.loops, lp ∈ σ.loops ∨
    ∀ e ∈ lp.ledger.log, ∃ g, Aims σ'.loops lp.ledger e g ∧ Displays start lp.subtree g

theorem AllShown.refl (σ : Stage adapter) (ps : List Part) : AllShown start σ ps σ :=
  ⟨fun L hL e he => .inl (by rwa [Stage.log, hL]), fun _ hlp => .inl hlp⟩

theorem AllShown.into {p' : Part} (h : AllShown start σ ps σ')
    (hp : ∀ p ∈ ps, ∀ g, p.Displays start g → p'.Displays start g) : AllShown start σ [p'] σ' := by
  refine ⟨fun L hL e he => (h.log L hL e he).imp_right ?_, h.loops⟩
  rintro ⟨g, hg, p, hmem, hd⟩
  exact ⟨g, hg, p', List.mem_singleton_self p', hp p hmem g hd⟩

theorem Lowers.displays (h : Lowers adapter start gs ps σ ps' σ') :
    (∀ p ∈ ps, p.Pristine start) → AllShown start σ ps' σ' := by
  induction h with
  | nil | inert | leave | keep => exact fun _ => .refl _ _
  | @cons _ p p' ps ps' σ σ₁ σ₂ _ hs ih ihs =>
    intro hps
    obtain ⟨hlog, hloops⟩ := ih (List.forall_mem_singleton.2 (hps p List.mem_cons_self))
    obtain ⟨hlog', hloops'⟩ := ihs fun q hq => hps q (List.mem_cons_of_mem p hq)
    have hsub : σ₁.loops ⊆ σ₂.loops := hs.loops_prefix.subset
    refine ⟨fun L hL e he => ?_, fun lp hlp => ?_⟩
    · rcases hlog' L hL e he with he | ⟨g, hg, q, hq, hd⟩
      · have hc := hs.continues
        rw [hL] at hc
        generalize hσ : σ₁.ledger = o at hc
        cases hc with
        | @within L₁ _ hgrow =>
          rw [Stage.log, hσ] at he
          refine (hlog L₁ hσ e he).imp_right ?_
          rintro ⟨g, hg, q, hq, hd⟩
          obtain rfl := List.mem_singleton.1 hq
          exact ⟨g, hg.mono hsub hgrow, q, List.mem_cons_self, hd⟩
      · exact .inr ⟨g, hg, q, List.mem_cons_of_mem _ hq, hd⟩
    · rcases hloops' lp hlp with hlp | hlp
      · refine (hloops lp hlp).imp_right fun hd e he => ?_
        obtain ⟨g, hg, hd⟩ := hd e he
        exact ⟨g, hg.mono hsub (.refl _), hd⟩
      · exact .inr hlp
  | @node _ l n n' _ _ hn _ ih =>
    intro hps
    have hnode : Pristine start (.node l n) := hps _ (List.mem_singleton_self _)
    exact (ih hnode.parts).into fun p hp g hd => Displays.of_parts hd (hnode.2 _ .self) hp
  | markup _ _ ih | found _ _ ih =>
    intro hps
    have hp := List.forall_mem_singleton.1 hps
    exact (ih (List.forall_mem_singleton.2 hp)).into (List.forall_mem_singleton.2 fun g hd => hd)
  | @enter _ place v v' _ _ _ _ ih =>
    intro hps
    have hp := List.forall_mem_singleton.1 hps
    exact (ih (List.forall_mem_singleton.2 (Pristine.holding hp).1)).into
      (List.forall_mem_singleton.2 fun g hd => Place.displays_holding hp hd)
  | @move _ spot v a loops L e d _ _ he hu _ =>
    intro _
    refine ⟨fun L' hL' e' he' => ?_, fun lp hlp => .inl hlp⟩
    obtain rfl := Option.some.inj hL'
    rcases List.mem_append.1 he' with he' | he'
    · exact .inl he'
    · obtain rfl := List.mem_singleton.1 he'
      exact .inr ⟨_, .spot hu, _, List.mem_singleton_self _, spot.displays_shown _⟩
  | @loop _ place _ _ _ _ _ _ _ ih =>
    intro hps
    have hp := List.forall_mem_singleton.1 hps
    exact (ih (List.forall_mem_singleton.2 (Pristine.holding hp).1.loop)).into
      (List.forall_mem_singleton.2 fun g hd => Place.displays_taken hd)
  | @search _ l n n' _ _ _ _ _ ih =>
    intro hps
    have hnode : Pristine start (.node l n) := hps _ (List.mem_singleton_self _)
    refine (ih fun p hp => ?_).into fun p hp g hd => ?_ <;> obtain ⟨c, hc, rfl⟩ := List.mem_map.1 hp
    · exact hnode.child hc
    · exact Displays.child hd (hnode.2 _ .self) hc
  | @site _ lp σ σ₁ σ₂ parent _ _ _ hleading hsubtree hledger _ _ _ hbound ihl ihs =>
    intro hps
    obtain ⟨-, hpl, hpt⟩ : (Part.loop lp.mapping).Pristine start := List.forall_mem_singleton.1 hps
    obtain ⟨-, hloops⟩ := ihl fun p hp => by
      obtain ⟨t, ht, rfl⟩ := List.mem_map.1 hp
      exact (hpl t ht).renamed _ _
    obtain ⟨hlog', hloops'⟩ := ihs (List.forall_mem_singleton.2 (hpt.renamed _ _))
    have hlast : lp ∈ σ₂.loops ++ [lp] := List.mem_append_right _ (List.mem_singleton_self lp)
    have hsub : σ₂.loops ⊆ σ₂.loops ++ [lp] := List.subset_append_left _ _
    refine ⟨fun L hL e he => ?_, fun x hx => ?_⟩
    · dsimp only at hL
      rw [Stage.log]
      generalize σ.ledger = o at hbound
      cases hbound with
      | inline => cases hL
      | nested hn hu =>
        obtain rfl := Option.some.inj hL
        rcases List.mem_append.1 he with he | he
        · exact .inl he
        · obtain rfl := List.mem_singleton.1 he
          exact .inr ⟨_, .loop hlast hu, _, List.mem_singleton_self _, _, .self, rfl⟩
    · rcases List.mem_append.1 hx with hx | hx
      · rcases hloops' x hx with hx | hx
        · refine (hloops x hx).imp_right fun hd e he => ?_
          obtain ⟨g, hg, hd⟩ := hd e he
          exact ⟨g, hg.mono (fun y hy => hsub (hsubtree.loops_prefix.subset hy)) (.refl _), hd⟩
        · refine .inr fun e he => ?_
          obtain ⟨g, hg, hd⟩ := hx e he
          exact ⟨g, hg.mono hsub (.refl _), hd⟩
      · obtain rfl := List.mem_singleton.1 hx
        refine .inr fun e he => ?_
        obtain ⟨g, hg, p, hp, hd⟩ := (hlog' x.ledger hledger e he).resolve_left List.not_mem_nil
        obtain rfl := List.mem_singleton.1 hp
        exact ⟨g, hg.mono hsub (.refl _), hd⟩

/-! ### Wrappers -/

theorem Lowers.wrappers (h : Lowers adapter start gs ps σ ps' σ') :
    (∀ lp ∈ σ'.loops, lp ∈ σ.loops ∨ start ≤ lp.wrapper.index) ∧
      ((σ.loops.map Lowered.wrapper).Nodup → (σ'.loops.map Lowered.wrapper).Nodup) := by
  induction h with
  | nil | inert | leave | keep | move => exact ⟨fun lp hlp => .inl hlp, id⟩
  | cons _ _ ih ihs =>
    exact ⟨fun lp hlp => (ihs.1 lp hlp).elim (ih.1 lp) .inr, fun hn => ihs.2 (ih.2 hn)⟩
  | node _ _ ih | markup _ _ ih | enter _ _ ih | loop _ _ ih | search _ _ _ ih | found _ _ ih =>
    exact ih
  | site lp _ _ _ _ _ _ _ hwrapper hfresh _ ihl ihs =>
    refine ⟨fun x hx => ?_, fun hn => ?_⟩
    · rcases List.mem_append.1 hx with hx | hx
      · exact (ihs.1 x hx).elim (ihl.1 x) .inr
      · obtain rfl := List.mem_singleton.1 hx
        exact .inr hwrapper
    · rw [List.map_append, List.nodup_append]
      refine ⟨ihs.2 (ihl.2 hn), List.nodup_singleton _, fun w hw w' hw' he => ?_⟩
      obtain ⟨x, hx, rfl⟩ := List.mem_map.1 hw
      obtain rfl := List.mem_singleton.1 hw'
      exact (hfresh x hx).ne (congrArg Loc.index he)

theorem Aims.not_fragment {loops : List (Lowered adapter)} {L : Ledger adapter} {e : Event}
    {g : Target} (h : Aims loops L e g) {u : Located} (hu : g.At u) (cs : List Located) :
    u.here ≠ .fragment cs := by
  cases h with
  | spot =>
    cases hu with
    | text => simp
    | named => simp
  | loop =>
    obtain rfl := hu
    simp [Lowered.tree, wrapperNode]

theorem Lowered.displays_tree {lp : Lowered adapter} {g : Target}
    (h : Displays start lp.subtree g) (hg : ∀ u cs, g.At u → u.here ≠ .fragment cs) :
    ∃ c ∈ lp.tree.here.children, Displays start c g := by
  have hsub : ∀ c ∈ handedOver lp.subtree, c ∈ lp.tree.here.children := fun c hc => by
    rw [show lp.tree.here.children = _ from children_wrapperNode _ _ _ _ _]
    exact List.mem_cons_of_mem _ hc
  rw [handedOver] at hsub
  split at hsub
  case h_2 => exact ⟨_, hsub _ (List.mem_singleton_self _), h⟩
  case h_1 cs hn =>
    obtain ⟨u, hu, hat⟩ := h
    generalize lp.subtree = t at hn hu
    cases hu with
    | self => exact absurd hn (hg _ cs hat)
    | child _ hc hu =>
      rw [here_node] at hn
      rw [hn] at hc
      exact ⟨_, hsub _ hc, u, hu, hat⟩

theorem Reach.occurs {u t : Located} (h : Reach start u t) : Occurs u t := by
  induction h with
  | self => exact .self
  | child _ hc _ ih => exact .child hc ih

namespace LowersWhole

variable {a a' : Allocator} {t t' : Located} {loops : List (Lowered adapter)}

theorem allExplained (h : LowersWhole adapter start a t t' a' loops) (ht : Pristine start t) :
    AllExplained (loops.map Lowered.ledger) t' := by
  cases h with
  | @inside t t' _ σ hc h =>
    have hall := (h.allExplained (List.forall_mem_singleton.2 ht) (by simp)).1
      (.node t') (List.mem_singleton_self _)
    rw [Stage.ledgers, h.continues.eq_none rfl] at hall
    exact hall
  | @root parens m call lp inner _ hcall h =>
    have hloop : (Part.loop { m with call }).Pristine start := ht.loop
    have hall : AllExplained _ lp.tree := (h.allExplained (List.forall_mem_singleton.2 hloop)
      (by simp)).1 (.wrapper lp.tree) (List.mem_singleton_self _)
    rw [Stage.ledgers, Option.toList_none, List.nil_append] at hall
    have hmoved : AllExplained ((inner ++ [lp]).map Lowered.ledger)
        (Lowered.tree { lp with wrapper := m.call }) :=
      .plain rfl fun c hc => hall.occurs (.child hc .self)
    rw [List.map_append] at hmoved ⊢
    induction parens with
    | nil => exact hmoved
    | cons l parens ih =>
      exact .plain rfl fun c hc => List.mem_singleton.1 hc ▸
        ih (ht.child (List.mem_singleton_self _))

theorem not_occurs_below {u : Located} {c : Located} (hc : c ∈ u.here.children) :
    ¬ Occurs u c := by
  intro h
  have hlt := height_lt_of_mem (l := u.loc) hc
  rw [eta] at hlt
  exact absurd h.height_le (Nat.not_le.2 hlt)

theorem displays (h : LowersWhole adapter start a t t' a' loops) (ht : Pristine start t) :
    ∀ lp ∈ loops, ∀ e ∈ lp.ledger.log, ∃ g, Aims loops lp.ledger e g ∧
      ∃ c ∈ lp.tree.here.children, Displays start c g := by
  cases h with
  | inside hc h =>
    intro lp hlp e he
    obtain ⟨g, hg, hd⟩ := ((h.displays (List.forall_mem_singleton.2 ht)).loops lp hlp).resolve_left
      List.not_mem_nil e he
    exact ⟨g, hg, lp.displays_tree hd fun u cs hu => hg.not_fragment hu cs⟩
  | @root parens m call root inner _ hcall h =>
    have hloop : (Part.loop { m with call }).Pristine start := ht.loop
    have hall (lp : Lowered adapter) (hlp : lp ∈ inner ++ [root]) : ∀ e ∈ lp.ledger.log,
        ∃ g, Aims (inner ++ [{ root with wrapper := m.call }]) lp.ledger e g ∧
          ∃ c ∈ lp.tree.here.children, Displays start c g := by
      intro e he
      obtain ⟨g, hg, hd⟩ := ((h.displays (List.forall_mem_singleton.2 hloop)).loops lp
        hlp).resolve_left List.not_mem_nil e he
      obtain ⟨c, hc, hd⟩ := lp.displays_tree hd fun u cs hu => hg.not_fragment hu cs
      refine ⟨g, ?_, c, hc, hd⟩
      cases hg with
      | spot hu => exact .spot hu
      | @loop x hx hu =>
        rcases List.mem_append.1 hx with hx | hx
        · exact .loop (List.mem_append_left _ hx) hu
        · -- the wrapper of the root is no part of what stands in it
          obtain rfl := List.mem_singleton.1 hx
          obtain ⟨v, hv, rfl⟩ := hd
          obtain ⟨w, hw, hlp⟩ := ((h.placed lp hlp).resolve_left List.not_mem_nil).tree
          obtain rfl : w = x.tree := by simpa [Part.trees, Stage.log, heldBy] using hw
          exact absurd (hlp.trans hv.occurs) (not_occurs_below hc)
    intro lp hlp
    rcases List.mem_append.1 hlp with hlp | hlp
    · exact hall lp (List.mem_append_left _ hlp)
    · obtain rfl := List.mem_singleton.1 hlp
      exact hall root (List.mem_append_right _ (List.mem_singleton_self root))

/-- Wrappers stand in different places, and one that stands where there was a node before has all
others in it. -/
theorem wrappers (h : LowersWhole adapter start a t t' a' loops) (ht : Pristine start t) :
    (loops.map Lowered.wrapper).Nodup ∧
      ∀ x ∈ loops, x.wrapper.index < start → ∀ lp ∈ loops, Occurs lp.tree x.tree := by
  cases h with
  | inside hc h =>
    refine ⟨h.wrappers.2 List.nodup_nil, fun x hx hlt => ?_⟩
    exact absurd hlt (Nat.not_lt.2 ((h.wrappers.1 x hx).resolve_left List.not_mem_nil))
  | @root parens m call root inner _ hcall h =>
    have hfresh (x : Lowered adapter) (hx : x ∈ inner) : start ≤ x.wrapper.index :=
      (h.wrappers.1 x (List.mem_append_left _ hx)).resolve_left List.not_mem_nil
    have hcall : m.call.index < start := ht.2 _ (occurs_inParens parens m.tree)
    have hnodup := h.wrappers.2 List.nodup_nil
    rw [List.map_append, List.nodup_append] at hnodup
    refine ⟨?_, fun x hx hlt lp hlp => ?_⟩
    · rw [List.map_append, List.nodup_append]
      refine ⟨hnodup.1, List.nodup_singleton _, fun w hw w' hw' he => ?_⟩
      obtain ⟨x, hx, rfl⟩ := List.mem_map.1 hw
      obtain rfl := List.mem_singleton.1 hw'
      exact absurd (hfresh x hx) (Nat.not_le.2 (he ▸ hcall))
    · rcases List.mem_append.1 hx with hx | hx
      · exact absurd hlt (Nat.not_lt.2 (hfresh x hx))
      · obtain rfl := List.mem_singleton.1 hx
        rcases List.mem_append.1 hlp with hlp | hlp
        · obtain ⟨w, hw, hin⟩ := ((h.placed lp (List.mem_append_left _ hlp)).resolve_left
            List.not_mem_nil).tree
          obtain rfl : w = root.tree := by simpa [Part.trees, Stage.log, heldBy] using hw
          refine occurs_of_ne_loc hin fun he => ?_
          exact hnodup.2.2 _ (List.mem_map_of_mem hlp) root.wrapper (by simp) he
        · obtain rfl := List.mem_singleton.1 hlp
          exact .self

end LowersWhole

end JsxLoops.Loop
