import JsxLoops.Proofs.Loops
import Mathlib

/-!
Loops in loops. A run loses no mapping call and copies none: each has one place in the tree that is
left. A loop that stands alone is bound to its own call. A loop in a loop has its call in the record
of the loop around it, under the conditions it is shown under, and three accounts of where it is
agree: the binding of the site, the schema of the record, and the loop attribute of the wrapper.
-/

namespace JsxLoops.Loop

open JsxLoops.Tree Located

variable {adapter : Adapter} {start : Nat} {gs : List Premise} {ps ps' : List Part}
  {σ σ' : Stage adapter} {s : Store}

/-! ### Reading a store -/

/-- The value of the loop attribute of a site's wrapper. -/
def Site.loopValue? (site : Site) (adapter : Adapter) (s : Store) : Option Loc :=
  match s.get site.wrapper with
  | .element e => e.attributes.findSome? fun a => match a with
    | .named name (.expression v) => if name = adapter.forAttribute then some v else none
    | _ => none
  | _ => none

/-- A call stands at a location, or it stands there under conditions. -/
inductive UnderConditions (s : Store) (call : Loc) : Loc → Prop
  | here : UnderConditions s call call
  | paren {l inner : Loc} (hl : s.get l = .paren inner) (h : UnderConditions s call inner) :
    UnderConditions s call l
  | operand {l left right : Loc} {op : String} (hl : s.get l = .logical op left right)
    (h : UnderConditions s call right) : UnderConditions s call l
  | whenTrue {l test yes no : Loc} (hl : s.get l = .conditional test yes no)
    (hno : s.get no = .literal "null") (h : UnderConditions s call yes) : UnderConditions s call l
  | whenFalse {l test yes no : Loc} (hl : s.get l = .conditional test yes no)
    (hyes : s.get yes = .literal "null") (h : UnderConditions s call no) :
    UnderConditions s call l

/-- The values that an entry has under a property. -/
def valueUnder (property : String) : Entry Loc → Option Loc
  | .pair (.name name) value _ => if name = property then some value else none
  | _ => none

/-- The value at the end of a path of properties, where every object on the way has exactly one
value under the property. -/
def valueAt (s : Store) : List String → Loc → Option Loc
  | [], l => some l
  | property :: path, l =>
    match s.get l with
    | .object entries =>
      match entries.filterMap (valueUnder property) with
      | [value] => valueAt s path value
      | _ => none
    | _ => none

theorem Lowered.loopValue?_eq (lp : Lowered adapter) (hs : s.Shows lp.tree) :
    lp.site.loopValue? adapter s = some lp.source.loc := by
  rw [Site.loopValue?, show lp.site.wrapper = lp.wrapper from rfl, hs.get_root]
  simp [wrapperNode, Node.map, Attribute.map, AttributeValue.map]

theorem Grouped.underConditions {v t : Located} {call : Loc} (hg : Grouped v t) (hs : s.Shows t)
    (h : UnderConditions s call v.loc) : UnderConditions s call t.loc := by
  cases hg with
  | bare => exact h
  | paren l => exact .paren hs.get_root h

theorem Shielded.underConditions {v t : Located} {g : Premise} {call : Loc} (hg : Shielded v g t)
    (hs : s.Shows t) (h : UnderConditions s call v.loc) : UnderConditions s call t.loc := by
  cases hg with
  | operand l hcopy hleft hv =>
    exact .operand hs.get_root (hv.underConditions (hs.child (by simp [Node.children])) h)
  | whenTrue l k hcopy htest =>
    exact .whenTrue hs.get_root
      (hs.child (c := .node k (.literal "null")) (by simp [Node.children])).get_root h
  | whenFalse l k hcopy htest =>
    exact .whenFalse hs.get_root
      (hs.child (c := .node k (.literal "null")) (by simp [Node.children])).get_root h

theorem Guarded.underConditions {v t : Located} (hg : Guarded v gs t) (hs : s.Shows t) :
    UnderConditions s v.loc t.loc := by
  induction hg with
  | nil => exact .here
  | cons _ hg ih => exact hg.underConditions hs (ih (hs.occurs hg.occurs))

theorem valueUnder_field (property name : String) (l : Loc) :
    valueUnder property (.field name l) = if name = property then some l else none := rfl

theorem filterMap_valueUnder {fields : List (String × Located)}
    (hn : (fields.map Prod.fst).Nodup) {f : String × Located} (hf : f ∈ fields) :
    (fields.map fun f => Entry.field f.1 f.2.loc).filterMap (valueUnder f.1) = [f.2.loc] := by
  induction fields with
  | nil => cases hf
  | cons g fields ih =>
    obtain ⟨hnot, hn⟩ := List.nodup_cons.1 hn
    rw [List.map_cons, List.filterMap_cons, valueUnder_field]
    rcases List.mem_cons.1 hf with rfl | hf
    · have hrest : (fields.map fun f => Entry.field f.1 f.2.loc).filterMap (valueUnder f.1) =
        [] := by
        rw [List.filterMap_map, List.filterMap_eq_nil_iff]
        intro g hg
        exact if_neg fun he : g.1 = f.1 => hnot (he ▸ List.mem_map_of_mem hg)
      rw [if_pos rfl, hrest]
    · rw [if_neg fun he : g.1 = f.1 => hnot (he ▸ List.mem_map_of_mem hf)]
      exact ih hn hf

theorem Overrides.valueAt {base path : List String} {entries : List (List String × Located)}
    {t x : Located} (h : Overrides base entries t) (hs : s.Shows t) (hx : (path, x) ∈ entries) :
    valueAt s path t.loc = some x.loc := by
  induction h generalizing path x with
  | carrier base t =>
    obtain ⟨rfl, rfl⟩ := Prod.mk.inj (List.mem_singleton.1 hx)
    rfl
  | @copy _ entries whole fields l hpaths _ hnames _ ih =>
    obtain ⟨f, hf, path, rfl, hx, hchild⟩ := exists_field_of_mem hpaths hnames hx
    have hone := filterMap_valueUnder (hnames ▸ nodup_pathHeads entries) hf
    have hentries : (Entry.spread whole.loc ::
        fields.map fun f => Entry.field f.1 f.2.loc).filterMap (valueUnder f.1) = [f.2.loc] := hone
    rw [Loop.valueAt, loc_node, hs.get_root]
    simp only [Node.map, List.map_cons, List.map_map, Function.comp_def, Entry.map, Entry.field,
      Key.map] at hentries ⊢
    rw [hentries]
    exact ih f hf (hs.child hchild) hx

/-! ### Local variables -/

def Part.declared : Part → List String
  | .statement t => t.here.declared
  | _ => []

theorem Node.declared_map {α β : Type} (f : α → β) (n : Node α) :
    (n.map f).declared = n.declared := by
  cases n with
  | declaration => simp [Node.map, Node.declared, List.flatMap_map]
  | _ => rfl

theorem Node.declared_of_shape {n n' : Node Located} (h : n'.shape = n.shape) :
    n'.declared = n.declared := by
  rw [← Node.declared_map (fun _ => ()) n, ← Node.declared_map (fun _ => ()) n']
  exact congrArg Node.declared h

theorem Node.declared_of_isMarkup {n : Node Located} (h : n.isMarkup = true) :
    n.declared = [] := by
  cases n with
  | declaration => cases h
  | _ => rfl

theorem Lowers.declared (h : Lowers adapter start gs ps σ ps' σ') :
    ps'.flatMap Part.declared = ps.flatMap Part.declared := by
  have hholding (place : Place) (v : Located) : [place.holding v].flatMap Part.declared = [] := by
    rcases place with (_ | _) | _ <;> rfl
  have htaken (place : Place) (w : Located) : [place.taken w].flatMap Part.declared = [] := by
    rcases place with (_ | _) | _ <;> rfl
  induction h with
  | nil | node | inert | markup | leave | keep | site => rfl
  | cons _ _ ih ihs =>
    simp only [List.flatMap_cons, List.flatMap_nil, List.append_nil] at ih ⊢
    rw [ih, ihs]
  | enter => rw [hholding, hholding]
  | @move _ spot =>
    rw [hholding]
    cases spot <;> rfl
  | loop => rw [hholding, htaken]
  | search _ hn =>
    simp only [List.flatMap_cons, List.flatMap_nil, List.append_nil, Part.declared, here_node]
    exact Node.declared_of_shape hn
  | found hm h =>
    simp only [List.flatMap_cons, List.flatMap_nil, List.append_nil, Part.declared]
    rw [Node.declared_of_isMarkup hm, Node.declared_of_isMarkup (h.of_node.2.1.isMarkup hm)]

theorem Formed.locals_eq {lp : Lowered adapter} (h : Formed start lp) (hs : s.Shows lp.call) :
    s.declaredNames lp.site.bodyStatements = (lp.mapping.scope lp.tokens).locals := by
  obtain ⟨-, -, hleading, -, -, -⟩ := h
  have hdeclared := hleading.declared
  simp only [List.flatMap_map, Part.declared] at hdeclared
  rw [show lp.site.bodyStatements = lp.leading.map loc from rfl,
    Store.Shows.declaredNames fun t ht => hs.occurs (lp.occurs_leading ht)]
  simp only [Mapping.scope, declaredBy, List.flatMap_map]
  exact hdeclared

/-! ### Bindings -/

/-- The binding of a site, the record of the site around it and the loop attribute agree on where
the mapping call is. -/
def Agrees (s : Store) (outer : Site) (record : List (Entry Loc)) (site : Site) (value : Loc) :
    Prop :=
  match site.binding with
  | .inline => False
  | .itemMerge =>
    outer.schema.itemSource = .merged ∧ s.get value = .name outer.itemName ∧
      ∃ v, record.head? = some (.field outer.itemName v) ∧ UnderConditions s site.mappingCall v
  | .itemPath path => ∃ properties paths, path = ".".intercalate (outer.itemName :: properties) ∧
      s.staticPath value = some (outer.itemName, properties) ∧
      outer.schema.itemSource = .shallowMerged paths ∧ properties ∈ paths ∧
      ∃ copy v, record.head? = some (.field outer.itemName copy) ∧
        valueAt s properties copy = some v ∧ UnderConditions s site.mappingCall v
  | .local name => name ∈ s.declaredNames outer.bodyStatements ∧
      (∃ item, s.get value = .member item name false ∧ s.get item = .name outer.itemName) ∧
      ∃ v, .field name v ∈ record.drop 2 ∧ UnderConditions s site.mappingCall v
  | .field name => (∃ k : Nat, name = "_d" ++ toString k) ∧ s.get value = .name name ∧
      ∃ v, .field name v ∈ record.drop 2 ∧ UnderConditions s site.mappingCall v

theorem Noted.local_mem {scope : LoopScope} {d d' : Draft} {e : Event} {wrapper : Loc}
    {name : String} (h : Noted adapter scope d e d') (hu : e.use = .loop wrapper (.local name)) :
    name ∈ scope.locals := by
  cases h with
  | named _ receiver carrier found hs =>
    obtain ⟨-, hname⟩ := Use.loop.inj hu
    obtain rfl := Binding.local.inj hname
    exact (nestedOf_eq_local hs).2
  | item | value | style => cases hu
  | merged | under | field => cases (Use.loop.inj hu).2

theorem Noted.field_numbered {scope : LoopScope} {d d' : Draft} {e : Event} {wrapper : Loc}
    {name : String} (h : Noted adapter scope d e d') (hu : e.use = .loop wrapper (.field name)) :
    ∃ k : Nat, name = "_d" ++ toString k := by
  cases h with
  | field _ receiver carrier =>
    obtain ⟨-, hname⟩ := Use.loop.inj hu
    obtain rfl := Binding.field.inj hname
    exact ⟨d.dynamicCount, rfl⟩
  | item | value | style => cases hu
  | merged | under | named => cases (Use.loop.inj hu).2

theorem Event.carrier_mem_held {e : Event} {holding : Holding} (h : e.holding = holding)
    (hi : holding ≠ .item) : e.carrier ∈ e.held := by
  rw [Event.held]
  split
  case h_1 he => exact absurd (h.symm.trans he) hi
  case h_2 => exact List.mem_singleton_self _

theorem Event.field_mem {e : Event} {log : List Event} {name : String} (he : e ∈ log)
    (h : e.holding = .field name) : (name, e.carrier) ∈ fieldsOf log :=
  List.mem_filterMap.2 ⟨e, he, by rw [Event.field?, h]⟩

/-- A loop that is fastened to a ledger agrees with the record of the loop that the ledger is of. -/
theorem Formed.agrees {outer lp : Lowered adapter} {e : Event} {v : Located} {key : Loc}
    (h : Formed start outer) (hcall : s.Shows outer.call) (htree : s.Shows lp.tree)
    (hv : IsItem outer.mapping.itemName (itemOf outer.ledger.log) v) (hshows : s.Shows v)
    (he : e ∈ outer.ledger.log) (hu : e.use = .loop lp.wrapper lp.binding)
    (hs : e.source = lp.mapping.receiver) (hc : Guarded lp.call gs e.carrier)
    (hr : Reaches outer.mapping.itemName lp.mapping.receiver e.holding lp.binding lp.source) :
    Agrees s outer.site (.field outer.mapping.itemName v.loc :: .field keyField key ::
      (fieldsOf outer.ledger.log).map fun f => .field f.1 f.2.loc) lp.site lp.source.loc := by
  obtain ⟨d, d', hn⟩ := h.logged.noted he
  have hsource : s.Shows lp.source := htree.occurs lp.occurs_source
  have hitem : outer.ledger.draft.itemValue = (itemOf outer.ledger.log).value := h.logged.holds.item
  have hcarrier (hi : e.holding ≠ .item) : UnderConditions s lp.call.loc e.carrier.loc :=
    hc.underConditions (hcall.occurs (h.occurs_held
      (List.mem_flatMap.2 ⟨e, he, Event.carrier_mem_held rfl hi⟩)))
  generalize hb : lp.binding = binding at hu hr
  generalize hh : e.holding = holding at hr hcarrier
  generalize lp.source = source at hr hsource
  rw [Agrees, show lp.site.binding = binding from hb]
  cases hr with
  | merged l =>
    rw [(h.logged.itemOf_of_mem he).1 hh] at hv hitem
    cases hv
    refine ⟨?_, hsource.get_root, _, rfl, hcarrier (by simp)⟩
    show outer.ledger.draft.itemSource = .merged
    rw [Draft.itemSource, hitem]
    rfl
  | @under path _ herase =>
    obtain ⟨entries, hi, hmem⟩ := (h.logged.itemOf_of_mem he).2 path hh
    rw [hi] at hv hitem
    have hpath : lp.mapping.receiver.staticPath = some (outer.mapping.itemName, path) :=
      hs ▸ hn.staticPath_source hh
    have hcopy : source.staticPath = lp.mapping.receiver.staticPath :=
      fold_eq_of_erase_eq (fun _ _ _ _ _ => rfl) herase
    cases hv with
    | overridden hv =>
      refine ⟨path, entries.map Prod.fst, rfl, ?_, ?_, List.mem_map_of_mem (f := Prod.fst) hmem,
        _, _, rfl, hv.valueAt hshows hmem, hcarrier (by simp)⟩
      · rw [hsource.staticPath, hcopy, hpath]
        rfl
      · show outer.ledger.draft.itemSource = _
        rw [Draft.itemSource, hitem]
        simp [ItemTree.value]
  | @named name _ hpath =>
    refine ⟨?_, ?_, _, List.mem_map_of_mem (Event.field_mem he hh), hcarrier (by simp)⟩
    · rw [h.locals_eq hcall]
      exact hn.local_mem hu
    · generalize hp : [name] = path at hpath
      cases hpath with
      | name => cases hp
      | @member properties t l property hpath =>
        obtain ⟨rfl, rfl⟩ : properties = [] ∧ property = name := by
          have hlen := congrArg List.length hp
          simp only [List.length_append, List.length_singleton] at hlen
          obtain rfl := List.length_eq_zero_iff.1 (show properties.length = 0 by omega)
          exact ⟨rfl, (List.singleton_inj.1 hp).symm⟩
        generalize hnil : ([] : List String) = none at hpath
        cases hpath with
        | name k =>
          exact ⟨k, hsource.get_root, (hsource.child (List.mem_singleton_self _)).get_root⟩
        | member => simp at hnil
  | field l name =>
    exact ⟨hn.field_numbered hu, hsource.get_root, _,
      List.mem_map_of_mem (Event.field_mem he hh), hcarrier (by simp)⟩

/-! ### Whole runs -/

theorem Lowered.get_call (lp : Lowered adapter) (hs : s.Shows lp.call) :
    ∃ callee argument, s.get lp.site.mappingCall = .call callee [argument] ∧
      s.stripParens argument = lp.site.callback := by
  refine ⟨_, _, hs.get_root, ?_⟩
  have hargument := (hs.child (List.mem_cons_of_mem _ (List.mem_singleton_self _))).stripParens
  rw [strip_inParens, Bare.strip fun inner => by simp] at hargument
  exact hargument

/-- No mapping call is lost or copied: the call and the wrapper of every site have one place each.
The loop attribute of a site that stands alone is its own call. A site in another one has its call
in the record of that one, where its binding says, and its loop attribute leads there. -/
theorem lowerLoops_bindings (adapter : Adapter) {s : Store} {root : Loc} (h : s.IsTree root)
    (a : Allocator) :
    let p := (lowerLoops adapter root ⟨s, a, []⟩).2
    ∀ site ∈ p.sites,
      (∃! path, p.store.descend path root = some site.mappingCall) ∧
      (∃! path, p.store.descend path root = some site.wrapper) ∧
      (∃ callee argument, p.store.get site.mappingCall = .call callee [argument] ∧
        p.store.stripParens argument = site.callback) ∧
      ∃ value, site.loopValue? adapter p.store = some value ∧
        match site.parent with
        | none => site.binding = .inline ∧ value = site.mappingCall
        | some id => ∃ outer ∈ p.sites, outer.id = id ∧ ∃ record,
            verifyCallback p.store outer = .ok record ∧ Agrees p.store outer record site value := by
  intro p site hsite
  obtain ⟨t', loops, hlow, hloc, hown, hsites⟩ := lowerLoops_sites adapter h a
  have hshows : p.store.Shows t' := hown.shows le_rfl
  obtain ⟨lp, hlp, rfl⟩ := (hsites site).1 hsite
  obtain ⟨htree, hcall⟩ := hlow.placed lp hlp
  have hbound := hlow.fastened lp hlp
  refine ⟨hloc ▸ hown.existsUnique_path hcall, hloc ▸ hown.existsUnique_path htree,
    lp.get_call (hshows.occurs hcall), lp.source.loc, lp.loopValue?_eq (hshows.occurs htree), ?_⟩
  cases hbound with
  | alone hp hb hs =>
    rw [show lp.site.parent = none from hp]
    exact ⟨hb, congrArg loc hs⟩
  | @within L e gs hL hp he hu hs hc hr =>
    obtain ⟨outer, houter, rfl⟩ := List.mem_map.1 hL
    have hformed := hlow.formed outer houter
    obtain ⟨hscope, hid, -⟩ := hformed.ledger
    have hshown : p.store.Shows outer.call := hshows.occurs (hlow.placed outer houter).2
    obtain ⟨key, v, hv, hvc, hrecord⟩ := hformed.verifyCallback_eq hshown
    rw [show lp.site.parent = some outer.ledger.id from hp]
    rw [hscope] at hr
    exact ⟨outer.site, (hsites _).2 ⟨outer, houter, rfl⟩, hid.symm, _, hrecord,
      hformed.agrees hshown (hshows.occurs htree) hv (hshown.occurs hvc) he hu hs hc hr⟩

theorem nestedLoops_bound :
    let p := (lowerLoops .wechat ⟨22⟩ ⟨nestedLoops, ⟨0⟩, []⟩).2
    p.sites.map (fun site => (site.itemName, site.parent, site.binding, site.mappingCall,
      site.wrapper)) = [("item", none, .inline, ⟨20⟩, ⟨37⟩),
        ("tag", some 0, .itemPath "item.tags", ⟨16⟩, ⟨29⟩)] := by
  cbv

/-- The loop over the tags of an item has its call in the record of the loop over the items. -/
theorem nestedLoops_bindings :
    let p := (lowerLoops .wechat ⟨22⟩ ⟨nestedLoops, ⟨0⟩, []⟩).2
    nestedLoops.IsTree ⟨22⟩ ∧
      p.sites.map (fun site => (site.itemName, site.parent, site.binding, site.mappingCall,
        site.wrapper)) = [("item", none, .inline, ⟨20⟩, ⟨37⟩),
          ("tag", some 0, .itemPath "item.tags", ⟨16⟩, ⟨29⟩)] ∧
      (∃! path, p.store.descend path ⟨22⟩ = some ⟨16⟩) ∧
      (∃! path, p.store.descend path ⟨22⟩ = some ⟨29⟩) ∧
      ∃ tag ∈ p.sites, tag.binding = .itemPath "item.tags" ∧
        ∃ value, tag.loopValue? .wechat p.store = some value ∧
          ∃ outer ∈ p.sites, outer.id = 0 ∧ ∃ record,
            verifyCallback p.store outer = .ok record ∧
            Agrees p.store outer record tag value := by
  intro p
  have hbindings := lowerLoops_bindings .wechat nestedLoops_isTree ⟨0⟩
  obtain ⟨tag, hmem, htag⟩ :=
    List.mem_map.1 (nestedLoops_bound ▸ List.mem_cons_of_mem _ (List.mem_singleton_self _))
  obtain ⟨-, hparent, hbinding, hcall, hwrapper⟩ := by simpa only [Prod.mk.injEq] using htag
  obtain ⟨honce, hshown, -, value, hvalue, houter⟩ := hbindings tag hmem
  rw [hcall] at honce
  rw [hwrapper] at hshown
  rw [hparent] at houter
  exact ⟨nestedLoops_isTree, nestedLoops_bound, honce, hshown, tag, hmem, hbinding, value, hvalue,
    houter⟩

end JsxLoops.Loop
