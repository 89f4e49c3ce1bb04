import JsxLoops.Proofs.Leaves
import Mathlib

/-!
Which expressions are evaluated. Operands and branches of a template are evaluated only where the
conditions in front of them select them, so a leaf under conditions may be skipped. A leaf that is
moved into the record of its loop is evaluated with the record, whatever the conditions: only what
stands before it in the record can keep it from being evaluated, by throwing.
-/

namespace JsxLoops.Tree

open Located

/-! ### Evaluation -/

inductive Result where
  /-- `null` or `undefined`. -/
  | nullish
  /-- Another value that counts as false. -/
  | falsy
  | truthy
  | thrown
deriving DecidableEq

/-- What every expression comes to in some environment. -/
abbrev Env := Subtree → Result

/-- Whether the right operand of an operator is evaluated after the left one. -/
def Result.goesOn (op : String) : Result → Bool
  | .thrown => false
  | r =>
    if op = "&&" then r = .truthy
    else if op = "||" then r ≠ .truthy
    else if op = "??" then r = .nullish
    else true

namespace Located

variable (ρ : Env)

/-- Whether a chain of members and calls stops early, since an object with an optional member is
missing. -/
def stops : Located → Bool := fold fun _ n m => match n, m with
  | .member object _ optional, .member stopped _ _ =>
    stopped || optional && ρ object.erase = .nullish
  | _, .index stopped _ | _, .call stopped _ => stopped
  | _, _ => false

/-- What is evaluated of expressions that stand in a row: those up to the first that throws. -/
def inTurn : List Located → List Located
  | [] => []
  | t :: ts => t :: if ρ t.erase = .thrown then [] else inTurn ts

end Located

/-- The children that are evaluated with a node. The body of a function is not. -/
def Node.reached (ρ : Env) : Node Located → List Located
  | .logical op left right => left :: if (ρ left.erase).goesOn op then [right] else []
  | .conditional test yes no => test :: match ρ test.erase with
    | .thrown => []
    | .truthy => [yes]
    | _ => [no]
  | .index o i => if o.stops ρ then [o] else inTurn ρ [o, i]
  | .call callee arguments =>
    if callee.stops ρ then [callee] else inTurn ρ (callee :: arguments)
  | .lambda _ => []
  | n => inTurn ρ n.children

/-- Evaluating a tree evaluates the expression `u` in it. -/
inductive Evaluates (ρ : Env) (u : Located) : Located → Prop
  | self : Evaluates ρ u u
  | child {l : Loc} {n : Node Located} {c : Located} (hc : c ∈ n.reached ρ)
    (h : Evaluates ρ u c) : Evaluates ρ u (.node l n)

variable {ρ : Env} {u v : Located}

theorem mem_of_mem_inTurn {ts : List Located} (h : v ∈ inTurn ρ ts) : v ∈ ts := by
  induction ts with
  | nil => cases h
  | cons t ts ih =>
    rw [inTurn] at h
    rcases List.mem_cons.1 h with rfl | h
    · exact List.mem_cons_self
    · split at h
      · cases h
      · exact List.mem_cons_of_mem t (ih h)

theorem mem_inTurn (before : List Located) {after : List Located}
    (h : ∀ w ∈ before, ρ w.erase ≠ .thrown) : v ∈ inTurn ρ (before ++ v :: after) := by
  induction before with
  | nil => exact List.mem_cons_self
  | cons w before ih =>
    rw [List.cons_append, inTurn, if_neg (h w List.mem_cons_self)]
    exact List.mem_cons_of_mem w (ih fun x hx => h x (List.mem_cons_of_mem w hx))

theorem Node.mem_children_of_reached {n : Node Located} (h : v ∈ n.reached ρ) :
    v ∈ n.children := by
  cases n with
  | logical op left right =>
    rw [reached] at h
    split at h <;> simp_all [children]
  | conditional test yes no =>
    rw [reached] at h
    split at h <;> simp_all [children] <;> tauto
  | index o i =>
    rw [reached] at h
    split at h
    · simp_all [children]
    · exact mem_of_mem_inTurn h
  | call callee arguments =>
    rw [reached] at h
    split at h
    · simp_all [children]
    · exact mem_of_mem_inTurn h
  | lambda f => cases h
  | _ => exact mem_of_mem_inTurn (ρ := ρ) h

theorem Evaluates.occurs (h : Evaluates ρ u v) : Occurs u v := by
  induction h with
  | self => exact .self
  | child hc _ ih => exact .child (Node.mem_children_of_reached hc) ih

theorem Evaluates.entry {l : Loc} {entries : List (Entry Located)} (before : List Located)
    {after : List Located} (hsplit : (Node.object entries).children = before ++ v :: after)
    (hbefore : ∀ w ∈ before, ρ w.erase ≠ .thrown) (h : Evaluates ρ u v) :
    Evaluates ρ u (.node l (.object entries)) := by
  refine .child ?_ h
  show v ∈ inTurn ρ (Node.object entries).children
  rw [hsplit]
  exact mem_inTurn before hbefore

end JsxLoops.Tree

namespace JsxLoops.Loop

open JsxLoops.Tree Located

variable {adapter : Adapter} {start : Nat} {gs : List Premise} {s : Store} {sites : List Site}
  {ρ : Env} {t u v : Located}

/-! ### Conditions of a template -/

/-- Whether a condition selects what stands under it. -/
def Premise.selects (ρ : Env) : Premise → Bool
  | .operand op left => (ρ left.erase).goesOn op
  | .whenTrue test => ρ test.erase = .truthy
  | .whenFalse test => ρ test.erase = .falsy ∨ ρ test.erase = .nullish

/-- The conditions that a part adds. -/
def Part.under : Part → List Premise
  | .operand under _ => under
  | _ => []

theorem Down.among {p : Part} {spot : Spot}
    (h : Down (Place.holding (.spot spot) v) gs p) : Among v p.roots := by
  induction h with
  | here => exact Place.among_roots _ v
  | node hp _ ih =>
    refine ih.mono fun c hc => ⟨_, List.mem_singleton_self _, ?_⟩
    exact .child (mem_children_of_roots hp hc) .self
  | markup _ _ ih => exact ih
  | @enter _ place u _ _ ih =>
    refine ih.mono fun c hc => ?_
    obtain rfl := List.mem_singleton.1 hc
    exact place.among_roots c

theorem nodup_of_nodup_cells {ts : List Located} (h : ((cellsOf ts).map Cell.loc).Nodup) :
    ts.Nodup := by
  induction ts with
  | nil => exact List.nodup_nil
  | cons t ts ih =>
    rw [cellsOf_cons, Multiset.map_add, Multiset.nodup_add] at h
    refine List.nodup_cons.2 ⟨fun ht => ?_, ih h.2.1⟩
    have hroot := Multiset.mem_map_of_mem Cell.loc (root_mem_cells t)
    refine Multiset.disjoint_left.1 h.2.2 hroot ?_
    exact Multiset.mem_map_of_mem Cell.loc
      (Multiset.mem_of_le (cells_le_of_mem ht) (root_mem_cells t))

theorem Part.selects_of_reached {p : Part} {l : Loc} {n : Node Located} (hp : p ∈ partsOf l n)
    (hn : n.children.Nodup) (hv : v ∈ p.roots) (hr : v ∈ n.reached ρ) :
    ∀ g ∈ p.under, g.selects ρ = true := by
  intro g hg
  cases n with
  | conditional test yes no =>
    have hapart : test ≠ yes ∧ test ≠ no ∧ yes ≠ no := by
      simpa [Node.children, and_assoc] using hn
    -- the branch is not the test, and it is the one that the test selects
    rw [Node.reached] at hr
    rcases List.mem_cons.1 hp with rfl | hp
    · obtain rfl := List.mem_singleton.1 hv
      obtain rfl := List.mem_singleton.1 hg
      cases hρ : ρ test.erase <;> simp [Premise.selects, hρ] at hr ⊢ <;> grind
    · obtain rfl := List.mem_singleton.1 hp
      obtain rfl := List.mem_singleton.1 hv
      obtain rfl := List.mem_singleton.1 hg
      cases hρ : ρ test.erase <;> simp [Premise.selects, hρ] at hr ⊢ <;> grind
  | logical op left right =>
    have hapart : left ≠ right := by simpa [Node.children] using hn
    obtain rfl := List.mem_singleton.1 hp
    obtain rfl := List.mem_singleton.1 hv
    obtain rfl := List.mem_singleton.1 hg
    rw [Node.reached] at hr
    rcases List.mem_cons.1 hr with he | hr
    · exact absurd he.symm hapart
    · split at hr
      · assumption
      · cases hr
  | paren inner =>
    obtain rfl := List.mem_singleton.1 hp
    cases hg
  | element e =>
    rcases List.mem_append.1 hp with hp | hp
    · obtain ⟨i, hi, rfl⟩ := List.mem_mapIdx.1 hp
      cases hg
    · obtain ⟨c, hc, rfl⟩ := List.mem_map.1 hp
      cases hg
  | fragment cs =>
    obtain ⟨c, hc, rfl⟩ := List.mem_map.1 hp
    cases hg
  | _ => cases hp

theorem evaluates_of_child {l : Loc} {n : Node Located} {c : Located}
    (hn : ((cellsOf n.children).map Cell.loc).Nodup) (hc : c ∈ n.children) (hv : Occurs v c)
    (h : Evaluates ρ v (.node l n)) : c ∈ n.reached ρ ∧ Evaluates ρ v c := by
  generalize ht : Located.node l n = t at h
  cases h with
  | self =>
    subst ht
    exact absurd hv (LowersWhole.not_occurs_below (u := .node l n) hc)
  | child hd h =>
    obtain ⟨-, rfl⟩ := Located.node.inj ht
    obtain rfl := eq_of_loc_eq hn hc (Node.mem_children_of_reached hd) hv.root_mem h.occurs.root_mem
      rfl
    exact ⟨hd, h⟩

theorem Down.selects {p : Part} {spot : Spot} (h : Down (Place.holding (.spot spot) v) gs p)
    (hunder : ∀ g ∈ p.under, g.selects ρ = true) (hu : u ∈ p.roots)
    (hn : (u.cells.map Cell.loc).Nodup) (hv : Evaluates ρ v u) :
    ∀ g ∈ gs, g.selects ρ = true := by
  induction h generalizing u with
  | here => exact fun g hg => nomatch hg
  | @node _ l n p hp hdown ih =>
    obtain rfl := List.mem_singleton.1 hu
    obtain ⟨c, hc, hvc⟩ := hdown.among
    have hmem := mem_children_of_roots hp hc
    have hchildren : ((cellsOf n.children).map Cell.loc).Nodup := by
      rw [cells_node, Multiset.map_add, Multiset.nodup_add] at hn
      exact hn.2.1
    obtain ⟨hr, hvc⟩ := evaluates_of_child hchildren hmem hvc hv
    refine ih (Part.selects_of_reached hp (nodup_of_nodup_cells hchildren) hc hr) hc ?_ hvc
    exact Multiset.nodup_of_le (Multiset.map_le_map (cells_le_of_mem hmem)) hchildren
  | markup _ _ ih => exact ih (fun g hg => nomatch hg) hu hn hv
  | @enter _ place w _ hdown ih =>
    obtain ⟨c, hc, hvw⟩ := hdown.among
    obtain rfl := List.mem_singleton.1 hc
    have hbelow (hn : (c.cells.map Cell.loc).Nodup) (hv : Evaluates ρ v c) :=
      ih (fun g hg => nomatch hg) (List.mem_singleton_self c) hn hv
    rcases place with (l | _) | under
    · obtain rfl := List.mem_singleton.1 hu
      have hchildren : ((cellsOf [c]).map Cell.loc).Nodup := by
        rw [cells_node, Multiset.map_add, Multiset.nodup_add] at hn
        exact hn.2.1
      obtain ⟨-, hv⟩ := evaluates_of_child (n := .container c) hchildren
        (List.mem_singleton_self c) hvw hv
      exact hbelow (by simpa using hchildren) hv
    · obtain rfl := List.mem_singleton.1 hu
      exact hbelow hn hv
    · obtain rfl := List.mem_singleton.1 hu
      exact List.forall_mem_append.2 ⟨hunder, hbelow hn hv⟩

/-! ### Leaves in a record -/

/-- The record that the callback of a site returns. -/
def Site.record? (site : Site) (s : Store) : Option Loc :=
  match s.get site.callback with
  | .lambda f =>
    match f.body with
    | .block statements =>
      match statements.getLast?.map s.get with
      | some (.returning record) => record
      | _ => none
    | .value _ => none
  | _ => none

theorem Lowered.record?_eq (lp : Lowered adapter) (hs : s.Shows lp.call) :
    lp.site.record? s = some lp.record.loc := by
  have hcallback := hs.occurs lp.occurs_callback
  have hlast := hcallback.child (c := .node lp.last (.returning (some lp.record)))
    (List.mem_append_right _ (List.mem_singleton_self _)) |>.get_root
  rw [Site.record?, show lp.site.callback = lp.mapping.callback from rfl, hcallback.get_root]
  simp only [Node.map, Body.map, List.map_append, List.map_cons, List.map_nil, loc_node,
    List.getLast?_concat, Option.map_some, hlast]

/-- What a record holds for a leaf: the leaf itself, or the call that makes a style of it. -/
inductive Hoisted (adapter : Adapter) (v : Located) : Bool → Located → Prop
  | value : Hoisted adapter v false v
  | style (call callee : Loc) : Hoisted adapter v true
      (.node call (.call (.node callee (.name adapter.createStyle)) [v]))

theorem Hoisted.evaluates {style : Bool} {c : Located} (h : Hoisted adapter v style c)
    (hstyle : style = true → ρ (.node (.name adapter.createStyle)) ≠ .thrown) :
    Evaluates ρ v c := by
  cases h with
  | value => exact .self
  | style call callee =>
    refine .child ?_ .self
    have hstops : stops ρ (.node callee (.name adapter.createStyle)) = false := by
      rw [stops, fold_node]
      rfl
    rw [Node.reached, if_neg (by simp [hstops])]
    refine mem_inTurn [_] (List.forall_mem_singleton.2 ?_)
    rw [erase_node]
    exact hstyle rfl

/-- A leaf that is shown by a path has an entry in the record, unless it is the item. -/
theorem Formed.hoisted {lp : Lowered adapter} {e : Event} {spot : Spot} (h : Formed start lp)
    (he : e ∈ lp.ledger.log) (hu : e.use = .spot spot)
    (hv : adapter.isStylePosition spot.position = true ∨
      e.source.strip.here ≠ .name lp.mapping.itemName) :
    ∃ before c after, lp.record.here.children = before ++ c :: after ∧
      Hoisted adapter e.source (adapter.isStylePosition spot.position) c := by
  obtain ⟨l, key, item, -, hrecord⟩ := h.record_eq
  have hentry (name : String) (hh : e.holding = .field name) :
      e.carrier ∈ lp.record.here.children := by
    rw [hrecord]
    simp only [here_node, Node.children, List.mem_flatMap]
    refine ⟨.field name e.carrier, ?_, by simp [Entry.children, Entry.field]⟩
    exact List.mem_cons_of_mem _ (List.mem_cons_of_mem _
      (List.mem_map_of_mem (f := fun f : String × Located => Entry.field f.1 f.2)
        (Event.field_mem he hh)))
  obtain ⟨d, d', hn⟩ := h.logged.noted he
  cases hn with
  | item spot' v hshape =>
    obtain rfl := Use.spot.inj hu
    obtain ⟨hposition, hitem⟩ := leafOf_eq_item_iff.1 hshape
    rcases hv with hv | hv
    · rw [hposition] at hv
      cases hv
    · exact absurd hitem hv
  | value spot' v shape hs hshape =>
    obtain rfl := Use.spot.inj hu
    obtain ⟨before, after, hsplit⟩ := List.append_of_mem (hentry _ rfl)
    have hposition : adapter.isStylePosition spot'.position = false := by
      refine Bool.eq_false_iff.2 fun hposition => ?_
      rw [leafOf_eq_style_iff.2 hposition] at hshape
      rcases hs with rfl | rfl <;> cases hshape
    exact ⟨before, v, after, hsplit, hposition ▸ .value⟩
  | style spot' v call callee hshape =>
    obtain rfl := Use.spot.inj hu
    obtain ⟨before, after, hsplit⟩ := List.append_of_mem (hentry _ rfl)
    exact ⟨before, _, after, hsplit, leafOf_eq_style_iff.1 hshape ▸ .style call callee⟩
  | merged | under | named | field => cases hu

/-- A leaf under conditions is evaluated in its template only if they select it. Moved into the
record of its loop it is evaluated with the record, unless an entry before it throws. -/
theorem lowerLoops_hoisted (adapter : Adapter) {root : Loc} (h : s.IsTree root) (a : Allocator) :
    let p := (lowerLoops adapter root ⟨s, a, []⟩).2
    ∀ site ∈ p.sites, ∀ t, Stood p.sites (s.treeAt root) t → t.loc = site.ownedSubtree →
      ∀ gs spot v text, Leaf t gs spot v → Mustache p.store spot text →
        (adapter.isStylePosition spot.position = true ∨ v.strip.here ≠ .name site.itemName) →
        (∀ ρ, (∃ g ∈ gs, g.selects ρ = false) → ¬ Evaluates ρ v t) ∧
        ∃ record before c after, site.record? p.store = some record ∧
          (p.store.treeAt record).here.children = before ++ c :: after ∧
          Hoisted adapter v (adapter.isStylePosition spot.position) c ∧
          ∀ ρ, (∀ w ∈ before, ρ w.erase ≠ .thrown) →
            (adapter.isStylePosition spot.position = true →
              ρ (.node (.name adapter.createStyle)) ≠ .thrown) →
            Evaluates ρ v (p.store.treeAt record) := by
  intro p site hsite t ht hloc gs spot v text hleaf hm hv
  obtain ⟨t', loops, hrun, -, hown, hsites⟩ := lowerLoops_sites adapter h a
  obtain ⟨lp, hlp, rfl⟩ := (hsites site).1 hsite
  refine ⟨fun ρ ⟨g, hg, hfails⟩ hevaluates => ?_, ?_⟩
  · have hselects := hleaf.1.selects (fun g hg => nomatch hg) (List.mem_singleton_self t)
      (ht.nodup h.owns_treeAt.nodup) hevaluates g hg
    rw [hfails] at hselects
    cases hselects
  -- the template that stood there is the one that the run went through, so its leaf was moved
  obtain rfl := hrun.template_eq h.owns_treeAt.nodup hown.nodup hsites hlp ht hloc
  have hformed := hrun.formed lp hlp
  obtain ⟨htree, hcall⟩ := hrun.placed lp hlp
  have hshows : p.store.Shows t' := hown.shows le_rfl
  obtain ⟨x, hx, ⟨-, hkept⟩ | ⟨e, he, hu, rfl, -⟩⟩ := hformed.leaf hleaf
  · exact absurd hm (lp.not_mustache (hshows.occurs htree) hx hkept)
  obtain ⟨before, c, after, hsplit, hhoisted⟩ := hformed.hoisted he hu hv
  have hrecord : p.store.treeAt lp.record.loc = lp.record :=
    (hshows.occurs (lp.occurs_record.trans hcall)).treeAt_eq
  refine ⟨lp.record.loc, before, c, after, lp.record?_eq (hshows.occurs hcall), ?_, hhoisted, ?_⟩
  · rw [hrecord, hsplit]
  · intro ρ hbefore hstyle
    obtain ⟨l, key, item, -, hobject⟩ := hformed.record_eq
    rw [hobject] at hsplit
    rw [hrecord, hobject]
    exact .entry before hsplit hbefore (hhoisted.evaluates hstyle)

/-- The leaf `row.user.name` of the template `<li>{row.user && <b>{row.user.name}</b>}</li>`. -/
def guardedName : Located :=
  .node ⟨6⟩ (.member (.node ⟨5⟩ (.member (.node ⟨4⟩ (.name "row")) "user" false)) "name" false)

/-- The condition that it stands under. -/
def guardedUser : Located := .node ⟨3⟩ (.member (.node ⟨2⟩ (.name "row")) "user" false)

def guardedTemplate : Located :=
  .node ⟨11⟩ (.element ⟨"li", [], [.node ⟨10⟩ (.container (.node ⟨9⟩ (.logical "&&" guardedUser
    (.node ⟨8⟩ (.element ⟨"b", [], [.node ⟨7⟩ (.container guardedName)], false⟩)))))], false⟩)

/-- The loop around it, in `<ul>{rows.map((row) => …)}</ul>`. -/
def guardedLeaf : Store where
  nodes := #[.name "rows", .member ⟨0⟩ "map" false, .name "row", .member ⟨2⟩ "user" false,
    .name "row", .member ⟨4⟩ "user" false, .member ⟨5⟩ "name" false, .container ⟨6⟩,
    .element ⟨"b", [], [⟨7⟩], false⟩, .logical "&&" ⟨3⟩ ⟨8⟩, .container ⟨9⟩,
    .element ⟨"li", [], [⟨10⟩], false⟩,
    .lambda ⟨.arrow, false, false, [.plain "row"], .value ⟨11⟩⟩, .call ⟨1⟩ [⟨12⟩],
    .container ⟨13⟩, .element ⟨"ul", [], [⟨14⟩], false⟩]

/-- A row without a user, so that there is no name to read. -/
def missingUser : Env
  | .node (.member _ "user" _) => .nullish
  | .node (.member _ "name" _) => .thrown
  | _ => .truthy

theorem guardedLeaf_isTree : guardedLeaf.IsTree ⟨15⟩ :=
  Store.isTree_of_filled (by decide) (by decide) (by decide)

theorem guardedLeaf_template (sites : List Site) :
    Stood sites (guardedLeaf.treeAt ⟨15⟩) guardedTemplate := by
  rw [show guardedLeaf.treeAt ⟨15⟩ = .node ⟨15⟩ (.element ⟨"ul", [], [.node ⟨14⟩ (.container
    (.node ⟨13⟩ (.call (.node ⟨1⟩ (.member (.node ⟨0⟩ (.name "rows")) "map" false))
      [.node ⟨12⟩ (.lambda ⟨.arrow, false, false, [.plain "row"],
        .value guardedTemplate⟩)])))], false⟩) from rfl]
  exact .only_loop

theorem guardedLeaf_leaf :
    Leaf guardedTemplate [.operand "&&" guardedUser] (.text ⟨7⟩) guardedName := by
  refine ⟨.node List.mem_cons_self (@Down.enter _ _ (.spot (.text ⟨10⟩)) _ ?_ (.node
    List.mem_cons_self (@Down.enter _ _ (.operand [.operand "&&" guardedUser]) _ ?_
      (.node List.mem_cons_self .here)))), ?_⟩ <;> cbv

theorem guardedLeaf_record :
    let p := (lowerLoops .wechat ⟨15⟩ ⟨guardedLeaf, ⟨0⟩, []⟩).2
    p.sites.map (fun site => (site.itemName, site.ownedSubtree, site.record? p.store)) =
        [("row", ⟨11⟩, some ⟨18⟩)] ∧
      p.store.get ⟨7⟩ = .mustache "row._d0" ∧
      p.store.treeAt ⟨18⟩ = .node ⟨18⟩ (.object [.field "row" (.node ⟨16⟩ (.name "row")),
        .field "_key" (.node ⟨17⟩ (.name "_key0")), .field "_d0" guardedName]) := by
  cbv

theorem guardedLeaf_hoisted :
    let p := (lowerLoops .wechat ⟨15⟩ ⟨guardedLeaf, ⟨0⟩, []⟩).2
    guardedLeaf.IsTree ⟨15⟩ ∧ ∃ site ∈ p.sites,
      Stood p.sites (guardedLeaf.treeAt ⟨15⟩) guardedTemplate ∧
      guardedTemplate.loc = site.ownedSubtree ∧
      Leaf guardedTemplate [.operand "&&" guardedUser] (.text ⟨7⟩) guardedName ∧
      Mustache p.store (.text ⟨7⟩) "row._d0" ∧ guardedName.strip.here ≠ .name site.itemName ∧
      (∀ ρ, (∃ g ∈ [Premise.operand "&&" guardedUser], g.selects ρ = false) →
        ¬ Evaluates ρ guardedName guardedTemplate) ∧
      ∃ record before c after, site.record? p.store = some record ∧
        (p.store.treeAt record).here.children = before ++ c :: after ∧
        Hoisted .wechat guardedName false c ∧
        ∀ ρ, (∀ w ∈ before, ρ w.erase ≠ .thrown) →
          Evaluates ρ guardedName (p.store.treeAt record) := by
  intro p
  obtain ⟨hsites, hshown, -⟩ := guardedLeaf_record
  obtain ⟨site, hmem, hsite⟩ := List.mem_map.1 (hsites ▸ List.mem_singleton_self _)
  have hsubtree : site.ownedSubtree = ⟨11⟩ := congrArg (fun x => x.2.1) hsite
  have hv : guardedName.strip.here ≠ .name site.itemName := by
    rw [guardedName, Bare.strip (fun inner => by simp)]
    simp
  obtain ⟨hskipped, record, before, c, after, hrecord, hsplit, hhoisted, hevaluates⟩ :=
    lowerLoops_hoisted .wechat guardedLeaf_isTree ⟨0⟩ site hmem _ (guardedLeaf_template _)
      hsubtree.symm _ _ _ _ guardedLeaf_leaf (.text hshown) (.inr hv)
  exact ⟨guardedLeaf_isTree, site, hmem, guardedLeaf_template _, hsubtree.symm, guardedLeaf_leaf,
    .text hshown, hv, hskipped, record, before, c, after, hrecord, hsplit, hhoisted,
    fun ρ hbefore => hevaluates ρ hbefore nofun⟩

/-- The name of a missing user is skipped in the template, and read in the record. -/
theorem guardedLeaf_evaluated :
    let p := (lowerLoops .wechat ⟨15⟩ ⟨guardedLeaf, ⟨0⟩, []⟩).2
    Leaf guardedTemplate [.operand "&&" guardedUser] (.text ⟨7⟩) guardedName ∧
      p.store.get ⟨7⟩ = .mustache "row._d0" ∧
      (Premise.operand "&&" guardedUser).selects missingUser = false ∧
      p.sites.map (fun site => site.record? p.store) = [some ⟨18⟩] ∧
      Evaluates missingUser guardedName (p.store.treeAt ⟨18⟩) ∧
      missingUser guardedName.erase = .thrown := by
  intro p
  obtain ⟨hsites, hshown, hrecord⟩ := guardedLeaf_record
  refine ⟨guardedLeaf_leaf, hshown, by cbv, ?_, ?_, by cbv⟩
  · have hmap := congrArg (List.map fun x => x.2.2) hsites
    rwa [List.map_map] at hmap
  · rw [hrecord]
    refine .entry [.node ⟨16⟩ (.name "row"), .node ⟨17⟩ (.name "_key0")] rfl ?_ .self
    intro w hw
    simp only [List.mem_cons, List.not_mem_nil, or_false] at hw
    rcases hw with rfl | rfl <;> rw [erase_node] <;> simp [Node.map, missingUser]

end JsxLoops.Loop
