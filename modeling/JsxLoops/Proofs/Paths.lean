import JsxLoops.Proofs.Nesting
import JsxLoops.Proofs.Template
import Mathlib

/-!
Where the paths of a template lead. A mustache that a run leaves stands in the wrapper of a loop,
and no wrapper of another loop stands between the two. Its path is the item of that loop and a field
of the record that the callback of the loop returns. A numbered field is used in one place only, and
holds what stood there before the run, with the indices of the loops around it renamed.
-/

namespace JsxLoops.Loop

open JsxLoops.Tree Located

variable {adapter : Adapter} {start : Nat} {gs : List Premise} {ps ps' : List Part}
  {σ σ' : Stage adapter} {s : Store}

/-! ### Mustaches in a store -/

/-- The node that a spot is in. -/
def Spot.holder : Spot → Loc
  | .text container => container
  | .attribute holder _ _ => holder

/-- A store has a path at a spot. -/
inductive Mustache (s : Store) : Spot → String → Prop
  | text {l : Loc} {path : String} (h : s.get l = .mustache path) : Mustache s (.text l) path
  | named {l : Loc} {e : Element Loc} {i : Nat} {name path : String} (hl : s.get l = .element e)
    (h : e.attributes[i]? = some (.named name (.mustache path))) :
    Mustache s (.attribute l i name) path

theorem Shown.loc_eq {u : Located} {spot : Spot} {text : String} (h : Shown u spot text) :
    u.loc = spot.holder := by
  cases h <;> rfl

theorem Shown.mustache {u : Located} {spot : Spot} {text : String} (h : Shown u spot text)
    (hs : s.Shows u) : Mustache s spot text := by
  cases h with
  | text => exact .text hs.get_root
  | named ha =>
    refine .named hs.get_root ?_
    simp only [List.getElem?_map, ha]
    rfl

theorem Mustache.shown {u : Located} {spot : Spot} {text : String} (h : Mustache s spot text)
    (hs : s.Shows u) (hu : u.loc = spot.holder) : Shown u spot text := by
  obtain ⟨l, n⟩ := u
  have hget := hs.get_root
  cases h with
  | text h =>
    obtain rfl : l = _ := hu
    rw [h] at hget
    cases n with
    | mustache path =>
      obtain rfl := Node.mustache.inj hget
      exact .text l _
    | _ => cases hget
  | named hl h =>
    obtain rfl : l = _ := hu
    rw [hl] at hget
    cases n with
    | element e =>
      obtain rfl := Node.element.inj hget
      simp only [List.getElem?_map, Option.map_eq_some_iff] at h
      obtain ⟨a, ha, hm⟩ := h
      refine .named (ha.trans (congrArg some ?_))
      rcases a with ⟨name, _ | _ | _ | _⟩ | _ <;> cases hm
      rfl
    | _ => cases hget

/-! ### Wrappers around a location -/

/-- The location stands in the wrapper of a site. -/
def Encloses (s : Store) (site : Site) (l : Loc) : Prop :=
  ∃ path, path ≠ [] ∧ s.descend path site.wrapper = some l

/-- Of the sites whose wrappers stand around a location, the one whose wrapper is closest. -/
structure Innermost (s : Store) (sites : List Site) (site : Site) (l : Loc) : Prop where
  encloses : Encloses s site l
  closest : ∀ other ∈ sites, Encloses s other l →
    other.wrapper = site.wrapper ∨ Encloses s other site.wrapper

theorem Innermost.wrapper_eq {sites : List Site} {x y : Site} {root l : Loc} (ht : s.IsTree root)
    (hr : ∃ path, s.descend path root = some x.wrapper) (hx : x ∈ sites) (hy : y ∈ sites)
    (h : Innermost s sites x l) (h' : Innermost s sites y l) : x.wrapper = y.wrapper := by
  rcases h'.closest x hx h.encloses with he | ⟨path, hne, hpath⟩
  · exact he
  · rcases h.closest y hy h'.encloses with he | ⟨path', -, hpath'⟩
    · exact he.symm
    · -- the wrapper would stand below itself
      obtain ⟨above, habove⟩ := hr
      have hcycle : s.descend (above ++ (path ++ path')) root = some x.wrapper := by
        simp [Store.descend_append, habove, hpath, hpath']
      have hlen := congrArg List.length (ht.unique _ _ _ habove hcycle)
      have hpos := List.length_pos_of_ne_nil hne
      rw [List.length_append, List.length_append] at hlen
      omega

theorem Reach.exists_path {u t : Located} (h : Reach start u t) :
    ∃ path, t.at? path = some u ∧ ∀ above below v, path = above ++ below → below ≠ [] →
      t.at? above = some v → v.loc.index < start := by
  induction h with
  | self =>
    refine ⟨[], rfl, fun above below v hp hne => ?_⟩
    exact absurd (List.append_eq_nil_iff.1 hp.symm).2 hne
  | @child l n c hl hc _ ih =>
    obtain ⟨path, hpath, hold⟩ := ih
    obtain ⟨i, hi⟩ := List.mem_iff_getElem?.1 hc
    refine ⟨i :: path, Option.bind_eq_some_iff.2 ⟨c, hi, hpath⟩, fun above below v hp hne hv => ?_⟩
    cases above with
    | nil =>
      obtain rfl := Option.some.inj hv
      exact hl
    | cons j above =>
      obtain ⟨rfl, hrest⟩ := List.cons.inj hp
      obtain ⟨d, hd, hv⟩ := Option.bind_eq_some_iff.1 hv
      obtain rfl := Option.some.inj (hi.symm.trans hd)
      exact hold above below v hrest hne hv

theorem occurs_or_occurs {t u x y : Located} (hn : (t.cells.map Cell.loc).Nodup)
    (hx : Occurs x t) (hy : Occurs y t) (hux : Occurs u x) (huy : Occurs u y) :
    Occurs x y ∨ Occurs y x := by
  obtain ⟨p, hp⟩ := hx.exists_path
  obtain ⟨q, hq⟩ := hy.exists_path
  obtain ⟨p', hp'⟩ := hux.exists_path
  obtain ⟨q', hq'⟩ := huy.exists_path
  have hxu : t.at? (p ++ p') = some u := by rw [at?_append, hp]; exact hp'
  have hyu : t.at? (q ++ q') = some u := by rw [at?_append, hq]; exact hq'
  have hpath := path_unique hn hxu hyu rfl
  rcases List.append_eq_append_iff.1 hpath with ⟨r, rfl, -⟩ | ⟨r, rfl, -⟩
  · rw [at?_append, hp] at hq
    exact .inr (occurs_of_at? hq)
  · rw [at?_append, hq] at hp
    exact .inl (occurs_of_at? hp)

theorem encloses_of_occurs {lp : Lowered adapter} {u : Located} (hs : s.Shows lp.tree)
    (hu : Occurs u lp.tree) (hne : u.loc ≠ lp.wrapper) : Encloses s lp.site u.loc := by
  obtain ⟨path, hpath⟩ := hu.exists_path
  refine ⟨path, ?_, ?_⟩
  · rintro rfl
    obtain rfl := Option.some.inj hpath
    exact hne rfl
  · rw [show lp.site.wrapper = lp.tree.loc from rfl, hs.descend, hpath, Option.map_some]

namespace LowersWhole

variable {a a' : Allocator} {t t' : Located} {loops : List (Lowered adapter)}

/-- What the template of a loop shows has the wrapper of that loop as the closest one around it. -/
theorem innermost (h : LowersWhole adapter start a t t' a' loops) (ht : Pristine start t)
    (hown : s.Owns t'.cells) {sites : List Site}
    (hsites : ∀ site ∈ sites, ∃ x ∈ loops, x.site = site) {lp : Lowered adapter}
    (hlp : lp ∈ loops) {c u : Located} (hc : c ∈ lp.tree.here.children) (hu : Reach start u c) :
    Innermost s sites lp.site u.loc := by
  have hshows : s.Shows t' := hown.shows le_rfl
  have htree := (h.placed lp hlp).1
  have hulp : Occurs u lp.tree := hu.occurs.trans (.of_mem hc)
  have hne : u.loc ≠ lp.wrapper := by
    intro he
    obtain rfl : u = lp.tree := Occurs.eq_of_loc_eq hown.nodup (hulp.trans htree) htree he
    exact not_occurs_below hc hu.occurs
  refine ⟨encloses_of_occurs (hshows.occurs htree) hulp hne, fun site hsite hin => ?_⟩
  obtain ⟨x, hx, rfl⟩ := hsites site hsite
  have hxtree := (h.placed x hx).1
  obtain ⟨below, hbelow, hdown⟩ := hin
  rw [show x.site.wrapper = x.tree.loc from rfl, (hshows.occurs hxtree).descend] at hdown
  obtain ⟨u', hu', he⟩ := Option.map_eq_some_iff.1 hdown
  obtain rfl : u' = u := Occurs.eq_of_loc_eq hown.nodup ((occurs_of_at? hu').trans hxtree)
    (hulp.trans htree) he
  by_cases heq : x.wrapper = lp.wrapper
  · exact .inl heq
  · refine .inr ?_
    rcases occurs_or_occurs hown.nodup hxtree htree (occurs_of_at? hu') hulp with hxl | hlx
    · -- the wrapper would stand on the path between, where all nodes are old ones
      exfalso
      obtain ⟨i, hi⟩ := List.mem_iff_getElem?.1 hc
      obtain ⟨path, hpath, hold⟩ := hu.exists_path
      obtain ⟨above, habove⟩ := hxl.exists_path
      have hlong : lp.tree.at? (above ++ below) = some u' := by
        rw [at?_append, habove]
        exact hu'
      have hshort : lp.tree.at? (i :: path) = some u' := Option.bind_eq_some_iff.2 ⟨c, hi, hpath⟩
      have hnodup : (lp.tree.cells.map Cell.loc).Nodup :=
        Multiset.nodup_of_le (Multiset.map_le_map htree.cells_le) hown.nodup
      have hsplit := path_unique hnodup hlong hshort rfl
      cases above with
      | nil => exact heq (congrArg loc (Option.some.inj habove).symm)
      | cons j above =>
        obtain ⟨rfl, hrest⟩ := List.cons.inj hsplit
        obtain ⟨d, hd, hxd⟩ := Option.bind_eq_some_iff.1 habove
        obtain rfl := Option.some.inj (hi.symm.trans hd)
        have hlt : x.wrapper.index < start := hold above below x.tree hrest.symm hbelow hxd
        exact not_occurs_below hc (((h.wrappers ht).2 x hx hlt lp hlp).trans (occurs_of_at? hxd))
    · exact encloses_of_occurs (hshows.occurs hxtree) hlx (Ne.symm heq)

end LowersWhole

/-! ### What stood at a spot -/

/-- The children of a tree. In the callback of a site, the index has the name that belongs to the
loop. -/
def childrenIn (sites : List Site) (t : Located) : List Located :=
  match sites.find? (·.callback = t.loc), t.here with
  | some site, .lambda f =>
    match (f.params.filterMap Binder.name?)[1]? with
    | some index => t.here.children.map (renameFree index site.indexName)
    | none => t.here.children
  | _, _ => t.here.children

/-- A tree that stood in `t`, after the indices of the loops around it were renamed. -/
inductive Stood (sites : List Site) (t : Located) : Located → Prop
  | root : Stood sites t t
  | child {u c : Located} (h : Stood sites t u) (hc : c ∈ childrenIn sites u) : Stood sites t c

/-- An expression that stood at a spot of `t`, after the indices were renamed. -/
def StoodAt (sites : List Site) (t : Located) : Spot → Located → Prop
  | .text container, v => Stood sites t (.node container (.container v))
  | .attribute holder i name, v => ∃ e, Stood sites t (.node holder (.element e)) ∧
      e.attributes[i]? = some (.named name (.expression v))

/-- The part stood in a tree. -/
def Part.Stood (sites : List Site) (t : Located) : Part → Prop
  | .node u | .child u | .operand _ u | .statement u => Loop.Stood sites t u
  | .attribute l i a => ∃ e, Loop.Stood sites t (.node l (.element e)) ∧ e.attributes[i]? = some a
  | .loop m => Loop.Stood sites t
      (.node m.callback (.lambda ⟨m.form, false, false, m.params, m.body⟩))
  | .wrapper _ => True

variable {sites : List Site} {t₀ t' : Located}

theorem Part.Stood.at_spot {spot : Spot} {v : Located}
    (h : (Place.holding (.spot spot) v).Stood sites t₀) : StoodAt sites t₀ spot v := by
  cases spot <;> exact h

theorem childrenIn_of_not_lambda {u : Located} (h : ∀ f, u.here ≠ .lambda f) :
    childrenIn sites u = u.here.children := by
  rw [childrenIn]
  split
  case h_1 f _ hf => exact absurd hf (h f)
  case h_2 => rfl

theorem childrenIn_of_named {l : Loc} {n : Node Located}
    (h : ∀ site ∈ sites, site.callback = l → ∀ f, n = .lambda f →
      (f.params.filterMap Binder.name?)[1]? = some site.indexName) :
    childrenIn sites (.node l n) = n.children := by
  rw [childrenIn]
  split
  case h_2 => rfl
  case h_1 site f hfind hf =>
    have hcallback : site.callback = l := of_decide_eq_true (List.find?_some hfind :)
    have hsame : renameFree site.indexName site.indexName = id := funext (renameFree_self _)
    rw [h site (List.mem_of_find?_eq_some hfind) hcallback f hf]
    simp only [hsame, List.map_id, here_node]

theorem childrenIn_callback {m : Mapping} {tokens : Tokens}
    (hmem : ∃ site ∈ sites, site.callback = m.callback)
    (hindex : ∀ site ∈ sites, site.callback = m.callback → site.indexName = tokens.indexName) :
    childrenIn sites (.node m.callback (.lambda ⟨m.form, false, false, m.params, m.body⟩)) =
      m.body.children.map (m.renamed tokens) := by
  obtain ⟨site, hsite, hcallback⟩ := hmem
  cases hfind : sites.find? (·.callback = m.callback) with
  | none => exact absurd hcallback (by simpa using List.find?_eq_none.1 hfind site hsite)
  | some first =>
    have hfirst : first.callback = m.callback := of_decide_eq_true (List.find?_some hfind :)
    have hname := hindex first (List.mem_of_find?_eq_some hfind) hfirst
    rw [childrenIn, show sites.find? (·.callback = loc (.node m.callback _)) = _ from hfind]
    simp only [here_node, hname, Node.children]
    rw [show m.params.filterMap Binder.name? = m.names from rfl]
    cases hi : m.names[1]? with
    | none =>
      have hsame : m.renamed tokens = id := funext fun t => by rw [Mapping.renamed, hi, id]
      rw [hsame, List.map_id]
    | some index =>
      have hsame : m.renamed tokens = renameFree index tokens.indexName :=
        funext fun t => by rw [Mapping.renamed, hi]
      rw [hsame]

theorem Mapping.renamed_inParens (m : Mapping) (tokens : Tokens) (parens : List Loc) (u : Located) :
    m.renamed tokens (inParens parens u) = inParens parens (m.renamed tokens u) := by
  simp only [renamed]
  split
  · exact renameFree_inParens _ _ _ _
  · rfl

theorem Mapping.renamed_returning (m : Mapping) (tokens : Tokens) (l : Loc) (u : Located) :
    m.renamed tokens (.node l (.returning (some u))) =
      .node l (.returning (some (m.renamed tokens u))) := by
  simp only [renamed]
  split
  · exact renameFree_returning _ _ _ _
  · rfl

namespace Stood

theorem of_mem {u c : Located} (h : Stood sites t₀ u) (hu : ∀ f, u.here ≠ .lambda f)
    (hc : c ∈ u.here.children) : Stood sites t₀ c :=
  h.child (by rwa [childrenIn_of_not_lambda hu])

theorem of_inParens {parens : List Loc} {u : Located} (h : Stood sites t₀ (inParens parens u)) :
    Stood sites t₀ u := by
  induction parens with
  | nil => exact h
  | cons l parens ih =>
    exact ih (h.of_mem (u := .node l (.paren _)) (by simp) (List.mem_singleton_self _))

theorem parts {l : Loc} {n : Node Located} (h : Stood sites t₀ (.node l n)) :
    ∀ p ∈ partsOf l n, p.Stood sites t₀ := by
  intro p hp
  cases partOf_of_mem hp with
  | @valued e i a hn ha =>
    subst hn
    exact ⟨e, h, ha⟩
  | child hn hc | operand hn hc => exact h.of_mem hn hc

theorem holding {place : Place} {v : Located} (h : (place.holding v).Stood sites t₀) :
    Stood sites t₀ v := by
  rcases place with (c | _) | _
  · exact Stood.of_mem h (by simp) (List.mem_singleton_self v)
  · obtain ⟨e, he, ha⟩ := h
    refine he.of_mem (by simp) (List.mem_append_left _ ?_)
    exact List.mem_flatMap.2 ⟨_, List.mem_of_getElem? ha, List.mem_singleton_self v⟩
  · exact h

theorem loop {parens : List Loc} {m : Mapping} (h : Stood sites t₀ (inParens parens m.tree)) :
    (Part.loop m).Stood sites t₀ := by
  refine of_inParens (h.of_inParens.of_mem (c := inParens m.parens _) ?_ ?_)
  · simp [Mapping.tree, Mapping.withCallback]
  · exact List.mem_cons_of_mem _ (List.mem_singleton_self _)

theorem body {m : Mapping} {tokens : Tokens} (h : (Part.loop m).Stood sites t₀)
    (hmem : ∃ site ∈ sites, site.callback = m.callback)
    (hindex : ∀ site ∈ sites, site.callback = m.callback → site.indexName = tokens.indexName) :
    (∀ u ∈ m.leading, Stood sites t₀ (m.renamed tokens u)) ∧
      Stood sites t₀ (m.renamed tokens m.subtree) := by
  have hchild {u : Located} (hu : u ∈ m.body.children) : Stood sites t₀ (m.renamed tokens u) := by
    refine Stood.child h ?_
    rw [childrenIn_callback hmem hindex]
    exact List.mem_map_of_mem hu
  refine ⟨fun u hu => hchild (m.ending.occurs_leading _ u hu), ?_⟩
  suffices hresult : Stood sites t₀ (m.renamed tokens (inParens m.resultParens m.subtree)) by
    rw [m.renamed_inParens] at hresult
    exact hresult.of_inParens
  cases he : m.ending with
  | value => exact hchild (by simp [Mapping.body, he, Ending.body, Body.children])
  | block leading last =>
    have hlast := hchild (u := .node last (.returning (some (inParens m.resultParens m.subtree))))
      (by simp [Mapping.body, he, Ending.body, Body.children])
    rw [m.renamed_returning] at hlast
    exact hlast.of_mem (by simp) (List.mem_singleton_self _)

end Stood

/-- The callback of every site stands in a tree, with the index as its second parameter. -/
def Announced (sites : List Site) (t : Located) : Prop :=
  ∀ site ∈ sites, ∃ form item body, Occurs (.node site.callback (.lambda ⟨form, false, false,
    [.plain item, .plain site.indexName], body⟩)) t

theorem Announced.index_eq {l : Loc} {f : Lambda Located} {site : Site}
    (h : Announced sites t') (hn : (t'.cells.map Cell.loc).Nodup)
    (hl : Occurs (.node l (.lambda f)) t') (hsite : site ∈ sites) (he : site.callback = l) :
    (f.params.filterMap Binder.name?)[1]? = some site.indexName := by
  obtain ⟨form, item, body, ho⟩ := h site hsite
  have hsame := Occurs.eq_of_loc_eq hn ho hl he
  obtain ⟨-, hf⟩ := Located.node.inj hsame
  rw [← Node.lambda.inj hf]
  rfl

/-- What a run leaves of a loop stands in a tree, and the loop is one of the sites. -/
structure Remains (sites : List Site) (t : Located) (lp : Lowered adapter) : Prop where
  site : ∃ site ∈ sites, site.callback = lp.mapping.callback
  call : Occurs lp.call t
  template : ∀ x ∈ lp.subtree.here.children, Occurs x t

/-- What the event moved from a spot stood there. -/
def Event.Stood (sites : List Site) (t : Located) (e : Event) : Prop :=
  ∀ spot, e.use = .spot spot → StoodAt sites t spot e.source

/-- The template of a loop stood in a tree, and so did what was moved out of it. -/
structure Lowered.Stood (sites : List Site) (t : Located) (lp : Lowered adapter) : Prop where
  template : Loop.Stood sites t (lp.mapping.renamed lp.tokens lp.mapping.subtree)
  events : ∀ e ∈ lp.ledger.log, e.Stood sites t

/-- The trees of a part stand in a tree. A wrapper may stand anywhere. -/
def Part.Within (t : Located) : Part → Prop
  | .wrapper _ => True
  | p => ∀ x ∈ p.trees, Occurs x t

theorem Part.Within.of_trees {t : Located} {p : Part} (h : ∀ x ∈ p.trees, Occurs x t) :
    p.Within t := by
  cases p with
  | wrapper => trivial
  | _ => exact h

theorem Part.Within.holding {place : Place} {t v : Located} (h : (place.holding v).Within t) :
    Occurs v t := by
  rcases place with (c | _) | _
  · exact .trans (.child (List.mem_singleton_self v) .self) (h _ (List.mem_singleton_self _))
  · exact h v (List.mem_singleton_self v)
  · exact h v (List.mem_singleton_self v)

theorem Lowers.stood (hn : (t'.cells.map Cell.loc).Nodup) (hsites : Announced sites t')
    (h : Lowers adapter start gs ps σ ps' σ') :
    (∀ p ∈ ps, p.Stood sites t₀) → (∀ p ∈ ps', p.Within t') →
    (∀ lp ∈ σ'.loops, Remains sites t' lp) →
    (∀ e ∈ σ'.log, e ∈ σ.log ∨ e.Stood sites t₀) ∧
      ∀ lp ∈ σ'.loops, lp ∈ σ.loops ∨ lp.Stood sites t₀ := by
  induction h with
  | nil | inert | leave | keep => exact fun _ _ _ => ⟨fun e he => .inl he, fun lp hlp => .inl hlp⟩
  | @cons _ p p' ps ps' σ σ₁ σ₂ _ hs ih ihs =>
    intro hps hps' hloops
    obtain ⟨hlog, hold⟩ := ih (List.forall_mem_singleton.2 (hps p List.mem_cons_self))
      (List.forall_mem_singleton.2 (hps' p' List.mem_cons_self))
      fun lp hlp => hloops lp (hs.loops_prefix.subset hlp)
    obtain ⟨hlog', hold'⟩ := ihs (fun q hq => hps q (List.mem_cons_of_mem p hq))
      (fun q hq => hps' q (List.mem_cons_of_mem p' hq)) hloops
    exact ⟨fun e he => (hlog' e he).elim (hlog e) .inr,
      fun lp hlp => (hold' lp hlp).elim (hold lp) .inr⟩
  | @node _ l n n' _ _ _ _ ih =>
    intro hps hps'
    have hnode : Stood sites t₀ (.node l n) := hps _ (List.mem_singleton_self _)
    have hnode' : ∀ x ∈ n'.children, Occurs x t' := hps' _ (List.mem_singleton_self _)
    refine ih hnode.parts fun p hp => .of_trees fun x hx => hnode' x ?_
    exact mem_children_of_mem_partsOf (List.mem_flatMap.2 ⟨p, hp, hx⟩)
  | @markup _ t t'' _ _ _ _ ih | @found _ t t'' _ _ _ _ ih =>
    intro hps hps'
    have ht : Stood sites t₀ t := hps _ (List.mem_singleton_self _)
    have ht' : Occurs t'' t' := hps' _ (List.mem_singleton_self _) t'' (List.mem_singleton_self _)
    refine ih (List.forall_mem_singleton.2 ht) (List.forall_mem_singleton.2 fun x hx => ?_)
    exact .trans (.of_mem hx) ht'
  | @enter _ place v v' _ _ _ _ ih =>
    intro hps hps'
    have hv := Stood.holding (hps _ (List.mem_singleton_self _))
    have hv' : Occurs v' t' := (hps' _ (List.mem_singleton_self _)).holding
    refine ih (List.forall_mem_singleton.2 hv) (List.forall_mem_singleton.2 fun x hx => ?_)
    exact .trans (.of_mem hx) hv'
  | @move _ spot v a loops L e d _ _ he hu hs =>
    intro hps _ _
    have hv : StoodAt sites t₀ spot v := (hps _ (List.mem_singleton_self _)).at_spot
    refine ⟨fun e' he' => ?_, fun lp hlp => .inl hlp⟩
    rcases List.mem_append.1 he' with he' | he'
    · exact .inl he'
    · obtain rfl := List.mem_singleton.1 he'
      refine .inr fun spot' hu' => ?_
      obtain rfl := Use.spot.inj (hu.symm.trans hu')
      exact hs ▸ hv
  | loop _ _ ih =>
    intro hps _
    have hv := Stood.holding (hps _ (List.mem_singleton_self _))
    exact ih (List.forall_mem_singleton.2 hv.loop) (List.forall_mem_singleton.2 trivial)
  | @search _ l n n' _ _ _ hshape _ ih =>
    intro hps hps'
    have hnode : Stood sites t₀ (.node l n) := hps _ (List.mem_singleton_self _)
    have hnode' : Occurs (.node l n') t' :=
      hps' _ (List.mem_singleton_self _) _ (List.mem_singleton_self _)
    -- a function that is searched through has the name of the index already if it is a callback
    have hchildren : childrenIn sites (.node l n) = n.children := by
      refine childrenIn_of_named fun site hsite he f hf => ?_
      subst hf
      cases n' with
      | lambda f' =>
        obtain ⟨-, -, -, hparams, -⟩ := Lambda.mk.inj (Node.lambda.inj (α := Unit) hshape)
        rw [← hparams]
        exact hsites.index_eq hn hnode' hsite he
      | _ => cases hshape
    refine ih (fun p hp => ?_) fun p hp => .of_trees fun x hx => ?_
    · obtain ⟨c, hc, rfl⟩ := List.mem_map.1 hp
      exact hnode.child (hchildren ▸ hc)
    · obtain ⟨c, hc, rfl⟩ := List.mem_map.1 hp
      obtain rfl := List.mem_singleton.1 hx
      exact .trans (.child hc .self) hnode'
  | @site _ lp σ σ₁ σ₂ parent _ _ _ hleading hsubtree hledger _ _ _ hbound ihl ihs =>
    intro hps _ hloops
    have hloop : (Part.loop lp.mapping).Stood sites t₀ := hps _ (List.mem_singleton_self _)
    have hlp := hloops lp (List.mem_append_right _ (List.mem_singleton_self lp))
    have hindex : ∀ site ∈ sites, site.callback = lp.mapping.callback →
        site.indexName = lp.tokens.indexName := fun site hsite he => by
      have hname := hsites.index_eq hn (lp.occurs_callback.trans hlp.call) hsite he
      exact (Option.some.inj hname).symm
    obtain ⟨hstatements, htemplate⟩ := Stood.body hloop hlp.site hindex
    have hloops₂ (x : Lowered adapter) (hx : x ∈ σ₂.loops) : Remains sites t' x :=
      hloops x (List.mem_append_left _ hx)
    obtain ⟨-, hold⟩ := ihl (fun p hp => by
        obtain ⟨u, hu, rfl⟩ := List.mem_map.1 hp
        exact hstatements u hu)
      (fun p hp => by
        obtain ⟨u, hu, rfl⟩ := List.mem_map.1 hp
        exact List.forall_mem_singleton.2 ((lp.occurs_leading hu).trans hlp.call))
      fun x hx => hloops₂ x (hsubtree.loops_prefix.subset hx)
    obtain ⟨hlog', hold'⟩ := ihs (List.forall_mem_singleton.2 htemplate)
      (List.forall_mem_singleton.2 hlp.template) hloops₂
    refine ⟨fun e he => ?_, fun x hx => ?_⟩
    · simp only [Stage.log] at he ⊢
      generalize σ.ledger = o at hbound ⊢
      cases hbound with
      | inline => cases he
      | nested _ hu =>
        rcases List.mem_append.1 he with he | he
        · exact .inl he
        · obtain rfl := List.mem_singleton.1 he
          refine .inr fun spot hu' => ?_
          cases hu.symm.trans hu'
    · rcases List.mem_append.1 hx with hx | hx
      · exact (hold' x hx).elim (hold x) .inr
      · obtain rfl := List.mem_singleton.1 hx
        rw [Stage.log, hledger] at hlog'
        exact .inr ⟨htemplate, fun e he => (hlog' e he).resolve_left List.not_mem_nil⟩

namespace LowersWhole

variable {a a' : Allocator} {t : Located} {loops : List (Lowered adapter)}

theorem stood (h : LowersWhole adapter start a t t' a' loops) (hn : (t'.cells.map Cell.loc).Nodup)
    (hsites : ∀ site, site ∈ sites ↔ ∃ lp ∈ loops, lp.site = site) :
    ∀ lp ∈ loops, lp.Stood sites t := by
  have hannounced : Announced sites t' := fun site hsite => by
    obtain ⟨lp, hlp, rfl⟩ := (hsites site).1 hsite
    exact ⟨_, _, _, lp.occurs_callback.trans (h.placed lp hlp).2⟩
  have hremains (lp : Lowered adapter) (hlp : lp ∈ loops) : Remains sites t' lp :=
    ⟨⟨lp.site, (hsites _).2 ⟨lp, hlp, rfl⟩, rfl⟩, (h.placed lp hlp).2,
      fun x hx => (lp.occurs_of_subtree hx).trans (h.placed lp hlp).1⟩
  cases h with
  | inside hc h =>
    have hnode : (Part.node t).Stood sites t := .root
    have hstood := h.stood hn hannounced (List.forall_mem_singleton.2 hnode)
      (List.forall_mem_singleton.2 fun x hx => .of_mem hx) hremains
    exact fun lp hlp => (hstood.2 lp hlp).resolve_left List.not_mem_nil
  | @root parens m call root inner _ hcall h =>
    -- the loop at the root is the same one with its wrapper elsewhere
    have hroot := hremains { root with wrapper := m.call } (by simp)
    have hloop : (Part.loop m).Stood sites (inParens parens m.tree) := Stood.loop .root
    have hstood := h.stood hn hannounced (List.forall_mem_singleton.2 hloop)
      (List.forall_mem_singleton.2 trivial) fun x hx => by
        rcases List.mem_append.1 hx with hx | hx
        · exact hremains x (List.mem_append_left _ hx)
        · obtain rfl := List.mem_singleton.1 hx
          exact ⟨hroot.site, hroot.call, hroot.template⟩
    intro lp hlp
    rcases List.mem_append.1 hlp with hlp | hlp
    · exact (hstood.2 lp (List.mem_append_left _ hlp)).resolve_left List.not_mem_nil
    · obtain rfl := List.mem_singleton.1 hlp
      obtain ⟨htemplate, hevents⟩ := (hstood.2 root (by simp)).resolve_left List.not_mem_nil
      exact ⟨htemplate, hevents⟩

end LowersWhole

/-! ### What reads a record -/

/-- The node that uses a record. -/
def Use.place : Use → Loc
  | .spot s => s.holder
  | .loop wrapper _ => wrapper

/-- A field of the record of a site is read: by a path in the template of the site, or by the loop
attribute of a wrapper there. -/
inductive Reads (adapter : Adapter) (s : Store) (sites : List Site) (site : Site) (name : String) :
    Use → Prop
  | spot {spot : Spot} (h : Mustache s spot (site.itemName ++ "." ++ name))
    (hin : Innermost s sites site spot.holder) : Reads adapter s sites site name (.spot spot)
  | loop {inner : Site} {value : Loc} (hinner : inner ∈ sites)
    (hin : Innermost s sites site inner.wrapper) (hvalue : inner.loopValue? adapter s = some value)
    (hname : s.get value = .name name) :
    Reads adapter s sites site name (.loop inner.wrapper inner.binding)

/-- What a record holds under a numbered name for an expression: the expression itself, or the call
that makes a style of it. -/
inductive Carries (adapter : Adapter) (s : Store) (v : Located) : Numbering → Loc → Prop
  | value : Carries adapter s v .value v.loc
  | style {call callee : Loc} (hcall : s.get call = .call callee [v.loc])
    (hcallee : s.get callee = .name adapter.createStyle) : Carries adapter s v .style call

theorem Noted.binding_eq_field {scope : LoopScope} {d d' : Draft} {e : Event} {wrapper : Loc}
    {binding : Binding} {n : Numbering} {k : Nat} (h : Noted adapter scope d e d')
    (hu : e.use = .loop wrapper binding) (hh : e.holding = .field (n.name k)) :
    binding = .field (n.name k) := by
  cases h with
  | item | value | style => cases hu
  | merged | under => cases hh
  | named _ receiver carrier name hs hd =>
    obtain ⟨⟨-, -, hnumber, -⟩, -⟩ := Draft.pushNamed_eq_some hd
    obtain rfl := Holding.field.inj hh
    rw [n.isNumberedField_name] at hnumber
    cases hnumber
  | field =>
    rw [← Holding.field.inj hh]
    exact (Use.loop.inj hu).2.symm

/-- A run on a tree without mustaches, with what is left of it in a store. -/
structure Finished (adapter : Adapter) (start : Nat) (a : Allocator) (t t' : Located)
    (a' : Allocator) (loops : List (Lowered adapter)) (s : Store) (sites : List Site) : Prop where
  run : LowersWhole adapter start a t t' a' loops
  pristine : Pristine start t
  owns : s.Owns t'.cells
  sites : ∀ site, site ∈ sites ↔ ∃ lp ∈ loops, lp.site = site

namespace Finished

variable {a a' : Allocator} {t : Located} {loops : List (Lowered adapter)} {lp : Lowered adapter}
  {e : Event} {l : Loc}

theorem shows (h : Finished adapter start a t t' a' loops s sites) : s.Shows t' :=
  h.owns.shows le_rfl

theorem site_mem (h : Finished adapter start a t t' a' loops s sites) (hlp : lp ∈ loops) :
    lp.site ∈ sites := (h.sites _).2 ⟨lp, hlp, rfl⟩

theorem event (h : Finished adapter start a t t' a' loops s sites) (hlp : lp ∈ loops)
    (he : e ∈ lp.ledger.log) : Innermost s sites lp.site e.use.place ∧
      ∀ spot, e.use = .spot spot → Mustache s spot (lp.ledger.path e) := by
  obtain ⟨g, hg, c, hc, u, hu, hat⟩ := h.run.displays h.pristine lp hlp e he
  have hin : Innermost s sites lp.site u.loc :=
    h.run.innermost h.pristine h.owns (fun site => (h.sites site).1) hlp hc hu
  have hshows : s.Shows u :=
    h.shows.occurs ((hu.occurs.trans (.of_mem hc)).trans (h.run.placed lp hlp).1)
  cases hg with
  | @spot spot huse =>
    rw [huse]
    refine ⟨?_, fun spot' hspot => ?_⟩
    · rw [Shown.loc_eq hat] at hin
      exact hin
    · obtain rfl := Use.spot.inj hspot
      exact Shown.mustache hat hshows
  | @loop inner _ huse =>
    obtain rfl : u = inner.tree := hat
    rw [huse]
    exact ⟨hin, fun spot hspot => nomatch hspot⟩

theorem eq_of_innermost {lp' : Lowered adapter}
    (h : Finished adapter start a t t' a' loops s sites) (hlp : lp ∈ loops) (hlp' : lp' ∈ loops)
    (hin : Innermost s sites lp.site l) (hin' : Innermost s sites lp'.site l) : lp = lp' := by
  obtain ⟨path, hpath, -⟩ := h.owns.existsUnique_path (h.run.placed lp hlp).1
  have htree : s.IsTree t'.loc := Store.isTree_iff.2 ⟨t', rfl, h.owns⟩
  have hwrapper := Innermost.wrapper_eq htree ⟨path, hpath⟩ (h.site_mem hlp) (h.site_mem hlp')
    hin hin'
  exact List.inj_on_of_nodup_map (h.run.wrappers h.pristine).1 hlp hlp' hwrapper

theorem exists_path (h : Finished adapter start a t t' a' loops s sites) (hlp : lp ∈ loops)
    (hin : Encloses s lp.site l) : ∃ path, s.descend path t'.loc = some l := by
  obtain ⟨above, habove, -⟩ := h.owns.existsUnique_path (h.run.placed lp hlp).1
  obtain ⟨below, -, hbelow⟩ := hin
  refine ⟨above ++ below, ?_⟩
  rw [Store.descend_append, habove]
  exact hbelow

theorem of_mustache {spot : Spot} {text : String} {path : List Nat}
    (h : Finished adapter start a t t' a' loops s sites)
    (hpath : s.descend path t'.loc = some spot.holder) (hm : Mustache s spot text) :
    ∃ lp ∈ loops, ∃ e ∈ lp.ledger.log, e.use = .spot spot ∧ text = lp.ledger.path e ∧
      Innermost s sites lp.site spot.holder := by
  rw [h.shows.descend] at hpath
  obtain ⟨u, hu, hloc⟩ := Option.map_eq_some_iff.1 hpath
  have hoccurs := occurs_of_at? hu
  obtain ⟨L, hL, e, he, huse, htext⟩ := h.run.allExplained h.pristine u hoccurs spot text
    (hm.shown (h.shows.occurs hoccurs) hloc)
  obtain ⟨lp, hlp, rfl⟩ := List.mem_map.1 hL
  have hin := (h.event hlp he).1
  rw [huse] at hin
  exact ⟨lp, hlp, e, he, huse, htext, hin⟩

theorem ledger_path (h : Finished adapter start a t t' a' loops s sites) (hlp : lp ∈ loops)
    (e : Event) : lp.ledger.path e = lp.mapping.itemName ++ "." ++
      (match e.holding with | .field name => name | _ => lp.mapping.itemName) := by
  have hitem : lp.ledger.scope.item = lp.mapping.itemName :=
    congrArg LoopScope.item (h.run.formed lp hlp).ledger.1
  rw [Ledger.path]
  cases e.holding <;> simp only [Ledger.owner, Owner.path, hitem]

theorem reads_of_event {n : Numbering} {k : Nat}
    (h : Finished adapter start a t t' a' loops s sites) (hlp : lp ∈ loops)
    (he : e ∈ lp.ledger.log) (hh : e.holding = .field (n.name k)) :
    Reads adapter s sites lp.site (n.name k) e.use := by
  obtain ⟨hin, hm⟩ := h.event hlp he
  obtain ⟨g, hg, -⟩ := h.run.displays h.pristine lp hlp e he
  cases hg with
  | @spot spot huse =>
    have htext := h.ledger_path hlp e
    rw [hh] at htext
    rw [huse] at hin ⊢
    exact .spot (htext ▸ hm spot huse) hin
  | @loop inner hinner huse =>
    obtain ⟨d, d', hn⟩ := (h.run.formed lp hlp).logged.noted he
    have hbinding := hn.binding_eq_field huse hh
    have hsource : ∃ l, inner.source = .node l (.name (n.name k)) := by
      cases h.run.fastened inner hinner with
      | alone _ hb => cases hb.symm.trans hbinding
      | @within _ e' _ _ _ _ _ _ _ hr =>
        rw [hbinding] at hr
        generalize inner.source = source at hr
        generalize e'.holding = holding at hr
        cases hr with
        | field l => exact ⟨l, rfl⟩
    obtain ⟨l, hl⟩ := hsource
    have hshows : s.Shows inner.tree := h.shows.occurs (h.run.placed inner hinner).1
    have hget := (hshows.occurs inner.occurs_source).get_loc
    rw [huse] at hin ⊢
    refine .loop (h.site_mem hinner) hin (inner.loopValue?_eq hshows) (hget.trans ?_)
    rw [hl]
    rfl

theorem event_of_reads {name : String} {use : Use}
    (h : Finished adapter start a t t' a' loops s sites) (hlp : lp ∈ loops)
    (hname : name ≠ lp.mapping.itemName) (hr : Reads adapter s sites lp.site name use) :
    ∃ e ∈ lp.ledger.log, e.use = use ∧ e.holding = .field name := by
  cases hr with
  | spot hm hin =>
    obtain ⟨path, hpath⟩ := h.exists_path hlp hin.encloses
    obtain ⟨lp', hlp', e, he, huse, htext, hin'⟩ := h.of_mustache hpath hm
    obtain rfl := h.eq_of_innermost hlp hlp' hin hin'
    refine ⟨e, he, huse, ?_⟩
    rw [h.ledger_path hlp e] at htext
    replace htext := (String.append_right_inj (lp.mapping.itemName ++ ".")).1 htext
    cases hh : e.holding with
    | field name' => rw [hh] at htext; rw [htext]
    | _ => rw [hh] at htext; exact absurd htext hname
  | @loop inner value hinner hin hvalue hget =>
    obtain ⟨x, hx, rfl⟩ := (h.sites inner).1 hinner
    have hshows : s.Shows x.tree := h.shows.occurs (h.run.placed x hx).1
    rw [x.loopValue?_eq hshows] at hvalue
    obtain rfl := Option.some.inj hvalue
    obtain ⟨k, hk⟩ := (hshows.occurs x.occurs_source).eq_name hget
    cases h.run.fastened x hx with
    | alone _ _ hs => cases hk.symm.trans hs
    | @within L e gs hL _ he huse hs hc hr =>
      obtain ⟨outer, houter, rfl⟩ := List.mem_map.1 hL
      have hin' := (h.event houter he).1
      rw [huse] at hin'
      obtain rfl := h.eq_of_innermost hlp houter hin hin'
      refine ⟨e, he, huse, ?_⟩
      have hitem : lp.ledger.scope.item = lp.mapping.itemName :=
        congrArg LoopScope.item (h.run.formed lp hlp).ledger.1
      rw [hk] at hr
      generalize x.binding = binding at hr
      generalize hh : e.holding = holding at hr ⊢
      cases hr with
      | merged => exact absurd hitem hname
      | under herase =>
        -- a copy of a path of the item would start with the item
        obtain ⟨d, d', hn⟩ := lp.ledger.logged.noted he
        have hpath := hn.staticPath_source hh
        have hcopy : staticPath (.node k (.name name)) = x.mapping.receiver.staticPath :=
          fold_eq_of_erase_eq (fun _ _ _ _ _ => rfl) herase
        rw [← hs, hpath, staticPath, fold_node] at hcopy
        exact absurd ((Prod.mk.inj (Option.some.inj hcopy)).1.trans hitem) hname
      | named hp =>
        generalize hproperties : [_] = properties at hp
        cases hp
        cases hproperties
      | field => rfl

theorem record (h : Finished adapter start a t t' a' loops s sites) (hlp : lp ∈ loops) :
    ∃ record, verifyCallback s lp.site = .ok record ∧
      (∃ value, .field lp.mapping.itemName value ∈ record) ∧
      (∀ e ∈ lp.ledger.log, ∀ name, e.holding = .field name →
        .field name e.carrier.loc ∈ record) ∧
      ∀ (n : Numbering) (k : Nat) (value : Loc), lp.mapping.itemName ≠ n.name k →
        .field (n.name k) value ∈ record →
        ∃ e ∈ lp.ledger.log, e.holding = .field (n.name k) ∧ e.carrier.loc = value := by
  have hformed := h.run.formed lp hlp
  obtain ⟨key, v, -, -, hrecord⟩ :=
    hformed.verifyCallback_eq (h.shows.occurs (h.run.placed lp hlp).2)
  refine ⟨_, hrecord, ⟨v.loc, List.mem_cons_self⟩, fun e he name hh => ?_,
    fun n k value hitem hmem => ?_⟩
  · refine List.mem_cons_of_mem _ (List.mem_cons_of_mem _ ?_)
    exact List.mem_map_of_mem (f := fun f : String × Located => Entry.field f.1 f.2.loc)
      (Event.field_mem he hh)
  · simp only [List.mem_cons, List.mem_map] at hmem
    rcases hmem with hmem | hmem | ⟨f, hf, hmem⟩
    · exact absurd (Entry.field_inj hmem).1.symm hitem
    · exact absurd (Entry.field_inj hmem).1 (n.name_ne_keyField k)
    · obtain ⟨hname, hvalue⟩ := Entry.field_inj hmem
      obtain ⟨e, he, hfield⟩ := List.mem_filterMap.1 hf
      obtain ⟨hh, hc⟩ := Event.field?_eq_some hfield
      exact ⟨e, he, by rw [hh, hname], by rw [hc, hvalue]⟩

theorem carries {n : Numbering} {k : Nat} {spot : Spot}
    (h : Finished adapter start a t t' a' loops s sites) (hlp : lp ∈ loops)
    (he : e ∈ lp.ledger.log) (hh : e.holding = .field (n.name k)) (huse : e.use = .spot spot) :
    StoodAt sites t spot e.source ∧ s.Shows e.source ∧
      Carries adapter s e.source n e.carrier.loc := by
  have hstood := (h.run.stood h.owns.nodup h.sites lp hlp).events e he spot huse
  have hformed := h.run.formed lp hlp
  have hcarrier : s.Shows e.carrier :=
    h.shows.occurs ((hformed.occurs_held (List.mem_flatMap.2
      ⟨e, he, Event.carrier_mem_held hh (by simp)⟩)).trans (h.run.placed lp hlp).2)
  obtain ⟨d, d', hn⟩ := hformed.logged.noted he
  refine ⟨hstood, ?_⟩
  cases hn with
  | item => cases hh
  | value =>
    obtain ⟨rfl, -⟩ := Numbering.name_inj (m := .value) (Holding.field.inj hh)
    exact ⟨hcarrier, .value⟩
  | style _ v =>
    obtain ⟨rfl, -⟩ := Numbering.name_inj (m := .style) (Holding.field.inj hh)
    refine ⟨hcarrier.child (by simp [Node.children]), .style hcarrier.get_root ?_⟩
    exact (hcarrier.child (c := .node _ (.name adapter.createStyle))
      (by simp [Node.children])).get_root
  | merged | under | named | field => cases huse

theorem style_attribute {k : Nat} (h : Finished adapter start a t t' a' loops s sites)
    (hlp : lp ∈ loops) (he : e ∈ lp.ledger.log) (hh : e.holding = .field (Numbering.style.name k)) :
    ∃ holder i name, e.use = .spot (.attribute holder i name) := by
  obtain ⟨d, d', hn⟩ := (h.run.formed lp hlp).logged.noted he
  cases hn with
  | item | merged | under => cases hh
  | value | field =>
    obtain ⟨hne, -⟩ := Numbering.name_inj (m := .value) (Holding.field.inj hh)
    cases hne
  | style spot v call callee hshape =>
    cases spot with
    | «attribute» holder i name => exact ⟨holder, i, name, rfl⟩
    | text =>
      -- a leaf in the text has no style
      simp only [leafOf, Spot.position, Adapter.isStylePosition, Bool.false_eq_true,
        if_false] at hshape
      split at hshape
      · split_ifs at hshape
      · cases hshape
  | named _ _ _ name hs hd =>
    obtain ⟨⟨-, -, hnumber, -⟩, -⟩ := Draft.pushNamed_eq_some hd
    obtain rfl := Holding.field.inj hh
    rw [Numbering.isNumberedField_name] at hnumber
    cases hnumber

end Finished

theorem Finished.of_isTree (adapter : Adapter) {root : Loc} (h : s.IsTree root)
    (hclean : ∀ path l, s.descend path root = some l → (s.get l).hasMustache = false)
    (a : Allocator) : ∃ t' loops, t'.loc = root ∧
      Finished adapter s.size a (s.treeAt root) t' (lowerLoops adapter root ⟨s, a, []⟩).2.allocator
        loops (lowerLoops adapter root ⟨s, a, []⟩).2.store
        (lowerLoops adapter root ⟨s, a, []⟩).2.sites := by
  obtain ⟨t', loops, hrun, hloc, hown, hsites⟩ := lowerLoops_sites adapter h a
  have hshows : s.Shows (s.treeAt root) := h.owns_treeAt.shows le_rfl
  refine ⟨t', loops, hloc, hrun, ⟨fun u hu => ?_, fun u hu => ?_⟩, hown, hsites⟩
  · obtain ⟨path, hpath, -⟩ := h.owns_treeAt.existsUnique_path hu
    rw [Store.loc_treeAt] at hpath
    have hm := hclean path u.loc hpath
    rwa [(hshows.occurs hu).get_loc, Node.hasMustache_map] at hm
  · exact h.owns_treeAt.bound _ hu.root_mem

/-- Every path in the templates leads to a field of the record of the loop around it. A numbered
field is read in one place. If that is a path, the field holds what stood there. -/
theorem lowerLoops_paths (adapter : Adapter) {root : Loc} (h : s.IsTree root)
    (hclean : ∀ path l, s.descend path root = some l → (s.get l).hasMustache = false)
    (a : Allocator) :
    let p := (lowerLoops adapter root ⟨s, a, []⟩).2
    (∀ path spot text, p.store.descend path root = some spot.holder →
      Mustache p.store spot text →
      ∃ site ∈ p.sites, Innermost p.store p.sites site spot.holder ∧ ∃ record name value,
        verifyCallback p.store site = .ok record ∧ .field name value ∈ record ∧
          text = site.itemName ++ "." ++ name) ∧
    ∀ site ∈ p.sites, (∀ (n : Numbering) k, site.itemName ≠ n.name k) →
      ∃ record, verifyCallback p.store site = .ok record ∧
        ∀ (n : Numbering) k value, .field (n.name k) value ∈ record →
          ∃ use, (∀ other, Reads adapter p.store p.sites site (n.name k) other ↔ other = use) ∧
            (n = .style → ∃ holder i name, use = .spot (.attribute holder i name)) ∧
            ∀ spot, use = .spot spot → ∃ v, StoodAt p.sites (s.treeAt root) spot v ∧
              p.store.Shows v ∧ Carries adapter p.store v n value := by
  obtain ⟨t', loops, rfl, hf⟩ := Finished.of_isTree adapter h hclean a
  refine ⟨fun path spot text hpath hm => ?_, fun site hsite hitem => ?_⟩
  · obtain ⟨lp, hlp, e, he, -, htext, hin⟩ := hf.of_mustache hpath hm
    obtain ⟨record, hrecord, ⟨value, hvalue⟩, hfields, -⟩ := hf.record hlp
    refine ⟨lp.site, hf.site_mem hlp, hin, record, ?_⟩
    rw [hf.ledger_path hlp e] at htext
    cases hh : e.holding with
    | field name => exact ⟨name, _, hrecord, hfields e he name hh, by rw [htext, hh]; rfl⟩
    | _ => exact ⟨_, value, hrecord, hvalue, by rw [htext, hh]; rfl⟩
  · obtain ⟨lp, hlp, rfl⟩ := (hf.sites site).1 hsite
    obtain ⟨record, hrecord, -, -, hnumbered⟩ := hf.record hlp
    refine ⟨record, hrecord, fun n k value hmem => ?_⟩
    obtain ⟨e, he, hh, rfl⟩ := hnumbered n k value (hitem n k) hmem
    refine ⟨e.use, fun other => ⟨fun hr => ?_, fun ho => ?_⟩, fun hn => ?_, fun spot huse => ?_⟩
    · obtain ⟨e', he', rfl, hh'⟩ := hf.event_of_reads hlp (hitem n k).symm hr
      rw [(hf.run.formed lp hlp).logged.event_unique he he' hh hh']
    · exact ho ▸ hf.reads_of_event hlp he hh
    · exact hf.style_attribute hlp he (hn ▸ hh)
    · exact ⟨e.source, hf.carries hlp he hh huse⟩

theorem nestedLoops_clean (l : Loc) : (nestedLoops.get l).hasMustache = false := by
  have hall : ∀ n ∈ nestedLoops.nodes, n.hasMustache = false := by decide
  rw [Store.get, Array.getD_eq_getD_getElem?]
  cases hn : nestedLoops.nodes[l.index]? with
  | none => rfl
  | some n => exact hall n (Array.mem_of_getElem? hn)

theorem nestedLoops_lowered :
    let p := (lowerLoops .wechat ⟨22⟩ ⟨nestedLoops, ⟨0⟩, []⟩).2
    p.store.descend [0, 1, 1, 1, 1] ⟨22⟩ = some ⟨13⟩ ∧ p.store.get ⟨13⟩ = .mustache "tag._d0" ∧
      p.sites.map (fun site => (site.itemName, verifyCallback p.store site)) =
        [("item", .ok [.field "item" ⟨33⟩, .field "_key" ⟨34⟩, .field "_s0" ⟨24⟩,
          .field "_d0" ⟨5⟩]),
          ("tag", .ok [.field "tag" ⟨25⟩, .field "_key" ⟨26⟩, .field "_d0" ⟨12⟩])] := by
  cbv

theorem nestedLoops_paths :
    let p := (lowerLoops .wechat ⟨22⟩ ⟨nestedLoops, ⟨0⟩, []⟩).2
    nestedLoops.IsTree ⟨22⟩ ∧
      (∀ path l, nestedLoops.descend path ⟨22⟩ = some l →
        (nestedLoops.get l).hasMustache = false) ∧
      p.store.descend [0, 1, 1, 1, 1] ⟨22⟩ = some ⟨13⟩ ∧
      Mustache p.store (.text ⟨13⟩) "tag._d0" ∧
      (∃ site ∈ p.sites, Innermost p.store p.sites site ⟨13⟩ ∧ ∃ record name value,
        verifyCallback p.store site = .ok record ∧ .field name value ∈ record ∧
          "tag._d0" = site.itemName ++ "." ++ name) ∧
      ∃ site ∈ p.sites, (∀ (n : Numbering) k, site.itemName ≠ n.name k) ∧
        verifyCallback p.store site =
          .ok [.field "tag" ⟨25⟩, .field "_key" ⟨26⟩, .field "_d0" ⟨12⟩] ∧
        ∃ use, (∀ other, Reads .wechat p.store p.sites site "_d0" other ↔ other = use) ∧
          ∀ spot, use = .spot spot → ∃ v, StoodAt p.sites (nestedLoops.treeAt ⟨22⟩) spot v ∧
            p.store.Shows v ∧ Carries .wechat p.store v .value ⟨12⟩ := by
  intro p
  obtain ⟨hpath, hshown, hsites⟩ := nestedLoops_lowered
  obtain ⟨hresolves, hread⟩ := lowerLoops_paths .wechat nestedLoops_isTree
    (fun _ l _ => nestedLoops_clean l) ⟨0⟩
  obtain ⟨site, hmem, hsite⟩ :=
    List.mem_map.1 (hsites ▸ List.mem_cons_of_mem _ (List.mem_singleton_self _))
  obtain ⟨hname, hrecord⟩ := Prod.mk.inj hsite
  have hitem (n : Numbering) (k : Nat) : site.itemName ≠ n.name k := by
    rw [hname]
    intro he
    have hchars := congrArg String.toList he
    rw [Numbering.toList_name] at hchars
    simp at hchars
  obtain ⟨record, hok, huse⟩ := hread site hmem hitem
  obtain rfl := Except.ok.inj (hrecord.symm.trans hok)
  have hfield : Numbering.value.name 0 = "_d0" := by decide
  have hnumbered := huse .value 0 ⟨12⟩
  rw [hfield] at hnumbered
  obtain ⟨use, hreads, -, hcarries⟩ := hnumbered (by simp)
  exact ⟨nestedLoops_isTree, fun _ l _ => nestedLoops_clean l, hpath, .text hshown,
    hresolves _ (.text ⟨13⟩) _ hpath (.text hshown), site, hmem, hitem, hrecord, use, hreads,
    hcarries⟩

end JsxLoops.Loop
