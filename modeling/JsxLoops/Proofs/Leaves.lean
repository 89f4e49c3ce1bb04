import JsxLoops.Proofs.Paths

/-!
Leaves. The template of a loop shows expressions at its spots, some of them under conditions. A run
gives every such leaf one of two fates: it is moved into the record of the loop and a path is shown
in its place, or it stays where it is. What stood at a location before the run is determined by the
location, so a leaf can be told from its spot.
-/

namespace JsxLoops.Tree

open Located

/-! ### Locations under renaming -/

theorem map_loc_at?_renameFree (a b : String) (path : List Nat) (t : Located) :
    ((t.renameFree a b).at? path).map loc = (t.at? path).map loc := by
  induction path generalizing t with
  | nil => exact congrArg some (loc_renameFree a b t)
  | cons i path ih =>
    obtain ⟨l, n⟩ := t
    rw [renameFree_node]
    split
    · rfl
    · simp only [at?, here_node, Node.children_renameHere, Node.children_map, List.getElem?_map]
      cases n.children[i]? with
      | none => rfl
      | some c => exact ih c

end JsxLoops.Tree

namespace JsxLoops.Loop

open JsxLoops.Tree Located

variable {adapter : Adapter} {start : Nat} {gs : List Premise} {ps ps' : List Part}
  {σ σ' : Stage adapter} {s : Store} {sites : List Site} {t t' u v : Located}

/-! ### What stood at a location -/

/-- The tree at the end of a path, after the indices on the way were renamed. -/
def stoodAt? (sites : List Site) : List Nat → Located → Option Located
  | [], t => some t
  | i :: path, t => (childrenIn sites t)[i]?.bind (stoodAt? sites path)

theorem stoodAt?_append (path path' : List Nat) (t : Located) :
    stoodAt? sites (path ++ path') t = (stoodAt? sites path t).bind (stoodAt? sites path') := by
  induction path generalizing t with
  | nil => rfl
  | cons i path ih =>
    simp only [List.cons_append, stoodAt?]
    cases (childrenIn sites t)[i]? with
    | none => rfl
    | some c => exact ih c

theorem Stood.exists_path (h : Stood sites t u) : ∃ path, stoodAt? sites path t = some u := by
  induction h with
  | root => exact ⟨[], rfl⟩
  | child _ hc ih =>
    obtain ⟨path, hpath⟩ := ih
    obtain ⟨i, hi⟩ := List.mem_iff_getElem?.1 hc
    refine ⟨path ++ [i], ?_⟩
    rw [stoodAt?_append, hpath]
    simp [stoodAt?, hi]

theorem Stood.trans (h : Stood sites t u) (h' : Stood sites u v) : Stood sites t v := by
  induction h' with
  | root => exact h
  | child _ hc ih => exact .child ih hc

theorem childrenIn_eq_or (sites : List Site) (t : Located) :
    childrenIn sites t = t.here.children ∨
      ∃ a b, childrenIn sites t = t.here.children.map (renameFree a b) := by
  rw [childrenIn]
  split
  · split
    · exact .inr ⟨_, _, rfl⟩
    · exact .inl rfl
  · exact .inl rfl

theorem map_loc_stoodAt? (sites : List Site) (path : List Nat) (t : Located) :
    (stoodAt? sites path t).map loc = (t.at? path).map loc := by
  induction path generalizing t with
  | nil => rfl
  | cons i path ih =>
    rw [stoodAt?, at?]
    rcases childrenIn_eq_or sites t with hsame | ⟨a, b, hsame⟩
    · rw [hsame]
      cases t.here.children[i]? with
      | none => rfl
      | some c => exact ih c
    · rw [hsame, List.getElem?_map]
      cases t.here.children[i]? with
      | none => rfl
      | some c => exact (ih (c.renameFree a b)).trans (map_loc_at?_renameFree a b path c)

theorem childrenIn_of_no_index {l : Loc} {f : Lambda Located}
    (h : (f.params.filterMap Binder.name?)[1]? = none) :
    childrenIn sites (.node l (.lambda f)) = f.body.children := by
  rw [childrenIn]
  split
  case h_2 => rfl
  case h_1 g _ hg =>
    obtain rfl := Node.lambda.inj hg
    rw [h]
    rfl

theorem Stood.only_loop {l₁ l₂ l₃ l₄ : Loc} {tag item : String} {callee : Located} :
    Stood sites (.node l₁ (.element ⟨tag, [], [.node l₂ (.container (.node l₃ (.call callee
      [.node l₄ (.lambda ⟨.arrow, false, false, [.plain item], .value t⟩)])))], false⟩)) t := by
  refine .child (.of_mem (.of_mem (.of_mem .root ?_ List.mem_cons_self) ?_ List.mem_cons_self) ?_
    (List.mem_cons_of_mem _ List.mem_cons_self)) ?_
  case refine_4 =>
    rw [childrenIn_of_no_index rfl]
    exact List.mem_cons_self
  all_goals simp

theorem Stood.nodup (h : Stood sites t u) (hn : (t.cells.map Cell.loc).Nodup) :
    (u.cells.map Cell.loc).Nodup := by
  induction h with
  | root => exact hn
  | @child u c _ hc ih =>
    obtain ⟨l, n⟩ := u
    have hchildren : ((cellsOf n.children).map Cell.loc).Nodup := by
      rw [cells_node, Multiset.map_add, Multiset.nodup_add] at ih
      exact ih.2.1
    have hbelow : ∀ d ∈ n.children, (d.cells.map Cell.loc).Nodup := fun d hd =>
      Multiset.nodup_of_le (Multiset.map_le_map (cells_le_of_mem hd)) hchildren
    rcases childrenIn_eq_or sites (.node l n) with hsame | ⟨a, b, hsame⟩
    · exact hbelow c (hsame ▸ hc)
    · obtain ⟨d, hd, rfl⟩ := List.mem_map.1 (hsame ▸ hc)
      rw [map_loc_cells_renameFree]
      exact hbelow d hd

theorem Stood.eq_of_loc_eq (hn : (t.cells.map Cell.loc).Nodup) (hu : Stood sites t u)
    (hv : Stood sites t v) (he : u.loc = v.loc) : u = v := by
  obtain ⟨path, hpath⟩ := hu.exists_path
  obtain ⟨path', hpath'⟩ := hv.exists_path
  have hloc := map_loc_stoodAt? sites path t
  have hloc' := map_loc_stoodAt? sites path' t
  rw [hpath] at hloc
  rw [hpath'] at hloc'
  obtain ⟨x, hx, hux⟩ := Option.map_eq_some_iff.1 hloc.symm
  obtain ⟨y, hy, hvy⟩ := Option.map_eq_some_iff.1 hloc'.symm
  rw [path_unique hn hx hy (hux.trans (he.trans hvy.symm)), hpath'] at hpath
  exact (Option.some.inj hpath).symm

/-! ### The way down -/

/-- The descent comes from a part to the part `q`, under conditions, the outermost first. No loop
stands between. -/
inductive Down (q : Part) : List Premise → Part → Prop
  | here : Down q [] q
  | node {gs : List Premise} {l : Loc} {n : Node Located} {p : Part} (hp : p ∈ partsOf l n)
    (h : Down q gs p) : Down q gs (.node (.node l n))
  | markup {gs : List Premise} {t : Located} (hm : t.here.isMarkup = true)
    (h : Down q gs (.node t)) : Down q gs (.child t)
  | enter {gs : List Premise} {place : Place} {v : Located} (hv : place.verdict v = .enter)
    (h : Down q gs (.node v)) : Down q (place.premises ++ gs) (place.holding v)

/-- A spot of a template shows an expression under conditions. -/
def Leaf (t : Located) (gs : List Premise) (spot : Spot) (v : Located) : Prop :=
  Down (Place.holding (.spot spot) v) gs (.node t) ∧ v.hasMarkup = false

/-- A template has a loop in it, under conditions and not in another loop. -/
def Nested (t : Located) (gs : List Premise) (m : Mapping) : Prop :=
  ∃ (place : Place) (parens : List Loc) (under : List Premise),
    Down (place.holding (inParens parens m.tree)) under (.node t) ∧
    place.verdict (inParens parens m.tree) = .loop ∧ gs = under ++ place.premises

/-! ### What is done with one part -/

theorem Place.holding_inj {place place' : Place} {v v' : Located}
    (h : place.holding v = place'.holding v') : place = place' ∧ v = v' := by
  rcases place with (_ | _) | _ <;> rcases place' with (_ | _) | _ <;>
    simp_all [Place.holding]

theorem Place.verdict_spot (spot : Spot) (h : v.hasMarkup = false) :
    Place.verdict (.spot spot) v = .leaf := by
  cases spot with
  | text c =>
    rw [Place.verdict]
    cases hc : candidateTree? v with
    | ok c => rw [hasMarkup_of_candidate hc] at h; cases h
    | error reason => simp [h]
  | «attribute» => simp [Place.verdict, h]

theorem Place.not_inert_holding (place : Place) (v : Located) : ¬ (place.holding v).Inert := by
  rcases place with (_ | _) | _ <;> simp [Place.holding, Part.Inert]

theorem Place.not_markup_holding {place : Place} {t v : Located} (h : .child t = place.holding v) :
    t.here.isMarkup = false := by
  rcases place with (_ | _) | _ <;> cases h
  rfl

/-- What is done with an expression at a place. -/
inductive Treats (start : Nat) (gs : List Premise) (place : Place) (v : Located)
    (σ : Stage adapter) : Part → Stage adapter → Prop
  | leave (hv : place.verdict v = .leave) : Treats start gs place v σ (place.holding v) σ
  | enter {v' : Located} {σ' : Stage adapter} (hv : place.verdict v = .enter)
    (h : Lowers adapter start (gs ++ place.premises) [.node v] σ [.node v'] σ') :
    Treats start gs place v σ (place.holding v') σ'
  | keep (hv : place.verdict v = .leaf) (hl : ∀ L, σ.ledger = some L → L.takes v = false) :
    Treats start gs place v σ (place.holding v) σ
  | move {spot : Spot} {L : Ledger adapter} {e : Event} {d : Draft}
    (hp : place = .spot spot) (hv : place.verdict v = .leaf) (hσ : σ.ledger = some L)
    (hl : L.takes v = true) (he : Noted adapter L.scope L.draft e d) (hu : e.use = .spot spot)
    (hs : e.source = v) :
    Treats start gs place v σ (spot.shown (L.path e)) { σ with ledger := some (L.note he) }
  | loop {parens : List Loc} {m : Mapping} {w : Located} {σ' : Stage adapter}
    (hv : place.verdict v = .loop) (hm : v = inParens parens m.tree)
    (h : Lowers adapter start (gs ++ place.premises) [.loop m] σ [.wrapper w] σ') :
    Treats start gs place v σ (place.taken w) σ'

theorem Lowers.treats {place : Place} {p' : Part}
    (h : Lowers adapter start gs [place.holding v] σ [p'] σ') :
    Treats start gs place v σ p' σ' := by
  generalize hps : [place.holding v] = ps at h
  generalize hps' : [p'] = ps' at h
  induction h with
  | nil => cases hps
  | cons h hs ih =>
    obtain ⟨rfl, rfl⟩ := List.cons.inj hps
    obtain ⟨rfl, rfl⟩ := List.cons.inj hps'
    obtain ⟨-, rfl⟩ := hs.of_nil
    exact ih rfl rfl
  | inert h =>
    obtain rfl := List.singleton_inj.1 hps
    exact absurd h (place.not_inert_holding v)
  | markup hm =>
    rw [Place.not_markup_holding (List.singleton_inj.1 hps).symm] at hm
    cases hm
  | leave hv =>
    obtain ⟨rfl, rfl⟩ := Place.holding_inj (List.singleton_inj.1 hps)
    obtain rfl := List.singleton_inj.1 hps'
    exact .leave hv
  | enter hv h =>
    obtain ⟨rfl, rfl⟩ := Place.holding_inj (List.singleton_inj.1 hps)
    obtain rfl := List.singleton_inj.1 hps'
    exact .enter hv h
  | keep hv hl =>
    obtain ⟨rfl, rfl⟩ := Place.holding_inj (List.singleton_inj.1 hps)
    obtain rfl := List.singleton_inj.1 hps'
    exact .keep hv hl
  | move hv hl he hu hs =>
    obtain ⟨rfl, rfl⟩ := Place.holding_inj (List.singleton_inj.1 hps)
    obtain rfl := List.singleton_inj.1 hps'
    exact .move rfl hv rfl hl he hu hs
  | loop hv h =>
    obtain ⟨rfl, rfl⟩ := Place.holding_inj (List.singleton_inj.1 hps)
    obtain rfl := List.singleton_inj.1 hps'
    exact .loop hv rfl h
  | node => exact absurd (List.singleton_inj.1 hps).symm (Part.node_ne_holding _ place v)
  | site => exact absurd (List.singleton_inj.1 hps).symm (Part.loop_ne_holding _ place v)
  | search | found => rcases place with (_ | _) | _ <;> cases hps

theorem Lowers.of_markup {p' : Part} (hm : t.here.isMarkup = true)
    (h : Lowers adapter start gs [.child t] σ [p'] σ') :
    ∃ t', p' = .child t' ∧ Lowers adapter start gs [.node t] σ [.node t'] σ' := by
  generalize hps : [Part.child t] = ps at h
  generalize hps' : [p'] = ps' at h
  induction h with
  | cons h hs ih =>
    obtain ⟨rfl, rfl⟩ := List.cons.inj hps
    obtain ⟨rfl, rfl⟩ := List.cons.inj hps'
    obtain ⟨-, rfl⟩ := hs.of_nil
    exact ih rfl rfl
  | inert h =>
    obtain rfl := List.singleton_inj.1 hps
    rw [h.1] at hm
    cases hm
  | markup _ h =>
    obtain rfl := Part.child.inj (List.singleton_inj.1 hps)
    exact ⟨_, List.singleton_inj.1 hps', h⟩
  | leave | enter | keep | move | loop =>
    rw [Place.not_markup_holding (List.singleton_inj.1 hps)] at hm
    cases hm
  | _ => cases hps

theorem Lowers.exists_node {p' : Part} (h : Lowers adapter start gs [.node t] σ [p'] σ') :
    ∃ t', p' = .node t' := by
  generalize hps : [Part.node t] = ps at h
  generalize hps' : [p'] = ps' at h
  induction h with
  | cons h hs ih =>
    obtain ⟨rfl, rfl⟩ := List.cons.inj hps
    obtain ⟨rfl, rfl⟩ := List.cons.inj hps'
    exact ih rfl rfl
  | node => exact ⟨_, List.singleton_inj.1 hps'⟩
  | inert h =>
    obtain rfl := List.singleton_inj.1 hps
    cases h
  | _ => simp at hps

theorem Lowers.of_mem {p : Part} (h : Lowers adapter start gs ps σ ps' σ') (hp : p ∈ ps) :
    ∃ p' ∈ ps', ∃ σ₁ σ₂, Lowers adapter start gs [p] σ₁ [p'] σ₂ ∧
      Continues σ.ledger σ₁.ledger ∧ Continues σ₂.ledger σ'.ledger := by
  have hrun := h
  induction h with
  | nil => cases hp
  | cons h hs _ ihs =>
    rcases List.mem_cons.1 hp with rfl | hp
    · exact ⟨_, List.mem_cons_self, _, _, h, .refl _, hs.continues⟩
    · obtain ⟨p', hp', σ₁, σ₂, hrun, hbefore, hafter⟩ := ihs hp hs
      exact ⟨p', List.mem_cons_of_mem _ hp', σ₁, σ₂, hrun, h.continues.trans hbefore, hafter⟩
  | _ =>
    obtain rfl := List.mem_singleton.1 hp
    exact ⟨_, List.mem_singleton_self _, _, _, hrun, .refl _, .refl _⟩

def Part.roots : Part → List Located
  | .attribute _ _ a => a.children
  | .node t | .child t | .operand _ t | .statement t | .wrapper t => [t]
  | .loop m => [m.tree]

theorem Place.among_roots (place : Place) (v : Located) : Among v (place.holding v).roots := by
  rcases place with (_ | _) | _
  · exact ⟨_, List.mem_singleton_self _, .child (List.mem_singleton_self v) .self⟩
  · exact .of_mem (List.mem_singleton_self v)
  · exact .of_mem (List.mem_singleton_self v)

theorem mem_children_of_roots {p : Part} {l : Loc} {n : Node Located} {c : Located}
    (hp : p ∈ partsOf l n) (hc : c ∈ p.roots) : c ∈ n.children := by
  refine mem_children_of_mem_partsOf (List.mem_flatMap.2 ⟨p, hp, ?_⟩)
  cases p with
  | node t => cases n <;> simp [partsOf] at hp
  | _ => exact hc

/-- A run on a part goes through all that the descent comes to, and leaves what it makes of that in
what it makes of the part. -/
theorem Lowers.through {q p p' : Part} {under : List Premise} (hq : ∀ t, q ≠ .node t)
    (hd : Down q under p) (h : Lowers adapter start gs [p] σ [p'] σ') :
    ∃ q' σ₁ σ₂, Lowers adapter start (gs ++ under) [q] σ₁ [q'] σ₂ ∧
      Continues σ.ledger σ₁.ledger ∧ Continues σ₂.ledger σ'.ledger ∧
      (q = p ∧ q' = p' ∨
        ∃ x, Among x p'.roots ∧ q' ∈ partsOf x.loc x.here) := by
  induction hd generalizing gs p' σ σ' with
  | here => exact ⟨p', σ, σ', by rwa [List.append_nil], .refl _, .refl _, .inl ⟨rfl, rfl⟩⟩
  | @node _ l n p hp _ ih =>
    obtain ⟨⟨l', n'⟩, rfl⟩ := h.exists_node
    obtain ⟨rfl, -, hparts⟩ := h.of_node
    obtain ⟨r, hr, σ₁, σ₂, hrun, hbefore, hafter⟩ := hparts.of_mem hp
    obtain ⟨q', τ₁, τ₂, hrun', hbefore', hafter', hin⟩ := ih hrun
    refine ⟨q', τ₁, τ₂, hrun', hbefore.trans hbefore', hafter'.trans hafter, .inr ?_⟩
    rcases hin with ⟨-, rfl⟩ | ⟨x, hx, hx'⟩
    · exact ⟨_, .of_mem (List.mem_singleton_self _), hr⟩
    · refine ⟨x, hx.mono fun c hc => ⟨_, List.mem_singleton_self _, ?_⟩, hx'⟩
      exact .child (mem_children_of_roots hr hc) .self
  | markup hm _ ih =>
    obtain ⟨t', rfl, hrun⟩ := h.of_markup hm
    obtain ⟨q', τ₁, τ₂, hrun', hbefore, hafter, hin⟩ := ih hrun
    obtain ⟨x, hx, hx'⟩ := hin.resolve_left fun he => hq _ he.1
    exact ⟨q', τ₁, τ₂, hrun', hbefore, hafter, .inr ⟨x, hx, hx'⟩⟩
  | @enter _ place v hv _ ih =>
    cases h.treats with
    | enter _ hrun =>
      obtain ⟨q', τ₁, τ₂, hrun', hbefore, hafter, hin⟩ := ih hrun
      obtain ⟨x, hx, hx'⟩ := hin.resolve_left fun he => hq _ he.1
      refine ⟨q', τ₁, τ₂, by rwa [List.append_assoc] at hrun', hbefore, hafter,
        .inr ⟨x, hx.mono fun c hc => ?_, hx'⟩⟩
      obtain rfl := List.mem_singleton.1 hc
      exact place.among_roots _
    | leave hv' | keep hv' | move _ hv' | loop hv' => cases hv.symm.trans hv'

/-! ### Leaves and nested loops in the log -/

theorem Continues.exists_ledger {L : Ledger adapter} {o o' : Option (Ledger adapter)}
    (h : Continues o o') (ho : o = some L) : ∃ L', o' = some L' ∧ L.Grows L' := by
  cases h with
  | alone => cases ho
  | within h =>
    obtain rfl := Option.some.inj ho
    exact ⟨_, rfl, h⟩

theorem Ledger.Grows.takes {L L' : Ledger adapter} (h : L.Grows L') (v : Located) :
    L'.takes v = L.takes v := by
  simp only [Ledger.takes, Ledger.owner, Owner.dependsOn, h.scope, h.outer]

theorem Formed.leaf {lp : Lowered adapter} {spot : Spot} (h : Formed start lp)
    (hleaf : Leaf (lp.mapping.renamed lp.tokens lp.mapping.subtree) gs spot v) :
    ∃ x, Occurs x lp.subtree ∧
      ((lp.ledger.takes v = false ∧ Place.holding (.spot spot) v ∈ partsOf x.loc x.here) ∨
        ∃ e ∈ lp.ledger.log, e.use = .spot spot ∧ e.source = v ∧
          spot.shown (lp.ledger.path e) ∈ partsOf x.loc x.here ∧ lp.ledger.takes v = true) := by
  obtain ⟨-, -, -, hsubtree, hledger, -⟩ := h
  obtain ⟨hdown, hmarkup⟩ := hleaf
  have hverdict := Place.verdict_spot spot hmarkup
  have hq : ∀ t, Place.holding (.spot spot) v ≠ .node t := fun t he =>
    Part.node_ne_holding t _ _ he.symm
  obtain ⟨q', σ₁, σ₂, hrun, hbefore, hafter, hin⟩ := hsubtree.through hq hdown
  obtain ⟨x, ⟨c, hc, hx⟩, hx'⟩ := hin.resolve_left fun he => hq _ he.1
  obtain rfl := List.mem_singleton.1 hc
  refine ⟨x, hx, ?_⟩
  obtain ⟨L₁, hL₁, -⟩ := hbefore.exists_ledger rfl
  cases hrun.treats with
  | keep _ hl =>
    obtain ⟨L, hL, hgrows⟩ := hafter.exists_ledger hL₁
    obtain rfl := Option.some.inj (hledger.symm.trans hL)
    exact .inl ⟨(hgrows.takes v).trans (hl L₁ hL₁), hx'⟩
  | @move spot' L e d hp _ hσ hl he hu hs =>
    obtain ⟨L', hL', hgrows⟩ := hafter.exists_ledger rfl
    obtain rfl := Option.some.inj (hledger.symm.trans hL')
    obtain rfl := Place.spot.inj hp
    have hmem : e ∈ lp.ledger.log :=
      hgrows.log.subset (List.mem_append_right _ (List.mem_singleton_self e))
    refine .inr ⟨e, hmem, hu, hs, ?_, (hgrows.takes v).trans hl⟩
    rw [hgrows.path e]
    exact hx'
  | leave hv | enter hv | loop hv => cases hverdict.symm.trans hv

theorem Formed.nested {lp : Lowered adapter} {m : Mapping} (h : Formed start lp)
    (hm : Nested (lp.mapping.renamed lp.tokens lp.mapping.subtree) gs m) :
    ∃ e ∈ lp.ledger.log, ∃ wrapper binding, e.use = .loop wrapper binding ∧
      e.source = m.receiver := by
  obtain ⟨-, -, -, hsubtree, hledger, -⟩ := h
  obtain ⟨place, parens, under, hdown, hverdict, rfl⟩ := hm
  have hq : ∀ t, place.holding (inParens parens m.tree) ≠ .node t := fun t he =>
    Part.node_ne_holding t _ _ he.symm
  obtain ⟨q', σ₁, σ₂, hrun, hbefore, hafter, -⟩ := hsubtree.through hq hdown
  obtain ⟨L₁, hL₁, -⟩ := hbefore.exists_ledger rfl
  cases hrun.treats with
  | @loop parens' m' w _ _ hm' hloop =>
    obtain ⟨inner, _, rfl, rfl, -, -, -, -, hbound⟩ := hloop.of_loop
    have hreceiver : inner.mapping.receiver = m.receiver := by
      have hm := m.mapCallTree?_strip parens
      rw [hm', inner.mapping.mapCallTree?_strip] at hm
      exact Option.some.inj hm
    rw [hL₁] at hbound
    generalize hσ₂ : σ₂.ledger = o at hbound hafter
    cases hbound with
    | nested hn hu hs =>
      obtain ⟨L', hL', hgrows⟩ := hafter.exists_ledger rfl
      obtain rfl := Option.some.inj (hledger.symm.trans hL')
      exact ⟨_, hgrows.log.subset (List.mem_append_right _ (List.mem_singleton_self _)), _, _, hu,
        hs.trans hreceiver⟩
  | leave hv | enter hv | keep hv | move _ hv => cases hverdict.symm.trans hv

def Part.isTemplate : Part → Bool
  | .node _ | .attribute _ _ _ | .child _ | .operand _ _ => true
  | _ => false

theorem isTemplate_of_mem_partsOf {p : Part} {l : Loc} {n : Node Located} (hp : p ∈ partsOf l n) :
    p.isTemplate = true := by
  cases partOf_of_mem hp <;> rfl

/-- If an event was noted for a nested loop, the loop stands in the part, and its call is carried
under the conditions that it stands under. -/
def Event.OfNested (adapter : Adapter) (gs : List Premise) (p : Part) (e : Event) : Prop :=
  ∀ wrapper binding, e.use = .loop wrapper binding →
    ∃ (lp : Lowered adapter) (place : Place) (parens : List Loc) (under : List Premise),
      Down (place.holding (inParens parens lp.mapping.tree)) under p ∧
      place.verdict (inParens parens lp.mapping.tree) = .loop ∧ e.source = lp.mapping.receiver ∧
      Guarded lp.call (gs ++ under ++ place.premises) e.carrier

theorem Lowers.ofNested (h : Lowers adapter start gs ps σ ps' σ') :
    (∀ p ∈ ps, p.isTemplate = true) →
    ∀ e ∈ σ'.log, e ∈ σ.log ∨ ∃ p ∈ ps, e.OfNested adapter gs p := by
  induction h with
  | nil | inert | leave | keep => exact fun _ e he => .inl he
  | @cons _ p _ ps _ _ _ _ _ _ ih ihs =>
    intro hps e he
    rcases ihs (fun q hq => hps q (List.mem_cons_of_mem p hq)) e he with he | ⟨q, hq, hnested⟩
    · refine (ih (List.forall_mem_singleton.2 (hps p List.mem_cons_self)) e he).imp_right ?_
      rintro ⟨q, hq, hnested⟩
      obtain rfl := List.mem_singleton.1 hq
      exact ⟨q, List.mem_cons_self, hnested⟩
    · exact .inr ⟨q, List.mem_cons_of_mem p hq, hnested⟩
  | node _ _ ih =>
    intro _ e he
    refine (ih (fun p hp => isTemplate_of_mem_partsOf hp) e he).imp_right ?_
    rintro ⟨p, hp, hnested⟩
    refine ⟨_, List.mem_singleton_self _, fun wrapper binding hu => ?_⟩
    obtain ⟨lp, place, parens, under, hdown, hrest⟩ := hnested wrapper binding hu
    exact ⟨lp, place, parens, under, .node hp hdown, hrest⟩
  | markup hm _ ih =>
    intro _ e he
    refine (ih (List.forall_mem_singleton.2 rfl) e he).imp_right ?_
    rintro ⟨p, hp, hnested⟩
    obtain rfl := List.mem_singleton.1 hp
    refine ⟨_, List.mem_singleton_self _, fun wrapper binding hu => ?_⟩
    obtain ⟨lp, place, parens, under, hdown, hrest⟩ := hnested wrapper binding hu
    exact ⟨lp, place, parens, under, .markup hm hdown, hrest⟩
  | @enter gs outer v _ _ _ hv _ ih =>
    intro _ e he
    refine (ih (List.forall_mem_singleton.2 rfl) e he).imp_right ?_
    rintro ⟨p, hp, hnested⟩
    obtain rfl := List.mem_singleton.1 hp
    refine ⟨_, List.mem_singleton_self _, fun wrapper binding hu => ?_⟩
    obtain ⟨lp, place, parens, under, hdown, hverdict, hsource, hguarded⟩ :=
      hnested wrapper binding hu
    refine ⟨lp, place, parens, outer.premises ++ under, .enter hv hdown, hverdict, hsource, ?_⟩
    rwa [← List.append_assoc gs]
  | @move _ spot v a loops L e d _ _ _ hu _ =>
    intro _ e' he'
    rcases List.mem_append.1 he' with he' | he'
    · exact .inl he'
    · obtain rfl := List.mem_singleton.1 he'
      refine .inr ⟨_, List.mem_singleton_self _, fun wrapper binding hu' => ?_⟩
      cases hu.symm.trans hu'
  | @loop gs place parens m w σ σ' hv h _ =>
    intro _ e he
    obtain ⟨lp, _, -, rfl, -, -, -, -, hbound⟩ := h.of_loop
    rw [Stage.log] at he ⊢
    generalize σ.ledger = o at hbound ⊢
    generalize σ'.ledger = o' at hbound he
    cases hbound with
    | inline => cases he
    | nested hn _ hs hc =>
      rcases List.mem_append.1 he with he | he
      · exact .inl he
      · obtain rfl := List.mem_singleton.1 he
        refine .inr ⟨_, List.mem_singleton_self _, fun _ _ _ => ?_⟩
        exact ⟨lp, place, parens, [], .here, hv, hs, by rwa [List.append_nil]⟩
  | search | found | site =>
    intro hps
    cases List.forall_mem_singleton.1 hps

theorem Formed.of_nested {lp : Lowered adapter} {e : Event} {wrapper : Loc} {binding : Binding}
    (h : Formed start lp) (he : e ∈ lp.ledger.log) (hu : e.use = .loop wrapper binding) :
    ∃ (inner : Lowered adapter) (gs : List Premise),
      Nested (lp.mapping.renamed lp.tokens lp.mapping.subtree) gs inner.mapping ∧
      e.source = inner.mapping.receiver ∧ Guarded inner.call gs e.carrier := by
  obtain ⟨-, -, -, hsubtree, hledger, -⟩ := h
  have hnested := hsubtree.ofNested (List.forall_mem_singleton.2 rfl) e
    (by rwa [Stage.log, hledger])
  obtain ⟨p, hp, hp'⟩ := hnested.resolve_left List.not_mem_nil
  obtain rfl := List.mem_singleton.1 hp
  obtain ⟨inner, place, parens, under, hdown, hverdict, hsource, hguarded⟩ := hp' wrapper binding hu
  exact ⟨inner, _, ⟨place, parens, under, hdown, hverdict, rfl⟩, hsource, hguarded⟩

/-! ### Spots in a store -/

theorem mem_partsOf_attribute {l holder : Loc} {n : Node Located} {i : Nat} {a : Attribute Located}
    (h : .attribute holder i a ∈ partsOf l n) :
    holder = l ∧ ∃ e, n = .element e ∧ e.attributes[i]? = some a := by
  cases partOf_of_mem h with
  | valued hn ha => exact ⟨rfl, _, hn, ha⟩

/-- What stands in a template stands in the wrapper of the loop, but for a fragment that hands over
its children. -/
theorem Lowered.occurs_tree (lp : Lowered adapter) {x : Located} (h : Occurs x lp.subtree)
    (hx : ∀ cs, x.here ≠ .fragment cs) : Occurs x lp.tree := by
  generalize ht : lp.subtree = t at h
  cases h with
  | self =>
    refine .of_mem ?_
    rw [show lp.tree.here.children = _ from children_wrapperNode _ _ _ _ _, handedOver, ht]
    split
    · exact absurd ‹_› (hx _)
    · exact List.mem_cons_of_mem _ (List.mem_singleton_self _)
  | child hc h => exact h.trans (lp.occurs_of_subtree (by rw [ht]; exact hc))

theorem Lowered.occurs_child (lp : Lowered adapter) {x c : Located} (h : Occurs x lp.subtree)
    (hc : .child c ∈ partsOf x.loc x.here) : Occurs c lp.tree := by
  have hmem : c ∈ x.here.children :=
    mem_children_of_mem_partsOf (List.mem_flatMap.2 ⟨_, hc, List.mem_singleton_self c⟩)
  generalize ht : lp.subtree = t at h
  cases h with
  | self => exact lp.occurs_of_subtree (by rw [ht]; exact hmem)
  | child hd h => exact .trans ((Occurs.of_mem hmem).trans h) (lp.occurs_of_subtree (by rwa [ht]))

theorem Lowered.mustache (lp : Lowered adapter) {x : Located} {spot : Spot} {text : String}
    (hs : s.Shows lp.tree) (hx : Occurs x lp.subtree)
    (h : spot.shown text ∈ partsOf x.loc x.here) : Mustache s spot text := by
  cases spot with
  | text c => exact .text (hs.occurs (lp.occurs_child hx h)).get_root
  | «attribute» holder i name =>
    obtain ⟨rfl, e, he, ha⟩ := mem_partsOf_attribute h
    have hget := (hs.occurs (lp.occurs_tree hx (by simp [he]))).get_loc
    rw [he] at hget
    exact .named hget (by simp [ha, Attribute.map, AttributeValue.map])

theorem Lowered.not_mustache (lp : Lowered adapter) {x : Located} {spot : Spot} {text : String}
    (hs : s.Shows lp.tree) (hx : Occurs x lp.subtree)
    (h : Place.holding (.spot spot) v ∈ partsOf x.loc x.here) : ¬ Mustache s spot text := by
  intro hm
  cases hm with
  | text hget =>
    have hshown := (hs.occurs (lp.occurs_child hx h)).get_root
    rw [hget] at hshown
    cases hshown
  | named hget hm =>
    obtain ⟨rfl, e, he, ha⟩ := mem_partsOf_attribute h
    have hshown := (hs.occurs (lp.occurs_tree hx (by simp [he]))).get_loc
    rw [hget, he] at hshown
    obtain rfl := Node.element.inj hshown
    simp [ha, Attribute.map, AttributeValue.map] at hm

namespace LowersWhole

variable {a a' : Allocator} {loops : List (Lowered adapter)} {lp : Lowered adapter}

theorem template_eq (h : LowersWhole adapter start a t t' a' loops)
    (hn : (t.cells.map Cell.loc).Nodup) (hn' : (t'.cells.map Cell.loc).Nodup)
    (hsites : ∀ site, site ∈ sites ↔ ∃ lp ∈ loops, lp.site = site) (hlp : lp ∈ loops)
    (hu : Stood sites t u) (hloc : u.loc = lp.site.ownedSubtree) :
    u = lp.mapping.renamed lp.tokens lp.mapping.subtree := by
  obtain ⟨-, -, -, hsubtree, -, -⟩ := h.formed lp hlp
  refine hu.eq_of_loc_eq hn (h.stood hn' hsites lp hlp).template (hloc.trans ?_)
  exact hsubtree.of_node.1

end LowersWhole

end JsxLoops.Loop
