import JsxLoops.Proofs.Run

/-!
Lowering twice. A part is `Quiet` if nothing is left in it that a run outside of loops would lower:
no expression at a place of its own is a loop, and those that are gone into are quiet again. What a
run leaves is quiet, and a run on a quiet tree changes nothing, whatever the adapter.
-/

namespace JsxLoops.Loop

open JsxLoops.Tree Located

variable {adapter : Adapter} {start : Nat}

/-! ### Expressions that are no loops -/

theorem candidateTree?_lowered (lp : Lowered adapter) :
    candidateTree? lp.tree = .error .notMapCall :=
  candidateTree?_of_no_call (fun _ => by simp [Lowered.tree, wrapperNode])
    fun _ _ => by simp [Lowered.tree, wrapperNode]

def Still (t t' : Located) : Prop :=
  candidateTree? t' = candidateTree? t ∨ candidateTree? t' = .error .notMapCall

/-- Expressions that are gone into, and operands, do not turn into loops. -/
def Part.Still : Part → Part → Prop
  | .node t, .node t' => Loop.Still t t'
  | .operand _ t, .operand _ t' => Loop.Still t t'
  | .loop _, .wrapper w => candidateTree? w = .error .notMapCall
  | _, _ => True

theorem Lowers.still {gs : List Premise} {ps ps' : List Part} {σ σ' : Stage adapter}
    (h : Lowers adapter start gs ps σ ps' σ') : List.Forall₂ Part.Still ps ps' := by
  induction h with
  | nil => exact .nil
  | cons _ _ ih ihs => exact .cons (List.forall₂_cons.1 ih).1 ihs
  | @node _ l n n' _ _ hn _ ih =>
    refine .cons ?_ .nil
    cases n with
    | element e =>
      obtain ⟨as, cs, rfl, -⟩ := hn
      exact .inr (candidateTree?_of_no_call (fun _ => by simp) fun _ _ => by simp)
    | fragment cs =>
      obtain ⟨cs', rfl⟩ := hn
      exact .inr (candidateTree?_of_no_call (fun _ => by simp) fun _ _ => by simp)
    | conditional test yes no =>
      obtain ⟨yes', no', rfl⟩ := hn
      exact .inr (candidateTree?_of_no_call (fun _ => by simp) fun _ _ => by simp)
    | logical op left right =>
      obtain ⟨right', rfl⟩ := hn
      exact .inr (candidateTree?_of_no_call (fun _ => by simp) fun _ _ => by simp)
    | paren inner =>
      obtain ⟨inner', rfl⟩ := hn
      have hinner : Loop.Still inner inner' := (List.forall₂_cons.1 ih).1
      rw [Loop.Still, ← candidateTree?_paren l inner, ← candidateTree?_paren l inner'] at hinner
      exact hinner
    | _ =>
      obtain rfl := hn
      exact .inl rfl
  | @inert _ p _ h =>
    refine .cons ?_ .nil
    cases p <;> trivial
  | @leave _ place v _ _ =>
    refine .cons ?_ .nil
    rcases place with (_ | _) | _ <;> first | trivial | exact .inl rfl
  | @enter _ place _ _ _ _ _ _ ih =>
    refine .cons ?_ .nil
    rcases place with (_ | _) | _ <;> first | trivial | exact (List.forall₂_cons.1 ih).1
  | @keep _ spot => cases spot <;> exact .cons trivial .nil
  | @move _ spot => cases spot <;> exact .cons trivial .nil
  | @loop _ place _ _ _ _ _ _ _ ih =>
    refine .cons ?_ .nil
    rcases place with (_ | _) | _ <;> first | trivial | exact .inr (List.forall₂_cons.1 ih).1
  | markup | search | found => exact .cons trivial .nil
  | site lp => exact .cons (candidateTree?_lowered lp) .nil

/-! ### Quiet parts -/

/-- Nothing is left to lower, outside of loops. -/
inductive Quiet : Part → Prop
  | node {l : Loc} {n : Node Located} (h : ∀ p ∈ partsOf l n, Quiet p) : Quiet (.node (.node l n))
  | inert {p : Part} (h : p.Inert) : Quiet p
  | markup {t : Located} (hm : t.here.isMarkup = true) (h : Quiet (.node t)) : Quiet (.child t)
  | place {place : Place} {v : Located} (hv : place.verdict v ≠ .loop)
    (h : place.verdict v = .enter → Quiet (.node v)) : Quiet (place.holding v)
  | wrapper {w : Located} (h : Quiet (.node w)) : Quiet (.wrapper w)
  /-- Statements are only searched for loops whose record they belong to. -/
  | statement (t : Located) : Quiet (.statement t)

theorem Quiet.parts {l : Loc} {n : Node Located} (h : Quiet (.node (.node l n))) :
    ∀ p ∈ partsOf l n, Quiet p := by
  generalize hp : Part.node (.node l n) = p at h
  cases h with
  | node h =>
    obtain ⟨rfl, rfl⟩ := Located.node.inj (Part.node.inj hp)
    exact h
  | inert h =>
    subst hp
    cases h
  | _ => simp at hp

theorem Quiet.of_wrapper {w : Located} (h : Quiet (.wrapper w)) : Quiet (.node w) := by
  generalize hp : Part.wrapper w = p at h
  cases h with
  | wrapper h =>
    obtain rfl := Part.wrapper.inj hp
    exact h
  | inert h =>
    subst hp
    cases h
  | @place place => rcases place with (_ | _) | _ <;> cases hp
  | _ => cases hp

theorem Quiet.of_markup {t : Located} (hm : t.here.isMarkup = true) (h : Quiet (.child t)) :
    Quiet (.node t) := by
  generalize hp : Part.child t = p at h
  cases h with
  | markup _ h =>
    obtain rfl := Part.child.inj hp
    exact h
  | inert h =>
    subst hp
    rw [h.1] at hm
    cases hm
  | @place place =>
    rcases place with (_ | _) | _ <;> cases hp
    cases hm
  | _ => cases hp

theorem Quiet.of_holding (place : Place) {v : Located} (h : Quiet (place.holding v)) :
    place.verdict v ≠ .loop ∧ (place.verdict v = .enter → Quiet (.node v)) := by
  generalize hp : place.holding v = p at h
  cases h with
  | node => exact absurd hp.symm (Part.node_ne_holding _ _ _)
  | inert h =>
    subst hp
    rcases place with (c | ⟨l, i, name⟩) | under
    · exact absurd rfl (h.2 v)
    · exact absurd rfl (h name v)
    · cases h
  | markup hm h =>
    rcases place with (c | _) | _
    · obtain rfl := Part.child.inj hp
      cases hm
    · cases hp
    · cases hp
  | @place place' v' hv h =>
    rcases place with (_ | _) | _ <;> rcases place' with (_ | _) | _ <;> cases hp <;> exact ⟨hv, h⟩
  | wrapper | statement => rcases place with (_ | _) | _ <;> cases hp

theorem Still.verdict_ne_loop {place : Place} {v v' : Located} (h : Still v v')
    (hv : place.verdict v = .enter) : place.verdict v' ≠ .loop := by
  -- a tree that is gone into is no loop, so neither is what it becomes
  have hno : (∃ under, place = .operand under) ∨ (∃ c, place = .spot (.text c)) →
      ∃ reason, candidateTree? v' = .error reason := by
    intro hplace
    rcases h with h | h
    · rw [h]
      cases hc : candidateTree? v with
      | ok c =>
        rcases hplace with ⟨_, rfl⟩ | ⟨_, rfl⟩ <;> simp [Place.verdict, hc] at hv
      | error reason => exact ⟨reason, rfl⟩
    · exact ⟨_, h⟩
  rcases place with (c | ⟨l, i, name⟩) | under
  · obtain ⟨reason, hreason⟩ := hno (.inr ⟨c, rfl⟩)
    simp only [Place.verdict, hreason]
    split
    · split <;> simp
    · simp
  · simp only [Place.verdict]
    split <;> simp
  · obtain ⟨reason, hreason⟩ := hno (.inl ⟨under, rfl⟩)
    simp only [Place.verdict, hreason]
    split <;> simp

theorem hasMarkup_of_staticPath {t : Located} {path : String × List String}
    (h : t.staticPath = some path) : t.hasMarkup = false := by
  induction t using induct generalizing path with
  | node l n ih =>
    rw [staticPath, fold_node] at h
    rw [hasMarkup, fold_node]
    cases n with
    | name name => rfl
    | paren inner =>
      have hinner : inner.hasMarkup = false := ih inner (List.mem_singleton_self _) h
      show (inner.hasMarkup || false) = false
      rw [hinner, Bool.or_false]
    | member object property optional =>
      cases optional with
      | true => cases h
      | false =>
        obtain ⟨x, hx, -⟩ := Option.map_eq_some_iff.1 h
        have hobject : object.hasMarkup = false := ih object (List.mem_singleton_self _) hx
        show (object.hasMarkup || false) = false
        rw [hobject, Bool.or_false]
    | _ => cases h

theorem Bound.quiet_source {gs : List Premise} {lp : Lowered adapter}
    {parent parent' : Option (Ledger adapter)} (h : Bound gs lp parent parent')
    (hm : lp.source.hasMarkup = true) : Quiet (.node lp.source) := by
  cases h with
  | inline hs =>
    rw [hs]
    exact .node (by simp [partsOf])
  | nested he _ hsource _ hr =>
    generalize lp.source = source at hr hm
    generalize lp.binding = binding at hr
    generalize hholding : Event.holding _ = holding at hr
    cases hr with
    | merged l => exact .node (by simp [partsOf])
    | field l => exact .node (by simp [partsOf])
    | @named name _ hpath =>
      generalize [name] = path at hpath
      cases hpath <;> exact .node (by simp [partsOf])
    | under herase =>
      have hno : lp.mapping.receiver.hasMarkup = false :=
        hasMarkup_of_staticPath (hsource ▸ he.staticPath_source hholding)
      have hsame : source.hasMarkup = lp.mapping.receiver.hasMarkup :=
        fold_eq_of_erase_eq (fun _ _ _ _ _ => rfl) herase
      rw [hsame, hno] at hm
      cases hm

theorem Lowers.quiet {gs : List Premise} {ps ps' : List Part} {σ σ' : Stage adapter}
    (h : Lowers adapter start gs ps σ ps' σ') : ∀ p ∈ ps', Quiet p := by
  induction h with
  | nil => simp
  | cons _ _ ih ihs => exact List.forall_mem_cons.2 ⟨ih _ (List.mem_singleton_self _), ihs⟩
  | node _ _ ih => exact List.forall_mem_singleton.2 (.node ih)
  | inert h => exact List.forall_mem_singleton.2 (.inert h)
  | markup hm h ih =>
    exact List.forall_mem_singleton.2 (.markup (h.of_node.2.1.isMarkup hm)
      (ih _ (List.mem_singleton_self _)))
  | leave hv => exact List.forall_mem_singleton.2 (.place (by simp [hv]) (by simp [hv]))
  | keep hv _ => exact List.forall_mem_singleton.2 (.place (by simp [hv]) (by simp [hv]))
  | enter hv h ih =>
    have hstill := (List.forall₂_cons.1 h.still).1
    exact List.forall_mem_singleton.2 (.place (Still.verdict_ne_loop hstill hv) fun _ =>
      ih _ (List.mem_singleton_self _))
  | @move _ spot =>
    refine List.forall_mem_singleton.2 (.inert ?_)
    cases spot with
    | text c => exact ⟨rfl, by simp⟩
    | _ => exact fun _ _ => by simp
  | @loop _ place _ m w _ _ hv h ih =>
    have hw : Quiet (.node w) := (ih _ (List.mem_singleton_self _)).of_wrapper
    obtain ⟨lp, _, rfl, -⟩ := h.of_loop
    refine List.forall_mem_singleton.2 ?_
    rcases place with (c | ⟨l, i, name⟩) | under
    · exact .markup rfl hw
    · simp only [Place.verdict] at hv
      split at hv <;> cases hv
    · show Quiet (Place.holding (.operand under) lp.tree)
      refine .place ?_ fun _ => hw
      simp only [Place.verdict, candidateTree?_lowered]
      split <;> simp
  | search | found => exact List.forall_mem_singleton.2 (.statement _)
  | @site _ lp _ _ _ _ hm _ _ _ hsubtree _ _ _ _ hbound _ ih =>
    refine List.forall_mem_singleton.2 (.wrapper (.node fun p hp => ?_))
    have hsub : Quiet (.node lp.subtree) := ih _ (List.mem_singleton_self _)
    have hmarkup : lp.subtree.here.isMarkup = true :=
      hsubtree.of_node.2.1.isMarkup (lp.mapping.isMarkup_renamed lp.tokens hm.markup)
    simp only [partsOf, wrapperNode, List.mapIdx_cons, List.mapIdx_nil, List.cons_append,
      List.nil_append, List.mem_cons, List.mem_map] at hp
    rcases hp with rfl | rfl | rfl | rfl | ⟨t, ht, rfl⟩
    · show Quiet (Place.holding (.spot (.attribute lp.wrapper 0 adapter.forAttribute)) lp.source)
      refine .place ?_ ?_
      · simp only [Place.verdict]
        split <;> simp
      · intro hv
        refine hbound.quiet_source ?_
        simp only [Place.verdict] at hv
        split at hv
        · assumption
        · cases hv
    · exact .inert fun _ _ => by simp [Attribute.quoted]
    · exact .inert fun _ _ => by simp [Attribute.quoted]
    · exact .inert fun _ _ => by simp [Attribute.quoted]
    · generalize lp.subtree = subtree at hsub hmarkup ht
      obtain ⟨l, n⟩ := subtree
      cases n with
      | fragment cs => exact hsub.parts _ (List.mem_map_of_mem ht)
      | element e =>
        obtain rfl := List.mem_singleton.1 ht
        exact .markup rfl hsub
      | _ => cases hmarkup

/-! ### Runs on quiet trees -/

theorem Runs.foldlM_const {σ α β : Type} {f : α → β → StateM σ α} {a : α} {s : σ} {xs : List β}
    (h : ∀ x ∈ xs, Runs (f a x) s a s) : Runs (xs.foldlM f a) s a s := by
  induction xs with
  | nil => exact .pure a s
  | cons x xs ih =>
    rw [List.foldlM_cons]
    exact (h x List.mem_cons_self).bind (ih fun y hy => h y (List.mem_cons_of_mem x hy))

section

variable {inside : Loc → List Guard → Option Owner → Lower (Option Owner)} {p : Pass}

/-- Quiet trees are left as they are outside of loops. -/
def Keeps (inside : Loc → List Guard → Option Owner → Lower (Option Owner)) (p : Pass) : Prop :=
  ∀ (gs : List Guard) {t : Located}, p.store.Shows t → Quiet (.node t) →
    Runs (inside t.loc gs none) p none p

theorem Keeps.attribute (hin : Keeps inside p) {l : Loc} {i : Nat} {a : Attribute Located}
    (gs : List Guard) (hs : ∀ v ∈ a.children, p.store.Shows v) (hq : Quiet (.attribute l i a)) :
    Runs (lowerAttribute adapter inside l gs none (a.map loc, i)) p none p := by
  rcases a with ⟨name, _ | _ | v | _⟩ | v
  case named.expression =>
    have hv : p.store.Shows v := hs v (by simp)
    have hquiet := Quiet.of_holding (.spot (.attribute l i name)) hq
    refine Runs.store_bind ?_
    rw [hv.hasMarkup]
    cases hm : v.hasMarkup with
    | true => exact hin gs hv (hquiet.2 (if_pos hm))
    | false => exact .pure _ p
  all_goals exact .pure _ p

theorem Keeps.child (hin : Keeps inside p) {holder : Loc} {t : Located} (gs : List Guard)
    (hs : p.store.Shows t) (hq : Quiet (.child t)) :
    Runs (lowerChild adapter inside holder gs none t.loc) p none p := by
  refine Runs.store_bind ?_
  rw [hs.get_loc]
  cases hn : t.here with
  | element e => exact hin gs hs (hq.of_markup (by rw [hn]; rfl))
  | fragment cs => exact hin gs hs (hq.of_markup (by rw [hn]; rfl))
  | container v =>
    have hv : p.store.Shows v := hs.of_mem (by simp [hn, Node.children])
    rw [← eta t, hn] at hq
    have hquiet := Quiet.of_holding (.spot (.text t.loc)) hq
    simp only [Node.map, candidate?_eq hv, hv.hasMarkup]
    simp only [Place.verdict] at hquiet
    cases hc : candidateTree? v with
    | ok c => simp [hc] at hquiet
    | error reason =>
      simp only [hc] at hquiet
      by_cases hm : v.hasMarkup = true
      · by_cases hr : reason = .notMapCall
        · simp only [hm, hr, if_true] at hquiet ⊢
          exact hin gs hv (hquiet.2 trivial)
        · simp only [hm, hr, if_true, if_false]
          exact .pure _ p
      · simp only [hm]
        exact .pure _ p
  | _ => exact .pure _ p

theorem Keeps.operand (hin : Keeps inside p) {holder : Loc} {under : List Premise} {t : Located}
    (gs : List Guard) (hs : p.store.Shows t) (hq : Quiet (.operand under t)) :
    Runs (lowerOperand adapter inside holder t.loc gs none) p none p := by
  have hquiet := Quiet.of_holding (.operand under) hq
  refine Runs.store_bind ?_
  rw [candidate?_eq hs, hs.hasMarkup]
  simp only [Place.verdict] at hquiet
  cases hc : candidateTree? t with
  | ok c => simp [hc] at hquiet
  | error reason =>
    simp only [hc] at hquiet
    by_cases henter : (reason = .notMapCall && t.hasMarkup) = true
    · simp only [henter, if_true]
      exact hin gs hs (hquiet.2 (if_pos henter))
    · simp only [henter]
      exact .pure _ p

theorem Keeps.lowerNode (hin : Keeps inside p) : Keeps (lowerNode adapter inside) p := by
  intro gs t hs hq
  obtain ⟨l, n⟩ := t
  have hparts := hq.parts
  have hkid : ∀ c ∈ n.children, p.store.Shows c := fun c hc => hs.child hc
  refine Runs.store_bind ?_
  rw [loc_node, hs.get_root]
  have kids {cs : List Located} (hcs : ∀ c ∈ cs, c ∈ n.children)
      (hq : ∀ c ∈ cs, Part.child c ∈ partsOf l n) :
      Runs ((cs.map loc).foldlM (lowerChild adapter inside l gs) none) p none p := by
    refine Runs.foldlM_const fun x hx => ?_
    obtain ⟨c, hc, rfl⟩ := List.mem_map.1 hx
    exact hin.child gs (hkid c (hcs c hc)) (hparts _ (hq c hc))
  cases n with
  | element e =>
    refine Runs.bind (Runs.foldlM_const fun x hx => ?_) (kids ?_ ?_)
    · obtain ⟨a, i⟩ := x
      rw [List.mem_zipIdx_iff_getElem?, List.getElem?_map] at hx
      dsimp only at hx
      obtain ⟨b, hb, rfl⟩ := Option.map_eq_some_iff.1 hx
      obtain ⟨hi, rfl⟩ := List.getElem?_eq_some_iff.1 hb
      refine hin.attribute gs (fun v hv => hkid v ?_) (hparts _ ?_)
      · exact List.mem_append_left _ (List.mem_flatMap.2 ⟨_, List.getElem_mem hi, hv⟩)
      · exact List.mem_append_left _ (List.mem_mapIdx.2 ⟨i, hi, rfl⟩)
    · exact fun c hc => List.mem_append_right _ hc
    · exact fun c hc => List.mem_append_right _ (List.mem_map_of_mem hc)
  | fragment cs => exact kids (fun _ hc => hc) fun c hc => List.mem_map_of_mem hc
  | conditional test yes no =>
    exact Runs.bind
      (hin.operand _ (hkid yes (by simp [Node.children])) (hparts _ List.mem_cons_self))
      (hin.operand _ (hkid no (by simp [Node.children]))
        (hparts (.operand [.whenFalse test] no) (by simp [partsOf])))
  | logical op left right =>
    exact hin.operand _ (hkid right (by simp [Node.children])) (hparts _ List.mem_cons_self)
  | paren inner =>
    exact hin.operand _ (hkid inner (by simp [Node.children])) (hparts _ List.mem_cons_self)
  | _ => exact .pure _ p

theorem lowerTo_keeps (adapter : Adapter) (depth : Nat) (p : Pass) :
    Keeps (lowerTo adapter depth) p := by
  induction depth with
  | zero => exact fun _ _ _ _ => .pure _ p
  | succ depth ih => exact ih.lowerNode

end

/-! ### Two runs -/

theorem Quiet.elsewhere {l : Loc} {n : Node Located} (h : Quiet (.node (.node l n))) (l' : Loc) :
    Quiet (.node (.node l' n)) := by
  refine .node fun p hp => ?_
  cases n with
  | element e =>
    rcases List.mem_append.1 hp with hp | hp
    · obtain ⟨i, hi, rfl⟩ := List.mem_mapIdx.1 hp
      have hq : Quiet (.attribute l i e.attributes[i]) :=
        h.parts _ (List.mem_append_left _ (List.mem_mapIdx.2 ⟨i, hi, rfl⟩))
      generalize e.attributes[i] = a at hq
      by_cases ha : ∃ name v, a = .named name (.expression v)
      · obtain ⟨name, v, rfl⟩ := ha
        obtain ⟨hv, hin⟩ := Quiet.of_holding (.spot (.attribute l i name)) hq
        exact (Quiet.place hv hin : Quiet (Place.holding (.spot (.attribute l' i name)) v))
      · exact .inert fun name v he => ha ⟨name, v, he⟩
    · exact h.parts p (List.mem_append_right _ hp)
  | _ => exact h.parts p hp

theorem Quiet.inParens {t : Located} (h : Quiet (.node t))
    (hc : candidateTree? t = .error .notMapCall) (ps : List Loc) :
    Quiet (.node (inParens ps t)) := by
  induction ps with
  | nil => exact h
  | cons p ps ih =>
    refine .node (List.forall_mem_singleton.2 ?_)
    show Quiet (Place.holding (.operand []) (Located.inParens ps t))
    refine .place ?_ fun _ => ih
    simp only [Place.verdict, candidateTree?_inParens, hc]
    split <;> simp

theorem LowersWhole.quiet {a a' : Allocator} {t t' : Located} {loops : List (Lowered adapter)}
    (h : LowersWhole adapter start a t t' a' loops) :
    Quiet (.node t') ∧ ∃ reason, candidateTree? t' = .error reason := by
  cases h with
  | inside hc h =>
    refine ⟨h.quiet _ (List.mem_singleton_self _), ?_⟩
    rcases (List.forall₂_cons.1 h.still).1 with hs | hs
    · exact ⟨_, hs.trans hc⟩
    · exact ⟨_, hs⟩
  | @root ps m _ lp _ _ _ h =>
    refine ⟨?_, _, (candidateTree?_inParens ps _).trans (candidateTree?_lowered _)⟩
    have hq := (h.quiet _ (List.mem_singleton_self _)).of_wrapper
    have hc := candidateTree?_lowered { lp with wrapper := m.call }
    exact (hq.elsewhere m.call).inParens hc ps

/-- A run on a quiet tree that is no loop changes nothing but the order of the sites. -/
theorem Quiet.lowerLoops_runs (adapter : Adapter) {p : Pass} {t : Located} {reason : Mismatch}
    (hs : p.store.Shows t) (hq : Quiet (.node t)) (hc : candidateTree? t = .error reason) :
    Runs (lowerLoops adapter t.loc) p 0
      { p with sites := p.sites.mergeSort fun x y => x.id ≤ y.id } := by
  have hcount : 0 = (p.sites.mergeSort fun x y => x.id ≤ y.id).length - p.sites.length := by
    rw [List.length_mergeSort, Nat.sub_self]
  rw [hcount]
  refine lowerLoops_sorted (p := p) ?_
  rw [candidate?_eq hs, hs.hasMarkup, hc]
  cases t.hasMarkup with
  | false => exact .pure _ p
  | true => exact ((lowerTo_keeps adapter p.store.size p []) hs hq).map _

/-- Lowering is idempotent: after a run on the root, another one finds no loop, hands out no number
and leaves every node of the store as it is. Only a list of sites that was not in the order of the
numbers is put into that order. -/
theorem lowerLoops_twice (first second : Adapter) {s : Store} {root : Loc} (h : s.IsTree root)
    (a b : Allocator) (before sites : List Site) :
    let p := (lowerLoops first root ⟨s, a, before⟩).2
    lowerLoops second root ⟨p.store, b, sites⟩ =
        (0, ⟨p.store, b, sites.mergeSort fun x y => x.id ≤ y.id⟩) ∧
      lowerLoops second root ⟨p.store, b, p.sites⟩ = (0, ⟨p.store, b, p.sites⟩) := by
  obtain ⟨t, rfl, hown⟩ := Store.isTree_iff.1 h
  obtain ⟨t', p, loops, hrun, hloc, hown', hlow, hsorted, -⟩ :=
    lowerLoops_runs first hown a before
  obtain ⟨hq, reason, hc⟩ := hlow.quiet
  have hagain (sites : List Site) := Quiet.lowerLoops_runs second (p := ⟨p.store, b, sites⟩)
    (hown'.shows le_rfl) hq hc
  rw [hloc] at hagain
  rw [show lowerLoops first t.loc ⟨s, a, before⟩ = (loops.length, p) from hrun]
  refine ⟨hagain sites, (hagain p.sites).trans ?_⟩
  rw [List.mergeSort_of_pairwise (hsorted.imp fun h => decide_eq_true h)]

theorem nestedLoops_twice :
    nestedLoops.IsTree ⟨22⟩ ∧
      let p := (lowerLoops .wechat ⟨22⟩ ⟨nestedLoops, ⟨0⟩, []⟩).2
      lowerLoops .ali ⟨22⟩ ⟨p.store, ⟨7⟩, []⟩ =
      (0, ⟨p.store, ⟨7⟩, [].mergeSort fun x y => x.id ≤ y.id⟩) ∧
        lowerLoops .ali ⟨22⟩ ⟨p.store, ⟨7⟩, p.sites⟩ = (0, ⟨p.store, ⟨7⟩, p.sites⟩) :=
  ⟨nestedLoops_isTree, lowerLoops_twice .wechat .ali nestedLoops_isTree ⟨0⟩ ⟨7⟩ [] []⟩

end JsxLoops.Loop
