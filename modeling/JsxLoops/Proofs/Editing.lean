import JsxLoops.Proofs.Reading

/-!
Edits of owned trees. Each edit of a store is described by the trees that it takes and gives: what
it takes is owned before, what it gives is owned afterwards, and all else that is owned stays as it
is. Stores only grow.
-/

namespace JsxLoops.Tree

open Located

/-! ### Runs -/

/-- A computation that starts in one state ends in another with a value. -/
def Runs {σ α : Type} (x : StateM σ α) (s : σ) (a : α) (s' : σ) : Prop := x s = (a, s')

section

variable {σ α β : Type} {s s' s'' : σ} {a : α} {b : β}

theorem Runs.pure (a : α) (s : σ) : Runs (Pure.pure a) s a s := rfl

theorem Runs.bind {x : StateM σ α} {f : α → StateM σ β} (hx : Runs x s a s')
    (hf : Runs (f a) s' b s'') : Runs (x >>= f) s b s'' := by
  have h : (x >>= f) s = f (x s).1 (x s).2 := rfl
  rw [Runs, h, hx]
  exact hf

theorem Runs.map {x : StateM σ α} (f : α → β) (hx : Runs x s a s') : Runs (f <$> x) s (f a) s' := by
  have h : (f <$> x) s = (f (x s).1, (x s).2) := rfl
  rw [Runs, h, hx]

theorem Runs.get_bind {f : σ → StateM σ β} (hf : Runs (f s) s b s') : Runs (get >>= f) s b s' := hf

end

theorem Runs.node_bind {β : Type} {s s' : Store} {l : Loc} {n : Node Loc} {f : Node Loc → Edit β}
    {b : β} (hn : s.get l = n) (hf : Runs (f n) s b s') : Runs (Edit.node l >>= f) s b s' := by
  subst hn
  exact hf

/-- From the store the edit gives a tree that is owned together with `rest`. -/
def Gives (e : Edit Loc) (s : Store) (rest : Multiset Cell) (P : Located → Prop) : Prop :=
  ∃ t s', Runs e s t.loc s' ∧ s.size ≤ s'.size ∧ s'.Owns (t.cells + rest) ∧ P t

section

variable {s : Store} {t : Located} {rest cells : Multiset Cell} {P Q : Located → Prop}

theorem Gives.pure (h : s.Owns (t.cells + rest)) (hp : P t) : Gives (Pure.pure t.loc) s rest P :=
  ⟨t, s, .pure t.loc s, le_rfl, h, hp⟩

theorem Gives.node_bind {l : Loc} {n : Node Loc} {f : Node Loc → Edit Loc} (hn : s.get l = n)
    (h : Gives (f n) s rest P) : Gives (Edit.node l >>= f) s rest P := by
  subst hn
  exact h

theorem Gives.bind {e : Edit Loc} {f : Loc → Edit Loc} (he : Gives e s cells P)
    (hf : ∀ t s', s.size ≤ s'.size → s'.Owns (t.cells + cells) → P t → Gives (f t.loc) s' rest Q) :
    Gives (e >>= f) s rest Q := by
  obtain ⟨t, s', hrun, hle, hown, hp⟩ := he
  obtain ⟨u, s'', hrun', hle', hown', hq⟩ := hf t s' hle hown hp
  exact ⟨u, s'', hrun.bind hrun', hle.trans hle', hown', hq⟩

theorem Gives.mono {e : Edit Loc} (he : Gives e s rest P) (h : ∀ t, P t → Q t) :
    Gives e s rest Q := by
  obtain ⟨t, s', hrun, hle, hown, hp⟩ := he
  exact ⟨t, s', hrun, hle, hown, h t hp⟩

/-! ### Adding and replacing -/

theorem refill_roots {n : Node Loc} {ts : List Located} (h : ts.map loc = n.children) :
    (n.refill ts).children = ts ∧ (n.refill ts).map loc = n := by
  have hlength : ts.length = n.children.length := by rw [← h, List.length_map]
  obtain ⟨hchildren, hshape⟩ := Node.children_refill n ts hlength
  refine ⟨hchildren, Node.ext_of_shape ?_ ?_⟩
  · rw [Node.shape_map, hshape]
  · rw [Node.children_map, hchildren, h]

theorem Gives.add (n : Node Located) (h : s.Owns (cellsOf n.children + rest)) :
    Gives (Edit.add (n.map loc)) s rest fun t => t.here = n ∧ s.size ≤ t.loc.index := by
  refine ⟨.node ⟨s.size⟩ n, (s.add (n.map loc)).2, rfl, ?_, ?_, rfl, le_rfl⟩
  · rw [Store.size_add]
    exact Nat.le_succ _
  · rw [cells_node, add_assoc]
    exact h.add _

theorem Gives.name (x : String) (h : s.Owns rest) :
    Gives (Edit.name x) s rest fun t => t.here = .name x := by
  have h : s.Owns (cellsOf (Node.name x : Node Located).children + rest) := by
    simpa [Node.children] using h
  exact (Gives.add (.name x) h).mono fun _ ht => ht.1

/-! ### Children that are pointed elsewhere -/

theorem runs_repoint (old new l : Loc) (found : Bool) :
    Runs (Store.repoint old new l) found (if l = old then new else l) (found || old == l) := by
  by_cases h : l = old
  · subst h
    rw [Store.repoint, if_pos rfl, if_pos rfl, beq_self_eq_true, Bool.or_true]
    rfl
  · rw [Store.repoint, if_neg h, if_neg h, beq_false_of_ne (Ne.symm h), Bool.or_false]
    exact .pure l found

theorem runs_mapM_repoint (old new : Loc) (ls : List Loc) (found : Bool) :
    Runs (ls.mapM (Store.repoint old new)) found (ls.map fun l => if l = old then new else l)
      (found || ls.contains old) := by
  induction ls generalizing found with
  | nil =>
    rw [List.mapM_nil, List.contains_nil, Bool.or_false]
    exact .pure [] found
  | cons l ls ih =>
    rw [List.mapM_cons, List.contains_cons, ← Bool.or_assoc]
    exact (runs_repoint old new l found).bind ((ih _).bind (.pure _ _))

namespace Store

theorem replaceChild_eq (s : Store) (holder old new : Loc) :
    s.replaceChild holder old new = ((s.get holder).children.contains old,
      s.put holder ((s.get holder).map fun l => if l = old then new else l)) := by
  have hsweep := (runs_mapM_repoint old new (s.get holder).children false).map (s.get holder).refill
  rw [← Node.mapM_eq_refill, Node.refill_map_children, Bool.false_or] at hsweep
  rw [replaceChild, StateT.run, hsweep]

theorem get_replaceChild (s : Store) (holder old new l : Loc) :
    (s.replaceChild holder old new).2.get l =
      if l = holder then (s.get l).map (fun c => if c = old then new else c) else s.get l := by
  rw [replaceChild_eq]
  by_cases hl : l = holder
  · subst hl
    rw [if_pos rfl]
    by_cases hin : l.index < s.size
    · rw [get_put s l l _ hin, if_pos rfl]
    · -- past the end there is an empty literal, before and after
      have hpast := Nat.le_of_not_lt hin
      rw [get_of_size_le hpast, get_of_size_le (by rwa [size_put])]
      rfl
  · rw [if_neg hl]
    exact get_put_of_ne _ hl

end Store

/-! ### Holes -/

structure Hole (mk : Located → Node Located) where
  front : List Located
  back : List Located
  children : ∀ t, (mk t).children = front ++ t :: back
  shape : ∀ t u, (mk t).shape = (mk u).shape

namespace Hole

variable {mk : Located → Node Located}

def others (k : Hole mk) : Multiset Cell := cellsOf k.front + cellsOf k.back

theorem cells_mk (k : Hole mk) (l : Loc) (t : Located) :
    (Located.node l (mk t)).cells = {⟨l, (mk t).map loc⟩} + (t.cells + k.others) := by
  rw [cells_node, k.children, others, cellsOf_append, cellsOf_cons]
  abel

theorem mem (k : Hole mk) (t : Located) : t ∈ (mk t).children := by
  rw [k.children]
  exact List.mem_append.2 (.inr List.mem_cons_self)

theorem map_loc (k : Hole mk) {t u : Located} (h : u.loc = t.loc) :
    (mk u).map loc = (mk t).map loc :=
  Node.ext_of_shape (by simpa using k.shape u t) (by simp [k.children, h])

theorem apart (k : Hole mk) (h : s.Owns (t.cells + k.others)) :
    ∀ u, u ∈ k.front ∨ u ∈ k.back → u.loc ≠ t.loc := by
  intro u hu he
  have hn := h.nodup
  rw [Multiset.map_add, Multiset.nodup_add] at hn
  have hmem : u.cells ≤ k.others := by
    rcases hu with hu | hu
    · exact (cells_le_of_mem hu).trans (Multiset.le_add_right _ _)
    · exact (cells_le_of_mem hu).trans (Multiset.le_add_left _ _)
  refine Multiset.disjoint_left.1 hn.2.2 (Multiset.mem_map_of_mem Cell.loc (root_mem_cells t)) ?_
  show t.loc ∈ _
  rw [← he]
  exact Multiset.mem_map_of_mem Cell.loc (Multiset.mem_of_le hmem (root_mem_cells u))

theorem replace (k : Hole mk) {l : Loc} {t u : Located}
    (hapart : ∀ v, v ∈ k.front ∨ v ∈ k.back → v.loc ≠ t.loc)
    (h : s.Owns ({⟨l, (mk t).map loc⟩} + rest)) :
    ∃ b s', Runs (Edit.replaceChild l t.loc u.loc) s b s' ∧ s.size ≤ s'.size ∧
      s'.Owns ({⟨l, (mk u).map loc⟩} + rest) := by
  have hmap : (((mk t).map loc).map fun x => if x = t.loc then u.loc else x) = (mk u).map loc := by
    refine Node.ext_of_shape (by simpa using k.shape t u) ?_
    have hfront : k.front.map (fun v => if v.loc = t.loc then u.loc else v.loc) =
        k.front.map loc := List.map_congr_left fun v hv => if_neg (hapart v (.inl hv))
    have hback : k.back.map (fun v => if v.loc = t.loc then u.loc else v.loc) =
        k.back.map loc := List.map_congr_left fun v hv => if_neg (hapart v (.inr hv))
    simp [k.children, hfront, hback]
  refine ⟨((mk t).map loc).children.contains t.loc, s.put l ((mk u).map loc), ?_,
    (Store.size_put s l _).ge, h.put _⟩
  rw [Runs, Edit.replaceChild, Store.replaceChild_eq, h.get_head, hmap]

end Hole

/-! ### Paths and copies -/

/-- A root name with plain members, without parentheses. -/
inductive IsPath (root : String) : List String → Located → Prop
  | name (l : Loc) : IsPath root [] (.node l (.name root))
  | member {properties : List String} {t : Located} (l : Loc) (property : String)
    (h : IsPath root properties t) :
    IsPath root (properties ++ [property]) (.node l (.member t property false))

theorem Gives.members {root : String} {properties : List String} (more : List String)
    (h : s.Owns (t.cells + rest)) (ht : IsPath root properties t) :
    Gives (Edit.members t.loc more) s rest (IsPath root (properties ++ more)) := by
  induction more generalizing properties t s with
  | nil =>
    rw [List.append_nil]
    exact .pure h ht
  | cons property more ih =>
    rw [List.append_cons]
    refine .bind (Gives.add (.member t property false) (by simpa [Node.children] using h)) ?_
    intro u s' _ hown hu
    refine ih hown ?_
    rw [← eta u, hu.1]
    exact .member u.loc property ht

theorem Gives.path (root : String) (properties : List String) (h : s.Owns rest) :
    Gives (Edit.path root properties) s rest (IsPath root properties) := by
  refine .bind (Gives.name root h) fun t s' _ hown ht => ?_
  have hp : IsPath root [] t := by
    rw [← eta t, ht]
    exact .name t.loc
  exact Gives.members properties hown hp

theorem cloneTo_children {d : Nat} {ts : List Located} (h : s.Owns rest)
    (hts : ∀ t ∈ ts, t.cells ≤ rest)
    (hd : ∀ t ∈ ts, ∀ {s : Store} {rest : Multiset Cell}, s.Owns rest → t.cells ≤ rest →
      Gives (Edit.cloneTo d t.loc) s rest fun u => u.erase = t.erase) :
    ∃ us s', Runs ((ts.map loc).mapM (Edit.cloneTo d)) s (us.map loc) s' ∧ s.size ≤ s'.size ∧
      s'.Owns (cellsOf us + rest) ∧ us.map erase = ts.map erase := by
  induction ts generalizing s rest with
  | nil => exact ⟨[], s, .pure _ s, le_rfl, by simpa using h, rfl⟩
  | cons t ts ih =>
    obtain ⟨u, s', hrun, hle, hown, hu⟩ := hd t List.mem_cons_self h (hts t List.mem_cons_self)
    obtain ⟨us, s'', hruns, hle', hown', hus⟩ := ih hown
      (fun x hx => (hts x (List.mem_cons_of_mem t hx)).trans (Multiset.le_add_left _ _))
      (fun x hx => hd x (List.mem_cons_of_mem t hx))
    refine ⟨u :: us, s'', ?_, hle.trans hle', hown'.congr ?_, by simp [hu, hus]⟩
    · rw [List.map_cons, List.mapM_cons]
      exact hrun.bind (hruns.bind (.pure _ _))
    · rw [cellsOf_cons]
      abel

theorem Gives.cloneTo {d : Nat} (hd : t.height ≤ d) (h : s.Owns rest) (ht : t.cells ≤ rest) :
    Gives (Edit.cloneTo d t.loc) s rest fun u => u.erase = t.erase := by
  induction d generalizing t s rest with
  | zero => exact absurd (height_pos t) (by omega)
  | succ d ih =>
    obtain ⟨l, n⟩ := t
    have hget : s.get l = n.map loc := (h.shows ht).get_root
    have hle : ∀ c ∈ n.children, c.cells ≤ rest := fun c hc =>
      (Occurs.child hc .self).cells_le.trans ht
    obtain ⟨us, s', hruns, hsize, hown, hus⟩ := cloneTo_children h hle fun c hc s rest hs hc' =>
      ih (height_le_succ_iff.1 hd c hc) hs hc'
    have hlen : us.length = n.children.length := by simpa using congrArg List.length hus
    obtain ⟨hkids, hshape⟩ := Node.children_refill n us hlen
    have hmap : (n.map loc).refill (us.map loc) = (n.refill us).map loc := by
      obtain ⟨hkids', hshape'⟩ := Node.children_refill (n.map loc) (us.map loc)
        (by simpa using hlen)
      exact Node.ext_of_shape (by simp [hshape, hshape']) (by simp [hkids, hkids'])
    have herase : (n.refill us).map erase = n.map erase :=
      Node.ext_of_shape (by simpa using hshape) (by simpa [hkids] using hus)
    have hrun : Runs ((s.get l).mapM (Edit.cloneTo d)) s ((n.refill us).map loc) s' := by
      rw [hget, Node.mapM_eq_refill, Node.children_map, ← hmap]
      exact hruns.map _
    obtain ⟨u, s'', hrun', hsize', hown', hu, -⟩ := Gives.add (n.refill us) (hkids.symm ▸ hown)
    refine ⟨u, s'', hrun.bind hrun', hsize.trans hsize', hown', ?_⟩
    show u.erase = _
    rw [← eta u, hu, erase_node, erase_node, herase]

theorem Gives.clone (h : s.Owns rest) (ht : t.cells ≤ rest) :
    Gives (Edit.clone t.loc) s rest fun u => u.erase = t.erase :=
  Gives.cloneTo (h.shows ht).deep h ht

end

end JsxLoops.Tree
