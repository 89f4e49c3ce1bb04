import JsxLoops.Proofs.Evaluation

/-!
Operations on a store. A store that is tree-shaped below a root stays so under every operation:
lowering, renaming, relocating, copying, and attaching nodes that hang nowhere else. What an
operation does to the tree is an exchange at one place, so each of them is a matter of the cells
there and of the cells around.

After a run the template of a loop has no node in common with its callback. The records, and with
them the copies of the conditions that loops were found under, hang in callbacks.
-/

namespace JsxLoops.Tree

open Located

/-! ### Exchange -/

def Hole.ofSplit (n : Node Located) {front back : List Located} {c : Located}
    (hn : n.children = front ++ c :: back) : Hole fun t => n.refill (front ++ t :: back) :=
  have hlength (t : Located) : (front ++ t :: back).length = n.children.length := by simp [hn]
  { front, back
    children := fun t => (Node.children_refill n _ (hlength t)).1
    shape := fun t u => (Node.children_refill n _ (hlength t)).2.trans
      (Node.children_refill n _ (hlength u)).2.symm }

theorem Hole.refill_self {n : Node Located} {front back : List Located} {c : Located}
    (hn : n.children = front ++ c :: back) : n.refill (front ++ c :: back) = n := by
  have hfilled := Node.children_refill n (front ++ c :: back) (by simp [hn])
  exact Node.ext_of_shape hfilled.2 (hfilled.1.trans hn.symm)

/-- What hangs in a tree can be exchanged for another tree with the same root. The cells around
stay as they are. -/
theorem Located.Occurs.exchange {t u : Located} (h : Occurs u t) :
    ∃ around : Multiset Cell, t.cells = u.cells + around ∧
      ∀ u' : Located, u'.loc = u.loc →
        ∃ t' : Located, t'.loc = t.loc ∧ t'.cells = u'.cells + around := by
  induction h with
  | self => exact ⟨0, (add_zero _).symm, fun u' hu => ⟨u', hu, (add_zero _).symm⟩⟩
  | @child l n c hc _ ih =>
    obtain ⟨around, hcells, hother⟩ := ih
    obtain ⟨front, back, hn⟩ := List.append_of_mem hc
    let k := Hole.ofSplit n hn
    have hself := Hole.refill_self hn
    refine ⟨around + ({⟨l, n.map loc⟩} + k.others), ?_, fun u' hu => ?_⟩
    · have hmk := k.cells_mk l c
      rw [hself] at hmk
      rw [hmk, hcells]
      abel
    · obtain ⟨c', hloc, hcells'⟩ := hother u' hu
      refine ⟨.node l (n.refill (front ++ c' :: back)), rfl, ?_⟩
      have hhead := k.map_loc hloc
      rw [hself] at hhead
      rw [k.cells_mk l c', hhead, hcells']
      abel

namespace Store

variable {s s' : Store} {root : Loc} {t : Located} {cells : Multiset Cell}

/-! ### Copying -/

theorem extends_cloneTo (depth : Nat) (l : Loc) (s : Store) :
    s.Extends (Edit.cloneTo depth l s).2 := by
  induction depth generalizing l s with
  | zero => exact .refl s
  | succ depth ih =>
    have hlist (ls : List Loc) (s : Store) : s.Extends (ls.mapM (Edit.cloneTo depth) s).2 := by
      induction ls generalizing s with
      | nil => exact .refl s
      | cons l ls ihls =>
        rw [List.mapM_cons]
        exact (ih l s).trans (ihls _)
    have hkids : s.Extends ((s.get l).mapM (Edit.cloneTo depth) s).2 := by
      rw [Node.mapM_eq_refill]
      exact hlist _ s
    exact hkids.trans (extends_add _ _)

/-! ### Nodes that are replaced -/

theorem Owns.put_elsewhere {l : Loc} (h : s.Owns cells) (hl : ∀ c ∈ cells, c.loc ≠ l)
    (n : Node Loc) : (s.put l n).Owns cells where
  bound c hc := by
    rw [size_put]
    exact h.bound c hc
  get c hc := (get_put_of_ne n (hl c hc)).trans (h.get c hc)
  nodup := h.nodup

theorem descend_congr (h : ∀ l, (s'.get l).children = (s.get l).children) (path : List Nat)
    (l : Loc) : s'.descend path l = s.descend path l := by
  induction path generalizing l with
  | nil => rfl
  | cons i path ih =>
    rw [descend, descend, h l]
    cases (s.get l).children[i]? with
    | none => rfl
    | some c => exact ih c

theorem renameAt_congr {β : Type} {a b : String} {f : Node Loc → β}
    (hf : ∀ n : Node Loc, f (n.renameHere a b) = f n) (s : Store) (locs : List Loc) (l : Loc) :
    f ((s.renameAt a b locs).get l) = f (s.get l) := by
  rw [renameAt]
  induction locs generalizing s with
  | nil => rfl
  | cons k locs ih =>
    rw [List.foldl_cons, ih]
    obtain hsame | ⟨rfl, hput⟩ := get_put_cases (s := s) k l ((s.get k).renameHere a b)
    · rw [hsame]
    · rw [hput, hf]

theorem children_renameAt (s : Store) (a b : String) (locs : List Loc) (l : Loc) :
    ((s.renameAt a b locs).get l).children = (s.get l).children :=
  renameAt_congr (Node.children_renameHere a b) s locs l

theorem IsTree.rename (h : s.IsTree root) (roots : List Loc) (a b : String) :
    (s.rename roots a b).2.IsTree root := by
  rw [snd_rename]
  split
  · exact h
  · have hpath := descend_congr (children_renameAt s a b (s.mentionLocs roots a))
    refine ⟨fun path l hl => ?_, fun path path' l hl hl' => ?_⟩
    · rw [size_renameAt]
      exact h.bound path l ((hpath path root).symm.trans hl)
    · exact h.unique path path' l ((hpath path root).symm.trans hl)
        ((hpath path' root).symm.trans hl')

/-! ### Nodes that hang nowhere -/

/-- The locations are the roots of trees that have no location in common, neither among each other
nor with what hangs below `root`. -/
structure Detached (s : Store) (root : Loc) (ls : List Loc) : Prop where
  trees : ∀ l ∈ ls, s.IsTree l
  apart : ls.Pairwise fun l l' => ∀ x, s.Reaches l x → ¬ s.Reaches l' x
  outside : ∀ l ∈ ls, ∀ x, s.Reaches l x → ¬ s.Reaches root x

/-- Two owned trees share a location if and only if one location is reached from both. -/
theorem apart_iff {u : Located} (ht : s.Shows t) (hu : s.Shows u) :
    (∀ c ∈ t.cells, ∀ d ∈ u.cells, c.loc ≠ d.loc) ↔
      ∀ x, s.Reaches t.loc x → ¬ s.Reaches u.loc x := by
  constructor
  · intro h x hx hx'
    obtain ⟨v, hv, rfl⟩ := ht.reaches_iff.1 hx
    obtain ⟨w, hw, he⟩ := hu.reaches_iff.1 hx'
    exact h _ hv.root_mem _ hw.root_mem he.symm
  · intro h c hc d hd he
    obtain ⟨v, hv, rfl⟩ := mem_cells_iff.1 hc
    obtain ⟨w, hw, rfl⟩ := mem_cells_iff.1 hd
    exact h _ (ht.reaches_iff.2 ⟨v, hv, rfl⟩) (hu.reaches_iff.2 ⟨w, hw, he.symm⟩)

theorem Detached.owns {ls : List Loc} (h : s.IsTree root) (hd : s.Detached root ls) :
    ∃ ts : List Located, ts.map loc = ls ∧
      s.Owns ((s.treeAt root).cells + cellsOf ts) := by
  have hroot := h.owns_treeAt
  have hshows : s.Shows (s.treeAt root) := hroot.shows le_rfl
  have htree (l : Loc) (hl : l ∈ ls) : s.Owns (s.treeAt l).cells := (hd.trees l hl).owns_treeAt
  have hshow (l : Loc) (hl : l ∈ ls) : s.Shows (s.treeAt l) := (htree l hl).shows le_rfl
  have hmem {c : Cell} (hc : c ∈ cellsOf (ls.map s.treeAt)) : ∃ l ∈ ls, c ∈ (s.treeAt l).cells := by
    obtain ⟨t, ht, hc⟩ := mem_cellsOf.1 hc
    obtain ⟨l, hl, rfl⟩ := List.mem_map.1 ht
    exact ⟨l, hl, hc⟩
  refine ⟨ls.map s.treeAt, ?_, fun c hc => ?_, fun c hc => ?_, ?_⟩
  · rw [List.map_map]
    exact (List.map_congr_left fun l _ => loc_treeAt l).trans (List.map_id ls)
  · rcases Multiset.mem_add.1 hc with hc | hc
    · exact hroot.bound c hc
    · obtain ⟨l, hl, hc⟩ := hmem hc
      exact (htree l hl).bound c hc
  · rcases Multiset.mem_add.1 hc with hc | hc
    · exact hroot.get c hc
    · obtain ⟨l, hl, hc⟩ := hmem hc
      exact (htree l hl).get c hc
  · rw [Multiset.map_add, Multiset.nodup_add, nodup_cellsOf_iff, List.pairwise_map]
    refine ⟨hroot.nodup, ⟨List.forall_mem_map.2 fun l hl => (htree l hl).nodup, ?_⟩, ?_⟩
    · refine hd.apart.imp_of_mem fun {l l'} hl hl' hapart => ?_
      rw [apart_iff (hshow l hl) (hshow l' hl'), loc_treeAt, loc_treeAt]
      exact hapart
    · rw [Multiset.disjoint_left]
      intro x hx hx'
      obtain ⟨c, hc, rfl⟩ := Multiset.mem_map.1 hx
      obtain ⟨d, hd', he⟩ := Multiset.mem_map.1 hx'
      obtain ⟨l, hl, hd'⟩ := hmem hd'
      refine (apart_iff (hshow l hl) hshows).2 (fun x hx hx' => ?_) d hd' c hc he
      rw [loc_treeAt] at hx hx'
      exact hd.outside l hl x hx hx'

theorem Owns.detached {ts : List Located} (h : s.Owns (t.cells + cellsOf ts)) :
    s.Detached t.loc (ts.map loc) := by
  have hshows : s.Shows t := h.shows (Multiset.le_add_right _ _)
  have hshow (u : Located) (hu : u ∈ ts) : s.Shows u :=
    h.shows ((cells_le_of_mem hu).trans (Multiset.le_add_left _ _))
  have hn := h.nodup
  rw [Multiset.map_add, Multiset.nodup_add, nodup_cellsOf_iff] at hn
  obtain ⟨-, ⟨-, hapart⟩, hdisjoint⟩ := hn
  refine ⟨List.forall_mem_map.2 fun u hu => ?_, ?_, List.forall_mem_map.2 fun u hu => ?_⟩
  · exact isTree_iff.2 ⟨u, rfl, h.mono ((cells_le_of_mem hu).trans (Multiset.le_add_left _ _))⟩
  · rw [List.pairwise_map]
    exact hapart.imp_of_mem fun {u v} hu hv huv => (apart_iff (hshow u hu) (hshow v hv)).1 huv
  · refine (apart_iff (hshow u hu) hshows).1 fun c hc d hd he => ?_
    exact Multiset.disjoint_left.1 hdisjoint (Multiset.mem_map_of_mem _ hd)
      (he ▸ Multiset.mem_map_of_mem _ (mem_cellsOf.2 ⟨u, hu, hc⟩))

theorem detached_clone {l : Loc} (h : s.IsTree root) (hl : s.Reaches root l) :
    (Edit.clone l s).2.Detached root [(Edit.clone l s).1] := by
  have hroot := h.owns_treeAt
  rw [← loc_treeAt (s := s) root] at hl
  obtain ⟨u, hu, rfl⟩ := (hroot.shows le_rfl).reaches_iff.1 hl
  obtain ⟨copy, s', hrun, -, hown, -⟩ := Gives.clone hroot hu.cells_le
  rw [show Edit.clone u.loc s = (copy.loc, s') from hrun]
  have hdetached : s'.Detached (s.treeAt root).loc ([copy].map loc) :=
    (hown.congr (by rw [cellsOf_cons, cellsOf_nil, add_zero, add_comm])).detached
  rwa [loc_treeAt] at hdetached

/-! ### Operations on nodes -/

theorem detached_nil (s : Store) (root : Loc) : s.Detached root [] :=
  ⟨by simp, .nil, by simp⟩

theorem IsTree.extend (h : s.IsTree root) (he : s.Extends s') : s'.IsTree root :=
  isTree_iff.2 ⟨s.treeAt root, loc_treeAt root, h.owns_treeAt.extend he⟩

theorem IsTree.put_elsewhere {l : Loc} (h : s.IsTree root) (hl : ¬ s.Reaches root l)
    (n : Node Loc) : (s.put l n).IsTree root := by
  have hroot := h.owns_treeAt
  refine isTree_iff.2 ⟨_, loc_treeAt root, hroot.put_elsewhere (fun c hc he => hl ?_) n⟩
  obtain ⟨u, hu, rfl⟩ := mem_cells_iff.1 hc
  have hreach := (hroot.shows le_rfl).reaches_iff.2 ⟨u, hu, he⟩
  rwa [loc_treeAt] at hreach

theorem IsTree.put {l : Loc} {n : Node Loc} (h : s.IsTree root)
    (hd : s.Detached root n.children) : (s.put l n).IsTree root := by
  by_cases hl : s.Reaches root l
  · obtain ⟨ts, hts, hown⟩ := hd.owns h
    rw [← loc_treeAt (s := s) root] at hl
    obtain ⟨⟨_, m⟩, hu, rfl⟩ := (h.owns_treeAt.shows le_rfl).reaches_iff.1 hl
    rw [loc_node]
    obtain ⟨around, hcells, hother⟩ := hu.exchange
    -- the node with the detached trees for its children takes the place of what hung there
    obtain ⟨hchildren, hhead⟩ := refill_roots hts
    obtain ⟨t', hloc, hcells'⟩ := hother (.node _ (n.refill ts)) rfl
    refine isTree_iff.2 ⟨t', hloc.trans (loc_treeAt root), ?_⟩
    rw [hcells, cells_node, add_assoc, add_assoc] at hown
    refine (hown.put n).drop (cellsOf m.children) ?_
    rw [hcells', cells_node, hhead, hchildren]
    abel
  · exact h.put_elsewhere hl n

theorem IsTree.relocate (h : s.IsTree root) (l : Loc) : (s.relocate l).2.IsTree root :=
  (h.put (n := .literal "") (detached_nil s root)).extend (extends_add _ _)

theorem IsTree.replaceChild {holder old new : Loc} (h : s.IsTree root)
    (hd : s.Detached root [new]) : (s.replaceChild holder old new).2.IsTree root := by
  by_cases hl : s.Reaches root holder
  · obtain ⟨ts, hts, hown⟩ := hd.owns h
    obtain ⟨u, rfl, rfl⟩ := List.map_eq_singleton_iff.1 hts
    rw [← loc_treeAt (s := s) root] at hl
    obtain ⟨⟨_, m⟩, hu, rfl⟩ := (h.owns_treeAt.shows le_rfl).reaches_iff.1 hl
    rw [loc_node]
    obtain ⟨around, hcells, hother⟩ := hu.exchange
    rw [hcells, cellsOf_cons, cellsOf_nil, add_zero] at hown
    by_cases hold : ∃ c ∈ m.children, c.loc = old
    · obtain ⟨c, hc, rfl⟩ := hold
      obtain ⟨front, back, hm⟩ := List.append_of_mem hc
      let k := Hole.ofSplit m hm
      have hself := Hole.refill_self hm
      have hmk := k.cells_mk ‹Loc› c
      rw [hself] at hmk
      rw [hmk] at hown
      have hapart := k.apart (hown.mono (show c.cells + k.others ≤ _ by
        rw [add_assoc, add_assoc]
        exact (Multiset.le_add_right _ _).trans (Multiset.le_add_left _ _)))
      obtain ⟨b, s', hrun, -, hown'⟩ := k.replace (l := ‹Loc›) (u := u) hapart
        (by rw [hself]; exact hown.congr (by rw [add_assoc, add_assoc]))
      obtain ⟨t', hloc, hcells'⟩ := hother (.node _ (m.refill (front ++ u :: back))) rfl
      rw [show s.replaceChild _ c.loc u.loc = (b, s') from hrun]
      refine isTree_iff.2 ⟨t', hloc.trans (loc_treeAt root), hown'.drop c.cells ?_⟩
      rw [hcells', k.cells_mk]
      abel
    · -- there is no such child, so the node stays as it is
      rw [cells_node, add_assoc, add_assoc] at hown
      have hsame : (m.map loc).map (fun x => if x = old then u.loc else x) = m.map loc := by
        rw [Node.map_map]
        exact Node.map_congr fun c hc => if_neg fun he => hold ⟨c, hc, he⟩
      rw [Store.replaceChild_eq, hown.get_head, hsame]
      obtain ⟨t', hloc, hcells'⟩ := hother (.node _ m) rfl
      refine isTree_iff.2 ⟨t', hloc.trans (loc_treeAt root), (hown.put _).drop u.cells ?_⟩
      rw [hcells', cells_node]
      abel
  · exact h.put_elsewhere hl _

end Store

end JsxLoops.Tree

namespace JsxLoops.Loop

open JsxLoops.Tree Located

variable {adapter : Adapter} {start : Nat} {gs : List Premise} {ps ps' : List Part}
  {σ σ' : Stage adapter} {s : Store} {root : Loc}

/-! ### Operations -/

/-- What can be done with a store. -/
inductive Operation where
  | lower (adapter : Adapter) (l : Loc)
  | rename (roots : List Loc) (source target : String)
  | relocate (l : Loc)
  | clone (l : Loc)
  | add (n : Node Loc)
  | replaceChild (holder old new : Loc)
  | put (l : Loc) (n : Node Loc)

namespace Operation

def run : Operation → Pass → Pass
  | .lower adapter l, p => (lowerLoops adapter l p).2
  | .rename roots source target, p => { p with store := (p.store.rename roots source target).2 }
  | .relocate l, p => { p with store := (p.store.relocate l).2 }
  | .clone l, p => { p with store := (Edit.clone l p.store).2 }
  | .add n, p => { p with store := (p.store.add n).2 }
  | .replaceChild holder old new, p => { p with store := (p.store.replaceChild holder old new).2 }
  | .put l n, p => { p with store := p.store.put l n }

/-- Only detached nodes are attached, and only what hangs below the root or is detached from it is
lowered. All else may be done anywhere. -/
def Allowed (root : Loc) (s : Store) : Operation → Prop
  | .lower _ l => s.Reaches root l ∨ s.Detached root [l]
  | .replaceChild _ _ new => s.Detached root [new]
  | .put _ n => s.Detached root n.children
  | _ => True

/-- Each operation is allowed where the ones before it have led. -/
def AllAllowed (root : Loc) : List Operation → Pass → Prop
  | [], _ => True
  | o :: os, p => o.Allowed root p.store ∧ AllAllowed root os (o.run p)

end Operation

theorem isTree_lowerLoops (adapter : Adapter) {l : Loc} {p : Pass} (h : p.store.IsTree root)
    (hl : p.store.Reaches root l ∨ p.store.Detached root [l]) :
    (lowerLoops adapter l p).2.store.IsTree root := by
  obtain ⟨s, a, before⟩ := p
  rcases hl with hl | hd
  · rw [← s.loc_treeAt root] at hl
    obtain ⟨u, hu, rfl⟩ := (h.owns_treeAt.shows le_rfl).reaches_iff.1 hl
    obtain ⟨around, hcells, hother⟩ := hu.exchange
    obtain ⟨u', p', loops, hrun, hloc, hown, -⟩ :=
      lowerLoops_beside adapter (h.owns_treeAt.congr hcells) a before
    obtain ⟨t', hloc', hcells'⟩ := hother u' hloc
    rw [show lowerLoops adapter u.loc ⟨s, a, before⟩ = (loops.length, p') from hrun]
    exact Store.isTree_iff.2 ⟨t', hloc'.trans (Store.loc_treeAt root), hown.congr hcells'.symm⟩
  · obtain ⟨ts, hts, hown⟩ := hd.owns h
    obtain ⟨u, rfl, rfl⟩ := List.map_eq_singleton_iff.1 hts
    rw [cellsOf_cons, cellsOf_nil, add_zero, add_comm] at hown
    obtain ⟨u', p', loops, hrun, -, hown', -⟩ := lowerLoops_beside adapter hown a before
    rw [show lowerLoops adapter u.loc ⟨s, a, before⟩ = (loops.length, p') from hrun]
    exact Store.isTree_iff.2 ⟨_, Store.loc_treeAt root, hown'.mono (Multiset.le_add_left _ _)⟩

theorem Operation.isTree {o : Operation} {p : Pass} (h : p.store.IsTree root)
    (ho : o.Allowed root p.store) : (o.run p).store.IsTree root := by
  cases o with
  | lower adapter l => exact isTree_lowerLoops adapter h ho
  | rename roots source target => exact h.rename roots source target
  | relocate l => exact h.relocate l
  | clone l => exact h.extend (Store.extends_cloneTo _ l _)
  | add n => exact h.extend (Store.extends_add _ n)
  | replaceChild holder old new => exact h.replaceChild ho
  | put l n => exact h.put ho

theorem Operation.isTree_foldl {os : List Operation} {p : Pass} (h : p.store.IsTree root)
    (hos : Operation.AllAllowed root os p) :
    (os.foldl (fun p o => o.run p) p).store.IsTree root := by
  induction os generalizing p with
  | nil => exact h
  | cons o os ih => exact ih (Operation.isTree h hos.1) hos.2

/-! ### What a run keeps apart -/

def Apart (t u : Located) : Prop := ∀ c ∈ t.cells, ∀ d ∈ u.cells, c.loc ≠ d.loc

theorem Apart.mono {t t' u u' : Located} (h : Apart t u) (ht : Occurs t' t) (hu : Occurs u' u) :
    Apart t' u' := fun c hc d hd =>
  h c (Multiset.mem_of_le ht.cells_le hc) d (Multiset.mem_of_le hu.cells_le hd)

theorem nodup_of_occurs {t u : Located} (h : Occurs u t) (ht : (t.cells.map Cell.loc).Nodup) :
    (u.cells.map Cell.loc).Nodup :=
  Multiset.nodup_of_le (Multiset.map_le_map h.cells_le) ht

/-- The trees of a part. Of a wrapper only what stands in it counts. -/
def Part.shown : Part → List Located
  | .wrapper w => w.here.children
  | p => p.trees

def Part.Neat : Part → Prop
  | .wrapper w => ((cellsOf w.here.children).map Cell.loc).Nodup
  | p => ∀ x ∈ p.trees, (x.cells.map Cell.loc).Nodup

theorem Part.Neat.nodup {p : Part} (h : p.Neat) {x : Located} (hx : x ∈ p.shown) :
    (x.cells.map Cell.loc).Nodup := by
  cases p with
  | wrapper w => exact (nodup_cellsOf_iff.1 h).1 x hx
  | _ => exact h x hx

/-- Nothing is shared in the parts, nor between them and what a record holds. -/
structure Spread (ps : List Part) (held : List Located) : Prop where
  neat : ∀ p ∈ ps, p.Neat
  once : ∀ y ∈ held, (y.cells.map Cell.loc).Nodup
  apart : ∀ p ∈ ps, ∀ x ∈ p.shown, ∀ y ∈ held, Apart x y

theorem Spread.mono {held held' : List Located} (h : Spread ps held)
    (hps : ∀ p ∈ ps', p ∈ ps) (hheld : ∀ y ∈ held', y ∈ held) : Spread ps' held' where
  neat p hp := h.neat p (hps p hp)
  once y hy := h.once y (hheld y hy)
  apart p hp x hx y hy := h.apart p (hps p hp) x hx y (hheld y hy)

theorem Spread.below {held : List Located} (h : Spread ps held) {qs : List Part}
    (hqs : ∀ q ∈ qs, ∀ w, q ≠ .wrapper w)
    (htrees : ∀ q ∈ qs, ∀ x ∈ q.trees, Among x (ps.flatMap Part.shown)) : Spread qs held := by
  have hshown : ∀ q ∈ qs, q.shown = q.trees := by
    intro q hq
    cases q with
    | wrapper w => exact absurd rfl (hqs _ hq w)
    | _ => rfl
  have hfound (q : Part) (hq : q ∈ qs) (x : Located) (hx : x ∈ q.trees) :
      ∃ p ∈ ps, ∃ y ∈ p.shown, Occurs x y := by
    obtain ⟨y, hy, hxy⟩ := htrees q hq x hx
    obtain ⟨p, hp, hy⟩ := List.mem_flatMap.1 hy
    exact ⟨p, hp, y, hy, hxy⟩
  refine ⟨fun q hq => ?_, h.once, fun q hq x hx z hz => ?_⟩
  · have hneat : ∀ x ∈ q.trees, (x.cells.map Cell.loc).Nodup := fun x hx => by
      obtain ⟨p, hp, y, hy, hxy⟩ := hfound q hq x hx
      exact nodup_of_occurs hxy ((h.neat p hp).nodup hy)
    cases q with
    | wrapper w => exact absurd rfl (hqs _ hq w)
    | _ => exact hneat
  · rw [hshown q hq] at hx
    obtain ⟨p, hp, y, hy, hxy⟩ := hfound q hq x hx
    exact (h.apart p hp y hy z hz).mono hxy .self

/-- The call of a loop has no location twice and is apart from what stands in the template, when
nothing is shared between the wrapper and the record around. -/
theorem Bound.apart {lp : Lowered adapter} {o o' : Option (Ledger adapter)} (h : Bound gs lp o o')
    (hs : Spread [.wrapper lp.tree] (heldBy (o'.elim [] Ledger.log))) :
    (lp.call.cells.map Cell.loc).Nodup ∧ ∀ c ∈ handedOver lp.subtree, Apart c lp.call := by
  have hchildren : lp.tree.here.children = lp.source :: handedOver lp.subtree :=
    children_wrapperNode adapter _ _ _ _
  have hneat : ((cellsOf lp.tree.here.children).map Cell.loc).Nodup :=
    hs.neat _ (List.mem_singleton_self _)
  rw [hchildren] at hneat
  cases h with
  | inline hsource =>
    obtain ⟨honce, hpairs⟩ := nodup_cellsOf_iff.1 hneat
    rw [hsource] at honce hpairs
    refine ⟨honce _ List.mem_cons_self, fun c hc x hx y hy he => ?_⟩
    exact (List.pairwise_cons.1 hpairs).1 c hc y hy x hx he.symm
  | @nested L e d hnoted hu _ hguarded hr =>
    have hcarrier : e.carrier ∈ heldBy (L.note hnoted).log :=
      List.mem_flatMap.2 ⟨e, List.mem_append_right _ (List.mem_singleton_self e),
        Event.carrier_mem_held rfl fun hi => by rw [hi] at hr; cases hr⟩
    refine ⟨nodup_of_occurs hguarded.occurs (hs.once _ hcarrier), fun c hc => ?_⟩
    have hc' : c ∈ (Part.wrapper lp.tree).shown := by
      show c ∈ lp.tree.here.children
      rw [hchildren]
      exact List.mem_cons_of_mem _ hc
    exact (hs.apart _ (List.mem_singleton_self _) c hc' _ hcarrier).mono .self hguarded.occurs

theorem Formed.spread {lp : Lowered adapter} (h : Formed start lp)
    (hn : ((cellsOf lp.tree.here.children).map Cell.loc).Nodup)
    (hcall : (lp.call.cells.map Cell.loc).Nodup)
    (hapart : ∀ c ∈ handedOver lp.subtree, Apart c lp.call) :
    Spread (lp.leading.map .statement) [] ∧ Spread [.node lp.subtree] (heldBy lp.ledger.log) := by
  have htemplate {x : Located} (hx : x ∈ lp.subtree.here.children) :
      ∃ c ∈ handedOver lp.subtree, c ∈ lp.tree.here.children ∧ Occurs x c := by
    obtain ⟨c, hc, hxc⟩ := lp.among_handedOver hx
    refine ⟨c, hc, ?_, hxc⟩
    rw [show lp.tree.here.children = _ from children_wrapperNode adapter _ _ _ _]
    exact List.mem_cons_of_mem _ hc
  refine ⟨⟨?_, by simp, by simp⟩, ⟨List.forall_mem_singleton.2 fun x hx => ?_, fun y hy => ?_,
    List.forall_mem_singleton.2 fun x hx y hy => ?_⟩⟩
  · intro p hp
    obtain ⟨t, ht, rfl⟩ := List.mem_map.1 hp
    exact List.forall_mem_singleton.2 (nodup_of_occurs (lp.occurs_leading ht) hcall)
  · obtain ⟨c, -, hc, hxc⟩ := htemplate hx
    exact nodup_of_occurs hxc ((nodup_cellsOf_iff.1 hn).1 c hc)
  · exact nodup_of_occurs (h.occurs_held hy) hcall
  · obtain ⟨c, hc, -, hxc⟩ := htemplate hx
    exact (hapart c hc).mono hxc (h.occurs_held hy)

/-- The template of every loop that is found is apart from its call, when nothing is shared in what
is left. -/
theorem Lowers.apart (h : Lowers adapter start gs ps σ ps' σ') :
    Spread ps' (heldBy σ'.log) →
      ∀ lp ∈ σ'.loops, lp ∈ σ.loops ∨ ∀ c ∈ handedOver lp.subtree, Apart c lp.call := by
  induction h with
  | nil | inert | leave | keep | move => exact fun _ lp hlp => .inl hlp
  | @cons _ p p' ps ps' σ σ₁ σ₂ _ hs ih ihs =>
    intro hspread lp hlp
    rcases ihs (hspread.mono (fun q hq => List.mem_cons_of_mem _ hq) fun y hy => hy) lp hlp with
      hlp | hlp
    · refine ih (hspread.mono (fun q hq => ?_) (heldBy_subset hs.log_prefix)) lp hlp
      rw [List.mem_singleton.1 hq]
      exact List.mem_cons_self
    · exact .inr hlp
  | @node _ l n n' _ _ _ _ ih =>
    intro hspread
    refine ih (hspread.below (fun q hq w he => ?_) fun q hq x hx => ?_)
    · have htemplate := isTemplate_of_mem_partsOf hq
      rw [he] at htemplate
      cases htemplate
    · refine .of_mem ?_
      simpa [Part.shown, Part.trees] using
        mem_children_of_mem_partsOf (List.mem_flatMap.2 ⟨q, hq, hx⟩)
  | @markup _ t t' _ _ _ _ ih | @found _ t t' _ _ _ _ ih =>
    intro hspread
    refine ih (hspread.below (by simp) fun q hq x hx => ?_)
    obtain rfl := List.mem_singleton.1 hq
    exact ⟨t', by simp [Part.shown, Part.trees], .of_mem hx⟩
  | @enter _ place v v' _ _ _ _ ih =>
    intro hspread
    refine ih (hspread.below (by simp) fun q hq x hx => ?_)
    obtain rfl := List.mem_singleton.1 hq
    obtain ⟨u, hu, ho⟩ := place.occurs_holding v'
    refine ⟨u, ?_, .trans (.of_mem hx) ho⟩
    rcases place with (_ | _) | _ <;> simpa [Part.shown, Place.holding] using hu
  | @loop _ place _ _ w _ _ _ _ ih =>
    intro hspread
    have hw : w ∈ (place.taken w).shown := by
      rcases place with (_ | _) | _ <;> exact List.mem_singleton_self w
    have hneat := (hspread.neat _ (List.mem_singleton_self _)).nodup hw
    refine ih ⟨List.forall_mem_singleton.2 (nodup_cells_iff.1 hneat).2, hspread.once,
      List.forall_mem_singleton.2 fun x hx y hy => ?_⟩
    exact (hspread.apart _ (List.mem_singleton_self _) w hw y hy).mono (.of_mem hx) .self
  | @search _ l n n' _ _ _ _ _ ih =>
    intro hspread
    refine ih (hspread.below (by simp) fun q hq x hx => ?_)
    obtain ⟨c, hc, rfl⟩ := List.mem_map.1 hq
    obtain rfl := List.mem_singleton.1 hx
    exact ⟨.node l n', by simp [Part.shown, Part.trees], .of_mem hc⟩
  | @site _ lp σ σ₁ σ₂ parent hm htokens _ hleading hsubtree hledger hrecord _ _ hbound ihl ihs =>
    intro hspread
    have hformed : Formed start lp := .intro hm htokens hleading hsubtree hledger hrecord
    obtain ⟨hcall, hapart⟩ := hbound.apart hspread
    obtain ⟨hstatements, htemplate⟩ :=
      hformed.spread (hspread.neat _ (List.mem_singleton_self _)) hcall hapart
    have hnone : σ₁.log = [] := by
      rw [Stage.log, hleading.continues.eq_none rfl, Option.elim_none]
    have hlog : σ₂.log = lp.ledger.log := by rw [Stage.log, hledger, Option.elim_some]
    intro inner hinner
    rcases List.mem_append.1 hinner with hinner | hinner
    · rcases ihs (by rwa [hlog]) inner hinner with hinner | hinner
      · exact ihl (by rwa [hnone]) inner hinner
      · exact .inr hinner
    · obtain rfl := List.mem_singleton.1 hinner
      exact .inr hapart

theorem LowersWhole.apart {a a' : Allocator} {t t' : Located} {loops : List (Lowered adapter)}
    (h : LowersWhole adapter start a t t' a' loops) (hn : (t'.cells.map Cell.loc).Nodup) :
    ∀ lp ∈ loops, ∀ c ∈ handedOver lp.subtree, Apart c lp.call := by
  cases h with
  | @inside _ _ _ σ hc h =>
    have hlog : σ.log = [] := by rw [Stage.log, h.continues.eq_none rfl, Option.elim_none]
    have hspread : Spread [.node t'] (heldBy σ.log) := by
      rw [hlog]
      refine ⟨List.forall_mem_singleton.2 fun x hx => nodup_of_occurs (.of_mem hx) hn, ?_, ?_⟩ <;>
        simp [heldBy]
    exact fun lp hlp => (h.apart hspread lp hlp).resolve_left List.not_mem_nil
  | @root parens m call lp inner _ hcall h =>
    -- the loop at the root is the same one with its wrapper elsewhere
    have htree := nodup_of_occurs (occurs_inParens parens _) hn
    have hspread : Spread [.wrapper lp.tree] [] :=
      ⟨List.forall_mem_singleton.2 (nodup_cells_iff.1 htree).2, by simp, by simp⟩
    intro x hx
    rcases List.mem_append.1 hx with hx | hx
    · exact (h.apart hspread x (List.mem_append_left _ hx)).resolve_left List.not_mem_nil
    · obtain rfl := List.mem_singleton.1 hx
      exact (h.apart hspread lp (by simp)).resolve_left List.not_mem_nil

/-- The shape of a tree outlasts all operations. And whenever the loops below the root are lowered,
the template of a loop has no node in common with its callback, where its record hangs. -/
theorem isTree_operations {p : Pass} (h : p.store.IsTree root) (os : List Operation)
    (hos : Operation.AllAllowed root os p) :
    let q := os.foldl (fun p o => o.run p) p
    q.store.IsTree root ∧ ∀ adapter,
      let r := (lowerLoops adapter root { q with sites := [] }).2
      ∀ site ∈ r.sites, ∃ e record, r.store.get site.wrapper = .element e ∧
        site.record? r.store = some record ∧ r.store.Reaches site.callback record ∧
        ∀ c ∈ e.children, ∀ x, r.store.Reaches c x → ¬ r.store.Reaches site.callback x := by
  intro q
  have hq : q.store.IsTree root := Operation.isTree_foldl h hos
  refine ⟨hq, fun adapter => ?_⟩
  obtain ⟨t', loops, hrun, -, hown, hsites⟩ := lowerLoops_sites adapter hq q.allocator
  intro r site hsite
  obtain ⟨lp, hlp, rfl⟩ := (hsites site).1 hsite
  obtain ⟨htree, hcall⟩ := hrun.placed lp hlp
  have hshows : r.store.Shows t' := hown.shows le_rfl
  have hwrapper := (hshows.occurs htree).get_root
  have hcallback := hshows.occurs (lp.occurs_callback.trans hcall)
  refine ⟨_, lp.record.loc, hwrapper, lp.record?_eq (hshows.occurs hcall), ?_, ?_⟩
  · refine hcallback.reaches_iff.2 ⟨lp.record, ?_, rfl⟩
    exact .child (List.mem_append_right _ (List.mem_singleton_self _))
      (.child (List.mem_singleton_self _) .self)
  · intro c hc
    obtain ⟨u, hu, rfl⟩ := List.mem_map.1 hc
    have hu' := (lp.occurs_of_handedOver hu).trans htree
    have hapart := hrun.apart hown.nodup lp hlp u hu
    exact (Store.apart_iff (hshows.occurs hu') hcallback).1 (hapart.mono .self lp.occurs_callback)

/-- A template is lowered, a copy of all of it takes the place of a wrapper, a name is renamed, a
node is relocated, and the whole is lowered again. -/
def copied (root wrapper : Loc) (p : Pass) : List Operation :=
  let copy := (Edit.clone root (lowerLoops .wechat root p).2.store).1
  [.lower .wechat root, .clone root, .replaceChild root wrapper copy,
    .rename [root] "items" "rows", .relocate ⟨0⟩, .lower .ali root]

theorem allAllowed_copied {p : Pass} (h : p.store.IsTree root) (wrapper : Loc) :
    Operation.AllAllowed root (copied root wrapper p) p :=
  ⟨.inl (.refl _), trivial,
    Store.detached_clone (isTree_lowerLoops .wechat h (.inl (.refl _))) (.refl _), trivial, trivial,
    .inl (.refl _), trivial⟩

theorem nestedLoops_operations :
    let p : Pass := ⟨nestedLoops, ⟨0⟩, []⟩
    let os := copied ⟨22⟩ ⟨37⟩ p
    let q := os.foldl (fun p o => o.run p) p
    p.store.IsTree ⟨22⟩ ∧ Operation.AllAllowed ⟨22⟩ os p ∧ q.store.IsTree ⟨22⟩ ∧ ∀ adapter,
      let r := (lowerLoops adapter ⟨22⟩ { q with sites := [] }).2
      ∀ site ∈ r.sites, ∃ e record, r.store.get site.wrapper = .element e ∧
        site.record? r.store = some record ∧ r.store.Reaches site.callback record ∧
        ∀ c ∈ e.children, ∀ x, r.store.Reaches c x → ¬ r.store.Reaches site.callback x :=
  have hos := allAllowed_copied nestedLoops_isTree ⟨37⟩ (p := ⟨nestedLoops, ⟨0⟩, []⟩)
  ⟨nestedLoops_isTree, hos, isTree_operations nestedLoops_isTree _ hos⟩

end JsxLoops.Loop
