import JsxLoops.Proofs.Ownership
import Mathlib.Data.Fintype.Card

/-!
Stores in the shape of a tree. Below a root a store is tree-shaped if every location that is reached
from it is reached by one path only. That is the case exactly if the store owns the cells of a tree
with this root, so a run that starts in a tree-shaped store can be followed on trees, and what
occurs in the tree at the end is reached by exactly one path again.
-/

namespace JsxLoops.Tree

open Located

/-! ### Paths in trees -/

/-- The tree reached by taking the numbered child at each step. -/
def Located.at? : List Nat → Located → Option Located
  | [], t => some t
  | i :: path, t => t.here.children[i]?.bind (Located.at? path)

theorem Located.at?_append (path path' : List Nat) (t : Located) :
    t.at? (path ++ path') = (t.at? path).bind (Located.at? path') := by
  induction path generalizing t with
  | nil => rfl
  | cons i path ih =>
    simp only [List.cons_append, at?]
    cases t.here.children[i]? with
    | none => rfl
    | some c => exact ih c

theorem Located.occurs_of_at? {path : List Nat} {t u : Located} (h : t.at? path = some u) :
    Occurs u t := by
  induction path generalizing t with
  | nil =>
    obtain rfl := Option.some.inj h
    exact .self
  | cons i path ih =>
    obtain ⟨c, hc, hu⟩ := Option.bind_eq_some_iff.1 h
    exact (ih hu).trans (.of_mem (List.mem_of_getElem? hc))

theorem Located.Occurs.exists_path {t u : Located} (h : Occurs u t) :
    ∃ path, t.at? path = some u := by
  induction h with
  | self => exact ⟨[], rfl⟩
  | child hc _ ih =>
    obtain ⟨path, hpath⟩ := ih
    obtain ⟨i, hi⟩ := List.mem_iff_getElem?.1 hc
    exact ⟨i :: path, Option.bind_eq_some_iff.2 ⟨_, hi, hpath⟩⟩

theorem nodup_cellsOf_iff {ts : List Located} :
    ((cellsOf ts).map Cell.loc).Nodup ↔ (∀ t ∈ ts, (t.cells.map Cell.loc).Nodup) ∧
      ts.Pairwise fun t u => ∀ c ∈ t.cells, ∀ d ∈ u.cells, c.loc ≠ d.loc := by
  induction ts with
  | nil => simp
  | cons t ts ih =>
    have hapart : Disjoint (t.cells.map Cell.loc) ((cellsOf ts).map Cell.loc) ↔
        ∀ u ∈ ts, ∀ c ∈ t.cells, ∀ d ∈ u.cells, c.loc ≠ d.loc := by
      rw [Multiset.disjoint_left]
      constructor
      · intro h u hu c hc d hd he
        exact h (Multiset.mem_map_of_mem _ hc)
          (he ▸ Multiset.mem_map_of_mem _ (mem_cellsOf.2 ⟨u, hu, hd⟩))
      · intro h l hl hl'
        obtain ⟨c, hc, rfl⟩ := Multiset.mem_map.1 hl
        obtain ⟨d, hd, he⟩ := Multiset.mem_map.1 hl'
        obtain ⟨u, hu, hd⟩ := mem_cellsOf.1 hd
        exact h u hu c hc d hd he.symm
    rw [cellsOf_cons, Multiset.map_add, Multiset.nodup_add, ih, hapart, List.forall_mem_cons,
      List.pairwise_cons]
    tauto

theorem nodup_cells_iff {t : Located} :
    (t.cells.map Cell.loc).Nodup ↔ (∀ c ∈ t.here.children, ∀ d ∈ c.cells, d.loc ≠ t.loc) ∧
      ((cellsOf t.here.children).map Cell.loc).Nodup := by
  obtain ⟨l, n⟩ := t
  rw [cells_node, Multiset.map_add, Multiset.map_singleton, Multiset.singleton_add,
    Multiset.nodup_cons]
  refine and_congr_left fun _ => ⟨fun h c hc d hd he => h ?_, fun h hm => ?_⟩
  · exact Multiset.mem_map.2 ⟨d, mem_cellsOf.2 ⟨c, hc, hd⟩, he⟩
  · obtain ⟨d, hd, he⟩ := Multiset.mem_map.1 hm
    obtain ⟨c, hc, hd⟩ := mem_cellsOf.1 hd
    exact h c hc d hd he

theorem Located.Occurs.root_mem {t u : Located} (h : Occurs u t) :
    (⟨u.loc, u.here.map loc⟩ : Cell) ∈ t.cells :=
  Multiset.mem_of_le h.cells_le (root_mem_cells u)

theorem Located.path_unique {t u v : Located} {path path' : List Nat}
    (hn : (t.cells.map Cell.loc).Nodup) (hu : t.at? path = some u) (hv : t.at? path' = some v)
    (he : u.loc = v.loc) : path = path' := by
  have below {t v : Located} {i : Nat} {path : List Nat} (hn : (t.cells.map Cell.loc).Nodup)
      (hv : t.at? (i :: path) = some v) : v.loc ≠ t.loc := by
    obtain ⟨c, hc, hv⟩ := Option.bind_eq_some_iff.1 hv
    exact (nodup_cells_iff.1 hn).1 c (List.mem_of_getElem? hc) _ (occurs_of_at? hv).root_mem
  induction path generalizing t path' with
  | nil =>
    obtain rfl := Option.some.inj hu
    cases path' with
    | nil => rfl
    | cons j path' => exact absurd he.symm (below hn hv)
  | cons i path ih =>
    cases path' with
    | nil =>
      obtain rfl := Option.some.inj hv
      exact absurd he (below hn hu)
    | cons j path' =>
      obtain ⟨c, hc, hu⟩ := Option.bind_eq_some_iff.1 hu
      obtain ⟨d, hd, hv⟩ := Option.bind_eq_some_iff.1 hv
      obtain ⟨hkids, hapart⟩ := nodup_cellsOf_iff.1 (nodup_cells_iff.1 hn).2
      obtain ⟨hi, rfl⟩ := List.getElem?_eq_some_iff.1 hc
      obtain ⟨hj, rfl⟩ := List.getElem?_eq_some_iff.1 hd
      rw [List.pairwise_iff_getElem] at hapart
      rcases Nat.lt_trichotomy i j with hij | rfl | hij
      · exact absurd he (hapart i j hi hj hij _ (occurs_of_at? hu).root_mem _
          (occurs_of_at? hv).root_mem)
      · rw [ih (hkids _ (List.getElem_mem hi)) hu hv]
      · exact absurd he.symm (hapart j i hj hi hij _ (occurs_of_at? hv).root_mem _
          (occurs_of_at? hu).root_mem)

theorem Located.Occurs.eq_of_loc_eq {t u v : Located} (hn : (t.cells.map Cell.loc).Nodup)
    (hu : Occurs u t) (hv : Occurs v t) (he : u.loc = v.loc) : u = v := by
  obtain ⟨path, hpath⟩ := hu.exists_path
  obtain ⟨path', hpath'⟩ := hv.exists_path
  rw [path_unique hn hpath hpath' he, hpath'] at hpath
  exact (Option.some.inj hpath).symm

/-! ### Locations -/

def Located.locsOf (ts : List Located) : Multiset Loc := (cellsOf ts).map Cell.loc

theorem Located.mem_locsOf {ts : List Located} {l : Loc} :
    l ∈ locsOf ts ↔ ∃ t ∈ ts, ∃ u, Occurs u t ∧ u.loc = l := by
  simp only [locsOf, Multiset.mem_map, mem_cellsOf, mem_cells_iff]
  constructor
  · rintro ⟨c, ⟨t, ht, u, hu, rfl⟩, rfl⟩
    exact ⟨t, ht, u, hu, rfl⟩
  · rintro ⟨t, ht, u, hu, rfl⟩
    exact ⟨_, ⟨t, ht, u, hu, rfl⟩, rfl⟩

theorem Located.mem_locsOf_of_occurs {ts : List Located} {t u : Located} (ht : t ∈ ts)
    (hu : Occurs u t) : u.loc ∈ locsOf ts :=
  mem_locsOf.2 ⟨t, ht, u, hu, rfl⟩

@[simp] theorem Located.locsOf_append (ts us : List Located) :
    locsOf (ts ++ us) = locsOf ts + locsOf us := by
  simp [locsOf]

theorem Located.locsOf_subset {ts us : List Located}
    (h : ∀ t ∈ ts, ∃ u ∈ us, Occurs t u) {l : Loc} (hl : l ∈ locsOf ts) : l ∈ locsOf us := by
  obtain ⟨t, ht, v, hv, rfl⟩ := mem_locsOf.1 hl
  obtain ⟨u, hu, ho⟩ := h t ht
  exact mem_locsOf_of_occurs hu (hv.trans ho)

/-! ### Paths in stores -/

namespace Store

variable {s : Store}

theorem descend_append (path path' : List Nat) (l : Loc) :
    s.descend (path ++ path') l = (s.descend path l).bind (s.descend path') := by
  induction path generalizing l with
  | nil => rfl
  | cons i path ih =>
    simp only [List.cons_append, descend]
    cases (s.get l).children[i]? with
    | none => rfl
    | some c => exact ih c

theorem Shows.descend {t : Located} (h : s.Shows t) (path : List Nat) :
    s.descend path t.loc = (t.at? path).map loc := by
  induction path generalizing t with
  | nil => rfl
  | cons i path ih =>
    rw [Store.descend, h.get_loc, Node.children_map, List.getElem?_map, at?]
    cases hc : t.here.children[i]? with
    | none => rfl
    | some c => exact ih (h.of_mem (List.mem_of_getElem? hc))

/-- Every location that is reached from the root holds a node and is reached by one path only. -/
structure IsTree (s : Store) (root : Loc) : Prop where
  bound : ∀ path l, s.descend path root = some l → l.index < s.size
  unique : ∀ path path' l, s.descend path root = some l → s.descend path' root = some l →
    path = path'

theorem IsTree.child {root c : Loc} {i : Nat} (h : s.IsTree root)
    (hc : (s.get root).children[i]? = some c) : s.IsTree c := by
  have step (path : List Nat) : s.descend (i :: path) root = s.descend path c := by
    rw [descend, hc]
  refine ⟨fun path l hl => h.bound (i :: path) l ((step path).trans hl), ?_⟩
  intro path path' l hl hl'
  exact List.tail_eq_of_cons_eq
    (h.unique (i :: path) (i :: path') l ((step path).trans hl) ((step path').trans hl'))

theorem IsTree.length_lt {root l : Loc} {path : List Nat} (h : s.IsTree root)
    (hl : s.descend path root = some l) : path.length < s.size := by
  have hstep (k : Fin (path.length + 1)) : ∃ x, s.descend (path.take k) root = some x := by
    rw [← List.take_append_drop k path, descend_append] at hl
    obtain ⟨x, hx, -⟩ := Option.bind_eq_some_iff.1 hl
    exact ⟨x, hx⟩
  choose visited hvisited using hstep
  have hinj : Function.Injective fun k => (⟨(visited k).index,
      h.bound _ _ (hvisited k)⟩ : Fin s.size) := by
    intro j k hjk
    have hloc : visited j = visited k := Loc.index_injective (congrArg Fin.val hjk)
    have htake := h.unique _ _ _ (hvisited j) (hloc ▸ hvisited k)
    have hlen := congrArg List.length htake
    rw [List.length_take, List.length_take] at hlen
    have hj := j.isLt
    have hk := k.isLt
    exact Fin.ext (by omega)
  have hcard := Fintype.card_le_of_injective _ hinj
  rwa [Fintype.card_fin, Fintype.card_fin] at hcard

def treeTo (s : Store) : Nat → Loc → Located
  | 0, l => .node l (.literal "")
  | depth + 1, l => .node l ((s.get l).map (s.treeTo depth))

@[simp] theorem loc_treeTo (depth : Nat) (l : Loc) : (s.treeTo depth l).loc = l := by
  cases depth <;> rfl

/-- If all paths end above the depth, then the tree is owned, and its locations are reached. -/
theorem IsTree.owns_treeTo {depth : Nat} {root : Loc} (h : s.IsTree root)
    (hd : ∀ path l, s.descend path root = some l → path.length < depth) :
    s.Owns (s.treeTo depth root).cells ∧
      ∀ c ∈ (s.treeTo depth root).cells, ∃ path, s.descend path root = some c.loc := by
  induction depth generalizing root with
  | zero => exact absurd (hd [] root rfl) (Nat.lt_irrefl 0)
  | succ depth ih =>
    let kids := (s.get root).children
    have step {i : Nat} {c : Loc} (hc : kids[i]? = some c) (path : List Nat) :
        s.descend (i :: path) root = s.descend path c := by
      rw [descend, show (s.get root).children[i]? = some c from hc]
    have hkid {i : Nat} {c : Loc} (hc : kids[i]? = some c) :=
      ih (h.child hc) fun path l hl =>
        Nat.lt_of_succ_lt_succ (hd (i :: path) l ((step hc path).trans hl))
    have hhead : ((s.get root).map (s.treeTo depth)).map loc = s.get root := by
      simp only [Node.map_map, loc_treeTo]
      exact Node.map_id _
    have hcells : (s.treeTo (depth + 1) root).cells =
        {⟨root, s.get root⟩} + cellsOf (kids.map (s.treeTo depth)) := by
      rw [treeTo, cells_node, hhead, Node.children_map]
    have hmem {c : Cell} (hc : c ∈ cellsOf (kids.map (s.treeTo depth))) :
        ∃ (i : Nat) (k : Loc), kids[i]? = some k ∧ c ∈ (s.treeTo depth k).cells := by
      obtain ⟨t, ht, hc⟩ := mem_cellsOf.1 hc
      obtain ⟨k, hk, rfl⟩ := List.mem_map.1 ht
      obtain ⟨i, hi⟩ := List.mem_iff_getElem?.1 hk
      exact ⟨i, k, hi, hc⟩
    have hreach : ∀ c ∈ (s.treeTo (depth + 1) root).cells,
        ∃ path, s.descend path root = some c.loc := by
      intro c hc
      rw [hcells, Multiset.mem_add, Multiset.mem_singleton] at hc
      rcases hc with rfl | hc
      · exact ⟨[], rfl⟩
      · obtain ⟨i, k, hi, hc⟩ := hmem hc
        obtain ⟨path, hpath⟩ := (hkid hi).2 c hc
        exact ⟨i :: path, (step hi path).trans hpath⟩
    refine ⟨⟨fun c hc => ?_, fun c hc => ?_, ?_⟩, hreach⟩
    · obtain ⟨path, hpath⟩ := hreach c hc
      exact h.bound path _ hpath
    · rw [hcells, Multiset.mem_add, Multiset.mem_singleton] at hc
      rcases hc with rfl | hc
      · rfl
      · obtain ⟨i, k, hi, hc⟩ := hmem hc
        exact (hkid hi).1.get c hc
    · rw [nodup_cells_iff, treeTo, here_node, Node.children_map, nodup_cellsOf_iff]
      refine ⟨?_, ?_, ?_⟩
      · intro t ht d hd he
        obtain ⟨k, hk, rfl⟩ := List.mem_map.1 ht
        obtain ⟨i, hi⟩ := List.mem_iff_getElem?.1 hk
        obtain ⟨path, hpath⟩ := (hkid hi).2 d hd
        rw [he] at hpath
        cases h.unique (i :: path) [] root ((step hi path).trans hpath) rfl
      · intro t ht
        obtain ⟨k, hk, rfl⟩ := List.mem_map.1 ht
        obtain ⟨i, hi⟩ := List.mem_iff_getElem?.1 hk
        exact (hkid hi).1.nodup
      · rw [List.pairwise_iff_getElem]
        intro i j hi hj hij c hc d hd he
        rw [List.getElem_map] at hc hd
        have hki := List.getElem?_eq_getElem (by simpa using hi : i < kids.length)
        have hkj := List.getElem?_eq_getElem (by simpa using hj : j < kids.length)
        obtain ⟨path, hpath⟩ := (hkid hki).2 c hc
        obtain ⟨path', hpath'⟩ := (hkid hkj).2 d hd
        rw [← he] at hpath'
        have := h.unique (i :: path) (j :: path') c.loc ((step hki path).trans hpath)
          ((step hkj path').trans hpath')
        simp only [List.cons.injEq] at this
        omega

theorem Owns.existsUnique_path {t u : Located} (h : s.Owns t.cells) (hu : Occurs u t) :
    ∃! path, s.descend path t.loc = some u.loc := by
  have hs : s.Shows t := h.shows le_rfl
  obtain ⟨path, hpath⟩ := hu.exists_path
  refine ⟨path, (hs.descend path).trans (by rw [hpath, Option.map_some]), fun path' hpath' => ?_⟩
  replace hpath' := (hs.descend path').symm.trans hpath'
  obtain ⟨v, hv, he⟩ := Option.map_eq_some_iff.1 hpath'
  exact path_unique h.nodup hv hpath he

theorem isTree_iff {root : Loc} : s.IsTree root ↔ ∃ t : Located, t.loc = root ∧ s.Owns t.cells := by
  constructor
  · intro h
    exact ⟨s.treeTo s.size root, loc_treeTo _ _, (h.owns_treeTo fun path l => h.length_lt).1⟩
  · rintro ⟨t, rfl, h⟩
    have hs : s.Shows t := h.shows le_rfl
    constructor
    · intro path l hl
      rw [hs.descend] at hl
      obtain ⟨u, hu, rfl⟩ := Option.map_eq_some_iff.1 hl
      exact h.bound _ (occurs_of_at? hu).root_mem
    · intro path path' l hl hl'
      rw [hs.descend] at hl hl'
      obtain ⟨u, hu, rfl⟩ := Option.map_eq_some_iff.1 hl
      obtain ⟨v, hv, he⟩ := Option.map_eq_some_iff.1 hl'
      exact path_unique h.nodup hu hv he.symm

/-- The tree that hangs at a location. -/
def treeAt (s : Store) (l : Loc) : Located := s.treeTo s.size l

@[simp] theorem loc_treeAt (l : Loc) : (s.treeAt l).loc = l := loc_treeTo _ l

theorem IsTree.owns_treeAt {root : Loc} (h : s.IsTree root) : s.Owns (s.treeAt root).cells :=
  (h.owns_treeTo fun _ _ => h.length_lt).1

theorem IsTree.shows_treeAt {root : Loc} (h : s.IsTree root) : s.Shows (s.treeAt root) :=
  h.owns_treeAt.shows le_rfl

theorem Shows.treeTo_eq {t : Located} (h : s.Shows t) {depth : Nat} (hd : t.height ≤ depth) :
    s.treeTo depth t.loc = t := by
  induction depth generalizing t with
  | zero => exact absurd hd (Nat.not_le.2 t.height_pos)
  | succ depth ih =>
    obtain ⟨l, n⟩ := t
    rw [treeTo, loc_node, h.get_root, Node.map_map]
    have hchildren : n.map (fun c => s.treeTo depth c.loc) = n.map id :=
      Node.map_congr fun c hc => ih (h.child hc) (height_le_succ_iff.1 hd c hc)
    rw [hchildren, Node.map_id]

theorem Shows.treeAt_eq {t : Located} (h : s.Shows t) : s.treeAt t.loc = t := h.treeTo_eq h.deep

/-- A store that was filled from below, so that no location is held twice, is tree-shaped below
each of its locations. -/
theorem isTree_of_filled (hdown : ∀ i < s.size, ∀ c ∈ (s.get ⟨i⟩).children, c.index < i)
    (honce : (s.nodes.toList.flatMap Node.children).Nodup) {root : Loc}
    (hroot : root.index < s.size) : s.IsTree root := by
  have hlast {path : List Nat} {i : Nat} {l : Loc} (hl : s.descend (path ++ [i]) root = some l) :
      ∃ holder, s.descend path root = some holder ∧ (s.get holder).children[i]? = some l := by
    rw [descend_append] at hl
    obtain ⟨holder, hpath, hl⟩ := Option.bind_eq_some_iff.1 hl
    refine ⟨holder, hpath, ?_⟩
    cases hc : (s.get holder).children[i]? with
    | none => simp [descend, hc] at hl
    | some c => simpa [descend, hc] using hl
  have hbelow (path : List Nat) (l : Loc) (hl : s.descend path root = some l) :
      l.index < s.size ∧ (path ≠ [] → l.index < root.index) := by
    induction path using List.reverseRecOn generalizing l with
    | nil =>
      obtain rfl := Option.some.inj hl
      exact ⟨hroot, by simp⟩
    | append_singleton path i ih =>
      obtain ⟨holder, hpath, hc⟩ := hlast hl
      have hlt := hdown holder.index (ih holder hpath).1 l (List.mem_of_getElem? hc)
      refine ⟨hlt.trans (ih holder hpath).1, fun _ => ?_⟩
      by_cases hp : path = []
      · subst hp
        obtain rfl := Option.some.inj hpath
        exact hlt
      · exact hlt.trans ((ih holder hpath).2 hp)
  -- no location has two holders, and none is held twice by one
  have hget {l : Loc} (hl : l.index < s.size) :
      ∃ h : l.index < s.nodes.toList.length, s.nodes.toList.get ⟨l.index, h⟩ = s.get l := by
    have hsize : l.index < s.nodes.size := hl
    exact ⟨by simpa using hsize, by simp [get, hsize]⟩
  rw [List.nodup_flatMap, List.pairwise_iff_get] at honce
  have hholder {x y l : Loc} (hx : x.index < s.size) (hy : y.index < s.size)
      (hlx : l ∈ (s.get x).children) (hly : l ∈ (s.get y).children) : x = y := by
    obtain ⟨hi, hgx⟩ := hget hx
    obtain ⟨hj, hgy⟩ := hget hy
    rw [← hgx] at hlx
    rw [← hgy] at hly
    refine Loc.index_injective ?_
    rcases Nat.lt_trichotomy x.index y.index with hlt | heq | hlt
    · exact absurd hly (List.disjoint_left.1 (honce.2 ⟨_, hi⟩ ⟨_, hj⟩ hlt) hlx)
    · exact heq
    · exact absurd hlx (List.disjoint_left.1 (honce.2 ⟨_, hj⟩ ⟨_, hi⟩ hlt) hly)
  have hposition {x l : Loc} {i j : Nat} (hx : x.index < s.size)
      (hi : (s.get x).children[i]? = some l) (hj : (s.get x).children[j]? = some l) : i = j := by
    obtain ⟨hlt, hg⟩ := hget hx
    have hn := honce.1 _ (List.get_mem _ ⟨_, hlt⟩)
    rw [hg] at hn
    exact (List.getElem?_inj (List.getElem?_eq_some_iff.1 hi).1 hn).1 (hi.trans hj.symm)
  refine ⟨fun path l hl => (hbelow path l hl).1, fun path path' l hl hl' => ?_⟩
  induction path using List.reverseRecOn generalizing path' l with
  | nil =>
    obtain rfl := Option.some.inj hl
    by_contra hne
    exact Nat.lt_irrefl _ ((hbelow path' _ hl').2 (Ne.symm hne))
  | append_singleton path i ih =>
    obtain ⟨holder, hpath, hc⟩ := hlast hl
    rcases List.eq_nil_or_concat path' with rfl | ⟨path', j, rfl⟩
    · obtain rfl := Option.some.inj hl'
      exact absurd ((hbelow _ _ hl).2 (by simp)) (Nat.lt_irrefl _)
    · rw [List.concat_eq_append] at hl' ⊢
      obtain ⟨holder', hpath', hc'⟩ := hlast hl'
      obtain rfl : holder = holder' := hholder (hbelow _ _ hpath).1 (hbelow _ _ hpath').1
        (List.mem_of_getElem? hc) (List.mem_of_getElem? hc')
      rw [ih path' holder hpath hpath', hposition (hbelow _ _ hpath).1 hc hc']

/-! ### What a location reaches -/

/-- The location `l'` stands at `l` or below it. -/
def Reaches (s : Store) (l l' : Loc) : Prop := ∃ path, s.descend path l = some l'

theorem Reaches.refl (l : Loc) : s.Reaches l l := ⟨[], rfl⟩

theorem Reaches.trans {l l' l'' : Loc} (h : s.Reaches l l') (h' : s.Reaches l' l'') :
    s.Reaches l l'' := by
  obtain ⟨path, hpath⟩ := h
  obtain ⟨path', hpath'⟩ := h'
  refine ⟨path ++ path', ?_⟩
  rw [descend_append, hpath]
  exact hpath'

theorem reaches_of_mem {l c : Loc} (hc : c ∈ (s.get l).children) : s.Reaches l c := by
  obtain ⟨i, hi⟩ := List.mem_iff_getElem?.1 hc
  exact ⟨[i], by rw [descend, hi]; rfl⟩

theorem IsTree.of_reaches {root l : Loc} (h : s.IsTree root) (hl : s.Reaches root l) :
    s.IsTree l := by
  obtain ⟨path, hpath⟩ := hl
  have step (more : List Nat) : s.descend (path ++ more) root = s.descend more l := by
    rw [descend_append, hpath, Option.bind_some]
  refine ⟨fun more x hx => h.bound (path ++ more) x ((step more).trans hx), ?_⟩
  intro more more' x hx hx'
  exact List.append_cancel_left
    (h.unique _ _ x ((step more).trans hx) ((step more').trans hx'))

theorem IsTree.of_mem {l c : Loc} (h : s.IsTree l) (hc : c ∈ (s.get l).children) : s.IsTree c :=
  h.of_reaches (reaches_of_mem hc)

theorem Shows.reaches_iff {t : Located} {l : Loc} (h : s.Shows t) :
    s.Reaches t.loc l ↔ ∃ u, Occurs u t ∧ u.loc = l := by
  constructor
  · rintro ⟨path, hpath⟩
    rw [h.descend] at hpath
    obtain ⟨u, hu, he⟩ := Option.map_eq_some_iff.1 hpath
    exact ⟨u, occurs_of_at? hu, he⟩
  · rintro ⟨u, hu, rfl⟩
    obtain ⟨path, hpath⟩ := hu.exists_path
    exact ⟨path, by rw [h.descend, hpath, Option.map_some]⟩

theorem Shows.reaches_iff_mem {t : Located} {l : Loc} (h : s.Shows t) :
    s.Reaches t.loc l ↔ l ∈ locsOf [t] := by
  rw [h.reaches_iff, mem_locsOf]
  simp

end Store

end JsxLoops.Tree
