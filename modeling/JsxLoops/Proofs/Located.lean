import JsxLoops.Tree.Store
import JsxLoops.Proofs.Node
import Mathlib.Algebra.Order.Group.Multiset
import Mathlib.Algebra.BigOperators.Group.Multiset.Defs
import Mathlib.Tactic.Abel

/-!
Trees with locations. `Located` is a tree in which every node knows the location it stands at; it
is what one sees from a location of a store. The cells of such a tree are the nodes as the store
keeps them, with locations for children. A tree is read as a value, so what holds of it stays true
when the store changes elsewhere.
-/

namespace JsxLoops.Tree

/-- A tree of nodes, each with the location it stands at. -/
inductive Located where
  | node (loc : Loc) (here : Node Located)

namespace Located

instance : Inhabited Located := ⟨.node default (.literal "")⟩

/-- The location of the root. -/
def loc : Located → Loc
  | .node l _ => l

/-- The root itself. -/
def here : Located → Node Located
  | .node _ n => n

@[simp] theorem loc_node (l : Loc) (n : Node Located) : (node l n).loc = l := rfl

@[simp] theorem here_node (l : Loc) (n : Node Located) : (node l n).here = n := rfl

theorem eta (t : Located) : node t.loc t.here = t := by
  cases t; rfl

theorem sizeOf_lt_of_mem {n : Node Located} {c : Located} (h : c ∈ n.children) :
    sizeOf c < sizeOf n := by
  cases n with
  | object entries =>
    obtain ⟨e, he, hc⟩ := List.mem_flatMap.1 h
    have hs := List.sizeOf_lt_of_mem he
    rcases e with ⟨k | k | k, v, short⟩ | v <;> simp at hc hs ⊢ <;>
      rcases hc with rfl | rfl <;> omega
  | element e =>
    rcases e with ⟨tag, attributes, children, selfClosing⟩
    rcases List.mem_append.1 h with hc | hc
    · obtain ⟨a, ha, hc⟩ := List.mem_flatMap.1 hc
      have hs := List.sizeOf_lt_of_mem ha
      rcases a with ⟨s, v | v | v | v⟩ | v <;> simp at hc hs ⊢ <;> subst hc <;> omega
    · have hs := List.sizeOf_lt_of_mem hc
      simp at hs ⊢
      omega
  | declaration keyword ds =>
    obtain ⟨d, hd, hc⟩ := List.mem_filterMap.1 h
    have hs := List.sizeOf_lt_of_mem hd
    rcases d with ⟨b, v⟩
    simp only at hc
    subst hc
    simp at hs ⊢
    omega
  | lambda l =>
    rcases l with ⟨form, a, g, ps, v | body⟩
    · simp [Node.children, Body.children] at h ⊢
      subst h
      omega
    · have hs := List.sizeOf_lt_of_mem (show c ∈ body from h)
      simp
      omega
  | returning v =>
    cases v with
    | none => simp [Node.children] at h
    | some v =>
      simp [Node.children] at h ⊢
      subst h
      omega
  | branch test yes no =>
    cases no <;> simp [Node.children] at h ⊢
    · rcases h with rfl | rfl <;> omega
    · rcases h with rfl | rfl | rfl <;> omega
  | call callee args =>
    rcases List.mem_cons.1 h with rfl | h
    · simp; omega
    · have hs := List.sizeOf_lt_of_mem h
      simp
      omega
  | array items | fragment items | block items =>
    have hs := List.sizeOf_lt_of_mem (show c ∈ items from h)
    simp
    omega
  | index _ _ | binary _ _ _ | logical _ _ _ =>
    simp [Node.children] at h ⊢
    rcases h with rfl | rfl <;> omega
  | conditional _ _ _ =>
    simp [Node.children] at h ⊢
    rcases h with rfl | rfl | rfl <;> omega
  | member _ _ _ | spread _ | unary _ _ | paren _ | container _ | performing _ =>
    simp [Node.children] at h ⊢
    subst h
    omega
  | name _ | literal _ | verbatim _ | text _ | mustache _ => simp [Node.children] at h

@[elab_as_elim] theorem induct {P : Located → Prop}
    (node : ∀ l n, (∀ c ∈ n.children, P c) → P (.node l n)) (t : Located) : P t :=
  match t with
  | .node l n => node l n fun c _ => induct node c
termination_by t
decreasing_by
  have := sizeOf_lt_of_mem (by assumption)
  simp
  omega

/-! ### Depth -/

def height : Located → Nat
  | .node _ n => (n.children.attach.map fun c => height c.1).foldr max 0 + 1
decreasing_by
  have := sizeOf_lt_of_mem c.2
  simp
  omega

theorem height_node (l : Loc) (n : Node Located) :
    (node l n).height = (n.children.map height).foldr max 0 + 1 := by
  rw [height, List.attach_map_val (f := height)]

theorem height_le_succ_iff {l : Loc} {n : Node Located} {d : Nat} :
    (node l n).height ≤ d + 1 ↔ ∀ c ∈ n.children, c.height ≤ d := by
  have list (xs : List Located) :
      (xs.map height).foldr max 0 ≤ d ↔ ∀ c ∈ xs, c.height ≤ d := by
    induction xs with
    | nil => simp
    | cons x xs ih => simp [ih]
  rw [height_node, Nat.add_le_add_iff_right, list]

theorem height_lt_of_mem {l : Loc} {n : Node Located} {c : Located} (h : c ∈ n.children) :
    c.height < (node l n).height := by
  have hn : (node l n).height = (n.children.map height).foldr max 0 + 1 := height_node l n
  have hle := (height_le_succ_iff (d := (n.children.map height).foldr max 0)).1 (le_of_eq hn) c h
  omega

theorem height_pos (t : Located) : 0 < t.height := by
  cases t
  rw [height_node]
  omega

/-! ### Folding -/

section Fold

variable {β : Type} [Inhabited β] (f : Loc → Node Located → Node β → β)

def foldTo : Nat → Located → β
  | 0, _ => default
  | depth + 1, .node l n => f l n (n.map (foldTo depth))

/-- Computes a value for every tree from the values of its children. -/
def fold (t : Located) : β := foldTo f t.height t

theorem foldTo_eq_fold (t : Located) : ∀ {d : Nat}, t.height ≤ d → foldTo f d t = fold f t := by
  induction t using induct with
  | node l n ih =>
    have step {d d' : Nat} (hd : (node l n).height ≤ d + 1) (hd' : (node l n).height ≤ d' + 1) :
        foldTo f (d + 1) (node l n) = foldTo f (d' + 1) (node l n) := by
      have hmap : n.map (foldTo f d) = n.map (foldTo f d') := Node.map_congr fun c hc => by
        rw [ih c hc (height_le_succ_iff.1 hd c hc), ih c hc (height_le_succ_iff.1 hd' c hc)]
      simp only [foldTo, hmap]
    intro d hd
    obtain ⟨e, he⟩ : ∃ e, (node l n).height = e + 1 := ⟨_, height_node l n⟩
    obtain ⟨d, rfl⟩ : ∃ k, d = k + 1 := ⟨d - 1, by omega⟩
    rw [fold, he]
    exact step hd (by omega)

theorem fold_node (l : Loc) (n : Node Located) :
    fold f (node l n) = f l n (n.map (fold f)) := by
  have hmap : n.map (foldTo f ((n.children.map height).foldr max 0)) = n.map (fold f) :=
    Node.map_congr fun c hc =>
      foldTo_eq_fold f c (height_le_succ_iff.1 (le_of_eq (height_node l n)) c hc)
  rw [fold, height_node, foldTo, hmap]

end Fold

instance : Inhabited Subtree := ⟨.node (.literal "")⟩

/-- The tree without its locations. -/
def erase : Located → Subtree := fold fun _ _ n => .node n

theorem erase_node (l : Loc) (n : Node Located) : (node l n).erase = .node (n.map erase) :=
  fold_node _ l n

/-- What is computed without looking at locations is the same for trees that differ only in
them. -/
theorem fold_eq_of_erase_eq {β : Type} [Inhabited β] {f : Loc → Node Located → Node β → β}
    (hf : ∀ l n l' n' m, f l n m = f l' n' m) {t u : Located} (h : t.erase = u.erase) :
    fold f t = fold f u := by
  induction t using induct generalizing u with
  | node l n ih =>
    obtain ⟨l', n'⟩ := u
    rw [erase_node, erase_node, Subtree.node.injEq] at h
    have hshape : n.shape = n'.shape := by
      simpa using congrArg Node.shape h
    have hkids : n.children.map erase = n'.children.map erase := by
      simpa using congrArg Node.children h
    have hfold : n.children.map (fold f) = n'.children.map (fold f) := by
      generalize n.children = cs at ih hkids
      generalize n'.children = cs' at hkids
      induction cs generalizing cs' with
      | nil => rw [List.map_eq_nil_iff.1 hkids.symm]
      | cons c cs ihcs =>
        obtain _ | ⟨c', cs'⟩ := cs'
        · cases hkids
        · rw [List.map_cons, List.map_cons, List.cons.injEq] at hkids
          rw [List.map_cons, List.map_cons, ih c List.mem_cons_self hkids.1,
            ihcs (fun x hx => ih x (List.mem_cons_of_mem c hx)) cs' hkids.2]
    have hmap : n.map (fold f) = n'.map (fold f) :=
      Node.ext_of_shape (by simpa using hshape) (by simpa using hfold)
    rw [fold_node, fold_node, hmap, hf]

/-! ### Occurrences -/

/-- The tree `u` hangs somewhere in a tree. -/
inductive Occurs (u : Located) : Located → Prop
  | self : Occurs u u
  | child {l : Loc} {n : Node Located} {c : Located} (hc : c ∈ n.children) (h : Occurs u c) :
    Occurs u (node l n)

theorem Occurs.trans {t u v : Located} (h : Occurs t u) (h' : Occurs u v) : Occurs t v := by
  induction h' with
  | self => exact h
  | child hc _ ih => exact .child hc ih

theorem Occurs.of_mem {t c : Located} (hc : c ∈ t.here.children) : Occurs c t := by
  cases t
  exact .child hc .self

theorem Occurs.height_le {t u : Located} (h : Occurs t u) : t.height ≤ u.height := by
  induction h with
  | self => exact le_rfl
  | child hc _ ih => exact ih.trans (height_lt_of_mem hc).le

/-! ### Cells -/

end Located

/-- A node as a store keeps it. -/
structure Cell where
  loc : Loc
  head : Node Loc

namespace Located

/-- The nodes of the tree as a store keeps them. -/
def cells : Located → Multiset Cell
  | .node l n => {⟨l, n.map loc⟩} + (n.children.attach.map fun c => cells c.1).sum
decreasing_by
  have := sizeOf_lt_of_mem c.2
  simp
  omega

/-- The cells of several trees. -/
def cellsOf (ts : List Located) : Multiset Cell := (ts.map cells).sum

@[simp] theorem cellsOf_nil : cellsOf [] = 0 := rfl

@[simp] theorem cellsOf_cons (t : Located) (ts : List Located) :
    cellsOf (t :: ts) = t.cells + cellsOf ts := by
  simp [cellsOf]

@[simp] theorem cellsOf_append (ts us : List Located) :
    cellsOf (ts ++ us) = cellsOf ts + cellsOf us := by
  simp [cellsOf]

theorem mem_cellsOf {ts : List Located} {c : Cell} : c ∈ cellsOf ts ↔ ∃ t ∈ ts, c ∈ t.cells := by
  induction ts with
  | nil => simp
  | cons t ts ih => simp [ih]

theorem cells_node (l : Loc) (n : Node Located) :
    (node l n).cells = {⟨l, n.map loc⟩} + cellsOf n.children := by
  rw [cells, cellsOf, List.attach_map_val (f := cells)]

theorem cells_le_of_mem {t : Located} {ts : List Located} (h : t ∈ ts) : t.cells ≤ cellsOf ts := by
  obtain ⟨us, vs, rfl⟩ := List.append_of_mem h
  rw [cellsOf_append, cellsOf_cons, ← add_assoc, add_comm (cellsOf us), add_assoc]
  exact Multiset.le_add_right _ _

theorem Occurs.cells_le {t u : Located} (h : Occurs t u) : t.cells ≤ u.cells := by
  induction h with
  | self => exact le_rfl
  | @child l n c hc _ ih =>
    rw [cells_node]
    exact ih.trans ((cells_le_of_mem hc).trans (Multiset.le_add_left _ _))

theorem root_mem_cells (t : Located) : (⟨t.loc, t.here.map loc⟩ : Cell) ∈ t.cells := by
  cases t
  rw [cells_node]
  exact Multiset.mem_add.2 (.inl (Multiset.mem_singleton_self _))

theorem mem_cells_iff {t : Located} {c : Cell} :
    c ∈ t.cells ↔ ∃ u, Occurs u t ∧ c = ⟨u.loc, u.here.map loc⟩ := by
  constructor
  · induction t using induct with
    | node l n ih =>
      intro hc
      rw [cells_node, Multiset.mem_add, Multiset.mem_singleton] at hc
      rcases hc with rfl | hc
      · exact ⟨_, .self, rfl⟩
      · obtain ⟨d, hd, hc⟩ := mem_cellsOf.1 hc
        obtain ⟨u, hu, he⟩ := ih d hd hc
        exact ⟨u, .child hd hu, he⟩
  · rintro ⟨u, hu, rfl⟩
    exact Multiset.mem_of_le hu.cells_le (root_mem_cells u)

theorem eq_of_loc_eq {ts : List Located} (hn : ((cellsOf ts).map Cell.loc).Nodup) {t u : Located}
    (ht : t ∈ ts) (hu : u ∈ ts) {c d : Cell} (hc : c ∈ t.cells) (hd : d ∈ u.cells)
    (he : c.loc = d.loc) : t = u := by
  induction ts with
  | nil => cases ht
  | cons v ts ih =>
    rw [cellsOf_cons, Multiset.map_add, Multiset.nodup_add] at hn
    have apart {w : Located} (hw : w ∈ ts) {x y : Cell} (hx : x ∈ v.cells) (hy : y ∈ w.cells) :
        x.loc ≠ y.loc := fun hxy =>
      Multiset.disjoint_left.1 hn.2.2 (Multiset.mem_map_of_mem _ hx)
        (hxy ▸ Multiset.mem_map_of_mem _ (mem_cellsOf.2 ⟨w, hw, hy⟩))
    rcases List.mem_cons.1 ht with rfl | ht' <;> rcases List.mem_cons.1 hu with rfl | hu'
    · rfl
    · exact absurd he (apart hu' hc hd)
    · exact absurd he.symm (apart ht' hd hc)
    · exact ih hn.2.1 ht' hu'

theorem height_le_card_cells (t : Located) : t.height ≤ t.cells.card := by
  induction t using induct with
  | node l n ih =>
    rw [height_node, cells_node, Multiset.card_add, Multiset.card_singleton, add_comm]
    refine Nat.add_le_add_left ?_ 1
    generalize n.children = cs at ih
    induction cs with
    | nil => simp
    | cons c cs ihcs =>
      have hc := ih c List.mem_cons_self
      have hcs := ihcs fun x hx => ih x (List.mem_cons_of_mem c hx)
      simp only [List.map_cons, List.foldr_cons, cellsOf_cons, Multiset.card_add]
      omega

end Located

end JsxLoops.Tree
