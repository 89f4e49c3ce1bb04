import JsxLoops.Proofs.Located
import Mathlib.Data.Multiset.Range

/-!
Ownership. A store owns a collection of cells if each of them stands at its location and no two
share one. Ownership splits: an edit that is done with the cells of one tree leaves every other
owned cell as it is, so a fact about an edit is stated with the rest of the cells left open.
A tree whose cells are owned can be read from its root: the store shows it.
-/

namespace JsxLoops.Tree

theorem Loc.index_injective : Function.Injective Loc.index := fun a b h => by
  cases a
  cases b
  exact congrArg Loc.mk h

namespace Store

open Located

/-- The cells stand at their locations, and no two of them share one. -/
structure Owns (s : Store) (cells : Multiset Cell) : Prop where
  bound : ∀ c ∈ cells, c.loc.index < s.size
  get : ∀ c ∈ cells, s.get c.loc = c.head
  nodup : (cells.map Cell.loc).Nodup

/-- The tree can be read from its root, and reading is deep enough for it. -/
structure Shows (s : Store) (t : Located) : Prop where
  bound : ∀ c ∈ t.cells, c.loc.index < s.size
  get : ∀ c ∈ t.cells, s.get c.loc = c.head
  deep : t.height ≤ s.size

variable {s : Store} {t : Located} {cells rest : Multiset Cell}

/-! ### Splitting -/

theorem Owns.mono (h : s.Owns cells) (hle : rest ≤ cells) : s.Owns rest where
  bound c hc := h.bound c (Multiset.mem_of_le hle hc)
  get c hc := h.get c (Multiset.mem_of_le hle hc)
  nodup := Multiset.nodup_of_le (Multiset.map_le_map hle) h.nodup

theorem Owns.drop {kept : Multiset Cell} (h : s.Owns cells) (rest : Multiset Cell)
    (he : cells = kept + rest) :
    s.Owns kept :=
  h.mono (he ▸ Multiset.le_add_right _ _)

theorem Owns.congr (h : s.Owns cells) (he : cells = rest) : s.Owns rest := he ▸ h

theorem Owns.card_le (h : s.Owns cells) : cells.card ≤ s.size := by
  have hsub : cells.map (fun c => c.loc.index) ≤ Multiset.range s.size := by
    rw [Multiset.le_iff_subset]
    · intro i hi
      obtain ⟨c, hc, rfl⟩ := Multiset.mem_map.1 hi
      exact Multiset.mem_range.2 (h.bound c hc)
    · have := Multiset.Nodup.map Loc.index_injective h.nodup
      rwa [Multiset.map_map] at this
  have := Multiset.card_le_card hsub
  rwa [Multiset.card_map, Multiset.card_range] at this

theorem Owns.shows (h : s.Owns cells) (ht : t.cells ≤ cells) : s.Shows t where
  bound c hc := h.bound c (Multiset.mem_of_le ht hc)
  get c hc := h.get c (Multiset.mem_of_le ht hc)
  deep := (height_le_card_cells t).trans ((Multiset.card_le_card ht).trans h.card_le)

theorem Owns.loc_ne {c : Cell} (h : s.Owns ({c} + rest)) {c' : Cell} (hc : c' ∈ rest) :
    c'.loc ≠ c.loc := by
  have hn := h.nodup
  rw [Multiset.map_add, Multiset.map_singleton, Multiset.singleton_add, Multiset.nodup_cons] at hn
  intro he
  exact hn.1 (he ▸ Multiset.mem_map_of_mem _ hc)

theorem Owns.get_head {l : Loc} {n : Node Loc} (h : s.Owns ({⟨l, n⟩} + rest)) : s.get l = n :=
  h.get ⟨l, n⟩ (Multiset.mem_add.2 (.inl (Multiset.mem_singleton_self _)))

/-! ### Reading the root -/

theorem Shows.get_root {l : Loc} {n : Node Located} (h : s.Shows (.node l n)) :
    s.get l = n.map loc :=
  h.get ⟨l, n.map loc⟩ (root_mem_cells (.node l n))

theorem Shows.get_loc (h : s.Shows t) : s.get t.loc = t.here.map loc := by
  obtain ⟨l, n⟩ := t
  exact h.get_root

theorem Shows.occurs {u : Located} (h : s.Shows t) (hu : Occurs u t) : s.Shows u where
  bound c hc := h.bound c (Multiset.mem_of_le hu.cells_le hc)
  get c hc := h.get c (Multiset.mem_of_le hu.cells_le hc)
  deep := hu.height_le.trans h.deep

theorem Shows.child {l : Loc} {n : Node Located} {c : Located} (h : s.Shows (.node l n))
    (hc : c ∈ n.children) : s.Shows c :=
  h.occurs (.child hc .self)

theorem Shows.of_mem {c : Located} (h : s.Shows t) (hc : c ∈ t.here.children) : s.Shows c :=
  h.occurs (.of_mem hc)

theorem Shows.eq_name {name : String} (h : s.Shows t) (ht : s.get t.loc = .name name) :
    ∃ l, t = .node l (.name name) := by
  obtain ⟨l, n⟩ := t
  have hget := h.get_root
  rw [show s.get l = .name name from ht] at hget
  cases n with
  | name => exact ⟨l, by rw [Node.name.inj hget]⟩
  | _ => cases hget

/-! ### Adding and replacing nodes -/

@[simp] theorem size_add (s : Store) (n : Node Loc) : (s.add n).2.size = s.size + 1 := by
  simp [add, size]

@[simp] theorem size_put (s : Store) (l : Loc) (n : Node Loc) : (s.put l n).size = s.size := by
  simp [put, size]

theorem get_of_size_le {l : Loc} (hl : s.size ≤ l.index) : s.get l = .literal "" := by
  rw [get, Array.getD_eq_getD_getElem?, Array.getElem?_eq_none hl, Option.getD_none]

theorem get_put (s : Store) (l l' : Loc) (n : Node Loc) (h : l.index < s.size) :
    (s.put l n).get l' = if l' = l then n else s.get l' := by
  rcases l with ⟨i⟩
  rcases l' with ⟨j⟩
  simp only [size] at h
  by_cases hij : j = i
  · subst hij
    simp [put, get, h]
  · have hne : i ≠ j := fun e => hij e.symm
    simp [put, get, hij, Array.getElem?_setIfInBounds_ne hne]

/-- The new node stands in its place, unless that is past the end. All else is as it was. -/
theorem get_put_cases (l l' : Loc) (n : Node Loc) :
    (s.put l n).get l' = s.get l' ∨ l' = l ∧ (s.put l n).get l' = n := by
  by_cases hl : l.index < s.size
  · rw [get_put s l l' n hl]
    by_cases h : l' = l
    · exact .inr ⟨h, if_pos h⟩
    · exact .inl (if_neg h)
  · rw [put, Array.setIfInBounds_eq_of_size_le (Nat.le_of_not_lt hl)]
    exact .inl rfl

theorem get_put_of_ne {l l' : Loc} (n : Node Loc) (h : l' ≠ l) : (s.put l n).get l' = s.get l' :=
  (get_put_cases l l' n).resolve_right fun hput => h hput.1

theorem get_add_old (s : Store) (n : Node Loc) {l : Loc} (h : l.index < s.size) :
    (s.add n).2.get l = s.get l := by
  have hne : l.index ≠ s.nodes.size := Nat.ne_of_lt h
  simp [add, get, Array.getElem?_push, hne]

theorem get_add_new (s : Store) (n : Node Loc) : (s.add n).2.get (s.add n).1 = n := by
  simp [add, get, size]

theorem Owns.add (h : s.Owns cells) (n : Node Loc) :
    (s.add n).2.Owns ({⟨(s.add n).1, n⟩} + cells) where
  bound c hc := by
    rw [size_add]
    rcases Multiset.mem_add.1 hc with hc | hc
    · rw [Multiset.mem_singleton.1 hc]
      exact Nat.lt_succ_self _
    · exact Nat.lt_succ_of_lt (h.bound c hc)
  get c hc := by
    rcases Multiset.mem_add.1 hc with hc | hc
    · rw [Multiset.mem_singleton.1 hc]
      exact get_add_new s n
    · rw [get_add_old s n (h.bound c hc), h.get c hc]
  nodup := by
    rw [Multiset.map_add, Multiset.map_singleton, Multiset.singleton_add, Multiset.nodup_cons]
    refine ⟨fun hm => ?_, h.nodup⟩
    obtain ⟨c, hc, he⟩ := Multiset.mem_map.1 hm
    have := h.bound c hc
    rw [he] at this
    exact Nat.lt_irrefl _ this

theorem Owns.put {l : Loc} {n : Node Loc} (h : s.Owns ({⟨l, n⟩} + rest)) (m : Node Loc) :
    (s.put l m).Owns ({⟨l, m⟩} + rest) := by
  have hl : l.index < s.size :=
    h.bound ⟨l, n⟩ (Multiset.mem_add.2 (.inl (Multiset.mem_singleton_self _)))
  have hrest : s.Owns rest := h.mono (Multiset.le_add_left _ _)
  refine ⟨fun c hc => ?_, fun c hc => ?_, ?_⟩
  · rw [size_put]
    rcases Multiset.mem_add.1 hc with hc | hc
    · rwa [Multiset.mem_singleton.1 hc]
    · exact hrest.bound c hc
  · rw [get_put s l c.loc m hl]
    rcases Multiset.mem_add.1 hc with hc | hc
    · rw [Multiset.mem_singleton.1 hc, if_pos rfl]
    · rw [if_neg (h.loc_ne hc), hrest.get c hc]
  · have hn := h.nodup
    rw [Multiset.map_add, Multiset.map_singleton] at hn ⊢
    exact hn

/-! ### Stores that grow -/

/-- All nodes are where they were. -/
structure Extends (s s' : Store) : Prop where
  size : s.size ≤ s'.size
  get : ∀ l : Loc, l.index < s.size → s'.get l = s.get l

theorem Extends.refl (s : Store) : s.Extends s := ⟨le_rfl, fun _ _ => rfl⟩

theorem Extends.trans {s' s'' : Store} (h : s.Extends s') (h' : s'.Extends s'') : s.Extends s'' :=
  ⟨h.size.trans h'.size, fun l hl => (h'.get l (hl.trans_le h.size)).trans (h.get l hl)⟩

theorem extends_add (s : Store) (n : Node Loc) : s.Extends (s.add n).2 :=
  ⟨by rw [size_add]; omega, fun _ hl => get_add_old s n hl⟩

theorem Owns.extend {s' : Store} (h : s.Owns cells) (he : s.Extends s') : s'.Owns cells where
  bound c hc := (h.bound c hc).trans_le he.size
  get c hc := (he.get _ (h.bound c hc)).trans (h.get c hc)
  nodup := h.nodup

theorem Shows.extend {s' : Store} (h : s.Shows t) (he : s.Extends s') : s'.Shows t where
  bound c hc := (h.bound c hc).trans_le he.size
  get c hc := (he.get _ (h.bound c hc)).trans (h.get c hc)
  deep := h.deep.trans he.size

theorem Shows.add (n : Node Located) (h : ∀ c ∈ n.children, s.Shows c) :
    (s.add (n.map loc)).2.Shows (.node (s.add (n.map loc)).1 n) := by
  have hkids : ∀ c ∈ n.children, (s.add (n.map loc)).2.Shows c := fun c hc =>
    (h c hc).extend (extends_add s _)
  refine ⟨fun c hc => ?_, fun c hc => ?_, ?_⟩
  · rw [cells_node, Multiset.mem_add, Multiset.mem_singleton] at hc
    rcases hc with rfl | hc
    · rw [size_add]
      exact Nat.lt_succ_self _
    · obtain ⟨t, ht, hc⟩ := mem_cellsOf.1 hc
      exact (hkids t ht).bound c hc
  · rw [cells_node, Multiset.mem_add, Multiset.mem_singleton] at hc
    rcases hc with rfl | hc
    · exact get_add_new s _
    · obtain ⟨t, ht, hc⟩ := mem_cellsOf.1 hc
      exact (hkids t ht).get c hc
  · rw [size_add]
    exact height_le_succ_iff.2 fun c hc => (h c hc).deep

end Store

end JsxLoops.Tree
