import JsxLoops.Tree.Rename
import JsxLoops.Proofs.Reading

/-!
Renaming in trees. `renameFree` renames the free mentions of a name by going down a tree until a
node binds that name. For a tree whose locations are all different this is renaming in the cells
that hold a free mention of the name.
-/

namespace JsxLoops.Tree

open Located

variable {α β : Type}

/-! ### One node -/

/-- Renames in the node itself, not in its children. -/
def Node.renameHere (source target : String) : Node α → Node α
  | .name found => .name (if found == source then target else found)
  | .verbatim code => .verbatim (code.rename source target)
  | .lambda f => .lambda { f with params := f.params.map (Binder.rename source target) }
  | .declaration keyword declarators =>
    .declaration keyword
      (declarators.map fun d => { d with binder := d.binder.rename source target })
  | n => n

def Node.said : Node α → List String
  | .name s => [s]
  | .verbatim code => code.openMentions
  | n => n.binders.flatMap fun b => b.code?.toList.flatMap Verbatim.openMentions

theorem mem_mentions_contents {l : Loc} {x : Mention} {b : Binder} :
    (∃ c ∈ b.contents, x ∈ Content.mentions l c) ↔
    x.loc = l ∧ x.name ∈ b.code?.toList.flatMap Verbatim.openMentions := by
  obtain ⟨k, s⟩ := x
  cases b with
  | verbatim code =>
    simp only [Binder.contents, Binder.code?, Option.toList_some, List.map_cons, List.map_nil,
      List.mem_singleton, exists_eq_left, Content.mentions, List.mem_map, Mention.mk.injEq,
      List.flatMap_cons, List.flatMap_nil, List.append_nil]
    constructor
    · rintro ⟨y, hy, rfl, rfl⟩
      exact ⟨rfl, hy⟩
    · rintro ⟨rfl, hs⟩
      exact ⟨s, hs, rfl, rfl⟩
  | _ => simp [Binder.contents, Binder.code?]

theorem Node.mem_mentions (f : α → List Mention) (n : Node α) (l : Loc) (x : Mention) :
    x ∈ (n.map f).mentions l ↔
      (x.loc = l ∧ x.name ∈ n.said) ∨ ∃ c ∈ n.children, x ∈ f c := by
  cases n with
  | name s =>
    obtain ⟨k, y⟩ := x
    simp [Node.map, Node.mentions, Node.said, Node.children]
  | verbatim code =>
    obtain ⟨k, y⟩ := x
    simp only [Node.map, Node.mentions, Node.said, Node.children, List.mem_map, Mention.mk.injEq]
    constructor
    · rintro ⟨z, hz, rfl, rfl⟩
      exact .inl ⟨rfl, hz⟩
    · rintro (⟨rfl, hy⟩ | ⟨c, hc, -⟩)
      · exact ⟨y, hy, rfl, rfl⟩
      · cases hc
  | lambda g =>
    simp only [Node.map, Node.mentions, Node.contents, Node.said, Node.binders, Node.children,
      List.mem_flatMap, List.mem_append]
    constructor
    · rintro ⟨c, ⟨b, hb, hc⟩ | hc, hx⟩
      · have := (mem_mentions_contents (b := b)).1 ⟨c, hc, hx⟩
        exact .inl ⟨this.1, b, hb, List.mem_flatMap.1 this.2⟩
      · simp only [Body.children_map, List.map_map, List.mem_map] at hc
        obtain ⟨a, ha, rfl⟩ := hc
        exact .inr ⟨a, ha, hx⟩
    · rintro (⟨hl, b, hb, hs⟩ | ⟨a, ha, hx⟩)
      · obtain ⟨c, hc, hx⟩ := mem_mentions_contents.2 ⟨hl, List.mem_flatMap.2 hs⟩
        exact ⟨c, .inl ⟨b, hb, hc⟩, hx⟩
      · refine ⟨.child (f a), .inr ?_, hx⟩
        simp only [Body.children_map, List.map_map, List.mem_map]
        exact ⟨a, ha, rfl⟩
  | declaration keyword ds =>
    simp only [Node.map, Node.mentions, Node.contents, Node.said, Node.binders, Node.children,
      List.mem_flatMap, List.mem_append, List.mem_map, List.mem_filterMap]
    constructor
    · rintro ⟨c, ⟨_, ⟨d, hd, rfl⟩, hc | hc⟩, hx⟩
      · have := (mem_mentions_contents (b := d.binder)).1 ⟨c, hc, hx⟩
        exact .inl ⟨this.1, d.binder, ⟨d, hd, rfl⟩, List.mem_flatMap.1 this.2⟩
      · cases hv : d.value with
        | none => simp [hv] at hc
        | some a =>
          simp only [hv, Option.map_some, Option.toList_some, List.mem_singleton,
            exists_eq_left] at hc
          subst hc
          exact .inr ⟨a, ⟨d, hd, hv⟩, hx⟩
    · rintro (⟨hl, _, ⟨d, hd, rfl⟩, hs⟩ | ⟨a, ⟨d, hd, hv⟩, hx⟩)
      · obtain ⟨c, hc, hx⟩ := mem_mentions_contents.2 ⟨hl, List.mem_flatMap.2 hs⟩
        exact ⟨c, ⟨_, ⟨d, hd, rfl⟩, .inl hc⟩, hx⟩
      · exact ⟨.child (f a), ⟨_, ⟨d, hd, rfl⟩, .inr ⟨f a, by simp [hv], rfl⟩⟩, hx⟩
  | _ =>
    show x ∈ ((Node.map f _).children.map Content.child).flatMap (Content.mentions l) ↔ _
    rw [Node.children_map]
    simp [Node.said, Node.binders, Content.mentions]

theorem Node.renameHere_map (a b : String) (f : α → β) (n : Node α) :
    (n.map f).renameHere a b = (n.renameHere a b).map f := by
  cases n <;> simp [Node.map, Node.renameHere]

@[simp] theorem Node.children_renameHere (a b : String) (n : Node α) :
    (n.renameHere a b).children = n.children := by
  cases n with
  | declaration keyword ds =>
    simp only [Node.renameHere, Node.children, List.filterMap_map]
    rfl
  | _ => rfl

theorem Verbatim.rename_of_not_mem {a b : String} {v : Verbatim} (h : a ∉ v.openMentions) :
    v.rename a b = v := by
  by_cases hd : v.declares.contains a = true
  · rw [Verbatim.rename, if_pos hd]
  · have hm : .mention a ∉ v.pieces := fun hm => h <| List.mem_filter.2
      ⟨List.mem_filterMap.2 ⟨_, hm, rfl⟩, by simpa using hd⟩
    have hp : v.pieces.map (Piece.rename a b) = v.pieces := by
      refine (List.map_congr_left fun p hp => ?_).trans (List.map_id _)
      cases p with
      | text s => rfl
      | mention s =>
        have hne : s ≠ a := fun he => hm (he ▸ hp)
        simp [Piece.rename, hne]
    rw [Verbatim.rename, if_neg hd, hp]

theorem Binder.rename_of_not_mem {a b : String} {x : Binder}
    (h : a ∉ x.code?.toList.flatMap Verbatim.openMentions) : x.rename a b = x := by
  cases x with
  | verbatim code =>
    rw [Binder.rename, Verbatim.rename_of_not_mem (by simpa [Binder.code?] using h)]
  | _ => rfl

theorem Node.renameHere_of_not_mem {a b : String} {n : Node α} (h : a ∉ n.said) :
    n.renameHere a b = n := by
  cases n with
  | name s =>
    have hne : s ≠ a := fun he => h (by simp [Node.said, he])
    simp [Node.renameHere, hne]
  | verbatim code => rw [Node.renameHere, Verbatim.rename_of_not_mem h]
  | lambda f =>
    have hp : f.params.map (Binder.rename a b) = f.params :=
      (List.map_congr_left fun x hx => Binder.rename_of_not_mem fun ha =>
        h (List.mem_flatMap.2 ⟨x, hx, ha⟩)).trans (List.map_id _)
    rw [Node.renameHere, hp]
  | declaration keyword ds =>
    have hd : ds.map (fun d => { d with binder := d.binder.rename a b }) = ds := by
      refine (List.map_congr_left fun d hd => ?_).trans (List.map_id _)
      rw [Binder.rename_of_not_mem fun ha =>
        h (List.mem_flatMap.2 ⟨d.binder, List.mem_map_of_mem hd, ha⟩)]
      rfl
    rw [Node.renameHere, hd]
  | _ => rfl

theorem Verbatim.rename_rename {a b : String} (hab : a ≠ b) (v : Verbatim) :
    (v.rename a b).rename a b = v.rename a b := by
  by_cases hd : v.declares.contains a = true
  · simp only [Verbatim.rename, if_pos hd]
  · refine Verbatim.rename_of_not_mem fun hm => ?_
    rw [Verbatim.rename, if_neg hd] at hm
    obtain ⟨q, hq, he⟩ := List.mem_filterMap.1 (List.mem_filter.1 hm).1
    obtain ⟨p, -, rfl⟩ := List.mem_map.1 hq
    cases p with
    | text s => cases he
    | mention s =>
      simp only [Piece.rename, Piece.mentioned?, Option.some.injEq] at he
      grind

theorem Binder.rename_rename {a b : String} (hab : a ≠ b) (x : Binder) :
    (x.rename a b).rename a b = x.rename a b := by
  cases x <;> simp [Binder.rename, Verbatim.rename_rename hab]

theorem Node.renameHere_renameHere {a b : String} (hab : a ≠ b) (n : Node α) :
    (n.renameHere a b).renameHere a b = n.renameHere a b := by
  cases n with
  | name s => by_cases h : s = a <;> simp [Node.renameHere, h, hab.symm]
  | _ => simp [Node.renameHere, Verbatim.rename_rename hab, Binder.rename_rename hab]

theorem Verbatim.rename_self (a : String) (v : Verbatim) : v.rename a a = v := by
  have hp : v.pieces.map (Piece.rename a a) = v.pieces := by
    refine (List.map_congr_left fun p _ => ?_).trans (List.map_id _)
    cases p with
    | text s => rfl
    | mention s => by_cases h : s = a <;> simp [Piece.rename, h]
  simp [Verbatim.rename, hp]

theorem Node.renameHere_self (a : String) (n : Node α) : n.renameHere a a = n := by
  have hb : Binder.rename a a = id := by
    funext x
    cases x <;> simp [Binder.rename, Verbatim.rename_self]
  cases n with
  | name s => by_cases h : s = a <;> simp [Node.renameHere, h]
  | _ => simp [Node.renameHere, hb, Verbatim.rename_self]

theorem Binder.names_rename (a b : String) (x : Binder) : (x.rename a b).names = x.names := by
  cases x with
  | verbatim code =>
    simp only [Binder.rename, Binder.names, Verbatim.rename]
    split <;> rfl
  | _ => rfl

/-! ### Trees -/

namespace Located

def renameFree (a b : String) : Located → Located := fold fun l n m =>
  if (scopeOf n).contains a then .node l n else .node l (m.renameHere a b)

theorem renameFree_node (a b : String) (l : Loc) (n : Node Located) :
    (node l n).renameFree a b =
      if (scopeOf n).contains a then .node l n
      else .node l ((n.map (renameFree a b)).renameHere a b) :=
  fold_node _ l n

@[simp] theorem loc_renameFree (a b : String) (t : Located) : (t.renameFree a b).loc = t.loc := by
  obtain ⟨l, n⟩ := t
  rw [renameFree_node]
  split <;> rfl

theorem renameFree_self (a : String) (t : Located) : t.renameFree a a = t := by
  induction t using induct with
  | node l n ih =>
    have hn : n.map (renameFree a a) = n := (Node.map_congr ih).trans n.map_id
    rw [renameFree_node, hn, Node.renameHere_self, ite_self]

theorem declared_renameFree (a b : String) (t : Located) :
    (t.renameFree a b).here.declared = t.here.declared := by
  obtain ⟨l, n⟩ := t
  rw [renameFree_node]
  split
  · rfl
  · cases n with
    | declaration keyword ds =>
      simp [Node.map, Node.renameHere, Node.declared, List.flatMap_map, Binder.names_rename]
    | _ => rfl

theorem renameFree_of_plain {n : Node Located} (a b : String) (l : Loc) (hs : scopeOf n = [])
    (hn : n.said = []) :
    (node l n).renameFree a b = node l (n.map (renameFree a b)) := by
  rw [renameFree_node, Node.renameHere_map, Node.renameHere_of_not_mem (by simp [hn])]
  simp [hs]

theorem renameFree_inParens (a b : String) (ps : List Loc) (t : Located) :
    (inParens ps t).renameFree a b = inParens ps (t.renameFree a b) := by
  induction ps with
  | nil => rfl
  | cons l ps ih =>
    show (node l (.paren (inParens ps t))).renameFree a b = _
    rw [renameFree_of_plain a b l rfl rfl, Node.map, ih]
    rfl

theorem renameFree_returning (a b : String) (l : Loc) (t : Located) :
    (node l (.returning (some t))).renameFree a b =
      node l (.returning (some (t.renameFree a b))) :=
  renameFree_of_plain a b l rfl rfl

@[simp] theorem height_renameFree (a b : String) (t : Located) :
    (t.renameFree a b).height = t.height := by
  induction t using induct with
  | node l n ih =>
    rw [renameFree_node]
    split
    · rfl
    · have hkids : n.children.map (fun c => (c.renameFree a b).height) = n.children.map height :=
        List.map_congr_left ih
      rw [height_node, height_node, Node.children_renameHere, Node.children_map, List.map_map]
      exact congrArg (fun hs => hs.foldr max 0 + 1) hkids

theorem occurs_renameFree {a b : String} {t u : Located} (h : Occurs u (t.renameFree a b)) :
    ∃ v, Occurs v t ∧ (u = v ∨ u = v.renameFree a b) := by
  induction t using Located.induct with
  | node l n ih =>
    rw [renameFree_node] at h
    split at h
    · exact ⟨u, h, .inl rfl⟩
    case isFalse hs =>
      generalize hx : Located.node l _ = x at h
      cases h with
      | self => exact ⟨.node l n, .self, .inr (by rw [← hx, renameFree_node, if_neg hs])⟩
      | child hc h =>
        obtain ⟨rfl, rfl⟩ := Located.node.inj hx
        rw [Node.children_renameHere, Node.children_map] at hc
        obtain ⟨c, hmem, rfl⟩ := List.mem_map.1 hc
        obtain ⟨v, hv, huv⟩ := ih c hmem h
        exact ⟨v, .child hmem hv, huv⟩

theorem mem_freeMentions {l : Loc} {n : Node Located} {x : Mention} :
    x ∈ (node l n).freeMentions ↔ x.name ∉ scopeOf n ∧
      ((x.loc = l ∧ x.name ∈ n.said) ∨ ∃ c ∈ n.children, x ∈ c.freeMentions) := by
  rw [freeMentions, fold_node, List.mem_filter, ← freeMentions, Node.mem_mentions]
  simp [and_comm]

theorem exists_cell_of_mem_freeMentions {t : Located} {x : Mention} (h : x ∈ t.freeMentions) :
    ∃ c ∈ t.cells, c.loc = x.loc := by
  induction t using induct with
  | node l n ih =>
    rcases (mem_freeMentions.1 h).2 with ⟨hl, -⟩ | ⟨c, hc, hx⟩
    · exact ⟨_, root_mem_cells (node l n), hl.symm⟩
    · obtain ⟨y, hy, he⟩ := ih c hc hx
      exact ⟨y, Multiset.mem_of_le (Occurs.child hc .self).cells_le hy, he⟩

end Located

/-! ### Stores -/

def Cell.renameAt (locs : List Loc) (a b : String) (c : Cell) : Cell :=
  if c.loc ∈ locs then ⟨c.loc, c.head.renameHere a b⟩ else c

@[simp] theorem Cell.loc_renameAt (locs : List Loc) (a b : String) (c : Cell) :
    (c.renameAt locs a b).loc = c.loc := by
  rw [renameAt]
  split <;> rfl

namespace Located

/-- The locations are those of a tree's free mentions of a name, as far as the tree goes. -/
def MarksFree (locs : List Loc) (a : String) (t : Located) : Prop :=
  ∀ c ∈ t.cells, c.loc ∈ locs ↔ ∃ x ∈ t.freeMentions, x.name = a ∧ x.loc = c.loc

theorem MarksFree.of_forall {locs : List Loc} {a : String} {ts : List Located}
    (hn : ((cellsOf ts).map Cell.loc).Nodup)
    (h : ∀ c ∈ cellsOf ts, c.loc ∈ locs ↔
      ∃ t ∈ ts, ∃ x ∈ t.freeMentions, x.name = a ∧ x.loc = c.loc) :
    ∀ t ∈ ts, MarksFree locs a t := by
  intro t ht c hc
  rw [h c (mem_cellsOf.2 ⟨t, ht, hc⟩)]
  constructor
  · rintro ⟨u, hu, x, hx, rfl, he⟩
    obtain ⟨d, hd, hde⟩ := exists_cell_of_mem_freeMentions hx
    obtain rfl := eq_of_loc_eq hn hu ht hd hc (hde.trans he)
    exact ⟨x, hx, rfl, he⟩
  · rintro ⟨x, hx, ha⟩
    exact ⟨t, ht, x, hx, ha⟩

theorem cellsOf_map_renameFree {locs : List Loc} {a b : String} {ts : List Located}
    (h : ∀ t ∈ ts, (t.renameFree a b).cells = t.cells.map (Cell.renameAt locs a b)) :
    cellsOf (ts.map (renameFree a b)) = (cellsOf ts).map (Cell.renameAt locs a b) := by
  induction ts with
  | nil => rfl
  | cons t ts ih =>
    rw [List.map_cons, cellsOf_cons, cellsOf_cons, Multiset.map_add, h t List.mem_cons_self,
      ih fun u hu => h u (List.mem_cons_of_mem t hu)]

theorem map_loc_cells_renameFree (a b : String) (t : Located) :
    (t.renameFree a b).cells.map Cell.loc = t.cells.map Cell.loc := by
  induction t using induct with
  | node l n ih =>
    have hlist : ∀ ts : List Located,
        (∀ c ∈ ts, (c.renameFree a b).cells.map Cell.loc = c.cells.map Cell.loc) →
        (cellsOf (ts.map (renameFree a b))).map Cell.loc = (cellsOf ts).map Cell.loc := by
      intro ts hts
      induction ts with
      | nil => rfl
      | cons t ts ihs =>
        rw [List.map_cons, cellsOf_cons, cellsOf_cons, Multiset.map_add, Multiset.map_add,
          hts t List.mem_cons_self, ihs fun c hc => hts c (List.mem_cons_of_mem t hc)]
    rw [renameFree_node]
    split
    · rfl
    · simp only [cells_node, Node.children_renameHere, Node.children_map, Multiset.map_add,
        Multiset.map_singleton, hlist _ ih]

theorem cells_renameFree {locs : List Loc} {a b : String} {t : Located}
    (hn : (t.cells.map Cell.loc).Nodup) (h : MarksFree locs a t) :
    (t.renameFree a b).cells = t.cells.map (Cell.renameAt locs a b) := by
  induction t using induct with
  | node l n ih =>
    rw [renameFree_node]
    split
    case isTrue hs =>
      -- the node binds the name, so nothing is marked
      refine ((Multiset.map_congr rfl fun c hc => ?_).trans (Multiset.map_id _)).symm
      have hc : c.loc ∉ locs := fun hl => by
        obtain ⟨x, hx, rfl, -⟩ := (h c hc).1 hl
        exact (mem_freeMentions.1 hx).1 (by simpa using hs)
      rw [Cell.renameAt, if_neg hc, id]
    case isFalse hs =>
      have hs : a ∉ scopeOf n := by simpa using hs
      rw [cells_node, Multiset.map_add, Multiset.map_singleton, Multiset.nodup_add] at hn
      have hroot : ∀ c ∈ n.children, ∀ x ∈ c.freeMentions, x.loc ≠ l := fun c hc x hx he => by
        obtain ⟨d, hd, hde⟩ := exists_cell_of_mem_freeMentions hx
        refine Multiset.disjoint_left.1 hn.2.2 (Multiset.mem_singleton_self l) ?_
        rw [← he, ← hde]
        exact Multiset.mem_map_of_mem _ (mem_cellsOf.2 ⟨c, hc, hd⟩)
      have hkids : ∀ c ∈ n.children, MarksFree locs a c :=
        MarksFree.of_forall hn.2.1 fun c hc => by
          have hne : c.loc ≠ l := fun he =>
            Multiset.disjoint_left.1 hn.2.2 (Multiset.mem_singleton_self l)
              (he ▸ Multiset.mem_map_of_mem _ hc)
          rw [h c (by rw [cells_node]; exact Multiset.mem_add.2 (.inr hc))]
          constructor
          · rintro ⟨x, hx, rfl, he⟩
            rcases (mem_freeMentions.1 hx).2 with ⟨hl, -⟩ | ⟨t, ht, hx⟩
            · exact absurd (he.symm.trans hl) hne
            · exact ⟨t, ht, x, hx, rfl, he⟩
          · rintro ⟨t, ht, x, hx, rfl, he⟩
            exact ⟨x, mem_freeMentions.2 ⟨hs, .inr ⟨t, ht, hx⟩⟩, rfl, he⟩
      have hhead : (((n.map (renameFree a b)).renameHere a b).map loc : Node Loc) =
          (n.map loc).renameHere a b := by
        rw [Node.renameHere_map, Node.renameHere_map, Node.map_map]
        simp only [loc_renameFree]
      have hhere : Cell.renameAt locs a b ⟨l, n.map loc⟩ = ⟨l, (n.map loc).renameHere a b⟩ := by
        rw [Cell.renameAt]
        split
        · rfl
        case isFalse hl =>
          have hsaid : a ∉ n.said := fun ha => hl <|
            (h _ (root_mem_cells (node l n))).2
              ⟨⟨l, a⟩, mem_freeMentions.2 ⟨hs, .inl ⟨rfl, ha⟩⟩, rfl, rfl⟩
          rw [Node.renameHere_map, Node.renameHere_of_not_mem hsaid]
      have hnodup : ∀ c ∈ n.children, (c.cells.map Cell.loc).Nodup := fun c hc =>
        Multiset.nodup_of_le (Multiset.map_le_map (cells_le_of_mem hc)) hn.2.1
      rw [cells_node, cells_node, hhead, Node.children_renameHere, Node.children_map,
        cellsOf_map_renameFree fun c hc => ih c hc (hnodup c hc) (hkids c hc), Multiset.map_add,
        Multiset.map_singleton, hhere]

end Located

end JsxLoops.Tree
