import JsxLoops.Proofs.Lexical
import JsxLoops.Proofs.Operations
import JsxLoops.Proofs.Replacement
import JsxLoops.Proofs.Returns

/-!
What lowering leaves of a callback. The rewritten call still calls `map` on its receiver, and its
callback has its statements in their order and then returns the record. In what is kept, only index
parameters have other names: those of the callback itself and of the callbacks around it.
-/

namespace JsxLoops.Tree.Store

theorem unnamed_renameAt (s : Store) (a b : String) (locs : List Loc) (l : Loc) :
    ((s.renameAt a b locs).get l).unnamed = (s.get l).unnamed :=
  renameAt_congr Node.unnamed_renameHere s locs l

theorem unnamed_rename (s : Store) (roots : List Loc) (a b : String) (l : Loc) :
    ((s.rename roots a b).2.get l).unnamed = (s.get l).unnamed := by
  rw [snd_rename]
  split
  · rfl
  · exact unnamed_renameAt s a b _ l

/-! ### Stores that differ in names -/

structure SameButNames (s s' : Store) : Prop where
  size : s'.size = s.size
  get : ∀ l, (s'.get l).unnamed = (s.get l).unnamed

namespace SameButNames

variable {s s' : Store}

theorem rename (s : Store) (roots : List Loc) (a b : String) :
    s.SameButNames (s.rename roots a b).2 :=
  ⟨s.size_rename roots a b, s.unnamed_rename roots a b⟩

theorem refl (s : Store) : s.SameButNames s := ⟨rfl, fun _ => rfl⟩

theorem trans {s'' : Store} (h : s.SameButNames s') (h' : s'.SameButNames s'') :
    s.SameButNames s'' :=
  ⟨h'.size.trans h.size, fun l => (h'.get l).trans (h.get l)⟩

theorem read_eq {γ : Type} (h : s.SameButNames s') {rule : (Loc → γ) → Loc → Node Loc → γ}
    (hrule : ∀ inside l n, rule inside l n.unnamed = rule inside l n) (stop : γ) (l : Loc) :
    s'.read rule stop l = s.read rule stop l := by
  rw [read, read, h.size]
  induction s.size generalizing l with
  | zero => rfl
  | succ depth ih =>
    have hinside : s'.visit rule stop depth = s.visit rule stop depth := funext ih
    rw [visit, visit, hinside, ← hrule, h.get, hrule]

theorem stripParens_eq (h : s.SameButNames s') (l : Loc) :
    s'.stripParens l = s.stripParens l :=
  h.read_eq (fun _ _ n => by cases n <;> rfl) l l

theorem children_unnamed {α : Type} (n : Node α) : n.unnamed.children = n.children := by
  cases n with
  | declaration keyword ds => simp [Node.unnamed, Node.children]
  | _ => rfl

theorem hasMarkup_eq (h : s.SameButNames s') (l : Loc) : s'.hasMarkup l = s.hasMarkup l := by
  refine h.read_eq (fun inside _ n => ?_) false l
  have hchildren := congrArg (List.any · inside) (children_unnamed n)
  cases n <;> first | rfl | exact hchildren

theorem returnsAt_eq (h : s.SameButNames s') (l : Loc) : s'.returnsAt l = s.returnsAt l := by
  refine h.read_eq (fun inside _ n => ?_) false l
  have hchildren := congrArg (List.any · inside) (children_unnamed n)
  cases n <;> first | rfl | exact hchildren

theorem get_eq (h : s.SameButNames s') {l : Loc} {n : Node Loc} (hn : s'.get l = n)
    (hplain : ∀ m : Node Loc, m.unnamed = n.unnamed → m = n) : s.get l = n :=
  hplain _ ((h.get l).symm.trans (congrArg Node.unnamed hn))

end SameButNames

end JsxLoops.Tree.Store

namespace JsxLoops.Loop

open JsxLoops.Tree Located

variable {adapter : Adapter} {start : Nat} {gs : List Premise} {ps ps' : List Part}
  {σ σ' : Stage adapter} {s : Store} {P Q S lp : Lowered adapter}
  {loops loops₁ loops₂ new xs ys : List (Lowered adapter)} {R R' : Multiset Loc} {t : Located}

/-! ### The names of indices -/

/-- The references to the index parameter of the callback get the name that belongs to the site. -/
def Site.renameIndex (site : Site) (s : Store) : Store :=
  match s.get site.callback with
  | .lambda f =>
    match (f.params.filterMap Binder.name?)[1]? with
    | some index => (s.rename f.body.children index site.indexName).2
    | none => s
  | _ => s

def renameIndices (sites : List Site) (s : Store) : Store :=
  sites.foldl (fun s site => site.renameIndex s) s

theorem Site.sameButNames_renameIndex (site : Site) (s : Store) :
    s.SameButNames (site.renameIndex s) := by
  rw [renameIndex]
  split
  · split
    · exact .rename s _ _ _
    · exact .refl s
  · exact .refl s

theorem sameButNames_renameIndices (sites : List Site) (s : Store) :
    s.SameButNames (renameIndices sites s) := by
  rw [renameIndices]
  induction sites generalizing s with
  | nil => exact .refl s
  | cons site sites ih => exact (site.sameButNames_renameIndex s).trans (ih _)

theorem Lowered.renameIndex_owns (h : s.Owns lp.mapping.function.cells) :
    (lp.site.renameIndex s).Owns (cellsOf (lp.mapping.leading.map (lp.mapping.renamed lp.tokens)) +
      (lp.mapping.renamed lp.tokens lp.mapping.subtree).cells) := by
  rw [Mapping.function, cells_node] at h
  have hbody : s.Owns (cellsOf lp.mapping.body.children + 0) :=
    (h.mono (Multiset.le_add_left _ _)).congr (add_zero _).symm
  have hget : s.get lp.site.callback = .lambda ⟨lp.mapping.form, false, false, lp.mapping.params,
    lp.mapping.body.map loc⟩ := h.get_head
  have hcells := lp.mapping.cellsOf_renamed_body lp.tokens
  have hrenamed : (lp.site.renameIndex s).Owns
      (cellsOf (lp.mapping.body.children.map (lp.mapping.renamed lp.tokens))) := by
    rw [Site.renameIndex, hget]
    dsimp only
    cases hindex : lp.mapping.names[1]? with
    | none =>
      have hid : lp.mapping.renamed lp.tokens = id := by
        funext t
        rw [Mapping.renamed, hindex, id]
      rw [show lp.mapping.params.filterMap Binder.name? = lp.mapping.names from rfl, hindex, hid,
        List.map_id]
      exact hbody.congr (add_zero _)
    | some index =>
      have hrn : lp.mapping.renamed lp.tokens = renameFree index lp.tokens.indexName := by
        funext t
        rw [Mapping.renamed, hindex]
      rw [show lp.mapping.params.filterMap Binder.name? = lp.mapping.names from rfl, hindex, hrn,
        Body.children_map]
      exact (hbody.rename _ index lp.tokens.indexName).congr (add_zero _)
  refine hrenamed.mono ?_
  rw [hcells, ← add_assoc]
  exact Multiset.le_add_right _ _

/-! ### Where a loop was found -/

/-- The loops around a loop, the outermost first. The loop was found in the tree that is there when
the indices of these have their names. -/
def Traced (s : Store) (loops : List (Lowered adapter)) (S : Lowered adapter) (t : Located) :
    Prop :=
  ∃ chain, chain ⊆ loops ∧
    (∀ P ∈ loops, P ∈ chain ↔ P.mapping.callback ≠ S.mapping.callback ∧
      S.mapping.callback ∈ P.mapping.region) ∧
    chain.Pairwise (fun P Q => P.mapping.callback ≠ Q.mapping.callback ∧
      Q.mapping.callback ∈ P.mapping.region) ∧
    (renameIndices (chain.map Lowered.site) s).Owns t.cells

/-- A run adds loops that can be traced, with their calls at some locations. -/
def Traces (s : Store) (R : Multiset Loc) (loops loops' : List (Lowered adapter)) : Prop :=
  ∃ new, loops' = loops ++ new ∧ (∀ S ∈ new, locsOf [S.mapping.tree] ⊆ R) ∧
    ∀ S ∈ new, Traced s new S S.mapping.tree

theorem Traces.refl : Traces s R loops loops := ⟨[], by simp, by simp, by simp⟩

theorem Traces.mono (h : Traces s R loops loops₁) (hR : R ⊆ R') : Traces s R' loops loops₁ := by
  obtain ⟨new, hnew, hregion, htraced⟩ := h
  exact ⟨new, hnew, fun S hS => Multiset.Subset.trans (hregion S hS) hR, htraced⟩

theorem Lowered.callback_mem (h : locsOf [S.mapping.tree] ⊆ R) : S.mapping.callback ∈ R :=
  h (Multiset.mem_of_le S.mapping.region_le_tree S.mapping.callback_mem_region)

theorem Traced.extend (h : Traced s xs S t) (hS : S.mapping.callback ∈ R)
    (hys : ∀ Q ∈ ys, locsOf [Q.mapping.tree] ⊆ R') (hR : Disjoint R R') (hsub : xs ⊆ new)
    (hmem : ∀ P ∈ new, P ∈ xs ∨ P ∈ ys) : Traced s new S t := by
  obtain ⟨chain, hchain, haround, hpairs, hown⟩ := h
  have hfar {Q : Lowered adapter} (hQ : Q ∈ ys) : S.mapping.callback ∉ Q.mapping.region :=
    fun hin => Multiset.disjoint_left.1 hR hS
      (hys Q hQ (Multiset.mem_of_le Q.mapping.region_le_tree hin))
  refine ⟨chain, fun P hP => hsub (hchain hP), fun P hP => ?_, hpairs, hown⟩
  rcases hmem P hP with hP | hP
  · exact haround P hP
  · refine ⟨fun hin => ?_, fun hin => absurd hin.2 (hfar hP)⟩
    exact absurd ((haround P (hchain hin)).1 hin).2 (hfar hP)

theorem Traces.append (h : Traces s R loops loops₁) (h' : Traces s R' loops₁ loops₂)
    (hR : Disjoint R R') : Traces s (R + R') loops loops₂ := by
  obtain ⟨xs, rfl, hxs, htraced⟩ := h
  obtain ⟨ys, rfl, hys, htraced'⟩ := h'
  refine ⟨xs ++ ys, List.append_assoc _ _ _, fun S hS => ?_, fun S hS => ?_⟩
  · rcases List.mem_append.1 hS with hS | hS
    · exact fun l hl => Multiset.mem_add.2 (.inl (hxs S hS hl))
    · exact fun l hl => Multiset.mem_add.2 (.inr (hys S hS hl))
  · rcases List.mem_append.1 hS with hS | hS
    · exact (htraced S hS).extend (S.callback_mem (hxs S hS)) hys hR (List.subset_append_left _ _)
        fun P hP => List.mem_append.1 hP
    · exact (htraced' S hS).extend (S.callback_mem (hys S hS)) hxs hR.symm
        (List.subset_append_right _ _) fun P hP => (List.mem_append.1 hP).symm

theorem Traced.around (h : Traced (lp.site.renameIndex s) xs S t)
    (hxs : ∀ P ∈ xs, P.mapping.callback ∈ lp.mapping.region ∧
      lp.mapping.callback ∉ P.mapping.region)
    (hS : S ∈ xs) : Traced s (xs ++ [lp]) S t := by
  obtain ⟨chain, hchain, haround, hpairs, hown⟩ := h
  have hne {P : Lowered adapter} (hP : P ∈ xs) : lp.mapping.callback ≠ P.mapping.callback :=
    fun he => (hxs P hP).2 (he ▸ P.mapping.callback_mem_region)
  refine ⟨lp :: chain, ?_, fun P hP => ?_, ?_, hown⟩
  · exact List.cons_subset.2 ⟨List.mem_append_right _ (List.mem_singleton_self lp),
      fun P hP => List.mem_append_left _ (hchain hP)⟩
  · rcases List.mem_append.1 hP with hP | hP
    · rw [← haround P hP, List.mem_cons]
      exact or_iff_right fun he => hne hP (congrArg (fun Q => Q.mapping.callback) he).symm
    · obtain rfl := List.mem_singleton.1 hP
      exact ⟨fun _ => ⟨hne hS, (hxs S hS).1⟩, fun _ => List.mem_cons_self⟩
  · exact List.pairwise_cons.2 ⟨fun P hP => ⟨hne (hchain hP), (hxs P (hchain hP)).1⟩, hpairs⟩

theorem Traces.loop (hn : lp.mapping.region.Nodup)
    (hleading : Traces (lp.site.renameIndex s) (locsOf lp.mapping.leading) loops loops₁)
    (hsubtree : Traces (lp.site.renameIndex s) (locsOf [lp.mapping.subtree]) loops₁ loops₂) :
    ∃ new, loops₂ ++ [lp] = loops ++ (new ++ [lp]) ∧
      (∀ S ∈ new, locsOf [S.mapping.tree] ⊆ lp.mapping.region ∧
        Traced s (new ++ [lp]) S S.mapping.tree) ∧
      ∀ t, s.Owns t.cells → Traced s (new ++ [lp]) lp t := by
  obtain ⟨hout, hout', hapart⟩ := Mapping.apart hn
  obtain ⟨new, rfl, hnew, htraced⟩ := hleading.append hsubtree hapart
  have hR : locsOf lp.mapping.leading + locsOf [lp.mapping.subtree] ⊆ lp.mapping.region :=
    fun l hl => (Multiset.mem_add.1 hl).elim (Multiset.mem_of_le lp.mapping.leading_le_region)
      (Multiset.mem_of_le lp.mapping.subtree_le_region)
  have hlp : lp.mapping.callback ∉ locsOf lp.mapping.leading + locsOf [lp.mapping.subtree] :=
    fun hl => (Multiset.mem_add.1 hl).elim hout hout'
  have hfar {P : Lowered adapter} (hP : P ∈ new) : lp.mapping.callback ∉ P.mapping.region :=
    fun hl => hlp (hnew P hP (Multiset.mem_of_le P.mapping.region_le_tree hl))
  refine ⟨new, List.append_assoc _ _ _, fun S hS => ⟨Multiset.Subset.trans (hnew S hS) hR, ?_⟩,
    fun t ht => ⟨[], List.nil_subset _, fun P hP => ?_, .nil, ht⟩⟩
  · exact (htraced S hS).around (fun P hP => ⟨hR (P.callback_mem (hnew P hP)), hfar hP⟩) hS
  · refine ⟨fun h => absurd h List.not_mem_nil, fun h => ?_⟩
    rcases List.mem_append.1 hP with hP | hP
    · exact absurd h.2 (hfar hP)
    · exact absurd (by rw [List.mem_singleton.1 hP]) h.1

def TracesAll (s : Store) (ps : List Part) (σ σ' : Stage adapter) : Prop :=
  s.Owns (cellsOf (treesOf ps)) → Traces s (locsOf (treesOf ps)) σ.loops σ'.loops

theorem TracesAll.mono {qs : List Part} (h : TracesAll s ps σ σ')
    (hle : cellsOf (treesOf ps) ≤ cellsOf (treesOf qs)) : TracesAll s qs σ σ' := fun hown =>
  (h (hown.mono hle)).mono (Multiset.subset_of_le (Multiset.map_le_map hle))

theorem TracesAll.site {σ₁ σ₂ : Stage adapter} {a : Allocator} {o : Option (Ledger adapter)}
    (hown : s.Owns lp.mapping.function.cells)
    (hfirst : TracesAll (lp.site.renameIndex s)
      (lp.mapping.leading.map fun t => .statement (lp.mapping.renamed lp.tokens t))
      ⟨a, σ.loops, none⟩ σ₁)
    (hnext : TracesAll (lp.site.renameIndex s)
      [.node (lp.mapping.renamed lp.tokens lp.mapping.subtree)] { σ₁ with ledger := o } σ₂) :
    ∃ new, σ₂.loops ++ [lp] = σ.loops ++ (new ++ [lp]) ∧
      (∀ S ∈ new, locsOf [S.mapping.tree] ⊆ lp.mapping.region ∧
        Traced s (new ++ [lp]) S S.mapping.tree) ∧
      ∀ t, s.Owns t.cells → Traced s (new ++ [lp]) lp t := by
  have hrenamed := lp.renameIndex_owns hown
  rw [TracesAll, lp.mapping.treesOf_leading, lp.mapping.locsOf_renamed] at hfirst
  refine Traces.loop (by simpa [Mapping.region, locsOf] using hown.nodup)
    (hfirst (hrenamed.mono (Multiset.le_add_right _ _)))
    ((hnext (hrenamed.mono ((lp.mapping.cellsOf_template_le lp.tokens).trans
      (Multiset.le_add_left _ _)))).mono ?_)
  exact Multiset.subset_of_le (lp.mapping.locsOf_template_le lp.tokens)

theorem Mapping.function_cells_le (m : Mapping) : m.function.cells ≤ m.tree.cells :=
  (m.occurs_callback m.params m.body).cells_le

theorem Lowers.traces (h : Lowers adapter start gs ps σ ps' σ') (s : Store) :
    TracesAll s ps σ σ' := by
  induction h generalizing s with
  | nil | inert | leave | keep | move => exact fun _ => .refl
  | cons _ _ ih ihs =>
    intro hown
    have hn := hown.nodup
    rw [treesOf_cons, cellsOf_append] at hown
    rw [treesOf_cons, cellsOf_append, Multiset.map_add] at hn
    rw [treesOf_cons, locsOf_append]
    have hfirst := ih s
    rw [TracesAll, treesOf_cons, treesOf_nil, List.append_nil] at hfirst
    exact (hfirst (hown.mono (Multiset.le_add_right _ _))).append
      (ihs s (hown.mono (Multiset.le_add_left _ _))) (Multiset.nodup_add.1 hn).2.2
  | @node _ l n _ _ _ _ _ ih =>
    exact (ih s).mono (by simpa [Part.trees] using cellsOf_partsOf_le l n)
  | @markup _ t _ _ _ _ _ ih | @found _ t _ _ _ _ _ ih =>
    exact (ih s).mono (by simpa [Part.trees] using cellsOf_children_le t)
  | @enter _ place v _ _ _ _ _ ih =>
    exact (ih s).mono (by
      simpa [Part.trees] using (cellsOf_children_le v).trans (place.cells_le v))
  | @loop _ place parens m _ _ _ _ _ ih =>
    exact (ih s).mono (by simpa [Part.trees] using
      (occurs_inParens parens m.tree).cells_le.trans (place.cells_le (inParens parens m.tree)))
  | @search _ l n _ _ _ _ _ _ ih =>
    exact (ih s).mono (by
      simpa [treesOf, List.flatMap_map, Part.trees] using cellsOf_children_le (.node l n))
  | @site _ lp σ σ₁ σ₂ parent _ _ _ _ _ _ _ _ _ _ ihl ihs =>
    intro hown
    have hown : s.Owns lp.mapping.tree.cells := by simpa [Part.trees] using hown
    obtain ⟨new, hloops, hnew, hself⟩ := TracesAll.site (s := s)
      (hown.mono lp.mapping.function_cells_le) (ihl _) (ihs _)
    refine ⟨new ++ [lp], hloops, fun S hS => ?_, fun S hS => ?_⟩
    · rcases List.mem_append.1 hS with hS | hS
      · exact Multiset.Subset.trans (hnew S hS).1
          (Multiset.subset_of_le lp.mapping.region_le_tree)
      · rw [List.mem_singleton.1 hS]
        exact Multiset.Subset.refl _
    · rcases List.mem_append.1 hS with hS | hS
      · exact (hnew S hS).2
      · obtain rfl := List.mem_singleton.1 hS
        exact hself _ hown

/-- All loops of a whole run are traced. The call of a loop that is the root was moved. -/
theorem LowersWhole.traced {a a' : Allocator} {t t' : Located}
    (h : LowersWhole adapter start a t t' a' loops) (hown : s.Owns t.cells) :
    ∀ S ∈ loops, ∃ call, (call = S.mapping.call ∨ call = t.strip.loc) ∧
      locsOf [Mapping.tree { S.mapping with call }] ⊆ locsOf [t] ∧
      Traced s loops S (Mapping.tree { S.mapping with call }) := by
  cases h with
  | @inside _ _ _ σ hc h =>
    have hle : cellsOf (treesOf [.node t]) ≤ t.cells := by
      simpa [Part.trees] using cellsOf_children_le t
    obtain ⟨new, hloops, hnew, htraced⟩ := h.traces s (hown.mono hle)
    obtain rfl : σ.loops = new := by simpa using hloops
    refine fun S hS => ⟨S.mapping.call, .inl rfl, ?_, htraced S hS⟩
    exact Multiset.Subset.trans (hnew S hS)
      (Multiset.subset_of_le (Multiset.map_le_map (by simpa using hle)))
  | @root parens m call lp inner _ hcall h =>
    obtain ⟨lp', σ₁, σ₂, -, hm, -, -, -, hleading, hsubtree, -, -, hloops, -⟩ := h.of_site
    obtain ⟨rfl, hlp⟩ := List.append_inj' hloops rfl
    obtain rfl : lp = lp' := List.singleton_inj.1 hlp
    have hin := occurs_inParens parens m.tree
    have htree : s.Owns m.tree.cells := hown.mono hin.cells_le
    have hwithin : locsOf [m.tree] ⊆ locsOf [inParens parens m.tree] :=
      Multiset.subset_of_le (Multiset.map_le_map (by simpa using hin.cells_le))
    have hregion : lp.mapping.region ⊆ locsOf [m.tree] := by
      rw [hm]
      exact Multiset.subset_of_le m.region_le_tree
    have hfunction : s.Owns lp.mapping.function.cells := by
      rw [hm]
      exact htree.mono m.function_cells_le
    rw [← hm] at hleading hsubtree
    obtain ⟨new, hnew, hinner, hself⟩ := @TracesAll.site adapter ⟨a, [], none⟩ s
      { lp with wrapper := m.call } σ₁ σ₂ _ _ hfunction (hleading.traces _) (hsubtree.traces _)
    rw [hnew]
    dsimp only
    rw [List.nil_append]
    intro S hS
    rcases List.mem_append.1 hS with hS | hS
    · refine ⟨S.mapping.call, .inl rfl, ?_, (hinner S hS).2⟩
      exact Multiset.Subset.trans (Multiset.Subset.trans (hinner S hS).1 hregion) hwithin
    · obtain rfl := List.mem_singleton.1 hS
      have hmoved : Mapping.tree { lp.mapping with call := m.call } = m.tree := by rw [hm]
      refine ⟨m.call, .inr ?_, hmoved ▸ hwithin, hself _ (hmoved ▸ htree)⟩
      rw [strip_inParens, m.bare_tree.strip]
      rfl

/-! ### Statements without markup -/

theorem Formed.exists_leading (h : Formed start lp) {l : Loc} (hl : l ∈ lp.site.bodyStatements) :
    ∃ t ∈ lp.mapping.leading, ∃ t' ∈ lp.leading, t.loc = l ∧ t'.loc = l ∧
      (t.hasMarkup = false → t' = lp.mapping.renamed lp.tokens t) := by
  obtain ⟨-, -, hleading, -, -, -⟩ := h
  have hall := hleading.statement_eq
  rw [List.forall₂_map_left_iff, List.forall₂_map_right_iff] at hall
  rw [show lp.site.bodyStatements = lp.leading.map loc from rfl] at hl
  generalize lp.mapping.leading = ts at hall
  generalize lp.leading = ts' at hall hl
  induction hall with
  | nil => cases hl
  | @cons t t' ts ts' ht _ ih =>
    obtain ⟨hloc, hsame⟩ := ht _ _ rfl rfl
    rw [lp.mapping.loc_renamed] at hloc
    rcases List.mem_cons.1 hl with rfl | hl
    · refine ⟨t, List.mem_cons_self, t', List.mem_cons_self, hloc.symm, rfl, fun hno => hsame ?_⟩
      rw [Mapping.renamed]
      split
      · rwa [hasMarkup_renameFree]
      · exact hno
    · obtain ⟨u, hu, u', hu', hrest⟩ := ih hl
      exact ⟨u, List.mem_cons_of_mem _ hu, u', List.mem_cons_of_mem _ hu', hrest⟩

/-! ### Mapping calls -/

def Maps (s : Store) (call receiver : Loc) (optional : Bool) (callback : Loc) : Prop :=
  ∃ callee argument, s.get call = .call callee [argument] ∧
    s.get (s.stripParens callee) = .member receiver "map" optional ∧
    s.stripParens argument = callback

/-- A body has some statements and then gives a result. -/
inductive Concludes (s : Store) : Body Loc → List Loc → Loc → Prop
  | value (result : Loc) : Concludes s (.value result) [] result
  | block {leading : List Loc} {last result : Loc} (h : s.get last = .returning (some result)) :
    Concludes s (.block (leading ++ [last])) leading result

theorem Mapping.maps (m : Mapping) {params : List Binder} {body : Body Located}
    (h : s.Shows (m.withCallback params body)) :
    Maps s m.call m.receiver.loc m.optional m.callback := by
  have hcallee : s.Shows m.callee := h.child (by simp [Node.children])
  have hargument : s.Shows (inParens m.parens (.node m.callback
      (.lambda ⟨m.form, false, false, params, body⟩))) := h.child (by simp [Node.children])
  refine ⟨_, _, h.get_root, ?_, ?_⟩
  · have hmember : m.callee.strip = .node m.member (.member m.receiver "map" m.optional) := by
      rw [callee, strip_inParens, Bare.strip fun inner => by simp]
    rw [hcallee.stripParens]
    have hget := hcallee.strip.get_loc
    rwa [hmember] at hget ⊢
  · rw [hargument.stripParens, strip_inParens, Bare.strip fun inner => by simp]
    rfl

theorem Maps.of_sameButNames {s' : Store} {call receiver callback : Loc} {optional : Bool}
    (h : Maps s' call receiver optional callback) (hs : s.SameButNames s') :
    Maps s call receiver optional callback := by
  obtain ⟨callee, argument, hcall, hmember, hcallback⟩ := h
  rw [hs.stripParens_eq] at hmember hcallback
  refine ⟨callee, argument, hs.get_eq hcall fun m hm => ?_, hs.get_eq hmember fun m hm => ?_,
    hcallback⟩ <;> cases m <;> simp_all [Node.unnamed]

theorem Mapping.concludes (m : Mapping) (h : s.Shows m.function) :
    ∃ result, Concludes s (m.body.map loc) (m.leading.map loc) result ∧
      s.stripParens result = m.subtree.strip.loc := by
  have hstrip (hs : s.Shows (inParens m.resultParens m.subtree)) :
      s.stripParens (inParens m.resultParens m.subtree).loc = m.subtree.strip.loc := by
    rw [hs.stripParens, strip_inParens]
  rw [function] at h
  rw [body] at h ⊢
  rw [leading]
  cases hending : m.ending with
  | value =>
    rw [hending] at h
    exact ⟨_, .value _, hstrip (h.child (by simp [Ending.body, Node.children, Body.children]))⟩
  | block leading last =>
    rw [hending] at h
    have hlast : s.Shows (.node last (.returning (some (inParens m.resultParens m.subtree)))) :=
      h.child (by simp [Ending.body, Node.children, Body.children])
    refine ⟨_, ?_, hstrip (hlast.child (by simp [Node.children]))⟩
    simp only [Ending.body, Ending.leading, Body.map, List.map_append, List.map_cons, List.map_nil]
    exact .block hlast.get_root

theorem Concludes.of_sameButNames {s' : Store} {body : Body Loc} {leading : List Loc} {result : Loc}
    (h : Concludes s' body leading result) (hs : s.SameButNames s') :
    Concludes s body leading result := by
  cases h with
  | value => exact .value result
  | block h => exact .block (hs.get_eq h fun m hm => by cases m <;> simp_all [Node.unnamed])

/-! ### Callbacks before and after -/

/-- The sites whose callbacks are around the one of a site, the outermost first. -/
structure Enclosing (s : Store) (sites : List Site) (site : Site) (around : List Site) : Prop where
  mem_iff : ∀ outer, outer ∈ around ↔
    outer ∈ sites ∧ outer.callback ≠ site.callback ∧ s.Reaches outer.callback site.callback
  nested : around.Pairwise fun outer inner =>
    outer.callback ≠ inner.callback ∧ s.Reaches outer.callback inner.callback

/-- The call of a site calls `map` on the same receiver with the same callback as before. It has
moved only if it was the root itself. -/
def Site.KeepsCall (site : Site) (s s' : Store) (root : Loc) : Prop :=
  ∃ call optional, s.Reaches root call ∧ (call = site.mappingCall ∨ call = s.stripParens root) ∧
    Maps s call site.source optional site.callback ∧
    Maps s' site.mappingCall site.source optional site.callback

/-- The callback of a site is of the same form as before. It takes the item and the index, and has
the same statements in front of its return. Before, that gave the template. -/
def Site.KeepsCallback (site : Site) (s s' : Store) (record : Loc) : Prop :=
  ∃ form params body result last,
    s.get site.callback = .lambda ⟨form, false, false, params, body⟩ ∧
    Concludes s body site.bodyStatements result ∧ s.stripParens result = site.ownedSubtree ∧
    s'.get site.callback = .lambda ⟨form, false, false,
      [.plain site.itemName, .plain site.indexName], .block (site.bodyStatements ++ [last])⟩ ∧
    s'.get last = .returning (some record)

def Site.IsRecord (site : Site) (s' : Store) (record : Loc) : Prop :=
  ∃ item key, ∃ fields : List (String × Loc), s'.get record = .object
    (.field site.itemName item :: .field keyField key :: fields.map fun f => .field f.1 f.2)

def Site.Calm (site : Site) (s : Store) (sites : List Site) : Prop :=
  ∀ inner ∈ sites, s.Reaches site.callback inner.callback → s.returnsAt inner.ownedSubtree = false

theorem Formed.isRecord_site (h : Formed start lp) {s' : Store} (hs : s'.Shows lp.call) :
    lp.site.IsRecord s' lp.record.loc := by
  obtain ⟨l, key, v, -, hrecord⟩ := h.record_eq
  have hget := (hs.occurs lp.occurs_record).get_loc
  refine ⟨v.loc, key, (fieldsOf lp.ledger.log).map fun f => (f.1, f.2.loc), ?_⟩
  rw [hget, hrecord]
  simp [Node.map, Entry.map, Entry.field, Key.map, Lowered.site]

theorem Formed.ownedSubtree_eq (h : Formed start lp) :
    lp.site.ownedSubtree = lp.mapping.subtree.loc := by
  obtain ⟨-, -, -, hsubtree, -, -⟩ := h
  exact hsubtree.of_node.1.trans (lp.mapping.loc_renamed _ _)

theorem Formed.strip_subtree (h : Formed start lp) :
    lp.mapping.subtree.strip = lp.mapping.subtree := by
  obtain ⟨hm, -, -, -, -, -⟩ := h
  refine Bare.strip fun inner he => ?_
  have hmarkup := hm.markup
  rw [he] at hmarkup
  cases hmarkup

section

variable {r s' : Store} {call : Loc} (hsame : s.SameButNames r)
  (hr : r.Shows (Mapping.tree { lp.mapping with call })) (hs' : s'.Shows lp.call)

include hsame hr

theorem Lowered.returnsAt_subtree (h : Formed start lp) :
    s.returnsAt lp.site.ownedSubtree = lp.mapping.subtree.returns := by
  rw [h.ownedSubtree_eq, ← hsame.returnsAt_eq]
  exact (hr.occurs (Mapping.occurs_subtree { lp.mapping with call })).returnsAt

include hs'

theorem Lowered.keepsCallback (h : Formed start lp) :
    lp.site.KeepsCallback s s' lp.record.loc := by
  have hfunction : r.Shows lp.mapping.function :=
    hr.occurs (Mapping.occurs_callback { lp.mapping with call } _ _)
  obtain ⟨result, hbody, hresult⟩ := lp.mapping.concludes hfunction
  rw [h.strip_subtree, ← h.ownedSubtree_eq, hsame.stripParens_eq] at hresult
  have hbefore : ∃ params, s.get lp.site.callback = .lambda ⟨lp.mapping.form, false, false, params,
      lp.mapping.body.map loc⟩ := by
    have hget : r.get lp.site.callback = _ := hfunction.get_root
    have hunnamed := hsame.get lp.site.callback
    rw [hget] at hunnamed
    cases hn : s.get lp.site.callback with
    | lambda f =>
      obtain ⟨form, isAsync, generator, params, body⟩ := f
      rw [hn] at hunnamed
      simp only [Node.unnamed, Node.map, Node.lambda.injEq, Lambda.mk.injEq] at hunnamed
      obtain ⟨rfl, rfl, rfl, -, rfl⟩ := hunnamed
      exact ⟨params, rfl⟩
    | _ => simp [hn, Node.unnamed, Node.map] at hunnamed
  obtain ⟨params, hbefore⟩ := hbefore
  have hcallback := hs'.occurs lp.occurs_callback
  have hlast : s'.Shows (.node lp.last (.returning (some lp.record))) :=
    hcallback.child (by simp [Node.children, Body.children])
  refine ⟨_, params, _, result, lp.last, hbefore, ?_, hresult, ?_, hlast.get_root⟩
  · rw [h.bodyStatements_eq]
    exact hbody.of_sameButNames hsame
  · rw [show lp.site.callback = lp.mapping.callback from rfl, hcallback.get_root]
    simp [Node.map, Body.map, Lowered.site]

end

theorem enclosing_of_chain {sites : List Site} {chain : List (Lowered adapter)}
    (ho : ∀ lp ∈ loops, ∀ u, Occurs u lp.mapping.function → Outlines s u)
    (hsites : ∀ site, site ∈ sites ↔ ∃ lp ∈ loops, lp.site = site) (hchain : chain ⊆ loops)
    (haround : ∀ P ∈ loops, P ∈ chain ↔ P.mapping.callback ≠ S.mapping.callback ∧
      S.mapping.callback ∈ P.mapping.region)
    (hpairs : chain.Pairwise fun P Q => P.mapping.callback ≠ Q.mapping.callback ∧
      Q.mapping.callback ∈ P.mapping.region) :
    Enclosing s sites S.site (chain.map Lowered.site) := by
  have hreaches {P Q : Lowered adapter} (hP : P ∈ loops) :
      s.Reaches P.site.callback Q.site.callback ↔ Q.mapping.callback ∈ P.mapping.region :=
    Lowered.reaches_callback (ho P hP) _
  refine ⟨fun outer => ?_, ?_⟩
  · constructor
    · intro houter
      obtain ⟨P, hP, rfl⟩ := List.mem_map.1 houter
      obtain ⟨hne, hin⟩ := (haround P (hchain hP)).1 hP
      exact ⟨(hsites _).2 ⟨P, hchain hP, rfl⟩, hne, (hreaches (hchain hP)).2 hin⟩
    · rintro ⟨houter, hne, hin⟩
      obtain ⟨P, hP, rfl⟩ := (hsites outer).1 houter
      exact List.mem_map_of_mem ((haround P hP).2 ⟨hne, (hreaches hP).1 hin⟩)
  · refine List.pairwise_map.2 (hpairs.imp_of_mem fun hP _ hPQ => ?_)
    exact ⟨hPQ.1, (hreaches (hchain hP)).2 hPQ.2⟩

/-- What is left of the callback of a site after a run. -/
structure Site.Kept (site : Site) (s : Store) (root : Loc) (p : Pass) : Prop where
  call : site.KeepsCall s p.store root
  /-- There is no other return than the one of the record, unless one stands in a template. -/
  callback : ∃ record, site.KeepsCallback s p.store record ∧ site.IsRecord p.store record ∧
    (site.Calm s p.sites →
      p.store.returns site.bodyStatements = false ∧ p.store.returnsAt record = false)
  /-- The receiver and the statements without markup are what they were, but for the indices of the
  callbacks that they stand in. -/
  names : ∃ around, Enclosing s p.sites site around ∧
    (∃ t, p.store.unfold site.source = some t ∧
      (renameIndices around s).unfold site.source = some t) ∧
    ∀ l ∈ site.bodyStatements, s.hasMarkup l = false → ∃ t, p.store.unfold l = some t ∧
      (renameIndices (around ++ [site]) s).unfold l = some t

/-- A lowered callback keeps everything but its result. Its call calls `map` on the same receiver.
It is of the same form, takes the item and the index, and has the same statements in front of the
return of a record. -/
theorem lowerLoops_callbacks (adapter : Adapter) {s : Store} {root : Loc} (h : s.IsTree root)
    (a : Allocator) :
    let p := (lowerLoops adapter root ⟨s, a, []⟩).2
    ∀ site ∈ p.sites, site.Kept s root p := by
  intro p site hsite
  obtain ⟨t', loops, hrun, -, hown, hsites⟩ := lowerLoops_sites adapter h a
  obtain ⟨lp, hlp, rfl⟩ := (hsites site).1 hsite
  have hbefore : s.Shows (s.treeAt root) := h.owns_treeAt.shows le_rfl
  have houtlines := hrun.outlines hbefore
  have hformed := hrun.formed lp hlp
  have hcall : p.store.Shows lp.call := (hown.shows le_rfl).occurs (hrun.placed lp hlp).2
  obtain ⟨call, hroot, hlocs, chain, hchain, haround, hpairs, hr⟩ :=
    hrun.traced h.owns_treeAt lp hlp
  have hsame := sameButNames_renameIndices (chain.map Lowered.site) s
  have hshows : (renameIndices (chain.map Lowered.site) s).Shows
      (Mapping.tree { lp.mapping with call }) := hr.shows le_rfl
  refine ⟨?_, ?_, chain.map Lowered.site,
    enclosing_of_chain houtlines hsites hchain haround hpairs, ?_, ?_⟩
  · refine ⟨call, lp.mapping.optional, ?_, ?_, ?_, lp.mapping.maps hcall⟩
    · have hin : call ∈ locsOf [s.treeAt root] :=
        hlocs (mem_locsOf_of_occurs (List.mem_singleton_self _) .self)
      rwa [← hbefore.reaches_iff_mem, Store.loc_treeAt] at hin
    · refine hroot.imp_right fun he => ?_
      rw [he, ← hbefore.stripParens, Store.loc_treeAt]
    · exact (Mapping.maps { lp.mapping with call } hshows).of_sameButNames hsame
  · refine ⟨_, lp.keepsCallback hsame hshows hcall hformed, hformed.isRecord_site hcall,
      fun hcalm => ?_⟩
    have hinside : CalmInside loops lp := by
      intro inner hinner hin
      obtain ⟨call', -, -, chain', -, -, -, hr'⟩ := hrun.traced h.owns_treeAt inner hinner
      have hno := hcalm inner.site ((hsites _).2 ⟨inner, hinner, rfl⟩)
        ((Lowered.reaches_callback (houtlines lp hlp) _).2 hin)
      rwa [inner.returnsAt_subtree (sameButNames_renameIndices (chain'.map Lowered.site) s)
        (hr'.shows le_rfl) (hrun.formed inner hinner)] at hno
    obtain ⟨hleading, hrecord⟩ := hrun.returnsOnce lp hlp hinside
    constructor
    · refine List.any_eq_false.2 fun l hl => ?_
      obtain ⟨t, ht, rfl⟩ := List.mem_map.1 hl
      rw [(hcall.occurs (lp.occurs_leading ht)).returnsAt, hleading t ht]
      exact Bool.false_ne_true
    · exact (hcall.occurs lp.occurs_record).returnsAt.trans hrecord
  · have hreceiver : Occurs lp.mapping.receiver lp.mapping.callee :=
      .trans (.child (by simp [Node.children]) .self) (occurs_inParens _ _)
    have hcallee (params : List Binder) (body : Body Located) (call : Loc) : Occurs
        lp.mapping.callee (Mapping.withCallback { lp.mapping with call } params body) :=
      .child (by simp [Node.children, Mapping.callee]) .self
    exact ⟨_, (hcall.occurs (hreceiver.trans (hcallee _ _ _))).unfold,
      (hshows.occurs (hreceiver.trans (hcallee _ _ _))).unfold⟩
  · intro l hl hno
    obtain ⟨t, ht, t', ht', hloc, rfl, hsame'⟩ := hformed.exists_leading hl
    have hmarkup : t.hasMarkup = false := by
      rw [← (hshows.occurs (Mapping.occurs_leading { lp.mapping with call } ht)).hasMarkup,
        hsame.hasMarkup_eq, hloc]
      exact hno
    obtain rfl := hsame' hmarkup
    have hfunction := hr.mono (Mapping.function_cells_le { lp.mapping with call })
    have hrenamed := (lp.renameIndex_owns hfunction).mono (Multiset.le_add_right _ _)
    refine ⟨_, (hcall.occurs (lp.occurs_leading ht')).unfold, ?_⟩
    rw [renameIndices, List.foldl_append]
    exact (hrenamed.shows (cells_le_of_mem (List.mem_map_of_mem ht))).unfold

/-- Indices of one name, in `<ul>{rows.map((row, i) => { log(i); return <li>{row.cells.map(`
`(cell, i) => { log(i); return <b>{cell}</b>; })}</li>; })}</ul>`. -/
def sameIndices : Store where
  nodes := #[.name "rows", .member ⟨0⟩ "map" false, .name "log", .name "i", .call ⟨2⟩ [⟨3⟩],
    .performing ⟨4⟩, .name "row", .member ⟨6⟩ "cells" false, .member ⟨7⟩ "map" false, .name "log",
    .name "i", .call ⟨9⟩ [⟨10⟩], .performing ⟨11⟩, .name "cell", .container ⟨13⟩,
    .element ⟨"b", [], [⟨14⟩], false⟩, .returning (some ⟨15⟩),
    .lambda ⟨.arrow, false, false, [.plain "cell", .plain "i"], .block [⟨12⟩, ⟨16⟩]⟩,
    .call ⟨8⟩ [⟨17⟩], .container ⟨18⟩, .element ⟨"li", [], [⟨19⟩], false⟩,
    .returning (some ⟨20⟩),
    .lambda ⟨.arrow, false, false, [.plain "row", .plain "i"], .block [⟨5⟩, ⟨21⟩]⟩,
    .call ⟨1⟩ [⟨22⟩], .container ⟨23⟩, .element ⟨"ul", [], [⟨24⟩], false⟩]

theorem sameIndices_isTree : sameIndices.IsTree ⟨25⟩ :=
  Store.isTree_of_filled (by decide) (by decide) (by decide)

theorem sameIndices_callbacks :
    let p := (lowerLoops .wechat ⟨25⟩ ⟨sameIndices, ⟨0⟩, []⟩).2
    sameIndices.IsTree ⟨25⟩ ∧ p.sites.map (fun site => (site.callback, site.bodyStatements)) =
      [(⟨22⟩, [⟨5⟩]), (⟨17⟩, [⟨12⟩])] ∧ sameIndices.hasMarkup ⟨12⟩ = false ∧
      ∀ site ∈ p.sites, site.Kept sameIndices ⟨25⟩ p := by
  refine ⟨sameIndices_isTree, ?_, ?_, lowerLoops_callbacks .wechat sameIndices_isTree ⟨0⟩⟩ <;> cbv

/-- A return in a template, in `rows.map((row) => { const head = <b>{cells.map((cell) =>`
`<i>{return x}</i>)}</b>; return <li />; })`. -/
def returnInTemplate : Store where
  nodes := #[.name "rows", .member ⟨0⟩ "map" false, .name "cells", .member ⟨2⟩ "map" false,
    .name "x", .returning (some ⟨4⟩), .container ⟨5⟩, .element ⟨"i", [], [⟨6⟩], false⟩,
    .lambda ⟨.arrow, false, false, [.plain "cell"], .value ⟨7⟩⟩, .call ⟨3⟩ [⟨8⟩], .container ⟨9⟩,
    .element ⟨"b", [], [⟨10⟩], false⟩, .declaration "const" [⟨.plain "head", some ⟨11⟩⟩],
    .element ⟨"li", [], [], true⟩, .returning (some ⟨13⟩),
    .lambda ⟨.arrow, false, false, [.plain "row"], .block [⟨12⟩, ⟨14⟩]⟩, .call ⟨1⟩ [⟨15⟩]]

/-- A statement in front of the return comes to return by itself: the template of the loop in it is
taken out of its callback, with the return that stands there. -/
theorem returnInTemplate_returns :
    let p := (lowerLoops .wechat ⟨16⟩ ⟨returnInTemplate, ⟨0⟩, []⟩).2
    returnInTemplate.IsTree ⟨16⟩ ∧ p.sites.map (fun site => (site.callback, site.bodyStatements)) =
      [(⟨15⟩, [⟨12⟩]), (⟨8⟩, [])] ∧
      returnInTemplate.returns [⟨12⟩] = false ∧ p.store.returns [⟨12⟩] = true := by
  refine ⟨Store.isTree_of_filled (by decide) (by decide) (by decide), ?_, ?_, ?_⟩ <;> cbv

end JsxLoops.Loop
