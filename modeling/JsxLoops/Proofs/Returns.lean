import JsxLoops.Proofs.Erasure
import JsxLoops.Proofs.Scan
import JsxLoops.Proofs.Scopes
import JsxLoops.Proofs.Template

/-!
Where returns stand. Lowering writes no return but the one of the record. It takes templates out of
their callbacks, though, so a return that stands in a template comes to stand in the function around
the loop. As long as the templates hold none, neither do the statements in front of the return of a
lowered loop, nor its record.
-/

namespace JsxLoops.Tree

variable {α β : Type}

def Node.isReturn : Node α → Bool
  | .returning _ => true
  | .verbatim code => code.hasReturn
  | _ => false

def Node.isFunction : Node α → Bool
  | .lambda _ => true
  | _ => false

@[simp] theorem Node.isReturn_map (f : α → β) (n : Node α) : (n.map f).isReturn = n.isReturn := by
  cases n <;> rfl

@[simp] theorem Node.isFunction_map (f : α → β) (n : Node α) :
    (n.map f).isFunction = n.isFunction := by
  cases n <;> rfl

theorem Node.isReturn_of_shape {n : Node α} {m : Node β} (h : n.shape = m.shape) :
    n.isReturn = m.isReturn := by
  rw [← Node.isReturn_map (fun _ => ()) n, ← Node.isReturn_map (fun _ => ()) m]
  exact congrArg Node.isReturn h

theorem Node.isFunction_of_shape {n : Node α} {m : Node β} (h : n.shape = m.shape) :
    n.isFunction = m.isFunction := by
  rw [← Node.isFunction_map (fun _ => ()) n, ← Node.isFunction_map (fun _ => ()) m]
  exact congrArg Node.isFunction h

namespace Located

/-- The tree does not return from the function it stands in. -/
def Silent (t : Located) : Prop := t.returns = false

theorem returns_node (l : Loc) (n : Node Located) :
    (node l n).returns = (n.isReturn || !n.isFunction && n.children.any returns) := by
  have hany : (n.map returns).children.any id = n.children.any returns := by
    rw [Node.children_map, List.any_map]
    rfl
  rw [returns, fold_node]
  cases n <;> first
    | rfl
    | exact hany
    | simp [Node.map, Node.isReturn, Node.isFunction, Node.children]

theorem silent_node {l : Loc} {n : Node Located} : (node l n).Silent ↔
    n.isReturn = false ∧ (n.isFunction = false → ∀ c ∈ n.children, c.Silent) := by
  rw [Silent, returns_node, Bool.or_eq_false_iff, Bool.and_eq_false_imp]
  simp [Silent]

theorem Silent.node {l : Loc} {n : Node Located} (hn : n.isReturn = false)
    (h : ∀ c ∈ n.children, c.Silent) : (Located.node l n).Silent :=
  silent_node.2 ⟨hn, fun _ => h⟩

theorem Silent.leaf {l : Loc} {n : Node Located} (hn : n.isReturn = false)
    (hc : n.children = []) : (Located.node l n).Silent :=
  .node hn (by simp [hc])

theorem Silent.child {l : Loc} {n : Node Located} {c : Located} (h : (Located.node l n).Silent)
    (hn : n.isFunction = false) (hc : c ∈ n.children) : c.Silent :=
  (silent_node.1 h).2 hn c hc

theorem Silent.inParens {ps : List Loc} {t : Located} : (inParens ps t).Silent ↔ t.Silent := by
  induction ps with
  | nil => rfl
  | cons l ps ih =>
    refine Iff.trans ?_ ih
    show (Located.node l (.paren (Located.inParens ps t))).Silent ↔ _
    simp [silent_node, Node.isReturn, Node.isFunction, Node.children]

end Located

end JsxLoops.Tree

namespace JsxLoops.Loop

open JsxLoops.Tree Located

variable {adapter : Adapter} {start : Nat} {gs : List Premise} {ps ps' : List Part}
  {σ σ' : Stage adapter} {lp : Lowered adapter} {loops : List (Lowered adapter)} {t v : Located}

/-! ### What is written -/

theorem Mapping.silent_renamed (m : Mapping) (tokens : Tokens) :
    (m.renamed tokens t).Silent ↔ t.Silent := by
  rw [Mapping.renamed, Silent, Silent]
  split
  · rw [returns_renameFree]
  · rfl

theorem Mapping.silent_withCallback (m : Mapping) (params : List Binder) (body : Body Located) :
    (m.withCallback params body).Silent ↔ m.receiver.Silent := by
  have hcallback : (Located.node m.callback
      (.lambda ⟨m.form, false, false, params, body⟩)).Silent :=
    silent_node.2 ⟨rfl, fun h => by cases h⟩
  simp [withCallback, callee, silent_node, Node.isReturn, Node.isFunction, Node.children,
    Silent.inParens, hcallback]

theorem connects_silent : Connects Silent := fun _ n hn h =>
  .node (by cases n <;> first | rfl | cases hn) h

theorem Bound.silent_source {o o' : Option (Ledger adapter)} (h : Bound gs lp o o')
    (hr : lp.mapping.receiver.Silent) : lp.source.Silent := by
  cases h with
  | inline hs =>
    rw [hs]
    exact (lp.mapping.silent_withCallback _ _).2 hr
  | nested _ _ _ _ hreach =>
    exact connects_silent.reaches hreach fun _ he => (returns_of_erase_eq he).trans hr

/-! ### The parts of a run -/

def Part.Silent : Part → Prop
  | .node t | .child t | .statement t | .wrapper t => t.Silent
  | .attribute _ _ a => ∀ v ∈ a.children, v.Silent
  | .operand under t => t.Silent ∧ ∀ g ∈ under, g.tree.Silent
  | .loop m => m.tree.Silent

theorem silent_partsOf {l : Loc} {n : Node Located} (h : (Located.node l n).Silent) :
    ∀ p ∈ partsOf l n, p.Silent := by
  intro p hp
  have hchild (hn : ∀ f, n ≠ .lambda f) {c : Located} (hc : c ∈ n.children) : c.Silent :=
    h.child (by cases n <;> first | rfl | exact absurd rfl (hn _)) hc
  cases partOf_of_mem hp with
  | @valued e i a hn ha =>
    refine fun v hv => hchild (by simp [hn]) ?_
    rw [hn]
    exact List.mem_append_left _ (List.mem_flatMap.2 ⟨a, List.mem_of_getElem? ha, hv⟩)
  | child hn hc => exact hchild hn hc
  | operand hn hc hunder => exact ⟨hchild hn hc, fun g hg => hchild hn (hunder g hg)⟩

theorem SameAround.silent {l : Loc} {n n' : Node Located} (hn : SameAround n n')
    (h : (Located.node l n).Silent) (hps : ∀ p ∈ partsOf l n', p.Silent) :
    (Located.node l n').Silent := by
  obtain rfl | ⟨hbefore, hparts, hchildren⟩ := hn.eq_or_hasParts l
  · exact h
  refine .node (by cases n' <;> first | rfl | cases hparts) fun c hc => ?_
  rcases hchildren c hc with hc | ⟨p, hp, hc⟩
  · exact h.child (by cases n <;> first | rfl | cases hbefore) hc
  · have hsilent := hps p hp
    cases partOf_of_mem hp with
    | valued => exact hsilent c hc
    | child => exact List.mem_singleton.1 hc ▸ hsilent
    | operand => exact List.mem_singleton.1 hc ▸ hsilent.1

theorem Place.silent_holding (place : Place) :
    (place.holding v).Silent ↔ v.Silent ∧ ∀ g ∈ place.premises, g.tree.Silent := by
  rcases place with (c | ⟨l, i, name⟩) | under
  · simp [holding, premises, Part.Silent, silent_node, Node.isReturn, Node.isFunction,
      Node.children]
  · simp [holding, premises, Part.Silent, Attribute.children, AttributeValue.children]
  · rfl

theorem Place.silent_taken (place : Place) (h : (place.holding v).Silent) (ht : t.Silent) :
    (place.taken t).Silent := by
  have hpremises := (place.silent_holding.1 h).2
  rcases place with (c | ⟨l, i, name⟩) | under
  · exact ht
  · simpa [taken, Part.Silent, Attribute.children, AttributeValue.children] using ht
  · exact ⟨ht, hpremises⟩

theorem silent_all (h : List.Forall₂ (fun p p' : Part => p.Silent → p'.Silent) ps ps')
    (hps : ∀ p ∈ ps, p.Silent) : ∀ p ∈ ps', p.Silent := by
  induction h with
  | nil => exact hps
  | cons hp _ ih =>
    obtain ⟨hq, hqs⟩ := List.forall_mem_cons.1 hps
    exact List.forall_mem_cons.2 ⟨hp hq, ih hqs⟩

/-- The loops that a run adds have templates without returns. -/
def Calm (loops loops' : List (Lowered adapter)) : Prop :=
  ∀ lp ∈ loops', lp ∈ loops ∨ lp.mapping.subtree.Silent

theorem Calm.first {loops₁ loops₂ : List (Lowered adapter)} (h : Calm loops loops₂)
    (hs : loops₁ <+: loops₂) : Calm loops loops₁ := fun lp hlp => h lp (hs.subset hlp)

theorem Calm.last {loops₁ loops₂ : List (Lowered adapter)} (h : Calm loops loops₂)
    (hs : loops <+: loops₁) : Calm loops₁ loops₂ := fun lp hlp => (h lp hlp).imp_left (hs.subset ·)

theorem Lowered.silent_tree {o o' : Option (Ledger adapter)} (h : Bound gs lp o o')
    (hr : lp.mapping.receiver.Silent) (hs : lp.subtree.Silent) : lp.tree.Silent := by
  refine .node rfl fun c hc => ?_
  rw [children_wrapperNode] at hc
  rcases List.mem_cons.1 hc with rfl | hc
  · exact h.silent_source hr
  · rw [handedOver] at hc
    split at hc
    case h_1 cs hn =>
      rw [← eta lp.subtree, hn] at hs
      exact hs.child rfl hc
    case h_2 =>
      obtain rfl := List.mem_singleton.1 hc
      exact hs

theorem Lowers.silent (h : Lowers adapter start gs ps σ ps' σ') (hcalm : Calm σ.loops σ'.loops) :
    List.Forall₂ (fun p p' => p.Silent → p'.Silent) ps ps' := by
  induction h with
  | nil => exact .nil
  | inert | leave | keep => exact .cons id .nil
  | cons h hs ih ihs =>
    exact .cons (List.forall₂_cons.1 (ih (hcalm.first hs.loops_prefix))).1
      (ihs (hcalm.last h.loops_prefix))
  | @node _ l n n' _ _ hn _ ih =>
    exact .cons (fun hq => hn.silent hq (silent_all (ih hcalm) (silent_partsOf hq))) .nil
  | markup _ _ ih => exact .cons (List.forall₂_cons.1 (ih hcalm)).1 .nil
  | @enter _ place v v' _ _ _ _ ih =>
    refine .cons (fun hq => ?_) .nil
    obtain ⟨hv, hpremises⟩ := place.silent_holding.1 hq
    exact place.silent_holding.2 ⟨(List.forall₂_cons.1 (ih hcalm)).1 hv, hpremises⟩
  | @move _ spot =>
    refine .cons (fun _ => ?_) .nil
    rcases spot with c | ⟨l, i, name⟩
    · exact .leaf rfl rfl
    · simp [Spot.shown, Part.Silent, Attribute.children, AttributeValue.children]
  | @loop _ place parens m w _ _ _ _ ih =>
    refine .cons (fun hq => place.silent_taken hq ?_) .nil
    exact (List.forall₂_cons.1 (ih hcalm)).1 (Silent.inParens.1 (place.silent_holding.1 hq).1)
  | @search _ l n n' _ _ _ hn _ ih =>
    refine .cons (fun hq => ?_) .nil
    obtain ⟨hno, hchildren⟩ := silent_node.1 hq
    refine silent_node.2 ⟨(Node.isReturn_of_shape hn).trans hno, fun hf c hc => ?_⟩
    refine silent_all (ih hcalm) (fun p hp => ?_) (.statement c) (List.mem_map_of_mem hc)
    obtain ⟨d, hd, rfl⟩ := List.mem_map.1 hp
    exact hchildren ((Node.isFunction_of_shape hn).symm.trans hf) d hd
  | found _ _ ih => exact .cons (List.forall₂_cons.1 (ih hcalm)).1 .nil
  | @site _ lp σ σ₁ σ₂ parent _ _ _ hleading hsubtree _ _ _ hfresh hbound _ ihs =>
    refine .cons (fun hq => ?_) .nil
    have hr : lp.mapping.receiver.Silent := (lp.mapping.silent_withCallback _ _).1 hq
    have hnew : lp ∉ σ.loops := fun hin => Nat.lt_irrefl _
      (hfresh lp (hsubtree.loops_prefix.subset (hleading.loops_prefix.subset hin)))
    have htemplate : lp.mapping.subtree.Silent :=
      (hcalm lp (List.mem_append_right _ (List.mem_singleton_self lp))).resolve_left hnew
    have hin : Calm σ₁.loops σ₂.loops :=
      (hcalm.first (List.prefix_append _ _)).last hleading.loops_prefix
    exact lp.silent_tree hbound hr ((List.forall₂_cons.1 (ihs hin)).1
      ((lp.mapping.silent_renamed lp.tokens).2 htemplate))

theorem partsOf_ne_statement {l : Loc} {n : Node Located} {p : Part} (hp : p ∈ partsOf l n)
    (t : Located) : p ≠ .statement t := by
  rintro rfl
  cases partOf_of_mem hp

/-- What is moved into the record around is silent, too. Statements are lowered on their own. -/
theorem Lowers.silent_held (h : Lowers adapter start gs ps σ ps' σ')
    (hgs : ∀ g ∈ gs, g.tree.Silent) (hps : ∀ p ∈ ps, p.Silent ∧ ∀ t, p ≠ .statement t)
    (hheld : ∀ x ∈ heldBy σ.log, x.Silent) : ∀ x ∈ heldBy σ'.log, x.Silent := by
  induction h with
  | nil | inert | leave | keep => exact hheld
  | cons _ _ ih ihs =>
    obtain ⟨hp, hps⟩ := List.forall_mem_cons.1 hps
    exact ihs hgs hps (ih hgs (by simpa using hp) hheld)
  | node _ _ ih =>
    obtain ⟨hq, -⟩ := hps _ (List.mem_singleton_self _)
    exact ih hgs (fun p hp => ⟨silent_partsOf hq p hp, partsOf_ne_statement hp⟩) hheld
  | markup _ _ ih =>
    obtain ⟨hq, -⟩ := hps _ (List.mem_singleton_self _)
    exact ih hgs (List.forall_mem_singleton.2 ⟨hq, by simp⟩) hheld
  | @enter _ place v _ _ _ _ _ ih =>
    obtain ⟨hv, hpremises⟩ := place.silent_holding.1 (hps _ (List.mem_singleton_self _)).1
    exact ih (List.forall_mem_append.2 ⟨hgs, hpremises⟩)
      (List.forall_mem_singleton.2 ⟨hv, by simp⟩) hheld
  | @move _ spot v _ _ L e _ _ _ he hu hs =>
    obtain ⟨hv, -⟩ := (Place.silent_holding (.spot spot)).1 (hps _ (List.mem_singleton_self _)).1
    intro x hx
    rw [Stage.log, Option.elim_some, Ledger.note, heldBy_append] at hx
    rcases List.mem_append.1 hx with hx | hx
    · exact hheld x hx
    · rw [heldBy, List.flatMap_singleton] at hx
      exact connects_silent.held he hu (hs ▸ hv) x hx
  | @loop _ place parens m _ _ _ _ _ ih =>
    obtain ⟨hv, hpremises⟩ := place.silent_holding.1 (hps _ (List.mem_singleton_self _)).1
    exact ih (List.forall_mem_append.2 ⟨hgs, hpremises⟩)
      (List.forall_mem_singleton.2 ⟨Silent.inParens.1 hv, by simp⟩) hheld
  | search | found => exact absurd rfl ((hps _ (List.mem_singleton_self _)).2 _)
  | @site _ lp σ _ _ parent _ _ _ _ _ _ _ _ _ hbound =>
    obtain ⟨hq, -⟩ := hps _ (List.mem_singleton_self _)
    have hcall : lp.call.Silent := (lp.mapping.silent_withCallback _ _).2
      ((lp.mapping.silent_withCallback _ _).1 hq)
    intro x hx
    rw [Stage.log] at hx hheld
    generalize σ.ledger = o at hbound hheld
    cases hbound with
    | inline => cases hx
    | @nested L e d h hu _ hc hr =>
      rw [Option.elim_some, Ledger.note, heldBy_append] at hx
      rcases List.mem_append.1 hx with hx | hx
      · exact hheld x hx
      · rw [heldBy, List.flatMap_singleton, Event.held] at hx
        split at hx
        case h_1 => cases hx
        case h_2 =>
          obtain rfl := List.mem_singleton.1 hx
          exact connects_silent.guarded hc
            (fun g hg _ he => (returns_of_erase_eq he).trans (hgs g hg)) hcall

/-! ### The loops of a run -/

theorem Lowers.locs_subset (h : Lowers adapter start gs ps σ ps' σ') :
    ∀ lp ∈ σ'.loops, lp ∈ σ.loops ∨ locsOf [lp.mapping.tree] ⊆ locsOf (treesOf ps) := by
  refine h.inherits (P := fun t => locsOf [t] ⊆ locsOf (treesOf ps)) (fun t c ht hc => ?_)
    (fun a b t ht => ?_) fun t ht => ?_
  · refine fun l hl => ht (locsOf_subset (fun u hu => ?_) hl)
    exact ⟨t, List.mem_singleton_self t, List.mem_singleton.1 hu ▸ .of_mem hc⟩
  · simpa [locsOf, map_loc_cells_renameFree] using ht
  · exact fun l hl => locsOf_subset (fun u hu => ⟨t, ht, List.mem_singleton.1 hu ▸ .self⟩) hl

/-- The templates of all loops in the callback hold no return. -/
def CalmInside (loops : List (Lowered adapter)) (lp : Lowered adapter) : Prop :=
  ∀ inner ∈ loops, inner.mapping.callback ∈ lp.mapping.region → inner.mapping.subtree.Silent

/-- The callback of a loop has no return but the one of its record. -/
def Lowered.ReturnsOnce (lp : Lowered adapter) : Prop :=
  (∀ t ∈ lp.leading, t.Silent) ∧ lp.record.Silent

theorem Lowers.returnsOnce (h : Lowers adapter start gs ps σ ps' σ') :
    ∀ lp ∈ σ'.loops, lp ∈ σ.loops ∨ (CalmInside σ'.loops lp → lp.ReturnsOnce) := by
  induction h with
  | nil | inert | leave | keep | move => exact fun lp hlp => .inl hlp
  | cons _ hs ih ihs =>
    intro lp hlp
    rcases ihs lp hlp with hlp | hlp
    · exact (ih lp hlp).imp_right fun hx hcalm => hx fun inner hinner =>
        hcalm inner (hs.loops_prefix.subset hinner)
    · exact .inr hlp
  | node _ _ ih | markup _ _ ih | enter _ _ ih | loop _ _ ih | search _ _ _ ih | found _ _ ih =>
    exact ih
  | @site _ lp σ σ₁ σ₂ parent hm _ _ hleading hsubtree hledger hrecord _ _ _ ihl ihs =>
    intro inner hinner
    rcases List.mem_append.1 hinner with hinner | hinner
    · rcases ihs inner hinner with hinner | hinner
      · exact (ihl inner hinner).imp_right fun hx hcalm => hx fun x hx =>
          hcalm x (List.mem_append_left _ (hsubtree.loops_prefix.subset hx))
      · exact .inr fun hcalm => hinner fun x hx => hcalm x (List.mem_append_left _ hx)
    · obtain rfl := List.mem_singleton.1 hinner
      refine .inr fun hcalm => ?_
      have hinside {x : Lowered adapter} (hx : x ∈ σ₂.loops)
          (hin : locsOf [x.mapping.tree] ⊆ inner.mapping.region) : x.mapping.subtree.Silent :=
        hcalm x (List.mem_append_left _ hx)
          (hin (Multiset.mem_of_le x.mapping.region_le_tree x.mapping.callback_mem_region))
      have hfirst : Calm σ.loops σ₁.loops := by
        refine fun x hx => (hleading.locs_subset x hx).imp_right fun hin => ?_
        rw [inner.mapping.treesOf_leading, inner.mapping.locsOf_renamed] at hin
        exact hinside (hsubtree.loops_prefix.subset hx) (Multiset.Subset.trans hin
          (Multiset.subset_of_le inner.mapping.leading_le_region))
      have hnext : Calm σ₁.loops σ₂.loops := by
        refine fun x hx => (hsubtree.locs_subset x hx).imp_right fun hin => ?_
        exact hinside hx (Multiset.Subset.trans hin (Multiset.subset_of_le
          ((inner.mapping.locsOf_template_le _).trans inner.mapping.subtree_le_region)))
      have htemplate : (inner.mapping.renamed inner.tokens inner.mapping.subtree).Silent :=
        (inner.mapping.silent_renamed _).2 (hcalm inner
          (List.mem_append_right _ (List.mem_singleton_self inner))
          inner.mapping.callback_mem_region)
      constructor
      · intro t ht
        refine silent_all (hleading.silent hfirst) (fun p hp => ?_) (.statement t)
          (List.mem_map_of_mem ht)
        obtain ⟨u, hu, rfl⟩ := List.mem_map.1 hp
        have hno := hm.leading
        rw [List.any_eq_false] at hno
        exact (inner.mapping.silent_renamed _).2 (Bool.eq_false_iff.2 (hno u hu))
      · refine connects_silent.record hrecord fun x hx => ?_
        have hlog : σ₂.log = inner.ledger.log := by rw [Stage.log, hledger, Option.elim_some]
        rw [← hlog] at hx
        exact hsubtree.silent_held (by simp) (List.forall_mem_singleton.2 ⟨htemplate, by simp⟩)
          (by simp [Stage.log, Ledger.start, heldBy]) x hx

theorem LowersWhole.returnsOnce {a a' : Allocator} {t' : Located}
    (h : LowersWhole adapter start a t t' a' loops) :
    ∀ lp ∈ loops, CalmInside loops lp → lp.ReturnsOnce := by
  cases h with
  | inside hc h => exact fun lp hlp => (h.returnsOnce lp hlp).resolve_left List.not_mem_nil
  | @root parens m call lp inner _ hcall h =>
    -- where the wrapper of the root stands does not matter
    have hcalm {x : Lowered adapter}
        (hx : CalmInside (inner ++ [{ lp with wrapper := m.call }]) x) :
        CalmInside (inner ++ [lp]) x := by
      intro y hy
      rcases List.mem_append.1 hy with hy | hy
      · exact hx y (List.mem_append_left _ hy)
      · obtain rfl := List.mem_singleton.1 hy
        exact hx { y with wrapper := m.call } (List.mem_append_right _ (List.mem_singleton_self _))
    intro x hx hinside
    rcases List.mem_append.1 hx with hx | hx
    · exact (h.returnsOnce x (List.mem_append_left _ hx)).resolve_left List.not_mem_nil
        (hcalm hinside)
    · obtain rfl := List.mem_singleton.1 hx
      exact (h.returnsOnce lp (List.mem_append_right _ (List.mem_singleton_self lp))).resolve_left
        List.not_mem_nil (hcalm hinside)

end JsxLoops.Loop
