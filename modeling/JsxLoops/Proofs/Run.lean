import JsxLoops.Proofs.Descent
import JsxLoops.Proofs.Shape

/-!
Whole runs. `LowersWhole` says what a run makes of the tree below its root: the descent goes through
it, or the root itself is a loop and its wrapper takes its place. Every run on a store that is
tree-shaped below the root is such a run, and leaves the store tree-shaped.
-/

namespace JsxLoops.Loop

open JsxLoops.Tree Located

variable {adapter : Adapter} {start : Nat}

/-! ### Trees without markup -/

theorem hasMarkup_of_mem {l : Loc} {n : Node Located} {c : Located} (hc : c ∈ n.children)
    (h : c.hasMarkup = true) : (Located.node l n).hasMarkup = true := by
  have hany : (n.map hasMarkup).children.any id = true := by
    rw [Node.children_map, List.any_map, List.any_eq_true]
    exact ⟨c, hc, h⟩
  rw [hasMarkup, fold_node]
  cases n <;> first | rfl | exact hany | simp [Node.children] at hc

theorem hasMarkup_of_occurs {t u : Located} (h : Occurs u t) (hu : u.hasMarkup = true) :
    t.hasMarkup = true := by
  induction h with
  | self => exact hu
  | child hc _ ih => exact hasMarkup_of_mem hc ih

theorem hasMarkup_of_isMarkup {t : Located} (h : t.here.isMarkup = true) : t.hasMarkup = true := by
  obtain ⟨l, n⟩ := t
  rw [hasMarkup, fold_node]
  cases n <;> first | rfl | simp [Node.isMarkup] at h

theorem hasMarkup_of_candidate {t : Located} {c : Candidate} (h : candidateTree? t = .ok c) :
    t.hasMarkup = true := by
  obtain ⟨ps, m, rfl, hm, -⟩ := candidateTree?_eq_ok h
  exact hasMarkup_of_occurs (m.occurs_subtree.trans (occurs_inParens ps _))
    (hasMarkup_of_isMarkup hm.markup)

theorem Place.verdict_operand (under : List Premise) {v : Located} (h : v.hasMarkup = false) :
    Place.verdict (.operand under) v = .leave := by
  rw [Place.verdict]
  cases hc : candidateTree? v with
  | ok c => rw [hasMarkup_of_candidate hc] at h; cases h
  | error reason => simp [h]

theorem hasMarkup_eq_false_of_mem {l : Loc} {n : Node Located} {c : Located} (hc : c ∈ n.children)
    (h : (Located.node l n).hasMarkup = false) : c.hasMarkup = false := by
  cases hm : c.hasMarkup with
  | false => rfl
  | true => rw [hasMarkup_of_mem hc hm] at h; cases h

theorem Lowers.of_no_markup {gs : List Premise} {t : Located} (σ : Stage adapter)
    (h : t.hasMarkup = false) : Lowers adapter start gs [.node t] σ [.node t] σ := by
  obtain ⟨l, n⟩ := t
  have leave (under : List Premise) {v : Located} (hv : v ∈ n.children) :
      Lowers adapter start gs [.operand under v] σ [.operand under v] σ :=
    (Lowers.leave (Place.verdict_operand under (hasMarkup_eq_false_of_mem hv h)) :)
  cases n with
  | element e => rw [hasMarkup_of_isMarkup rfl] at h; cases h
  | fragment cs => rw [hasMarkup_of_isMarkup rfl] at h; cases h
  | conditional test yes no =>
    exact .node ⟨yes, no, rfl⟩ (.cons (leave _ (by simp [Node.children]))
      (leave _ (by simp [Node.children])))
  | logical op left right => exact .node ⟨right, rfl⟩ (leave _ (by simp [Node.children]))
  | paren inner => exact .node ⟨inner, rfl⟩ (leave _ (by simp [Node.children]))
  | _ => exact .node rfl .nil

/-! ### Single parts -/

@[simp] theorem Part.loop_ne_holding (m : Mapping) (place : Place) (v : Located) :
    Part.loop m ≠ place.holding v := by
  rcases place with (_ | _) | _ <;> simp [Place.holding]

@[simp] theorem Part.node_ne_holding (t : Located) (place : Place) (v : Located) :
    Part.node t ≠ place.holding v := by
  rcases place with (_ | _) | _ <;> simp [Place.holding]

theorem Place.holding_ne_statement (place : Place) (v t : Located) :
    place.holding v ≠ .statement t := by
  rcases place with (_ | _) | _ <;> simp [Place.holding]

theorem Lowers.of_nil {gs : List Premise} {ps' : List Part} {σ σ' : Stage adapter}
    (h : Lowers adapter start gs [] σ ps' σ') : ps' = [] ∧ σ' = σ := by
  cases h
  exact ⟨rfl, rfl⟩

theorem Lowers.of_node {gs : List Premise} {t t' : Located} {σ σ' : Stage adapter}
    (h : Lowers adapter start gs [.node t] σ [.node t'] σ') :
    t'.loc = t.loc ∧ SameAround t.here t'.here ∧
      Lowers adapter start gs (partsOf t.loc t.here) σ (partsOf t.loc t'.here) σ' := by
  generalize hps : [Part.node t] = ps at h
  generalize hps' : [Part.node t'] = ps' at h
  induction h with
  | cons h hs ih =>
    obtain ⟨rfl, rfl⟩ := List.cons.inj hps
    obtain ⟨rfl, rfl⟩ := List.cons.inj hps'
    obtain ⟨-, rfl⟩ := hs.of_nil
    exact ih rfl rfl
  | node hn h =>
    simp only [List.cons.injEq, Part.node.injEq, and_true] at hps hps'
    subst hps hps'
    exact ⟨rfl, hn, h⟩
  | inert h =>
    obtain rfl := List.singleton_inj.1 hps
    cases h
  | _ => simp at hps

theorem SameAround.isMarkup {n n' : Node Located} (h : SameAround n n')
    (hn : n.isMarkup = true) : n'.isMarkup = true := by
  cases n with
  | element e =>
    obtain ⟨as, cs, rfl, -⟩ := h
    rfl
  | fragment cs =>
    obtain ⟨cs', rfl⟩ := h
    rfl
  | _ => simp [Node.isMarkup] at hn

theorem isMarkup_renameFree (a b : String) (t : Located) :
    (t.renameFree a b).here.isMarkup = t.here.isMarkup := by
  obtain ⟨l, n⟩ := t
  rw [renameFree_node]
  split
  · rfl
  · cases n <;> rfl

theorem Mapping.isMarkup_renamed (m : Mapping) (tokens : Tokens) {t : Located}
    (h : t.here.isMarkup = true) : (m.renamed tokens t).here.isMarkup = true := by
  rw [Mapping.renamed]
  split
  · rwa [isMarkup_renameFree]
  · exact h

theorem Lowers.of_site {gs : List Premise} {m : Mapping} {w : Located} {σ σ' : Stage adapter}
    (h : Lowers adapter start gs [.loop m] σ [.wrapper w] σ') :
    ∃ (lp : Lowered adapter) (σ₁ σ₂ : Stage adapter), w = lp.tree ∧
      lp.mapping = m ∧ m.Valid ∧ lp.tokens = σ.allocator.allocate.1 ∧
      lp.parent = σ.ledger.map Ledger.id ∧
      Lowers adapter start [] (m.leading.map fun t => .statement (m.renamed lp.tokens t))
        ⟨σ.allocator.allocate.2, σ.loops, none⟩ (lp.leading.map .statement) σ₁ ∧
      Lowers adapter start [] [.node (m.renamed lp.tokens m.subtree)]
        { σ₁ with ledger := some (.start adapter (m.scope lp.tokens)
          (σ.ledger.elim [] fun L => L.outer ++ [L.scope]) lp.tokens) }
        [.node lp.subtree] σ₂ ∧
      σ₂.ledger = some lp.ledger ∧ σ'.allocator = σ₂.allocator ∧ σ'.loops = σ₂.loops ++ [lp] ∧
      (∀ inner ∈ σ₂.loops, inner.wrapper.index < lp.wrapper.index) ∧ start ≤ lp.wrapper.index ∧
      Bound gs lp σ.ledger σ'.ledger ∧
      IsRecord m.itemName lp.tokens.keyToken lp.ledger.log lp.record := by
  generalize hps : [Part.loop m] = ps at h
  generalize hps' : [Part.wrapper w] = ps' at h
  induction h with
  | cons h hs ih =>
    obtain ⟨rfl, rfl⟩ := List.cons.inj hps
    obtain ⟨rfl, rfl⟩ := List.cons.inj hps'
    obtain ⟨-, rfl⟩ := hs.of_nil
    exact ih rfl rfl
  | site lp hm htokens hparent hleading hsubtree hledger hrecord hwrapper hfresh hbound =>
    simp only [List.cons.injEq, Part.loop.injEq, Part.wrapper.injEq, and_true] at hps hps'
    subst hps hps'
    exact ⟨lp, _, _, rfl, rfl, hm, htokens, hparent, hleading, hsubtree, hledger, rfl, rfl, hfresh,
      hwrapper, hbound, hrecord⟩
  | inert h =>
    obtain rfl := List.singleton_inj.1 hps
    cases h
  | _ => simp at hps

theorem Lowers.of_loop {gs : List Premise} {m : Mapping} {w : Located} {σ σ' : Stage adapter}
    (h : Lowers adapter start gs [.loop m] σ [.wrapper w] σ') :
    ∃ (lp : Lowered adapter) (loops : List (Lowered adapter)), w = lp.tree ∧ lp.mapping = m ∧
      σ'.loops = loops ++ [lp] ∧ (∀ inner ∈ loops, inner.wrapper.index < lp.wrapper.index) ∧
      start ≤ lp.wrapper.index ∧ lp.parent = σ.ledger.map Ledger.id ∧
      Bound gs lp σ.ledger σ'.ledger := by
  obtain ⟨lp, σ₁, σ₂, hw, hm, -, -, hparent, -, -, -, -, hloops, hfresh, hwrapper, hbound,
    -⟩ := h.of_site
  exact ⟨lp, σ₂.loops, hw, hm, hloops, hfresh, hwrapper, hparent, hbound⟩

/-! ### Whole runs -/

/-- What a run makes of the tree below its root. A loop that is the root leaves its place to its
wrapper. -/
inductive LowersWhole (adapter : Adapter) (start : Nat) (a : Allocator) :
    Located → Located → Allocator → List (Lowered adapter) → Prop
  | inside {t t' : Located} {reason : Mismatch} {σ : Stage adapter}
    (hc : candidateTree? t = .error reason)
    (h : Lowers adapter start [] [.node t] ⟨a, [], none⟩ [.node t'] σ) :
    LowersWhole adapter start a t t' σ.allocator σ.loops
  | root {ps : List Loc} {m : Mapping} {call : Loc} {lp : Lowered adapter}
    {inner : List (Lowered adapter)} {a' : Allocator} (hcall : start ≤ call.index)
    (h : Lowers adapter start [] [.loop { m with call }] ⟨a, [], none⟩ [.wrapper lp.tree]
      ⟨a', inner ++ [lp], none⟩) :
    LowersWhole adapter start a (inParens ps m.tree)
      (inParens ps (Lowered.tree { lp with wrapper := m.call })) a'
      (inner ++ [{ lp with wrapper := m.call }])

theorem moveWrapper_last {inner : List (Lowered adapter)} {lp : Lowered adapter} (target : Loc)
    (h : ∀ x ∈ inner, x.wrapper.index < lp.wrapper.index) :
    moveWrapper lp.wrapper target ((inner ++ [lp]).map Lowered.site) =
      (inner ++ [{ lp with wrapper := target }]).map Lowered.site := by
  have hinner : (inner.map Lowered.site).findIdx (·.wrapper = lp.wrapper) =
      (inner.map Lowered.site).length := by
    refine List.findIdx_eq_length.2 fun site hsite => ?_
    obtain ⟨x, hx, rfl⟩ := List.mem_map.1 hsite
    refine decide_eq_false fun he => Nat.lt_irrefl lp.wrapper.index ?_
    nth_rewrite 1 [← he]
    exact h x hx
  have hidx : ((inner ++ [lp]).map Lowered.site).findIdx (·.wrapper = lp.wrapper) =
      (inner.map Lowered.site).length := by
    rw [List.map_append, List.findIdx_append, hinner, if_neg (Nat.lt_irrefl _)]
    simp [Lowered.site]
  rw [moveWrapper, hidx, List.map_append, List.map_append]
  exact modify_append_cons _ _ _ _

theorem length_moveWrapper (source target : Loc) (sites : List Site) :
    (moveWrapper source target sites).length = sites.length :=
  List.length_modify _ _ _

theorem relocate_owns {s : Store} {l : Loc} {n : Node Located} {rest : Multiset Cell}
    (h : s.Owns ((Located.node l n).cells + rest)) :
    (s.relocate l).2.Owns ((Located.node ⟨s.size⟩ n).cells + ({⟨l, .literal ""⟩} + rest)) := by
  rw [cells_node, add_assoc] at h
  have hget := h.get_head
  have hadd := (h.put (.literal "")).add (n.map loc)
  rw [Store.relocate, hget]
  refine hadd.congr ?_
  rw [cells_node, Store.add, Store.size_put]
  abel

theorem moveNode_runs {s : Store} {w l : Loc} {n : Node Located} {x : Node Loc}
    {rest : Multiset Cell} (h : s.Owns ((Located.node w n).cells + ({⟨l, x⟩} + rest))) :
    ∃ s', Runs (do
        let n ← Edit.node w
        Edit.put w (.literal "")
        Edit.put l n) s () s' ∧ s'.Owns ((Located.node l n).cells + rest) := by
  rw [cells_node, add_assoc] at h
  refine ⟨_, .node_bind h.get_head rfl, ?_⟩
  have hput := ((h.put (.literal "")).congr (show _ = {⟨l, x⟩} +
    ({⟨w, .literal ""⟩} + (cellsOf n.children + rest)) by abel)).put (n.map loc)
  refine hput.drop {⟨w, .literal ""⟩} ?_
  rw [cells_node]
  abel

theorem lowerRootSite_runs {s : Store} {a : Allocator} {before : List Site} {ps : List Loc}
    {m : Mapping} {F : Multiset Cell} (hm : m.Valid)
    (h : s.Owns ((inParens ps m.tree).cells + F)) :
    ∃ t' p' loops, Runs (lowerRootSite adapter s.size m.candidate) ⟨s, a, before⟩ () p' ∧
      t'.loc = (inParens ps m.tree).loc ∧ p'.store.Owns (t'.cells + F) ∧
      LowersWhole adapter s.size a (inParens ps m.tree) t' p'.allocator loops ∧
      p'.sites.length = before.length + loops.length ∧
      (before = [] → p'.sites = loops.map Lowered.site) := by
  let m' : Mapping := { m with call := ⟨s.size⟩ }
  have hs : s.Shows m.tree :=
    h.shows ((occurs_inParens ps m.tree).cells_le.trans (Multiset.le_add_right _ _))
  rw [cells_inParens, add_comm (parenCells ps _), add_assoc] at h
  have hheight : m'.tree.height ≤ s.size := by
    have hd := hs.deep
    rw [Mapping.tree, Mapping.withCallback, height_node] at hd ⊢
    exact hd
  -- the call moves to a fresh place
  have hmoved : (s.relocate m.call).2.Owns
      (m'.tree.cells + ({⟨m.call, .literal ""⟩} + (parenCells ps m.call + F))) := relocate_owns h
  have hrun₁ : Runs (Edit.relocate m.call) s ⟨s.size⟩ (s.relocate m.call).2 := by
    rw [Runs, Edit.relocate, Store.relocate, Store.add, Store.size_put]
  obtain ⟨w, σ, p₂, hrun₂, hat, hlow⟩ :=
    (lowerTo_follows adapter s.size before s.size).site (m := m') ⟨hm.params, hm.leading, hm.markup⟩
    [] (σ := ⟨a, [], none⟩) (F := {⟨m.call, .literal ""⟩} + (parenCells ps m.call + F))
    (p := ⟨(s.relocate m.call).2, a, before⟩) hheight
    ⟨rfl, by simp, by simp [Store.relocate], by simp, hmoved.congr (zero_add _).symm⟩ (by simp)
  obtain ⟨lp, inner, rfl, -, hloops, hfresh, -⟩ := hlow.of_loop
  have hσ : σ = ⟨σ.allocator, inner ++ [lp], none⟩ := by
    rw [← hloops, ← hlow.continues.eq_none rfl]
  -- its wrapper moves to the place that is free now
  have hown : p₂.store.Owns
      (lp.tree.cells + ({⟨m.call, .literal ""⟩} + (parenCells ps m.call + F))) :=
    hat.owns.mono (Multiset.le_add_left _ _)
  obtain ⟨s₃, hrun₃, hown₃⟩ := moveNode_runs hown
  refine ⟨inParens ps (Lowered.tree { lp with wrapper := m.call }),
    ⟨s₃, p₂.allocator, moveWrapper lp.wrapper m.call p₂.sites⟩,
    inner ++ [{ lp with wrapper := m.call }], ?_, ?_, ?_, ?_, ?_, ?_⟩
  · exact (Runs.edit ⟨s, a, before⟩ hrun₁).bind (hrun₂.bind ((Runs.edit p₂ hrun₃).bind rfl))
  · cases ps <;> rfl
  · rw [cells_inParens, add_comm (parenCells ps _), add_assoc]
    exact hown₃
  · rw [hat.allocator]
    rw [hσ] at hlow
    exact .root le_rfl hlow
  · rw [length_moveWrapper, hat.sites, hloops]
    simp
  · intro hb
    rw [hat.sites, hb, List.nil_append, hloops, moveWrapper_last _ hfresh]

theorem pairwise_mergeSort_id (sites : List Site) :
    (sites.mergeSort fun x y => x.id ≤ y.id).Pairwise fun x y => x.id ≤ y.id := by
  have h : (sites.mergeSort fun x y => decide (x.id ≤ y.id)).Pairwise
      fun x y => decide (x.id ≤ y.id) = true := List.pairwise_mergeSort
    (fun x y z hxy hyz => by
      rw [decide_eq_true_eq] at *
      exact UInt32.le_trans hxy hyz)
    (fun x y => by
      rw [Bool.or_eq_true, decide_eq_true_eq, decide_eq_true_eq]
      exact UInt32.le_total x.id y.id) sites
  exact h.imp of_decide_eq_true

theorem lowerRoot_runs (adapter : Adapter) {s : Store} {t : Located} {F : Multiset Cell}
    (h : s.Owns (t.cells + F)) (a : Allocator) (before : List Site) :
    ∃ t' p' loops, Runs (match candidateTree? t with
      | .ok c => lowerRootSite adapter s.size c
      | .error _ => if t.hasMarkup then discard (lowerTo adapter s.size t.loc [] none)
          else return ()) ⟨s, a, before⟩ () p' ∧
      t'.loc = t.loc ∧ p'.store.Owns (t'.cells + F) ∧
      LowersWhole adapter s.size a t t' p'.allocator loops ∧
      p'.sites.length = before.length + loops.length ∧
      (before = [] → p'.sites = loops.map Lowered.site) := by
  have hs : s.Shows t := h.shows (Multiset.le_add_right _ _)
  cases hc : candidateTree? t with
  | ok c =>
    obtain ⟨ps, m, rfl, hm, rfl⟩ := candidateTree?_eq_ok hc
    exact lowerRootSite_runs hm h
  | error reason =>
    cases hmarkup : t.hasMarkup with
    | false =>
      exact ⟨t, _, [], .pure _ _, rfl, h, .inside hc (.of_no_markup _ hmarkup), rfl, fun hb => hb⟩
    | true =>
      obtain ⟨t', σ', p', hrun, hat, hloc, hlow⟩ := lowerTo_follows adapter s.size before s.size []
        (t := t) (σ := ⟨a, [], none⟩) (F := F) (p := ⟨s, a, before⟩) hs.deep
        ⟨rfl, by simp, le_rfl, by simp, by simpa [Stage.held] using h⟩ (by simp)
      refine ⟨t', p', σ'.loops, (hrun.map _).bind (.pure _ _), hloc,
        hat.owns.mono (Multiset.le_add_left _ _), ?_, ?_, ?_⟩
      · rw [hat.allocator]
        exact .inside hc hlow
      · simp [hat.sites]
      · intro hb
        rw [hat.sites, hb, List.nil_append]

theorem lowerLoops_sorted {root : Loc} {p p' : Pass}
    (h : Runs (match candidate? p.store root with
      | .ok c => lowerRootSite adapter p.store.size c
      | .error _ => if p.store.hasMarkup root then
          discard (lowerTo adapter p.store.size root [] none) else return ()) p () p') :
    lowerLoops adapter root p =
      let sites := p'.sites.mergeSort fun x y => x.id ≤ y.id
      (sites.length - p.sites.length, { p' with sites }) := by
  have hend : Runs (do
      let sites := (← get).sites.mergeSort fun x y => x.id ≤ y.id
      modify fun p => { p with sites }
      return sites.length - p.sites.length) p' _
      { p' with sites := p'.sites.mergeSort fun x y => x.id ≤ y.id } := rfl
  refine Runs.get_bind ?_
  cases hc : candidate? p.store root with
  | ok c =>
    rw [hc] at h
    exact h.bind hend
  | error reason =>
    rw [hc] at h
    cases hm : p.store.hasMarkup root with
    | false =>
      rw [hm] at h
      obtain rfl : p = p' := congrArg Prod.snd h
      exact hend
    | true =>
      rw [hm] at h
      exact Runs.bind (h : Runs (discard (lowerTo adapter p.store.size root [] none)) _ _ _) hend

theorem lowerLoops_beside (adapter : Adapter) {s : Store} {t : Located} {F : Multiset Cell}
    (h : s.Owns (t.cells + F)) (a : Allocator) (before : List Site) :
    ∃ t' p' loops, Runs (lowerLoops adapter t.loc) ⟨s, a, before⟩ loops.length p' ∧
      t'.loc = t.loc ∧ p'.store.Owns (t'.cells + F) ∧
      LowersWhole adapter s.size a t t' p'.allocator loops ∧
      p'.sites.Pairwise (fun x y => x.id ≤ y.id) ∧
      (before = [] → p'.sites = (loops.map Lowered.site).mergeSort fun x y => x.id ≤ y.id) := by
  have hs : s.Shows t := h.shows (Multiset.le_add_right _ _)
  obtain ⟨t', p', loops, hrun, hloc, hown, hlow, hlen, hsites⟩ := lowerRoot_runs adapter h a before
  let sites := p'.sites.mergeSort fun x y => x.id ≤ y.id
  refine ⟨t', { p' with sites }, loops, ?_, hloc, hown, hlow, pairwise_mergeSort_id _,
    fun hb => by rw [← hsites hb]⟩
  rw [← candidate?_eq hs, ← hs.hasMarkup] at hrun
  have hcount : sites.length - before.length = loops.length := by
    rw [List.length_mergeSort, hlen, Nat.add_sub_cancel_left]
  rw [← hcount]
  exact lowerLoops_sorted (p := ⟨s, a, before⟩) hrun

theorem lowerLoops_runs (adapter : Adapter) {s : Store} {t : Located} (h : s.Owns t.cells)
    (a : Allocator) (before : List Site) :
    ∃ t' p' loops, Runs (lowerLoops adapter t.loc) ⟨s, a, before⟩ loops.length p' ∧
      t'.loc = t.loc ∧ p'.store.Owns t'.cells ∧
      LowersWhole adapter s.size a t t' p'.allocator loops ∧
      p'.sites.Pairwise (fun x y => x.id ≤ y.id) ∧
      (before = [] → p'.sites = (loops.map Lowered.site).mergeSort fun x y => x.id ≤ y.id) := by
  simpa using lowerLoops_beside adapter (F := 0) (by simpa using h) a before

theorem lowerLoops_isTree (adapter : Adapter) {s : Store} {root : Loc} (h : s.IsTree root)
    (a : Allocator) : ∃ t' loops,
      LowersWhole adapter s.size a (s.treeAt root) t'
        (lowerLoops adapter root ⟨s, a, []⟩).2.allocator loops ∧
      (lowerLoops adapter root ⟨s, a, []⟩).1 = loops.length ∧ t'.loc = root ∧
      (lowerLoops adapter root ⟨s, a, []⟩).2.store.Owns t'.cells ∧
      (lowerLoops adapter root ⟨s, a, []⟩).2.sites =
        (loops.map Lowered.site).mergeSort fun x y => x.id ≤ y.id := by
  obtain ⟨t', p, loops, hrun, hloc, hown, hlow, -, hsites⟩ :=
    lowerLoops_runs adapter h.owns_treeAt a []
  rw [Store.loc_treeAt] at hrun hloc
  rw [show lowerLoops adapter root ⟨s, a, []⟩ = (loops.length, p) from hrun]
  exact ⟨t', loops, hlow, rfl, hloc, hown, hsites rfl⟩

theorem lowerLoops_sites (adapter : Adapter) {s : Store} {root : Loc} (h : s.IsTree root)
    (a : Allocator) :
    let p := (lowerLoops adapter root ⟨s, a, []⟩).2
    ∃ t' loops, LowersWhole adapter s.size a (s.treeAt root) t' p.allocator loops ∧
      t'.loc = root ∧ p.store.Owns t'.cells ∧
      ∀ site, site ∈ p.sites ↔ ∃ lp ∈ loops, lp.site = site := by
  obtain ⟨t', loops, hrun, -, hloc, hown, hsites⟩ := lowerLoops_isTree adapter h a
  refine ⟨t', loops, hrun, hloc, hown, fun site => ?_⟩
  rw [hsites, List.mem_mergeSort, List.mem_map]

/-- A loop in a loop: `<ul>{items.map((item, i) => <li style={item.look}>{item.name}` with
`{item.tags.map((tag) => <b>{tag}{i}</b>)}</li>)}</ul>`. -/
def nestedLoops : Store where
  nodes := #[.name "items", .member ⟨0⟩ "map" false, .name "item", .member ⟨2⟩ "look" false,
    .name "item", .member ⟨4⟩ "name" false, .container ⟨5⟩, .name "item",
    .member ⟨7⟩ "tags" false, .member ⟨8⟩ "map" false, .name "tag", .container ⟨10⟩, .name "i",
    .container ⟨12⟩, .element ⟨"b", [], [⟨11⟩, ⟨13⟩], false⟩,
    .lambda ⟨.arrow, false, false, [.plain "tag"], .value ⟨14⟩⟩, .call ⟨9⟩ [⟨15⟩],
    .container ⟨16⟩,
    .element ⟨"li", [.named "style" (.expression ⟨3⟩)], [⟨6⟩, ⟨17⟩], false⟩,
    .lambda ⟨.arrow, false, false, [.plain "item", .plain "i"], .value ⟨18⟩⟩,
    .call ⟨1⟩ [⟨19⟩], .container ⟨20⟩, .element ⟨"ul", [], [⟨21⟩], false⟩]

theorem nestedLoops_isTree : nestedLoops.IsTree ⟨22⟩ :=
  Store.isTree_of_filled (by decide) (by decide) (by decide)

end JsxLoops.Loop
