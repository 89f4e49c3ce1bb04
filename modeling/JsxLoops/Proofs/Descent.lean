import JsxLoops.Proofs.Wrapping

/-!
The descent does what the relation says. Each step of the lowering is run on a store that owns the
tree it works on; it ends in a store that owns the lowered tree, and the two trees are related by
`Lowers`. Everything else that is owned is left alone.
-/

namespace JsxLoops.Loop

open JsxLoops.Tree Located

variable {adapter : Adapter}

/-! ### Leaves -/

theorem lowerLeaf_keeps {s : Store} {L : Ledger adapter} {v : Located} {position : Option String}
    (h : s.Shows v) (hl : L.takes v = false) :
    Runs (lowerLeaf adapter position v.loc L.owner) s (none, L.owner) s := by
  refine Runs.get_bind ?_
  rw [h.stripParens, h.strip.get_loc, h.freeNames]
  rw [Ledger.takes] at hl
  cases hn : v.strip.here with
  | lambda f => exact .pure _ s
  | _ =>
    simp only [hn] at hl
    simp only [Node.map, hl]
    exact .pure _ s

theorem Gives.styleCall {s : Store} {v : Located} {rest : Multiset Cell} (createStyle : String)
    (h : s.Owns (v.cells + rest)) :
    Gives (Edit.callNamed createStyle [v.loc]) s rest fun t => ∃ call callee,
      t = .node call (.call (.node callee (.name createStyle)) [v]) := by
  refine (Gives.name createStyle h).bind fun f s' _ hown hf => ?_
  refine (Gives.add (.call f [v]) (hown.congr ?_)).mono fun t ht => ⟨t.loc, f.loc, ?_⟩
  · simp only [Node.children, cellsOf_cons, cellsOf_nil]
    abel
  · rw [← hf, eta, ← ht.1, eta]

theorem lowerLeaf_runs {s s' : Store} {L : Ledger adapter} {v : Located} {position : Option String}
    {x : Option String × Owner} (h : s.Shows v) (hl : L.takes v = true)
    (hrun : Runs (match leafOf adapter L.scope position v with
      | .item => return (some (L.owner.path L.owner.scope.item),
          { L.owner with draft := L.owner.draft.noteItem v.loc })
      | .style => do
        let (field, draft) ← L.owner.draft.pushStyle v.loc adapter.createStyle
        return (some (L.owner.path field), { L.owner with draft })
      | shape =>
        let (field, draft) := L.owner.draft.pushDynamic shape.dependency v.loc v.loc
        return (some (L.owner.path field), { L.owner with draft })) s x s') :
    Runs (lowerLeaf adapter position v.loc L.owner) s x s' := by
  refine Runs.get_bind ?_
  rw [h.stripParens, h.strip.get_loc, h.freeNames, leafShape_eq h]
  rw [Ledger.takes] at hl
  cases hn : v.strip.here with
  | lambda f => simp [hn] at hl
  | _ =>
    simp only [hn] at hl
    simp only [Node.map, hl]
    exact hrun

theorem lowerLeaf_moves {s : Store} {L : Ledger adapter} {v : Located} (spot : Spot)
    {rest : Multiset Cell} (h : s.Owns (cellsOf (heldBy L.log) + (v.cells + rest)))
    (hl : L.takes v = true) :
    ∃ (e : Event) (d : Draft) (hn : Noted adapter L.scope L.draft e d) (s' : Store),
      Runs (lowerLeaf adapter spot.position v.loc L.owner) s
        (some (L.path e), (L.note hn).owner) s' ∧ s.size ≤ s'.size ∧
      s'.Owns (cellsOf (heldBy (L.note hn).log) + rest) ∧ e.use = .spot spot ∧ e.source = v := by
  have hv : s.Shows v :=
    h.shows ((Multiset.le_add_right _ _).trans (Multiset.le_add_left _ _))
  have value (shape : LeafShape) (hs : shape = .index ∨ shape = .computed)
      (hleaf : leafOf adapter L.scope spot.position v = shape) :
      s.Owns (cellsOf (heldBy (L.note (.value spot v shape hs hleaf)).log) + rest) := by
    refine h.congr ?_
    simp only [Ledger.note, heldBy_append, cellsOf_append]
    simp only [heldBy, List.flatMap_cons, List.flatMap_nil, Event.held, List.append_nil,
      cellsOf_cons, cellsOf_nil]
    abel
  cases hleaf : leafOf adapter L.scope spot.position v with
  | item =>
    have hrun := lowerLeaf_runs hv hl (by rw [hleaf]; exact .pure _ s)
    refine ⟨_, _, .item spot v hleaf, s, hrun, le_rfl, h.mono ?_, rfl, rfl⟩
    simp only [Ledger.note, heldBy_append, cellsOf_append]
    simp only [heldBy, List.flatMap_cons, List.flatMap_nil, Event.held, List.append_nil,
      cellsOf_nil, add_zero]
    exact add_le_add_right (Multiset.le_add_left _ _) _
  | index =>
    have hrun := lowerLeaf_runs hv hl (by rw [hleaf]; exact .pure _ s)
    exact ⟨_, _, .value spot v .index (.inl rfl) hleaf, s, hrun, le_rfl,
      value .index (.inl rfl) hleaf, rfl, rfl⟩
  | computed =>
    have hrun := lowerLeaf_runs hv hl (by rw [hleaf]; exact .pure _ s)
    exact ⟨_, _, .value spot v .computed (.inr rfl) hleaf, s, hrun, le_rfl,
      value .computed (.inr rfl) hleaf, rfl, rfl⟩
  | style =>
    obtain ⟨t, s', hrun, hle, hown, call, callee, rfl⟩ :=
      Gives.styleCall adapter.createStyle (h.congr (add_left_comm _ _ _))
    refine ⟨_, _, .style spot v call callee hleaf, s', ?_, hle, hown.congr ?_, rfl, rfl⟩
    · have hpush : Runs (L.owner.draft.pushStyle v.loc adapter.createStyle) s
          ("_s" ++ toString L.draft.styleCount,
            { L.draft.pushSlot .styleValue v.loc ("_s" ++ toString L.draft.styleCount) with
              fields := L.draft.fields ++ [("_s" ++ toString L.draft.styleCount, call)]
              styleCount := L.draft.styleCount + 1 }) s' := hrun.bind (.pure _ s')
      exact lowerLeaf_runs hv hl (by rw [hleaf]; exact hpush.bind (.pure _ s'))
    · simp only [Ledger.note, heldBy_append, cellsOf_append]
      simp only [heldBy, List.flatMap_cons, List.flatMap_nil, Event.held, List.append_nil,
        cellsOf_cons, cellsOf_nil]
      abel

/-! ### Stages -/

namespace Stage

def owner (σ : Stage adapter) : Option Owner := σ.ledger.map Ledger.owner

/-- The trees that were moved into the record of the loop around. -/
def held (σ : Stage adapter) : List Located := σ.ledger.elim [] fun L => heldBy L.log

end Stage

/-- The pass has come to a stage. It owns some cells, besides what was moved into the record. -/
structure At (start : Nat) (before : List Site) (σ : Stage adapter) (cells : Multiset Cell)
    (p : Pass) : Prop where
  allocator : p.allocator = σ.allocator
  sites : p.sites = before ++ σ.loops.map Lowered.site
  size : start ≤ p.store.size
  wrappers : ∀ lp ∈ σ.loops, lp.wrapper.index < p.store.size
  owns : p.store.Owns (cellsOf σ.held + cells)

section

variable {start : Nat} {before : List Site} {σ : Stage adapter} {cells F : Multiset Cell} {p : Pass}

theorem At.congr {cells' : Multiset Cell} (h : At start before σ cells p) (he : cells = cells') :
    At start before σ cells' p := he ▸ h

theorem At.shows {t : Located} (h : At start before σ cells p) (ht : t.cells ≤ cells) :
    p.store.Shows t :=
  h.owns.shows (ht.trans (Multiset.le_add_left _ _))

theorem At.edit {cells' : Multiset Cell} {s : Store} (h : At start before σ cells p)
    (hle : p.store.size ≤ s.size) (hs : s.Owns (cellsOf σ.held + cells')) :
    At start before σ cells' { p with store := s } :=
  ⟨h.allocator, h.sites, h.size.trans hle, fun lp hlp => (h.wrappers lp hlp).trans_le hle, hs⟩

theorem Runs.edit {α : Type} {e : Edit α} {a : α} {s : Store} (p : Pass)
    (h : Runs e p.store a s) : Runs (Lower.edit e) p a { p with store := s } := by
  rw [Runs] at h ⊢
  show ((e p.store).1, { p with store := (e p.store).2 }) = _
  rw [h]

theorem Runs.store_bind {β : Type} {f : Store → Lower β} {b : β} {p' : Pass}
    (hf : Runs (f p.store) p b p') : Runs (Lower.store >>= f) p b p' := hf

/-- The lowering of trees that are at most `depth` nodes deep does what the relation says. -/
def Follows (adapter : Adapter) (start : Nat) (before : List Site)
    (inside : Loc → List Guard → Option Owner → Lower (Option Owner)) (depth : Nat) : Prop :=
  ∀ (gs : List Premise) {t : Located} {σ : Stage adapter} {F : Multiset Cell} {p : Pass},
    t.height ≤ depth → At start before σ (t.cells + F) p → (∀ g ∈ gs, g.tree.cells ≤ F) →
    ∃ t' σ' p', Runs (inside t.loc (gs.map Premise.guard) σ.owner) p σ'.owner p' ∧
      At start before σ' (t'.cells + F) p' ∧ t'.loc = t.loc ∧
      Lowers adapter start gs [.node t] σ [.node t'] σ'

/-! ### Statements -/

variable {inside : Loc → List Guard → Option Owner → Lower (Option Owner)} {depth : Nat}

/-- Lowering the markup in a statement does what the relation says. -/
def Searches (adapter : Adapter) (start : Nat) (before : List Site)
    (inside : Loc → List Guard → Option Owner → Lower (Option Owner)) (t : Located) : Prop :=
  ∀ {σ : Stage adapter} {F : Multiset Cell} {p : Pass}, σ.ledger = none →
    At start before σ (t.cells + F) p →
    ∃ t' σ' p', Runs (t.markup.forM fun root => discard (inside root [] none)) p () p' ∧
      At start before σ' (t'.cells + F) p' ∧ t'.loc = t.loc ∧ σ'.ledger = none ∧
      Lowers adapter start [] [.statement t] σ [.statement t'] σ'

theorem Runs.forM_append {τ α : Type} {f : α → StateM τ Unit} {xs ys : List α} {s s' s'' : τ}
    (hx : Runs (xs.forM f) s () s') (hy : Runs (ys.forM f) s' () s'') :
    Runs ((xs ++ ys).forM f) s () s'' := by
  show Runs (forM (xs ++ ys) f) s () s''
  rw [List.forM_append]
  exact hx.bind hy

theorem Searches.list {ts : List Located} (hts : ∀ t ∈ ts, Searches adapter start before inside t)
    (hσ : σ.ledger = none) (h : At start before σ (cellsOf ts + F) p) :
    ∃ ts' σ' p', Runs ((ts.flatMap markup).forM fun root => discard (inside root [] none)) p () p' ∧
      At start before σ' (cellsOf ts' + F) p' ∧ ts'.map loc = ts.map loc ∧ σ'.ledger = none ∧
      Lowers adapter start [] (ts.map .statement) σ (ts'.map .statement) σ' := by
  induction ts generalizing σ F p with
  | nil => exact ⟨[], σ, p, .pure _ p, h, rfl, hσ, .nil⟩
  | cons t ts ih =>
    obtain ⟨t', σ₁, p₁, hrun₁, hat₁, hloc₁, hσ₁, hlow₁⟩ := hts t List.mem_cons_self hσ
      (h.congr (by rw [cellsOf_cons, add_assoc]))
    obtain ⟨ts', σ₂, p₂, hrun₂, hat₂, hloc₂, hσ₂, hlow₂⟩ :=
      ih (fun x hx => hts x (List.mem_cons_of_mem t hx)) hσ₁ (hat₁.congr (add_left_comm _ _ _))
    refine ⟨t' :: ts', σ₂, p₂, ?_, hat₂.congr ?_, by simp [hloc₁, hloc₂], hσ₂, .cons hlow₁ hlow₂⟩
    · rw [List.flatMap_cons]
      exact Runs.forM_append hrun₁ hrun₂
    · rw [cellsOf_cons]
      abel

theorem refill_map_loc {n : Node Located} {cs : List Located}
    (h : cs.map loc = n.children.map loc) :
    (n.refill cs).children = cs ∧ (n.refill cs).shape = n.shape ∧
      (n.refill cs).map loc = n.map loc := by
  have hlen : cs.length = n.children.length := by simpa using congrArg List.length h
  obtain ⟨hkids, hshape⟩ := Node.children_refill n cs hlen
  exact ⟨hkids, hshape, Node.ext_of_shape (by simpa using hshape) (by simpa [hkids] using h)⟩

theorem markup_node (l : Loc) (n : Node Located) :
    (Located.node l n).markup = if n.isMarkup then [l] else n.children.flatMap markup := by
  rw [markup, fold_node]
  split
  · rfl
  · rw [Node.children_map, List.flatMap_map]
    rfl

theorem Follows.searches (hin : Follows adapter start before inside depth) {t : Located}
    (ht : t.height ≤ depth) : Searches adapter start before inside t := by
  induction t using induct with
  | node l n ih =>
    intro σ F p hσ h
    rw [markup_node]
    split
    case isTrue hm =>
      obtain ⟨t', σ', p', hrun, hat, hloc, hlow⟩ := hin [] ht h (by simp)
      have hσ' : σ'.ledger = none := hlow.continues.eq_none hσ
      have howner : σ.owner = none := by rw [Stage.owner, hσ, Option.map_none]
      rw [howner] at hrun
      exact ⟨t', σ', p', (hrun.map _).bind (.pure () p'), hat, hloc, hσ', .found hm hlow⟩
    case isFalse hm =>
      have hkids : ∀ c ∈ n.children, Searches adapter start before inside c := fun c hc =>
        ih c hc ((height_lt_of_mem hc).le.trans ht)
      obtain ⟨cs, σ', p', hrun, hat, hloc, hσ', hlow⟩ := Searches.list hkids hσ
        (F := {⟨l, n.map loc⟩} + F) (h.congr (by rw [cells_node]; abel))
      obtain ⟨hcs, hshape, hhead⟩ := refill_map_loc hloc
      refine ⟨.node l (n.refill cs), σ', p', hrun, hat.congr ?_, rfl, hσ', ?_⟩
      · rw [cells_node, hcs, hhead]
        abel
      · exact .search (by simpa using hm) hshape (by rwa [hcs])

/-! ### Loops -/

theorem finishSite_runs {m : Mapping} {tokens : Tokens} {gs : List Premise} {leading : List Located}
    {subtree : Located} {body : Body Loc} {L : Ledger adapter} {parent : Option (Ledger adapter)}
    {a : Allocator} {loops : List (Lowered adapter)}
    (hleading : leading.map loc = m.candidate.leading)
    (hsubtree : subtree.loc = m.candidate.subtree)
    (hscope : L.scope.item = m.itemName) (hkey : L.keyToken = tokens.keyToken)
    (hg : ∀ g ∈ gs, g.tree.cells ≤ F)
    (h : At start before ⟨a, loops, some L⟩ (subtree.cells + (cellsOf leading + (m.around +
      ({⟨m.callback, .lambda ⟨m.form, false, false,
        [.plain m.itemName, .plain tokens.indexName], body⟩⟩} +
      (cellsOf (parent.elim [] fun L => heldBy L.log) + F))))) p) :
    ∃ (lp : Lowered adapter) (parent' : Option (Ledger adapter)) (p' : Pass),
      Runs (finishSite adapter m.candidate tokens L.draft (gs.map Premise.guard)
        (parent.map Ledger.owner)) p (lp.wrapper, parent'.map Ledger.owner) p' ∧
      At start before ⟨a, loops ++ [lp], parent'⟩ (lp.tree.cells + F) p' ∧
      lp.mapping = m ∧ lp.tokens = tokens ∧ lp.parent = parent.map Ledger.id ∧
      lp.leading = leading ∧ lp.subtree = subtree ∧ lp.ledger = L ∧
      IsRecord m.itemName tokens.keyToken L.log lp.record ∧ start ≤ lp.wrapper.index ∧
      (∀ inner ∈ loops, inner.wrapper.index < lp.wrapper.index) ∧ Bound gs lp parent parent' := by
  obtain ⟨record, s₁, hrun₁, hle₁, hown₁, hrecord⟩ := Gives.build L.logged h.owns
  rw [hscope, hkey] at hrecord
  obtain ⟨last, s₂, hrun₂, hle₂, hown₂⟩ := returnRecord_runs (hown₁.congr
    (show _ = {⟨m.callback, .lambda ⟨m.form, false, false,
        [.plain m.itemName, .plain tokens.indexName], body⟩⟩} +
      (cellsOf leading + (record.cells + (subtree.cells + (m.around +
        (cellsOf (parent.elim [] fun L => heldBy L.log) + F))))) by abel))
  let call : Located := m.withCallback [.plain m.itemName, .plain tokens.indexName]
    (.block (leading ++ [node last (.returning (some record))]))
  have hcall : call.cells = m.around + (Located.node m.callback (.lambda ⟨m.form, false, false,
      [.plain m.itemName, .plain tokens.indexName],
      .block (leading ++ [node last (.returning (some record))])⟩)).cells := by
    rw [Mapping.cells_withCallback, cells_node]
    rfl
  obtain ⟨w, s₃, hrun₃, hle₃, hown₃, hw, hfresh⟩ := Gives.wrapSubtree adapter m.itemName
    tokens.indexName (hown₂.congr (show _ = subtree.cells + (call.cells +
      (cellsOf (parent.elim [] fun L => heldBy L.log) + F)) by rw [hcall]; abel))
  have hsize : p.store.size ≤ w.loc.index := hle₁.trans (hle₂.trans hfresh)
  have hlater : ∀ inner ∈ loops, inner.wrapper.index < w.loc.index := fun inner hi =>
    (h.wrappers inner hi).trans_le hsize
  have hlt : w.loc.index < s₃.size :=
    hown₃.bound _ (Multiset.mem_add.2 (.inl (root_mem_cells w)))
  have hwe : w = .node w.loc (wrapperNode adapter m.itemName tokens.indexName call
      (handedOver subtree)) := by rw [← hw, eta]
  have hle : p.store.size ≤ s₃.size := hle₁.trans (hle₂.trans hle₃)
  let loop (source : Located) (binding : Binding) : Lowered adapter :=
    ⟨m, tokens, parent.map Ledger.id, leading, subtree, L, record, last, source, binding, w.loc⟩
  have hwrappers (source : Located) (binding : Binding) :
      ∀ lp ∈ loops ++ [loop source binding], lp.wrapper.index < s₃.size := by
    intro lp hlp
    rcases List.mem_append.1 hlp with hlp | hlp
    · exact (h.wrappers lp hlp).trans_le hle
    · rw [List.mem_singleton.1 hlp]
      exact hlt
  rw [hleading] at hrun₂
  rw [hsubtree] at hrun₃
  cases parent with
  | none =>
    refine ⟨loop call .inline, none, { p with
      store := s₃, sites := p.sites ++ [(loop call .inline).site] }, ?_,
      ?_, rfl, rfl, rfl, rfl, rfl,
      rfl, hrecord, h.size.trans hsize, hlater, .inline rfl rfl⟩
    · refine (Runs.edit p hrun₁).bind ((Runs.edit _ hrun₂).bind ((Runs.edit _ hrun₃).bind ?_))
      simp only [loop, Lowered.site, hleading, hsubtree]
      rfl
    · refine ⟨h.allocator, ?_, h.size.trans hle, hwrappers _ _, ?_⟩
      · simp [h.sites]
      · rw [hwe] at hown₃
        exact hown₃.congr (add_left_comm _ _ _)
  | some P =>
    have hown₃ : s₃.Owns (cellsOf (heldBy P.log)
      + ((Located.node w.loc (wrapperNode adapter m.itemName
        tokens.indexName call (handedOver subtree))).cells + F)) := by
      rw [← hwe]
      exact hown₃.congr (add_left_comm _ _ _)
    obtain ⟨e, d, hn, binding, source, s₄, hrun₄, hle₄, hown₄, huse, hsource, hguarded, hreaches⟩ :=
      attachNested_attaches (c := m.candidate) rfl rfl (m.occurs_receiver _ _) hown₃ hg
    refine ⟨loop source binding, some (P.note hn), { p with
      store := s₄, sites := p.sites ++ [(loop source binding).site] }, ?_, ?_, rfl, rfl, rfl, rfl,
      rfl, rfl, hrecord, h.size.trans hsize, hlater, .nested hn huse hsource hguarded hreaches⟩
    · refine (Runs.edit p hrun₁).bind ((Runs.edit _ hrun₂).bind ((Runs.edit _ hrun₃).bind ?_))
      refine Runs.bind (Runs.edit _ hrun₄) ?_
      simp only [loop, Lowered.site, hleading, hsubtree]
      rfl
    · refine ⟨h.allocator, ?_, h.size.trans (hle.trans hle₄),
        fun lp hlp => (hwrappers _ _ lp hlp).trans_le hle₄, hown₄⟩
      simp [h.sites]

theorem Mapping.height_renamed (m : Mapping) (tokens : Tokens) (t : Located) :
    (m.renamed tokens t).height = t.height := by
  rw [renamed]
  split <;> simp

@[simp] theorem Mapping.loc_renamed (m : Mapping) (tokens : Tokens) (t : Located) :
    (m.renamed tokens t).loc = t.loc := by
  rw [renamed]
  split <;> simp

theorem Follows.site (hin : Follows adapter start before inside depth) {m : Mapping}
    (hm : m.Valid) (gs : List Premise) (hd : m.tree.height ≤ depth)
    (h : At start before σ (m.tree.cells + F) p)
    (hg : ∀ g ∈ gs, g.tree.cells ≤ F) :
    ∃ w σ' p', Runs (lowerSite adapter inside m.candidate (gs.map Premise.guard) σ.owner) p
        (w.loc, σ'.owner) p' ∧ At start before σ' (w.cells + F) p' ∧
      Lowers adapter start gs [.loop m] σ [.wrapper w] σ' := by
  obtain ⟨tokens, htokens⟩ : ∃ tokens, tokens = σ.allocator.allocate.1 := ⟨_, rfl⟩
  have halloc : Runs Lower.allocate p tokens { p with allocator := σ.allocator.allocate.2 } := by
    rw [htokens, ← h.allocator]
    rfl
  obtain ⟨body, s₁, hrun₁, hle₁, hown₁⟩ := normalize_runs (m := m) tokens
    (h.owns.congr (add_left_comm _ _ _))
  let ts : List Located := m.leading.map (m.renamed tokens)
  have hts : ts.map loc = m.candidate.leading := by
    simp [ts, Mapping.candidate]
  -- the leading statements
  have hat₁ : At start before ⟨σ.allocator.allocate.2, σ.loops, none⟩ (cellsOf ts +
      ((m.renamed tokens m.subtree).cells +
        (m.around + ({⟨m.callback, .lambda ⟨m.form, false, false,
        [.plain m.itemName, .plain tokens.indexName], body⟩⟩} + (cellsOf σ.held + F)))))
      { p with store := s₁, allocator := σ.allocator.allocate.2 } :=
    ⟨rfl, h.sites, h.size.trans hle₁, fun lp hlp => (h.wrappers lp hlp).trans_le hle₁,
      hown₁.congr (by
      simp only [Stage.held, Option.elim_none, cellsOf_nil, ts]; abel)⟩
  have hshows : ∀ t ∈ ts, s₁.Shows t := fun t ht =>
    hat₁.shows ((cells_le_of_mem ht).trans (Multiset.le_add_right _ _))
  have hroots : s₁.markupRoots m.candidate.leading = ts.flatMap markup := by
    rw [← hts, Store.markupRoots, List.flatMap_map]
    exact List.flatMap_congr fun t ht => (hshows t ht).markupAt
  have hlocals : s₁.declaredNames m.candidate.leading = declaredBy ts := by
    rw [← hts, Store.Shows.declaredNames hshows]
  have hsearch : ∀ t ∈ ts, Searches adapter start before inside t := fun t ht => by
    obtain ⟨u, hu, rfl⟩ := List.mem_map.1 ht
    exact hin.searches ((m.height_renamed tokens u).trans_le
      ((m.occurs_leading hu).height_le.trans hd))
  obtain ⟨leading, σ₁, p₁, hrun₂, hat₂, hloc₂, hσ₁, hlow₂⟩ := Searches.list hsearch rfl hat₁
  -- the template
  let L₀ : Ledger adapter := .start adapter (m.scope tokens)
    (σ.ledger.elim [] fun L => L.outer ++ [L.scope]) tokens
  have hat₂ : At start before { σ₁ with ledger := some L₀ } ((m.renamed tokens m.subtree).cells +
      (cellsOf leading + (m.around + ({⟨m.callback, .lambda ⟨m.form, false, false,
        [.plain m.itemName, .plain tokens.indexName], body⟩⟩} + (cellsOf σ.held + F))))) p₁ :=
    ⟨hat₂.allocator, hat₂.sites, hat₂.size, hat₂.wrappers, hat₂.owns.congr (by
      simp only [Stage.held, hσ₁, Option.elim_none, Option.elim_some, L₀, Ledger.start, heldBy,
        List.flatMap_nil, cellsOf_nil]
      abel)⟩
  obtain ⟨subtree, σ₂, p₂, hrun₃, hat₃, hloc₃, hlow₃⟩ := hin []
    ((m.height_renamed tokens m.subtree).trans_le (m.occurs_subtree.height_le.trans hd))
    hat₂ (by simp)
  obtain ⟨L, hL, hgrows⟩ : ∃ L, σ₂.ledger = some L ∧ L₀.Grows L := by
    have hc := hlow₃.continues
    generalize σ₂.ledger = o at hc ⊢
    cases hc with
    | within hgrows => exact ⟨_, rfl, hgrows⟩
  have hσ₂ : σ₂ = ⟨σ₂.allocator, σ₂.loops, some L⟩ := by rw [← hL]
  rw [hσ₂] at hat₃
  obtain ⟨lp, parent, p₃, hrun₄, hat₄, rfl, rfl, hparent, rfl, rfl, rfl, hrecord, hwrapper, hfresh,
    hbound⟩ := finishSite_runs (hloc₂.trans hts) (hloc₃.trans (m.loc_renamed tokens _))
      (congrArg LoopScope.item hgrows.scope) hgrows.keyToken hg hat₃
  refine ⟨lp.tree, _, p₃, ?_, hat₄, ?_⟩
  · refine halloc.bind ((Runs.edit { p with allocator := σ.allocator.allocate.2 } hrun₁).bind
      (Runs.store_bind ?_))
    dsimp only
    rw [hroots, hlocals]
    rw [Mapping.loc_renamed] at hrun₃
    refine hrun₂.bind (Runs.bind (?_ : Runs _ p₁ σ₂.owner p₂) ?_)
    · rw [show σ.owner = σ.ledger.map Ledger.owner from rfl]
      simp only [L₀] at hrun₃
      cases hl : σ.ledger <;> rw [hl] at hrun₃ <;> exact hrun₃
    · rw [Stage.owner, hL]
      exact hrun₄
  · rw [List.map_map] at hlow₂
    exact .site lp hm htokens hparent hlow₂ hlow₃ hL hrecord hwrapper hfresh hbound

theorem Follows.siteIn (hin : Follows adapter start before inside depth)
    {mk : Located → Node Located} (k : Hole mk) {l : Loc} {t : Located} {m : Mapping}
    (hm : m.Valid) {gs : List Premise} (spare : Multiset Cell) (ht : t.cells = m.tree.cells + spare)
    (hd : m.tree.height ≤ depth) (h : At start before σ ((Located.node l (mk t)).cells + F) p)
    (hg : ∀ g ∈ gs, g.tree.cells ≤ k.others + F) :
    ∃ w σ' p', Runs (lowerSiteIn adapter inside l t.loc m.candidate (gs.map Premise.guard) σ.owner)
    p
        σ'.owner p' ∧ At start before σ' ((Located.node l (mk w)).cells + F) p' ∧
      Lowers adapter start gs [.loop m] σ [.wrapper w] σ' := by
  rw [k.cells_mk] at h
  have hbeside : p.store.Owns (t.cells + k.others) :=
    h.owns.drop ({⟨l, (mk t).map loc⟩} + (cellsOf σ.held + F)) (by abel)
  have hapart := k.apart hbeside
  obtain ⟨w, σ', p', hrun, hat, hlow⟩ := hin.site hm gs
    (F := k.others + F + ({⟨l, (mk t).map loc⟩} + spare)) hd (h.congr (by rw [ht]; abel))
    (fun g hgs => (hg g hgs).trans (Multiset.le_add_right _ _))
  have hown : p'.store.Owns ({⟨l, (mk t).map loc⟩} +
      (cellsOf σ'.held + (w.cells + (k.others + F)))) :=
    hat.owns.drop spare (by abel)
  obtain ⟨b, s', hrun', hle, hown'⟩ := k.replace (u := w) hapart hown
  refine ⟨w, σ', { p' with store := s' }, ?_, hat.edit hle (hown'.congr ?_), hlow⟩
  · exact Runs.bind hrun (((Runs.edit p' hrun').map _).bind (.pure _ _))
  · rw [k.cells_mk]
    abel

theorem Follows.enterIn (hin : Follows adapter start before inside depth)
    {mk : Located → Node Located} (k : Hole mk) {l : Loc} {v : Located} {gs : List Premise}
    (hd : v.height ≤ depth) (h : At start before σ ((Located.node l (mk v)).cells + F) p)
    (hg : ∀ g ∈ gs, g.tree.cells ≤ k.others + F) :
    ∃ v' σ' p', Runs (inside v.loc (gs.map Premise.guard) σ.owner) p σ'.owner p' ∧
      At start before σ' ((Located.node l (mk v')).cells + F) p' ∧ v'.loc = v.loc ∧
      Lowers adapter start gs [.node v] σ [.node v'] σ' := by
  rw [k.cells_mk] at h
  obtain ⟨v', σ', p', hrun, hat, hloc, hlow⟩ := hin gs
    (F := k.others + F + {⟨l, (mk v).map loc⟩}) hd (h.congr (by abel))
    (fun g hgs => (hg g hgs).trans (Multiset.le_add_right _ _))
  refine ⟨v', σ', p', hrun, hat.congr ?_, hloc, hlow⟩
  rw [k.cells_mk, k.map_loc hloc]
  abel

theorem Follows.operand (hin : Follows adapter start before inside depth)
    {mk : Located → Node Located} (k : Hole mk) {l : Loc} {v : Located} {gs : List Premise}
    (under : List Premise) (hd : v.height ≤ depth)
    (h : At start before σ ((Located.node l (mk v)).cells + F) p)
    (hg : ∀ g ∈ gs ++ under, g.tree.cells ≤ k.others + F) :
    ∃ v' σ' p',
      Runs (lowerOperand adapter inside l v.loc ((gs ++ under).map Premise.guard) σ.owner) p
        σ'.owner p' ∧ At start before σ' ((Located.node l (mk v')).cells + F) p' ∧
      Lowers adapter start gs [.operand under v] σ [.operand under v'] σ' := by
  have hv : p.store.Shows v := h.shows
    ((Occurs.child (k.mem v) .self).cells_le.trans (Multiset.le_add_right _ _))
  cases hc : candidateTree? v with
  | ok c =>
    obtain ⟨ps, m, rfl, hm, rfl⟩ := candidateTree?_eq_ok hc
    obtain ⟨w, σ', p', hrun, hat, hlow⟩ := hin.siteIn k hm _
      ((cells_inParens ps m.tree).trans (add_comm _ _))
      ((occurs_inParens ps m.tree).height_le.trans hd) h hg
    have hverdict : Place.verdict (.operand under) (inParens ps m.tree) = .loop := by
      rw [Place.verdict, hc]
    refine ⟨w, σ', p', Runs.store_bind ?_, hat, (Lowers.loop hverdict hlow :)⟩
    rw [candidate?_eq hv, hc]
    exact hrun
  | error reason =>
    by_cases henter : (reason = .notMapCall && v.hasMarkup) = true
    · obtain ⟨v', σ', p', hrun, hat, -, hlow⟩ := hin.enterIn k hd h hg
      have hverdict : Place.verdict (.operand under) v = .enter := by
        rw [Place.verdict, hc]
        exact if_pos henter
      refine ⟨v', σ', p', Runs.store_bind ?_, hat, (Lowers.enter hverdict hlow :)⟩
      simp only [candidate?_eq hv, hc, hv.hasMarkup, henter, if_true]
      exact hrun
    · have hverdict : Place.verdict (.operand under) v = .leave := by
        rw [Place.verdict, hc]
        exact if_neg henter
      refine ⟨v, σ, p, Runs.store_bind ?_, h, (Lowers.leave hverdict :)⟩
      simp only [candidate?_eq hv, hc, hv.hasMarkup, henter]
      exact .pure _ p

/-! ### Spots -/

theorem lowerSpot_runs (spot : Spot) (v : Located) (write : String → Edit Unit)
    (written : String → Multiset Cell) (h : At start before σ (v.cells + F) p)
    (hwrite : ∀ {rest : Multiset Cell} {s : Store} (path : String), s.Owns (F + rest) →
      ∃ s', Runs (write path) s () s' ∧ s.size ≤ s'.size ∧ s'.Owns (written path + rest)) :
    ((∀ L, σ.ledger = some L → L.takes v = false) ∧
      Runs (lowerSpot adapter spot.position v.loc write σ.owner) p σ.owner p) ∨
    ∃ (L : Ledger adapter) (e : Event) (d : Draft) (hn : Noted adapter L.scope L.draft e d)
      (p' : Pass), σ.ledger = some L ∧ L.takes v = true ∧ e.use = .spot spot ∧ e.source = v ∧
      Runs (lowerSpot adapter spot.position v.loc write σ.owner) p (some (L.note hn).owner) p' ∧
      At start before ⟨σ.allocator, σ.loops, some (L.note hn)⟩ (written (L.path e)) p' := by
  cases hσ : σ.ledger with
  | none =>
    left
    refine ⟨by simp, ?_⟩
    rw [Stage.owner, hσ]
    exact .pure _ p
  | some L =>
    have hheld : σ.held = heldBy L.log := by rw [Stage.held, hσ, Option.elim_some]
    have howner : σ.owner = some L.owner := by rw [Stage.owner, hσ, Option.map_some]
    rw [howner]
    cases hl : L.takes v with
    | false =>
      left
      refine ⟨fun L' hL' => Option.some.inj hL' ▸ hl, ?_⟩
      exact Runs.bind (Runs.edit p (lowerLeaf_keeps (h.shows (Multiset.le_add_right _ _)) hl))
        (.pure _ _)
    | true =>
      right
      have hown := h.owns
      rw [hheld] at hown
      obtain ⟨e, d, hn, s₁, hrun₁, hle₁, hown₁, huse, hsource⟩ := lowerLeaf_moves spot hown hl
      obtain ⟨s₂, hrun₂, hle₂, hown₂⟩ := hwrite (L.path e) (hown₁.congr (add_comm _ _))
      refine ⟨L, e, d, hn, { p with store := s₂ }, rfl, hl, huse, hsource, ?_, h.allocator, h.sites,
        h.size.trans (hle₁.trans hle₂),
        fun lp hlp => (h.wrappers lp hlp).trans_le (hle₁.trans hle₂), hown₂.congr (add_comm _ _)⟩
      exact Runs.bind (Runs.edit p hrun₁) (Runs.bind (Runs.edit { p with store := s₁ } hrun₂)
        (.pure _ _))

theorem Follows.container (hin : Follows adapter start before inside depth)
    {mk : Located → Node Located} (k : Hole mk) {l c : Loc} {v : Located} {gs : List Premise}
    (hd : v.height ≤ depth)
    (h : At start before σ ((Located.node l (mk (.node c (.container v)))).cells + F) p)
    (hg : ∀ g ∈ gs, g.tree.cells ≤ F) :
    ∃ t' σ' p', Runs (match candidateTree? v with
      | .ok m => lowerSiteIn adapter inside l c m (gs.map Premise.guard) σ.owner
      | .error reason =>
        if v.hasMarkup then
          if reason = .notMapCall then inside v.loc (gs.map Premise.guard) σ.owner
          else return σ.owner
        else lowerSpot adapter none v.loc (fun path => Edit.put c (.mustache path)) σ.owner)
        p σ'.owner p' ∧ At start before σ' ((Located.node l (mk t')).cells + F) p' ∧
      Lowers adapter start gs [.child (.node c (.container v))] σ [.child t'] σ' := by
  have hcontainer (u : Located) :
      (Located.node c (.container u)).cells = {⟨c, .container u.loc⟩} + u.cells := by
    simp [cells_node, Node.children, Node.map]
  have hhead (n : Node Located) :
      (mk (.node c n)).map loc = (mk (.node c (.container v))).map loc := k.map_loc rfl
  have hcells (u : Located) : (Located.node l (mk (.node c (.container u)))).cells + F =
      u.cells + ({⟨c, .container u.loc⟩} +
        ({⟨l, (mk (.node c (.container v))).map loc⟩} + (k.others + F))) := by
    rw [k.cells_mk, hcontainer, hhead (.container u)]
    abel
  cases hc : candidateTree? v with
  | ok m =>
    obtain ⟨ps, m, rfl, hm, rfl⟩ := candidateTree?_eq_ok hc
    obtain ⟨w, σ', p', hrun, hat, hlow⟩ := hin.siteIn k
      (t := .node c (.container (inParens ps m.tree))) hm
      ({⟨c, .container (inParens ps m.tree).loc⟩} + parenCells ps m.tree.loc)
      (by rw [hcontainer, cells_inParens]; abel)
      ((occurs_inParens ps m.tree).height_le.trans hd) h
      (fun g hgs => (hg g hgs).trans (Multiset.le_add_left _ _))
    have hverdict : Place.verdict (.spot (.text c)) (inParens ps m.tree) = .loop := by
      rw [Place.verdict, hc]
    rw [← List.append_nil gs] at hlow
    exact ⟨w, σ', p', hrun, hat, (Lowers.loop hverdict hlow :)⟩
  | error reason =>
    by_cases hm : v.hasMarkup = true
    · by_cases hr : reason = .notMapCall
      · have hverdict : Place.verdict (.spot (.text c)) v = .enter := by
          simp only [Place.verdict, hc, hm, hr, if_true]
        obtain ⟨v', σ', p', hrun, hat, hloc, hlow⟩ := hin gs hd (h.congr (hcells v))
          fun g hgs => (hg g hgs).trans
            ((Multiset.le_add_left _ _).trans ((Multiset.le_add_left _ _).trans
              (Multiset.le_add_left _ _)))
        rw [← List.append_nil gs] at hlow
        simp only [hm, hr, if_true]
        refine ⟨_, σ', p', hrun, hat.congr ?_, (Lowers.enter hverdict hlow :)⟩
        rw [hcells v', hloc]
      · have hverdict : Place.verdict (.spot (.text c)) v = .leave := by
          simp only [Place.verdict, hc, hm, hr, if_true, if_false]
        simp only [hm, hr, if_true, if_false]
        exact ⟨_, σ, p, .pure _ p, h, (Lowers.leave hverdict :)⟩
    · have hverdict : Place.verdict (.spot (.text c)) v = .leaf := by
        simp only [Place.verdict, hc, hm, if_false, Bool.false_eq_true]
      simp only [hm, if_false, Bool.false_eq_true]
      rcases lowerSpot_runs (.text c) v (fun path => Edit.put c (.mustache path))
        (fun path => {⟨c, .mustache path⟩} +
          ({⟨l, (mk (.node c (.container v))).map loc⟩} + (k.others + F)))
        (h.congr (hcells v)) fun {rest s} path hs => ⟨s.put c (.mustache path), rfl,
          (Store.size_put _ _ _).ge, by
            rw [add_assoc] at hs ⊢
            exact hs.put _⟩ with ⟨hl, hrun⟩ | ⟨L, e, d, hn, p', hσ, hl, huse, hsource, hrun, hat⟩
      · exact ⟨_, σ, p, hrun, h, (Lowers.keep hverdict hl :)⟩
      · refine ⟨.node c (.mustache (L.path e)), ⟨σ.allocator, σ.loops, some (L.note hn)⟩, p', hrun,
          hat.congr ?_, ?_⟩
        · have hmustache : (Located.node c (.mustache (L.path e))).cells =
              {⟨c, .mustache (L.path e)⟩} := by
            simp [cells_node, Node.children, Node.map]
          rw [k.cells_mk, hmustache, hhead (.mustache (L.path e))]
          abel
        · obtain ⟨a, loops, ledger⟩ := σ
          obtain rfl := hσ
          exact (Lowers.move hverdict hl hn huse hsource :)

theorem Follows.child (hin : Follows adapter start before inside depth)
    {mk : Located → Node Located} (k : Hole mk) {l : Loc} {t : Located} {gs : List Premise}
    (hd : t.height ≤ depth) (h : At start before σ ((Located.node l (mk t)).cells + F) p)
    (hg : ∀ g ∈ gs, g.tree.cells ≤ F) :
    ∃ t' σ' p', Runs (lowerChild adapter inside l (gs.map Premise.guard) σ.owner t.loc) p
        σ'.owner p' ∧ At start before σ' ((Located.node l (mk t')).cells + F) p' ∧
      Lowers adapter start gs [.child t] σ [.child t'] σ' := by
  have ht : p.store.Shows t := h.shows
    ((Occurs.child (k.mem t) .self).cells_le.trans (Multiset.le_add_right _ _))
  have hg' : ∀ g ∈ gs, g.tree.cells ≤ k.others + F := fun g hgs =>
    (hg g hgs).trans (Multiset.le_add_left _ _)
  obtain ⟨c, n⟩ := t
  have hget : p.store.get c = n.map loc := ht.get_root
  cases n with
  | element e =>
    obtain ⟨t', σ', p', hrun, hat, -, hlow⟩ := hin.enterIn k hd h hg'
    refine ⟨t', σ', p', Runs.store_bind ?_, hat, .markup rfl hlow⟩
    rw [loc_node, hget]
    exact hrun
  | fragment cs =>
    obtain ⟨t', σ', p', hrun, hat, -, hlow⟩ := hin.enterIn k hd h hg'
    refine ⟨t', σ', p', Runs.store_bind ?_, hat, .markup rfl hlow⟩
    rw [loc_node, hget]
    exact hrun
  | container v =>
    have hv : p.store.Shows v := ht.child (List.mem_singleton_self v)
    have hvd : v.height ≤ depth := (height_lt_of_mem (List.mem_singleton_self v)).le.trans hd
    obtain ⟨t', σ', p', hrun, hrest⟩ := hin.container k hvd h hg
    refine ⟨t', σ', p', Runs.store_bind ?_, hrest⟩
    rw [loc_node, hget]
    simp only [Node.map]
    rw [candidate?_eq hv, hv.hasMarkup]
    exact hrun
  | _ =>
    refine ⟨_, σ, p, Runs.store_bind ?_, h, .inert ⟨rfl, by simp⟩⟩
    rw [loc_node, hget]
    exact .pure _ p

/-- An element with the value of one attribute left open. -/
def attributeHole (tag : String) (done rest : List (Attribute Located)) (name : String)
    (children : List Located) (selfClosing : Bool) :
    Hole fun v => .element ⟨tag, done ++ .named name (.expression v) :: rest, children,
      selfClosing⟩ where
  front := done.flatMap Attribute.children
  back := rest.flatMap Attribute.children ++ children
  children v := by simp [Node.children]
  shape v w := by simp [Node.shape, Node.map, Attribute.map, AttributeValue.map]

theorem modify_append_cons {α : Type} (f : α → α) (xs ys : List α) (y : α) :
    (xs ++ y :: ys).modify xs.length f = xs ++ f y :: ys := by
  induction xs with
  | nil => rfl
  | cons x xs ih =>
    rw [List.cons_append, List.length_cons, List.modify_succ_cons, ih, List.cons_append]

theorem setMustache_runs {s : Store} {rest : Multiset Cell} {l : Loc} {tag name path : String}
    {done more : List (Attribute Loc)} {value : AttributeValue Loc} {children : List Loc}
    {selfClosing : Bool}
    (h : s.Owns ({⟨l, .element ⟨tag, done ++ .named name value :: more, children,
      selfClosing⟩⟩} + rest)) :
    ∃ s', Runs (setMustache l done.length path) s () s' ∧ s.size ≤ s'.size ∧
      s'.Owns ({⟨l, .element ⟨tag, done ++ .named name (.mustache path) :: more, children,
        selfClosing⟩⟩} + rest) := by
  refine ⟨_, .node_bind h.get_head ?_, (Store.size_put _ _ _).ge, h.put _⟩
  simp only [modify_append_cons, mustacheAttribute]
  rfl

theorem Follows.attribute (hin : Follows adapter start before inside depth) {l : Loc} {tag : String}
    {done rest : List (Attribute Located)} {a : Attribute Located} {children : List Located}
    {selfClosing : Bool} {gs : List Premise} (hd : ∀ v ∈ a.children, v.height ≤ depth)
    (h : At start before σ
      ((Located.node l (.element ⟨tag, done ++ a :: rest, children, selfClosing⟩)).cells + F) p)
    (hg : ∀ g ∈ gs, g.tree.cells ≤ F) :
    ∃ a' σ' p', Runs (lowerAttribute adapter inside l (gs.map Premise.guard) σ.owner
        (a.map loc, done.length)) p σ'.owner p' ∧
      At start before σ'
        ((Located.node l (.element ⟨tag, done ++ a' :: rest, children, selfClosing⟩)).cells + F)
        p' ∧
      Lowers adapter start gs [.attribute l done.length a] σ [.attribute l done.length a'] σ' := by
  by_cases ha : ∃ name v, a = .named name (.expression v)
  · obtain ⟨name, v, rfl⟩ := ha
    let k := attributeHole tag done rest name children selfClosing
    have hv : p.store.Shows v := h.shows
      ((Occurs.child (k.mem v) .self).cells_le.trans (Multiset.le_add_right _ _))
    have hvd : v.height ≤ depth := hd v (by simp)
    by_cases hm : v.hasMarkup = true
    · have hverdict : Place.verdict (.spot (.attribute l done.length name)) v = .enter := by
        simp only [Place.verdict, hm, if_true]
      obtain ⟨v', σ', p', hrun, hat, -, hlow⟩ := hin.enterIn k hvd h fun g hgs =>
        (hg g hgs).trans (Multiset.le_add_left _ _)
      rw [← List.append_nil gs] at hlow
      refine ⟨_, σ', p', Runs.store_bind ?_, hat, (Lowers.enter hverdict hlow :)⟩
      rw [hv.hasMarkup, if_pos hm]
      exact hrun
    · have hverdict : Place.verdict (.spot (.attribute l done.length name)) v = .leaf := by
        simp only [Place.verdict, hm, if_false, Bool.false_eq_true]
      have hrun' (o : Option Owner) (p' : Pass)
          (hrun : Runs (lowerSpot adapter (some name) v.loc (setMustache l done.length) σ.owner) p
            o p') :
          Runs (lowerAttribute adapter inside l (gs.map Premise.guard) σ.owner
            (.named name (.expression v.loc), done.length)) p o p' := by
        refine Runs.store_bind ?_
        rw [hv.hasMarkup, if_neg hm]
        exact hrun
      rcases lowerSpot_runs (.attribute l done.length name) v (setMustache l done.length)
        (fun path => {⟨l, .element ⟨tag, done.map (Attribute.map loc) ++
          .named name (.mustache path) :: rest.map (Attribute.map loc), children.map loc,
          selfClosing⟩⟩} + (k.others + F))
        (F := {⟨l, .element ⟨tag, done.map (Attribute.map loc) ++
          .named name (.expression v.loc) :: rest.map (Attribute.map loc), children.map loc,
          selfClosing⟩⟩} + (k.others + F))
        (h.congr (by
          rw [k.cells_mk]
          simp only [Node.map, List.map_append, List.map_cons, Attribute.map, AttributeValue.map]
          abel))
        (fun path hs => by
          rw [add_assoc] at hs
          rw [add_assoc, ← List.length_map (f := Attribute.map loc)]
          exact setMustache_runs hs)
        with ⟨hl, hrun⟩ | ⟨L, e, d, hn, p', hσ, hl, huse, hsource, hrun, hat⟩
      · exact ⟨_, σ, p, hrun' _ p hrun, h, (Lowers.keep hverdict hl :)⟩
      · refine ⟨.named name (.mustache (L.path e)), ⟨σ.allocator, σ.loops, some (L.note hn)⟩, p',
          hrun' _ p' hrun, hat.congr ?_, ?_⟩
        · rw [cells_node]
          simp only [Node.map, Node.children, List.map_append, List.map_cons, Attribute.map,
            AttributeValue.map, List.flatMap_append, List.flatMap_cons, Attribute.children_named,
            AttributeValue.children_mustache, List.nil_append, cellsOf_append, Hole.others,
            attributeHole, k]
          abel
        · obtain ⟨b, loops, ledger⟩ := σ
          obtain rfl := hσ
          exact (Lowers.move hverdict hl hn huse hsource :)
  · refine ⟨a, σ, p, ?_, h, .inert fun name v he => ha ⟨name, v, he⟩⟩
    cases a with
    | spread v => exact .pure _ p
    | named name v =>
      cases v with
      | expression v => exact absurd ⟨name, v, rfl⟩ ha
      | _ => exact .pure _ p

/-! ### Nodes -/

theorem Follows.attributes (hin : Follows adapter start before inside depth)
    (done as : List (Attribute Located)) {l : Loc} {tag : String} {children : List Located}
    {selfClosing : Bool} {gs : List Premise}
    (hd : ∀ a ∈ as, ∀ v ∈ a.children, v.height ≤ depth)
    (h : At start before σ
      ((Located.node l (.element ⟨tag, done ++ as, children, selfClosing⟩)).cells + F) p)
    (hg : ∀ g ∈ gs, g.tree.cells ≤ F) :
    ∃ as' σ' p', Runs (((as.map (Attribute.map loc)).zipIdx done.length).foldlM
        (lowerAttribute adapter inside l (gs.map Premise.guard)) σ.owner) p σ'.owner p' ∧
      At start before σ'
        ((Located.node l (.element ⟨tag, done ++ as', children, selfClosing⟩)).cells + F) p' ∧
      as'.length = as.length ∧
      Lowers adapter start gs (as.mapIdx fun i a => .attribute l (done.length + i) a) σ
        (as'.mapIdx fun i a => .attribute l (done.length + i) a) σ' := by
  induction as generalizing done σ p with
  | nil => exact ⟨[], σ, p, .pure _ p, h, rfl, .nil⟩
  | cons a as ih =>
    obtain ⟨a', σ₁, p₁, hrun₁, hat₁, hlow₁⟩ := hin.attribute (hd a List.mem_cons_self) h hg
    obtain ⟨as', σ₂, p₂, hrun₂, hat₂, hlen, hlow₂⟩ := ih (done ++ [a'])
      (fun x hx => hd x (List.mem_cons_of_mem a hx)) (by simpa using hat₁)
    have hnext (i : Nat) : done.length + (i + 1) = (done ++ [a']).length + i := by
      rw [List.length_append, List.length_singleton]
      omega
    refine ⟨a' :: as', σ₂, p₂, ?_, by simpa using hat₂, by simp [hlen], ?_⟩
    · rw [List.length_append, List.length_singleton] at hrun₂
      exact hrun₁.bind hrun₂
    · simp only [List.mapIdx_cons, hnext]
      exact .cons hlow₁ hlow₂

def childHole {mk : List Located → Node Located} {pre : List Located}
    (hkids : ∀ cs, (mk cs).children = pre ++ cs)
    (hshape : ∀ cs ds, cs.length = ds.length → (mk cs).shape = (mk ds).shape)
    (done rest : List Located) : Hole fun t => mk (done ++ t :: rest) where
  front := pre ++ done
  back := rest
  children t := by rw [hkids, List.append_assoc]
  shape t u := hshape _ _ (by simp)

theorem Follows.children (hin : Follows adapter start before inside depth)
    (mk : List Located → Node Located) (pre done ts : List Located)
    (hkids : ∀ cs, (mk cs).children = pre ++ cs)
    (hshape : ∀ cs ds, cs.length = ds.length → (mk cs).shape = (mk ds).shape) {l : Loc}
    {gs : List Premise} (hd : ∀ t ∈ ts, t.height ≤ depth)
    (h : At start before σ ((Located.node l (mk (done ++ ts))).cells + F) p)
    (hg : ∀ g ∈ gs, g.tree.cells ≤ F) :
    ∃ ts' σ' p', Runs ((ts.map loc).foldlM (lowerChild adapter inside l (gs.map Premise.guard))
        σ.owner) p σ'.owner p' ∧
      At start before σ' ((Located.node l (mk (done ++ ts'))).cells + F) p' ∧
      Lowers adapter start gs (ts.map .child) σ (ts'.map .child) σ' := by
  induction ts generalizing done σ p with
  | nil => exact ⟨[], σ, p, .pure _ p, h, .nil⟩
  | cons t ts ih =>
    obtain ⟨t', σ₁, p₁, hrun₁, hat₁, hlow₁⟩ := hin.child (childHole hkids hshape done ts)
      (hd t List.mem_cons_self) h hg
    obtain ⟨ts', σ₂, p₂, hrun₂, hat₂, hlow₂⟩ := ih (done ++ [t'])
      (fun x hx => hd x (List.mem_cons_of_mem t hx)) (by simpa using hat₁)
    exact ⟨t' :: ts', σ₂, p₂, hrun₁.bind hrun₂, by simpa using hat₂, .cons hlow₁ hlow₂⟩

theorem Follows.lowerNode (hin : Follows adapter start before inside depth) :
    Follows adapter start before (lowerNode adapter inside) (depth + 1) := by
  intro gs t σ F p ht h hg
  have hget : p.store.get t.loc = t.here.map loc :=
    (h.shows (Multiset.le_add_right _ _)).get_loc
  have hkids : ∀ c ∈ t.here.children, c.height ≤ depth := fun c hc =>
    Nat.le_of_lt_succ ((height_lt_of_mem (l := t.loc) hc).trans_le (by rwa [eta]))
  obtain ⟨l, n⟩ := t
  rw [here_node] at hget hkids
  -- the conditions that an operand adds stand beside it
  have beside {mk : Located → Node Located} (k : Hole mk) (under : List Premise)
      (hu : ∀ g ∈ under, g.tree ∈ k.front) : ∀ g ∈ gs ++ under, g.tree.cells ≤ k.others + F := by
    intro g hgs
    rcases List.mem_append.1 hgs with hgs | hgs
    · exact (hg g hgs).trans (Multiset.le_add_left _ _)
    · exact ((cells_le_of_mem (hu g hgs)).trans (Multiset.le_add_right _ _)).trans
        (Multiset.le_add_right _ _)
  cases n with
  | element e =>
    obtain ⟨tag, as, cs, selfClosing⟩ := e
    obtain ⟨as', σ₁, p₁, hrun₁, hat₁, hlen, hlow₁⟩ := hin.attributes [] as
      (fun a ha v hv => hkids v (List.mem_append_left _ (List.mem_flatMap.2 ⟨a, ha, hv⟩))) h hg
    obtain ⟨cs', σ₂, p₂, hrun₂, hat₂, hlow₂⟩ := hin.children
      (fun cs => .element ⟨tag, as', cs, selfClosing⟩) (as'.flatMap Attribute.children) [] cs
      (fun _ => rfl) (fun xs ys hl => by simp [Node.shape, Node.map, List.map_const', hl])
      (fun c hc => hkids c (List.mem_append_right _ hc)) hat₁ hg
    refine ⟨.node l (.element ⟨tag, as', cs', selfClosing⟩), σ₂, p₂, Runs.store_bind ?_, hat₂, rfl,
      .node ⟨as', cs', rfl, hlen⟩ ?_⟩
    · rw [loc_node] at hget ⊢
      rw [hget]
      exact hrun₁.bind hrun₂
    · simp only [List.length_nil, Nat.zero_add] at hlow₁
      exact hlow₁.append hlow₂
  | fragment cs =>
    obtain ⟨cs', σ₁, p₁, hrun, hat, hlow⟩ := hin.children .fragment [] [] cs
      (fun _ => rfl) (fun xs ys hl => by simp [Node.shape, Node.map, List.map_const', hl])
      hkids h hg
    refine ⟨.node l (.fragment cs'), σ₁, p₁, Runs.store_bind ?_, hat, rfl, .node ⟨cs', rfl⟩ hlow⟩
    rw [loc_node] at hget ⊢
    rw [hget]
    exact hrun
  | conditional test yes no =>
    let k : Hole fun v => .conditional test v no := ⟨[test], [no], fun _ => rfl, fun _ _ => rfl⟩
    obtain ⟨yes', σ₁, p₁, hrun₁, hat₁, hlow₁⟩ := hin.operand k [.whenTrue test]
      (hkids yes (by simp [Node.children])) h (beside k _ (by simp [Premise.tree, k]))
    let k' : Hole fun v => .conditional test yes' v :=
      ⟨[test, yes'], [], fun _ => rfl, fun _ _ => rfl⟩
    obtain ⟨no', σ₂, p₂, hrun₂, hat₂, hlow₂⟩ := hin.operand k' [.whenFalse test]
      (hkids no (by simp [Node.children])) hat₁ (beside k' _ (by simp [Premise.tree, k']))
    refine ⟨.node l (.conditional test yes' no'), σ₂, p₂, Runs.store_bind ?_, hat₂, rfl,
      .node ⟨yes', no', rfl⟩ (.cons hlow₁ hlow₂)⟩
    rw [loc_node] at hget ⊢
    rw [hget]
    rw [List.map_append] at hrun₁ hrun₂
    exact hrun₁.bind hrun₂
  | logical op left right =>
    let k : Hole fun v => .logical op left v := ⟨[left], [], fun _ => rfl, fun _ _ => rfl⟩
    obtain ⟨right', σ₁, p₁, hrun, hat, hlow⟩ := hin.operand k [.operand op left]
      (hkids right (by simp [Node.children])) h (beside k _ (by simp [Premise.tree, k]))
    refine ⟨.node l (.logical op left right'), σ₁, p₁, Runs.store_bind ?_, hat, rfl,
      .node ⟨right', rfl⟩ hlow⟩
    rw [loc_node] at hget ⊢
    rw [hget]
    rw [List.map_append] at hrun
    exact hrun
  | paren inner =>
    let k : Hole fun v => .paren v := ⟨[], [], fun _ => rfl, fun _ _ => rfl⟩
    obtain ⟨inner', σ₁, p₁, hrun, hat, hlow⟩ := hin.operand k []
      (hkids inner (by simp [Node.children])) h (beside k _ (by simp))
    refine ⟨.node l (.paren inner'), σ₁, p₁, Runs.store_bind ?_, hat, rfl,
      .node ⟨inner', rfl⟩ hlow⟩
    rw [loc_node] at hget ⊢
    rw [hget]
    rw [List.append_nil] at hrun
    exact hrun
  | _ =>
    refine ⟨.node l _, σ, p, Runs.store_bind ?_, h, rfl, .node rfl .nil⟩
    rw [loc_node] at hget ⊢
    rw [hget]
    exact .pure _ p

theorem lowerTo_follows (adapter : Adapter) (start : Nat) (before : List Site) (depth : Nat) :
    Follows adapter start before (lowerTo adapter depth) depth := by
  induction depth with
  | zero =>
    intro gs t σ F p ht
    exact absurd ht (Nat.not_le.2 (height_pos t))
  | succ depth ih => exact ih.lowerNode

end

end JsxLoops.Loop
