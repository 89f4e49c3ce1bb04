import JsxLoops.Proofs.Lowering

/-!
The edits that make a loop: conditions around its call, its wrapper, the record that its callback
returns, and its binding to the loop around it.
-/

namespace JsxLoops.Loop

open JsxLoops.Tree Located

variable {s : Store} {t v : Located} {rest : Multiset Cell}

/-! ### Conditions -/

theorem Grouped.gives (h : s.Owns (t.cells + rest)) :
    Gives (parenthesize t.loc) s rest (Grouped t) := by
  have hget : s.get t.loc = t.here.map loc := (h.shows (Multiset.le_add_right _ _)).get_loc
  have hparen : groups t.here = true → Gives (Edit.add (.paren t.loc)) s rest (Grouped t) :=
    fun hg => (Gives.add (.paren t) (by simpa [Node.children] using h)).mono fun u hu => by
      rw [← eta u, hu.1]
      exact .paren u.loc hg
  have hbare (hg : groups t.here = false) : Gives (pure t.loc) s rest (Grouped t) :=
    .pure h (.bare hg)
  refine Gives.node_bind hget ?_
  cases hn : t.here <;> simp only [hn, groups] at hparen hbare <;>
    first | exact hparen trivial | exact hbare trivial

theorem Gives.condition {f : Loc → Edit Loc} {P : Located → Prop} (h : s.Owns (v.cells + rest))
    (ht : t.cells ≤ rest)
    (hf : ∀ copy t' s', copy.erase = t.erase → Grouped copy t' →
      s'.Owns (t'.cells + (v.cells + rest)) → Gives (f t'.loc) s' rest P) :
    Gives (do f (← parenthesize (← Edit.clone t.loc))) s rest P := by
  refine (Gives.clone h (ht.trans (Multiset.le_add_left _ _))).bind fun copy s₁ _ hown₁ hc => ?_
  exact (Grouped.gives hown₁).bind fun t' s₂ _ hown₂ ht' => hf copy t' s₂ hc ht' hown₂

theorem Shielded.gives {g : Premise} (h : s.Owns (v.cells + rest)) (hg : g.tree.cells ≤ rest) :
    Gives (g.guard.apply v.loc) s rest (Shielded v g) := by
  cases g with
  | operand op left =>
    refine Gives.condition h hg fun copy t' s₁ hc ht' hown₁ => ?_
    refine (Grouped.gives (hown₁.congr (add_left_comm _ _ _))).bind fun v' s₂ _ hown₂ hv' => ?_
    refine (Gives.add (.logical op t' v') (hown₂.congr ?_)).mono fun u hu => ?_
    · simp only [Node.children, cellsOf_cons, cellsOf_nil]
      abel
    · rw [← eta u, hu.1]
      exact .operand u.loc hc ht' hv'
  | whenTrue test =>
    refine Gives.condition h hg fun copy t' s₁ hc ht' hown₁ => ?_
    refine (Gives.add (.literal "null") (by simpa [Node.children] using hown₁)).bind
      fun k s₂ _ hown₂ hk => ?_
    refine (Gives.add (.conditional t' v k) (hown₂.congr ?_)).mono fun u hu => ?_
    · simp only [Node.children, cellsOf_cons, cellsOf_nil]
      abel
    · rw [← eta u, hu.1, ← eta k, hk.1]
      exact .whenTrue u.loc k.loc hc ht'
  | whenFalse test =>
    refine Gives.condition h hg fun copy t' s₁ hc ht' hown₁ => ?_
    refine (Gives.add (.literal "null") (by simpa [Node.children] using hown₁)).bind
      fun k s₂ _ hown₂ hk => ?_
    refine (Gives.add (.conditional t' k v) (hown₂.congr ?_)).mono fun u hu => ?_
    · simp only [Node.children, cellsOf_cons, cellsOf_nil]
      abel
    · rw [← eta u, hu.1, ← eta k, hk.1]
      exact .whenFalse u.loc k.loc hc ht'

theorem Guarded.gives {gs : List Premise} (h : s.Owns (v.cells + rest))
    (hg : ∀ g ∈ gs, g.tree.cells ≤ rest) :
    Gives (guardedValue (gs.map Premise.guard) v.loc) s rest (Guarded v gs) := by
  rw [guardedValue]
  induction gs with
  | nil => exact .pure h .nil
  | cons g gs ih =>
    rw [List.map_cons, List.foldrM_cons]
    refine (ih fun x hx => hg x (List.mem_cons_of_mem g hx)).bind fun u s' _ hown hu => ?_
    exact (Shielded.gives hown (hg g List.mem_cons_self)).mono fun t ht => .cons hu ht

theorem Grouped.occurs {t u : Located} (h : Grouped t u) : Occurs t u := by
  cases h with
  | bare => exact .self
  | paren l => exact .child (List.mem_singleton_self t) .self

theorem Shielded.occurs {v t : Located} {g : Premise} (h : Shielded v g t) : Occurs v t := by
  cases h with
  | operand l hcopy hleft hv => exact .child (by simp [Node.children]) hv.occurs
  | whenTrue l k hcopy htest => exact .child (by simp [Node.children]) .self
  | whenFalse l k hcopy htest => exact .child (by simp [Node.children]) .self

theorem Guarded.occurs {v t : Located} {gs : List Premise} (h : Guarded v gs t) : Occurs v t := by
  induction h with
  | nil => exact .self
  | cons _ hg ih => exact ih.trans hg.occurs

/-! ### Wrappers -/

@[simp] theorem children_wrapperNode (adapter : Adapter) (item index : String) (source : Located)
    (inner : List Located) :
    (wrapperNode adapter item index source inner).children = source :: inner := by
  simp [wrapperNode, Node.children]

theorem cellsOf_handedOver (t : Located) : cellsOf (handedOver t) ≤ t.cells := by
  obtain ⟨l, n⟩ := t
  cases n with
  | fragment children =>
    rw [cells_node]
    exact Multiset.le_add_left _ _
  | _ => simp [handedOver]

theorem map_loc_handedOver (t : Located) :
    (handedOver t).map loc = match t.here.map loc with
      | .fragment children => children
      | _ => [t.loc] := by
  rw [handedOver]
  cases t.here <;> rfl

theorem Gives.wrapSubtree (adapter : Adapter) {call : Located} (item index : String)
    (h : s.Owns (t.cells + (call.cells + rest))) :
    Gives (wrapSubtree adapter t.loc call.loc item index) s rest fun w =>
      w.here = wrapperNode adapter item index call (handedOver t) ∧ s.size ≤ w.loc.index := by
  have hget : s.get t.loc = t.here.map loc := (h.shows (Multiset.le_add_right _ _)).get_loc
  have hown : s.Owns
      (cellsOf (wrapperNode adapter item index call (handedOver t)).children + rest) := by
    rw [children_wrapperNode, cellsOf_cons]
    refine h.mono ?_
    rw [add_assoc, add_left_comm t.cells]
    exact add_le_add_right (add_le_add_left (cellsOf_handedOver t) rest) call.cells
  obtain ⟨w, s', hrun, hw⟩ := Gives.add (wrapperNode adapter item index call (handedOver t)) hown
  refine ⟨w, s', .node_bind hget ?_, hw⟩
  rw [wrapperNode, Node.map, map_loc_handedOver] at hrun
  exact hrun

theorem bindWrapper_runs {adapter : Adapter} {item index : String} {w : Loc} {a : Located}
    {inner : List Located} {β : Type} {e : Edit Loc} {P : Located → Prop} (x : β)
    (h : Gives e s ({⟨w, (wrapperNode adapter item index a inner).map loc⟩} + rest) P) :
    ∃ b s', Runs (do bindWrapper w (← e); return x) s x s' ∧ s.size ≤ s'.size ∧
      s'.Owns (b.cells + ({⟨w, (wrapperNode adapter item index b inner).map loc⟩} + rest)) ∧
      P b := by
  obtain ⟨b, s₁, hrun, hle, hown, hb⟩ := h
  rw [add_left_comm] at hown
  have hbind : Runs (bindWrapper w b.loc) s₁ ()
      (s₁.put w ((wrapperNode adapter item index b inner).map loc)) :=
    .node_bind hown.get_head rfl
  refine ⟨b, _, hrun.bind (hbind.bind (.pure x _)), hle.trans (Store.size_put _ _ _).ge, ?_, hb⟩
  rw [add_left_comm]
  exact hown.put _

/-! ### The callback -/

theorem Ending.cellsOf_renamed_body (ending : Ending) (ps : List Loc) (t : Located)
    (a b : String) :
    cellsOf ((ending.body (inParens ps t)).children.map (renameFree a b)) =
      cellsOf (ending.leading.map (renameFree a b)) +
        ((t.renameFree a b).cells + ending.spare ps t.loc) := by
  cases ending with
  | value =>
    simp only [body, leading, spare, Body.children, List.map_cons, List.map_nil, cellsOf_cons,
      cellsOf_nil, renameFree_inParens, cells_inParens, loc_renameFree]
    abel
  | block leading last =>
    simp only [body, Ending.leading, spare, Body.children, List.map_append, List.map_cons,
      List.map_nil, cellsOf_append, cellsOf_cons, cellsOf_nil, renameFree_returning,
      renameFree_inParens, cells_node, Node.children, Option.toList_some, Node.map, Option.map_some,
      loc_inParens, loc_renameFree, cells_inParens]
    abel

theorem Mapping.cellsOf_renamed_body (m : Mapping) (tokens : Tokens) :
    cellsOf (m.body.children.map (m.renamed tokens)) =
      cellsOf (m.leading.map (m.renamed tokens)) +
        ((m.renamed tokens m.subtree).cells + m.ending.spare m.resultParens m.subtree.loc) := by
  rw [body, Mapping.leading]
  cases hi : m.names[1]? with
  | none =>
    have hid : m.renamed tokens = id := funext fun t => by rw [renamed, hi, id_eq]
    rw [hid]
    simpa using m.ending.cellsOf_body m.resultParens m.subtree
  | some index =>
    have hrn : m.renamed tokens = renameFree index tokens.indexName :=
      funext fun t => by rw [renamed, hi]
    rw [hrn]
    exact m.ending.cellsOf_renamed_body _ _ _ _

/-- The callback gets the parameters of the lowered loop, and its index another name. The rest of
the call stays as it is. -/
theorem normalize_withCallback {m : Mapping} (tokens : Tokens)
    (h : s.Owns (m.tree.cells + rest)) :
    ∃ s' : Store, Runs (m.candidate.normalize tokens) s () s' ∧ s.size ≤ s'.size ∧
      s'.Owns ((m.withCallback [.plain m.itemName, .plain tokens.indexName]
        (m.body.map (m.renamed tokens))).cells + rest) := by
  rw [Mapping.tree, Mapping.cells_withCallback] at h
  let params : List Binder := [.plain m.itemName, .plain tokens.indexName]
  have hcell : s.Owns ({⟨m.callback, .lambda ⟨m.form, false, false, m.params, m.body.map loc⟩⟩} +
      (cellsOf m.body.children + (m.around + rest))) := h.congr (by abel)
  have hput {s' : Store} {cells : Multiset Cell}
      (hs : s'.Owns ({⟨m.callback, .lambda ⟨m.form, false, false, m.params, m.body.map loc⟩⟩} +
        cells)) :
      (s'.put m.callback (.lambda ⟨m.form, false, false, params, m.body.map loc⟩)).Owns
        ({⟨m.callback, .lambda ⟨m.form, false, false, params, m.body.map loc⟩⟩} + cells) :=
    hs.put _
  rw [Mapping.cells_withCallback, Body.map_map, Body.children_map]
  cases hindex : m.names[1]? with
  | none =>
    have hid : m.renamed tokens = id := by
      funext t
      rw [Mapping.renamed, hindex, id]
    refine ⟨_, .node_bind hcell.get_head ?_, (Store.size_put s m.callback
      (.lambda ⟨m.form, false, false, params, m.body.map loc⟩)).ge, ?_⟩
    · simp only [Mapping.candidate, hindex]
      rfl
    · simp only [hid, List.map_id, id]
      exact (hput hcell).congr (by abel)
  | some index =>
    have hrn : m.renamed tokens = renameFree index tokens.indexName := by
      funext t
      rw [Mapping.renamed, hindex]
    have hren := Store.Owns.rename m.body.children (hcell.congr (add_left_comm _ _ _)) index
      tokens.indexName
    refine ⟨(s.rename (m.body.children.map loc) index tokens.indexName).2.put m.callback
      (.lambda ⟨m.form, false, false, params, m.body.map loc⟩),
      .node_bind hcell.get_head ?_, ?_, ?_⟩
    · simp only [Mapping.candidate, hindex, Body.children_map]
      rfl
    · rw [Store.size_put]
      exact (Store.size_rename _ _ _ _).ge
    · simp only [hrn, loc_renameFree]
      exact (hput (hren.congr (add_left_comm _ _ _))).congr (by abel)

theorem normalize_runs {m : Mapping} (tokens : Tokens) (h : s.Owns (m.tree.cells + rest)) :
    ∃ (body : Body Loc) (s' : Store), Runs (m.candidate.normalize tokens) s () s' ∧
      s.size ≤ s'.size ∧
      s'.Owns (m.around + ({⟨m.callback, .lambda ⟨m.form, false, false,
          [.plain m.itemName, .plain tokens.indexName], body⟩⟩} +
        (cellsOf (m.leading.map (m.renamed tokens)) +
          ((m.renamed tokens m.subtree).cells + rest)))) := by
  obtain ⟨s', hrun, hle, hown⟩ := normalize_withCallback tokens h
  refine ⟨(m.body.map (m.renamed tokens)).map loc, s', hrun, hle, ?_⟩
  refine hown.drop (m.ending.spare m.resultParens m.subtree.loc) ?_
  rw [Mapping.cells_withCallback, Body.children_map, Mapping.cellsOf_renamed_body]
  abel

theorem returnRecord_runs {callback : Loc} {f : Lambda Loc} {leading : List Located}
    {record : Located}
    (h : s.Owns ({⟨callback, .lambda f⟩} + (cellsOf leading + (record.cells + rest)))) :
    ∃ last s', Runs (returnRecord callback (leading.map loc) record.loc) s () s' ∧
      s.size ≤ s'.size ∧
      s'.Owns ((Located.node callback (.lambda ⟨f.form, f.isAsync, f.generator, f.params,
        .block (leading ++ [.node last (.returning (some record))])⟩)).cells + rest) := by
  obtain ⟨r, s₁, hrun, hle, hown, hr, -⟩ := Gives.add (.returning (some record))
    (h.congr (show _ = cellsOf [record] + ({⟨callback, .lambda f⟩} + (cellsOf leading + rest)) by
      rw [cellsOf_cons, cellsOf_nil]; abel))
  have hown : s₁.Owns ({⟨callback, .lambda f⟩} + (r.cells + (cellsOf leading + rest))) :=
    hown.congr (add_left_comm _ _ _)
  have hre : r = .node r.loc (.returning (some record)) := by rw [← hr, eta]
  refine ⟨r.loc, _, hrun.bind (.node_bind hown.get_head rfl), hle.trans (Store.size_put s₁ callback
    (.lambda { f with body := .block (leading.map loc ++ [r.loc]) })).ge, ?_⟩
  · rw [← hre, cells_node]
    refine (hown.put _).congr ?_
    simp only [Node.map, Node.children, Body.map, Body.children, List.map_append, List.map_cons,
      List.map_nil, cellsOf_append, cellsOf_cons, cellsOf_nil]
    abel

/-! ### Nested loops -/

section

variable {adapter : Adapter} {L : Ledger adapter} {gs : List Premise}
    {item index : String} {w : Loc}
  {inner : List Located} {call receiver carrier : Located}

/-- The edit carries a nested loop by the record of the loop around it, and binds its wrapper. -/
def Attaches (L : Ledger adapter) (gs : List Premise) (item index : String) (w : Loc)
    (inner : List Located) (call receiver : Located) (rest : Multiset Cell) (s : Store)
    (edit : Edit (Binding × Owner)) : Prop :=
  ∃ (e : Event) (d : Draft) (hn : Noted adapter L.scope L.draft e d) (binding : Binding)
    (source : Located) (s' : Store),
    Runs edit s (binding, (L.note hn).owner) s' ∧ s.size ≤ s'.size ∧
    s'.Owns (cellsOf (heldBy (L.note hn).log) +
      ((Located.node w (wrapperNode adapter item index source inner)).cells + rest)) ∧
    e.use = .loop w binding ∧ e.source = receiver ∧ Guarded call gs e.carrier ∧
    Reaches L.scope.item receiver e.holding binding source

theorem Attaches.of_noted {edit : Edit Loc} {P : Located → Prop} {holding : Holding}
    {binding : Binding} {d : Draft}
    (hn : Noted adapter L.scope L.draft ⟨.loop w binding, receiver, holding, carrier⟩ d)
    (hheld : holding ≠ .item) (hg : Guarded call gs carrier)
    (h : Gives edit s (cellsOf (heldBy L.log) + (carrier.cells +
      ({⟨w, (wrapperNode adapter item index call inner).map loc⟩} + (cellsOf inner + rest)))) P)
    (hr : ∀ source, P source → Reaches L.scope.item receiver holding binding source) :
    Attaches L gs item index w inner call receiver rest s
      (do bindWrapper w (← edit); return (binding, (L.note hn).owner)) := by
  rw [add_left_comm carrier.cells, add_left_comm (cellsOf (heldBy L.log))] at h
  obtain ⟨source, s', hrun, hle, hown, hp⟩ := bindWrapper_runs (binding, (L.note hn).owner) h
  refine ⟨_, d, hn, binding, source, s', hrun, hle, hown.congr ?_, rfl, rfl, hg, hr source hp⟩
  have hlog : heldBy (L.note hn).log = heldBy L.log ++ [carrier] := by
    cases holding <;> simp_all [Ledger.note, heldBy, Event.held]
  rw [hlog, cells_node, children_wrapperNode]
  simp only [cellsOf_append, cellsOf_cons, cellsOf_nil]
  abel

theorem Attaches.after {e : Edit Loc} {f : Loc → Edit (Binding × Owner)} {l : Loc} {s₁ : Store}
    (hrun : Runs e s l s₁) (hle : s.size ≤ s₁.size)
    (h : Attaches L gs item index w inner call receiver rest s₁ (f l)) :
    Attaches L gs item index w inner call receiver rest s (e >>= f) := by
  obtain ⟨e, d, hn, binding, source, s', hrun', hle', hrest⟩ := h
  exact ⟨e, d, hn, binding, source, s', hrun.bind hrun', hle.trans hle', hrest⟩

theorem Attaches.get_bind {f : Store → Edit (Binding × Owner)}
    (h : Attaches L gs item index w inner call receiver rest s (f s)) :
    Attaches L gs item index w inner call receiver rest s (get >>= f) := h

theorem attachNested_attaches {c : Candidate} (hcall : c.call = call.loc)
    (hreceiver : c.receiver = receiver.loc) (hocc : Occurs receiver call)
    (h : s.Owns (cellsOf (heldBy L.log) +
      ((Located.node w (wrapperNode adapter item index call inner)).cells + rest)))
    (hg : ∀ g ∈ gs, g.tree.cells ≤ rest) :
    Attaches L gs item index w inner call receiver rest s
      (attachNested L.owner c (gs.map Premise.guard) w) := by
  rw [cells_node, children_wrapperNode, cellsOf_cons] at h
  obtain ⟨carrier, s₁, hrun₁, hle₁, hown₁, hguarded⟩ := Guarded.gives
    (h.congr (show _ = call.cells + (cellsOf (heldBy L.log) +
      ({⟨w, (wrapperNode adapter item index call inner).map loc⟩} + (cellsOf inner + rest)))
      by abel))
    (fun g hgs => (hg g hgs).trans (by
      rw [← add_assoc, ← add_assoc]
      exact Multiset.le_add_left _ _))
  have hown₁ : s₁.Owns (cellsOf (heldBy L.log) + (carrier.cells +
      ({⟨w, (wrapperNode adapter item index call inner).map loc⟩} + (cellsOf inner + rest)))) :=
    hown₁.congr (add_left_comm _ _ _)
  have hrec : receiver.cells ≤ cellsOf (heldBy L.log) + (carrier.cells +
      ({⟨w, (wrapperNode adapter item index call inner).map loc⟩} + (cellsOf inner + rest))) :=
    (hocc.trans hguarded.occurs).cells_le.trans
      ((Multiset.le_add_right _ _).trans (Multiset.le_add_left _ _))
  have hsource : nestedSource L.owner.scope s₁ c.receiver = nestedOf L.scope receiver := by
    rw [hreceiver]
    exact nestedSource_eq (hown₁.shows hrec)
  -- if nothing nearer is free, a numbered field carries the loop
  have fallback (hfree : L.draft.Refuses L.scope receiver carrier) :
      Attaches L gs item index w inner call receiver rest s₁
        (attachField L.owner c.receiver carrier.loc w) := by
    rw [hreceiver]
    refine Attaches.of_noted (.field w receiver carrier hfree) (by simp) hguarded
      (Gives.name _ hown₁) fun source hs => ?_
    rw [← eta source, hs]
    exact .field source.loc _
  rw [← hcall] at hrun₁
  refine Attaches.after hrun₁ hle₁ (Attaches.get_bind ?_)
  have hdraft : L.owner.draft = L.draft := rfl
  rw [hsource, hdraft]
  rw [hreceiver] at fallback ⊢
  cases hs : nestedOf L.scope receiver with
  | item =>
    simp only
    cases hd : L.draft.mergeItem receiver.loc carrier.loc with
    | none =>
      refine fallback ?_
      rw [Draft.Refuses, hs]
      exact hd
    | some d =>
      refine Attaches.of_noted (.merged w receiver carrier hs hd) (by simp) hguarded
        (Gives.name _ hown₁) fun source hs => ?_
      rw [← eta source, hs]
      exact .merged source.loc
  | itemPath properties =>
    simp only
    cases hd : L.draft.mergePath receiver.loc properties carrier.loc with
    | none =>
      refine fallback ?_
      rw [Draft.Refuses, hs]
      exact hd
    | some d =>
      exact Attaches.of_noted (.under w receiver carrier properties hs hd) (by simp) hguarded
        (Gives.clone hown₁ hrec) fun source hs => .under hs
  | «local» name =>
    simp only
    cases hd : L.draft.pushNamed receiver.loc name carrier.loc with
    | none =>
      refine fallback ?_
      rw [Draft.Refuses, hs]
      exact hd
    | some d =>
      exact Attaches.of_noted (.named w receiver carrier name hs hd) (by simp) hguarded
        (Gives.path _ _ hown₁) fun source hs => .named hs
  | unrelated =>
    refine fallback ?_
    rw [Draft.Refuses, hs]
    trivial

end

end JsxLoops.Loop
