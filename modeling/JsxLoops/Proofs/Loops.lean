import JsxLoops.Loop.Verify
import JsxLoops.Proofs.Logs
import JsxLoops.Proofs.Run

/-!
The loops of a run. Each loop that a run finds stands in what the run leaves: its wrapper in the
template, and its call in the loop attribute of the wrapper or in the record of the loop around it.
The loops take their numbers one after the other, and they inherit from the tree that is lowered
whatever renaming does not change.
-/

namespace JsxLoops.Loop

open JsxLoops.Tree Located

variable {adapter : Adapter} {start : Nat} {gs : List Premise} {ps ps' : List Part}
  {σ σ' : Stage adapter}

/-! ### The trees of parts -/

/-- The trees in a part. A node that is gone through is not counted itself. -/
def Part.trees : Part → List Located
  | .node t => t.here.children
  | .attribute _ _ a => a.children
  | .child t | .operand _ t | .statement t => [t]
  | .loop m => [m.tree]
  | .wrapper w => [w]

def treesOf (ps : List Part) : List Located := ps.flatMap Part.trees

@[simp] theorem treesOf_nil : treesOf [] = [] := rfl

@[simp] theorem treesOf_cons (p : Part) (ps : List Part) :
    treesOf (p :: ps) = p.trees ++ treesOf ps := List.flatMap_cons

/-- What a part of a node is: one of its attributes, or one of its children under conditions that
are children too. -/
inductive PartOf (l : Loc) (n : Node Located) : Part → Prop
  | valued {e : Element Located} {i : Nat} {a : Attribute Located} (hn : n = .element e)
      (ha : e.attributes[i]? = some a) : PartOf l n (.attribute l i a)
  | child {c : Located} (hn : ∀ f, n ≠ .lambda f) (hc : c ∈ n.children) : PartOf l n (.child c)
  | operand {under : List Premise} {c : Located} (hn : ∀ f, n ≠ .lambda f) (hc : c ∈ n.children)
      (hunder : ∀ g ∈ under, g.tree ∈ n.children) : PartOf l n (.operand under c)

theorem partOf_of_mem {l : Loc} {n : Node Located} {p : Part} (h : p ∈ partsOf l n) :
    PartOf l n p := by
  cases n with
  | element e =>
    rcases List.mem_append.1 h with h | h
    · obtain ⟨i, hi, rfl⟩ := List.mem_mapIdx.1 h
      exact .valued rfl (List.getElem?_eq_getElem hi)
    · obtain ⟨c, hc, rfl⟩ := List.mem_map.1 h
      exact .child (by simp) (List.mem_append_right _ hc)
  | fragment cs =>
    obtain ⟨c, hc, rfl⟩ := List.mem_map.1 h
    exact .child (by simp) hc
  | conditional | logical | paren =>
    simp only [partsOf, List.mem_cons, List.not_mem_nil, or_false] at h
    rcases h with rfl | rfl <;>
      exact .operand (by simp) (by simp [Node.children]) (by simp [Premise.tree, Node.children])
  | _ => cases h

def hasParts {α : Type} : Node α → Bool
  | .element _ | .fragment _ | .conditional _ _ _ | .logical _ _ _ | .paren _ => true
  | _ => false

/-- A lowered node is the one before, or it has parts. Its children then stand in these, or they
were there before. -/
theorem SameAround.eq_or_hasParts (l : Loc) {n n' : Node Located} (h : SameAround n n') :
    n' = n ∨ hasParts n = true ∧ hasParts n' = true ∧
      ∀ c ∈ n'.children, c ∈ n.children ∨ ∃ p ∈ partsOf l n', c ∈ p.trees := by
  cases n with
  | element e =>
    obtain ⟨as, cs, rfl, -⟩ := h
    refine .inr ⟨rfl, rfl, fun c hc => .inr ?_⟩
    rcases List.mem_append.1 hc with hc | hc
    · obtain ⟨a, ha, hc⟩ := List.mem_flatMap.1 hc
      obtain ⟨i, hi, rfl⟩ := List.getElem_of_mem ha
      exact ⟨.attribute l i as[i], List.mem_append_left _ (List.mem_mapIdx.2 ⟨i, hi, rfl⟩), hc⟩
    · exact ⟨.child c, List.mem_append_right _ (List.mem_map_of_mem hc), List.mem_singleton_self c⟩
  | fragment =>
    obtain ⟨cs, rfl⟩ := h
    exact .inr ⟨rfl, rfl, fun c hc =>
      .inr ⟨.child c, List.mem_map_of_mem hc, List.mem_singleton_self c⟩⟩
  | conditional test =>
    obtain ⟨yes, no, rfl⟩ := h
    exact .inr ⟨rfl, rfl, by simp [Node.children, partsOf, Part.trees]⟩
  | logical op left =>
    obtain ⟨right, rfl⟩ := h
    exact .inr ⟨rfl, rfl, by simp [Node.children, partsOf, Part.trees]⟩
  | paren =>
    obtain ⟨inner, rfl⟩ := h
    exact .inr ⟨rfl, rfl, by simp [Node.children, partsOf, Part.trees]⟩
  | _ => exact .inl h

theorem mem_children_of_mem_partsOf {l : Loc} {n : Node Located} {t : Located}
    (h : t ∈ treesOf (partsOf l n)) : t ∈ n.children := by
  obtain ⟨p, hp, ht⟩ := List.mem_flatMap.1 h
  cases partOf_of_mem hp with
  | valued hn ha =>
    rw [hn]
    exact List.mem_append_left _ (List.mem_flatMap.2 ⟨_, List.mem_of_getElem? ha, ht⟩)
  | child _ hc | operand _ hc => exact List.mem_singleton.1 ht ▸ hc

theorem Place.occurs_holding (place : Place) (v : Located) :
    ∃ t ∈ (place.holding v).trees, Occurs v t := by
  rcases place with (c | _) | _
  · exact ⟨_, List.mem_singleton_self _, .child (List.mem_singleton_self v) .self⟩
  · exact ⟨v, List.mem_singleton_self v, .self⟩
  · exact ⟨v, List.mem_singleton_self v, .self⟩

theorem Place.cells_le (place : Place) (v : Located) :
    v.cells ≤ cellsOf (place.holding v).trees := by
  obtain ⟨t, ht, ho⟩ := place.occurs_holding v
  exact ho.cells_le.trans (cells_le_of_mem ht)

theorem Place.mem_taken (place : Place) (w : Located) : w ∈ (place.taken w).trees := by
  rcases place with (_ | _) | _ <;> exact List.mem_singleton_self w

theorem cellsOf_partsOf_le (l : Loc) (n : Node Located) :
    cellsOf (treesOf (partsOf l n)) ≤ cellsOf n.children := by
  cases n with
  | element e =>
    refine le_of_eq (congrArg cellsOf ?_)
    simp only [partsOf, treesOf, Node.children, List.flatMap_append, List.flatMap_map, Part.trees]
    congr 1
    · rw [List.mapIdx_eq_zipIdx_map, List.flatMap_map]
      simp only [Part.trees]
      rw [← List.flatMap_map Prod.fst, List.zipIdx_map_fst]
    · simp
  | fragment cs =>
    exact le_of_eq (by simp [partsOf, treesOf, Node.children, List.flatMap_map, Part.trees])
  | conditional test yes no =>
    simp only [partsOf, treesOf_cons, treesOf_nil, Part.trees, Node.children, List.cons_append,
      List.nil_append, List.append_nil]
    exact Multiset.le_add_left _ _
  | logical op left right => exact Multiset.le_add_left _ _
  | paren inner => exact le_rfl
  | _ => exact Multiset.zero_le _

def Among (x : Located) (ts : List Located) : Prop := ∃ t ∈ ts, Occurs x t

theorem Among.mono {x : Located} {ts us : List Located} (h : Among x ts)
    (hs : ∀ t ∈ ts, Among t us) : Among x us := by
  obtain ⟨t, ht, hx⟩ := h
  obtain ⟨u, hu, ht⟩ := hs t ht
  exact ⟨u, hu, hx.trans ht⟩

theorem Among.trans {x y : Located} {ts : List Located} (h : Occurs x y) (hy : Among y ts) :
    Among x ts := by
  obtain ⟨t, ht, hy⟩ := hy
  exact ⟨t, ht, h.trans hy⟩

theorem Among.of_mem {x : Located} {ts : List Located} (h : x ∈ ts) : Among x ts := ⟨x, h, .self⟩

/-! ### The log of the loop around -/

def Stage.log (σ : Stage adapter) : List Event := σ.ledger.elim [] Ledger.log

theorem Continues.log_prefix {o o' : Option (Ledger adapter)} (h : Continues o o') :
    o.elim [] Ledger.log <+: o'.elim [] Ledger.log := by
  cases h with
  | alone => exact List.prefix_rfl
  | within h => exact h.log

theorem Lowers.log_prefix (h : Lowers adapter start gs ps σ ps' σ') : σ.log <+: σ'.log :=
  h.continues.log_prefix

theorem heldBy_subset {log log' : List Event} (h : log <+: log') :
    ∀ x ∈ heldBy log, x ∈ heldBy log' := by
  obtain ⟨more, rfl⟩ := h
  intro x hx
  rw [heldBy_append]
  exact List.mem_append_left _ hx

/-! ### Looking nodes up -/

theorem lookup_of_get {s : Store} {l : Loc} {n : Node Loc} (h : s.get l = n)
    (hn : n ≠ .literal "") : lookup s l = .ok n := by
  rw [Store.get, Array.getD_eq_getD_getElem?] at h
  rw [lookup]
  cases hl : s.nodes[l.index]? with
  | none =>
    rw [hl] at h
    exact absurd h.symm hn
  | some found =>
    rw [hl] at h
    exact congrArg _ h

theorem returnedRecord_of_lookup {s : Store} {f : Lambda Loc} {last record : Loc}
    {entries : List (Entry Loc)} (hlast : lastStatement? f.body = some last)
    (hreturn : lookup s last = .ok (.returning (some record)))
    (hrecord : lookup s record = .ok (.object entries)) : returnedRecord s f = .ok entries := by
  simp [returnedRecord, hlast, hreturn, hrecord, bind, Except.bind, pure, Except.pure]

theorem verifyCallback_of_lookup {s : Store} {site : Site} {f : Lambda Loc}
    (hf : lookup s site.callback = .ok (.lambda f))
    (hparams : f.params.map Binder.name? = [some site.itemName, some site.indexName]) :
    verifyCallback s site = returnedRecord s f := by
  simp [verifyCallback, hf, hparams, bind, Except.bind]

/-! ### Where loops stand -/

namespace Lowered

variable (lp : Lowered adapter)

theorem occurs_source : Occurs lp.source lp.tree :=
  .child (by rw [children_wrapperNode]; exact List.mem_cons_self) .self

theorem among_handedOver {x : Located} (h : x ∈ lp.subtree.here.children) :
    Among x (handedOver lp.subtree) := by
  rw [handedOver]
  split
  case h_1 cs hn =>
    rw [hn] at h
    exact .of_mem h
  case h_2 => exact ⟨_, List.mem_singleton_self _, .of_mem h⟩

theorem occurs_of_handedOver {x : Located} (h : x ∈ handedOver lp.subtree) : Occurs x lp.tree :=
  .child (by rw [children_wrapperNode]; exact List.mem_cons_of_mem _ h) .self

theorem occurs_of_subtree {x : Located} (h : x ∈ lp.subtree.here.children) : Occurs x lp.tree := by
  obtain ⟨t, ht, hx⟩ := lp.among_handedOver h
  exact hx.trans (lp.occurs_of_handedOver ht)

theorem occurs_leading {t : Located} (h : t ∈ lp.leading) : Occurs t lp.call :=
  lp.mapping.occurs_body _ (List.mem_append_left _ h)

theorem occurs_callback : Occurs (.node lp.mapping.callback (.lambda ⟨lp.mapping.form, false, false,
    [.plain lp.mapping.itemName, .plain lp.tokens.indexName],
    .block (lp.leading ++ [node lp.last (.returning (some lp.record))])⟩)) lp.call :=
  lp.mapping.occurs_callback _ _

theorem occurs_record : Occurs lp.record lp.call :=
  .trans (.child (List.mem_singleton_self _) .self)
    (lp.mapping.occurs_body _ (List.mem_append_right _ (List.mem_singleton_self _)))

theorem verifyCallback_eq {s : Store} (hs : s.Shows lp.call) {l : Loc}
    {entries : List (Entry Located)} (hr : lp.record = .node l (.object entries)) :
    verifyCallback s lp.site = .ok (entries.map (Entry.map loc)) := by
  have hcallback := (hs.occurs lp.occurs_callback).get_root
  have hrecord := (hs.occurs lp.occurs_record).get_loc
  have hlast := (hs.occurs lp.occurs_callback).child
    (c := .node lp.last (.returning (some lp.record)))
    (List.mem_append_right _ (List.mem_singleton_self _)) |>.get_root
  refine (verifyCallback_of_lookup (lookup_of_get hcallback nofun) rfl).trans
    (returnedRecord_of_lookup ?_ (lookup_of_get hlast nofun)
      (lookup_of_get (hrecord.trans (congrArg _ (congrArg _ hr))) nofun))
  simp [lastStatement?, Body.map]

end Lowered

/-- What lowering its statements and its template makes of a loop, wherever it is found. -/
inductive Formed (start : Nat) (lp : Lowered adapter) : Prop
  | intro {a : Allocator} {loops : List (Lowered adapter)} {outer : List LoopScope}
    {σ₁ σ₂ : Stage adapter} (hm : lp.mapping.Valid) (htokens : lp.tokens = a.allocate.1)
    (hleading : Lowers adapter start []
      (lp.mapping.leading.map fun t => .statement (lp.mapping.renamed lp.tokens t))
      ⟨a.allocate.2, loops, none⟩ (lp.leading.map .statement) σ₁)
    (hsubtree : Lowers adapter start [] [.node (lp.mapping.renamed lp.tokens lp.mapping.subtree)]
      { σ₁ with ledger := some (.start adapter (lp.mapping.scope lp.tokens) outer lp.tokens) }
      [.node lp.subtree] σ₂)
    (hledger : σ₂.ledger = some lp.ledger)
    (hrecord : IsRecord lp.mapping.itemName lp.tokens.keyToken lp.ledger.log lp.record)

namespace Formed

variable {lp : Lowered adapter}

theorem ledger (h : Formed start lp) : lp.ledger.scope = lp.mapping.scope lp.tokens ∧
    lp.ledger.id = lp.tokens.id ∧ lp.ledger.keyToken = lp.tokens.keyToken := by
  obtain ⟨-, -, -, hsubtree, hledger, -⟩ := h
  have hc := hsubtree.continues
  rw [hledger] at hc
  cases hc with
  | within hg => exact ⟨hg.scope, hg.id, hg.keyToken⟩

theorem logged (h : Formed start lp) : Logged adapter (lp.mapping.scope lp.tokens)
    { item := lp.mapping.itemName, keyToken := lp.tokens.keyToken } lp.ledger.log
    lp.ledger.draft := by
  obtain ⟨hscope, -, hkey⟩ := h.ledger
  have hl := lp.ledger.logged
  rw [hscope, hkey] at hl
  exact hl

theorem isRecord (h : Formed start lp) :
    IsRecord lp.mapping.itemName lp.tokens.keyToken lp.ledger.log lp.record := by
  obtain ⟨-, -, -, -, -, hrecord⟩ := h
  exact hrecord

theorem record_eq (h : Formed start lp) : ∃ (l key : Loc) (v : Located),
    IsItem lp.mapping.itemName (itemOf lp.ledger.log) v ∧
    lp.record = .node l (.object (.field lp.mapping.itemName v ::
      .field keyField (.node key (.name lp.tokens.keyToken)) ::
      (fieldsOf lp.ledger.log).map fun f => .field f.1 f.2)) := by
  have hr := h.isRecord
  generalize lp.record = record at hr
  obtain ⟨l, key, hv⟩ := hr
  exact ⟨l, key, _, hv, rfl⟩

theorem verifyCallback_eq {s : Store} (h : Formed start lp) (hs : s.Shows lp.call) :
    ∃ (key : Loc) (v : Located), IsItem lp.mapping.itemName (itemOf lp.ledger.log) v ∧
      Occurs v lp.call ∧ verifyCallback s lp.site = .ok (.field lp.mapping.itemName v.loc ::
        .field keyField key :: (fieldsOf lp.ledger.log).map fun f => .field f.1 f.2.loc) := by
  obtain ⟨l, key, v, hv, hr⟩ := h.record_eq
  refine ⟨key, v, hv, .trans (.of_mem ?_) lp.occurs_record, ?_⟩
  · simp [hr, Node.children]
  · rw [lp.verifyCallback_eq hs hr]
    simp [Entry.map, Entry.field, Key.map]

theorem occurs_held (h : Formed start lp) {x : Located} (hx : x ∈ heldBy lp.ledger.log) :
    Occurs x lp.call :=
  (h.isRecord.occurs h.logged hx).trans lp.occurs_record

end Formed

/-- The wrapper and the call of a loop stand in some trees. -/
structure Placed (lp : Lowered adapter) (ts : List Located) : Prop where
  tree : Among lp.tree ts
  call : Among lp.call ts

theorem Placed.mono {lp : Lowered adapter} {ts us : List Located} (h : Placed lp ts)
    (hs : ∀ t ∈ ts, Among t us) : Placed lp us :=
  ⟨h.tree.mono hs, h.call.mono hs⟩

theorem Bound.among_call {lp : Lowered adapter} {parent parent' : Option (Ledger adapter)}
    (h : Bound gs lp parent parent') :
    Among lp.call (lp.tree :: heldBy (parent'.elim [] Ledger.log)) := by
  cases h with
  | inline hs => exact ⟨_, List.mem_cons_self, hs ▸ lp.occurs_source⟩
  | @nested L e d hn hu _ hc hr =>
    refine ⟨e.carrier, List.mem_cons_of_mem _ ?_, hc.occurs⟩
    rw [Option.elim_some, Ledger.note, heldBy_append]
    refine List.mem_append_right _ (List.mem_flatMap.2 ⟨e, List.mem_singleton_self e, ?_⟩)
    rw [Event.held]
    split
    case h_1 hh => rw [hh] at hr; cases hr
    case h_2 => exact List.mem_singleton_self _

/-- Every loop that is found stands in what is left, or in the record of the loop around. -/
theorem Lowers.placed (h : Lowers adapter start gs ps σ ps' σ') :
    ∀ lp ∈ σ'.loops, lp ∈ σ.loops ∨ Placed lp (treesOf ps' ++ heldBy σ'.log) := by
  have lift {lp : Lowered adapter} {σ σ' : Stage adapter} {ts us : List Located}
      (hs : ∀ t ∈ ts, Among t us) (h : lp ∈ σ.loops ∨ Placed lp (ts ++ heldBy σ'.log)) :
      lp ∈ σ.loops ∨ Placed lp (us ++ heldBy σ'.log) := by
    refine h.imp_right fun hp => hp.mono fun t ht => ?_
    rcases List.mem_append.1 ht with ht | ht
    · obtain ⟨u, hu, ho⟩ := hs t ht
      exact ⟨u, List.mem_append_left _ hu, ho⟩
    · exact .of_mem (List.mem_append_right _ ht)
  induction h with
  | nil | inert | leave | keep | move => exact fun lp hlp => .inl hlp
  | @cons _ p p' ps ps' σ σ₁ σ₂ _ hs ih ihs =>
    intro lp hlp
    rcases ihs lp hlp with hlp | hlp
    · refine (ih lp hlp).imp_right fun hp => hp.mono fun t ht => .of_mem ?_
      simp only [treesOf_cons, treesOf_nil, List.append_nil, List.mem_append] at ht ⊢
      exact ht.imp .inl (heldBy_subset hs.log_prefix t)
    · refine .inr (hlp.mono fun t ht => .of_mem ?_)
      simp only [treesOf_cons, List.mem_append] at ht ⊢
      exact ht.imp .inr id
  | node _ _ ih =>
    exact fun lp hlp => lift (fun t ht => .of_mem (by
      simpa [Part.trees] using mem_children_of_mem_partsOf ht)) (ih lp hlp)
  | @markup _ t t' _ _ _ _ ih =>
    exact fun lp hlp => lift (fun x hx => ⟨t', by simp [Part.trees], .of_mem (by
      simpa [Part.trees] using hx)⟩) (ih lp hlp)
  | @enter _ place v v' _ _ _ _ ih =>
    intro lp hlp
    obtain ⟨u, hu, ho⟩ := place.occurs_holding v'
    exact lift (fun x hx => ⟨u, by simpa using hu, (Occurs.of_mem (by
      simpa [Part.trees] using hx)).trans ho⟩) (ih lp hlp)
  | @loop _ place _ _ w _ _ _ _ ih =>
    intro lp hlp
    exact lift (fun x hx => .of_mem (by
      obtain rfl : x = w := by simpa [Part.trees] using hx
      simpa using place.mem_taken x)) (ih lp hlp)
  | @search _ l n n' _ _ _ _ _ ih =>
    intro lp hlp
    exact lift (fun x hx => ⟨.node l n', by simp [Part.trees], .of_mem (by
      simpa [treesOf, List.flatMap_map, Part.trees] using hx)⟩) (ih lp hlp)
  | @found _ t t' _ _ _ _ ih =>
    exact fun lp hlp => lift (fun x hx => ⟨t', by simp [Part.trees], .of_mem (by
      simpa [Part.trees] using hx)⟩) (ih lp hlp)
  | @site _ lp σ σ₁ σ₂ parent hm htokens _ hleading hsubtree hledger hrecord _ _ hbound ihl ihs =>
    have hformed : Formed start lp := .intro hm htokens hleading hsubtree hledger hrecord
    -- the trees in which an inner loop stands are parts of the call or of the wrapper
    have hcall : Among lp.call (lp.tree :: heldBy (parent.elim [] Ledger.log)) := hbound.among_call
    have htree : Among lp.tree (lp.tree :: heldBy (parent.elim [] Ledger.log)) :=
      .of_mem List.mem_cons_self
    intro inner hinner
    rcases List.mem_append.1 hinner with hinner | hinner
    · rcases ihs inner hinner with hinner | hinner
      · refine (ihl inner hinner).imp_right fun hp => hp.mono fun t ht => ?_
        have hnone : σ₁.log = [] := by
          rw [Stage.log, hleading.continues.eq_none rfl, Option.elim_none]
        rw [hnone, heldBy, List.flatMap_nil, List.append_nil] at ht
        exact .trans (lp.occurs_leading (by simpa [treesOf, List.flatMap_map, Part.trees] using ht))
          hcall
      · refine .inr (hinner.mono fun t ht => ?_)
        rcases List.mem_append.1 ht with ht | ht
        · exact .trans (lp.occurs_of_subtree (by simpa [Part.trees] using ht)) htree
        · rw [Stage.log, hledger] at ht
          exact .trans (hformed.occurs_held ht) hcall
    · obtain rfl := List.mem_singleton.1 hinner
      exact .inr ⟨htree, hcall⟩

/-! ### What loops are made of -/

theorem Lowers.loops_prefix (h : Lowers adapter start gs ps σ ps' σ') :
    σ.loops <+: σ'.loops := by
  induction h with
  | nil | inert | leave | keep | move => exact List.prefix_rfl
  | cons _ _ ih ihs => exact ih.trans ihs
  | node _ _ ih | markup _ _ ih | enter _ _ ih | loop _ _ ih | search _ _ _ ih | found _ _ ih =>
    exact ih
  | site lp _ _ _ _ _ _ _ _ _ _ ihl ihs =>
    exact ihl.trans (ihs.trans (List.prefix_append _ _))

theorem Lowers.formed (h : Lowers adapter start gs ps σ ps' σ') :
    ∀ lp ∈ σ'.loops, lp ∈ σ.loops ∨ Formed start lp := by
  induction h with
  | nil | inert | leave | keep | move => exact fun lp hlp => .inl hlp
  | cons _ _ ih ihs => exact fun lp hlp => (ihs lp hlp).elim (ih lp) .inr
  | node _ _ ih | markup _ _ ih | enter _ _ ih | loop _ _ ih | search _ _ _ ih | found _ _ ih =>
    exact ih
  | site lp hm htokens _ hleading hsubtree hledger hrecord _ _ _ ihl ihs =>
    intro inner hinner
    rcases List.mem_append.1 hinner with hinner | hinner
    · exact (ihs inner hinner).elim (ihl inner) .inr
    · obtain rfl := List.mem_singleton.1 hinner
      exact .inr (.intro hm htokens hleading hsubtree hledger hrecord)

/-- The mapping call of a loop has what the lowered trees have, if renaming does not change it. -/
theorem Lowers.inherits {P : Located → Prop} (hchild : ∀ t c, P t → c ∈ t.here.children → P c)
    (hrename : ∀ a b t, P t → P (t.renameFree a b)) (h : Lowers adapter start gs ps σ ps' σ') :
    (∀ t ∈ treesOf ps, P t) → ∀ lp ∈ σ'.loops, lp ∈ σ.loops ∨ P lp.mapping.tree := by
  have hoccurs {t u : Located} (hu : Occurs u t) (ht : P t) : P u := by
    induction hu with
    | self => exact ht
    | child hc _ ih => exact ih (hchild _ _ ht hc)
  have hrenamed (m : Mapping) (tokens : Tokens) {t : Located} (ht : P t) :
      P (m.renamed tokens t) := by
    rw [Mapping.renamed]
    split
    · exact hrename _ _ _ ht
    · exact ht
  induction h with
  | nil | inert | leave | keep | move => exact fun _ lp hlp => .inl hlp
  | cons _ _ ih ihs =>
    intro hps lp hlp
    rw [treesOf_cons] at hps
    rcases ihs (fun t ht => hps t (List.mem_append_right _ ht)) lp hlp with hlp | hlp
    · refine ih (fun t ht => hps t (List.mem_append_left _ ?_)) lp hlp
      simpa using ht
    · exact .inr hlp
  | @node _ l n _ _ _ _ _ ih =>
    intro hps
    refine ih fun t ht => hps t ?_
    simpa [Part.trees] using mem_children_of_mem_partsOf ht
  | @markup _ t _ _ _ _ _ ih | @found _ t _ _ _ _ _ ih =>
    intro hps
    refine ih fun c hc => hchild t c (hps t (by simp [Part.trees])) ?_
    simpa [Part.trees] using hc
  | @enter _ place v _ _ _ _ _ ih =>
    intro hps
    obtain ⟨u, hu, ho⟩ := place.occurs_holding v
    refine ih fun c hc => hchild v c (hoccurs ho (hps u (by simpa using hu))) ?_
    simpa [Part.trees] using hc
  | @loop _ place parens m _ _ _ _ _ ih =>
    intro hps
    obtain ⟨u, hu, ho⟩ := place.occurs_holding (inParens parens m.tree)
    refine ih fun t ht => ?_
    obtain rfl : t = m.tree := by simpa [Part.trees] using ht
    exact hoccurs ((occurs_inParens _ _).trans ho) (hps u (by simpa using hu))
  | @search _ l n _ _ _ _ _ _ ih =>
    intro hps
    refine ih fun c hc => hchild (.node l n) c (hps _ (by simp [Part.trees])) ?_
    simpa [treesOf, List.flatMap_map, Part.trees] using hc
  | site lp _ _ _ _ _ _ _ _ _ _ ihl ihs =>
    intro hps inner hinner
    have hmapping : P lp.mapping.tree := hps _ (by simp [Part.trees])
    rcases List.mem_append.1 hinner with hinner | hinner
    · rcases ihs (fun c hc => hchild _ c (hrenamed lp.mapping lp.tokens
        (hoccurs lp.mapping.occurs_subtree hmapping)) (by simpa [Part.trees] using hc))
        inner hinner with hinner | hinner
      · refine ihl (fun t ht => ?_) inner hinner
        simp only [treesOf, List.flatMap_map, Part.trees, List.mem_flatMap,
          List.mem_singleton] at ht
        obtain ⟨u, hu, rfl⟩ := ht
        exact hrenamed lp.mapping lp.tokens (hoccurs (lp.mapping.occurs_leading hu) hmapping)
      · exact .inr hinner
    · obtain rfl := List.mem_singleton.1 hinner
      exact .inr hmapping

/-! ### What loops hang on -/

/-- A loop stands alone, or it is bound through the record of one of some loops. -/
inductive Fastened (lp : Lowered adapter) (ledgers : List (Ledger adapter)) : Prop
  | alone (hp : lp.parent = none) (hb : lp.binding = .inline) (hs : lp.source = lp.call)
  | within {L : Ledger adapter} {e : Event} {gs : List Premise} (hL : L ∈ ledgers)
    (hp : lp.parent = some L.id) (he : e ∈ L.log) (hu : e.use = .loop lp.wrapper lp.binding)
    (hs : e.source = lp.mapping.receiver) (hc : Guarded lp.call gs e.carrier)
    (hr : Reaches L.scope.item lp.mapping.receiver e.holding lp.binding lp.source)

theorem Fastened.mono {lp : Lowered adapter} {ledgers ledgers' : List (Ledger adapter)}
    (h : Fastened lp ledgers) (hs : ∀ L ∈ ledgers, ∃ L' ∈ ledgers', L.Grows L') :
    Fastened lp ledgers' := by
  cases h with
  | alone hp hb hs => exact .alone hp hb hs
  | within hL hp he hu hsource hc hr =>
    obtain ⟨L', hL', hg⟩ := hs _ hL
    exact .within hL' (hp.trans (congrArg some hg.id.symm)) (hg.log.subset he) hu hsource hc
      (hg.scope ▸ hr)

def Stage.ledgers (σ : Stage adapter) : List (Ledger adapter) :=
  σ.ledger.toList ++ σ.loops.map Lowered.ledger

theorem Ledger.Grows.refl (L : Ledger adapter) : L.Grows L :=
  ⟨rfl, rfl, rfl, rfl, List.prefix_rfl⟩

theorem Lowers.ledgers_grow (h : Lowers adapter start gs ps σ ps' σ') :
    ∀ L ∈ σ.ledgers, ∃ L' ∈ σ'.ledgers, L.Grows L' := by
  intro L hL
  rcases List.mem_append.1 hL with hL | hL
  · have hc := h.continues
    rw [Option.mem_toList.1 hL] at hc
    generalize hσ : σ'.ledger = o at hc
    cases hc with
    | within hg => exact ⟨_, List.mem_append_left _ (Option.mem_toList.2 hσ), hg⟩
  · obtain ⟨lp, hlp, rfl⟩ := List.mem_map.1 hL
    exact ⟨_, List.mem_append_right _ (List.mem_map_of_mem (h.loops_prefix.subset hlp)), .refl _⟩

theorem Bound.fastened {lp : Lowered adapter} {o o' : Option (Ledger adapter)}
    (h : Bound gs lp o o') (hp : lp.parent = o.map Ledger.id) : Fastened lp o'.toList := by
  cases h with
  | inline hs hb => exact .alone hp hb hs
  | nested h hu hs hc hr =>
    exact .within (List.mem_singleton_self _) hp
      (List.mem_append_right _ (List.mem_singleton_self _)) hu hs hc hr

theorem Lowers.fastened (h : Lowers adapter start gs ps σ ps' σ') :
    ∀ lp ∈ σ'.loops, lp ∈ σ.loops ∨ Fastened lp σ'.ledgers := by
  induction h with
  | nil | inert | leave | keep | move => exact fun lp hlp => .inl hlp
  | cons _ hs ih ihs =>
    intro lp hlp
    rcases ihs lp hlp with hlp | hlp
    · exact (ih lp hlp).imp_right fun hf => hf.mono hs.ledgers_grow
    · exact .inr hlp
  | node _ _ ih | markup _ _ ih | enter _ _ ih | loop _ _ ih | search _ _ _ ih | found _ _ ih =>
    exact ih
  | @site _ lp σ σ₁ σ₂ parent _ _ hparent hleading hsubtree hledger _ _ _ hbound ihl ihs =>
    have hloops {L : Ledger adapter} (hL : L ∈ (σ₂.loops ++ [lp]).map Lowered.ledger) :
        ∃ L' ∈ (⟨σ₂.allocator, σ₂.loops ++ [lp], parent⟩ : Stage adapter).ledgers, L.Grows L' :=
      ⟨L, List.mem_append_right _ hL, .refl L⟩
    intro inner hinner
    rcases List.mem_append.1 hinner with hinner | hinner
    · rcases ihs inner hinner with hinner | hinner
      · refine (ihl inner hinner).imp_right fun hf => hf.mono fun L hL => hloops ?_
        rw [Stage.ledgers, hleading.continues.eq_none rfl] at hL
        obtain ⟨x, hx, rfl⟩ := List.mem_map.1 hL
        exact List.mem_map_of_mem (List.mem_append_left _ (hsubtree.loops_prefix.subset hx))
      · refine .inr (hinner.mono fun L hL => hloops ?_)
        rw [Stage.ledgers, hledger] at hL
        rcases List.mem_append.1 hL with hL | hL
        · obtain rfl := List.mem_singleton.1 hL
          exact List.mem_map_of_mem (List.mem_append_right _ (List.mem_singleton_self lp))
        · rw [List.map_append]
          exact List.mem_append_left _ hL
    · obtain rfl := List.mem_singleton.1 hinner
      refine .inr ((hbound.fastened hparent).mono fun L hL => ⟨L, ?_, .refl L⟩)
      exact List.mem_append_left _ hL

/-! ### The numbers of loops -/

def Allocator.numbers (a : Allocator) (count : Nat) : List UInt32 :=
  (List.range count).map fun i => a.next + UInt32.ofNat i

def Allocator.skip (a : Allocator) (count : Nat) : Allocator := ⟨a.next + UInt32.ofNat count⟩

theorem Allocator.numbers_add (a : Allocator) (m n : Nat) :
    a.numbers (m + n) = a.numbers m ++ (a.skip m).numbers n := by
  simp [numbers, skip, List.range_add, UInt32.ofNat_add, UInt32.add_assoc]

theorem Allocator.skip_skip (a : Allocator) (m n : Nat) : (a.skip m).skip n = a.skip (m + n) := by
  simp [skip, UInt32.ofNat_add, UInt32.add_assoc]

theorem Lowers.numbers (h : Lowers adapter start gs ps σ ps' σ') :
    ∃ new, σ'.loops = σ.loops ++ new ∧ σ'.allocator = σ.allocator.skip new.length ∧
      (new.map fun lp => lp.tokens.id).Perm (σ.allocator.numbers new.length) := by
  induction h with
  | nil | inert | leave | keep | move =>
    exact ⟨[], by simp, by simp [Allocator.skip], by simp [Allocator.numbers]⟩
  | cons _ _ ih ihs =>
    obtain ⟨new, hloops, ha, hperm⟩ := ih
    obtain ⟨new', hloops', ha', hperm'⟩ := ihs
    refine ⟨new ++ new', by rw [hloops', hloops, List.append_assoc], ?_, ?_⟩
    · rw [ha', ha, Allocator.skip_skip, List.length_append]
    · rw [List.map_append, List.length_append, Allocator.numbers_add]
      rw [ha] at hperm'
      exact hperm.append hperm'
  | node _ _ ih | markup _ _ ih | enter _ _ ih | loop _ _ ih | search _ _ _ ih | found _ _ ih =>
    exact ih
  | @site _ lp σ _ _ _ _ htokens _ _ _ _ _ _ _ _ ihl ihs =>
    obtain ⟨new, hloops, ha, hperm⟩ := ihl
    obtain ⟨new', hloops', ha', hperm'⟩ := ihs
    have hfirst : σ.allocator.allocate.2 = σ.allocator.skip 1 := rfl
    have hid : lp.tokens.id = σ.allocator.next := by rw [htokens]; rfl
    dsimp only at hloops hloops' ha ha' hperm hperm'
    rw [ha, hfirst, Allocator.skip_skip] at hperm' ha'
    refine ⟨new ++ new' ++ [lp], by simp [hloops', hloops], ?_, ?_⟩
    · simp only [ha', Allocator.skip_skip, List.length_append, List.length_singleton]
      congr 1
      omega
    · have hcount : (new ++ new' ++ [lp]).length = 1 + (new.length + new'.length) := by
        simp only [List.length_append, List.length_singleton]
        omega
      rw [hcount, Allocator.numbers_add, Allocator.numbers_add, Allocator.skip_skip]
      simp only [List.map_append, List.map_singleton, hid]
      refine List.perm_append_comm.trans ((List.Perm.append ?_ (hperm.append hperm')))
      simp [Allocator.numbers]

/-! ### The length of logs -/

theorem card_cells_pos (t : Located) : 0 < t.cells.card :=
  Multiset.card_pos_iff_exists_mem.2 ⟨_, root_mem_cells t⟩

theorem card_cells_node (l : Loc) (n : Node Located) :
    (Located.node l n).cells.card = 1 + (cellsOf n.children).card := by
  rw [cells_node, Multiset.card_add, Multiset.card_singleton]

theorem Lowers.length_log_le (h : Lowers adapter start gs ps σ ps' σ') :
    σ'.log.length ≤ σ.log.length + (cellsOf (treesOf ps)).card := by
  induction h with
  | nil | inert | leave | keep => exact Nat.le_add_right _ _
  | cons _ _ ih ihs =>
    simp only [treesOf_cons, treesOf_nil, List.append_nil, cellsOf_append,
      Multiset.card_add] at ih ⊢
    omega
  | @node _ l n _ _ _ _ _ ih =>
    have := Multiset.card_le_card (cellsOf_partsOf_le l n)
    simp only [treesOf_cons, treesOf_nil, List.append_nil, Part.trees, here_node]
    omega
  | @markup _ t _ _ _ _ _ ih | @found _ t _ _ _ _ _ ih =>
    have := card_cells_node t.loc t.here
    simp only [treesOf_cons, treesOf_nil, List.append_nil, Part.trees, cellsOf_cons, cellsOf_nil,
      add_zero] at ih ⊢
    rw [eta] at this
    omega
  | @enter _ place v _ _ _ _ _ ih =>
    have := card_cells_node v.loc v.here
    have := Multiset.card_le_card (place.cells_le v)
    simp only [treesOf_cons, treesOf_nil, List.append_nil] at ih ⊢
    rw [Part.trees] at ih
    rw [eta] at *
    omega
  | @move _ spot v _ _ L e _ _ _ he =>
    have := Multiset.card_le_card (Place.cells_le (.spot spot) v)
    have := card_cells_pos v
    simp only [treesOf_cons, treesOf_nil, List.append_nil, Stage.log, Option.elim_some,
      Ledger.note, List.length_append, List.length_singleton]
    omega
  | @loop _ place parens m _ _ _ _ _ ih =>
    have := Multiset.card_le_card (place.cells_le (inParens parens m.tree))
    have := Multiset.card_le_card (occurs_inParens parens m.tree).cells_le
    simp only [treesOf_cons, treesOf_nil, List.append_nil] at ih ⊢
    rw [Part.trees, cellsOf_cons, cellsOf_nil, add_zero] at ih
    omega
  | @search _ l n _ _ _ _ _ _ ih =>
    have := card_cells_node l n
    simp only [treesOf, List.flatMap_map, List.flatMap_cons, List.flatMap_nil, List.append_nil,
      Part.trees, List.flatMap_singleton', cellsOf_cons, cellsOf_nil, add_zero] at ih ⊢
    omega
  | @site _ lp σ _ _ parent _ _ _ _ _ _ _ _ _ hbound =>
    have := card_cells_pos lp.mapping.tree
    have hone : (parent.elim [] Ledger.log).length ≤ σ.log.length + 1 := by
      rw [Stage.log]
      generalize σ.ledger = o at hbound
      cases hbound with
      | inline => exact Nat.zero_le _
      | nested => simp [Ledger.note]
    simp only [treesOf_cons, treesOf_nil, List.append_nil, Part.trees, cellsOf_cons, cellsOf_nil,
      add_zero]
    exact hone.trans (by omega)

/-! ### Whole runs -/

theorem occurs_of_ne_loc {x : Located} {l l' : Loc} {n : Node Located}
    (h : Occurs x (.node l n)) (hx : x.loc ≠ l) : Occurs x (.node l' n) := by
  cases h with
  | self => exact absurd rfl hx
  | child hc h => exact .child hc h

namespace LowersWhole

variable {a a' : Allocator} {t t' : Located} {loops : List (Lowered adapter)}

theorem formed (h : LowersWhole adapter start a t t' a' loops) : ∀ lp ∈ loops, Formed start lp := by
  cases h with
  | inside hc h => exact fun lp hlp => (h.formed lp hlp).resolve_left List.not_mem_nil
  | @root ps m call lp inner _ hcall h =>
    have hnew (x : Lowered adapter) (hx : x ∈ inner ++ [lp]) : Formed start x :=
      (h.formed x hx).resolve_left List.not_mem_nil
    intro x hx
    rcases List.mem_append.1 hx with hx | hx
    · exact hnew x (List.mem_append_left _ hx)
    · obtain rfl := List.mem_singleton.1 hx
      obtain ⟨hm, htokens, hleading, hsubtree, hledger, hrecord⟩ :=
        hnew lp (List.mem_append_right _ (List.mem_singleton_self lp))
      exact .intro hm htokens hleading hsubtree hledger hrecord

theorem fastened (h : LowersWhole adapter start a t t' a' loops) :
    ∀ lp ∈ loops, Fastened lp (loops.map Lowered.ledger) := by
  cases h with
  | @inside _ _ _ σ hc h =>
    intro lp hlp
    refine ((h.fastened lp hlp).resolve_left List.not_mem_nil).mono fun L hL => ⟨L, ?_, .refl L⟩
    rwa [Stage.ledgers, h.continues.eq_none rfl] at hL
  | @root ps m call lp inner _ hcall h =>
    intro x hx
    rcases List.mem_append.1 hx with hx | hx
    · refine ((h.fastened x (List.mem_append_left _ hx)).resolve_left List.not_mem_nil).mono
        fun L hL => ⟨L, ?_, .refl L⟩
      simpa [Stage.ledgers] using hL
    · obtain rfl := List.mem_singleton.1 hx
      obtain ⟨lp', inner', -, -, hloops, -, -, hp, hb⟩ := h.of_loop
      obtain rfl : lp = lp' := by simpa using (List.append_inj' hloops rfl).2
      cases hb with
      | inline hs hb => exact .alone hp hb hs

theorem placed (h : LowersWhole adapter start a t t' a' loops) :
    ∀ lp ∈ loops, Occurs lp.tree t' ∧ Occurs lp.call t' := by
  cases h with
  | @inside t t' _ σ hc h =>
    intro lp hlp
    have hp := (h.placed lp hlp).resolve_left List.not_mem_nil
    have hlog : σ.log = [] := by rw [Stage.log, h.continues.eq_none rfl, Option.elim_none]
    have hsub : ∀ x, Among x (treesOf [.node t'] ++ heldBy σ.log) → Occurs x t' := by
      rintro x ⟨u, hu, hx⟩
      refine hx.trans (.of_mem ?_)
      simpa [hlog, heldBy, Part.trees] using hu
    exact ⟨hsub _ hp.tree, hsub _ hp.call⟩
  | @root ps m call lp inner _ hcall h =>
    have hsub : ∀ x, Among x (treesOf [.wrapper lp.tree] ++ heldBy []) → Occurs x lp.tree := by
      rintro x ⟨u, hu, hx⟩
      obtain rfl : u = lp.tree := by simpa [heldBy, Part.trees] using hu
      exact hx
    obtain ⟨lp', inner', -, -, hloops, hfresh, -⟩ := h.of_loop
    obtain ⟨rfl, hlp⟩ := List.append_inj' hloops rfl
    obtain rfl : lp = lp' := by simpa using hlp
    -- the calls are no elements, and the inner wrappers stand elsewhere
    have hcalls (x : Lowered adapter) (hx : Occurs x.call lp.tree) :
        Occurs x.call (Lowered.tree { lp with wrapper := m.call }) := by
      generalize hc : x.call = c at hx
      cases hx with
      | self => simp [Lowered.call, Lowered.tree, Mapping.withCallback, wrapperNode] at hc
      | child hc h => exact .child hc h
    intro x hx
    rcases List.mem_append.1 hx with hx | hx
    · have hp := (h.placed x (List.mem_append_left _ hx)).resolve_left List.not_mem_nil
      have hne : x.tree.loc ≠ lp.wrapper := fun he =>
        (hfresh x hx).ne (congrArg Loc.index (show x.wrapper = lp.wrapper from he))
      exact ⟨(occurs_of_ne_loc (hsub _ hp.tree) hne).trans (occurs_inParens ps _),
        (hcalls x (hsub _ hp.call)).trans (occurs_inParens ps _)⟩
    · obtain rfl := List.mem_singleton.1 hx
      have hp := (h.placed lp (by simp)).resolve_left List.not_mem_nil
      exact ⟨occurs_inParens ps _, (hcalls lp (hsub _ hp.call)).trans (occurs_inParens ps _)⟩

theorem inherits {P : Located → Prop} (hchild : ∀ t c, P t → c ∈ t.here.children → P c)
    (hrename : ∀ a b t, P t → P (t.renameFree a b))
    (hmove : ∀ l l' n, P (.node l n) → P (.node l' n))
    (h : LowersWhole adapter start a t t' a' loops) (ht : P t) :
    ∀ lp ∈ loops, P lp.mapping.tree := by
  cases h with
  | inside hc h =>
    refine fun lp hlp => (h.inherits hchild hrename (fun c hc => ?_) lp hlp).resolve_left
      List.not_mem_nil
    exact hchild t c ht (by simpa [Part.trees] using hc)
  | @root ps m call lp inner _ hcall h =>
    have hm : P m.tree := by
      induction ps with
      | nil => exact ht
      | cons l ps ih => exact ih (hchild _ _ ht (List.mem_singleton_self _))
    have hnew := h.inherits hchild hrename fun u hu => by
      obtain rfl : u = Mapping.tree { m with call } := by simpa [Part.trees] using hu
      exact hmove m.call call _ hm
    intro x hx
    rcases List.mem_append.1 hx with hx | hx
    · exact (hnew x (List.mem_append_left _ hx)).resolve_left List.not_mem_nil
    · obtain rfl := List.mem_singleton.1 hx
      exact (hnew lp (by simp)).resolve_left List.not_mem_nil

theorem numbers (h : LowersWhole adapter start a t t' a' loops) :
    a' = a.skip loops.length ∧
      (loops.map fun lp => lp.tokens.id).Perm (a.numbers loops.length) := by
  cases h with
  | inside hc h =>
    obtain ⟨new, hloops, ha, hperm⟩ := h.numbers
    obtain rfl : _ = new := by simpa using hloops
    exact ⟨ha, hperm⟩
  | @root ps m call lp inner _ hcall h =>
    obtain ⟨new, hloops, ha, hperm⟩ := h.numbers
    obtain rfl : inner ++ [lp] = new := by simpa using hloops
    simp only [List.length_append, List.length_singleton, List.map_append, List.map_singleton]
      at ha hperm ⊢
    exact ⟨ha, hperm⟩

end LowersWhole

end JsxLoops.Loop
