import JsxLoops.Proofs.Leaves
import Mathlib

/-!
The value of the item. A leaf that is the item itself reads it under its own name in the record of
the loop. A nested loop that goes over the item, or over a property of it, is carried in the same
place. So what the leaf reads is the item exactly if no nested loop of the template goes over it.
-/

namespace JsxLoops.Tree

open Located

theorem mem_freeNames_of_strip {v : Located} {name : String} (h : v.strip.here = .name name) :
    name ∈ v.freeNames := by
  have hmention : ∃ x ∈ v.freeMentions, x.name = name := by
    induction v using induct_parens with
    | paren l inner ih =>
      rw [strip_paren] at h
      obtain ⟨x, hx, hname⟩ := ih h
      refine ⟨x, mem_freeMentions.2 ⟨by simp [scopeOf], .inr ?_⟩, hname⟩
      exact ⟨inner, List.mem_singleton_self inner, hx⟩
    | bare l n hb =>
      rw [hb.strip] at h
      obtain rfl : n = .name name := h
      refine ⟨⟨l, name⟩, mem_freeMentions.2 ⟨by simp [scopeOf], .inl ⟨rfl, ?_⟩⟩, rfl⟩
      simp [Node.said]
  obtain ⟨x, hx, hname⟩ := hmention
  rw [freeNames, List.mem_eraseDups]
  exact List.mem_map.2 ⟨x, hx, hname⟩

end JsxLoops.Tree

namespace JsxLoops.Loop

open JsxLoops.Tree Located

variable {adapter : Adapter} {start : Nat} {gs : List Premise} {scope : LoopScope}
  {item keyToken : String} {log : List Event} {d d' : Draft} {e : Event} {s : Store}

/-! ### What a log says about the item -/

theorem nestedOf_eq_item {receiver : Located} (h : nestedOf scope receiver = .item) :
    receiver.staticPath = some (scope.item, []) := by
  rw [nestedOf] at h
  split at h
  case h_2 => cases h
  case h_1 root properties hpath =>
    split at h
    case isTrue hroot =>
      split at h
      case isTrue hnil => rw [hpath, beq_iff_eq.1 hroot, List.isEmpty_iff.1 hnil]
      case isFalse => cases h
    case isFalse => split at h <;> cases h

def Event.OverItem (scope : LoopScope) (e : Event) : Prop :=
  (∃ wrapper binding, e.use = .loop wrapper binding) ∧
    ∃ path, e.source.staticPath = some (scope.item, path)

theorem Noted.note_eq_raw_iff (h : Noted adapter scope d e d') (hd : d.Holds log) :
    (itemOf log).note e = .raw ↔ itemOf log = .raw ∧ ¬ e.OverItem scope := by
  cases h with
  | item | value | style =>
    have hspot : ∀ spot v x carrier, ¬ Event.OverItem scope ⟨.spot spot, v, x, carrier⟩ := by
      rintro spot v x carrier ⟨⟨_, _, hu⟩, -⟩
      cases hu
    exact ⟨fun hraw => ⟨hraw, hspot _ _ _ _⟩, And.left⟩
  | merged _ receiver _ hs =>
    refine ⟨fun hraw => (nomatch hraw), fun hraw => absurd ⟨⟨_, _, rfl⟩, ?_⟩ hraw.2⟩
    exact ⟨[], nestedOf_eq_item hs⟩
  | under _ receiver _ path hs =>
    refine ⟨fun hraw => (nomatch hraw), fun hraw => absurd ⟨⟨_, _, rfl⟩, ?_⟩ hraw.2⟩
    exact ⟨path, (nestedOf_eq_itemPath hs).1⟩
  | named _ receiver _ name hs =>
    refine ⟨fun hraw => ⟨hraw, ?_⟩, And.left⟩
    rintro ⟨-, path, hpath⟩
    have hitem := nestedOf_of_staticPath hpath
    split at hitem <;> cases hs.symm.trans hitem
  | field _ receiver _ hfree =>
    refine ⟨fun hraw => ⟨hraw, ?_⟩, And.left⟩
    rintro ⟨-, path, hpath⟩
    have hraw : itemOf log = .raw := hraw
    exact hfree.staticPath_ne (by rw [hd.item, hraw]; rfl) path hpath

theorem Logged.itemOf_eq_raw_iff (h : Logged adapter scope { item, keyToken } log d) :
    itemOf log = .raw ↔ ∀ e ∈ log, ¬ e.OverItem scope := by
  induction h with
  | nil => simp [itemOf]
  | snoc h hn ih =>
    rw [itemOf_append, hn.note_eq_raw_iff h.holds, ih, List.forall_mem_append,
      List.forall_mem_singleton]

theorem Logged.exists_merged {first : Draft} (h : Logged adapter scope first log d)
    {carrier : Located} (hi : itemOf log = .merged carrier) :
    ∃ e ∈ log, (∃ wrapper binding, e.use = .loop wrapper binding) ∧ e.carrier = carrier := by
  induction h with
  | nil => cases hi
  | @snoc log e d d' _ hn ih =>
    rw [itemOf_append] at hi
    have earlier (hi : itemOf log = .merged carrier) : ∃ e' ∈ log ++ [e],
        (∃ wrapper binding, e'.use = .loop wrapper binding) ∧ e'.carrier = carrier := by
      obtain ⟨e', he', hrest⟩ := ih hi
      exact ⟨e', List.mem_append_left _ he', hrest⟩
    cases hn with
    | merged wrapper receiver =>
      refine ⟨_, List.mem_append_right _ (List.mem_singleton_self _), ⟨wrapper, _, rfl⟩, ?_⟩
      exact ItemTree.merged.inj hi
    | under => cases hi
    | item | value | style | named | field => exact earlier hi

theorem Noted.slots (h : Noted adapter scope d e d') :
    d.slots ⊆ d'.slots ∧ (e.holding = .item → ∃ slot ∈ d'.slots, slot.kind = .itemWhole) := by
  cases h with
  | item spot v =>
    rw [Draft.noteItem]
    split
    case isTrue hany =>
      refine ⟨List.Subset.refl _, fun _ => ?_⟩
      obtain ⟨slot, hslot, hkind⟩ := List.any_eq_true.1 hany
      exact ⟨slot, hslot, beq_iff_eq.1 hkind⟩
    case isFalse =>
      refine ⟨List.subset_append_left _ _, fun _ => ?_⟩
      exact ⟨_, List.mem_append_right _ (List.mem_singleton_self _), rfl⟩
  | merged wrapper receiver carrier hs hd =>
    obtain ⟨-, rfl⟩ := Draft.mergeItem_eq_some hd
    exact ⟨List.subset_append_left _ _, by simp⟩
  | under wrapper receiver carrier path hs hd =>
    obtain ⟨entries, -, rfl⟩ := Draft.mergePath_eq_some hd
    exact ⟨List.subset_append_left _ _, by simp⟩
  | named wrapper receiver carrier name hs hd =>
    obtain ⟨-, rfl⟩ := Draft.pushNamed_eq_some hd
    exact ⟨List.subset_append_left _ _, by simp⟩
  | value | style | field => exact ⟨List.subset_append_left _ _, by simp⟩

theorem Logged.exists_slot {first : Draft} (h : Logged adapter scope first log d) (he : e ∈ log)
    (hh : e.holding = .item) : ∃ slot ∈ d.slots, slot.kind = .itemWhole := by
  induction h with
  | nil => cases he
  | snoc _ hn ih =>
    rcases List.mem_append.1 he with he | he
    · obtain ⟨slot, hslot, hkind⟩ := ih he
      exact ⟨slot, hn.slots.1 hslot, hkind⟩
    · obtain rfl := List.mem_singleton.1 he
      exact hn.slots.2 hh

/-! ### The item in a record -/

theorem Guarded.not_name {v t : Located} (h : Guarded v gs t) (hv : ∀ name, v.here ≠ .name name)
    (name : String) : t.here ≠ .name name := by
  cases h with
  | nil => exact hv name
  | cons _ hg => cases hg <;> simp

theorem IsItem.eq_name_iff {i : ItemTree} {v : Located} (h : IsItem item i v)
    (hmerged : ∀ carrier, i = .merged carrier → ∀ name, carrier.here ≠ .name name)
    (hpaths : ∀ entry ∈ i.entries, entry.1 ≠ []) : v.here = .name item ↔ i = .raw := by
  cases h with
  | raw => exact ⟨fun _ => rfl, fun _ => rfl⟩
  | merged carrier => exact ⟨fun hv => absurd hv (hmerged _ rfl item), fun hi => nomatch hi⟩
  | overridden h =>
    refine ⟨fun hv => ?_, fun hi => nomatch hi⟩
    cases h with
    | carrier => exact absurd rfl (hpaths _ (List.mem_singleton_self _))
    | copy => cases hv

namespace Formed

variable {lp : Lowered adapter} {spot : Spot} {v : Located}

theorem item_leaf (h : Formed start lp)
    (hleaf : Leaf (lp.mapping.renamed lp.tokens lp.mapping.subtree) gs spot v)
    (hv : v.strip.here = .name lp.mapping.itemName)
    (hposition : adapter.isStylePosition spot.position = false) :
    ∃ x, Occurs x lp.subtree ∧ ∃ e ∈ lp.ledger.log, e.holding = .item ∧
      spot.shown (lp.ledger.path e) ∈ partsOf x.loc x.here := by
  have hitem : lp.ledger.scope.item = lp.mapping.itemName := congrArg LoopScope.item h.ledger.1
  have htakes : lp.ledger.takes v = true := by
    rw [Ledger.takes, hv]
    refine List.any_eq_true.2 ⟨_, mem_freeNames_of_strip hv, ?_⟩
    simp [Ledger.owner, LoopScope.binds, hitem]
  obtain ⟨x, hx, ⟨hkept, -⟩ | ⟨e, he, hu, hs, hshown, -⟩⟩ := h.leaf hleaf
  · rw [htakes] at hkept
    cases hkept
  · refine ⟨x, hx, e, he, ?_, hshown⟩
    have hshape : leafOf adapter lp.ledger.scope spot.position v = .item := by
      simp [leafOf, hposition, hv, hitem]
    obtain ⟨d, d', hn⟩ := lp.ledger.logged.noted he
    cases hn with
    | item => rfl
    | value spot' v' shape hs' hshape' =>
      obtain rfl := Use.spot.inj hu
      obtain rfl : v' = v := hs
      rcases hs' with rfl | rfl <;> cases hshape.symm.trans hshape'
    | style spot' v' _ _ hshape' =>
      obtain rfl := Use.spot.inj hu
      obtain rfl : v' = v := hs
      cases hshape.symm.trans hshape'
    | merged | under | named | field => cases hu

theorem item_eq_name_iff (h : Formed start lp) {value : Located}
    (hv : IsItem lp.mapping.itemName (itemOf lp.ledger.log) value) :
    value.here = .name lp.mapping.itemName ↔
      ∀ gs m, Nested (lp.mapping.renamed lp.tokens lp.mapping.subtree) gs m →
        ∀ path, m.receiver.staticPath ≠ some (lp.mapping.itemName, path) := by
  have hlogged := h.logged
  have hmerged : ∀ carrier, itemOf lp.ledger.log = .merged carrier →
      ∀ name, carrier.here ≠ .name name := by
    intro carrier hi
    obtain ⟨e, he, ⟨wrapper, binding, hu⟩, rfl⟩ := hlogged.exists_merged hi
    obtain ⟨inner, gs, -, -, hguarded⟩ := h.of_nested he hu
    exact hguarded.not_name fun name => by simp [Lowered.call, Mapping.withCallback]
  rw [hv.eq_name_iff hmerged hlogged.holds.apart.nonempty, hlogged.itemOf_eq_raw_iff]
  constructor
  · intro hnone gs m hm path hpath
    obtain ⟨e, he, wrapper, binding, hu, hs⟩ := h.nested hm
    exact hnone e he ⟨⟨wrapper, binding, hu⟩, path, by rw [hs]; exact hpath⟩
  · rintro hnone e he ⟨⟨wrapper, binding, hu⟩, path, hpath⟩
    obtain ⟨inner, gs, hm, hs, -⟩ := h.of_nested he hu
    exact hnone gs inner.mapping hm path (hs ▸ hpath)

end Formed

/-- A leaf that is the item reads it in the record of its loop. There it is as it was exactly if no
nested loop of the template goes over the item or over a property of it. -/
theorem lowerLoops_itemValue (adapter : Adapter) {root : Loc} (h : s.IsTree root) (a : Allocator) :
    let p := (lowerLoops adapter root ⟨s, a, []⟩).2
    ∀ site ∈ p.sites, ∀ t, Stood p.sites (s.treeAt root) t → t.loc = site.ownedSubtree →
      ∀ gs spot v, Leaf t gs spot v → v.strip.here = .name site.itemName →
        adapter.isStylePosition spot.position = false →
        Mustache p.store spot (site.itemName ++ "." ++ site.itemName) ∧
        (∃ slot ∈ site.schema.slots, slot.kind = .itemWhole) ∧
        ∃ record value, verifyCallback p.store site = .ok record ∧
          record.head? = some (.field site.itemName value) ∧
          (p.store.get value = .name site.itemName ↔
            ∀ under m, Nested t under m →
              ∀ path, m.receiver.staticPath ≠ some (site.itemName, path)) := by
  intro p site hsite t ht hloc gs spot v hleaf hv hposition
  obtain ⟨t', loops, hrun, -, hown, hsites⟩ := lowerLoops_sites adapter h a
  obtain ⟨lp, hlp, rfl⟩ := (hsites site).1 hsite
  obtain rfl := hrun.template_eq h.owns_treeAt.nodup hown.nodup hsites hlp ht hloc
  have hformed := hrun.formed lp hlp
  obtain ⟨htree, hcall⟩ := hrun.placed lp hlp
  have hshows : p.store.Shows t' := hown.shows le_rfl
  obtain ⟨x, hx, e, he, hholding, hshown⟩ := hformed.item_leaf hleaf hv hposition
  obtain ⟨key, value, hvalue, hoccurs, hrecord⟩ := hformed.verifyCallback_eq (hshows.occurs hcall)
  refine ⟨?_, hformed.logged.exists_slot he hholding, _, value.loc, hrecord, rfl, ?_⟩
  · have hpath : lp.ledger.path e = lp.mapping.itemName ++ "." ++ lp.mapping.itemName := by
      rw [Ledger.path, hholding]
      simp only [Ledger.owner, Owner.path, hformed.ledger.1, Mapping.scope]
    rw [show lp.site.itemName = lp.mapping.itemName from rfl, ← hpath]
    exact lp.mustache (hshows.occurs htree) hx hshown
  · have hin : p.store.Shows value := hshows.occurs (hoccurs.trans hcall)
    refine Iff.trans ⟨fun hget => ?_, fun hname => ?_⟩ (hformed.item_eq_name_iff hvalue)
    · obtain ⟨l, rfl⟩ := hin.eq_name hget
      rfl
    · rw [hin.get_loc, hname]
      rfl

/-- The template of a loop that shows its item and goes over it again: `<li>{row}` with
`{row.map((cell) => <b />)}</li>`. -/
def shownItemTemplate : Located :=
  .node ⟨10⟩ (.element ⟨"li", [], [.node ⟨3⟩ (.container (.node ⟨2⟩ (.name "row"))),
    .node ⟨9⟩ (.container (.node ⟨8⟩ (.call
      (.node ⟨5⟩ (.member (.node ⟨4⟩ (.name "row")) "map" false))
      [.node ⟨7⟩ (.lambda ⟨.arrow, false, false, [.plain "cell"],
        .value (.node ⟨6⟩ (.element ⟨"b", [], [], true⟩))⟩)])))], false⟩)

/-- The loop around it, in `<ul>{rows.map((row) => …)}</ul>`. -/
def shownItem : Store where
  nodes := #[.name "rows", .member ⟨0⟩ "map" false, .name "row", .container ⟨2⟩, .name "row",
    .member ⟨4⟩ "map" false, .element ⟨"b", [], [], true⟩,
    .lambda ⟨.arrow, false, false, [.plain "cell"], .value ⟨6⟩⟩, .call ⟨5⟩ [⟨7⟩], .container ⟨8⟩,
    .element ⟨"li", [], [⟨3⟩, ⟨9⟩], false⟩,
    .lambda ⟨.arrow, false, false, [.plain "row"], .value ⟨10⟩⟩, .call ⟨1⟩ [⟨11⟩],
    .container ⟨12⟩, .element ⟨"ul", [], [⟨13⟩], false⟩]

theorem shownItem_isTree : shownItem.IsTree ⟨14⟩ :=
  Store.isTree_of_filled (by decide) (by decide) (by decide)

theorem shownItem_template (sites : List Site) :
    Stood sites (shownItem.treeAt ⟨14⟩) shownItemTemplate := by
  rw [show shownItem.treeAt ⟨14⟩ = .node ⟨14⟩ (.element ⟨"ul", [], [.node ⟨13⟩ (.container
    (.node ⟨12⟩ (.call (.node ⟨1⟩ (.member (.node ⟨0⟩ (.name "rows")) "map" false))
      [.node ⟨11⟩ (.lambda ⟨.arrow, false, false, [.plain "row"],
        .value shownItemTemplate⟩)])))], false⟩) from rfl]
  exact .only_loop

theorem shownItem_leaf : Leaf shownItemTemplate [] (.text ⟨3⟩) (.node ⟨2⟩ (.name "row")) := by
  refine ⟨.node List.mem_cons_self .here, ?_⟩
  rw [hasMarkup, fold_node]
  rfl

theorem shownItem_site : ∃ site ∈ (lowerLoops .wechat ⟨14⟩ ⟨shownItem, ⟨0⟩, []⟩).2.sites,
    site.itemName = "row" ∧ site.ownedSubtree = ⟨10⟩ := by
  have hfirst : (lowerLoops .wechat ⟨14⟩ ⟨shownItem, ⟨0⟩, []⟩).2.sites.head?.map
      (fun site => (site.itemName, site.ownedSubtree)) = some ("row", ⟨10⟩) := by
    cbv
  obtain ⟨site, hhead, hsite⟩ := Option.map_eq_some_iff.1 hfirst
  exact ⟨site, List.mem_of_head? hhead, Prod.mk.inj hsite⟩

theorem shownItem_itemValue :
    let p := (lowerLoops .wechat ⟨14⟩ ⟨shownItem, ⟨0⟩, []⟩).2
    shownItem.IsTree ⟨14⟩ ∧ ∃ site ∈ p.sites, site.itemName = "row" ∧
      Stood p.sites (shownItem.treeAt ⟨14⟩) shownItemTemplate ∧
      shownItemTemplate.loc = site.ownedSubtree ∧
      Leaf shownItemTemplate [] (.text ⟨3⟩) (.node ⟨2⟩ (.name "row")) ∧
      Mustache p.store (.text ⟨3⟩) (site.itemName ++ "." ++ site.itemName) ∧
      (∃ slot ∈ site.schema.slots, slot.kind = .itemWhole) ∧
      ∃ record value, verifyCallback p.store site = .ok record ∧
        record.head? = some (.field site.itemName value) ∧
        (p.store.get value = .name site.itemName ↔
          ∀ under m, Nested shownItemTemplate under m →
            ∀ path, m.receiver.staticPath ≠ some (site.itemName, path)) := by
  obtain ⟨site, hmem, hname, hsubtree⟩ := shownItem_site
  have hstrip : (Located.node ⟨2⟩ (.name "row")).strip.here = .name site.itemName := by
    rw [hname, Bare.strip (fun inner => by simp)]
    rfl
  exact ⟨shownItem_isTree, site, hmem, hname, shownItem_template _, hsubtree.symm, shownItem_leaf,
    lowerLoops_itemValue .wechat shownItem_isTree ⟨0⟩ site hmem _ (shownItem_template _)
      hsubtree.symm _ _ _ shownItem_leaf hstrip rfl⟩

/-- The item is shown, and a nested loop stands in its place. -/
theorem shownItem_replaced :
    let p := (lowerLoops .wechat ⟨14⟩ ⟨shownItem, ⟨0⟩, []⟩).2
    shownItem.get ⟨3⟩ = .container ⟨2⟩ ∧ shownItem.get ⟨2⟩ = .name "row" ∧
      p.store.get ⟨3⟩ = .mustache "row.row" ∧
      p.sites.head?.map (fun site => (site.itemName, site.schema.slots.map Slot.kind)) =
        some ("row", [.itemWhole, .nestedCarrier]) ∧
      p.sites.head?.bind (fun site => (verifyCallback p.store site).toOption.bind List.head?) =
        some (.field "row" ⟨8⟩) ∧
      p.store.get ⟨8⟩ = .call ⟨5⟩ [⟨7⟩] := by
  cbv

end JsxLoops.Loop
