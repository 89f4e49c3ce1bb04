import JsxLoops.Proofs.Erasure
import JsxLoops.Proofs.Leaves
import Mathlib

/-!
Lowering does not depend on how a store is laid out. Two runs over trees that differ only in their
locations go the same way: at every stage the parts, the records and the loops found so far are
alike. So the tree that comes out, the numbers that were given out and what is reported of every
loop are functions of the tree that went in.
-/

namespace JsxLoops.Loop

open JsxLoops.Tree Located

variable {adapter : Adapter} {t u : Located}

theorem forall₂_eq_iff {α β γ : Type} {f : α → γ} {g : β → γ} {xs : List α} {ys : List β} :
    List.Forall₂ (fun x y => f x = g y) xs ys ↔ xs.map f = ys.map g := by
  rw [← List.forall₂_map_right_iff (R := fun x z => f x = z) (f := g),
    ← List.forall₂_map_left_iff (R := (· = ·)) (f := f), List.forall₂_eq_eq_eq]

/-! ### Conditions -/

inductive Premise.Alike : Premise → Premise → Prop
  | operand (op : String) {t u : Located} (h : t.erase = u.erase) :
    Premise.Alike (.operand op t) (.operand op u)
  | whenTrue {t u : Located} (h : t.erase = u.erase) : Premise.Alike (.whenTrue t) (.whenTrue u)
  | whenFalse {t u : Located} (h : t.erase = u.erase) : Premise.Alike (.whenFalse t) (.whenFalse u)

theorem groups_map {α β : Type} (f : α → β) (n : Node α) : groups (n.map f) = groups n := by
  cases n <;> rfl

theorem Grouped.alike {t' u' : Located} (h : Grouped t t') (h' : Grouped u u')
    (he : t.erase = u.erase) : t'.erase = u'.erase := by
  have hgroups : groups t.here = groups u.here := by
    rw [← groups_map erase, erase_eq_iff.1 he, groups_map]
  cases h with
  | bare hb =>
    cases h' with
    | bare => exact he
    | paren _ hp => rw [hgroups, hp] at hb; cases hb
  | paren l hp =>
    cases h' with
    | bare hb => rw [hgroups, hb] at hp; cases hp
    | paren k => exact erase_eq_iff.2 (congrArg Node.paren he)

theorem Shielded.alike {g g' : Premise} {t' u' : Located} (h : Shielded t g t')
    (h' : Shielded u g' u') (hg : g.Alike g') (he : t.erase = u.erase) :
    t'.erase = u'.erase := by
  cases hg with
  | operand op hc =>
    cases h with
    | operand l hcopy hleft hv =>
      cases h' with
      | operand k hcopy' hleft' hv' =>
        refine erase_eq_iff.2 ?_
        simp only [here_node, Node.map, hv.alike hv' he,
          hleft.alike hleft' (hcopy.trans (hc.trans hcopy'.symm))]
  | whenTrue hc =>
    cases h with
    | whenTrue l m hcopy htest =>
      cases h' with
      | whenTrue k m' hcopy' htest' =>
        refine erase_eq_iff.2 ?_
        simp only [here_node, Node.map, he, erase_node,
          htest.alike htest' (hcopy.trans (hc.trans hcopy'.symm))]
  | whenFalse hc =>
    cases h with
    | whenFalse l m hcopy htest =>
      cases h' with
      | whenFalse k m' hcopy' htest' =>
        refine erase_eq_iff.2 ?_
        simp only [here_node, Node.map, he, erase_node,
          htest.alike htest' (hcopy.trans (hc.trans hcopy'.symm))]

theorem Guarded.alike {gs gs' : List Premise} {t' u' : Located} (h : Guarded t gs t')
    (h' : Guarded u gs' u') (hg : List.Forall₂ Premise.Alike gs gs') (he : t.erase = u.erase) :
    t'.erase = u'.erase := by
  induction h generalizing gs' u' with
  | nil =>
    cases hg
    cases h'
    exact he
  | cons _ hs ih =>
    cases hg with
    | cons hfirst hrest =>
      cases h' with
      | cons h' hs' => exact hs.alike hs' hfirst (ih h' hrest)

/-! ### Mapping calls -/

/-- Mapping calls that differ only in their locations, and in parentheses around what they
return. -/
structure Mapping.Alike (m m' : Mapping) : Prop where
  callee : m.callee.erase = m'.callee.erase
  receiver : m.receiver.erase = m'.receiver.erase
  parens : m.parens.length = m'.parens.length
  form : m.form = m'.form
  params : m.params = m'.params
  leading : m.leading.map erase = m'.leading.map erase
  subtree : m.subtree.erase = m'.subtree.erase

theorem Ending.alike {ending ending' : Ending} {ps ps' : List Loc}
    (ht : t.here.isMarkup = true) (hu : u.here.isMarkup = true)
    (h : (ending.body (inParens ps t)).map erase = (ending'.body (inParens ps' u)).map erase) :
    ending.leading.map erase = ending'.leading.map erase ∧ t.erase = u.erase := by
  have hinner {ps ps' : List Loc} (h : (inParens ps t).erase = (inParens ps' u).erase) :
      t.erase = u.erase :=
    (erase_inParens_inj (bare_of_isMarkup ht) (bare_of_isMarkup hu) h).2
  cases ending with
  | value =>
    cases ending' with
    | value => exact ⟨rfl, hinner (Body.value.inj h)⟩
    | block => cases h
  | block leading last =>
    cases ending' with
    | value => cases h
    | block leading' last' =>
      have hlist := Body.block.inj h
      rw [List.map_append, List.map_append] at hlist
      obtain ⟨hleading, hlast⟩ := List.append_inj' hlist rfl
      have hreturns := erase_eq_iff.1 (List.cons.inj hlast).1
      exact ⟨hleading, hinner (Option.some.inj (Node.returning.inj hreturns))⟩

theorem Mapping.alike_of_erase_eq {m m' : Mapping} {ps ps' : List Loc} (hm : m.Valid)
    (hm' : m'.Valid) (h : (inParens ps m.tree).erase = (inParens ps' m'.tree).erase) :
    ps.length = ps'.length ∧ m.Alike m' := by
  obtain ⟨hlength, htree⟩ := erase_inParens_inj m.bare_tree m'.bare_tree h
  have hcall := erase_eq_iff.1 htree
  simp only [Mapping.tree, Mapping.withCallback, here_node, Node.map, List.map_cons, List.map_nil,
    Node.call.injEq, List.cons.injEq, and_true] at hcall
  obtain ⟨hcallee, hcallback⟩ := hcall
  have hmember := (erase_inParens_inj (fun _ h => by cases h) (fun _ h => by cases h) hcallee).2
  obtain ⟨hparens, hlambda⟩ :=
    erase_inParens_inj (fun _ h => by cases h) (fun _ h => by cases h) hcallback
  have hlambda := erase_eq_iff.1 hlambda
  simp only [here_node, Node.map, Node.lambda.injEq, Lambda.mk.injEq, true_and] at hlambda
  obtain ⟨hform, hparams, hbody⟩ := hlambda
  obtain ⟨hleading, hsubtree⟩ := Ending.alike hm.markup hm'.markup hbody
  refine ⟨hlength, hcallee, ?_, hparens, hform, hparams, hleading, hsubtree⟩
  have hreceiver := erase_eq_iff.1 hmember
  simp only [here_node, Node.map, Node.member.injEq] at hreceiver
  exact hreceiver.1

namespace Mapping.Alike

variable {m m' : Mapping}

theorem names (h : m.Alike m') : m.names = m'.names := by
  rw [Mapping.names, Mapping.names, h.params]

theorem itemName (h : m.Alike m') : m.itemName = m'.itemName := by
  simp only [Mapping.itemName, Candidate.itemName, Mapping.candidate, h.names]

theorem renamed (h : m.Alike m') (tokens : Tokens) (he : t.erase = u.erase) :
    (m.renamed tokens t).erase = (m'.renamed tokens u).erase := by
  rw [Mapping.renamed, Mapping.renamed, h.names]
  split
  · exact erase_renameFree _ _ he
  · exact he

theorem renamed_leading (h : m.Alike m') (tokens : Tokens) :
    (m.leading.map (m.renamed tokens)).map erase =
      (m'.leading.map (m'.renamed tokens)).map erase := by
  rw [List.map_map, List.map_map]
  exact Located.map_eq_of_erase h.leading fun t _ u => h.renamed tokens

theorem scope (h : m.Alike m') (tokens : Tokens) : m.scope tokens = m'.scope tokens := by
  rw [Mapping.scope, Mapping.scope, h.itemName, declaredBy_of_erase_eq (h.renamed_leading tokens)]

theorem withCallback (h : m.Alike m') (params : List Binder) {body body' : Body Located}
    (hb : body.map erase = body'.map erase) :
    (m.withCallback params body).erase = (m'.withCallback params body').erase := by
  have hlambda : (Located.node m.callback (.lambda ⟨m.form, false, false, params, body⟩)).erase =
      (Located.node m'.callback (.lambda ⟨m'.form, false, false, params, body'⟩)).erase := by
    refine erase_eq_iff.2 ?_
    simp only [here_node, Node.map, h.form, hb]
  refine erase_eq_iff.2 ?_
  simp only [Mapping.withCallback, here_node, Node.map, h.callee, List.map_cons, List.map_nil,
    erase_inParens h.parens hlambda]

end Mapping.Alike

/-! ### Drafts -/

def ItemValue.blank : ItemValue → ItemValue
  | .raw => .raw
  | .merged _ => .merged default
  | .overridden entries => .overridden (entries.map fun e => (e.1, default))

def Slot.blank (slot : Slot) : Slot := { slot with source := default }

namespace Draft

def blank (d : Draft) : Draft where
  item := d.item
  keyToken := d.keyToken
  itemValue := d.itemValue.blank
  slots := d.slots.map Slot.blank
  fields := d.fields.map fun f => (f.1, default)
  dynamicCount := d.dynamicCount
  styleCount := d.styleCount

variable (d : Draft) (source value : Loc)

theorem blank_pushSlot (kind : Dependency) (field : String) :
    (d.pushSlot kind source field).blank = d.blank.pushSlot kind default field := by
  simp [pushSlot, blank, Slot.blank]

theorem blank_noteItem : (d.noteItem source).blank = d.blank.noteItem default := by
  have hany : d.blank.slots.any (·.kind == .itemWhole) = d.slots.any (·.kind == .itemWhole) := by
    simp [blank, Slot.blank, List.any_map, Function.comp_def]
  rw [noteItem, noteItem, hany]
  split
  · rfl
  · exact blank_pushSlot d source _ _

theorem blank_pushDynamic (kind : Dependency) :
    (d.pushDynamic kind source value).2.blank = (d.blank.pushDynamic kind default default).2 := by
  simp [pushDynamic, pushSlot, blank, Slot.blank]

theorem blank_pushStyle (call : Loc) :
    blank { d.pushSlot .styleValue source ("_s" ++ toString d.styleCount) with
        fields := d.fields ++ [("_s" ++ toString d.styleCount, call)]
        styleCount := d.styleCount + 1 } =
      { d.blank.pushSlot .styleValue default ("_s" ++ toString d.blank.styleCount) with
        fields := d.blank.fields ++ [("_s" ++ toString d.blank.styleCount, default)]
        styleCount := d.blank.styleCount + 1 } := by
  simp [pushSlot, blank, Slot.blank]

theorem blank_mergeItem :
    (d.mergeItem source value).map blank = d.blank.mergeItem default default := by
  rw [mergeItem, mergeItem]
  cases hv : d.itemValue <;>
    simp [blank, hv, ItemValue.blank, pushSlot, Slot.blank]

theorem blank_mergePath (path : List String) :
    (d.mergePath source path value).map blank = d.blank.mergePath default path default := by
  simp only [mergePath]
  cases hv : d.itemValue with
  | raw => simp [blank, hv, ItemValue.blank, pushSlot, Slot.blank]
  | merged => simp [blank, hv, ItemValue.blank]
  | overridden entries =>
    simp only [blank, hv, ItemValue.blank, List.any_map, Function.comp_def]
    split
    · rfl
    · simp [pushSlot, Slot.blank, blank, ItemValue.blank]

theorem blank_pushNamed (name : String) :
    (d.pushNamed source name value).map blank = d.blank.pushNamed default name default := by
  have hany : d.blank.fields.any (·.1 == name) = d.fields.any (·.1 == name) := by
    simp [blank, List.any_map, Function.comp_def]
  rw [pushNamed, pushNamed, hany, show d.blank.item = d.item from rfl]
  split
  · rfl
  · simp [pushSlot, Slot.blank, blank]

/-- How a leaf is noted in a draft without locations. -/
def noteLeaf (d : Draft) : LeafShape → Holding × Draft
  | .item => (.item, d.noteItem default)
  | .style =>
    (.field ("_s" ++ toString d.styleCount),
      { d.pushSlot .styleValue default ("_s" ++ toString d.styleCount) with
        fields := d.fields ++ [("_s" ++ toString d.styleCount, default)]
        styleCount := d.styleCount + 1 })
  | shape =>
    (.field (d.pushDynamic shape.dependency default default).1,
      (d.pushDynamic shape.dependency default default).2)

def noteField (d : Draft) : Holding × Binding × Draft :=
  let (name, d') := d.pushDynamic .generic default default
  (.field name, .field name, d')

/-- How a nested loop is noted in a draft without locations. -/
def noteNested (d : Draft) (item : String) : NestedSource → Holding × Binding × Draft
  | .item => ((d.mergeItem default default).map (.merged, .itemMerge, ·)).getD d.noteField
  | .itemPath path => ((d.mergePath default path default).map
      (.under path, .itemPath (".".intercalate (item :: path)), ·)).getD d.noteField
  | .local name => ((d.pushNamed default name default).map
      (.field name, .local name, ·)).getD d.noteField
  | .unrelated => d.noteField

end Draft

def carrierOf (adapter : Adapter) : LeafShape → Subtree → Subtree
  | .style, t => .node (.call (.node (.name adapter.createStyle)) [t])
  | _, t => t

theorem leafOf_of_erase_eq {scope : LoopScope} (h : t.erase = u.erase) (position : Option String) :
    leafOf adapter scope position t = leafOf adapter scope position u := by
  have hmap := erase_eq_iff.1 (erase_strip h)
  rw [leafOf, leafOf]
  split
  · rfl
  · cases hn : t.strip.here with
    | name name =>
      rw [hn] at hmap
      rw [Node.map_eq_name hmap.symm]
    | _ =>
      rw [hn] at hmap
      cases hm : u.strip.here with
      | name name => rw [hm] at hmap; cases hmap
      | _ => rfl

theorem nestedOf_of_erase_eq {scope : LoopScope} (h : t.erase = u.erase) :
    nestedOf scope t = nestedOf scope u := by
  rw [nestedOf, nestedOf, staticPath_of_erase_eq h]

/-! ### Events -/

/-- The record holds the same value in the same place. -/
structure Event.Alike (e e' : Event) : Prop where
  holding : e.holding = e'.holding
  carrier : e.carrier.erase = e'.carrier.erase

section

variable {scope : LoopScope} {d d₁ d' d₁' : Draft} {e e' : Event}

theorem Noted.spot_eq {spot : Spot} (h : Noted adapter scope d e d₁) (hu : e.use = .spot spot) :
    (e.holding, d₁.blank) = d.blank.noteLeaf (leafOf adapter scope spot.position e.source) ∧
      e.carrier.erase =
        carrierOf adapter (leafOf adapter scope spot.position e.source) e.source.erase := by
  cases h with
  | item _ v hl =>
    obtain rfl := Use.spot.inj hu
    rw [hl, Draft.blank_noteItem]
    exact ⟨rfl, rfl⟩
  | value _ v shape hshape hl =>
    obtain rfl := Use.spot.inj hu
    rw [hl, Draft.blank_pushDynamic]
    rcases hshape with rfl | rfl <;> exact ⟨rfl, rfl⟩
  | style _ v call callee hl =>
    obtain rfl := Use.spot.inj hu
    rw [hl, Draft.blank_pushStyle]
    refine ⟨rfl, ?_⟩
    simp only [erase_node, Node.map, List.map_cons, List.map_nil]
    rfl
  | _ => cases hu

/-- How a nested loop is noted and bound, and the draft afterwards, depends on the path to what it
goes over. -/
theorem Noted.loop_eq {w : Loc} {b : Binding} (h : Noted adapter scope d e d₁)
    (hu : e.use = .loop w b) :
    (e.holding, b, d₁.blank) = d.blank.noteNested scope.item (nestedOf scope e.source) := by
  cases h with
  | merged _ receiver carrier hn hm =>
    cases hu
    have hblank := d.blank_mergeItem receiver.loc carrier.loc
    rw [hm, Option.map_some] at hblank
    simp only [hn, Draft.noteNested, ← hblank, Option.map_some, Option.getD_some]
  | under _ receiver carrier path hn hm =>
    cases hu
    have hblank := d.blank_mergePath receiver.loc carrier.loc path
    rw [hm, Option.map_some] at hblank
    simp only [hn, Draft.noteNested, ← hblank, Option.map_some, Option.getD_some]
  | named _ receiver carrier name hn hm =>
    cases hu
    have hblank := d.blank_pushNamed receiver.loc carrier.loc name
    rw [hm, Option.map_some] at hblank
    simp only [hn, Draft.noteNested, ← hblank, Option.map_some, Option.getD_some]
  | field _ receiver carrier href =>
    cases hu
    have hfield : (Holding.field (d.pushDynamic .generic receiver.loc carrier.loc).1,
        Binding.field (d.pushDynamic .generic receiver.loc carrier.loc).1,
        (d.pushDynamic .generic receiver.loc carrier.loc).2.blank) = d.blank.noteField := by
      rw [Draft.blank_pushDynamic]
      rfl
    rw [hfield]
    rw [Draft.Refuses] at href
    cases hn : nestedOf scope receiver with
    | item =>
      have hblank := d.blank_mergeItem receiver.loc carrier.loc
      rw [hn] at href
      rw [href, Option.map_none] at hblank
      rw [Draft.noteNested, ← hblank]
      rfl
    | itemPath path =>
      have hblank := d.blank_mergePath receiver.loc carrier.loc path
      rw [hn] at href
      rw [href, Option.map_none] at hblank
      rw [Draft.noteNested, ← hblank]
      rfl
    | «local» name =>
      have hblank := d.blank_pushNamed receiver.loc carrier.loc name
      rw [hn] at href
      rw [href, Option.map_none] at hblank
      rw [Draft.noteNested, ← hblank]
      rfl
    | unrelated => rfl
  | _ => cases hu

theorem Noted.alike_spot {spot spot' : Spot} (h : Noted adapter scope d e d₁)
    (h' : Noted adapter scope d' e' d₁') (hd : d.blank = d'.blank) (hu : e.use = .spot spot)
    (hu' : e'.use = .spot spot') (hp : spot.position = spot'.position)
    (hs : e.source.erase = e'.source.erase) : e.Alike e' ∧ d₁.blank = d₁'.blank := by
  have hleaf : leafOf adapter scope spot.position e.source =
      leafOf adapter scope spot'.position e'.source := hp ▸ leafOf_of_erase_eq hs _
  obtain ⟨heq, hcarrier⟩ := h.spot_eq hu
  obtain ⟨heq', hcarrier'⟩ := h'.spot_eq hu'
  rw [hd, hleaf, ← heq'] at heq
  obtain ⟨hholding, hblank⟩ := Prod.mk.inj heq
  exact ⟨⟨hholding, by rw [hcarrier, hcarrier', hleaf, hs]⟩, hblank⟩

theorem Noted.alike_loop {w w' : Loc} {b b' : Binding} (h : Noted adapter scope d e d₁)
    (h' : Noted adapter scope d' e' d₁') (hd : d.blank = d'.blank) (hu : e.use = .loop w b)
    (hu' : e'.use = .loop w' b') (hs : e.source.erase = e'.source.erase)
    (hc : e.carrier.erase = e'.carrier.erase) : e.Alike e' ∧ d₁.blank = d₁'.blank ∧ b = b' := by
  have heq := h.loop_eq hu
  rw [hd, nestedOf_of_erase_eq hs, ← h'.loop_eq hu'] at heq
  obtain ⟨hholding, hrest⟩ := Prod.mk.inj heq
  obtain ⟨hb, hblank⟩ := Prod.mk.inj hrest
  exact ⟨⟨hholding, hc⟩, hblank, hb⟩

end

/-! ### Records -/

def eraseNamed {α : Type} (entries : List (α × Located)) : List (α × Subtree) :=
  entries.map fun e => (e.1, e.2.erase)

theorem erase_eq_of_isPath {root : String} {path : List String} (h : IsPath root path t)
    (h' : IsPath root path u) : t.erase = u.erase := by
  induction h generalizing u with
  | name l =>
    generalize hp : [] = path at h'
    cases h' with
    | name k => exact erase_eq_iff.2 rfl
    | member => simp at hp
  | member l property _ ih =>
    generalize hp : _ ++ [property] = path at h'
    cases h' with
    | name => simp at hp
    | member k property' h' =>
      obtain ⟨rfl, hproperty⟩ := List.append_inj' hp rfl
      obtain rfl := (List.cons.inj hproperty).1
      refine erase_eq_iff.2 ?_
      simp only [here_node, Node.map, ih h']

theorem pathHeads_of_eraseNamed {entries entries' : List (List String × Located)}
    (h : eraseNamed entries = eraseNamed entries') : pathHeads entries = pathHeads entries' := by
  rw [← pathHeads_map erase entries, ← pathHeads_map erase entries']
  exact congrArg pathHeads h

theorem eraseNamed_pathsUnder {entries entries' : List (List String × Located)}
    (h : eraseNamed entries = eraseNamed entries') (x : String) :
    eraseNamed (pathsUnder x entries) = eraseNamed (pathsUnder x entries') := by
  rw [eraseNamed, eraseNamed, ← pathsUnder_map erase, ← pathsUnder_map erase]
  exact congrArg (pathsUnder x) h

theorem Overrides.alike {base : List String} {entries entries' : List (List String × Located)}
    (h : Overrides base entries t) (h' : Overrides base entries' u)
    (he : eraseNamed entries = eraseNamed entries') : t.erase = u.erase := by
  induction h generalizing entries' u with
  | carrier base t =>
    cases h' with
    | carrier => exact (Prod.mk.inj (List.cons.inj he).1).2
    | copy l hpaths =>
      obtain ⟨e, rfl, hx⟩ := List.map_eq_singleton_iff.1 he.symm
      exact absurd (Prod.mk.inj hx).1 (hpaths e (List.mem_singleton_self _))
  | @copy base entries whole fields l hpaths hwhole hnames hfields ih =>
    cases h' with
    | carrier =>
      obtain ⟨e, rfl, hx⟩ := List.map_eq_singleton_iff.1 he
      exact absurd (Prod.mk.inj hx).1 (hpaths e (List.mem_singleton_self _))
    | @copy _ _ whole' fields' l' _ hwhole' hnames' hfields' =>
      have heads : fields.map Prod.fst = fields'.map Prod.fst := by
        rw [hnames, hnames', pathHeads_of_eraseNamed he]
      have hall : ∀ f ∈ fields, ∀ f' ∈ fields', f.1 = f'.1 → f.2.erase = f'.2.erase := by
        intro f hf f' hf' hname
        exact ih f hf (hname ▸ hfields' f' hf') (eraseNamed_pathsUnder he f.1)
      have hentries : fields.map (fun f => Entry.field f.1 f.2.erase) =
          fields'.map fun f => Entry.field f.1 f.2.erase := by
        clear ih hnames hnames' hfields hfields'
        induction fields generalizing fields' with
        | nil => rw [List.map_eq_nil_iff.1 heads.symm]
        | cons f fields ihf =>
          cases fields' with
          | nil => cases heads
          | cons f' fields' =>
            obtain ⟨hname, hrest⟩ := List.cons.inj heads
            rw [List.map_cons, List.map_cons, hname,
              hall f List.mem_cons_self f' List.mem_cons_self hname,
              ihf hrest fun x hx y hy => hall x (List.mem_cons_of_mem _ hx) y
                (List.mem_cons_of_mem _ hy)]
      refine erase_eq_iff.2 ?_
      simp only [here_node, Node.map, List.map_cons, Entry.map, erase_eq_of_isPath hwhole hwhole',
        List.map_map]
      exact congrArg (fun es => Node.object (.spread whole'.erase :: es)) hentries

/-- The value under the item's name, up to locations. -/
inductive ItemTree.Alike : ItemTree → ItemTree → Prop
  | raw : ItemTree.Alike .raw .raw
  | merged {c c' : Located} (h : c.erase = c'.erase) : ItemTree.Alike (.merged c) (.merged c')
  | overridden {entries entries' : List (List String × Located)}
    (h : eraseNamed entries = eraseNamed entries') :
    ItemTree.Alike (.overridden entries) (.overridden entries')

theorem ItemTree.Alike.note {i i' : ItemTree} {e e' : Event} (h : i.Alike i') (he : e.Alike e') :
    (i.note e).Alike (i'.note e') := by
  rw [ItemTree.note, ItemTree.note, ← he.holding]
  cases e.holding with
  | item | field => exact h
  | merged => exact .merged he.carrier
  | under path =>
    refine .overridden ?_
    have hentries : eraseNamed i.entries = eraseNamed i'.entries := by
      cases h with
      | overridden h => exact h
      | _ => rfl
    rw [eraseNamed, eraseNamed, List.map_append, List.map_append]
    exact congrArg₂ _ hentries (by simp [he.carrier])

theorem itemOf_alike {log log' : List Event} (h : List.Forall₂ Event.Alike log log') :
    (itemOf log).Alike (itemOf log') := by
  suffices fold : ∀ i i' : ItemTree, i.Alike i' →
      (log.foldl ItemTree.note i).Alike (log'.foldl ItemTree.note i') from fold _ _ .raw
  induction h with
  | nil => exact fun _ _ hi => hi
  | cons he _ ih => exact fun i i' hi => ih _ _ (hi.note he)

theorem fieldsOf_alike {log log' : List Event} (h : List.Forall₂ Event.Alike log log') :
    eraseNamed (fieldsOf log) = eraseNamed (fieldsOf log') := by
  induction h with
  | nil => rfl
  | @cons e e' log log' he _ ih =>
    have hfield : (e.field?.map fun f => (f.1, f.2.erase)) =
        e'.field?.map fun f => (f.1, f.2.erase) := by
      rw [Event.field?, Event.field?, ← he.holding]
      cases e.holding <;> simp [he.carrier]
    rw [fieldsOf, fieldsOf, List.filterMap_cons, List.filterMap_cons]
    cases hf : e.field? with
    | none =>
      rw [hf] at hfield
      rw [Option.map_eq_none_iff.1 hfield.symm]
      exact ih
    | some f =>
      rw [hf] at hfield
      obtain ⟨f', hf', heq⟩ := Option.map_eq_some_iff.1 hfield.symm
      rw [hf']
      exact congrArg₂ List.cons heq.symm ih

theorem IsItem.alike {item : String} {i i' : ItemTree} (h : IsItem item i t)
    (h' : IsItem item i' u) (hi : i.Alike i') : t.erase = u.erase := by
  cases hi with
  | raw =>
    cases h
    cases h'
    exact erase_eq_iff.2 rfl
  | merged hc =>
    cases h
    cases h'
    exact hc
  | overridden he =>
    cases h with
    | overridden h =>
      cases h' with
      | overridden h' => exact h.alike h' he

theorem IsRecord.alike {item keyToken : String} {log log' : List Event}
    (h : IsRecord item keyToken log t) (h' : IsRecord item keyToken log' u)
    (hlog : List.Forall₂ Event.Alike log log') : t.erase = u.erase := by
  obtain ⟨l, key, hitem⟩ := h
  obtain ⟨l', key', hitem'⟩ := h'
  have hv := hitem.alike hitem' (itemOf_alike hlog)
  have hfields := congrArg (List.map fun f => Entry.field f.1 f.2) (fieldsOf_alike hlog)
  simp only [eraseNamed, List.map_map] at hfields
  refine erase_eq_iff.2 ?_
  simp only [here_node, Node.map, List.map_cons, Entry.field, Entry.map, Key.map, hv, erase_node,
    List.map_map, Node.object.injEq, List.cons.injEq, true_and]
  exact hfields

/-! ### Loops -/

/-- Ledgers of one loop that have noted the same, up to what is held in the record. -/
structure Ledger.Agrees (L M : Ledger adapter) : Prop where
  scope : L.scope = M.scope
  outer : L.outer = M.outer
  id : L.id = M.id
  draft : L.draft.blank = M.draft.blank

structure Ledger.Alike (L M : Ledger adapter) : Prop extends L.Agrees M where
  keyToken : L.keyToken = M.keyToken
  log : List.Forall₂ Event.Alike L.log M.log

theorem Ledger.Agrees.takes {L M : Ledger adapter} (h : L.Agrees M)
    (hnames : t.freeNames = u.freeNames)
    (hlambda : (∃ f, t.strip.here = .lambda f) ↔ ∃ f, u.strip.here = .lambda f) :
    L.takes t = M.takes u := by
  have hdepends : L.owner.dependsOn t.freeNames = M.owner.dependsOn u.freeNames := by
    simp only [Owner.dependsOn, Ledger.owner, h.scope, h.outer, hnames]
  rw [Ledger.takes, Ledger.takes, hdepends]
  split
  case h_1 f hf =>
    obtain ⟨g, hg⟩ := hlambda.1 ⟨f, hf⟩
    rw [hg]
  case h_2 hno =>
    split
    case h_1 g hg =>
      obtain ⟨f, hf⟩ := hlambda.2 ⟨g, hg⟩
      exact absurd hf (hno f)
    case h_2 => rfl

namespace Ledger.Alike

variable {L M : Ledger adapter}

theorem note {e e' : Event} {d d' : Draft} {h : Noted adapter L.scope L.draft e d}
    {h' : Noted adapter M.scope M.draft e' d'} (hl : L.Alike M) (he : e.Alike e')
    (hd : d.blank = d'.blank) : (L.note h).Alike (M.note h') where
  scope := hl.scope
  outer := hl.outer
  id := hl.id
  keyToken := hl.keyToken
  log := List.rel_append hl.log (.cons he .nil)
  draft := hd

theorem takes (h : L.Alike M) (he : t.erase = u.erase) : L.takes t = M.takes u := by
  refine h.toAgrees.takes (freeNames_of_erase_eq he) ?_
  have hmap := erase_eq_iff.1 (erase_strip he)
  constructor
  · rintro ⟨f, hf⟩
    rw [hf] at hmap
    obtain ⟨body, hu, -⟩ := Node.map_eq_lambda hmap.symm
    exact ⟨_, hu⟩
  · rintro ⟨f, hf⟩
    rw [hf] at hmap
    obtain ⟨body, ht, -⟩ := Node.map_eq_lambda hmap
    exact ⟨_, ht⟩

theorem path {e e' : Event} (h : L.Alike M) (he : e.Alike e') : L.path e = M.path e' := by
  simp only [Ledger.path, Owner.path, Ledger.owner, h.scope, he.holding]

end Ledger.Alike

structure Lowered.Alike (lp lp' : Lowered adapter) : Prop where
  mapping : lp.mapping.Alike lp'.mapping
  tokens : lp.tokens = lp'.tokens
  parent : lp.parent = lp'.parent
  leading : lp.leading.map erase = lp'.leading.map erase
  subtree : lp.subtree.erase = lp'.subtree.erase
  ledger : lp.ledger.Alike lp'.ledger
  record : lp.record.erase = lp'.record.erase
  source : lp.source.erase = lp'.source.erase
  binding : lp.binding = lp'.binding

theorem handedOver_of_erase_eq (h : t.erase = u.erase) :
    (handedOver t).map erase = (handedOver u).map erase := by
  have hmap := erase_eq_iff.1 h
  rw [handedOver, handedOver]
  cases hn : t.here with
  | fragment cs =>
    rw [hn] at hmap
    obtain ⟨ds, hu, hds⟩ := Node.map_eq_fragment hmap.symm
    rw [hu]
    exact hds.symm
  | _ =>
    rw [hn] at hmap
    cases hm : u.here with
    | fragment => rw [hm] at hmap; cases hmap
    | _ => simp [h]

theorem Lowered.erase_call_eq {lp lp' : Lowered adapter} (hm : lp.mapping.Alike lp'.mapping)
    (htokens : lp.tokens = lp'.tokens) (hleading : lp.leading.map erase = lp'.leading.map erase)
    (hrecord : lp.record.erase = lp'.record.erase) : lp.call.erase = lp'.call.erase := by
  rw [Lowered.call, Lowered.call, hm.itemName, htokens]
  refine hm.withCallback _ ?_
  simp only [Body.map, List.map_append, hleading, List.map_cons, List.map_nil, erase_node, Node.map,
    Option.map_some, hrecord]

theorem Lowered.Alike.tree {lp lp' : Lowered adapter} (h : lp.Alike lp') :
    lp.tree.erase = lp'.tree.erase := by
  refine erase_eq_iff.2 ?_
  simp only [Lowered.tree, here_node, wrapperNode, Node.map, Attribute.map, AttributeValue.map,
    Attribute.quoted, List.map_cons, List.map_nil, h.source, h.mapping.itemName, h.tokens,
    handedOver_of_erase_eq h.subtree]

theorem Reaches.alike {item : String} {receiver receiver' : Located} {holding : Holding}
    {b : Binding} (h : Reaches item receiver holding b t) (h' : Reaches item receiver' holding b u)
    (he : receiver.erase = receiver'.erase) : t.erase = u.erase := by
  cases h with
  | merged l =>
    cases h'
    exact erase_eq_iff.2 rfl
  | under hcopy =>
    cases h' with
    | under hcopy' => exact hcopy.trans (he.trans hcopy'.symm)
  | named hp =>
    cases h' with
    | named hp' => exact erase_eq_of_isPath hp hp'
  | field l name =>
    cases h'
    exact erase_eq_iff.2 rfl

theorem Bound.alike {gs gs' : List Premise} {lp lp' : Lowered adapter}
    {o o₁ o' o₁' : Option (Ledger adapter)} (h : Bound gs lp o o₁) (h' : Bound gs' lp' o' o₁')
    (hg : List.Forall₂ Premise.Alike gs gs') (ho : Option.Rel Ledger.Alike o o')
    (hcall : lp.call.erase = lp'.call.erase)
    (hreceiver : lp.mapping.receiver.erase = lp'.mapping.receiver.erase) :
    lp.source.erase = lp'.source.erase ∧ lp.binding = lp'.binding ∧
      Option.Rel Ledger.Alike o₁ o₁' := by
  cases h with
  | inline hs hb =>
    cases ho
    cases h' with
    | inline hs' hb' =>
      exact ⟨by rw [hs, hs', hcall], hb.trans hb'.symm, .none⟩
  | @nested L e d hn hu hs hc hr =>
    cases ho with
    | @some _ M hl =>
      cases h' with
      | nested hn' hu' hs' hc' hr' =>
        have hn₁ : Noted adapter M.scope L.draft e d := hl.scope ▸ hn
        obtain ⟨he, hd, hb⟩ := hn₁.alike_loop hn' hl.draft hu hu' (by rw [hs, hs', hreceiver])
          (hc.alike hc' hg hcall)
        rw [hl.scope, he.holding, hb] at hr
        exact ⟨hr.alike hr' hreceiver, hb, .some (hl.note he hd)⟩

end JsxLoops.Loop
