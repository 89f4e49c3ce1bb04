import JsxLoops.Proofs.Building
import JsxLoops.Proofs.Discovery
import JsxLoops.Proofs.Scopes

/-!
Scopes in the source. Which names are in scope at a site can be read off the template as it was
parsed: those of the callbacks around the site, out to the first that has it in front of its return.
A callback gives the names of its item and its index and the variables that its statements declare,
but not the functions and classes.
-/

namespace JsxLoops.Loop

open JsxLoops.Tree Located

variable {adapter : Adapter} {start : Nat} {s : Store} {sites : List Site}
  {P S lp : Lowered adapter} {loops : List (Lowered adapter)}

/-! ### What can be read off the store before a run -/

theorem declaredNames_eq_flatMap (s : Store) (statements : List Loc) :
    s.declaredNames statements = statements.flatMap fun l => (s.get l).declared := by
  rw [Store.declaredNames]
  refine List.flatMap_congr fun l _ => ?_
  cases s.get l <;> rfl

/-- From the root of the tree a store reaches its locations, and declares the same names there. -/
structure Outlines (s : Store) (t : Located) : Prop where
  reaches : ∀ l, s.Reaches t.loc l ↔ l ∈ locsOf [t]
  declared : (s.get t.loc).declared = t.here.declared

theorem Outlines.of_shows {t : Located} (h : s.Shows t) : Outlines s t :=
  ⟨fun _ => h.reaches_iff_mem, by rw [h.get_loc, Node.declared_map]⟩

theorem Outlines.renameFree {t : Located} (h : Outlines s t) (a b : String) :
    Outlines s (t.renameFree a b) := by
  refine ⟨fun l => ?_, by rw [loc_renameFree, declared_renameFree, h.declared]⟩
  rw [loc_renameFree, h.reaches]
  simp only [locsOf, cellsOf_cons, cellsOf_nil, add_zero, map_loc_cells_renameFree]

theorem LowersWhole.outlines {a a' : Allocator} {t t' : Located}
    (h : LowersWhole adapter start a t t' a' loops) (hs : s.Shows t) :
    ∀ lp ∈ loops, ∀ u, Occurs u lp.mapping.function → Outlines s u := by
  let P : Located → Prop := fun t => ∀ c ∈ t.here.children, ∀ u, Occurs u c → Outlines s u
  have hP : ∀ lp ∈ loops, P lp.mapping.tree := by
    refine h.inherits (P := P) ?_ ?_ (fun _ _ _ ht => ht) fun c hc u hu => ?_
    · exact fun t c ht hc d hd u hu => ht c hc u (hu.trans (.of_mem hd))
    · rintro x y ⟨l, n⟩ ht c hc u hu
      rw [renameFree_node] at hc
      split at hc
      · exact ht c hc u hu
      · rw [here_node, Node.children_renameHere, Node.children_map] at hc
        obtain ⟨d, hd, rfl⟩ := List.mem_map.1 hc
        obtain ⟨v, hv, rfl | rfl⟩ := occurs_renameFree hu
        · exact ht d hd u hv
        · exact (ht d hd v hv).renameFree x y
    · exact .of_shows ((hs.of_mem hc).occurs hu)
  intro lp hlp u hu
  refine hP lp hlp _ (List.mem_cons_of_mem _ (List.mem_singleton_self _)) u ?_
  exact hu.trans (occurs_inParens lp.mapping.parens _)

theorem Formed.bodyStatements_eq (h : Formed start lp) :
    lp.site.bodyStatements = lp.mapping.leading.map loc := by
  obtain ⟨-, -, hleading, -, -, -⟩ := h
  exact hleading.map_loc_leading

/-- The names of `outer` are in scope at a site: its callback is around the one of the site, and no
callback from there inward has the site in front of its return. -/
def Site.InScope (outer : Site) (s : Store) (sites : List Site) (site : Site) : Prop :=
  s.Reaches outer.callback site.callback ∧ ∀ between ∈ sites,
    s.Reaches outer.callback between.callback →
      ∀ l ∈ between.bodyStatements, ¬ s.Reaches l site.callback

section

variable (ho : ∀ u, Occurs u lp.mapping.function → Outlines s u)

include ho

theorem Lowered.reaches_callback (l : Loc) :
    s.Reaches lp.site.callback l ↔ l ∈ lp.mapping.region :=
  (ho _ .self).reaches l

theorem Formed.reaches_statement (h : Formed start lp) (l : Loc) :
    (∃ x ∈ lp.site.bodyStatements, s.Reaches x l) ↔ l ∈ locsOf lp.mapping.leading := by
  have hreaches {t : Located} (ht : t ∈ lp.mapping.leading) : s.Reaches t.loc l ↔ l ∈ locsOf [t] :=
    (ho t (.of_mem (lp.mapping.ending.occurs_leading _ t ht))).reaches l
  rw [h.bodyStatements_eq]
  constructor
  · rintro ⟨x, hx, hl⟩
    obtain ⟨t, ht, rfl⟩ := List.mem_map.1 hx
    refine locsOf_subset (fun u hu => ?_) ((hreaches ht).1 hl)
    exact ⟨t, ht, List.mem_singleton.1 hu ▸ .self⟩
  · intro hl
    obtain ⟨t, ht, u, hu, rfl⟩ := mem_locsOf.1 hl
    refine ⟨t.loc, List.mem_map_of_mem ht, (hreaches ht).2 ?_⟩
    exact mem_locsOf_of_occurs (List.mem_singleton_self t) hu

theorem Formed.declaredNames_eq (h : Formed start lp) :
    s.declaredNames lp.site.bodyStatements = (lp.mapping.scope lp.tokens).locals := by
  rw [h.bodyStatements_eq, Mapping.scope, declaredBy, List.flatMap_map, declaredNames_eq_flatMap,
    List.flatMap_map]
  refine List.flatMap_congr fun t ht => ?_
  have hdeclared := (ho t (.of_mem (lp.mapping.ending.occurs_leading _ t ht))).declared
  have hrenamed : (lp.mapping.renamed lp.tokens t).here.declared = t.here.declared := by
    rw [Mapping.renamed]
    split
    · exact declared_renameFree _ _ t
    · rfl
  rw [hrenamed]
  exact hdeclared

end

theorem inScope_iff_site (hformed : ∀ lp ∈ loops, Formed start lp)
    (ho : ∀ lp ∈ loops, ∀ u, Occurs u lp.mapping.function → Outlines s u)
    (hsites : ∀ site, site ∈ sites ↔ ∃ lp ∈ loops, lp.site = site) (hP : P ∈ loops) :
    InScope loops P S ↔ P.site.InScope s sites S.site := by
  have hcallback {Q : Lowered adapter} : s.Reaches P.site.callback Q.site.callback ↔
      Q.mapping.callback ∈ P.mapping.region := Lowered.reaches_callback (ho P hP) _
  have hfront {Q : Lowered adapter} (hQ : Q ∈ loops) : (∀ l ∈ Q.site.bodyStatements,
      ¬ s.Reaches l S.site.callback) ↔ ¬ S.InFront Q := by
    rw [Lowered.InFront, ← (hformed Q hQ).reaches_statement (ho Q hQ)]
    simp only [not_exists, not_and]
    rfl
  refine and_congr hcallback.symm ⟨fun h between hbetween => ?_, fun h Q hQ hin => ?_⟩
  · obtain ⟨Q, hQ, rfl⟩ := (hsites between).1 hbetween
    exact fun hin => (hfront hQ).2 (h Q hQ (hcallback.1 hin))
  · exact (hfront hQ).1 (h Q.site ((hsites _).2 ⟨Q, hQ, rfl⟩) (hcallback.2 hin))

/-- A leaf becomes a path exactly if it is no function and mentions a name that is in scope: the
item, the index, or a variable that a statement in front of the return declares, of a site whose
callback is around it. Beyond the first callback that has the site in front of its return, no names
are in scope. -/
theorem lowerLoops_moves_iff (adapter : Adapter) {root : Loc} (h : s.IsTree root) (a : Allocator) :
    let p := (lowerLoops adapter root ⟨s, a, []⟩).2
    ∀ site ∈ p.sites, ∀ t, Stood p.sites (s.treeAt root) t → t.loc = site.ownedSubtree →
      ∀ gs spot v, Leaf t gs spot v →
        ((∃ path, Mustache p.store spot path) ↔ (∀ f, v.strip.here ≠ .lambda f) ∧
          ∃ name ∈ v.freeNames, ∃ outer ∈ p.sites,
            outer.InScope s p.sites site ∧ outer.Binds s name) := by
  intro p site hsite t ht hloc gs spot v hleaf
  obtain ⟨t', loops, hrun, -, hown, hsites⟩ := lowerLoops_sites adapter h a
  obtain ⟨lp, hlp, rfl⟩ := (hsites site).1 hsite
  have hshows : p.store.Shows t' := hown.shows le_rfl
  have houtlines := hrun.outlines (h.owns_treeAt.shows le_rfl)
  obtain ⟨chain, hchain, hscope, hhangs⟩ := hrun.settled h.owns_treeAt.nodup lp hlp
  have hbinds : ∀ P ∈ chain ++ [lp], ∀ name,
      P.ledger.scope.binds name = true ↔ P.site.Binds s name := by
    intro P hP
    have hformed := hrun.formed P (hchain hP)
    exact hformed.binds_iff (hformed.declaredNames_eq (houtlines P (hchain hP)))
  have hin {P : Lowered adapter} (hP : P ∈ loops) :
      P.site.InScope s p.sites lp.site ↔ P ∈ chain ++ [lp] := by
    rw [← inScope_iff_site hrun.formed houtlines hsites hP, hscope P hP]
  obtain rfl := hrun.template_eq h.owns_treeAt.nodup hown.nodup hsites hlp ht hloc
  have hmoves := ((hrun.formed lp hlp).moves_iff (hshows.occurs (hrun.placed lp hlp).1) hleaf).1
  refine hmoves.trans ((hhangs.takes_iff hbinds).trans (and_congr_right fun _ =>
    exists_congr fun name => and_congr_right fun _ => ⟨?_, ?_⟩))
  · rintro ⟨P, hP, hname⟩
    exact ⟨P.site, (hsites _).2 ⟨P, hchain hP, rfl⟩, (hin (hchain hP)).2 hP, hname⟩
  · rintro ⟨outer, houter, hinside, hname⟩
    obtain ⟨P, hP, rfl⟩ := (hsites outer).1 houter
    exact ⟨P, (hin hP).1 hinside, hname⟩

/-- So it is in every template that was parsed. -/
theorem lowerLoops_scopes (adapter : Adapter) {source : List Char} {template : Template}
    (h : Template.parse source = some template) (a : Allocator) :
    let s := template.store
    let p := (lowerLoops adapter template.root ⟨s, a, []⟩).2
    ∀ site ∈ p.sites, ∀ t, Stood p.sites (s.treeAt template.root) t → t.loc = site.ownedSubtree →
      ∀ gs spot v, Leaf t gs spot v →
        ((∃ path, Mustache p.store spot path) ↔ (∀ f, v.strip.here ≠ .lambda f) ∧
          ∃ name ∈ v.freeNames, ∃ outer ∈ p.sites,
            outer.InScope s p.sites site ∧ outer.Binds s name) :=
  lowerLoops_moves_iff adapter (Template.isTree_of_parse h) a

/-- The source that `outerItem` is the store of. -/
def outerItemSource : List Char :=
  ("<ul>\x7brows.map((row) => <li>\x7brow.cells.map((cell) => " ++
    "<b>\x7brow.name\x7d\x7btitle\x7d</b>)\x7d</li>)\x7d</ul>").toList

theorem outerItem_parse : Template.parse outerItemSource = some ⟨outerItem, ⟨18⟩⟩ := by
  decide +kernel

theorem outerItem_scopes :
    let p := (lowerLoops .wechat ⟨18⟩ ⟨outerItem, ⟨0⟩, []⟩).2
    let leaf := .node ⟨6⟩ (.member (.node ⟨5⟩ (.name "row")) "name" false)
    Template.parse outerItemSource = some ⟨outerItem, ⟨18⟩⟩ ∧ ∃ site ∈ p.sites,
      site.itemName = "cell" ∧ Stood p.sites (outerItem.treeAt ⟨18⟩) outerItemTemplate ∧
      outerItemTemplate.loc = site.ownedSubtree ∧ Leaf outerItemTemplate [] (.text ⟨7⟩) leaf ∧
      ((∃ path, Mustache p.store (.text ⟨7⟩) path) ↔ (∀ f, leaf.strip.here ≠ .lambda f) ∧
        ∃ name ∈ leaf.freeNames, ∃ outer ∈ p.sites,
          outer.InScope outerItem p.sites site ∧ outer.Binds outerItem name) := by
  intro p leaf
  obtain ⟨site, hmem, hname, hsubtree⟩ := outerItem_site
  have hscopes := lowerLoops_scopes .wechat outerItem_parse ⟨0⟩
  dsimp only at hscopes
  have hmoved := hscopes site hmem _ (outerItem_template _) hsubtree.symm _ _ _ outerItem_leaf
  exact ⟨outerItem_parse, site, hmem, hname, outerItem_template _, hsubtree.symm, outerItem_leaf,
    hmoved⟩

/-- A function in front of the return, in `<ul>{rows.map((row) => { function label() { … } return`
`<li>{label()}</li>; })}</ul>`. -/
def localFunction : Store where
  nodes := #[.name "rows", .member ⟨0⟩ "map" false,
    .verbatim ⟨[.text "function label() \x7b return ", .mention "row", .text ".name; \x7d"],
      ["label"], false, false⟩, .name "label", .call ⟨3⟩ [], .container ⟨4⟩,
    .element ⟨"li", [], [⟨5⟩], false⟩, .returning (some ⟨6⟩),
    .lambda ⟨.arrow, false, false, [.plain "row"], .block [⟨2⟩, ⟨7⟩]⟩, .call ⟨1⟩ [⟨8⟩],
    .container ⟨9⟩, .element ⟨"ul", [], [⟨10⟩], false⟩]

def localFunctionSource : List Char :=
  ("<ul>\x7brows.map((row) => \x7b function label() \x7b return row.name; \x7d " ++
    "return <li>\x7blabel()\x7d</li>; \x7d)\x7d</ul>").toList

/-- A loop in front of the return, in `<ul>{rows.map((row) => { const head = <b>{row.cells.map(…)}`
`</b>; return <li>{head}</li>; })}</ul>`, with the template `<i>{row.name}</i>`. -/
def statementLoop : Store where
  nodes := #[.name "rows", .member ⟨0⟩ "map" false, .name "row", .member ⟨2⟩ "cells" false,
    .member ⟨3⟩ "map" false, .name "row", .member ⟨5⟩ "name" false, .container ⟨6⟩,
    .element ⟨"i", [], [⟨7⟩], false⟩,
    .lambda ⟨.arrow, false, false, [.plain "cell"], .value ⟨8⟩⟩, .call ⟨4⟩ [⟨9⟩], .container ⟨10⟩,
    .element ⟨"b", [], [⟨11⟩], false⟩, .declaration "const" [⟨.plain "head", some ⟨12⟩⟩],
    .name "head", .container ⟨14⟩, .element ⟨"li", [], [⟨15⟩], false⟩, .returning (some ⟨16⟩),
    .lambda ⟨.arrow, false, false, [.plain "row"], .block [⟨13⟩, ⟨17⟩]⟩, .call ⟨1⟩ [⟨18⟩],
    .container ⟨19⟩, .element ⟨"ul", [], [⟨20⟩], false⟩]

def statementLoopSource : List Char :=
  ("<ul>\x7brows.map((row) => \x7b const head = <b>\x7brow.cells.map((cell) => " ++
    "<i>\x7brow.name\x7d</i>)\x7d</b>; return <li>\x7bhead\x7d</li>; \x7d)\x7d</ul>").toList

/-- Two leaves that mention a name of a callback around them and stay: `label()` calls a function
that is declared in front of the return, and `row.name` stands in a loop in front of the return. -/
theorem localNames_left :
    (Template.parse localFunctionSource = some ⟨localFunction, ⟨11⟩⟩ ∧
      let p := (lowerLoops .wechat ⟨11⟩ ⟨localFunction, ⟨0⟩, []⟩).2
      p.sites.map (fun site => (site.bodyStatements, site.ownedSubtree)) = [([⟨2⟩], ⟨6⟩)] ∧
      localFunction.get ⟨2⟩ = .verbatim ⟨[.text "function label() \x7b return ", .mention "row",
        .text ".name; \x7d"], ["label"], false, false⟩ ∧
      localFunction.freeNames ⟨4⟩ = ["label"] ∧ p.store.get ⟨5⟩ = .container ⟨4⟩) ∧
    Template.parse statementLoopSource = some ⟨statementLoop, ⟨21⟩⟩ ∧
      let p := (lowerLoops .wechat ⟨21⟩ ⟨statementLoop, ⟨0⟩, []⟩).2
      p.sites.map (fun site => (site.itemName, site.callback, site.bodyStatements)) =
        [("row", ⟨18⟩, [⟨13⟩]), ("cell", ⟨9⟩, [])] ∧
      statementLoop.descend [0, 0, 0, 1] ⟨13⟩ = some ⟨9⟩ ∧
      statementLoop.freeNames ⟨6⟩ = ["row"] ∧ p.store.get ⟨7⟩ = .container ⟨6⟩ := by
  refine ⟨⟨by decide +kernel, ?_, ?_, ?_, ?_⟩, by decide +kernel, ?_, ?_, ?_, ?_⟩ <;> cbv

end JsxLoops.Loop
