import JsxLoops.Proofs.Scan
import JsxLoops.Proofs.Verification

/-!
The order in which loops are found. A run changes the tree that it looks for loops in, and a loop
is finished only after those in it. Still it finds the loops that a scan of the tree finds before
the run, and it numbers them in the order of the scan.
-/

namespace JsxLoops.Loop

open JsxLoops.Tree Located

variable {adapter : Adapter} {start : Nat} {gs : List Premise} {ps ps' : List Part}
  {σ σ₁ σ₂ σ' : Stage adapter} {s : Store} {a : Allocator} {parent : Option Nat}
  {fs fs' : List Found} {t t' v : Located}

/-! ### Loops and sightings -/

/-- The loop is what became of a sighting, when numbers are handed out by `a`. Its call stays where
it was found, or it leaves its place to the wrapper. -/
structure Realizes (a : Allocator) (lp : Lowered adapter) (x : Sighting) : Prop where
  tokens : lp.tokens = .ofId (a.skip x.number).next
  parent : lp.parent = x.parent.map fun k => (a.skip k).next
  candidate : { lp.mapping.candidate with call := x.candidate.call } = x.candidate
  call : lp.mapping.call = x.candidate.call ∨ lp.wrapper = x.candidate.call
  leading : lp.leading.map loc = x.candidate.leading
  subtree : lp.subtree.loc = x.candidate.subtree

/-- Between two stages the loops of a forest are found, in their order. They are finished in another
order. -/
def Discovers (a : Allocator) (parent : Option Nat) (σ σ' : Stage adapter) (fs : List Found) :
    Prop :=
  ∀ k, σ.allocator = a.skip k → ∃ new ordered, σ'.loops = σ.loops ++ new ∧ ordered.Perm new ∧
    List.Forall₂ (Realizes a) ordered (numberedAll parent k fs) ∧
    σ'.allocator = a.skip (k + ordered.length)

namespace Discovers

theorem of_eq (hloops : σ'.loops = σ.loops) (hallocator : σ'.allocator = σ.allocator) :
    Discovers a parent σ σ' [] := by
  intro k hk
  refine ⟨[], [], by rw [hloops, List.append_nil], .nil, .nil, ?_⟩
  rw [hallocator, hk]
  rfl

theorem append (h : Discovers a parent σ σ₁ fs) (h' : Discovers a parent σ₁ σ' fs') :
    Discovers a parent σ σ' (fs ++ fs') := by
  intro k hk
  obtain ⟨new, ordered, hloops, hperm, hrealizes, ha⟩ := h k hk
  obtain ⟨new', ordered', hloops', hperm', hrealizes', ha'⟩ := h' _ ha
  refine ⟨new ++ new', ordered ++ ordered', ?_, hperm.append hperm', ?_, ?_⟩
  · rw [hloops', hloops, List.append_assoc]
  · rw [numberedAll_append, ← hrealizes.length_eq]
    exact List.rel_append hrealizes hrealizes'
  · rw [ha', List.length_append, Nat.add_assoc]

/-- A loop comes before what is found in it, first in its leading statements and then in its
template. It is finished after all of that. -/
theorem loop {k : Nat} {c : Candidate} {o : Option (Ledger adapter)} {lp : Lowered adapter}
    (hk : σ.allocator = a.skip k)
    (hleading : Discovers a none ⟨σ.allocator.allocate.2, σ.loops, none⟩ σ₁ fs)
    (hsubtree : Discovers a (some k) ⟨σ₁.allocator, σ₁.loops, o⟩ σ₂ fs')
    (hlp : Realizes a lp ⟨c, k, parent⟩) :
    ∃ new ordered, σ₂.loops = σ.loops ++ new ∧ ordered.Perm (new ++ [lp]) ∧
      List.Forall₂ (Realizes a) ordered (numberedAll parent k [.loop c fs fs']) ∧
      σ₂.allocator = a.skip (k + ordered.length) := by
  have hnext : σ.allocator.allocate.2 = a.skip (k + 1) := by
    rw [hk, ← Allocator.skip_skip]
    rfl
  obtain ⟨new, ordered, hloops, hperm, hrealizes, ha⟩ := hleading _ hnext
  obtain ⟨new', ordered', hloops', hperm', hrealizes', ha'⟩ := hsubtree _ ha
  dsimp only at hloops hloops'
  refine ⟨new ++ new', lp :: (ordered ++ ordered'), ?_, ?_, ?_, ?_⟩
  · rw [hloops', hloops, List.append_assoc]
  · exact ((hperm.append hperm').cons lp).trans (List.perm_append_singleton lp _).symm
  · rw [numberedAll, numberedAll, List.append_nil, Found.numbered, ← hrealizes.length_eq]
    exact .cons hlp (List.rel_append hrealizes hrealizes')
  · rw [ha', List.length_cons, List.length_append]
    congr 1
    omega

end Discovers

/-! ### What a run finds -/

theorem Lowers.statement_eq (h : Lowers adapter start gs ps σ ps' σ') :
    List.Forall₂ (fun p p' => ∀ t t', p = .statement t → p' = .statement t' →
      t'.loc = t.loc ∧ (t.hasMarkup = false → t' = t)) ps ps' := by
  induction h with
  | nil => exact .nil
  | cons _ _ ih ihs => exact .cons (List.forall₂_cons.1 ih).1 ihs
  | @search _ l n n' _ _ _ hn _ ih =>
    refine .cons (fun t t' ht ht' => ?_) .nil
    obtain rfl := Part.statement.inj ht
    obtain rfl := Part.statement.inj ht'
    refine ⟨rfl, fun hno => ?_⟩
    have hbelow : ∀ c ∈ n.children, c.hasMarkup = false := fun c hc =>
      Bool.eq_false_iff.2 fun hm => by rw [hasMarkup_of_mem hc hm] at hno; cases hno
    have hchildren : n'.children = n.children := by
      rw [List.forall₂_map_left_iff, List.forall₂_map_right_iff] at ih
      generalize n.children = cs at ih hbelow
      generalize n'.children = cs' at ih
      induction ih with
      | nil => rfl
      | cons hc _ ihs =>
        obtain ⟨hfirst, hrest⟩ := List.forall_mem_cons.1 hbelow
        rw [(hc _ _ rfl rfl).2 hfirst, ihs hrest]
    rw [Node.ext_of_shape hn hchildren]
  | found hm h =>
    refine .cons (fun t t' ht ht' => ?_) .nil
    obtain rfl := Part.statement.inj ht
    obtain rfl := Part.statement.inj ht'
    refine ⟨h.of_node.1, fun hno => ?_⟩
    rw [hasMarkup_of_isMarkup hm] at hno
    cases hno
  | inert h =>
    refine .cons (fun t t' ht => ?_) .nil
    subst ht
    cases h
  | leave | enter | keep | move | loop =>
    exact .cons (fun t t' ht => absurd ht (Place.holding_ne_statement _ _ t)) .nil
  | node | markup | site => exact .cons (fun t t' ht => nomatch ht) .nil

theorem Lowers.map_loc_statements {ts ts' : List Located}
    (h : Lowers adapter start gs (ts.map .statement) σ (ts'.map .statement) σ') :
    ts'.map loc = ts.map loc := by
  have hall := h.statement_eq
  rw [List.forall₂_map_left_iff, List.forall₂_map_right_iff] at hall
  clear h
  induction hall with
  | nil => rfl
  | cons ht _ ih => rw [List.map_cons, List.map_cons, (ht _ _ rfl rfl).1, ih]

theorem Lowers.map_loc_leading {lp : Lowered adapter} (h : Lowers adapter start gs
      (lp.mapping.leading.map fun t => .statement (lp.mapping.renamed lp.tokens t)) σ
      (lp.leading.map .statement) σ') :
    lp.leading.map loc = lp.mapping.leading.map loc := by
  rw [show (fun t => Part.statement (lp.mapping.renamed lp.tokens t)) =
    Part.statement ∘ lp.mapping.renamed lp.tokens from rfl, ← List.map_map] at h
  rw [h.map_loc_statements, List.map_map]
  exact List.map_congr_left fun t _ => lp.mapping.loc_renamed lp.tokens t

theorem Lowers.map_id (h : Lowers adapter start gs ps σ ps' σ') :
    σ'.ledger.map Ledger.id = σ.ledger.map Ledger.id := by
  have hc := h.continues
  generalize σ.ledger = o at hc
  generalize σ'.ledger = o' at hc
  cases hc with
  | alone => rfl
  | within hg => exact congrArg some hg.id

/-- The parts stand in the store, but for names, and no deeper than a scan can go. -/
def Mirrored (s : Store) (depth : Nat) (ps : List Part) : Prop :=
  ∀ p ∈ ps, ∀ t ∈ p.roots, Echoes s t ∧ t.height ≤ depth

namespace Mirrored

variable {depth : Nat} {p : Part}

theorem head (h : Mirrored s depth (p :: ps)) : Mirrored s depth [p] := fun q hq =>
  h q (List.mem_singleton.1 hq ▸ List.mem_cons_self)

theorem tail (h : Mirrored s depth (p :: ps)) : Mirrored s depth ps := fun q hq =>
  h q (List.mem_cons_of_mem p hq)

theorem single (hp : p.roots = [t]) (he : Echoes s t) (ht : t.height ≤ depth) :
    Mirrored s depth [p] := by
  intro q hq u hu
  obtain rfl := List.mem_singleton.1 hq
  rw [hp] at hu
  obtain rfl := List.mem_singleton.1 hu
  exact ⟨he, ht⟩

theorem statements {m : Mapping} (tokens : Tokens) (he : Echoes s m.tree)
    (hd : m.tree.height ≤ depth) :
    Mirrored s depth (m.leading.map fun t => .statement (m.renamed tokens t)) := by
  intro p hp u hu
  obtain ⟨t, ht, rfl⟩ := List.mem_map.1 hp
  obtain rfl := List.mem_singleton.1 hu
  have hoccurs := m.occurs_leading ht
  exact ⟨(he.occurs hoccurs).renamed m tokens,
    (m.height_renamed tokens t).trans_le (hoccurs.height_le.trans hd)⟩

theorem template {m : Mapping} (tokens : Tokens) (he : Echoes s m.tree)
    (hd : m.tree.height ≤ depth) : Mirrored s depth [.node (m.renamed tokens m.subtree)] :=
  .single rfl ((he.occurs m.occurs_subtree).renamed m tokens)
    ((m.height_renamed tokens m.subtree).trans_le (m.occurs_subtree.height_le.trans hd))

theorem holding {place : Place} (h : Mirrored s depth [place.holding v]) :
    Echoes s v ∧ v.height ≤ depth := by
  obtain ⟨t, ht, hv⟩ := place.among_roots v
  obtain ⟨he, hd⟩ := h _ (List.mem_singleton_self _) t ht
  exact ⟨he.occurs hv, hv.height_le.trans hd⟩

end Mirrored

theorem Part.Inert.scan_eq {p : Part} {inside : Loc → List Found} (h : p.Inert) :
    p.scan s inside = [] := by
  cases p with
  | «attribute» l i a =>
    cases a with
    | spread => rfl
    | named name value =>
      cases value with
      | expression v => exact absurd rfl (h name v)
      | _ => rfl
  | child t =>
    obtain ⟨hmarkup, hcontainer⟩ := h
    rw [Part.scan]
    cases hn : t.here with
    | element | fragment => simp [hn, Node.isMarkup] at hmarkup
    | container v => exact absurd hn (hcontainer v)
    | _ => rfl
  | _ => cases h

theorem Part.scan_child {inside : Loc → List Found} (h : t.here.isMarkup = true) :
    Part.scan s inside (.child t) = inside t.loc := by
  rw [Part.scan]
  cases hn : t.here with
  | element | fragment => rfl
  | _ => simp [hn, Node.isMarkup] at h

theorem scanLoop_eq {inside : Loc → List Found} {m : Mapping} (tokens : Tokens)
    (h : Echoes s m.tree) :
    scanLoop s inside m.candidate = .loop m.candidate
      ((m.leading.map fun t => .statement (m.renamed tokens t)).flatMap (Part.scan s inside))
      ([Part.node (m.renamed tokens m.subtree)].flatMap (Part.scan s inside)) := by
  have hroots : ∀ t ∈ m.leading, s.markupAt t.loc = (m.renamed tokens t).markup := by
    intro t ht
    rw [(h t (m.occurs_leading ht)).markup, Mapping.renamed]
    split
    · rw [markup_renameFree]
    · rfl
  have hleading : (s.markupRoots m.candidate.leading).flatMap inside =
      (m.leading.map fun t => .statement (m.renamed tokens t)).flatMap (Part.scan s inside) := by
    rw [Store.markupRoots, Mapping.candidate, List.flatMap_map, List.flatMap_map,
      List.flatMap_assoc]
    exact List.flatMap_congr fun t ht => by rw [hroots t ht]; rfl
  rw [scanLoop, hleading, List.flatMap_singleton, Part.scan, Mapping.loc_renamed]
  rfl

theorem Realizes.of_lowers {lp : Lowered adapter} {k : Nat} {σ₃ : Stage adapter}
    (htokens : lp.tokens = .ofId (a.skip k).next)
    (hparent : lp.parent = parent.map fun k => (a.skip k).next)
    (hleading : Lowers adapter start []
      (lp.mapping.leading.map fun t => .statement (lp.mapping.renamed lp.tokens t)) σ
      (lp.leading.map .statement) σ₁)
    (hsubtree : Lowers adapter start [] [.node (lp.mapping.renamed lp.tokens lp.mapping.subtree)] σ₂
      [.node lp.subtree] σ₃) :
    Realizes a lp ⟨lp.mapping.candidate, k, parent⟩ := by
  exact ⟨htokens, hparent, rfl, .inl rfl, hleading.map_loc_leading,
    hsubtree.of_node.1.trans (Mapping.loc_renamed _ _ _)⟩

theorem Lowers.discovers {depth : Nat} (h : Lowers adapter start gs ps σ ps' σ')
    (hps : Mirrored s depth ps)
    (hparent : σ.ledger.map Ledger.id = parent.map fun k => (a.skip k).next) :
    Discovers a parent σ σ' (ps.flatMap (Part.scan s (scanTo s depth))) := by
  -- `s` is the store before the whole run, so it stays while the stages of the run go on; what it
  -- has is what the parts were made of, up to the names of indices
  induction h generalizing depth parent with
  | nil => exact .of_eq rfl rfl
  | cons h hs ih ihs =>
    rw [List.flatMap_cons]
    have hfirst := ih hps.head hparent
    rw [List.flatMap_singleton] at hfirst
    exact hfirst.append (ihs hps.tail (h.map_id.trans hparent))
  | @node _ l n n' _ _ hn h ih =>
    obtain ⟨he, hd⟩ := hps _ (List.mem_singleton_self _) _ (List.mem_singleton_self _)
    obtain ⟨d, rfl⟩ : ∃ d, depth = d + 1 := ⟨depth - 1, by
      have hpos := height_pos (.node l n)
      omega⟩
    rw [List.flatMap_singleton]
    show Discovers a parent _ _ (scanNode s (scanTo s d) (s.get l))
    rw [scanNode_eq he]
    refine ih (fun p hp t ht => ?_) hparent
    have hmem := mem_children_of_roots hp ht
    exact ⟨he.occurs (.child hmem .self), height_le_succ_iff.1 hd t hmem⟩
  | inert h =>
    rw [List.flatMap_singleton, h.scan_eq]
    exact .of_eq rfl rfl
  | markup hm h ih =>
    rw [List.flatMap_singleton, Part.scan_child hm]
    obtain ⟨he, hd⟩ := hps _ (List.mem_singleton_self _) _ (List.mem_singleton_self _)
    simpa [Part.scan] using ih (.single rfl he hd) hparent
  | leave hv | keep hv | move hv =>
    rw [List.flatMap_singleton, Place.scan_holding _ (hps.holding.1 _ .self), hv]
    exact .of_eq rfl rfl
  | enter hv h ih =>
    obtain ⟨he, hd⟩ := hps.holding
    rw [List.flatMap_singleton, Place.scan_holding _ (he _ .self), hv]
    simpa [Part.scan] using ih (.single rfl he hd) hparent
  | loop hv h ih =>
    obtain ⟨he, hd⟩ := hps.holding
    obtain ⟨-, -, -, -, -, hm, -⟩ := h.of_site
    have hcandidate := (he _ .self).candidate
    rw [candidateTree?_inParens, Mapping.candidateTree?_tree hm] at hcandidate
    rw [List.flatMap_singleton, Place.scan_holding _ (he _ .self), hv]
    simp only [scanOperand, hcandidate]
    refine ih ?_ hparent
    exact .single rfl (he.occurs (occurs_inParens _ _)) ((occurs_inParens _ _).height_le.trans hd)
  | @search _ l n _ _ _ hm hn h ih =>
    obtain ⟨he, hd⟩ := hps _ (List.mem_singleton_self _) _ (List.mem_singleton_self _)
    have hscan : Part.scan s (scanTo s depth) (.statement (.node l n)) =
        (n.children.map Part.statement).flatMap (Part.scan s (scanTo s depth)) := by
      rw [Part.scan, markup_node, if_neg (by simp [hm]), List.flatMap_assoc, List.flatMap_map]
      rfl
    rw [List.flatMap_singleton, hscan]
    refine ih (fun p hp t ht => ?_) hparent
    obtain ⟨c, hc, rfl⟩ := List.mem_map.1 hp
    obtain rfl := List.mem_singleton.1 ht
    exact ⟨he.occurs (.child hc .self), (height_lt_of_mem hc).le.trans hd⟩
  | @found _ t _ _ _ hm h ih =>
    obtain ⟨he, hd⟩ := hps _ (List.mem_singleton_self _) _ (List.mem_singleton_self _)
    have hscan : Part.scan s (scanTo s depth) (.statement t) = scanTo s depth t.loc := by
      obtain ⟨l, n⟩ := t
      rw [Part.scan, markup_node, if_pos (by exact hm), List.flatMap_singleton]
      rfl
    rw [List.flatMap_singleton, hscan]
    simpa [Part.scan] using ih (.single rfl he hd) hparent
  | site lp hm htokens hparent' hleading hsubtree hledger hrecord hwrapper hfresh hbound ihl ihs =>
    obtain ⟨he, hd⟩ := hps _ (List.mem_singleton_self _) _ (List.mem_singleton_self _)
    -- the number was taken before the loop was searched, and the index has its new name already
    rw [List.flatMap_singleton, Part.scan, scanLoop_eq lp.tokens he]
    intro k hk
    have hid : lp.tokens = .ofId (a.skip k).next := by
      rw [htokens, hk]
      rfl
    have hnumber : some lp.tokens.id = some (a.skip k).next := by
      rw [hid]
      rfl
    obtain ⟨new, ordered, hloops, hperm, hrealizes, ha⟩ :=
      Discovers.loop hk (ihl (.statements lp.tokens he hd) rfl)
        (ihs (.template lp.tokens he hd) hnumber)
        (.of_lowers hid (hparent'.trans hparent) hleading hsubtree)
    refine ⟨new ++ [lp], ordered, ?_, hperm, hrealizes, ha⟩
    rw [hloops, List.append_assoc]

theorem Allocator.skip_zero (a : Allocator) : a.skip 0 = a := by
  simp [Allocator.skip]

theorem LowersWhole.discovers {a' : Allocator} {loops : List (Lowered adapter)}
    (h : LowersWhole adapter start a t t' a' loops) (he : Echoes s t) (hd : t.height ≤ s.size) :
    ∃ ordered, ordered.Perm loops ∧
      List.Forall₂ (Realizes a) ordered (numberedAll none 0 (scan s t.loc)) ∧
      a' = a.skip ordered.length := by
  cases h with
  | inside hc h =>
    have hfound : Discovers a none _ _ _ := h.discovers (.single rfl he hd) rfl
    obtain ⟨new, ordered, hloops, hperm, hrealizes, ha⟩ := hfound 0 a.skip_zero.symm
    rw [List.nil_append] at hloops
    subst hloops
    refine ⟨ordered, hperm, ?_, by rw [ha, Nat.zero_add]⟩
    rw [List.flatMap_singleton] at hrealizes
    simp only [scan, (he t .self).candidate, hc]
    exact hrealizes
  | @root parens m call lp inner _ hcall h =>
    obtain ⟨lp', σ₁, σ₂, -, hmapping, hm, htokens, hparent, hleading, hsubtree, -, ha,
      hloops, -⟩ := h.of_site
    obtain ⟨rfl, hlp⟩ := List.append_inj' hloops rfl
    obtain rfl : lp = lp' := List.singleton_inj.1 hlp
    have hin := occurs_inParens parens m.tree
    have hem := he.occurs hin
    have hdm := hin.height_le.trans hd
    have hid : lp.tokens = .ofId (a.skip 0).next := by
      rw [htokens, a.skip_zero]
      rfl
    -- the wrapper of a loop at the root takes the place of its call
    have hroot : Realizes a { lp with wrapper := m.call } ⟨m.candidate, 0, none⟩ := by
      rw [← hmapping] at hleading hsubtree
      have hfound : Realizes a lp ⟨lp.mapping.candidate, 0, none⟩ :=
        .of_lowers hid hparent hleading hsubtree
      rw [hmapping] at hfound
      exact ⟨hid, hparent, by rw [hmapping]; rfl, .inr rfl, hfound.leading, hfound.subtree⟩
    have hfirst : Discovers a none _ σ₁ _ :=
      hleading.discovers (.statements (m := m) lp.tokens hem hdm) rfl
    have hnumber : some lp.tokens.id = some (a.skip 0).next := by rw [hid]; rfl
    have hnext : Discovers a (some 0) _ σ₂ _ :=
      hsubtree.discovers (.template (m := m) lp.tokens hem hdm) hnumber
    obtain ⟨new, ordered, hnew, hperm, hrealizes, ha₂⟩ :=
      Discovers.loop (σ := ⟨a, [], none⟩) a.skip_zero.symm hfirst hnext hroot
    have hcandidate : candidate? s (inParens parens m.tree).loc = .ok m.candidate := by
      rw [(he _ .self).candidate, candidateTree?_inParens]
      exact Mapping.candidateTree?_tree ⟨hm.params, hm.leading, hm.markup⟩
    refine ⟨ordered, ?_, ?_, ha.trans (ha₂.trans (by rw [Nat.zero_add]))⟩
    · rw [hnew]
      exact hperm
    · simp only [scan, hcandidate, scanLoop_eq lp.tokens hem]
      exact hrealizes

/-! ### Sites -/

/-- The site is what became of a sighting, when the first number is `first`. -/
structure SiteOf (first : Nat) (site : Site) (x : Sighting) : Prop where
  id : site.id.toNat = first + x.number
  parent : site.parent.map UInt32.toNat = x.parent.map (first + ·)
  indexName : site.indexName = "index" ++ toString (first + x.number)
  keyToken : site.keyToken = "_key" ++ toString (first + x.number)
  itemName : site.itemName = x.candidate.itemName
  source : site.source = x.candidate.receiver
  callback : site.callback = x.candidate.callback
  bodyStatements : site.bodyStatements = x.candidate.leading
  ownedSubtree : site.ownedSubtree = x.candidate.subtree
  mappingCall : site.mappingCall = x.candidate.call ∨ site.wrapper = x.candidate.call

theorem Allocator.toNat_next_skip {k : Nat} (h : a.next.toNat + k < 2 ^ 32) :
    (a.skip k).next.toNat = a.next.toNat + k := by
  have hk : k < 2 ^ 32 := by omega
  rw [skip, UInt32.toNat_add, UInt32.toNat_ofNat_of_lt' hk, Nat.mod_eq_of_lt h]

theorem Realizes.siteOf {lp : Lowered adapter} {x : Sighting} (h : Realizes a lp x)
    (hx : a.next.toNat + x.number < 2 ^ 32) (hp : ∀ k ∈ x.parent, k < x.number) :
    SiteOf a.next.toNat lp.site x := by
  obtain ⟨htokens, hparent, hcandidate, hcall, hleading, hsubtree⟩ := h
  have hnumber := Allocator.toNat_next_skip hx
  refine ⟨?_, ?_, ?_, ?_, ?_, ?_, ?_, hleading, hsubtree, hcall⟩
  · show lp.tokens.id.toNat = _
    rw [htokens, ← hnumber]
    rfl
  · show lp.parent.map _ = _
    rw [hparent, Option.map_map]
    refine Option.map_congr fun k hk => ?_
    have hlt := hp k hk
    exact Allocator.toNat_next_skip (by omega)
  · show lp.tokens.indexName = _
    rw [htokens, ← hnumber]
    rfl
  · show lp.tokens.keyToken = _
    rw [htokens, ← hnumber]
    rfl
  · rw [← hcandidate]
    rfl
  · rw [← hcandidate]
    rfl
  · rw [← hcandidate]
    rfl

theorem SiteOf.parent_lt {first : Nat} {site : Site} {x : Sighting} (h : SiteOf first site x)
    (hp : ∀ k ∈ x.parent, k < x.number) : ∀ id ∈ site.parent, id < site.id := by
  intro id hid
  have hparent := h.parent
  rw [Option.mem_def.1 hid, Option.map_some] at hparent
  obtain ⟨k, hk, hsum⟩ := Option.map_eq_some_iff.1 hparent.symm
  have hlt := hp k hk
  rw [UInt32.lt_iff_toNat_lt, h.id, ← hsum]
  omega

theorem pairwise_of_siteOf {first : Nat} {sites : List Site} {found : List Sighting}
    (h : List.Forall₂ (SiteOf first) sites found)
    (hfound : found.map Sighting.number = List.range found.length) :
    sites.Pairwise fun x y => x.id < y.id := by
  have hids : sites.map (fun site => site.id.toNat) =
      (found.map Sighting.number).map (first + ·) := by
    clear hfound
    induction h with
    | nil => rfl
    | cons hsite _ ih => rw [List.map_cons, List.map_cons, List.map_cons, hsite.id, ih]
  have hrising : (sites.map fun site => site.id.toNat).Pairwise (· < ·) := by
    rw [hids, hfound]
    exact List.pairwise_lt_range.map _ fun x y hxy => Nat.add_lt_add_left hxy first
  exact (List.pairwise_map.1 hrising).imp fun hlt => UInt32.lt_iff_toNat_lt.2 hlt

/-- The loops of a run are those that a scan finds in the tree before the run. Their sites come in
the order of the scan, and they are numbered in this order. -/
theorem lowerLoops_numbered (adapter : Adapter) {root : Loc} (h : s.IsTree root) (a : Allocator) :
    let found := numberedAll none 0 (scan s root)
    a.next.toNat + found.length < 2 ^ 32 →
      let run := lowerLoops adapter root ⟨s, a, []⟩
      List.Forall₂ (SiteOf a.next.toNat) run.2.sites found ∧
        found.map Sighting.number = List.range found.length ∧
        run.2.sites.Pairwise (fun x y => x.id < y.id) ∧
        (∀ site ∈ run.2.sites, ∀ id ∈ site.parent, id < site.id) ∧
        run.1 = found.length ∧ run.2.allocator.next.toNat = a.next.toNat + found.length := by
  intro found hbound run
  obtain ⟨t', loops, hrun, hcount, -, -, hsites⟩ := lowerLoops_isTree adapter h a
  have hshows : s.Shows (s.treeAt root) := h.owns_treeAt.shows le_rfl
  obtain ⟨ordered, hperm, hrealizes, ha⟩ := hrun.discovers (.of_shows hshows) hshows.deep
  rw [Store.loc_treeAt] at hrealizes
  have hlength : ordered.length = found.length := hrealizes.length_eq
  have hnumbers : found.map Sighting.number = List.range found.length := by
    rw [map_number_numberedAll, ← List.range_eq_range']
  have hparents : ∀ x ∈ found, ∀ k ∈ x.parent, k < x.number := parent_lt_numberedAll (by simp) _
  have hsiteOf : List.Forall₂ (SiteOf a.next.toNat) (ordered.map Lowered.site) found := by
    rw [List.forall₂_map_left_iff, List.forall₂_iff_get]
    refine ⟨hlength, fun i hi hj => ?_⟩
    have hmem : found.get ⟨i, hj⟩ ∈ found := List.get_mem _ _
    refine ((List.forall₂_iff_get.1 hrealizes).2 i hi hj).siteOf ?_ (hparents _ hmem)
    have hlt : (found.get ⟨i, hj⟩).number < 0 + found.length := (number_lt_of_mem hmem).2
    show a.next.toNat + (found.get ⟨i, hj⟩).number < 2 ^ 32
    omega
  -- loops are finished from the inside out, but two sorted lists of the same sites are equal
  have hsorted := pairwise_of_siteOf hsiteOf hnumbers
  have heq : run.2.sites = ordered.map Lowered.site := by
    rw [show run.2.sites = _ from hsites]
    refine List.Perm.eq_of_pairwise (fun x y _ _ hxy hyx => ?_) (hrun.sorted ?_) hsorted ?_
    · exact absurd hyx (UInt32.lt_asymm hxy)
    · rw [← hperm.length_eq, hlength]
      have hsize : UInt32.size = 2 ^ 32 := rfl
      omega
    · exact (List.mergeSort_perm _ _).trans (hperm.map _).symm
  rw [heq]
  refine ⟨hsiteOf, hnumbers, hsorted, ?_, ?_, ?_⟩
  · intro site hsite
    obtain ⟨i, rfl⟩ := List.get_of_mem hsite
    have hi : i.val < found.length := hsiteOf.length_eq ▸ i.isLt
    exact ((List.forall₂_iff_get.1 hsiteOf).2 i.val i.isLt hi).parent_lt
      (hparents _ (List.get_mem _ _))
  · rw [← hlength, hperm.length_eq]
    exact hcount
  · rw [show run.2.allocator = _ from ha, hlength]
    exact Allocator.toNat_next_skip hbound

theorem nestedLoops_found : (numberedAll none 0 (scan nestedLoops ⟨22⟩)).map
    (fun x => (x.candidate.callback, x.number, x.parent)) =
      [(⟨19⟩, 0, none), (⟨15⟩, 1, some 0)] := by
  cbv

theorem nestedLoops_numbered :
    let a : Allocator := ⟨5⟩
    let found := numberedAll none 0 (scan nestedLoops ⟨22⟩)
    let run := lowerLoops .wechat ⟨22⟩ ⟨nestedLoops, a, []⟩
    nestedLoops.IsTree ⟨22⟩ ∧ a.next.toNat + found.length < 2 ^ 32 ∧
      found.map (fun x => (x.candidate.callback, x.number, x.parent)) =
        [(⟨19⟩, 0, none), (⟨15⟩, 1, some 0)] ∧
      List.Forall₂ (SiteOf a.next.toNat) run.2.sites found ∧
      found.map Sighting.number = List.range found.length ∧
      run.2.sites.Pairwise (fun x y => x.id < y.id) ∧
      (∀ site ∈ run.2.sites, ∀ id ∈ site.parent, id < site.id) ∧
      run.1 = found.length ∧ run.2.allocator.next.toNat = a.next.toNat + found.length := by
  have hlength : (numberedAll none 0 (scan nestedLoops ⟨22⟩)).length = 2 := by
    simpa using congrArg List.length nestedLoops_found
  have hbound :
      (5 : UInt32).toNat + (numberedAll none 0 (scan nestedLoops ⟨22⟩)).length < 2 ^ 32 := by
    rw [hlength]
    decide
  have hall := lowerLoops_numbered .wechat nestedLoops_isTree ⟨5⟩ hbound
  dsimp only at hall ⊢
  exact ⟨nestedLoops_isTree, hbound, nestedLoops_found, hall⟩

end JsxLoops.Loop
