import JsxLoops.Proofs.Leaves
import Mathlib

/-!
The names that a leaf can depend on. A leaf is moved into the record of its loop exactly if it is no
function and mentions a name that the loop or a loop around it binds. Which loops count as being
around is told twice: they are the ones that the parents of a site lead to, and they are the ones
whose callbacks hold the site, out to the first that has it in front of its return.
-/

namespace JsxLoops.Tree

open Located

/-! ### Unfolding -/

theorem Store.Shows.unfoldTo {s : Store} {t : Located} (h : s.Shows t) {depth : Nat}
    (hd : t.height ≤ depth) : s.unfoldTo depth t.loc = some t.erase := by
  induction depth generalizing t with
  | zero => exact absurd hd (Nat.not_le.2 t.height_pos)
  | succ depth ih =>
    obtain ⟨l, n⟩ := t
    have hlist (ts : List Located) (hts : ∀ t ∈ ts, s.unfoldTo depth t.loc = some t.erase) :
        (ts.map loc).mapM (s.unfoldTo depth) = some (ts.map erase) := by
      induction ts with
      | nil => rfl
      | cons t ts ihs =>
        rw [List.map_cons, List.mapM_cons, hts t List.mem_cons_self,
          ihs fun u hu => hts u (List.mem_cons_of_mem t hu)]
        rfl
    have hkids := hlist n.children fun c hc => ih (h.child hc) (height_le_succ_iff.1 hd c hc)
    have hrefill : (n.map loc).refill (n.children.map erase) = n.map erase := by
      obtain ⟨hchildren, hshape⟩ :=
        Node.children_refill (n.map loc) (n.children.map erase) (by simp)
      exact Node.ext_of_shape (by simp [hshape]) (by simp [hchildren])
    rw [Store.unfoldTo, loc_node, h.get_root, Node.mapM_eq_refill, Node.children_map, hkids,
      erase_node, ← hrefill]
    rfl

theorem Store.Shows.unfold {s : Store} {t : Located} (h : s.Shows t) :
    s.unfold t.loc = some t.erase := h.unfoldTo h.deep

end JsxLoops.Tree

namespace JsxLoops.Loop

open JsxLoops.Tree Located

variable {adapter : Adapter} {start : Nat} {gs : List Premise} {ps ps' : List Part}
  {σ σ' : Stage adapter}

/-! ### The locations of a loop -/

theorem cellsOf_children_le (t : Located) : cellsOf t.here.children ≤ t.cells := by
  rw [← eta t, cells_node, here_node]
  exact Multiset.le_add_left _ _

namespace Mapping

variable (m : Mapping)

/-- The callback as it was found. -/
def function : Located := .node m.callback (.lambda ⟨m.form, false, false, m.params, m.body⟩)

def region : Multiset Loc := locsOf [m.function]

theorem region_eq : m.region = {m.callback} + (locsOf m.leading + (locsOf [m.subtree] +
    (m.ending.spare m.resultParens m.subtree.loc).map Cell.loc)) := by
  simp [region, locsOf, function, leading, body, Ending.cellsOf_body, cells_node, Node.children]

theorem callback_mem_region : m.callback ∈ m.region := by
  rw [region_eq]
  exact Multiset.mem_add.2 (.inl (Multiset.mem_singleton_self _))

theorem leading_le_region : locsOf m.leading ≤ m.region := by
  rw [region_eq]
  exact (Multiset.le_add_right _ _).trans (Multiset.le_add_left _ _)

theorem subtree_le_region : locsOf [m.subtree] ≤ m.region := by
  rw [region_eq]
  exact ((Multiset.le_add_right _ _).trans (Multiset.le_add_left _ _)).trans
    (Multiset.le_add_left _ _)

theorem region_le_tree : m.region ≤ locsOf [m.tree] :=
  Multiset.map_le_map (by simpa [function, tree] using (m.occurs_callback m.params m.body).cells_le)

/-- In a callback without repeated locations, its own location is nowhere in the body, and the
statements and the template have none in common. -/
theorem apart {m : Mapping} (h : m.region.Nodup) : m.callback ∉ locsOf m.leading ∧
    m.callback ∉ locsOf [m.subtree] ∧ Disjoint (locsOf m.leading) (locsOf [m.subtree]) := by
  rw [region_eq, Multiset.singleton_add, Multiset.nodup_cons, Multiset.nodup_add] at h
  obtain ⟨hout, -, -, hdisjoint⟩ := h
  simp only [Multiset.mem_add, not_or] at hout
  exact ⟨hout.1, hout.2.1, hdisjoint.mono_right (Multiset.le_add_right _ _)⟩

theorem locsOf_renamed (tokens : Tokens) (ts : List Located) :
    locsOf (ts.map (m.renamed tokens)) = locsOf ts := by
  induction ts with
  | nil => rfl
  | cons t ts ih =>
    have ht : (m.renamed tokens t).cells.map Cell.loc = t.cells.map Cell.loc := by
      rw [renamed]
      split
      · exact map_loc_cells_renameFree _ _ t
      · rfl
    simp only [locsOf, List.map_cons, cellsOf_cons, Multiset.map_add, ht] at ih ⊢
    rw [ih]

theorem treesOf_leading (tokens : Tokens) :
    treesOf (m.leading.map fun t => .statement (m.renamed tokens t)) =
      m.leading.map (m.renamed tokens) := by
  rw [treesOf, List.flatMap_map, List.map_eq_flatMap]
  rfl

theorem cellsOf_template_le (tokens : Tokens) :
    cellsOf (treesOf [.node (m.renamed tokens m.subtree)])
    ≤ (m.renamed tokens m.subtree).cells := by
  simpa [Part.trees] using cellsOf_children_le (m.renamed tokens m.subtree)

theorem locsOf_template_le (tokens : Tokens) :
    locsOf (treesOf [.node (m.renamed tokens m.subtree)]) ≤ locsOf [m.subtree] := by
  rw [← m.locsOf_renamed tokens [m.subtree]]
  exact Multiset.map_le_map (by simpa using m.cellsOf_template_le tokens)

end Mapping

/-! ### Loops around loops -/

/-- What a loop knows of the loops around it: the number of the nearest one, and their scopes,
the innermost last. -/
structure Setting where
  parent : Option UInt32
  outer : List LoopScope

/-- No loop is around. -/
def Setting.top : Setting := ⟨none, []⟩

def Stage.setting (σ : Stage adapter) : Setting :=
  ⟨σ.ledger.map Ledger.id, σ.ledger.elim [] fun L => L.outer ++ [L.scope]⟩

namespace Lowered

variable (lp : Lowered adapter)

def setting : Setting := ⟨lp.parent, lp.ledger.outer⟩

def within : Setting := ⟨some lp.tokens.id, lp.ledger.outer ++ [lp.ledger.scope]⟩

def InFront (other : Lowered adapter) : Prop := lp.mapping.callback ∈ locsOf other.mapping.leading

end Lowered

variable {c : Setting} {R R' : Multiset Loc} {P Q S lp : Lowered adapter}
  {loops loops₁ loops₂ chain new xs ys : List (Lowered adapter)}

/-- From a setting, each loop of the chain is the nearest one around the next, and the last is the
nearest one around the loop. -/
inductive Hangs (c : Setting) : List (Lowered adapter) → Lowered adapter → Prop
  | first {S : Lowered adapter} (h : S.setting = c) : Hangs c [] S
  | next {chain : List (Lowered adapter)} {P S : Lowered adapter} (h : Hangs c chain P)
    (hs : S.setting = P.within) : Hangs c (chain ++ [P]) S

theorem Hangs.cons (h : Hangs P.within chain S) (hP : P.setting = c) : Hangs c (P :: chain) S := by
  induction h with
  | first h => exact .next (.first hP) h
  | next _ hs ih => exact .next ih hs

/-- The callback of `P` is around the loop, and none from there inward has the loop in front of its
return. -/
def InScope (loops : List (Lowered adapter)) (P S : Lowered adapter) : Prop :=
  S.mapping.callback ∈ P.mapping.region ∧
    ∀ Q ∈ loops, Q.mapping.callback ∈ P.mapping.region → ¬ S.InFront Q

theorem inScope_iff (hsub : xs ⊆ new) (hR : P.mapping.region ⊆ R)
    (hout : ∀ Q ∈ new, Q ∈ xs ∨ Q.mapping.callback ∉ R) : InScope new P S ↔ InScope xs P S := by
  refine and_congr_right fun _ => ⟨fun h Q hQ => h Q (hsub hQ), fun h Q hQ hin => ?_⟩
  rcases hout Q hQ with hQ | hQ
  · exact h Q hQ hin
  · exact absurd (hR hin) hQ

/-- The loops in scope are the chain that the loop hangs on. The chain starts at the setting,
unless a loop on the way has the loop in front of its return. -/
def Settled (c : Setting) (loops : List (Lowered adapter)) (S : Lowered adapter) : Prop :=
  ∃ chain, chain ⊆ loops ∧ (∀ P ∈ loops, InScope loops P S ↔ P ∈ chain ∨ P = S) ∧
    ((∃ Q ∈ loops, S.InFront Q) ∧ Hangs .top chain S ∨
      (∀ Q ∈ loops, ¬ S.InFront Q) ∧ Hangs c chain S)

/-- A run adds settled loops with their callbacks at some locations. -/
def Settles (R : Multiset Loc) (c : Setting) (loops loops' : List (Lowered adapter)) : Prop :=
  ∃ new, loops' = loops ++ new ∧ (∀ S ∈ new, S.mapping.region ⊆ R) ∧ ∀ S ∈ new, Settled c new S

theorem Settles.refl : Settles R c loops loops :=
  ⟨[], by simp, by simp, by simp⟩

theorem Settles.mono (h : Settles R c loops loops₁) (hR : R ⊆ R') : Settles R' c loops loops₁ := by
  obtain ⟨new, hnew, hregion, hsettled⟩ := h
  exact ⟨new, hnew, fun S hS => Multiset.Subset.trans (hregion S hS) hR, hsettled⟩

theorem Settled.extend (h : Settled c xs S) (hS : S ∈ xs) (hxs : ∀ P ∈ xs, P.mapping.region ⊆ R)
    (hys : ∀ Q ∈ ys, Q.mapping.region ⊆ R') (hR : Disjoint R R') (hsub : xs ⊆ new)
    (hmem : ∀ P ∈ new, P ∈ xs ∨ P ∈ ys) : Settled c new S := by
  obtain ⟨chain, hchain, hscope, hhangs⟩ := h
  have hcallback : S.mapping.callback ∈ R := hxs S hS S.mapping.callback_mem_region
  have hfar {Q : Lowered adapter} (hQ : Q ∈ ys) : S.mapping.callback ∉ Q.mapping.region :=
    fun hin => Multiset.disjoint_left.1 hR hcallback (hys Q hQ hin)
  have hfront {Q : Lowered adapter} (hQ : Q ∈ ys) : ¬ S.InFront Q := fun hin =>
    hfar hQ (Multiset.mem_of_le Q.mapping.leading_le_region hin)
  have hout : ∀ Q ∈ new, Q ∈ xs ∨ Q.mapping.callback ∉ R := fun Q hQ => (hmem Q hQ).imp_right
    fun hQ hin => Multiset.disjoint_left.1 hR hin (hys Q hQ Q.mapping.callback_mem_region)
  refine ⟨chain, fun P hP => hsub (hchain hP), fun P hP => ?_, ?_⟩
  · rcases hmem P hP with hP | hP
    · exact (inScope_iff hsub (hxs P hP) hout).trans (hscope P hP)
    · refine ⟨fun hin => absurd hin.1 (hfar hP), fun hin => ?_⟩
      have hPxs : P ∈ xs := hin.elim (hchain ·) (· ▸ hS)
      exact (inScope_iff hsub (hxs P hPxs) hout).2 ((hscope P hPxs).2 hin)
  · refine hhangs.imp (And.imp_left ?_) (And.imp_left ?_)
    · rintro ⟨Q, hQ, hin⟩
      exact ⟨Q, hsub hQ, hin⟩
    · exact fun hno Q hQ => (hmem Q hQ).elim (hno Q) hfront

theorem Settles.append (h : Settles R c loops loops₁) (h' : Settles R' c loops₁ loops₂)
    (hR : Disjoint R R') : Settles (R + R') c loops loops₂ := by
  obtain ⟨xs, rfl, hxs, hsettled⟩ := h
  obtain ⟨ys, rfl, hys, hsettled'⟩ := h'
  refine ⟨xs ++ ys, List.append_assoc _ _ _, fun S hS => ?_, fun S hS => ?_⟩
  · rcases List.mem_append.1 hS with hS | hS
    · exact fun l hl => Multiset.mem_add.2 (.inl (hxs S hS hl))
    · exact fun l hl => Multiset.mem_add.2 (.inr (hys S hS hl))
  · rcases List.mem_append.1 hS with hS | hS
    · exact (hsettled S hS).extend hS hxs hys hR (List.subset_append_left _ _)
        fun P hP => List.mem_append.1 hP
    · exact (hsettled' S hS).extend hS hys hxs hR.symm (List.subset_append_right _ _)
        fun P hP => (List.mem_append.1 hP).symm

theorem Settled.around (hS : S ∈ xs) (hxs : ∀ P ∈ xs, P.mapping.region ⊆ R)
    (hR : R ⊆ lp.mapping.region) (hlp : lp.mapping.callback ∉ R) (hc : lp.setting = c)
    (h : S.InFront lp ∧ Settled .top xs S ∨ ¬ S.InFront lp ∧ Settled lp.within xs S) :
    Settled c (xs ++ [lp]) S := by
  have hinside {P : Lowered adapter} (hP : P ∈ xs) : P.mapping.callback ∈ lp.mapping.region :=
    hR (hxs P hP P.mapping.callback_mem_region)
  have hne {P : Lowered adapter} (hP : P ∈ xs) : P ≠ lp := by
    rintro rfl
    exact hlp (hxs P hP P.mapping.callback_mem_region)
  have hsub : xs ⊆ xs ++ [lp] := List.subset_append_left _ _
  have hold {P : Lowered adapter} (hP : P ∈ xs) : InScope (xs ++ [lp]) P S ↔ InScope xs P S := by
    refine inScope_iff hsub (hxs P hP) fun Q hQ => (List.mem_append.1 hQ).imp_right fun hQ => ?_
    obtain rfl := List.mem_singleton.1 hQ
    exact hlp
  have hnew : InScope (xs ++ [lp]) lp S ↔ ∀ Q ∈ xs ++ [lp], ¬ S.InFront Q := by
    refine ⟨fun hin Q hQ => hin.2 Q hQ ?_, fun hno => ⟨hinside hS, fun Q hQ _ => hno Q hQ⟩⟩
    rcases List.mem_append.1 hQ with hQ | hQ
    · exact hinside hQ
    · obtain rfl := List.mem_singleton.1 hQ
      exact Q.mapping.callback_mem_region
  -- a loop that has the other one in front of its return keeps the chain as it is
  have hcut (hfront : ∃ Q ∈ xs ++ [lp], S.InFront Q) {chain : List (Lowered adapter)}
      (hchain : chain ⊆ xs) (hscope : ∀ P ∈ xs, InScope xs P S ↔ P ∈ chain ∨ P = S)
      (hhangs : Hangs .top chain S) : Settled c (xs ++ [lp]) S := by
    refine ⟨chain, fun P hP => hsub (hchain hP), fun P hP => ?_, .inl ⟨hfront, hhangs⟩⟩
    rcases List.mem_append.1 hP with hP | hP
    · exact (hold hP).trans (hscope P hP)
    · obtain rfl := List.mem_singleton.1 hP
      obtain ⟨Q, hQ, hin⟩ := hfront
      refine ⟨fun h => absurd hin (hnew.1 h Q hQ), fun h => ?_⟩
      exact absurd rfl (hne (h.elim (hchain ·) (· ▸ hS)))
  have hself : lp ∈ xs ++ [lp] := List.mem_append_right _ (List.mem_singleton_self lp)
  rcases h with ⟨hin, chain, hchain, hscope, hhangs⟩ | ⟨hin, chain, hchain, hscope, hhangs⟩
  · exact hcut ⟨lp, hself, hin⟩ hchain hscope (hhangs.elim And.right And.right)
  rcases hhangs with ⟨⟨Q, hQ, hfront⟩, hhangs⟩ | ⟨hno, hhangs⟩
  · exact hcut ⟨Q, hsub hQ, hfront⟩ hchain hscope hhangs
  have hno : ∀ Q ∈ xs ++ [lp], ¬ S.InFront Q := fun Q hQ => (List.mem_append.1 hQ).elim (hno Q)
    fun hQ => List.mem_singleton.1 hQ ▸ hin
  refine ⟨lp :: chain, List.cons_subset.2 ⟨hself, fun P hP => hsub (hchain hP)⟩, fun P hP => ?_,
    .inr ⟨hno, hhangs.cons hc⟩⟩
  rcases List.mem_append.1 hP with hP | hP
  · rw [hold hP, hscope P hP, List.mem_cons, or_iff_right (hne hP)]
  · obtain rfl := List.mem_singleton.1 hP
    exact ⟨fun _ => .inl List.mem_cons_self, fun _ => hnew.2 hno⟩

theorem Settles.loop (hn : lp.mapping.region.Nodup) (hc : lp.setting = c)
    (hleading : Settles (locsOf lp.mapping.leading) .top loops loops₁)
    (hsubtree : Settles (locsOf [lp.mapping.subtree]) lp.within loops₁ loops₂) :
    Settles lp.mapping.region c loops (loops₂ ++ [lp]) := by
  obtain ⟨xs, rfl, hxs, hsettled⟩ := hleading
  obtain ⟨ys, rfl, hys, hsettled'⟩ := hsubtree
  obtain ⟨hleading, hsubtree, hapart⟩ := Mapping.apart hn
  let R := locsOf lp.mapping.leading + locsOf [lp.mapping.subtree]
  have hR : R ⊆ lp.mapping.region := fun l hl => (Multiset.mem_add.1 hl).elim
    (Multiset.mem_of_le lp.mapping.leading_le_region)
    (Multiset.mem_of_le lp.mapping.subtree_le_region)
  have hlp : lp.mapping.callback ∉ R := fun hl => (Multiset.mem_add.1 hl).elim hleading hsubtree
  have hboth : ∀ P ∈ xs ++ ys, P.mapping.region ⊆ R := fun P hP l hl => Multiset.mem_add.2
    ((List.mem_append.1 hP).imp (hxs P · hl) (hys P · hl))
  refine ⟨xs ++ ys ++ [lp], by simp, fun S hS => ?_, fun S hS => ?_⟩
  · rcases List.mem_append.1 hS with hS | hS
    · exact Multiset.Subset.trans (hboth S hS) hR
    · obtain rfl := List.mem_singleton.1 hS
      exact Multiset.Subset.refl _
  rcases List.mem_append.1 hS with hS | hS
  · refine .around hS hboth hR hlp hc ?_
    rcases List.mem_append.1 hS with hS | hS
    · refine .inl ⟨hxs S hS S.mapping.callback_mem_region, ?_⟩
      exact (hsettled S hS).extend hS hxs hys hapart (List.subset_append_left _ _)
        fun P hP => List.mem_append.1 hP
    · refine .inr ⟨fun hin => ?_, ?_⟩
      · exact Multiset.disjoint_left.1 hapart hin (hys S hS S.mapping.callback_mem_region)
      · exact (hsettled' S hS).extend hS hys hxs hapart.symm (List.subset_append_right _ _)
          fun P hP => (List.mem_append.1 hP).symm
  · obtain rfl := List.mem_singleton.1 hS
    -- nothing that is found in its callback is around the loop itself
    have hfar {P : Lowered adapter} (hP : P ∈ xs ++ ys) : S.mapping.callback ∉ P.mapping.region :=
      fun hin => hlp (hboth P hP hin)
    have hno : ∀ Q ∈ xs ++ ys ++ [S], ¬ S.InFront Q := by
      intro Q hQ hin
      rcases List.mem_append.1 hQ with hQ | hQ
      · exact hfar hQ (Multiset.mem_of_le Q.mapping.leading_le_region hin)
      · obtain rfl := List.mem_singleton.1 hQ
        exact hleading hin
    refine ⟨[], List.nil_subset _, fun P hP => ?_, .inr ⟨hno, .first hc⟩⟩
    rw [or_iff_right List.not_mem_nil]
    constructor
    · intro hin
      rcases List.mem_append.1 hP with hP | hP
      · exact absurd hin.1 (hfar hP)
      · exact List.mem_singleton.1 hP
    · rintro rfl
      exact ⟨P.mapping.callback_mem_region, fun Q hQ _ => hno Q hQ⟩

/-! ### The loops of a run -/

theorem Lowers.setting_eq (h : Lowers adapter start gs ps σ ps' σ') : σ'.setting = σ.setting := by
  have hc := h.continues
  rw [Stage.setting, Stage.setting]
  generalize σ.ledger = o at hc
  generalize σ'.ledger = o' at hc
  cases hc with
  | alone => rfl
  | within hg => simp only [Option.map_some, Option.elim_some, hg.id, hg.outer, hg.scope]

def SettlesAll (ps : List Part) (σ σ' : Stage adapter) : Prop :=
  (locsOf (treesOf ps)).Nodup → Settles (locsOf (treesOf ps)) σ.setting σ.loops σ'.loops

theorem SettlesAll.mono {qs : List Part} (h : SettlesAll ps σ σ')
    (hle : cellsOf (treesOf ps) ≤ cellsOf (treesOf qs)) : SettlesAll qs σ σ' := by
  have hle : locsOf (treesOf ps) ≤ locsOf (treesOf qs) := Multiset.map_le_map hle
  exact fun hn => (h (Multiset.nodup_of_le hle hn)).mono (Multiset.subset_of_le hle)

theorem SettlesAll.site {σ₁ σ₂ : Stage adapter} {a : Allocator} (hn : lp.mapping.region.Nodup)
    (hparent : lp.parent = σ.ledger.map Ledger.id)
    (hsubtree : Lowers adapter start [] [.node (lp.mapping.renamed lp.tokens lp.mapping.subtree)]
      { σ₁ with ledger := some (.start adapter (lp.mapping.scope lp.tokens)
        (σ.ledger.elim [] fun L => L.outer ++ [L.scope]) lp.tokens) }
      [.node lp.subtree] σ₂)
    (hledger : σ₂.ledger = some lp.ledger)
    (hfirst : SettlesAll
      (lp.mapping.leading.map fun t => .statement (lp.mapping.renamed lp.tokens t))
      ⟨a, σ.loops, none⟩ σ₁)
    (hnext : SettlesAll [.node (lp.mapping.renamed lp.tokens lp.mapping.subtree)]
      { σ₁ with ledger := some (.start adapter (lp.mapping.scope lp.tokens)
        (σ.ledger.elim [] fun L => L.outer ++ [L.scope]) lp.tokens) } σ₂) :
    Settles lp.mapping.region σ.setting σ.loops (σ₂.loops ++ [lp]) := by
  have hbelow := lp.mapping.locsOf_template_le lp.tokens
  rw [SettlesAll, lp.mapping.treesOf_leading, lp.mapping.locsOf_renamed] at hfirst
  have hgrows := hsubtree.continues
  rw [hledger] at hgrows
  cases hgrows with
  | within hgrows =>
    have houter : lp.ledger.outer = σ.ledger.elim [] fun L => L.outer ++ [L.scope] := hgrows.outer
    have hscope : lp.ledger.scope = lp.mapping.scope lp.tokens := hgrows.scope
    refine .loop hn ?_ (hfirst (Multiset.nodup_of_le lp.mapping.leading_le_region hn)) ?_
    · rw [Lowered.setting, Stage.setting, hparent, houter]
    · rw [Lowered.within, houter, hscope]
      exact (hnext (Multiset.nodup_of_le (hbelow.trans lp.mapping.subtree_le_region) hn)).mono
        (Multiset.subset_of_le hbelow)

theorem Lowers.settles (h : Lowers adapter start gs ps σ ps' σ') : SettlesAll ps σ σ' := by
  induction h with
  | nil | inert | leave | keep | move => exact fun _ => .refl
  | cons h _ ih ihs =>
    intro hn
    rw [treesOf_cons, locsOf_append] at hn ⊢
    obtain ⟨hn, hns, hapart⟩ := Multiset.nodup_add.1 hn
    rw [SettlesAll, treesOf_cons, treesOf_nil, List.append_nil] at ih
    exact (ih hn).append (h.setting_eq ▸ ihs hns) hapart
  | @node _ l n _ _ _ _ _ ih => exact ih.mono (by simpa [Part.trees] using cellsOf_partsOf_le l n)
  | @markup _ t _ _ _ _ _ ih | @found _ t _ _ _ _ _ ih =>
    exact ih.mono (by simpa [Part.trees] using cellsOf_children_le t)
  | @enter _ place v _ _ _ _ _ ih =>
    exact ih.mono (by simpa [Part.trees] using (cellsOf_children_le v).trans (place.cells_le v))
  | @loop _ place parens m _ _ _ _ _ ih =>
    exact ih.mono (by simpa [Part.trees] using
      (occurs_inParens parens m.tree).cells_le.trans (place.cells_le (inParens parens m.tree)))
  | @search _ l n _ _ _ _ _ _ ih =>
    exact ih.mono (by
      simpa [treesOf, List.flatMap_map, Part.trees] using cellsOf_children_le (.node l n))
  | @site _ lp σ σ₁ σ₂ parent _ _ hparent _ hsubtree hledger _ _ _ _ ihl ihs =>
    intro hn
    have hle : lp.mapping.region ≤ locsOf (treesOf [.loop lp.mapping]) := lp.mapping.region_le_tree
    exact (SettlesAll.site (Multiset.nodup_of_le hle hn) hparent hsubtree hledger ihl ihs).mono
      (Multiset.subset_of_le hle)

theorem LowersWhole.settled {a a' : Allocator} {t t' : Located}
    (h : LowersWhole adapter start a t t' a' loops) (hn : (t.cells.map Cell.loc).Nodup) :
    ∀ S ∈ loops, ∃ chain, chain ++ [S] ⊆ loops ∧
      (∀ P ∈ loops, InScope loops P S ↔ P ∈ chain ++ [S]) ∧ Hangs .top chain S := by
  have hsettles : ∃ R, Settles R .top [] loops := by
    cases h with
    | inside hc h =>
      refine ⟨_, h.settles (Multiset.nodup_of_le (Multiset.map_le_map ?_) hn)⟩
      simpa [Part.trees] using cellsOf_children_le t
    | @root ps m call lp inner _ hcall h =>
      obtain ⟨lp', σ₁, σ₂, -, hm, -, -, hparent, hleading, hsubtree, hledger, -, hloops, -⟩ :=
        h.of_site
      obtain ⟨rfl, hlp⟩ := List.append_inj' hloops rfl
      obtain rfl : lp = lp' := List.singleton_inj.1 hlp
      rw [← hm] at hleading hsubtree
      have hle : lp.mapping.region ≤ locsOf [m.tree] := by
        rw [hm]
        exact m.region_le_tree
      have hregion : lp.mapping.region.Nodup := by
        refine Multiset.nodup_of_le (hle.trans (Multiset.map_le_map ?_)) hn
        simpa using (occurs_inParens ps m.tree).cells_le
      exact ⟨_, @SettlesAll.site adapter start ⟨a, [], none⟩ { lp with wrapper := m.call } σ₁ σ₂ _
        hregion hparent hsubtree hledger hleading.settles hsubtree.settles⟩
  obtain ⟨R, new, hloops, -, hsettled⟩ := hsettles
  rw [List.nil_append] at hloops
  subst hloops
  intro S hS
  obtain ⟨chain, hchain, hscope, hhangs⟩ := hsettled S hS
  refine ⟨chain, ?_, fun P hP => ?_, hhangs.elim And.right And.right⟩
  · exact List.append_subset.2 ⟨hchain, List.cons_subset.2 ⟨hS, List.nil_subset _⟩⟩
  · rw [hscope P hP, List.mem_append, List.mem_singleton]

/-! ### The names that are in scope -/

variable {s : Store} {sites : List Site}

def Site.Declares (site : Site) (s : Store) (name : String) : Prop :=
  ∃ l ∈ site.bodyStatements, ∃ keyword ds, s.get l = .declaration keyword ds ∧
    ∃ d ∈ ds, name ∈ d.binder.names

/-- A site binds a name for its template. -/
def Site.Binds (site : Site) (s : Store) (name : String) : Prop :=
  name = site.itemName ∨ name = site.indexName ∨ site.Declares s name

theorem Site.declares_iff {site : Site} {name : String} :
    site.Declares s name ↔ name ∈ s.declaredNames site.bodyStatements := by
  rw [Site.Declares, Store.declaredNames, List.mem_flatMap]
  refine exists_congr fun l => and_congr_right fun _ => ?_
  cases h : s.get l <;> simp

theorem LoopScope.binds_iff {scope : LoopScope} {name : String} : scope.binds name = true ↔
    name = scope.item ∨ name = scope.index ∨ name ∈ scope.locals := by
  simp only [LoopScope.binds, Bool.or_eq_true, beq_iff_eq, List.contains_iff_mem, or_assoc,
    eq_comm (a := name)]

theorem Ledger.takes_iff {L : Ledger adapter} {v : Located} : L.takes v = true ↔
    (∀ f, v.strip.here ≠ .lambda f) ∧ ∃ name ∈ v.freeNames,
      L.scope.binds name = true ∨ ∃ scope ∈ L.outer, scope.binds name = true := by
  have hdepends : L.owner.dependsOn v.freeNames = true ↔ ∃ name ∈ v.freeNames,
      L.scope.binds name = true ∨ ∃ scope ∈ L.outer, scope.binds name = true := by
    simp [Owner.dependsOn, Ledger.owner]
  rw [Ledger.takes]
  split
  case h_1 f hf => simp [hf]
  case h_2 hno => rw [hdepends, and_iff_right fun f hf => hno f hf]

theorem Formed.binds_iff (h : Formed start lp)
    (hs : s.declaredNames lp.site.bodyStatements = (lp.mapping.scope lp.tokens).locals)
    (name : String) : lp.ledger.scope.binds name = true ↔ lp.site.Binds s name := by
  rw [LoopScope.binds_iff, Site.Binds, Site.declares_iff, hs, h.ledger.1]
  rfl

theorem Hangs.outer_eq (h : Hangs .top chain S) :
    S.ledger.outer = chain.map fun P => P.ledger.scope := by
  induction h with
  | first h => exact congrArg Setting.outer h
  | next _ hs ih =>
    rw [List.map_append, List.map_singleton, ← ih]
    exact congrArg Setting.outer hs

/-- A leaf is moved if it is no function and mentions a name that a loop of the chain binds, or the
loop itself. -/
theorem Hangs.takes_iff {v : Located} (h : Hangs .top chain S) (hbinds : ∀ P ∈ chain ++ [S],
      ∀ name, P.ledger.scope.binds name = true ↔ P.site.Binds s name) :
    S.ledger.takes v = true ↔ (∀ f, v.strip.here ≠ .lambda f) ∧
      ∃ name ∈ v.freeNames, ∃ P ∈ chain ++ [S], P.site.Binds s name := by
  rw [Ledger.takes_iff, h.outer_eq]
  refine and_congr_right fun _ => exists_congr fun name => and_congr_right fun _ => ?_
  constructor
  · rintro (hname | ⟨scope, hscope, hname⟩)
    · have hS : S ∈ chain ++ [S] := List.mem_append_right _ (List.mem_singleton_self S)
      exact ⟨S, hS, (hbinds S hS name).1 hname⟩
    · obtain ⟨P, hP, rfl⟩ := List.mem_map.1 hscope
      have hP : P ∈ chain ++ [S] := List.mem_append_left _ hP
      exact ⟨P, hP, (hbinds P hP name).1 hname⟩
  · rintro ⟨P, hP, hname⟩
    rw [← hbinds P hP name] at hname
    rcases List.mem_append.1 hP with hP | hP
    · exact .inr ⟨_, List.mem_map_of_mem hP, hname⟩
    · obtain rfl := List.mem_singleton.1 hP
      exact .inl hname

/-! ### Leaves that stay -/

/-- A store has an expression at a spot. -/
inductive ExpressionAt (s : Store) : Spot → Loc → Prop
  | text {l v : Loc} (h : s.get l = .container v) : ExpressionAt s (.text l) v
  | named {l v : Loc} {e : Element Loc} {i : Nat} {name : String} (hl : s.get l = .element e)
    (h : e.attributes[i]? = some (.named name (.expression v))) :
    ExpressionAt s (.attribute l i name) v

theorem Lowered.expressionAt (lp : Lowered adapter) {x v : Located} {spot : Spot}
    (hs : s.Shows lp.tree) (hx : Occurs x lp.subtree)
    (h : Place.holding (.spot spot) v ∈ partsOf x.loc x.here) :
    ExpressionAt s spot v.loc ∧ s.Shows v := by
  cases spot with
  | text c =>
    have hshown := hs.occurs (lp.occurs_child hx h)
    exact ⟨.text hshown.get_root, hshown.child (List.mem_singleton_self v)⟩
  | «attribute» holder i name =>
    obtain ⟨rfl, e, he, ha⟩ := mem_partsOf_attribute h
    have hshown := hs.occurs (lp.occurs_tree hx (by simp [he]))
    have hget := hshown.get_loc
    rw [he] at hget
    refine ⟨.named hget (by simp [ha, Attribute.map, AttributeValue.map]), hshown.of_mem ?_⟩
    rw [he]
    refine List.mem_append_left _ (List.mem_flatMap.2 ⟨_, List.mem_of_getElem? ha, ?_⟩)
    exact List.mem_singleton_self v

theorem Formed.moves_iff {v : Located} {spot : Spot} (h : Formed start lp) (hs : s.Shows lp.tree)
    (hleaf : Leaf (lp.mapping.renamed lp.tokens lp.mapping.subtree) gs spot v) :
    ((∃ path, Mustache s spot path) ↔ lp.ledger.takes v = true) ∧
      ((¬ ∃ path, Mustache s spot path) →
        ExpressionAt s spot v.loc ∧ s.unfold v.loc = some v.erase) := by
  obtain ⟨x, hx, ⟨htakes, hkept⟩ | ⟨e, -, -, -, hshown, htakes⟩⟩ := h.leaf hleaf
  · have hno : ¬ ∃ path, Mustache s spot path := fun ⟨path, hpath⟩ =>
      lp.not_mustache hs hx hkept hpath
    obtain ⟨hat, hv⟩ := lp.expressionAt hs hx hkept
    exact ⟨⟨fun hm => absurd hm hno, by simp [htakes]⟩, fun _ => ⟨hat, hv.unfold⟩⟩
  · have hmustache : ∃ path, Mustache s spot path := ⟨_, lp.mustache hs hx hshown⟩
    exact ⟨⟨fun _ => htakes, fun _ => hmustache⟩, fun hno => absurd hmustache hno⟩

/-! ### Parents -/

/-- The sites around a site, each of them the parent of the next, the outermost first. -/
inductive Ancestors (sites : List Site) : List Site → Site → Prop
  | alone {site : Site} (h : site.parent = none) : Ancestors sites [] site
  | within {chain : List Site} {outer site : Site} (h : Ancestors sites chain outer)
    (ho : outer ∈ sites) (hp : site.parent = some outer.id) :
    Ancestors sites (chain ++ [outer]) site

theorem Ancestors.eq {chain chain' : List Site} {site : Site} (h : Ancestors sites chain site)
    (h' : Ancestors sites chain' site) (hn : (sites.map Site.id).Nodup) : chain' = chain := by
  induction h generalizing chain' with
  | alone hp =>
    cases h' with
    | alone => rfl
    | within _ _ hp' => cases hp.symm.trans hp'
  | within _ ho hp ih =>
    cases h' with
    | alone hp' => cases hp.symm.trans hp'
    | within h' ho' hp' =>
      obtain rfl := List.inj_on_of_nodup_map hn ho ho' (Option.some.inj (hp.symm.trans hp'))
      rw [ih h']

theorem Hangs.ancestors (h : Hangs .top chain S) (hsites : ∀ P ∈ chain, P.site ∈ sites) :
    Ancestors sites (chain.map Lowered.site) S.site := by
  induction h with
  | first h => exact .alone (congrArg Setting.parent h)
  | next _ hs ih =>
    rw [List.map_append, List.map_singleton]
    refine .within (ih fun P hP => hsites P (List.mem_append_left _ hP)) ?_
      (congrArg Setting.parent hs)
    exact hsites _ (List.mem_append_right _ (List.mem_singleton_self _))

/-- A leaf becomes a path exactly if it is no function and mentions a name that its site or one of
the ancestors binds. Otherwise it stays where it is, the same tree as before but for the names of
indices. -/
theorem lowerLoops_dynamic (adapter : Adapter) {root : Loc} (h : s.IsTree root) (a : Allocator) :
    let p := (lowerLoops adapter root ⟨s, a, []⟩).2
    ∀ site ∈ p.sites, ∃ chain, Ancestors p.sites chain site ∧
      ((p.sites.map Site.id).Nodup → ∀ other, Ancestors p.sites other site → other = chain) ∧
      ∀ t, Stood p.sites (s.treeAt root) t → t.loc = site.ownedSubtree →
        ∀ gs spot v, Leaf t gs spot v →
          ((∃ path, Mustache p.store spot path) ↔ (∀ f, v.strip.here ≠ .lambda f) ∧
            ∃ name ∈ v.freeNames, ∃ around ∈ chain ++ [site], around.Binds p.store name) ∧
          ((¬ ∃ path, Mustache p.store spot path) →
            ExpressionAt p.store spot v.loc ∧ p.store.unfold v.loc = some v.erase) := by
  intro p site hsite
  obtain ⟨t', loops, hrun, -, hown, hsites⟩ := lowerLoops_sites adapter h a
  obtain ⟨lp, hlp, rfl⟩ := (hsites site).1 hsite
  have hshows : p.store.Shows t' := hown.shows le_rfl
  obtain ⟨chain, hchain, -, hhangs⟩ := hrun.settled h.owns_treeAt.nodup lp hlp
  have hancestors : Ancestors p.sites (chain.map Lowered.site) lp.site :=
    hhangs.ancestors fun P hP => (hsites _).2 ⟨P, hchain (List.mem_append_left _ hP), rfl⟩
  have hbinds : ∀ P ∈ chain ++ [lp], ∀ name,
      P.ledger.scope.binds name = true ↔ P.site.Binds p.store name := by
    intro P hP
    have hformed := hrun.formed P (hchain hP)
    exact hformed.binds_iff (hformed.locals_eq (hshows.occurs (hrun.placed P (hchain hP)).2))
  refine ⟨_, hancestors, fun hn other hother => hancestors.eq hother hn, ?_⟩
  intro t ht hloc gs spot v hleaf
  obtain rfl := hrun.template_eq h.owns_treeAt.nodup hown.nodup hsites hlp ht hloc
  obtain ⟨hmoves, hstays⟩ :=
    (hrun.formed lp hlp).moves_iff (hshows.occurs (hrun.placed lp hlp).1) hleaf
  refine ⟨hmoves.trans ((hhangs.takes_iff hbinds).trans ?_), hstays⟩
  rw [← List.map_singleton, ← List.map_append]
  simp only [List.mem_map, exists_exists_and_eq_and]

/-- A template that mentions the item of the loop around: `<b>{row.name}{title}</b>`. -/
def outerItemTemplate : Located :=
  .node ⟨10⟩ (.element ⟨"b", [], [.node ⟨7⟩ (.container (.node ⟨6⟩ (.member
    (.node ⟨5⟩ (.name "row")) "name" false))), .node ⟨9⟩ (.container (.node ⟨8⟩ (.name "title")))],
    false⟩)

/-- Its loop, in `<ul>{rows.map((row) => <li>{row.cells.map((cell) => …)}</li>)}</ul>`. -/
def outerItem : Store where
  nodes := #[.name "rows", .member ⟨0⟩ "map" false, .name "row", .member ⟨2⟩ "cells" false,
    .member ⟨3⟩ "map" false, .name "row", .member ⟨5⟩ "name" false, .container ⟨6⟩, .name "title",
    .container ⟨8⟩, .element ⟨"b", [], [⟨7⟩, ⟨9⟩], false⟩,
    .lambda ⟨.arrow, false, false, [.plain "cell"], .value ⟨10⟩⟩, .call ⟨4⟩ [⟨11⟩],
    .container ⟨12⟩, .element ⟨"li", [], [⟨13⟩], false⟩,
    .lambda ⟨.arrow, false, false, [.plain "row"], .value ⟨14⟩⟩, .call ⟨1⟩ [⟨15⟩],
    .container ⟨16⟩, .element ⟨"ul", [], [⟨17⟩], false⟩]

theorem outerItem_isTree : outerItem.IsTree ⟨18⟩ :=
  Store.isTree_of_filled (by decide) (by decide) (by decide)

theorem outerItem_template (sites : List Site) :
    Stood sites (outerItem.treeAt ⟨18⟩) outerItemTemplate := by
  rw [show outerItem.treeAt ⟨18⟩ = .node ⟨18⟩ (.element ⟨"ul", [], [.node ⟨17⟩ (.container
    (.node ⟨16⟩ (.call (.node ⟨1⟩ (.member (.node ⟨0⟩ (.name "rows")) "map" false))
      [.node ⟨15⟩ (.lambda ⟨.arrow, false, false, [.plain "row"], .value (.node ⟨14⟩ (.element
        ⟨"li", [], [.node ⟨13⟩ (.container (.node ⟨12⟩ (.call (.node ⟨4⟩ (.member
          (.node ⟨3⟩ (.member (.node ⟨2⟩ (.name "row")) "cells" false)) "map" false))
          [.node ⟨11⟩ (.lambda ⟨.arrow, false, false, [.plain "cell"],
            .value outerItemTemplate⟩)])))], false⟩))⟩)])))], false⟩) from rfl]
  exact Stood.only_loop.trans .only_loop

theorem outerItem_leaf : Leaf outerItemTemplate [] (.text ⟨7⟩)
    (.node ⟨6⟩ (.member (.node ⟨5⟩ (.name "row")) "name" false)) :=
  ⟨.node List.mem_cons_self .here, by cbv⟩

theorem outerItem_page : Leaf outerItemTemplate [] (.text ⟨9⟩) (.node ⟨8⟩ (.name "title")) :=
  ⟨.node (List.mem_cons_of_mem _ List.mem_cons_self) .here, by cbv⟩

theorem outerItem_site : ∃ site ∈ (lowerLoops .wechat ⟨18⟩ ⟨outerItem, ⟨0⟩, []⟩).2.sites,
    site.itemName = "cell" ∧ site.ownedSubtree = ⟨10⟩ := by
  have hsecond : (lowerLoops .wechat ⟨18⟩ ⟨outerItem, ⟨0⟩, []⟩).2.sites[1]?.map
      (fun site => (site.itemName, site.ownedSubtree)) = some ("cell", ⟨10⟩) := by
    cbv
  obtain ⟨site, hget, hsite⟩ := Option.map_eq_some_iff.1 hsecond
  exact ⟨site, List.mem_of_getElem? hget, Prod.mk.inj hsite⟩

/-- The leaf `row.name` is moved, for the parent binds the name, and `title` stays. -/
theorem outerItem_dynamic :
    let p := (lowerLoops .wechat ⟨18⟩ ⟨outerItem, ⟨0⟩, []⟩).2
    let leaf := .node ⟨6⟩ (.member (.node ⟨5⟩ (.name "row")) "name" false)
    let page := .node ⟨8⟩ (.name "title")
    outerItem.IsTree ⟨18⟩ ∧ ∃ site ∈ p.sites, site.itemName = "cell" ∧
      Stood p.sites (outerItem.treeAt ⟨18⟩) outerItemTemplate ∧
      outerItemTemplate.loc = site.ownedSubtree ∧ Leaf outerItemTemplate [] (.text ⟨7⟩) leaf ∧
      Leaf outerItemTemplate [] (.text ⟨9⟩) page ∧ ∃ chain, Ancestors p.sites chain site ∧
      ((∃ path, Mustache p.store (.text ⟨7⟩) path) ↔ (∀ f, leaf.strip.here ≠ .lambda f) ∧
        ∃ name ∈ leaf.freeNames, ∃ around ∈ chain ++ [site], around.Binds p.store name) ∧
      ((¬ ∃ path, Mustache p.store (.text ⟨9⟩) path) →
        ExpressionAt p.store (.text ⟨9⟩) page.loc ∧ p.store.unfold page.loc = some page.erase) := by
  intro p leaf page
  obtain ⟨site, hmem, hname, hsubtree⟩ := outerItem_site
  obtain ⟨chain, hchain, -, hleaves⟩ :=
    lowerLoops_dynamic .wechat outerItem_isTree ⟨0⟩ site hmem
  have hleaf := hleaves _ (outerItem_template _) hsubtree.symm
  exact ⟨outerItem_isTree, site, hmem, hname, outerItem_template _, hsubtree.symm, outerItem_leaf,
    outerItem_page, chain, hchain, (hleaf _ _ _ outerItem_leaf).1, (hleaf _ _ _ outerItem_page).2⟩

end JsxLoops.Loop
