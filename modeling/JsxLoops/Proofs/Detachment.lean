import JsxLoops.Proofs.FreeNames
import JsxLoops.Proofs.Guards
import JsxLoops.Proofs.Operations
import JsxLoops.Proofs.Scopes
import Mathlib

/-!
Copies are detached. A copy unfolds to the same tree, it stands in new places, and no older node is
touched. What is done to the copy later is then not seen from the older nodes, nor is what is done
to these seen from the copy.

The second half is about regions, the parts of a store that nothing leads out of. A revision that is
given locations of a region writes only there, and what it leaves is a region again, so a whole
history of them keeps to the region as well.
-/

namespace JsxLoops.Tree

open Located

namespace Store

variable {s s' s'' : Store} {P : Loc → Prop} {l : Loc} {n : Node Loc}

/-! ### Regions -/

/-- Nothing leads out of the region, and the places that are still free belong to it. -/
structure Region (s : Store) (P : Loc → Prop) : Prop where
  closed : ∀ l, P l → ∀ c ∈ (s.get l).children, P c
  free : ∀ l : Loc, s.size ≤ l.index → P l

/-- All nodes outside of the region are where they were. -/
structure KeepsOutside (P : Loc → Prop) (s s' : Store) : Prop where
  size : s.size ≤ s'.size
  get : ∀ l, ¬P l → s'.get l = s.get l

theorem KeepsOutside.refl (P : Loc → Prop) (s : Store) : KeepsOutside P s s :=
  ⟨le_rfl, fun _ _ => rfl⟩

theorem KeepsOutside.trans (h : KeepsOutside P s s') (h' : KeepsOutside P s' s'') :
    KeepsOutside P s s'' :=
  ⟨h.size.trans h'.size, fun l hl => (h'.get l hl).trans (h.get l hl)⟩

theorem KeepsOutside.shows {t : Located} (h : KeepsOutside P s s') (ht : s.Shows t)
    (hout : ∀ c ∈ t.cells, ¬P c.loc) : s'.Shows t where
  bound c hc := (ht.bound c hc).trans_le h.size
  get c hc := (h.get c.loc (hout c hc)).trans (ht.get c hc)
  deep := ht.deep.trans h.size

theorem Region.write (h : s.Region P) (hsize : s.size ≤ s'.size)
    (hget : ∀ x, s'.get x = s.get x ∨ P x ∧ ∀ c ∈ (s'.get x).children, P c) :
    s'.Region P ∧ KeepsOutside P s s' := by
  refine ⟨⟨fun x hx c hc => ?_, fun x hx => h.free x (hsize.trans hx)⟩, hsize, fun x hx => ?_⟩
  · rcases hget x with hsame | hwritten
    · exact h.closed x hx c (hsame ▸ hc)
    · exact hwritten.2 c hc
  · exact (hget x).resolve_right fun hwritten => hx hwritten.1

theorem Region.add (h : s.Region P) (hn : ∀ c ∈ n.children, P c) :
    (s.add n).2.Region P ∧ KeepsOutside P s (s.add n).2 := by
  refine h.write (extends_add s n).size fun x => ?_
  rcases Nat.lt_trichotomy x.index s.size with hlt | heq | hgt
  · exact .inl (get_add_old s n hlt)
  · refine .inr ⟨h.free x heq.ge, ?_⟩
    rw [show x = (s.add n).1 from Loc.index_injective heq, get_add_new]
    exact hn
  · refine .inl ?_
    rw [get_of_size_le hgt.le, get_of_size_le (by rwa [size_add])]

theorem Region.put (h : s.Region P) (hl : P l) (hn : ∀ c ∈ n.children, P c) :
    (s.put l n).Region P ∧ KeepsOutside P s (s.put l n) := by
  refine h.write (size_put s l n).ge fun x => ?_
  obtain hsame | ⟨rfl, hput⟩ := get_put_cases (s := s) l x n
  · exact .inl hsame
  · exact .inr ⟨hl, by rwa [hput]⟩

theorem Region.replaceChild {holder old new : Loc} (h : s.Region P) (hholder : P holder)
    (hnew : P new) : (s.replaceChild holder old new).2.Region P ∧
      KeepsOutside P s (s.replaceChild holder old new).2 := by
  rw [replaceChild_eq]
  refine h.put hholder fun c hc => ?_
  rw [Node.children_map] at hc
  obtain ⟨d, hd, rfl⟩ := List.mem_map.1 hc
  split
  · exact hnew
  · exact h.closed holder hholder d hd

theorem Region.loc_mention (h : s.Region P) {m : Mention} (hl : P l) (hm : m ∈ s.freeMentions l) :
    P m.loc := by
  rw [freeMentions, read] at hm
  generalize s.size = depth at hm
  induction depth generalizing l with
  | zero => cases hm
  | succ depth ih =>
    rw [visit, List.mem_filter] at hm
    have hin := hm.1
    unfold mentionsIn at hin
    split at hin
    · cases List.mem_singleton.1 hin
      exact hl
    · obtain ⟨name, -, rfl⟩ := List.mem_map.1 hin
      exact hl
    · obtain ⟨code | child, hcontent, hin⟩ := List.mem_flatMap.1 hin
      · obtain ⟨name, -, rfl⟩ := List.mem_map.1 hin
        exact hl
      · exact ih (h.closed l hl child (Node.child_mem_contents.1 hcontent)) hin

theorem get_renameAt_of_notMem {a b : String} {locs : List Loc} (hl : l ∉ locs) :
    (s.renameAt a b locs).get l = s.get l := by
  rw [renameAt]
  induction locs generalizing s with
  | nil => rfl
  | cons k locs ih =>
    rw [List.mem_cons, not_or] at hl
    rw [List.foldl_cons, ih hl.2, get_put_of_ne _ hl.1]

theorem Region.rename (h : s.Region P) {roots : List Loc} (hroots : ∀ l ∈ roots, P l)
    (source target : String) : (s.rename roots source target).2.Region P ∧
      KeepsOutside P s (s.rename roots source target).2 := by
  rw [snd_rename]
  split
  · exact ⟨h, .refl P s⟩
  · refine h.write (size_renameAt s _ _ _).ge fun x => ?_
    by_cases hx : x ∈ s.mentionLocs roots source
    · obtain ⟨m, hm, rfl⟩ := List.mem_map.1 hx
      obtain ⟨root, hroot, hm⟩ := List.mem_flatMap.1 (List.mem_filter.1 hm).1
      have hp := h.loc_mention (hroots root hroot) hm
      refine .inr ⟨hp, ?_⟩
      rw [children_renameAt]
      exact h.closed m.loc hp
    · exact .inl (get_renameAt_of_notMem hx)

/-! ### Revisions -/

/-- A change of a store: a node is added, one is replaced, a child is exchanged for another, or a
name is changed where it is mentioned free. -/
inductive Revision where
  | add (n : Node Loc)
  | put (l : Loc) (n : Node Loc)
  | replaceChild (holder old new : Loc)
  | rename (roots : List Loc) (source target : String)

namespace Revision

def run (s : Store) : Revision → Store
  | .add n => (s.add n).2
  | .put l n => s.put l n
  | .replaceChild holder old new => (s.replaceChild holder old new).2
  | .rename roots source target => (s.rename roots source target).2

/-- The locations where a revision is applied, and those that it attaches there. -/
def locs : Revision → List Loc
  | .add n => n.children
  | .put l n => l :: n.children
  | .replaceChild holder _ new => [holder, new]
  | .rename roots _ _ => roots

theorem keeps (h : s.Region P) {r : Revision} (hr : ∀ l ∈ r.locs, P l) :
    (r.run s).Region P ∧ KeepsOutside P s (r.run s) := by
  cases r with
  | add n => exact h.add hr
  | put l n => exact h.put (hr l List.mem_cons_self) fun c hc => hr c (List.mem_cons_of_mem l hc)
  | replaceChild holder old new =>
    exact h.replaceChild (hr holder List.mem_cons_self)
      (hr new (List.mem_cons_of_mem holder List.mem_cons_self))
  | rename roots source target => exact h.rename hr source target

theorem foldl_keeps (h : s.Region P) {rs : List Revision} (hrs : ∀ r ∈ rs, ∀ l ∈ r.locs, P l) :
    KeepsOutside P s (rs.foldl run s) := by
  induction rs generalizing s with
  | nil => exact .refl P s
  | cons r rs ih =>
    obtain ⟨hregion, hkeeps⟩ := keeps h (hrs r List.mem_cons_self)
    exact hkeeps.trans (ih hregion fun r' hr' => hrs r' (List.mem_cons_of_mem r hr'))

end Revision

/-- The location stands at one of the tops or below it, or it is a place that is still free. -/
def Below (s : Store) (tops : List Loc) (l : Loc) : Prop :=
  (∃ top ∈ tops, s.Reaches top l) ∨ s.size ≤ l.index

theorem region_below (s : Store) (tops : List Loc) : s.Region (s.Below tops) where
  closed l hl c hc := by
    rcases hl with ⟨top, htop, hl⟩ | hl
    · exact .inl ⟨top, htop, hl.trans (reaches_of_mem hc)⟩
    · rw [get_of_size_le hl] at hc
      cases hc
  free l hl := .inr hl

/-! ### Copies -/

theorem IsTree.shows_clone (h : s.IsTree l) : ∃ copy : Located, copy.loc = (Edit.clone l s).1 ∧
    (Edit.clone l s).2.Shows copy ∧ copy.erase = (s.treeAt l).erase ∧
      ∀ c ∈ copy.cells, s.size ≤ c.loc.index := by
  obtain ⟨copy, s', hrun, -, hown, herase⟩ :=
    Gives.clone s.owns_allCells h.owns_treeAt.le_allCells
  rw [loc_treeAt] at hrun
  rw [show Edit.clone l s = (copy.loc, s') from hrun]
  refine ⟨copy, rfl, hown.shows (Multiset.le_add_right _ _), herase, fun c hc => ?_⟩
  -- the copy is owned beside all older nodes
  by_contra hlt
  have hold : c.loc ∈ s.allCells.map Cell.loc :=
    Multiset.mem_map.2 ⟨⟨c.loc, s.get c.loc⟩, mem_allCells.2 ⟨Nat.lt_of_not_le hlt, rfl⟩, rfl⟩
  have hn := hown.nodup
  rw [Multiset.map_add, Multiset.nodup_add] at hn
  exact Multiset.disjoint_left.1 hn.2.2 (Multiset.mem_map_of_mem Cell.loc hc) hold

theorem IsTree.lt_size_of_reaches {x : Loc} (h : s.IsTree l) (he : s.Extends s')
    (hx : s'.Reaches l x) : x.index < s.size := by
  have hshows := h.shows_treeAt
  rw [← loc_treeAt (s := s) l] at hx
  obtain ⟨u, hu, rfl⟩ := (hshows.extend he).reaches_iff.1 hx
  exact hshows.bound _ hu.root_mem

theorem IsTree.unfold_extends (h : s.IsTree l) (he : s.Extends s') : s'.unfold l = s.unfold l := by
  have hshows := h.shows_treeAt
  rw [← loc_treeAt (s := s) l, (hshows.extend he).unfold, hshows.unfold]

/-- A copy unfolds to the same tree. All its nodes are new, and the older ones are where they were.
Later revisions of the copy that attach nothing from elsewhere change the unfolding of no older
tree, and such revisions of older trees change no unfolding in the copy. -/
theorem clone_detached (h : s.IsTree l) :
    let copy := (Edit.clone l s).1
    let after := (Edit.clone l s).2
    (∃ t, s.unfold l = some t ∧ after.unfold copy = some t) ∧
      (∀ x, after.Reaches copy x → s.size ≤ x.index) ∧ s.Extends after ∧
      (∀ rs : List Revision, (∀ r ∈ rs, ∀ x ∈ r.locs, after.Below [copy] x) →
        s.Extends (rs.foldl Revision.run after) ∧
          ∀ x, s.IsTree x → (rs.foldl Revision.run after).unfold x = s.unfold x) ∧
      ∀ tops : List Loc, (∀ top ∈ tops, s.IsTree top) →
        ∀ rs : List Revision, (∀ r ∈ rs, ∀ x ∈ r.locs, after.Below tops x) →
          ∀ x, after.Reaches copy x →
            (rs.foldl Revision.run after).unfold x = after.unfold x := by
  intro copy after
  obtain ⟨t, (hloc : t.loc = copy), (hshows : after.Shows t), herase, hnew⟩ := h.shows_clone
  have hext : s.Extends after := extends_cloneTo s.size l s
  have hreach (x : Loc) (hx : after.Reaches copy x) : s.size ≤ x.index := by
    rw [← hloc] at hx
    obtain ⟨u, hu, rfl⟩ := hshows.reaches_iff.1 hx
    exact hnew _ hu.root_mem
  refine ⟨⟨(s.treeAt l).erase, ?_, ?_⟩, hreach, hext, fun rs hrs => ?_,
    fun tops htops rs hrs x hx => ?_⟩
  · rw [← h.shows_treeAt.unfold, loc_treeAt]
  · rw [← hloc, hshows.unfold, herase]
  · have hkeeps := Revision.foldl_keeps (after.region_below [copy]) hrs
    have hext' : s.Extends (rs.foldl Revision.run after) := by
      refine ⟨hext.size.trans hkeeps.size, fun x hx => (hkeeps.get x ?_).trans (hext.get x hx)⟩
      rintro (⟨top, htop, hreached⟩ | hfree)
      · rw [List.mem_singleton.1 htop] at hreached
        exact Nat.not_lt.2 (hreach x hreached) hx
      · exact Nat.not_lt.2 (hext.size.trans hfree) hx
    exact ⟨hext', fun x hx => hx.unfold_extends hext'⟩
  · have hkeeps := Revision.foldl_keeps (after.region_below tops) hrs
    rw [← hloc] at hx
    obtain ⟨u, hu, rfl⟩ := hshows.reaches_iff.1 hx
    have hbefore : after.Shows u := hshows.occurs hu
    rw [hbefore.unfold, (hkeeps.shows hbefore fun c hc => ?_).unfold]
    rintro (⟨top, htop, hreached⟩ | hfree)
    · have hold := (htops top htop).lt_size_of_reaches hext hreached
      exact Nat.not_lt.2 (hnew c (Multiset.mem_of_le hu.cells_le hc)) hold
    · exact Nat.not_lt.2 hfree (hbefore.bound c hc)

/-- Attaching joins a copy and its origin again: an older node hung under the copy is renamed with
it, and a copy hung under an older node with that. -/
theorem attachedCopy_shared :
    let s : Store := ⟨#[.name "a"]⟩
    let after := (Edit.clone ⟨0⟩ s).2
    s.IsTree ⟨0⟩ ∧ (Edit.clone ⟨0⟩ s).1 = ⟨1⟩ ∧ s.unfold ⟨0⟩ = some (.node (.name "a")) ∧
      ([.put ⟨1⟩ (.paren ⟨0⟩), .rename [⟨1⟩] "a" "b"].foldl Revision.run after).unfold ⟨0⟩ =
        some (.node (.name "b")) ∧
      after.unfold ⟨1⟩ = some (.node (.name "a")) ∧
      ([.put ⟨0⟩ (.paren ⟨1⟩), .rename [⟨0⟩] "a" "b"].foldl Revision.run after).unfold ⟨1⟩ =
        some (.node (.name "b")) := by
  exact ⟨isTree_of_filled (by decide) (by decide) (by decide), rfl, rfl, rfl, rfl, rfl⟩

/-- In the copy of `item.name` the name is changed and then given up for a new node. -/
def reworkedCopy : List Revision :=
  [.rename [⟨24⟩] "item" "entry", .add (.name "row"), .replaceChild ⟨24⟩ ⟨23⟩ ⟨25⟩,
    .put ⟨25⟩ (.literal "0")]

theorem reworkedCopy_detached :
    let after := (Edit.clone ⟨5⟩ Loop.nestedLoops).2
    Loop.nestedLoops.IsTree ⟨5⟩ ∧ Loop.nestedLoops.IsTree ⟨22⟩ ∧
      after.unfold ⟨24⟩ = Loop.nestedLoops.unfold ⟨5⟩ ∧
      (∀ r ∈ reworkedCopy, ∀ x ∈ r.locs, after.Below [⟨24⟩] x) ∧
      (reworkedCopy.foldl Revision.run after).unfold ⟨22⟩ = Loop.nestedLoops.unfold ⟨22⟩ ∧
      (Revision.run after (.rename [⟨22⟩] "items" "rows")).unfold ⟨24⟩ = after.unfold ⟨24⟩ := by
  intro after
  have hcopy : (Edit.clone ⟨5⟩ Loop.nestedLoops).1 = ⟨24⟩ := by cbv
  have hfree : after.Below [⟨24⟩] ⟨25⟩ := .inr (by cbv)
  have hself : after.Below [⟨24⟩] ⟨24⟩ := .inl ⟨_, List.mem_singleton_self _, .refl _⟩
  have hunder : ∀ r ∈ reworkedCopy, ∀ x ∈ r.locs, after.Below [⟨24⟩] x := by
    simp [reworkedCopy, Revision.locs, Node.children, hfree, hself]
  have htree : Loop.nestedLoops.IsTree ⟨5⟩ := isTree_of_filled (by decide) (by decide) (by decide)
  obtain ⟨⟨t, ht, ht'⟩, -, -, hcopied, hold⟩ := clone_detached htree
  rw [hcopy] at ht' hcopied hold
  refine ⟨htree, Loop.nestedLoops_isTree, ht'.trans ht.symm, hunder, ?_, ?_⟩
  · exact (hcopied reworkedCopy hunder).2 ⟨22⟩ Loop.nestedLoops_isTree
  · have hroot : after.Below [⟨22⟩] ⟨22⟩ := .inl ⟨_, List.mem_singleton_self _, .refl _⟩
    exact hold [⟨22⟩] (by simpa using Loop.nestedLoops_isTree)
      [.rename [⟨22⟩] "items" "rows"] (by simpa [Revision.locs] using hroot) ⟨24⟩ (.refl _)

end Store

end JsxLoops.Tree
