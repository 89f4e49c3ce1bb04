import JsxLoops.Proofs.Occurrences
import JsxLoops.Proofs.Operations

/-!
Children that are pointed elsewhere. A node is changed in one sweep over it, and it is visited by
going through its children, or through its contents, where the code of its binders stands between
them. All of these know the same children: the sweep finds one exactly if a visit comes to it, and
a later visit comes to the new one in each of its places.
-/

namespace JsxLoops.Tree.Store

/-- A child that is pointed elsewhere is one that is visited. The answer tells whether it was there.
Afterwards the visits come to the new one wherever they came to the old one, the node is the same
otherwise, and so are all others. -/
theorem replaceChild_visits (s : Store) (holder old new : Loc) :
    let found := (s.replaceChild holder old new).1
    let s' := (s.replaceChild holder old new).2
    let point : Loc → Loc := fun l => if l = old then new else l
    (found = true ↔ old ∈ (s.get holder).children) ∧
      (found = true ↔ .child old ∈ (s.get holder).contents) ∧
      (s'.get holder).children = (s.get holder).children.map point ∧
      (s'.get holder).contents = (s.get holder).contents.map (Content.map point) ∧
      (s'.get holder).shape = (s.get holder).shape ∧
      s'.size = s.size ∧ ∀ l, l ≠ holder → s'.get l = s.get l := by
  intro found s' point
  have hfound : found = true ↔ old ∈ (s.get holder).children := by
    rw [show found = _ from congrArg Prod.fst (s.replaceChild_eq holder old new),
      List.contains_iff_mem]
  have hnode : s'.get holder = (s.get holder).map point :=
    (s.get_replaceChild holder old new holder).trans (if_pos rfl)
  refine ⟨hfound, hfound.trans Node.child_mem_contents.symm, ?_, ?_, ?_, size_put s holder _, ?_⟩
  · rw [hnode, Node.children_map]
  · rw [hnode, Node.contents_map]
  · rw [hnode, Node.shape_map]
  · intro l hl
    exact (s.get_replaceChild holder old new l).trans (if_neg hl)

/-- `{ [a]: a, ...a }` with all its children in one place, and another name. -/
def sharedName : Store where
  nodes := #[.name "a", .name "b", .object [.pair (.computed ⟨0⟩) ⟨0⟩ false, .spread ⟨0⟩]]

theorem sharedName_visits :
    let r := sharedName.replaceChild ⟨2⟩ ⟨0⟩ ⟨1⟩
    r.1 = true ∧ (r.2.get ⟨2⟩).children = [⟨1⟩, ⟨1⟩, ⟨1⟩] ∧
      (⟨0⟩ : Loc) ≠ ⟨2⟩ ∧ r.2.get ⟨0⟩ = .name "a" := by
  obtain ⟨hfound, -, hchildren, -, -, -, helse⟩ := replaceChild_visits sharedName ⟨2⟩ ⟨0⟩ ⟨1⟩
  exact ⟨hfound.2 (by decide), hchildren.trans (by decide), by decide,
    (helse ⟨0⟩ (by decide)).trans (by decide)⟩

end JsxLoops.Tree.Store
