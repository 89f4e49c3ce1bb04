import JsxLoops.Proofs.Recognition
import JsxLoops.Proofs.Building

/-!
Where markup is found. `hasMarkup` finds the elements and fragments at a location and below it, and
the verbatim code there that has markup. It does not look at the code of binders, so a tree whose
only markup is the default value of a parameter or of a declared variable passes for one without.
-/

namespace JsxLoops.Tree

open Located

variable {α β : Type} {s : Store} {l : Loc}

def Node.bearsMarkup : Node α → Bool
  | .element _ | .fragment _ => true
  | .verbatim code => code.hasMarkup
  | _ => false

@[simp] theorem Node.bearsMarkup_map (f : α → β) (n : Node α) :
    (n.map f).bearsMarkup = n.bearsMarkup := by
  cases n <;> rfl

theorem Located.hasMarkup_node (l : Loc) (n : Node Located) :
    (node l n).hasMarkup = (n.bearsMarkup || n.children.any hasMarkup) := by
  have hany : (n.map hasMarkup).children.any id = n.children.any hasMarkup := by
    rw [Node.children_map, List.any_map]
    rfl
  rw [hasMarkup, fold_node]
  cases n with
  | element | fragment => rfl
  | verbatim code => simp [Node.map, Node.bearsMarkup, Node.children]
  | _ => exact hany

theorem Located.hasMarkup_iff {t : Located} :
    t.hasMarkup = true ↔ ∃ u, Occurs u t ∧ u.here.bearsMarkup = true := by
  induction t using induct with
  | node l n ih =>
    rw [hasMarkup_node, Bool.or_eq_true, List.any_eq_true]
    constructor
    · rintro (hn | ⟨c, hc, hmarkup⟩)
      · exact ⟨_, .self, hn⟩
      · obtain ⟨u, hu, hbears⟩ := (ih c hc).1 hmarkup
        exact ⟨u, .child hc hu, hbears⟩
    · rintro ⟨u, hu, hbears⟩
      cases hu with
      | self => exact .inl hbears
      | child hc hu => exact .inr ⟨_, hc, (ih _ hc).2 ⟨u, hu, hbears⟩⟩

namespace Store

/-- At the location stands an element, a fragment, or verbatim code with markup. -/
def IsMarkupAt (s : Store) (l : Loc) : Prop :=
  (∃ e, s.get l = .element e) ∨ (∃ children, s.get l = .fragment children) ∨
    ∃ code, s.get l = .verbatim code ∧ code.hasMarkup = true

/-- A parameter or a declared variable at the location is verbatim code with markup. -/
def BindsMarkupAt (s : Store) (l : Loc) : Prop :=
  ∃ code, .verbatim code ∈ (s.get l).binders ∧ code.hasMarkup = true

/-- There is markup at the location or below it, as a node or in the code of a binder. -/
def CarriesMarkup (s : Store) (l : Loc) : Prop :=
  ∃ k, s.Reaches l k ∧ (s.IsMarkupAt k ∨ s.BindsMarkupAt k)

theorem bearsMarkup_iff : (s.get l).bearsMarkup = true ↔ s.IsMarkupAt l := by
  rw [IsMarkupAt]
  cases s.get l <;> simp [Node.bearsMarkup]

theorem hasMarkup_iff (h : s.IsTree l) :
    s.hasMarkup l = true ↔ ∃ k, s.Reaches l k ∧ s.IsMarkupAt k := by
  have hshows := h.shows_treeAt
  have hread : s.hasMarkup l = (s.treeAt l).hasMarkup := by rw [← hshows.hasMarkup, loc_treeAt]
  have hbears {u : Located} (hu : Occurs u (s.treeAt l)) :
      u.here.bearsMarkup = true ↔ s.IsMarkupAt u.loc := by
    rw [← bearsMarkup_iff, (hshows.occurs hu).get_loc, Node.bearsMarkup_map]
  have hreaches (k : Loc) : s.Reaches l k ↔ ∃ u, Occurs u (s.treeAt l) ∧ u.loc = k := by
    rw [← hshows.reaches_iff, loc_treeAt]
  rw [hread, Located.hasMarkup_iff]
  constructor
  · rintro ⟨u, hu, hmarkup⟩
    exact ⟨u.loc, (hreaches _).2 ⟨u, hu, rfl⟩, (hbears hu).1 hmarkup⟩
  · rintro ⟨k, hk, hmarkup⟩
    obtain ⟨u, hu, rfl⟩ := (hreaches k).1 hk
    exact ⟨u, hu, (hbears hu).2 hmarkup⟩

/-- What is found is the markup of the nodes at a location and below it. With the code of the
binders left out, that is all markup there exactly if it has markup in a node whenever it has some
in a binder. -/
theorem hasMarkup_finds (h : s.IsTree l) :
    (s.hasMarkup l = true ↔ ∃ k, s.Reaches l k ∧ s.IsMarkupAt k) ∧
      ((s.hasMarkup l = true ↔ s.CarriesMarkup l) ↔
        ((∃ k, s.Reaches l k ∧ s.BindsMarkupAt k) → ∃ k, s.Reaches l k ∧ s.IsMarkupAt k)) := by
  have hfound := hasMarkup_iff h
  have hcarries : s.CarriesMarkup l ↔
      (∃ k, s.Reaches l k ∧ s.IsMarkupAt k) ∨ ∃ k, s.Reaches l k ∧ s.BindsMarkupAt k := by
    rw [CarriesMarkup, ← exists_or]
    exact exists_congr fun k => and_or_left
  refine ⟨hfound, ?_⟩
  rw [hfound, hcarries]
  exact iff_comm.trans or_iff_left_iff_imp

/-- The tree of `({ a = <b /> }) => <></>`. -/
def defaultedRenderer : Store where
  nodes := #[.fragment [], .lambda ⟨.arrow, false, false,
    [.verbatim ⟨[.text "\x7b a = <b /> \x7d"], ["a"], true, false⟩], .value ⟨0⟩⟩]

theorem defaultedRenderer_found :
    defaultedRenderer.IsTree ⟨1⟩ ∧
      (∃ k, defaultedRenderer.Reaches ⟨1⟩ k ∧ defaultedRenderer.IsMarkupAt k) ∧
      (∃ k, defaultedRenderer.Reaches ⟨1⟩ k ∧ defaultedRenderer.BindsMarkupAt k) ∧
      (defaultedRenderer.hasMarkup ⟨1⟩ = true ↔ defaultedRenderer.CarriesMarkup ⟨1⟩) := by
  have htree : defaultedRenderer.IsTree ⟨1⟩ := isTree_of_filled (by decide) (by decide) (by decide)
  obtain ⟨hfound, hall⟩ := hasMarkup_finds htree
  have hnodes := hfound.1 (by cbv)
  exact ⟨htree, hnodes, ⟨⟨1⟩, .refl _, _, List.mem_singleton_self _, rfl⟩, hall.2 fun _ => hnodes⟩

/-- The only markup of this arrow is the default value in its parameter, and it is not found. -/
theorem defaultValue_missed : ∃ template,
    Template.parse "(\x7b a = <b /> \x7d) => a".toList = some template ∧
      template.store.IsTree template.root ∧ template.store.CarriesMarkup template.root ∧
      template.store.hasMarkup template.root = false := by
  have hparse : Template.parse "(\x7b a = <b /> \x7d) => a".toList =
      some ⟨⟨#[.name "a", .lambda ⟨.arrow, false, false,
        [.verbatim ⟨[.text "\x7b a = <b /> \x7d"], ["a"], true, false⟩],
        .value ⟨0⟩⟩]⟩, ⟨1⟩⟩ := by decide +kernel
  refine ⟨_, hparse, isTree_of_filled (by decide) (by decide) (by decide), ?_, by cbv⟩
  exact ⟨⟨1⟩, .refl _, .inr ⟨_, List.mem_singleton_self _, rfl⟩⟩

end Store

end JsxLoops.Tree
