import JsxLoops.Proofs.Editing
import JsxLoops.Tree.Build

/-!
What is built for a phrase. A phrase builds a tree if the node that is made for it, wherever that
is put, shows a tree which differs from the given one in locations only. Phrases and trees agree
node by node: a phrase builds a tree if its parts build the children.
-/

namespace JsxLoops.Tree

open Located JsxLoops.Surface

instance : Inhabited Phrase := ⟨⟨⟨0, 0⟩, .other, []⟩⟩

/-- The edit gives a tree that differs from `t` in locations only, and changes no node. -/
def Raises (e : Edit Loc) (t : Located) : Prop :=
  ∀ s, ∃ u s', Runs e s u.loc s' ∧ s.Extends s' ∧ s'.Shows u ∧ u.erase = t.erase

theorem raises_mapM {f : Phrase → Edit Loc} {ps : List Phrase} {ts : List Located}
    (h : List.Forall₂ (fun p t => Raises (f p) t) ps ts) (s : Store) :
    ∃ (us : List Located) (s' : Store), Runs (ps.mapM f) s (us.map loc) s' ∧ s.Extends s' ∧
    (∀ u ∈ us, s'.Shows u) ∧
      us.map erase = ts.map erase := by
  induction h generalizing s with
  | nil => exact ⟨[], s, .pure [] s, .refl s, by simp, rfl⟩
  | cons hp _ ih =>
    obtain ⟨u, s₁, hrun, hle, hshows, herase⟩ := hp s
    obtain ⟨us, s₂, hruns, hles, hall, heq⟩ := ih s₁
    refine ⟨u :: us, s₂, ?_, hle.trans hles, ?_, by rw [List.map_cons, List.map_cons, herase, heq]⟩
    · rw [List.mapM_cons]
      exact hrun.bind (hruns.bind (.pure _ s₂))
    · exact List.forall_mem_cons.2 ⟨hshows.extend hles, hall⟩

theorem raises_node {f : Phrase → Edit Loc} {n : Node Phrase} {l : Loc} {m : Node Located}
    (hshape : n.shape = m.shape)
    (h : List.Forall₂ (fun p t => Raises (f p) t) n.children m.children) :
    Raises (n.mapM f >>= Edit.add) (.node l m) := by
  intro s
  obtain ⟨us, s₁, hrun, hle, hall, heq⟩ := raises_mapM h s
  have hlength : us.length = n.children.length := by
    rw [h.length_eq]
    simpa using congrArg List.length heq
  obtain ⟨hchildren, hrefill⟩ := Node.children_refill n us hlength
  have hmap : (n.refill us).map loc = n.refill (us.map loc) := by
    refine Node.ext_of_shape ?_ ?_
    · rw [Node.shape_map, hrefill, (Node.children_refill n (us.map loc) (by simpa using hlength)).2]
    · rw [Node.children_map, hchildren,
        (Node.children_refill n (us.map loc) (by simpa using hlength)).1]
  refine ⟨.node (s₁.add ((n.refill us).map loc)).1 (n.refill us),
    (s₁.add ((n.refill us).map loc)).2,
    ?_, hle.trans (s₁.extends_add _), Store.Shows.add _ (by rwa [hchildren]), ?_⟩
  · rw [Node.mapM_eq_refill]
    refine (hrun.map n.refill).bind ?_
    rw [← hmap]
    rfl
  · rw [erase_node, erase_node]
    refine congrArg Subtree.node (Node.ext_of_shape ?_ ?_)
    · rw [Node.shape_map, Node.shape_map, hrefill, hshape]
    · rw [Node.children_map, Node.children_map, hchildren, heq]

def Builds (source : List Char) (p : Phrase) (t : Located) : Prop :=
  ∀ depth, t.height ≤ depth → Raises (buildTo source depth p) t

variable {source : List Char} {p : Phrase} {l : Loc} {m : Node Located}

theorem Builds.forall₂ {f : Phrase → Edit Loc} {ps : List Phrase} {ts : List Located} {d : Nat}
    (hf : ∀ p t, Builds source p t → t.height ≤ d → Raises (f p) t)
    (h : List.Forall₂ (Builds source) ps ts) (hd : ∀ t ∈ ts, t.height ≤ d) :
    List.Forall₂ (fun p t => Raises (f p) t) ps ts := by
  rw [List.forall₂_iff_get] at h ⊢
  exact ⟨h.1, fun i hi hi' => hf _ _ (h.2 i hi hi') (hd _ (List.get_mem _ _))⟩

theorem Builds.of_node (n : Node Phrase)
    (hmade : ∀ inside, buildNode source inside p = n.mapM inside >>= Edit.add)
    (hshape : n.shape = m.shape) (hkids : List.Forall₂ (Builds source) n.children m.children) :
    Builds source p (.node l m) := by
  intro depth hdepth
  obtain ⟨d, rfl⟩ : ∃ d, depth = d + 1 :=
    ⟨depth - 1, by have := height_pos (.node l m); omega⟩
  have hheight := height_le_succ_iff.1 hdepth
  rw [buildTo, hmade]
  refine raises_node hshape ?_
  exact Builds.forall₂ (fun _ _ h => h d) hkids hheight

/-- A call of an optional member is built in two steps, for the member has no phrase that is built
by itself. -/
theorem Builds.chain {span inner callee : Span} {property : String} {q : Phrase}
    {qs : List Phrase} {k : Loc} {o : Located} {args : List Located}
    (hplain : isPlainReceiver q = true)
    (hopens : opensArguments source callee.stop span.stop = true)
    (hq : Builds source q o) (hqs : List.Forall₂ (Builds source) qs args) :
    Builds source ⟨span, .chain, [⟨inner, .call false, ⟨callee, .member property true, [q]⟩ :: qs⟩]⟩
      (.node l (.call (.node k (.member o property true)) args)) := by
  intro depth hdepth s
  obtain ⟨d, rfl⟩ : ∃ d, depth = d + 1 :=
    ⟨depth - 1, by
      have := height_pos (.node l (.call (.node k (.member o property true)) args))
      omega⟩
  have hheight := height_le_succ_iff.1 hdepth
  have hcallee : o.height < d :=
    (height_lt_of_mem (l := k) (n := .member o property true) (c := o)
      (by simp [Node.children])).trans_le
      (hheight _ (by simp [Node.children]))
  obtain ⟨u, s₁, hrun, hle, hshows, herase⟩ := hq d hcallee.le s
  have hmember := Store.Shows.add (s := s₁) (.member u property true) (by simpa [Node.children])
  obtain ⟨us, s₃, hruns, hles, hall, heq⟩ := raises_mapM
    (Builds.forall₂ (fun p t h => h d) hqs fun t ht => hheight t (by simp [Node.children, ht]))
    (s₁.add (.member u.loc property true)).2
  have hcall := Store.Shows.add (s := s₃)
    (.call (.node (s₁.add (.member u.loc property true)).1 (.member u property true)) us)
    (List.forall_mem_cons.2 ⟨hmember.extend hles, hall⟩)
  refine ⟨_, _, ?_, hle.trans ((s₁.extends_add _).trans (hles.trans (s₃.extends_add _))), hcall, ?_⟩
  · rw [buildTo, buildNode]
    simp only [hplain, hopens, Bool.and_self, if_true]
    exact hrun.bind (.bind (show Runs (Edit.add _) s₁ _ _ from rfl) (hruns.bind rfl))
  · simp [erase_node, Node.map, herase, heq]

end JsxLoops.Tree
