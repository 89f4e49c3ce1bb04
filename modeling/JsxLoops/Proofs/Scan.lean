import JsxLoops.Proofs.Leaves

/-!
The scan for loops. It goes down the same ways as lowering, and changes nothing: `scan` gives the
loops that a store has below a root, those in the leading statements of a loop apart from those in
its template. `numberedAll` puts them into the order in which they are met.

What is found at a location depends on the shape of the tree there and not on its names. So a tree
in which indices were renamed is scanned like the one that stood there before.
-/

namespace JsxLoops.Loop

open JsxLoops.Tree

/-! ### The scan -/

/-- A loop, with the loops in its leading statements and the loops in its template. -/
inductive Found where
  | loop (candidate : Candidate) (leading nested : List Found)

section

variable (s : Store) (inside : Loc → List Found)

def scanLoop (c : Candidate) : Found :=
  .loop c ((s.markupRoots c.leading).flatMap inside) (inside c.subtree)

def scanAttribute : Attribute Loc → List Found
  | .named _ (.expression value) => if s.hasMarkup value then inside value else []
  | _ => []

def scanOperand (l : Loc) : List Found :=
  match candidate? s l with
  | .ok c => [scanLoop s inside c]
  | .error reason => if reason = .notMapCall && s.hasMarkup l then inside l else []

def scanChild (l : Loc) : Node Loc → List Found
  | .element _ | .fragment _ => inside l
  | .container value => scanOperand s inside value
  | _ => []

/-- Scans the attributes and the children of markup, or the operands that an operator can show. -/
def scanNode : Node Loc → List Found
  | .element e => e.attributes.flatMap (scanAttribute s inside) ++
      e.children.flatMap fun l => scanChild s inside l (s.get l)
  | .fragment children => children.flatMap fun l => scanChild s inside l (s.get l)
  | .conditional _ yes no => scanOperand s inside yes ++ scanOperand s inside no
  | .logical _ _ right => scanOperand s inside right
  | .paren inner => scanOperand s inside inner
  | _ => []

end

/-- Scans what hangs at a location, at most `depth` nodes deep. -/
def scanTo (s : Store) : Nat → Loc → List Found
  | 0, _ => []
  | depth + 1, l => scanNode s (scanTo s depth) (s.get l)

/-- All loops below a root. -/
def scan (s : Store) (root : Loc) : List Found :=
  match candidate? s root with
  | .ok c => [scanLoop s (scanTo s s.size) c]
  | .error _ => scanTo s s.size root

/-! ### The order of loops -/

/-- A loop with its place in the order, and that of the loop whose template it stands in. -/
structure Sighting where
  candidate : Candidate
  number : Nat
  parent : Option Nat

mutual

/-- A loop comes before those in its leading statements, and these come before those in its
template. -/
def Found.numbered (parent : Option Nat) (next : Nat) : Found → List Sighting
  | .loop c leading nested =>
    let first := numberedAll none (next + 1) leading
    ⟨c, next, parent⟩ :: (first ++ numberedAll (some next) (next + 1 + first.length) nested)

def numberedAll (parent : Option Nat) (next : Nat) : List Found → List Sighting
  | [] => []
  | f :: fs =>
    let first := f.numbered parent next
    first ++ numberedAll parent (next + first.length) fs

end

theorem numberedAll_append (parent : Option Nat) (next : Nat) (fs gs : List Found) :
    numberedAll parent next (fs ++ gs) = numberedAll parent next fs ++
      numberedAll parent (next + (numberedAll parent next fs).length) gs := by
  induction fs generalizing next with
  | nil => simp [numberedAll]
  | cons f fs ih => simp [numberedAll, ih, Nat.add_assoc]

mutual

theorem Found.map_number_numbered (parent : Option Nat) (next : Nat) (f : Found) :
    (f.numbered parent next).map Sighting.number =
      List.range' next (f.numbered parent next).length := by
  obtain ⟨c, leading, nested⟩ := f
  simp only [Found.numbered, List.map_cons, List.map_append, List.length_cons, List.length_append]
  rw [map_number_numberedAll none (next + 1) leading, map_number_numberedAll _ _ nested,
    List.range'_succ, List.range'_append_1]

theorem map_number_numberedAll (parent : Option Nat) (next : Nat) (fs : List Found) :
    (numberedAll parent next fs).map Sighting.number =
      List.range' next (numberedAll parent next fs).length := by
  cases fs with
  | nil => rfl
  | cons f fs =>
    simp only [numberedAll, List.map_append, List.length_append]
    rw [f.map_number_numbered parent next, map_number_numberedAll parent _ fs, List.range'_append_1]

end

theorem number_lt_of_mem {parent : Option Nat} {next : Nat} {fs : List Found} {x : Sighting}
    (hx : x ∈ numberedAll parent next fs) :
    next ≤ x.number ∧ x.number < next + (numberedAll parent next fs).length := by
  have hmem := List.mem_map_of_mem (f := Sighting.number) hx
  rw [map_number_numberedAll, List.mem_range'_1] at hmem
  exact hmem

mutual

theorem Found.parent_lt_numbered {parent : Option Nat} {next : Nat} (hp : ∀ k ∈ parent, k < next)
    (f : Found) : ∀ x ∈ f.numbered parent next, ∀ k ∈ x.parent, k < x.number := by
  obtain ⟨c, leading, nested⟩ := f
  rw [Found.numbered, List.forall_mem_cons, List.forall_mem_append]
  refine ⟨hp, parent_lt_numberedAll (by simp) leading, parent_lt_numberedAll ?_ nested⟩
  intro k hk
  obtain rfl := Option.mem_some.1 hk
  omega

theorem parent_lt_numberedAll {parent : Option Nat} {next : Nat} (hp : ∀ k ∈ parent, k < next)
    (fs : List Found) : ∀ x ∈ numberedAll parent next fs, ∀ k ∈ x.parent, k < x.number := by
  cases fs with
  | nil => simp [numberedAll]
  | cons f fs =>
    rw [numberedAll, List.forall_mem_append]
    refine ⟨f.parent_lt_numbered hp, parent_lt_numberedAll (fun k hk => ?_) fs⟩
    have hlt := hp k hk
    omega

end

end JsxLoops.Loop

namespace JsxLoops.Tree

open Located

/-! ### Trees under renaming -/

variable {a b : String}

theorem fold_renameFree {β : Type} [Inhabited β] {f : Loc → Node Located → Node β → β}
    (hf : ∀ l n m, f l ((n.map (renameFree a b)).renameHere a b) (m.renameHere a b) = f l n m)
    (t : Located) : fold f (t.renameFree a b) = fold f t := by
  induction t using induct with
  | node l n ih =>
    have hmap : n.map (fun c => fold f (c.renameFree a b)) = n.map (fold f) := Node.map_congr ih
    rw [renameFree_node]
    split
    · rfl
    · rw [fold_node, fold_node, ← Node.renameHere_map, Node.map_map, hmap, hf]

theorem Verbatim.hasMarkup_rename (v : Verbatim) : (v.rename a b).hasMarkup = v.hasMarkup := by
  rw [Verbatim.rename]
  split <;> rfl

theorem Verbatim.hasReturn_rename (v : Verbatim) : (v.rename a b).hasReturn = v.hasReturn := by
  rw [Verbatim.rename]
  split <;> rfl

theorem Binder.name?_rename (x : Binder) : (x.rename a b).name? = x.name? := by
  cases x <;> rfl

theorem Node.isMarkup_renameHere {α : Type} (n : Node α) :
    (n.renameHere a b).isMarkup = n.isMarkup := by
  cases n <;> rfl

namespace Located

variable (a b) (t : Located)

@[simp] theorem hasMarkup_renameFree : (t.renameFree a b).hasMarkup = t.hasMarkup := by
  refine fold_renameFree (fun l n m => ?_) t
  cases m with
  | verbatim code => exact code.hasMarkup_rename
  | declaration keyword declarators =>
    exact congrArg (List.any · id) (Node.children_renameHere a b _)
  | _ => rfl

@[simp] theorem returns_renameFree : (t.renameFree a b).returns = t.returns := by
  refine fold_renameFree (fun l n m => ?_) t
  cases m with
  | verbatim code => exact code.hasReturn_rename
  | declaration keyword declarators =>
    exact congrArg (List.any · id) (Node.children_renameHere a b _)
  | _ => rfl

@[simp] theorem markup_renameFree : (t.renameFree a b).markup = t.markup := by
  refine fold_renameFree (fun l n m => ?_) t
  rw [Node.isMarkup_renameHere, Node.isMarkup_map, Node.children_renameHere]

variable {t} in
theorem Bare.renameFree (h : t.Bare) : (t.renameFree a b).Bare := by
  obtain ⟨l, n⟩ := t
  intro inner
  rw [renameFree_node]
  split
  · exact h inner
  · cases n <;> simp_all [Node.map, Node.renameHere, Bare]

@[simp] theorem strip_renameFree : (t.renameFree a b).strip = t.strip.renameFree a b := by
  obtain ⟨ps, hps⟩ := exists_inParens t
  nth_rewrite 1 [hps]
  rw [renameFree_inParens, strip_inParens, ((bare_strip t).renameFree a b).strip]

end Located

end JsxLoops.Tree

namespace JsxLoops.Loop

open JsxLoops.Tree Located

variable {a b : String}

theorem mapCallTree?_renameFree (t : Located) :
    mapCallTree? (t.renameFree a b) =
      (mapCallTree? t).map fun c => (c.1.renameFree a b, c.2.map (renameFree a b)) := by
  obtain ⟨l, n⟩ := t
  cases n with
  | call callee arguments =>
    rw [renameFree_of_plain a b l rfl rfl, mapCallTree?, mapCallTree?]
    simp only [Node.map, here_node, strip_renameFree]
    generalize callee.strip = u
    obtain ⟨k, n⟩ := u
    cases n with
    | member receiver property optional =>
      rw [renameFree_of_plain a b k rfl rfl]
      simp only [Node.map, here_node]
      split <;> simp_all
    | _ =>
      rw [renameFree_node]
      split_ifs <;> rfl
  | _ =>
    rw [renameFree_node]
    split_ifs <;> rfl

theorem plainTree?_renameFree (ts : List Located) :
    plainTree? (ts.map (renameFree a b)) = (plainTree? ts).map (renameFree a b) := by
  obtain _ | ⟨⟨l, n⟩, _ | ⟨u, ts⟩⟩ := ts
  · rfl
  · rw [List.map_cons, List.map_nil, plainTree?, plainTree?]
    cases n with
    | spread inner =>
      rw [renameFree_of_plain a b l rfl rfl]
      rfl
    | _ =>
      nth_rewrite 1 [renameFree_node]
      split_ifs <;> rfl
  · rfl

theorem splitTree?_renameFree (body : Body Located) :
    splitTree? (body.map (renameFree a b)) =
      (splitTree? body).map fun c => (c.1.map (renameFree a b), c.2.renameFree a b) := by
  obtain value | statements := body
  · rfl
  · have hreturns : (statements.map (renameFree a b)).dropLast.any returns =
        statements.dropLast.any returns := by
      rw [← List.map_dropLast, List.any_map]
      simp [Function.comp_def]
    simp only [Body.map, splitTree?, List.getLast?_map, hreturns]
    cases statements.getLast? with
    | none => rfl
    | some last =>
      obtain ⟨l, n⟩ := last
      cases n with
      | returning value =>
        rw [Option.map_some, renameFree_of_plain a b l rfl rfl]
        cases value with
        | none => rfl
        | some value =>
          simp only [Node.map, here_node, Option.map_some]
          split <;> simp [List.map_dropLast]
      | _ =>
        rw [Option.map_some, renameFree_node]
        split_ifs <;> rfl

theorem paramNames?_rename (params : List Binder) :
    paramNames? (params.map (Binder.rename a b)) = paramNames? params := by
  rw [paramNames?, paramNames?, List.length_map, List.mapM_map]
  simp only [Function.comp_def, Binder.name?_rename]

theorem candidateTree?_renameFree (t : Located) :
    candidateTree? (t.renameFree a b) = candidateTree? t := by
  rw [candidateTree?, candidateTree?]
  simp only [strip_renameFree, mapCallTree?_renameFree, loc_renameFree]
  cases mapCallTree? t.strip with
  | none => rfl
  | some call =>
    simp only [Option.map_some, plainTree?_renameFree]
    cases plainTree? call.2 with
    | none => rfl
    | some argument =>
      simp only [Option.map_some, strip_renameFree, loc_renameFree]
      generalize argument.strip = callback
      obtain ⟨l, n⟩ := callback
      rw [renameFree_node]
      split_ifs
      · rfl
      · cases n with
        | lambda f =>
          simp only [Node.map, Node.renameHere, here_node, loc_node, paramNames?_rename,
            splitTree?_renameFree]
          cases splitTree? f.body with
          | none => rfl
          | some parts =>
            simp only [Option.map_some, strip_renameFree, isMarkup_renameFree, loc_renameFree,
              List.map_map, Function.comp_def]
        | _ => rfl

/-! ### Stores that echo a tree -/

def Node.blank {α : Type} : Node α → Node α
  | .name _ | .verbatim _ | .lambda _ | .declaration _ _ => .literal ""
  | n => n

theorem Node.blank_renameHere {α : Type} (n : Node α) : blank (n.renameHere a b) = blank n := by
  cases n <;> rfl

/-- A store has at the root of a tree what the tree has there, but for names. -/
structure Echo (s : Store) (t : Located) : Prop where
  node : Node.blank (s.get t.loc) = Node.blank (t.here.map loc)
  candidate : candidate? s t.loc = candidateTree? t
  hasMarkup : s.hasMarkup t.loc = t.hasMarkup
  markup : s.markupAt t.loc = t.markup

/-- A store has what a tree has, but for names. -/
def Echoes (s : Store) (t : Located) : Prop := ∀ u, Occurs u t → Echo s u

namespace Echoes

variable {s : Store} {t u : Located} {inside : Loc → List Found}

theorem of_shows (h : s.Shows t) : Echoes s t := by
  intro u hu
  have hs := h.occurs hu
  exact ⟨by rw [hs.get_loc], candidate?_eq hs, hs.hasMarkup, hs.markupAt⟩

theorem occurs (h : Echoes s t) (hu : Occurs u t) : Echoes s u := fun v hv => h v (hv.trans hu)

theorem renameFree (h : Echoes s t) (a b : String) : Echoes s (t.renameFree a b) := by
  intro u hu
  obtain ⟨v, hv, rfl | rfl⟩ := occurs_renameFree hu
  · exact h u hv
  · obtain ⟨hnode, hcandidate, hmarkup, hroots⟩ := h v hv
    refine ⟨?_, ?_, ?_, ?_⟩
    · rw [loc_renameFree, hnode]
      obtain ⟨l, n⟩ := v
      rw [renameFree_node]
      split
      · rfl
      · rw [here_node, here_node, ← Node.renameHere_map, Node.blank_renameHere, Node.map_map]
        simp only [loc_renameFree]
    · rw [loc_renameFree, hcandidate, candidateTree?_renameFree]
    · rw [loc_renameFree, hmarkup, hasMarkup_renameFree]
    · rw [loc_renameFree, hroots, markup_renameFree]

theorem renamed (h : Echoes s t) (m : Mapping) (tokens : Tokens) :
    Echoes s (m.renamed tokens t) := by
  rw [Mapping.renamed]
  split
  · exact h.renameFree _ _
  · exact h

end Echoes

/-! ### The scan of a part -/

/-- What the scan finds in a part. -/
def Part.scan (s : Store) (inside : Loc → List Found) : Part → List Found
  | .node t => inside t.loc
  | .attribute _ _ a => scanAttribute s inside (a.map loc)
  | .child t => scanChild s inside t.loc (t.here.map loc)
  | .operand _ t => scanOperand s inside t.loc
  | .statement t => t.markup.flatMap inside
  | .loop m => [scanLoop s inside m.candidate]
  | .wrapper _ => []

variable {s : Store} {inside : Loc → List Found} {t v : Located}

theorem scanChild_blank (l : Loc) (n : Node Loc) :
    scanChild s inside l (Node.blank n) = scanChild s inside l n := by
  cases n <;> rfl

theorem scanNode_blank (n : Node Loc) : scanNode s inside (Node.blank n) = scanNode s inside n := by
  cases n <;> rfl

theorem scanNode_eq {l : Loc} {n : Node Located} (h : Echoes s (.node l n)) :
    scanNode s inside (s.get l) = (partsOf l n).flatMap (Part.scan s inside) := by
  have hchild : ∀ c ∈ n.children, scanChild s inside c.loc (s.get c.loc) =
      Part.scan s inside (.child c) := by
    intro c hc
    rw [← scanChild_blank, (h c (.child hc .self)).node, scanChild_blank]
    rfl
  have hchildren (cs : List Located) (hcs : ∀ c ∈ cs, c ∈ n.children) :
      (cs.map loc).flatMap (fun l => scanChild s inside l (s.get l)) =
        (cs.map Part.child).flatMap (Part.scan s inside) := by
    rw [List.flatMap_map, List.flatMap_map]
    exact List.flatMap_congr fun c hc => hchild c (hcs c hc)
  have hnode : Node.blank (s.get l) = Node.blank (n.map loc) := (h _ .self).node
  rw [← scanNode_blank, hnode, scanNode_blank]
  cases n with
  | element e =>
    rw [partsOf, List.flatMap_append, ← hchildren _ fun c hc => List.mem_append_right _ hc]
    have hattributes : (e.attributes.map (Attribute.map loc)).flatMap (scanAttribute s inside) =
        (e.attributes.mapIdx fun i a => Part.attribute l i a).flatMap (Part.scan s inside) := by
      conv_lhs => rw [← List.zipIdx_map_fst 0 e.attributes]
      rw [List.mapIdx_eq_zipIdx_map, List.map_map, List.flatMap_map, List.flatMap_map]
      rfl
    rw [← hattributes]
    rfl
  | fragment cs =>
    rw [partsOf, ← hchildren cs fun c hc => hc]
    rfl
  | conditional | logical | paren => simp [Node.map, scanNode, partsOf, Part.scan]
  | _ => rfl

theorem Place.scan_holding (place : Place) (h : Echo s v) :
    Part.scan s inside (place.holding v) = match place.verdict v with
      | .loop => scanOperand s inside v.loc
      | .enter => inside v.loc
      | _ => [] := by
  have hoperand : scanOperand s inside v.loc = match candidateTree? v with
      | .ok c => [scanLoop s inside c]
      | .error reason => if reason = .notMapCall && v.hasMarkup then inside v.loc else [] := by
    rw [scanOperand, h.candidate, h.hasMarkup]
  rcases place with (c | ⟨l, i, name⟩) | under
  pick_goal 2
  · show (if s.hasMarkup v.loc then inside v.loc else []) = _
    rw [h.hasMarkup, Place.verdict]
    split <;> rfl
  -- a container and an operand are scanned alike, and differ only in what is left or kept
  all_goals
    show scanOperand s inside v.loc = _
    cases hc : candidateTree? v with
    | ok c => simp only [Place.verdict, hc]
    | error reason =>
      simp only [Place.verdict, hoperand, hc, Bool.and_eq_true, decide_eq_true_eq]
      split_ifs <;> simp_all

end JsxLoops.Loop
