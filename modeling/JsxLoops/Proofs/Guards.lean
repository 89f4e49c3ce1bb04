import JsxLoops.Proofs.Wrapping
import JsxLoops.Proofs.Erasure
import JsxLoops.Proofs.Shape
import Mathlib

/-!
The conditions that a nested call takes along. A call that is carried by a record stands there
under copies of the conditions that it stood under in the template. Here both are evaluated, with
effects and with expressions that throw: the copies are evaluated in the order of the template, the
first that does not let the call through ends the evaluation, and the call is evaluated from the
same state as in the template, or in neither place.
-/

namespace JsxLoops.Tree

open Located

/-! ### Evaluation with effects -/

/-- A computation with states `σ` that gives a value or throws. -/
abbrev Effect (σ V : Type) := OptionT (StateM σ) V

/-- What evaluation needs to know about everything but the operators: how values count as
conditions, and what the other expressions come to. -/
structure Machine (σ V : Type) where
  truthy : V → Bool
  nullish : V → Bool
  null : V
  evaluate : Subtree → Effect σ V

namespace Machine

variable {σ V : Type} (M : Machine σ V)

/-- Whether the right operand of an operator is evaluated after a left one with this value. -/
def goesOn (op : String) (v : V) : Bool :=
  if op = "&&" then M.truthy v
  else if op = "||" then !M.truthy v
  else if op = "??" then M.nullish v
  else true

/-- What a node comes to. Its children come with what they come to themselves. -/
def evaluateNode : Node (Subtree × Effect σ V) → Effect σ V
  | .logical op left right => do
    let v ← left.2
    if M.goesOn op v then right.2 else return v
  | .conditional test yes no => do
    let v ← test.2
    if M.truthy v then yes.2 else no.2
  | .paren inner => inner.2
  | .literal text => if text = "null" then return M.null else M.evaluate (.node (.literal text))
  | n => M.evaluate (.node (n.map Prod.fst))

def evaluateTree : Located → Subtree × Effect σ V :=
  fold fun _ _ m => (.node (m.map Prod.fst), M.evaluateNode m)

/-- What a tree comes to. -/
def outcome (t : Located) : Effect σ V := (M.evaluateTree t).2

variable {M} {a b : σ} {v : V} {op : String} {l : Loc} {t u left right test yes no : Located}

theorem outcome_logical :
    M.outcome (.node l (.logical op left right)) =
      M.outcome left >>= fun v => if M.goesOn op v then M.outcome right else return v := by
  rw [outcome, evaluateTree, fold_node]
  rfl

theorem outcome_conditional :
    M.outcome (.node l (.conditional test yes no)) =
      M.outcome test >>= fun v => if M.truthy v then M.outcome yes else M.outcome no := by
  rw [outcome, evaluateTree, fold_node]
  rfl

theorem outcome_paren : M.outcome (.node l (.paren t)) = M.outcome t := by
  rw [outcome, evaluateTree, fold_node]
  rfl

theorem outcome_null : M.outcome (.node l (.literal "null")) = return M.null := by
  rw [outcome, evaluateTree, fold_node]
  rfl

theorem outcome_strip (t : Located) : M.outcome t.strip = M.outcome t := by
  induction t using induct_parens with
  | paren l inner ih => rw [strip_paren, outcome_paren, ih]
  | bare l n hb => rw [hb.strip]

theorem outcome_of_erase_eq (h : t.erase = u.erase) : M.outcome t = M.outcome u :=
  congrArg Prod.snd (fold_eq_of_erase_eq (fun _ _ _ _ _ => rfl) h)

theorem outcome_of_strip (h : t.strip.erase = u.strip.erase) : M.outcome t = M.outcome u := by
  rw [← outcome_strip t, ← outcome_strip u, outcome_of_erase_eq h]

theorem bind_some {x : Effect σ V} {f : V → Effect σ V} (h : x a = (some v, b)) :
    (x >>= f) a = f v b := by
  show StateT.bind x (fun o => _) a = _
  rw [StateT.bind, h]
  rfl

theorem bind_none {x : Effect σ V} {f : V → Effect σ V} (h : x a = (none, b)) :
    (x >>= f) a = (none, b) := by
  show StateT.bind x (fun o => _) a = _
  rw [StateT.bind, h]
  rfl

/-- Evaluating `t` from a state evaluates `u` in it, from the state `b`. -/
inductive Reaches (M : Machine σ V) (u : Located) (b : σ) : Located → σ → Prop
  | self : Reaches M u b u b
  | left {l : Loc} {op : String} {left right : Located} {a : σ} (h : Reaches M u b left a) :
    Reaches M u b (.node l (.logical op left right)) a
  | right {l : Loc} {op : String} {left right : Located} {a c : σ} {v : V}
    (hleft : M.outcome left a = (some v, c)) (hv : M.goesOn op v = true)
    (h : Reaches M u b right c) : Reaches M u b (.node l (.logical op left right)) a
  | test {l : Loc} {test yes no : Located} {a : σ} (h : Reaches M u b test a) :
    Reaches M u b (.node l (.conditional test yes no)) a
  | yes {l : Loc} {test yes no : Located} {a c : σ} {v : V}
    (htest : M.outcome test a = (some v, c)) (hv : M.truthy v = true)
    (h : Reaches M u b yes c) : Reaches M u b (.node l (.conditional test yes no)) a
  | no {l : Loc} {test yes no : Located} {a c : σ} {v : V}
    (htest : M.outcome test a = (some v, c)) (hv : M.truthy v = false)
    (h : Reaches M u b no c) : Reaches M u b (.node l (.conditional test yes no)) a
  | paren {l : Loc} {t : Located} {a : σ} (h : Reaches M u b t a) :
    Reaches M u b (.node l (.paren t)) a

theorem Reaches.occurs (h : M.Reaches u b t a) : Occurs u t := by
  induction h with
  | self => exact .self
  | left _ ih | test _ ih | paren _ ih => exact .child (by simp [Node.children]) ih
  | right _ _ _ ih | yes _ _ _ ih | no _ _ _ ih => exact .child (by simp [Node.children]) ih

theorem Reaches.eq_of_self (h : M.Reaches t b t a) : a = b := by
  have hbelow {l : Loc} {n : Node Located} {c : Located} (hc : c ∈ n.children) :
      ¬ Occurs (.node l n) c := fun ho => (height_lt_of_mem hc).not_ge ho.height_le
  cases h with
  | self => rfl
  | left h | test h | paren h => exact absurd h.occurs (hbelow (by simp [Node.children]))
  | right _ _ h | yes _ _ h | no _ _ h =>
    exact absurd h.occurs (hbelow (by simp [Node.children]))

theorem reaches_right (hself : u ≠ .node l (.logical op left right)) (hleft : ¬ Occurs u left) :
    M.Reaches u b (.node l (.logical op left right)) a ↔
      ∃ x c, M.outcome left a = (some x, c) ∧ M.goesOn op x = true ∧ M.Reaches u b right c := by
  constructor
  · intro h
    cases h with
    | self => exact absurd rfl hself
    | left h => exact absurd h.occurs hleft
    | right hx hpass h => exact ⟨_, _, hx, hpass, h⟩
  · rintro ⟨x, c, hx, hpass, h⟩
    exact .right hx hpass h

theorem reaches_yes (hself : u ≠ .node l (.conditional test yes no)) (htest : ¬ Occurs u test)
    (hno : ¬ Occurs u no) :
    M.Reaches u b (.node l (.conditional test yes no)) a ↔
      ∃ x c, M.outcome test a = (some x, c) ∧ M.truthy x = true ∧ M.Reaches u b yes c := by
  constructor
  · intro h
    cases h with
    | self => exact absurd rfl hself
    | test h => exact absurd h.occurs htest
    | yes hx hpass h => exact ⟨_, _, hx, hpass, h⟩
    | no _ _ h => exact absurd h.occurs hno
  · rintro ⟨x, c, hx, hpass, h⟩
    exact .yes hx hpass h

theorem reaches_no (hself : u ≠ .node l (.conditional test yes no)) (htest : ¬ Occurs u test)
    (hyes : ¬ Occurs u yes) :
    M.Reaches u b (.node l (.conditional test yes no)) a ↔
      ∃ x c, M.outcome test a = (some x, c) ∧ (!M.truthy x) = true ∧ M.Reaches u b no c := by
  constructor
  · intro h
    cases h with
    | self => exact absurd rfl hself
    | test h => exact absurd h.occurs htest
    | yes _ _ h => exact absurd h.occurs hyes
    | no hx hpass h => exact ⟨_, _, hx, by rw [hpass, Bool.not_false], h⟩
  · rintro ⟨x, c, hx, hpass, h⟩
    exact .no hx (by rwa [Bool.not_eq_true'] at hpass) h

end Machine

/-! ### Where a tree stands -/

namespace Located

theorem Occurs.only_child {u c : Located} {l : Loc} {n : Node Located} (h : Occurs u c)
    (xs ys : List Located) (hnodup : ((node l n).cells.map Cell.loc).Nodup)
    (hn : n.children = xs ++ c :: ys) : u ≠ node l n ∧ ∀ d ∈ xs ++ ys, ¬ Occurs u d := by
  have hc : c ∈ n.children := by simp [hn]
  refine ⟨fun hu => (height_lt_of_mem hc).not_ge (hu ▸ h).height_le, fun d hd ho => ?_⟩
  have hcells : (node l n).cells = {⟨l, n.map loc⟩} + (c.cells + cellsOf (xs ++ ys)) := by
    rw [cells_node, hn, cellsOf_append, cellsOf_cons, cellsOf_append]
    abel
  rw [hcells, Multiset.map_add, Multiset.map_add, Multiset.nodup_add, Multiset.nodup_add] at hnodup
  have hd' := Multiset.mem_of_le (cells_le_of_mem hd) ho.root_mem
  exact Multiset.disjoint_left.1 hnodup.2.1.2.2 (Multiset.mem_map_of_mem Cell.loc h.root_mem)
    (Multiset.mem_map_of_mem Cell.loc hd')

theorem nodup_child {c : Located} {l : Loc} {n : Node Located}
    (hnodup : ((node l n).cells.map Cell.loc).Nodup) (hc : c ∈ n.children) :
    (c.cells.map Cell.loc).Nodup :=
  Multiset.nodup_of_le (Multiset.map_le_map (Occurs.child hc .self).cells_le) hnodup

end Located

namespace Store

variable {s : Store} {cells rest : Multiset Cell}

def allCells (s : Store) : Multiset Cell :=
  (Multiset.range s.size).map fun i => ⟨⟨i⟩, s.get ⟨i⟩⟩

theorem mem_allCells {c : Cell} : c ∈ s.allCells ↔ c.loc.index < s.size ∧ s.get c.loc = c.head := by
  obtain ⟨⟨i⟩, head⟩ := c
  simp [allCells]

theorem owns_allCells (s : Store) : s.Owns s.allCells where
  bound c hc := (mem_allCells.1 hc).1
  get c hc := (mem_allCells.1 hc).2
  nodup := by
    rw [allCells, Multiset.map_map]
    exact (Multiset.nodup_range s.size).map fun i j hij => congrArg Loc.index hij

theorem Owns.le_allCells (h : s.Owns cells) : cells ≤ s.allCells :=
  (Multiset.le_iff_subset (Multiset.Nodup.of_map _ h.nodup)).2 fun c hc =>
    mem_allCells.2 ⟨h.bound c hc, h.get c hc⟩

end Store

/-- An edit that keeps all cells of a store and builds around a tree of it adds to the store, and
what it builds around the tree is new. -/
theorem Gives.of_allCells {s : Store} {e : Edit Loc} {v : Located} {rest : Multiset Cell}
    {P : Located → Prop} (h : v.cells + rest = s.allCells) (he : Gives e s rest P)
    (hv : ∀ t, P t → Occurs v t) :
    ∃ t s', Runs e s t.loc s' ∧ s.Extends s' ∧ s'.Shows t ∧ (t.cells.map Cell.loc).Nodup ∧
      (∀ u, Occurs u t → Occurs u v ∨ s.size ≤ u.loc.index) ∧ P t := by
  obtain ⟨t, s', hrun, hsize, hown, ht⟩ := he
  have hnodup : (t.cells.map Cell.loc).Nodup := (hown.mono (Multiset.le_add_right _ _)).nodup
  refine ⟨t, s', hrun, ⟨hsize, fun l hl => ?_⟩, hown.shows (Multiset.le_add_right _ _), hnodup,
    fun u hu => ?_, ht⟩
  · have hmem : (⟨l, s.get l⟩ : Cell) ∈ v.cells + rest := h ▸ Store.mem_allCells.2 ⟨hl, rfl⟩
    exact hown.get _ (Multiset.mem_of_le (Multiset.add_le_add_right (hv t ht).cells_le) hmem)
  · -- a node that is not new is one of the tree, or one of the rest, which stands apart
    by_contra! hold
    have hmem : (⟨u.loc, s.get u.loc⟩ : Cell) ∈ v.cells + rest :=
      h ▸ Store.mem_allCells.2 ⟨hold.2, rfl⟩
    rcases Multiset.mem_add.1 hmem with hmem | hmem
    · obtain ⟨w, hw, hcell⟩ := mem_cells_iff.1 hmem
      have hloc : u.loc = w.loc := congrArg Cell.loc hcell
      exact hold.1 (hu.eq_of_loc_eq hnodup (hw.trans (hv t ht)) hloc ▸ hw)
    · have hnodup := hown.nodup
      rw [Multiset.map_add, Multiset.nodup_add] at hnodup
      have hrest : u.loc ∈ rest.map Cell.loc := Multiset.mem_map_of_mem Cell.loc hmem
      exact Multiset.disjoint_left.1 hnodup.2.2 (Multiset.mem_map_of_mem Cell.loc hu.root_mem) hrest

end JsxLoops.Tree

namespace JsxLoops.Loop

open JsxLoops.Tree Located

variable {σ V : Type} {M : Machine σ V} {a b : σ} {gs : List Premise} {g : Premise}
  {t u v : Located}

/-! ### Conditions in turn -/

namespace Premise

/-- Whether the condition lets through what stands under it. -/
def passes (M : Machine σ V) : Premise → V → Bool
  | .operand op _, x => M.goesOn op x
  | .whenTrue _, x => M.truthy x
  | .whenFalse _, x => !M.truthy x

/-- What is left of a value under the condition where it does not pass. -/
def otherwise (M : Machine σ V) : Premise → V → V
  | .operand _ _, x => x
  | .whenTrue _, _ | .whenFalse _, _ => M.null

/-- Evaluates conditions in turn, the outermost first. Ends in a state after all of them, or with
what the first one leaves that does not pass. -/
def checkAll (M : Machine σ V) : List Premise → σ → Except (Option V × σ) σ
  | [], a => .ok a
  | g :: gs, a => match M.outcome g.tree a with
    | (some x, c) => if g.passes M x then checkAll M gs c else .error (some (g.otherwise M x), c)
    | (none, c) => .error (none, c)

theorem checkAll_ok_iff :
    checkAll M (g :: gs) a = .ok b ↔
      ∃ x c, M.outcome g.tree a = (some x, c) ∧ g.passes M x = true ∧ checkAll M gs c = .ok b := by
  rw [checkAll]
  constructor
  · intro h
    split at h
    next x c hx =>
      split at h
      · exact ⟨x, c, hx, by assumption, h⟩
      · cases h
    next => cases h
  · rintro ⟨x, c, hx, hpass, h⟩
    rw [hx]
    exact (if_pos hpass).trans h

end Premise

open Premise

/-! ### The template -/

/-- The tree stands under conditions, the outermost first: only operands and branches are on the
way to it. The conditions may stand elsewhere, and in other parentheses. -/
inductive Under (v : Located) : List Premise → Located → Prop
  | here : Under v [] v
  | paren {gs : List Premise} {t : Located} (l : Loc) (h : Under v gs t) :
    Under v gs (.node l (.paren t))
  | operand {gs : List Premise} {op : String} {left left' right : Located} (l : Loc)
    (hleft : left'.strip.erase = left.strip.erase) (h : Under v gs right) :
    Under v (.operand op left :: gs) (.node l (.logical op left' right))
  | whenTrue {gs : List Premise} {test test' yes no : Located} (l : Loc)
    (htest : test'.strip.erase = test.strip.erase) (h : Under v gs yes) :
    Under v (.whenTrue test :: gs) (.node l (.conditional test' yes no))
  | whenFalse {gs : List Premise} {test test' yes no : Located} (l : Loc)
    (htest : test'.strip.erase = test.strip.erase) (h : Under v gs no) :
    Under v (.whenFalse test :: gs) (.node l (.conditional test' yes no))

theorem Under.occurs (h : Under v gs t) : Occurs v t := by
  induction h with
  | here => exact .self
  | paren l _ ih => exact .child (by simp [Node.children]) ih
  | operand l _ _ ih | whenTrue l _ _ ih | whenFalse l _ _ ih =>
    exact .child (by simp [Node.children]) ih

theorem reaches_iff_checkAll {copy : Located} (hcopy : copy.strip.erase = g.tree.strip.erase)
    (hstep : M.Reaches v b t a ↔
      ∃ x c, M.outcome copy a = (some x, c) ∧ g.passes M x = true ∧ M.Reaches v b u c)
    (hu : ∀ c, M.Reaches v b u c ↔ checkAll M gs c = .ok b) :
    M.Reaches v b t a ↔ checkAll M (g :: gs) a = .ok b := by
  rw [hstep, checkAll_ok_iff, Machine.outcome_of_strip hcopy]
  simp only [hu]

theorem Under.reaches_iff (h : Under v gs t) (hnodup : (t.cells.map Cell.loc).Nodup) :
    M.Reaches v b t a ↔ checkAll M gs a = .ok b := by
  induction h generalizing a with
  | here =>
    refine ⟨fun h => congrArg Except.ok h.eq_of_self, fun h => ?_⟩
    cases h
    exact .self
  | @paren gs t l h ih =>
    obtain ⟨hself, -⟩ := h.occurs.only_child [] [] hnodup rfl
    rw [← ih (nodup_child hnodup (List.mem_singleton_self t))]
    refine ⟨fun h => ?_, .paren⟩
    cases h with
    | self => exact absurd rfl hself
    | paren h => exact h
  | @operand gs op left left' right l hleft h ih =>
    obtain ⟨hself, hothers⟩ := h.occurs.only_child [left'] [] hnodup rfl
    exact reaches_iff_checkAll hleft (Machine.reaches_right hself (hothers left' (by simp)))
      fun c => ih (nodup_child hnodup (by simp [Node.children]))
  | @whenTrue gs test test' yes no l htest h ih =>
    obtain ⟨hself, hothers⟩ := h.occurs.only_child [test'] [no] hnodup rfl
    exact reaches_iff_checkAll htest
      (Machine.reaches_yes hself (hothers test' (by simp)) (hothers no (by simp)))
      fun c => ih (nodup_child hnodup (by simp [Node.children]))
  | @whenFalse gs test test' yes no l htest h ih =>
    obtain ⟨hself, hothers⟩ := h.occurs.only_child [test', yes] [] hnodup rfl
    exact reaches_iff_checkAll htest
      (Machine.reaches_no hself (hothers test' (by simp)) (hothers yes (by simp)))
      fun c => ih (nodup_child hnodup (by simp [Node.children]))

/-! ### The record -/

theorem Grouped.strip (h : Grouped t u) : u.strip = t.strip := by
  cases h with
  | bare => rfl
  | paren l => exact strip_paren l t

theorem Grouped.under (h : Grouped t u) (ht : Under v gs t) : Under v gs u := by
  cases h with
  | bare => exact ht
  | paren l => exact .paren l ht

theorem Guarded.under (h : Guarded v gs t) : Under v gs t := by
  induction h with
  | nil => exact .here
  | cons _ hg ih =>
    cases hg with
    | operand l hcopy hleft hv =>
      exact .operand l (hleft.strip ▸ erase_strip hcopy) (hv.under ih)
    | whenTrue l k hcopy htest => exact .whenTrue l (htest.strip ▸ erase_strip hcopy) ih
    | whenFalse l k hcopy htest => exact .whenFalse l (htest.strip ▸ erase_strip hcopy) ih

theorem Grouped.outcome (h : Grouped t u) : M.outcome u = M.outcome t :=
  Machine.outcome_of_strip (congrArg erase h.strip)

theorem Shielded.outcome (h : Shielded v g t) :
    M.outcome t = M.outcome g.tree >>= fun x =>
      if g.passes M x then M.outcome v else return g.otherwise M x := by
  cases h with
  | operand l hcopy hleft hv =>
    rw [Machine.outcome_logical, hleft.outcome, Machine.outcome_of_erase_eq hcopy, hv.outcome]
    rfl
  | whenTrue l k hcopy htest =>
    rw [Machine.outcome_conditional, htest.outcome, Machine.outcome_of_erase_eq hcopy,
      Machine.outcome_null]
    rfl
  | whenFalse l k hcopy htest =>
    rw [Machine.outcome_conditional, htest.outcome, Machine.outcome_of_erase_eq hcopy,
      Machine.outcome_null]
    refine congrArg (M.outcome _ >>= ·) (funext fun x => ?_)
    rw [passes]
    cases M.truthy x <;> rfl

theorem Guarded.outcome_of_ok (h : Guarded v gs t) (hall : checkAll M gs a = .ok b) :
    M.outcome t a = M.outcome v b := by
  induction h generalizing a with
  | nil =>
    cases hall
    rfl
  | cons _ hg ih =>
    obtain ⟨x, c, hx, hpass, hall⟩ := checkAll_ok_iff.1 hall
    rw [hg.outcome, Machine.bind_some hx, if_pos hpass]
    exact ih hall

theorem Guarded.outcome_of_error {r : Option V × σ} (h : Guarded v gs t)
    (hstop : checkAll M gs a = .error r) : M.outcome t a = r := by
  induction h generalizing a with
  | nil => cases hstop
  | cons _ hg ih =>
    rw [hg.outcome]
    rw [checkAll] at hstop
    split at hstop
    next x c hx =>
      rw [Machine.bind_some hx]
      split at hstop
      next hpass =>
        rw [if_pos hpass]
        exact ih hstop
      next hpass =>
        rw [if_neg hpass]
        exact Except.error.inj hstop
    next c hx =>
      rw [Machine.bind_none hx]
      exact Except.error.inj hstop

/-- No operand of a logical operator and no test is an operator without parentheses. -/
def KeepsGroups : Node Located → Prop
  | .logical _ left right => groups left.here = false ∧ groups right.here = false
  | .conditional test _ _ => groups test.here = false
  | _ => True

theorem Grouped.bare_here (h : Grouped t u) : groups u.here = false := by
  cases h with
  | bare h => exact h
  | paren => rfl

theorem Shielded.keepsGroups (h : Shielded v g t) : KeepsGroups t.here := by
  cases h with
  | operand l _ hleft hv => exact ⟨hleft.bare_here, hv.bare_here⟩
  | whenTrue l k _ htest | whenFalse l k _ htest => exact htest.bare_here

theorem Shielded.above {w : Located} (h : Shielded w g t)
    (hnodup : (t.cells.map Cell.loc).Nodup) (hv : Occurs v w) (hu : Occurs u t)
    (hvu : Occurs v u) : u = t ∨ (∃ l, u = .node l (.paren w)) ∨ Occurs u w := by
  cases hu with
  | self => exact .inl rfl
  | @child _ _ c hc hu =>
    have hvc := hvu.trans hu
    cases h with
    | @operand op left copy left' w' l hcopy hleft hw =>
      obtain ⟨-, hothers⟩ := (hv.trans hw.occurs).only_child [left'] [] hnodup rfl
      simp only [Node.children, List.mem_cons, List.not_mem_nil, or_false] at hc
      rcases hc with rfl | rfl
      · exact absurd hvc (hothers c (by simp))
      · cases hw with
        | bare => exact .inr (.inr hu)
        | paren k =>
          cases hu with
          | self => exact .inr (.inl ⟨k, rfl⟩)
          | child hc hu => exact .inr (.inr (List.mem_singleton.1 hc ▸ hu))
    | @whenTrue test copy test' l k hcopy htest =>
      obtain ⟨-, hothers⟩ := hv.only_child [test'] [.node k (.literal "null")] hnodup rfl
      simp only [Node.children, List.mem_cons, List.not_mem_nil, or_false] at hc
      rcases hc with rfl | rfl | rfl
      · exact absurd hvc (hothers c (by simp))
      · exact .inr (.inr hu)
      · exact absurd hvc (hothers _ (by simp))
    | @whenFalse test copy test' l k hcopy htest =>
      obtain ⟨-, hothers⟩ := hv.only_child [test', .node k (.literal "null")] [] hnodup rfl
      simp only [Node.children, List.mem_cons, List.not_mem_nil, or_false] at hc
      rcases hc with rfl | rfl | rfl
      · exact absurd hvc (hothers c (by simp))
      · exact absurd hvc (hothers _ (by simp))
      · exact .inr (.inr hu)

theorem Guarded.keepsGroups (h : Guarded v gs t) (hnodup : (t.cells.map Cell.loc).Nodup)
    (hu : Occurs u t) (hv : Occurs v u) (hne : u ≠ v) : KeepsGroups u.here := by
  induction h with
  | nil =>
    -- nothing is built around a value without conditions
    cases hu with
    | self => exact absurd rfl hne
    | child hc hu => exact absurd (hv.trans hu).height_le (height_lt_of_mem hc).not_ge
  | cons h hg ih =>
    rcases hg.above hnodup h.occurs hu hv with rfl | ⟨l, rfl⟩ | hu
    · exact hg.keepsGroups
    · trivial
    · refine ih ?_ hu
      exact Multiset.nodup_of_le (Multiset.map_le_map hg.occurs.cells_le) hnodup

/-- A call that a record carries is evaluated exactly when the template would reach it. The value
that carries it evaluates the conditions on the call in turn, the outermost first. After all of
them it evaluates the call, from the state that they leave, and comes to its value; the first
condition that does not pass ends the evaluation, and the call is not reached. An expression in
which something stands under the same conditions evaluates that from the same state.

The conditions are copied: all nodes of the store stay, and all nodes of the value but those of the
call are new. What is built around the call keeps its groups. -/
theorem guardedValue_evaluates {s : Store} {call : Located} {gs : List Premise}
    {rest : Multiset Cell} (hown : s.Owns (call.cells + rest))
    (hgs : ∀ g ∈ gs, g.tree.cells ≤ rest) :
    ∃ value s', Runs (guardedValue (gs.map Premise.guard) call.loc) s value.loc s' ∧
      s'.Shows value ∧ s.Extends s' ∧
      (∀ u, Occurs u value → Occurs u call ∨ s.size ≤ u.loc.index) ∧
      (∀ u, Occurs u value → Occurs call u → u ≠ call → KeepsGroups u.here) ∧
      ∀ {σ V : Type} (M : Machine σ V) (a : σ),
        (∀ b, M.Reaches call b value a ↔ checkAll M gs a = .ok b) ∧
        (∀ b, checkAll M gs a = .ok b → M.outcome value a = M.outcome call b) ∧
        (∀ r, checkAll M gs a = .error r → M.outcome value a = r) ∧
        ∀ site e, Under site gs e → (e.cells.map Cell.loc).Nodup →
          ∀ b, M.Reaches call b value a ↔ M.Reaches site b e a := by
  -- the whole store is owned, so that nothing in it can change
  obtain ⟨others, hall⟩ := Multiset.le_iff_exists_add.1 hown.le_allCells
  have hcells : call.cells + (rest + others) = s.allCells := by rw [hall, add_assoc]
  have hgives : Gives (guardedValue (gs.map Premise.guard) call.loc) s (rest + others)
      (Guarded call gs) :=
    Guarded.gives (hcells ▸ s.owns_allCells) fun g hg =>
      (hgs g hg).trans (Multiset.le_add_right _ _)
  obtain ⟨value, s', hrun, hextends, hshows, hnodup, hnew, hguarded⟩ :=
    hgives.of_allCells hcells fun t ht => ht.occurs
  refine ⟨value, s', hrun, hshows, hextends, hnew, fun u hu hcall hne =>
    hguarded.keepsGroups hnodup hu hcall hne, fun M a => ?_⟩
  have hreaches (b) : M.Reaches call b value a ↔ checkAll M gs a = .ok b :=
    hguarded.under.reaches_iff hnodup
  refine ⟨hreaches, fun b hb => hguarded.outcome_of_ok hb,
    fun r hr => hguarded.outcome_of_error hr, fun site e he hsite b => ?_⟩
  rw [hreaches, he.reaches_iff hsite]

/-- The conditions `a`, `b || c` and `d`, and the call `xs.map(f)`. -/
def guardedCall : Store :=
  ⟨#[.name "a", .name "b", .name "c", .logical "||" ⟨1⟩ ⟨2⟩, .name "d", .name "xs",
    .member ⟨5⟩ "map" false, .name "f", .call ⟨6⟩ [⟨7⟩], .array [⟨0⟩, ⟨3⟩, ⟨4⟩, ⟨8⟩]]⟩

def carriedCall : Located := guardedCall.treeAt ⟨8⟩

/-- The call is carried as `a && (b || c ? null : d ?? xs.map(f))`. -/
def mixedGuards : List Premise :=
  [.operand "&&" (guardedCall.treeAt ⟨0⟩), .whenFalse (guardedCall.treeAt ⟨3⟩),
    .operand "??" (guardedCall.treeAt ⟨4⟩)]

def guardTrees : List Located := mixedGuards.map Premise.tree

theorem guardedCall_owns : guardedCall.Owns (carriedCall.cells + cellsOf guardTrees) := by
  have htree : guardedCall.IsTree ⟨9⟩ :=
    Store.isTree_of_filled (by decide) (by decide) (by decide)
  have hroot : guardedCall.treeAt ⟨9⟩ = .node ⟨9⟩ (.array (guardTrees ++ [carriedCall])) := by cbv
  have hcells := hroot ▸ htree.owns_treeAt
  rw [cells_node, Node.children, cellsOf_append, cellsOf_cons, cellsOf_nil, add_zero] at hcells
  exact hcells.mono ((add_comm _ _).le.trans (Multiset.le_add_left _ _))

/-- Names are logged as they are read. The known ones count as true, the others are missing. -/
def naming (known : List String) : Machine (List String) (Option Bool) where
  truthy x := x == some true
  nullish x := x == none
  null := none
  evaluate
    | .node (.name name) => fun log =>
      (some (if known.contains name then some true else none), log ++ [name])
    | _ => fun log => (some (some true), log ++ ["call"])

/-- The call is made after all four names, and it is not made where `b` is known. -/
theorem mixedGuards_evaluated :
    ∃ value s', guardedCall.Owns (carriedCall.cells + cellsOf guardTrees) ∧
      (∀ g ∈ mixedGuards, g.tree.cells ≤ cellsOf guardTrees) ∧
      Runs (guardedValue [.operand "&&" ⟨0⟩, .whenFalse ⟨3⟩, .operand "??" ⟨4⟩] ⟨8⟩) guardedCall
        value.loc s' ∧ guardedCall.Extends s' ∧
      (naming ["a"]).Reaches carriedCall ["a", "b", "c", "d"] value [] ∧
      (naming ["a"]).outcome value [] = (some (some true), ["a", "b", "c", "d", "call"]) ∧
      (∀ log, ¬ (naming ["a", "b"]).Reaches carriedCall log value []) ∧
      (naming ["a", "b"]).outcome value [] = (some none, ["a", "b"]) := by
  have hgs : ∀ g ∈ mixedGuards, g.tree.cells ≤ cellsOf guardTrees := fun g hg =>
    cells_le_of_mem (List.mem_map_of_mem hg)
  obtain ⟨value, s', hrun, -, hextends, -, -, hvalue⟩ :=
    guardedValue_evaluates guardedCall_owns hgs
  have hmade : checkAll (naming ["a"]) mixedGuards [] = .ok ["a", "b", "c", "d"] := by cbv
  have hstop : checkAll (naming ["a", "b"]) mixedGuards [] = .error (some none, ["a", "b"]) := by
    cbv
  obtain ⟨hreaches, hok, -⟩ := hvalue (naming ["a"]) []
  obtain ⟨hreaches', -, herror, -⟩ := hvalue (naming ["a", "b"]) []
  refine ⟨value, s', guardedCall_owns, hgs, hrun, hextends, (hreaches _).2 hmade, ?_,
    fun log h => ?_, herror _ hstop⟩
  · rw [hok _ hmade]
    cbv
  · cases hstop.symm.trans ((hreaches' log).1 h)

end JsxLoops.Loop
