import JsxLoops.Proofs.Discovery
import JsxLoops.Proofs.Operations

/-!
What stands around loops. A loop that stands in no other loop is shown by a node, and after a run
that node holds the wrapper in its place. `positions` gives the places where this happens, read off
the store before the run. Nothing else changes outside of these loops: every other node that was
there is still the same one, whether it hangs below the root or not.
-/

namespace JsxLoops.Tree

open Located

/-! ### Cells that are left alone -/

namespace Store

variable {s : Store} {cells : Multiset Cell}

def others (s : Store) (cells : Multiset Cell) : Multiset Cell :=
  ((Multiset.range s.size).filter fun i => (⟨i⟩ : Loc) ∉ cells.map Cell.loc).map
    fun i => ⟨⟨i⟩, s.get ⟨i⟩⟩

theorem mem_others {l : Loc} (hl : l.index < s.size) (h : l ∉ cells.map Cell.loc) :
    ⟨l, s.get l⟩ ∈ s.others cells :=
  Multiset.mem_map.2 ⟨l.index, Multiset.mem_filter.2 ⟨Multiset.mem_range.2 hl, h⟩, rfl⟩

theorem Owns.whole (h : s.Owns cells) : s.Owns (cells + s.others cells) := by
  have hother {c : Cell} (hc : c ∈ s.others cells) :
      c.loc.index < s.size ∧ c.loc ∉ cells.map Cell.loc ∧ s.get c.loc = c.head := by
    obtain ⟨i, hi, rfl⟩ := Multiset.mem_map.1 hc
    obtain ⟨hi, hout⟩ := Multiset.mem_filter.1 hi
    exact ⟨Multiset.mem_range.1 hi, hout, rfl⟩
  refine ⟨fun c hc => ?_, fun c hc => ?_, ?_⟩
  · rcases Multiset.mem_add.1 hc with hc | hc
    · exact h.bound c hc
    · exact (hother hc).1
  · rcases Multiset.mem_add.1 hc with hc | hc
    · exact h.get c hc
    · exact (hother hc).2.2
  · rw [Multiset.map_add, Multiset.nodup_add]
    refine ⟨h.nodup, ?_, Multiset.disjoint_left.2 fun hl hl' => ?_⟩
    · rw [others, Multiset.map_map]
      refine Multiset.Nodup.map (fun i j hij => ?_) ((Multiset.nodup_range _).filter _)
      exact congrArg Loc.index hij
    · obtain ⟨c, hc, rfl⟩ := Multiset.mem_map.1 hl'
      exact (hother hc).2.1 hl

end Store

end JsxLoops.Tree

namespace JsxLoops.Loop

open JsxLoops.Tree Located

/-! ### Positions -/

/-- Where a loop is shown that stands in no other one. -/
structure Position where
  holder : Loc
  /-- The child of the holder that shows the loop. -/
  child : Loc
  candidate : Candidate

/-- What is to be done about a child of a node. -/
inductive Task where
  | enter (l : Loc)
  | take (child : Loc) (candidate : Candidate)

section

variable (s : Store)

def operandTasks (child l : Loc) : List Task :=
  match candidate? s l with
  | .ok c => [.take child c]
  | .error reason => if reason = .notMapCall && s.hasMarkup l then [.enter l] else []

def attributeTasks : Attribute Loc → List Task
  | .named _ (.expression value) => if s.hasMarkup value then [.enter value] else []
  | _ => []

def childTasks (l : Loc) : List Task :=
  match s.get l with
  | .element _ | .fragment _ => [.enter l]
  | .container value => operandTasks s l value
  | _ => []

def nodeTasks : Node Loc → List Task
  | .element e => e.attributes.flatMap (attributeTasks s) ++ e.children.flatMap (childTasks s)
  | .fragment children => children.flatMap (childTasks s)
  | .conditional _ yes no => operandTasks s yes yes ++ operandTasks s no no
  | .logical _ _ right => operandTasks s right right
  | .paren inner => operandTasks s inner inner
  | _ => []

end

/-- The positions at a node and below it, where one task leads to them. -/
def Task.positions (inside : Loc → List Position) (holder : Loc) : Task → List Position
  | .enter l => inside l
  | .take child c => [⟨holder, child, c⟩]

/-- The positions at a location and below it, at most `depth` nodes deep. -/
def positionsTo (s : Store) : Nat → Loc → List Position
  | 0, _ => []
  | depth + 1, l => (nodeTasks s (s.get l)).flatMap (Task.positions (positionsTo s depth) l)

/-- The positions below a root. A loop that is the root itself has none. -/
def positions (s : Store) (root : Loc) : List Position :=
  match candidate? s root with
  | .ok _ => []
  | .error _ => positionsTo s s.size root

def Found.candidate : Found → Candidate
  | .loop c _ _ => c

/-- What a scan finds by one task. -/
def Task.found (s : Store) (inside : Loc → List Found) : Task → List Found
  | .enter l => inside l
  | .take _ c => [scanLoop s inside c]

theorem scanNode_eq_tasks (s : Store) (inside : Loc → List Found) (n : Node Loc) :
    scanNode s inside n = (nodeTasks s n).flatMap (Task.found s inside) := by
  have hoperand (child l : Loc) :
      scanOperand s inside l = (operandTasks s child l).flatMap (Task.found s inside) := by
    rw [scanOperand, operandTasks]
    cases candidate? s l with
    | ok c => simp [Task.found]
    | error reason =>
      simp only
      split <;> simp [Task.found]
  have hattribute : scanAttribute s inside =
      fun a => (attributeTasks s a).flatMap (Task.found s inside) := by
    ext1 a
    rcases a with ⟨name, _ | _ | value | _⟩ | value
    case named.expression =>
      rw [scanAttribute, attributeTasks]
      split <;> simp [Task.found]
    all_goals rfl
  have hchild (l : Loc) :
      scanChild s inside l (s.get l) = (childTasks s l).flatMap (Task.found s inside) := by
    rw [childTasks]
    cases s.get l with
    | element e => simp [scanChild, Task.found]
    | fragment cs => simp [scanChild, Task.found]
    | container value => exact hoperand l value
    | _ => rfl
  cases n with
  | element e =>
    simp only [scanNode, nodeTasks, hattribute, hchild, List.flatMap_append, List.flatMap_assoc]
  | fragment cs => simp only [scanNode, nodeTasks, hchild, List.flatMap_assoc]
  | conditional test yes no =>
    rw [scanNode, nodeTasks, List.flatMap_append, ← hoperand, ← hoperand]
  | logical op left right => rw [scanNode, nodeTasks, ← hoperand]
  | paren inner => rw [scanNode, nodeTasks, ← hoperand]
  | _ => rfl

theorem map_candidate_scanTo (s : Store) (depth : Nat) (l : Loc) :
    (scanTo s depth l).map Found.candidate = (positionsTo s depth l).map Position.candidate := by
  induction depth generalizing l with
  | zero => rfl
  | succ depth ih =>
    rw [scanTo, positionsTo, scanNode_eq_tasks, List.map_flatMap, List.map_flatMap]
    refine List.flatMap_congr fun task _ => ?_
    cases task with
    | enter l => exact ih l
    | take child c => rfl

theorem map_candidate_scan {s : Store} {root : Loc} {reason : Mismatch}
    (h : candidate? s root = .error reason) :
    (scan s root).map Found.candidate = (positions s root).map Position.candidate := by
  rw [scan, positions, h]
  exact map_candidate_scanTo s s.size root

/-! ### Moves -/

/-- What a child of a node becomes when wrappers are put at positions. -/
def redirect (moves : List (Position × Loc)) (holder child : Loc) : Loc :=
  match moves.find? fun m => m.1.holder = holder ∧ m.1.child = child with
  | some m => m.2
  | none => child

theorem redirect_of_ne {moves : List (Position × Loc)} {holder : Loc}
    (h : ∀ m ∈ moves, m.1.holder ≠ holder) (child : Loc) : redirect moves holder child = child := by
  have hnone : moves.find? (fun m => m.1.holder = holder ∧ m.1.child = child) = none :=
    List.find?_eq_none.2 fun m hm => by simp [h m hm]
  rw [redirect, hnone]

theorem redirect_append_of_ne (moves : List (Position × Loc)) {more : List (Position × Loc)}
    {holder : Loc} (h : ∀ m ∈ more, m.1.holder ≠ holder) (child : Loc) :
    redirect (moves ++ more) holder child = redirect moves holder child := by
  have hnone : more.find? (fun m => m.1.holder = holder ∧ m.1.child = child) = none :=
    List.find?_eq_none.2 fun m hm => by simp [h m hm]
  rw [redirect, redirect, List.find?_append, hnone, Option.or_none]

theorem redirect_concat {moves : List (Position × Loc)} {x : Position}
    (h : ∀ m ∈ moves, m.2 ≠ x.child) (w child : Loc) :
    redirect (moves ++ [(x, w)]) x.holder child =
      if redirect moves x.holder child = x.child then w else redirect moves x.holder child := by
  rw [redirect, redirect, List.find?_append]
  cases hfind : moves.find? fun m => m.1.holder = x.holder ∧ m.1.child = child with
  | some m =>
    rw [Option.some_or]
    exact (if_neg (h m (List.mem_of_find?_eq_some hfind))).symm
  | none =>
    rw [Option.none_or]
    by_cases hc : x.child = child
    · simp [hc]
    · simp [hc, Ne.symm hc]

/-- After some moves: every node from before that is not part of a loop is the same one, but for
the wrappers that it holds now. -/
structure Stands (s : Store) (before : List Site) (moves : List (Position × Loc)) (p : Pass) :
    Prop where
  size : s.size ≤ p.store.size
  get : ∀ l : Loc, l.index < s.size → (∀ m ∈ moves, ¬ s.Reaches m.1.candidate.call l) →
    p.store.get l = (s.get l).map (redirect moves l)
  old : ∀ m ∈ moves, m.1.child.index < s.size ∧ s.size ≤ m.2.index
  sites : ∃ new, p.sites = before ++ new ∧ ∀ m ∈ moves, ∃ site ∈ new,
    site.mappingCall = m.1.candidate.call ∧ site.wrapper = m.2

def Untouched (s : Store) (moves : List (Position × Loc)) (ts : List Located) : Prop :=
  ∀ m ∈ moves, ∀ l ∈ locsOf ts, m.1.holder ≠ l ∧ ¬ s.Reaches m.1.candidate.call l

variable {adapter : Adapter} {s : Store} {before : List Site} {moves : List (Position × Loc)}
  {p : Pass} {around : Multiset Loc} {ts us : List Located} {ps qs : List Position}
  {e : Lower (Option Owner)} {depth : Nat}

theorem Stands.start (s : Store) (a : Allocator) (before : List Site) :
    Stands s before [] ⟨s, a, before⟩ where
  size := le_rfl
  get l _ _ := (Node.map_id (s.get l)).symm
  old := by simp
  sites := ⟨[], (List.append_nil before).symm, by simp⟩

theorem Untouched.mono (h : Untouched s moves us) (hsub : ∀ l ∈ locsOf ts, l ∈ locsOf us) :
    Untouched s moves ts := fun m hm l hl => h m hm l (hsub l hl)

theorem Stands.shows {t : Located} (h : Stands s before moves p) (ht : s.Shows t)
    (hout : Untouched s moves [t]) : p.store.Shows t where
  bound c hc := (ht.bound c hc).trans_le h.size
  deep := ht.deep.trans h.size
  get c hc := by
    obtain ⟨u, hu, rfl⟩ := mem_cells_iff.1 hc
    have hloc := mem_locsOf_of_occurs (List.mem_singleton_self t) hu
    have hsame : redirect moves u.loc = id :=
      funext fun child => redirect_of_ne (fun m hm => (hout m hm _ hloc).1) child
    rw [h.get u.loc (ht.bound _ hc) fun m hm => (hout m hm _ hloc).2, hsame, Node.map_id]
    exact ht.get _ hc

/-! ### Steps -/

/-- The positions lie in some trees, or their holders are among the locations around. -/
structure Confined (s : Store) (around : Multiset Loc) (ts : List Located) (ps : List Position) :
    Prop where
  holder : ∀ x ∈ ps, x.holder ∈ around + locsOf ts
  call : ∀ x ∈ ps, ∀ l, s.Reaches x.candidate.call l → l ∈ locsOf ts
  outside : ∀ x ∈ ps, ∀ y ∈ ps, ¬ s.Reaches y.candidate.call x.holder
  child : ∀ x ∈ ps, x.child ∈ (s.get x.holder).children

theorem Confined.nil (s : Store) (around : Multiset Loc) (ts : List Located) :
    Confined s around ts [] where
  holder := by simp
  call := by simp
  outside := by simp
  child := by simp

theorem Confined.mono {around' : Multiset Loc} (h : Confined s around ts ps)
    (hsub : ∀ l ∈ locsOf ts, l ∈ locsOf us)
    (haround : ∀ l ∈ around, l ∈ around' + locsOf us) : Confined s around' us ps where
  holder x hx := (Multiset.mem_add.1 (h.holder x hx)).elim (haround _) fun hl =>
    Multiset.mem_add.2 (.inr (hsub _ hl))
  call x hx l hl := hsub l (h.call x hx l hl)
  outside := h.outside
  child := h.child

theorem Confined.append (h : Confined s around ts ps) (h' : Confined s around us qs)
    (hn : (around + locsOf (ts ++ us)).Nodup) : Confined s around (ts ++ us) (ps ++ qs) := by
  rw [locsOf_append, Multiset.nodup_add, Multiset.nodup_add] at hn
  obtain ⟨-, ⟨-, -, hapart⟩, haround⟩ := hn
  -- what is reached from a call lies in the one region and the holder in the other, or around
  have hcross {x : Position} {l : Loc} (hx : x.holder ∈ around + locsOf ts) (hl : l ∈ locsOf us) :
      x.holder ≠ l := by
    rintro rfl
    rcases Multiset.mem_add.1 hx with hx | hx
    · exact Multiset.disjoint_left.1 haround hx (Multiset.mem_add.2 (.inr hl))
    · exact Multiset.disjoint_left.1 hapart hx hl
  have hcross' {x : Position} {l : Loc} (hx : x.holder ∈ around + locsOf us) (hl : l ∈ locsOf ts) :
      x.holder ≠ l := by
    rintro rfl
    rcases Multiset.mem_add.1 hx with hx | hx
    · exact Multiset.disjoint_left.1 haround hx (Multiset.mem_add.2 (.inl hl))
    · exact Multiset.disjoint_left.1 hapart hl hx
  have hleft : Confined s around (ts ++ us) ps := h.mono
    (fun l hl => by rw [locsOf_append]; exact Multiset.mem_add.2 (.inl hl))
    (fun l hl => Multiset.mem_add.2 (.inl hl))
  have hright : Confined s around (ts ++ us) qs := h'.mono
    (fun l hl => by rw [locsOf_append]; exact Multiset.mem_add.2 (.inr hl))
    (fun l hl => Multiset.mem_add.2 (.inl hl))
  refine ⟨List.forall_mem_append.2 ⟨hleft.holder, hright.holder⟩,
    List.forall_mem_append.2 ⟨hleft.call, hright.call⟩, ?_,
    List.forall_mem_append.2 ⟨h.child, h'.child⟩⟩
  intro x hx y hy hreach
  rcases List.mem_append.1 hx with hx | hx <;> rcases List.mem_append.1 hy with hy | hy
  · exact h.outside x hx y hy hreach
  · exact hcross (h.holder x hx) (h'.call y hy _ hreach) rfl
  · exact hcross' (h'.holder x hx) (h.call y hy _ hreach) rfl
  · exact h'.outside x hx y hy hreach

/-- Outside of loops, a computation puts wrappers at positions and does nothing else to the nodes
around. -/
structure Performs (s : Store) (before : List Site) (around : Multiset Loc) (ts : List Located)
    (e : Lower (Option Owner)) (ps : List Position) : Prop where
  confined : Confined s around ts ps
  runs : ∀ moves p, Stands s before moves p → Untouched s moves ts →
    ∃ more p', Runs e p none p' ∧ more.map Prod.fst = ps ∧ Stands s before (moves ++ more) p' ∧
      (ps = [] → p' = p)

namespace Performs

theorem nothing (s : Store) (before : List Site) (around : Multiset Loc) (ts : List Located) :
    Performs s before around ts (pure none) [] where
  confined := .nil s around ts
  runs moves p h _ := ⟨[], p, .pure _ p, rfl, by rwa [List.append_nil], fun _ => rfl⟩

theorem mono {around' : Multiset Loc} (h : Performs s before around ts e ps)
    (hsub : ∀ l ∈ locsOf ts, l ∈ locsOf us)
    (haround : ∀ l ∈ around, l ∈ around' + locsOf us) : Performs s before around' us e ps where
  confined := h.confined.mono hsub haround
  runs moves p hp hout := h.runs moves p hp (hout.mono hsub)

theorem read {t : Located} {f : Store → Lower (Option Owner)} (hs : s.Shows t)
    (h : ∀ q : Store, q.Shows t → Performs s before around [t] (f q) ps) :
    Performs s before around [t] (Lower.store >>= f) ps where
  confined := (h s hs).confined
  runs moves p hp hout := by
    obtain ⟨more, p', hrun, hmore⟩ := (h p.store (hp.shows hs hout)).runs moves p hp hout
    exact ⟨more, p', Runs.store_bind hrun, hmore⟩

theorem bind {f : Option Owner → Lower (Option Owner)} (h : Performs s before around ts e ps)
    (h' : Performs s before around us (f none) qs) (hn : (around + locsOf (ts ++ us)).Nodup) :
    Performs s before around (ts ++ us) (e >>= f) (ps ++ qs) where
  confined := h.confined.append h'.confined hn
  runs moves p hp hout := by
    obtain ⟨more, p₁, hrun, hmore, hp₁, hsame⟩ := h.runs moves p hp (hout.mono fun l hl => by
      rw [locsOf_append]
      exact Multiset.mem_add.2 (.inl hl))
    rw [locsOf_append, Multiset.nodup_add, Multiset.nodup_add] at hn
    obtain ⟨-, ⟨-, -, hapart⟩, haround⟩ := hn
    have hnext : Untouched s (moves ++ more) us := by
      intro m hm l hl
      have hl' : l ∈ locsOf (ts ++ us) := by
        rw [locsOf_append]
        exact Multiset.mem_add.2 (.inr hl)
      rcases List.mem_append.1 hm with hm | hm
      · exact hout m hm l hl'
      · have hx : m.1 ∈ ps := hmore ▸ List.mem_map_of_mem hm
        refine ⟨?_, fun hreach => ?_⟩
        · rintro rfl
          rcases Multiset.mem_add.1 (h.confined.holder m.1 hx) with hx | hx
          · exact Multiset.disjoint_left.1 haround hx (Multiset.mem_add.2 (.inr hl))
          · exact Multiset.disjoint_left.1 hapart hx hl
        · exact Multiset.disjoint_left.1 hapart (h.confined.call m.1 hx l hreach) hl
    obtain ⟨more', p₂, hrun', hmore', hp₂, hsame'⟩ := h'.runs (moves ++ more) p₁ hp₁ hnext
    refine ⟨more ++ more', p₂, hrun.bind hrun', by rw [List.map_append, hmore, hmore'],
      by rwa [← List.append_assoc], fun hnil => ?_⟩
    obtain ⟨hps, hqs⟩ := List.append_eq_nil_iff.1 hnil
    rw [hsame' hqs, hsame hps]

theorem foldlM {α : Type} {f : Option Owner → α → Lower (Option Owner)} {xs : List α}
    (trees : α → List Located) {places : α → List Position}
    (h : ∀ x ∈ xs, Performs s before around (trees x) (f none x) (places x))
    (hn : (around + locsOf (xs.flatMap trees)).Nodup) :
    Performs s before around (xs.flatMap trees) (xs.foldlM f none) (xs.flatMap places) := by
  induction xs with
  | nil => exact .nothing s before around []
  | cons x xs ih =>
    rw [List.flatMap_cons] at hn
    have hrest : (around + locsOf (xs.flatMap trees)).Nodup := by
      refine Multiset.nodup_of_le (Multiset.add_le_add_left ?_) hn
      rw [locsOf_append]
      exact Multiset.le_add_left _ _
    rw [List.flatMap_cons, List.flatMap_cons, List.foldlM_cons]
    exact (h x List.mem_cons_self).bind
      (ih (fun y hy => h y (List.mem_cons_of_mem x hy)) hrest) hn

end Performs

/-! ### Loops -/

theorem lowerSite_elsewhere (adapter : Adapter) {m : Mapping} (hm : m.Valid)
    (hd : m.tree.height ≤ depth)
    (h : p.store.Owns m.tree.cells) (gs : List Guard) :
    ∃ w new p', Runs (lowerSite adapter (lowerTo adapter depth) m.candidate gs none)
    p (w, none) p' ∧
      p.store.size ≤ p'.store.size ∧ p.store.size ≤ w.index ∧
      (∀ l : Loc, l.index < p.store.size → l ∉ locsOf [m.tree] →
        p'.store.get l = p.store.get l) ∧
      p'.sites = p.sites ++ new ∧
      ∃ site ∈ new, site.mappingCall = m.call ∧ site.wrapper = w := by
  obtain ⟨w, σ, p', hrun, hat, hlow⟩ :=
    (lowerTo_follows adapter p.store.size p.sites depth).site hm [] hd
      (σ := ⟨p.allocator, [], none⟩) (F := p.store.others m.tree.cells)
      ⟨rfl, (List.append_nil _).symm, le_rfl, by simp, h.whole.congr (zero_add _).symm⟩ (by simp)
  obtain ⟨lp, loops, rfl, rfl, hloops, -, hfresh, -⟩ := hlow.of_loop
  have howner : σ.owner = none := by rw [Stage.owner, hlow.continues.eq_none rfl, Option.map_none]
  rw [howner] at hrun
  refine ⟨lp.wrapper, σ.loops.map Lowered.site, p', hrun, hat.size, hfresh, fun l hl hout => ?_,
    hat.sites, lp.site, ?_, rfl, rfl⟩
  · refine hat.owns.get ⟨l, p.store.get l⟩
      (Multiset.mem_add.2 (.inr (Multiset.mem_add.2 (.inr ?_))))
    refine Store.mem_others hl ?_
    rwa [locsOf, cellsOf_cons, cellsOf_nil, add_zero] at hout
  · rw [hloops, List.map_append]
    exact List.mem_append_right _ (List.mem_singleton_self _)

section

variable {l : Loc} {n : Node Located} {t v : Located}

theorem Performs.take (h : s.Owns (Located.node l n).cells) (ht : t ∈ n.children) {m : Mapping}
    (hm : m.Valid) (ho : Occurs m.tree t) (hd : m.tree.height ≤ depth) (gs : List Guard) :
    Performs s before {l} [t]
      (lowerSiteIn adapter (lowerTo adapter depth) l t.loc m.candidate gs none)
      [⟨l, t.loc, m.candidate⟩] := by
  have hs : s.Shows (.node l n) := h.shows le_rfl
  have hocc : Occurs m.tree (.node l n) := ho.trans (.child ht .self)
  have hcall {x : Loc} : s.Reaches m.call x ↔ x ∈ locsOf [m.tree] :=
    (hs.occurs hocc).reaches_iff_mem
  have hwithin (x : Loc) (hx : x ∈ locsOf [m.tree]) : x ∈ locsOf [t] :=
    locsOf_subset (by simpa using ho) hx
  have hlow : l ∉ locsOf [t] := by
    intro hl
    obtain ⟨u, hu, v, hv, rfl⟩ := mem_locsOf.1 hl
    obtain rfl := List.mem_singleton.1 hu
    exact (nodup_cells_iff.1 h.nodup).1 u ht _ hv.root_mem rfl
  have hl : l.index < s.size := h.bound _ (root_mem_cells (.node l n))
  have hchild : t.loc.index < s.size := h.bound _ (Occurs.child ht .self).root_mem
  refine ⟨⟨?_, ?_, ?_, ?_⟩, fun moves p hp hout => ?_⟩
  · simp
  · simp only [List.mem_singleton, forall_eq]
    intro x hx
    exact hwithin x (hcall.1 hx)
  · simp only [List.mem_singleton, forall_eq]
    intro hreach
    exact hlow (hwithin l (hcall.1 hreach))
  · simp only [List.mem_singleton, forall_eq]
    rw [hs.get_root, Node.children_map]
    exact List.mem_map_of_mem ht
  · have hshows : p.store.Shows t := hp.shows (hs.child ht) hout
    have hown : p.store.Owns m.tree.cells :=
      ⟨(hshows.occurs ho).bound, (hshows.occurs ho).get, nodup_of_occurs hocc h.nodup⟩
    obtain ⟨w, new, p', hrun, hsize, hw, hsame, hsites, site, hsite, hcall', hwrapper⟩ :=
      lowerSite_elsewhere adapter hm hd hown gs
    obtain ⟨earlier, hbefore, hearlier⟩ := hp.sites
    let x : Position := ⟨l, t.loc, m.candidate⟩
    have hold : ∀ y ∈ moves, y.2 ≠ x.child := by
      intro y hy he
      have hlt := (hp.old y hy).2
      rw [he] at hlt
      exact absurd hchild (Nat.not_lt.2 hlt)
    refine ⟨[(x, w)], { p' with store := (p'.store.replaceChild l t.loc w).2 }, ?_, rfl,
      ⟨?_, ?_, ?_, ?_⟩, by simp⟩
    · exact hrun.bind rfl
    · exact hp.size.trans (hsize.trans (Store.size_put _ _ _).ge)
    · intro k hk hfree
      have hkp : k.index < p.store.size := hk.trans_le hp.size
      have hget : p'.store.get k = (s.get k).map (redirect moves k) := by
        rw [hsame k hkp fun hin => hfree (x, w) (by simp) (hcall.2 hin)]
        exact hp.get k hk fun y hy => hfree y (List.mem_append_left _ hy)
      by_cases hkl : k = l
      · subst hkl
        rw [Store.get_replaceChild, if_pos rfl, hget, Node.map_map]
        exact Node.map_congr fun c _ => (redirect_concat hold w c).symm
      · rw [Store.get_replaceChild, if_neg hkl, hget]
        refine Node.map_congr fun c _ => (redirect_append_of_ne moves ?_ c).symm
        simpa [x] using Ne.symm hkl
    · intro y hy
      rcases List.mem_append.1 hy with hy | hy
      · exact hp.old y hy
      · rw [List.mem_singleton.1 hy]
        exact ⟨hchild, hp.size.trans hw⟩
    · refine ⟨earlier ++ new, ?_, fun y hy => ?_⟩
      · rw [← List.append_assoc, ← hbefore]
        exact hsites
      · rcases List.mem_append.1 hy with hy | hy
        · obtain ⟨site, hsite, heq⟩ := hearlier y hy
          exact ⟨site, List.mem_append_left _ hsite, heq⟩
        · rw [List.mem_singleton.1 hy]
          exact ⟨site, List.mem_append_right _ hsite, hcall', hwrapper⟩

/-- Trees of some depth are gone through as their positions say. -/
def Descends (adapter : Adapter) (s : Store) (before : List Site) (depth : Nat) : Prop :=
  ∀ (gs : List Guard) {t : Located}, t.height ≤ depth → s.Owns t.cells →
    Performs s before 0 [t] (lowerTo adapter depth t.loc gs none) (positionsTo s depth t.loc)

variable (hin : Descends adapter s before depth) (h : s.Owns (Located.node l n).cells)

include hin h

theorem Descends.enter (ht : t ∈ n.children) (hd : t.height ≤ depth) (ho : Occurs v t)
    (gs : List Guard) :
    Performs s before {l} [t] (lowerTo adapter depth v.loc gs none) (positionsTo s depth v.loc) :=
  (hin gs (ho.height_le.trans hd)
    (h.mono (ho.trans (.child ht .self)).cells_le)).mono
    (fun _ hl => locsOf_subset (by simpa using ho) hl) (by simp)

theorem Descends.shown (ht : t ∈ n.children) (hd : t.height ≤ depth) (ho : Occurs v t)
    (gs : List Guard) :
    Performs s before {l} [t]
      (match candidateTree? v with
      | .ok c => lowerSiteIn adapter (lowerTo adapter depth) l t.loc c gs none
      | .error reason =>
        if reason = .notMapCall && v.hasMarkup then lowerTo adapter depth v.loc gs none
        else pure none)
      ((operandTasks s t.loc v.loc).flatMap (Task.positions (positionsTo s depth) l)) := by
  have hv : s.Shows v := (h.shows le_rfl).occurs (ho.trans (.child ht .self))
  rw [operandTasks, candidate?_eq hv, hv.hasMarkup]
  cases hc : candidateTree? v with
  | ok c =>
    obtain ⟨parens, m, rfl, hm, rfl⟩ := candidateTree?_eq_ok hc
    have hcall := (occurs_inParens parens m.tree).trans ho
    simpa [Task.positions] using Performs.take h ht hm hcall (hcall.height_le.trans hd) gs
  | error reason =>
    by_cases henter : (reason = .notMapCall && v.hasMarkup) = true
    · simpa [henter, Task.positions] using hin.enter h ht hd ho gs
    · simpa [henter] using Performs.nothing s before {l} [t]

theorem Descends.operand (hv : v ∈ n.children) (hd : v.height ≤ depth) (gs : List Guard) :
    Performs s before {l} [v] (lowerOperand adapter (lowerTo adapter depth) l v.loc gs none)
      ((operandTasks s v.loc v.loc).flatMap (Task.positions (positionsTo s depth) l)) := by
  refine .read ((h.shows le_rfl).child hv) fun q hq => ?_
  rw [candidate?_eq hq, hq.hasMarkup]
  exact hin.shown h hv hd .self gs

theorem Descends.child (ht : t ∈ n.children) (hd : t.height ≤ depth) (gs : List Guard) :
    Performs s before {l} [t] (lowerChild adapter (lowerTo adapter depth) l gs none t.loc)
      ((childTasks s t.loc).flatMap (Task.positions (positionsTo s depth) l)) := by
  have hs : s.Shows t := (h.shows le_rfl).child ht
  refine .read hs fun q hq => ?_
  rw [childTasks, hs.get_loc, hq.get_loc]
  cases hn : t.here with
  | element e => simpa [Node.map, Task.positions] using hin.enter h ht hd .self gs
  | fragment cs => simpa [Node.map, Task.positions] using hin.enter h ht hd .self gs
  | container v =>
    have ho : Occurs v t := .of_mem (by simp [hn, Node.children])
    have hv : q.Shows v := hq.occurs ho
    have hshown := hin.shown h ht hd ho gs
    simp only [Node.map, candidate?_eq hv, hv.hasMarkup]
    cases hc : candidateTree? v with
    | ok c => simpa only [hc] using hshown
    | error reason =>
      simp only [hc] at hshown
      cases hm : v.hasMarkup with
      | false =>
        simp only [hm, Bool.and_false, Bool.false_eq_true, if_false] at hshown ⊢
        exact hshown
      | true => simpa [hm] using hshown
  | _ => exact .nothing s before {l} [t]

theorem Descends.attribute {a : Attribute Located} (ha : ∀ v ∈ a.children, v ∈ n.children)
    (hd : ∀ v ∈ a.children, v.height ≤ depth) (gs : List Guard) (i : Nat) :
    Performs s before {l} a.children
      (lowerAttribute adapter (lowerTo adapter depth) l gs none (a.map loc, i))
      ((attributeTasks s (a.map loc)).flatMap (Task.positions (positionsTo s depth) l)) := by
  rcases a with ⟨name, _ | _ | v | _⟩ | v
  case named.expression =>
    have hv : v ∈ n.children := ha v (by simp)
    have hs : s.Shows v := (h.shows le_rfl).child hv
    refine .read hs fun q hq => ?_
    simp only [Attribute.map, AttributeValue.map, attributeTasks, hs.hasMarkup, hq.hasMarkup]
    cases v.hasMarkup with
    | true => simpa [Task.positions] using hin.enter h hv (hd v (by simp)) .self gs
    | false => exact .nothing s before {l} [v]
  all_goals exact .nothing s before {l} _

theorem Descends.children {cs : List Located} (hcs : ∀ c ∈ cs, c ∈ n.children)
    (hd : ∀ c ∈ cs, c.height ≤ depth) (hn : ({l} + locsOf cs).Nodup) (gs : List Guard) :
    Performs s before {l} cs
      ((cs.map loc).foldlM (lowerChild adapter (lowerTo adapter depth) l gs) none)
      (((cs.map loc).flatMap (childTasks s)).flatMap (Task.positions (positionsTo s depth) l)) := by
  have hall : Performs s before {l} _ _ _ := Performs.foldlM (fun c : Located => [c])
    (f := fun o c => lowerChild adapter (lowerTo adapter depth) l gs o c.loc)
    (fun c hc => hin.child h (hcs c hc) (hd c hc) gs) (by simpa using hn)
  simpa [List.foldlM_map, List.flatMap_map, List.flatMap_assoc] using hall

theorem Descends.attributes {as : List (Attribute Located)}
    (has : ∀ v ∈ as.flatMap Attribute.children, v ∈ n.children)
    (hd : ∀ v ∈ as.flatMap Attribute.children, v.height ≤ depth)
    (hn : ({l} + locsOf (as.flatMap Attribute.children)).Nodup) (gs : List Guard) :
    Performs s before {l} (as.flatMap Attribute.children)
      ((as.map (Attribute.map loc)).zipIdx.foldlM
        (lowerAttribute adapter (lowerTo adapter depth) l gs) none)
      (((as.map (Attribute.map loc)).flatMap (attributeTasks s)).flatMap
        (Task.positions (positionsTo s depth) l)) := by
  have hzip {β : Type} (f : Attribute Located → List β) :
      as.zipIdx.flatMap (fun x => f x.1) = as.flatMap f := by
    conv_rhs => rw [← List.zipIdx_map_fst 0 as, List.flatMap_map]
  have hone (x : Attribute Located × Nat) (hx : x ∈ as.zipIdx) :
      Performs s before {l} x.1.children
        (lowerAttribute adapter (lowerTo adapter depth) l gs none (x.1.map loc, x.2))
        ((attributeTasks s (x.1.map loc)).flatMap (Task.positions (positionsTo s depth) l)) := by
    have hmem (v : Located) (hv : v ∈ x.1.children) : v ∈ as.flatMap Attribute.children :=
      List.mem_flatMap.2 ⟨x.1, List.fst_mem_of_mem_zipIdx hx, hv⟩
    exact hin.attribute h (fun v hv => has v (hmem v hv)) (fun v hv => hd v (hmem v hv)) gs x.2
  have hall := Performs.foldlM (fun x : Attribute Located × Nat => x.1.children)
    (f := fun o x => lowerAttribute adapter (lowerTo adapter depth) l gs o (x.1.map loc, x.2))
    hone (by rwa [hzip])
  rw [hzip, hzip fun a => (attributeTasks s (a.map loc)).flatMap
    (Task.positions (positionsTo s depth) l)] at hall
  rw [List.zipIdx_map, List.foldlM_map, List.flatMap_map, List.flatMap_assoc]
  exact hall

end

theorem Descends.lowerNode (hin : Descends adapter s before depth) :
    Descends adapter s before (depth + 1) := by
  intro gs t hd h
  obtain ⟨l, n⟩ := t
  have hs : s.Shows (.node l n) := h.shows le_rfl
  have hkid : ∀ c ∈ n.children, c.height ≤ depth := height_le_succ_iff.1 hd
  have hn : ({l} + locsOf n.children).Nodup := by
    have hnodup := h.nodup
    rwa [cells_node, Multiset.map_add, Multiset.map_singleton] at hnodup
  have part (front ts back : List Located) (hts : n.children = front ++ ts ++ back) :
      ({l} + locsOf ts).Nodup := by
    refine Multiset.nodup_of_le (Multiset.add_le_add_left ?_) hn
    rw [hts, locsOf_append, locsOf_append]
    exact (Multiset.le_add_left _ _).trans (Multiset.le_add_right _ _)
  -- the parts of the node lie in the node, and so does the node that holds them
  have whole (ts : List Located) {e : Lower (Option Owner)} {ps : List Position}
      (hts : ∀ t ∈ ts, t ∈ n.children) (hp : Performs s before {l} ts e ps) :
      Performs s before 0 [.node l n] e ps := by
    refine hp.mono (fun x hx => locsOf_subset (fun t ht => ?_) hx) fun x hx => ?_
    · exact ⟨_, List.mem_singleton_self _, .child (hts t ht) .self⟩
    · rw [Multiset.mem_singleton.1 hx, zero_add]
      exact mem_locsOf_of_occurs (List.mem_singleton_self _) .self
  have operand {v : Located} (hv : v ∈ n.children) (gs : List Guard) :=
    hin.operand h hv (hkid v hv) gs
  rw [loc_node, positionsTo, hs.get_root]
  refine .read hs fun q hq => ?_
  rw [hq.get_root]
  cases n with
  | element e =>
    obtain ⟨tag, as, cs, selfClosing⟩ := e
    have hleft := part [] (as.flatMap Attribute.children) cs rfl
    have hright := part (as.flatMap Attribute.children) cs []
      (List.append_nil _).symm
    have hmem : ∀ c ∈ cs, c ∈ Node.children (.element ⟨tag, as, cs, selfClosing⟩) :=
      fun c hc => List.mem_append_right _ hc
    have hmem' : ∀ v ∈ as.flatMap Attribute.children,
        v ∈ Node.children (.element ⟨tag, as, cs, selfClosing⟩) :=
      fun v hv => List.mem_append_left _ hv
    have hattributes := hin.attributes h hmem' (fun v hv => hkid v (hmem' v hv)) hleft gs
    have hchildren := hin.children h hmem (fun c hc => hkid c (hmem c hc)) hright gs
    have hboth := hattributes.bind (f := fun o => (cs.map loc).foldlM
      (lowerChild adapter (lowerTo adapter depth) l gs) o) hchildren hn
    rw [← List.flatMap_append] at hboth
    exact whole _ (fun t ht => ht) hboth
  | fragment cs => exact whole _ (fun t ht => ht) (hin.children h (fun c hc => hc) hkid hn gs)
  | conditional test yes no =>
    have hyes := operand (v := yes) (by simp [Node.children]) (gs ++ [.whenTrue test.loc])
    have hno := operand (v := no) (by simp [Node.children]) (gs ++ [.whenFalse test.loc])
    have hboth := hyes.bind (f := fun o => lowerOperand adapter (lowerTo adapter depth) l no.loc
      (gs ++ [.whenFalse test.loc]) o) hno (part [test] _ [] rfl)
    rw [← List.flatMap_append] at hboth
    exact whole _ (by simp [Node.children]) hboth
  | logical op left right =>
    exact whole [right] (by simp [Node.children]) (operand (by simp [Node.children]) _)
  | paren inner =>
    exact whole [inner] (by simp [Node.children]) (operand (by simp [Node.children]) _)
  | _ => exact .nothing s before 0 _

theorem lowerTo_descends (adapter : Adapter) (s : Store) (before : List Site) (depth : Nat) :
    Descends adapter s before depth := by
  induction depth with
  | zero => exact fun gs t ht => absurd ht (Nat.not_le.2 (height_pos t))
  | succ depth ih => exact ih.lowerNode

/-! ### Whole runs -/

theorem lowerRootSite_elsewhere (adapter : Adapter) {m : Mapping} (hm : m.Valid)
    (h : s.Owns m.tree.cells)
    (a : Allocator) (before : List Site) :
    ∃ p', Runs (lowerRootSite adapter s.size m.candidate) ⟨s, a, before⟩ () p' ∧
      ∀ l : Loc, l.index < s.size → ¬ s.Reaches m.call l → p'.store.get l = s.get l := by
  obtain ⟨t', p', loops, hrun, -, hown, -⟩ :=
    @lowerRootSite_runs adapter s a before [] m _ hm h.whole
  refine ⟨p', hrun, fun l hl hout => hown.get ⟨l, s.get l⟩ (Multiset.mem_add.2 (.inr ?_))⟩
  refine Store.mem_others hl fun hin => hout ?_
  refine ((h.shows le_rfl).reaches_iff_mem (t := m.tree)).2 ?_
  rw [locsOf, cellsOf_cons, cellsOf_nil, add_zero]
  exact hin

theorem scan_of_no_markup {t : Located} (hs : s.Shows t) (hm : t.hasMarkup = false)
    {reason : Mismatch} (hc : candidateTree? t = .error reason) : scan s t.loc = [] := by
  have hwhole : LowersWhole Adapter.wechat 0 ⟨0⟩ t t ⟨0⟩ [] :=
    .inside hc (.of_no_markup ⟨⟨0⟩, [], none⟩ hm)
  obtain ⟨ordered, hperm, hfound, -⟩ := hwhole.discovers (.of_shows hs) hs.deep
  rw [hperm.eq_nil, List.forall₂_nil_left_iff] at hfound
  cases hscan : scan s t.loc with
  | nil => rfl
  | cons f fs =>
    obtain ⟨c, leading, nested⟩ := f
    simp [hscan, numberedAll, Found.numbered] at hfound

/-- A location that is in none of the loops below a root. -/
def Outside (s : Store) (root l : Loc) : Prop :=
  ∀ f ∈ scan s root, ¬ s.Reaches f.candidate.call l

/-- Where the root is no loop, wrappers are put at the positions, and this is all that is done to
the nodes outside of loops. -/
theorem lowerLoops_moves (adapter : Adapter) {root : Loc} (h : s.IsTree root) (a : Allocator)
    (before : List Site) {reason : Mismatch} (hc : candidate? s root = .error reason) :
    Confined s 0 [s.treeAt root] (positions s root) ∧
    ∃ moves p', moves.map Prod.fst = positions s root ∧ Stands s before moves p' ∧
      (positions s root = [] → p' = ⟨s, a, before⟩) ∧
      lowerLoops adapter root ⟨s, a, before⟩ =
        let sites := p'.sites.mergeSort fun x y => x.id ≤ y.id
        (sites.length - before.length, { p' with sites }) := by
  have hown := h.owns_treeAt
  have hs : s.Shows (s.treeAt root) := hown.shows le_rfl
  have hpositions : positions s root = positionsTo s s.size root := by rw [positions, hc]
  obtain ⟨hconfined, hruns⟩ := lowerTo_descends adapter s before s.size [] hs.deep hown
  rw [Store.loc_treeAt] at hconfined hruns
  rw [hpositions]
  refine ⟨hconfined, ?_⟩
  cases hm : s.hasMarkup root with
  | true =>
    obtain ⟨moves, p', hrun, hmoves, hstands, hsame⟩ :=
      hruns [] ⟨s, a, before⟩ (.start s a before) (by simp [Untouched])
    refine ⟨moves, p', hmoves, hstands, hsame, lowerLoops_sorted ?_⟩
    simp only [hc, hm, if_true]
    exact (hrun.map _).bind (.pure _ _)
  | false =>
    have hnone : positionsTo s s.size root = [] := by
      have hscan := scan_of_no_markup hs (by rw [← hs.hasMarkup, Store.loc_treeAt, hm])
        (by rw [← candidate?_eq hs, Store.loc_treeAt, hc])
      have hmap := map_candidate_scan hc
      rw [Store.loc_treeAt] at hscan
      rw [hscan, hpositions] at hmap
      exact List.map_eq_nil_iff.1 hmap.symm
    rw [hnone]
    refine ⟨[], ⟨s, a, before⟩, rfl, .start s a before, fun _ => rfl, lowerLoops_sorted ?_⟩
    simp only [hc, hm]
    exact .pure _ _

/-- A run changes nothing outside of the loops that it finds, but that a node which showed a loop
holds the wrapper of the loop in its place. Where it finds none, it only puts the sites in order. -/
theorem lowerLoops_elsewhere (adapter : Adapter) {root : Loc} (h : s.IsTree root) (a : Allocator)
    (before : List Site) :
    let r := lowerLoops adapter root ⟨s, a, before⟩
    ((∃ c, candidate? s root = .ok c ∧ positions s root = []) ∨
      (scan s root).map Found.candidate = (positions s root).map Position.candidate) ∧
    (∀ x ∈ positions s root, x.child ∈ (s.get x.holder).children ∧ Outside s root x.holder) ∧
    (∃ moves new, moves.map Prod.fst = positions s root ∧
      (moves ≠ [] → r.2.sites = (before ++ new).mergeSort fun x y => x.id ≤ y.id) ∧
      (∀ m ∈ moves, s.size ≤ m.2.index ∧ ∃ site ∈ new,
        site.mappingCall = m.1.candidate.call ∧ site.wrapper = m.2) ∧
      ∀ l : Loc, l.index < s.size → Outside s root l →
        r.2.store.get l = (s.get l).map (redirect moves l)) ∧
    (scan s root = [] → r = (0, ⟨s, a, before.mergeSort fun x y => x.id ≤ y.id⟩)) := by
  have hown := h.owns_treeAt
  have hs : s.Shows (s.treeAt root) := hown.shows le_rfl
  cases hc : candidate? s root with
  | ok c =>
    have hnone : positions s root = [] := by rw [positions, hc]
    have hscan : scan s root = [scanLoop s (scanTo s s.size) c] := by rw [scan, hc]
    rw [← s.loc_treeAt root, candidate?_eq hs] at hc
    obtain ⟨parens, m, htree, hm, rfl⟩ := candidateTree?_eq_ok hc
    have hcall : Occurs m.tree (s.treeAt root) := htree ▸ occurs_inParens parens m.tree
    obtain ⟨p', hrun, hsame⟩ := lowerRootSite_elsewhere adapter hm
      (hown.mono hcall.cells_le) a before
    rw [← candidate?_eq hs, Store.loc_treeAt] at hc
    have hr := @lowerLoops_sorted adapter root ⟨s, a, before⟩ p' (by simpa only [hc] using hrun)
    refine ⟨.inl ⟨_, rfl, hnone⟩, by simp [hnone], ⟨[], [], hnone.symm, by simp, by simp, ?_⟩, ?_⟩
    · intro l hl hout
      have hfree : ¬ s.Reaches m.call l := by
        refine hout (scanLoop s (scanTo s s.size) m.candidate) ?_
        rw [hscan]
        exact List.mem_singleton_self _
      rw [hr]
      exact (hsame l hl hfree).trans (Node.map_id (s.get l)).symm
    · intro hnil
      rw [hscan] at hnil
      cases hnil
  | error reason =>
    have hmap := map_candidate_scan hc
    obtain ⟨hconfined, moves, p', hmoves, hstands, hsame, hr⟩ :=
      lowerLoops_moves adapter h a before hc
    have hout {l : Loc} : Outside s root l ↔
        ∀ x ∈ positions s root, ¬ s.Reaches x.candidate.call l := by
      rw [Outside, ← List.forall_mem_map (f := Found.candidate) (P :=
        fun c => ¬ s.Reaches c.call l),
        hmap, List.forall_mem_map]
    obtain ⟨new, hsites, hnew⟩ := hstands.sites
    rw [hr]
    refine ⟨.inr hmap, fun x hx => ⟨hconfined.child x hx, hout.2 (hconfined.outside x hx)⟩,
      ⟨moves, new, hmoves, fun _ => by rw [← hsites], fun m hm => ⟨(hstands.old m hm).2, hnew m hm⟩,
        fun l hl hfree => hstands.get l hl fun m hm => ?_⟩, fun hnil => ?_⟩
    · exact hout.1 hfree m.1 (hmoves ▸ List.mem_map_of_mem hm)
    · rw [hnil, List.map_nil] at hmap
      rw [hsame (List.map_eq_nil_iff.1 hmap.symm)]
      simp

theorem nestedLoops_elsewhere :
    let s := nestedLoops
    let r := lowerLoops .wechat ⟨22⟩ ⟨s, ⟨0⟩, []⟩
    s.IsTree ⟨22⟩ ∧
    ((∃ c, candidate? s ⟨22⟩ = .ok c ∧ positions s ⟨22⟩ = []) ∨
      (scan s ⟨22⟩).map Found.candidate = (positions s ⟨22⟩).map Position.candidate) ∧
    (∀ x ∈ positions s ⟨22⟩, x.child ∈ (s.get x.holder).children ∧ Outside s ⟨22⟩ x.holder) ∧
    (∃ moves new, moves.map Prod.fst = positions s ⟨22⟩ ∧
      (moves ≠ [] → r.2.sites = ([] ++ new).mergeSort fun x y => x.id ≤ y.id) ∧
      (∀ m ∈ moves, s.size ≤ m.2.index ∧ ∃ site ∈ new,
        site.mappingCall = m.1.candidate.call ∧ site.wrapper = m.2) ∧
      ∀ l : Loc, l.index < s.size → Outside s ⟨22⟩ l →
        r.2.store.get l = (s.get l).map (redirect moves l)) ∧
    (scan s ⟨22⟩ = [] → r = (0, ⟨s, ⟨0⟩, [].mergeSort fun x y => x.id ≤ y.id⟩)) :=
  ⟨nestedLoops_isTree, lowerLoops_elsewhere .wechat nestedLoops_isTree ⟨0⟩ []⟩

/-- Where there is no loop left, sites that are not in the order of their numbers do not stay as
they are. -/
theorem nestedLoops_reordered :
    let p := (lowerLoops .wechat ⟨22⟩ ⟨nestedLoops, ⟨0⟩, []⟩).2
    p.store.IsTree ⟨22⟩ ∧ scan p.store ⟨22⟩ = [] ∧
      (lowerLoops .wechat ⟨22⟩ { p with sites := p.sites.reverse }).2.sites ≠ p.sites.reverse := by
  obtain ⟨hids, hscan⟩ : let p := (lowerLoops .wechat ⟨22⟩ ⟨nestedLoops, ⟨0⟩, []⟩).2
      p.sites.reverse.map Site.id = [1, 0] ∧ scan p.store ⟨22⟩ = [] := by cbv
  have htree : (lowerLoops .wechat ⟨22⟩ ⟨nestedLoops, ⟨0⟩, []⟩).2.store.IsTree ⟨22⟩ :=
    isTree_lowerLoops .wechat nestedLoops_isTree (.inl (.refl _))
  generalize (lowerLoops .wechat ⟨22⟩ ⟨nestedLoops, ⟨0⟩, []⟩).2 = p at hids hscan htree
  refine ⟨htree, hscan, fun h => ?_⟩
  obtain ⟨_, p', loops, hrun, -, -, -, hsorted, -⟩ :=
    lowerLoops_runs .wechat htree.owns_treeAt p.allocator p.sites.reverse
  rw [Store.loc_treeAt] at hrun
  rw [show lowerLoops _ _ _ = (loops.length, p') from hrun] at h
  rw [h, ← List.pairwise_map (f := Site.id) (R := (· ≤ ·)), hids] at hsorted
  simp at hsorted

end JsxLoops.Loop
