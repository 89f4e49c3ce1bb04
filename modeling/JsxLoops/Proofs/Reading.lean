import JsxLoops.Tree.Markup
import JsxLoops.Tree.Scope
import JsxLoops.Proofs.Ownership

/-!
Reading a tree. What a store tells about a location is a function of the tree that hangs there:
each way of reading a store is repeated here as a fold over trees, and the two agree wherever the
store shows the tree. Nothing else that the store holds matters.
-/

namespace JsxLoops.Tree

open Located

variable {α β : Type}

theorem Store.Shows.read_eq_fold [Inhabited β] {s : Store} {t : Located} (h : s.Shows t)
    {rule : (Loc → α) → Loc → Node Loc → α} {stop : α} {f : Loc → Node Located → Node β → β}
    (view : β → α)
    (hrule : ∀ inside l n m, s.Shows (.node l n) →
      n.map (fun c => inside c.loc) = m.map view → rule inside l (n.map loc) = view (f l n m)) :
    s.read rule stop t.loc = view (fold f t) := by
  suffices visit : ∀ d, t.height ≤ d → s.visit rule stop d t.loc = view (fold f t) from
    visit s.size h.deep
  induction t using induct with
  | node l n ih =>
    intro d hd
    obtain ⟨d, rfl⟩ : ∃ k, d = k + 1 := ⟨d - 1, by have := height_pos (.node l n); omega⟩
    rw [loc_node, Store.visit, h.get_root, fold_node]
    refine hrule _ l n _ h ?_
    let : Inhabited α := ⟨view default⟩
    rw [Node.map_map]
    exact Node.map_congr fun c hc =>
      ih c hc (h.child hc) d (height_le_succ_iff.1 hd c hc)

theorem Store.Shows.read_eq_fold_self [Inhabited α] {s : Store} {t : Located} (h : s.Shows t)
    {rule : (Loc → α) → Loc → Node Loc → α} {stop : α} {f : Loc → Node Located → Node α → α}
    (hrule : ∀ inside l n, s.Shows (.node l n) →
      rule inside l (n.map loc) = f l n (n.map fun c => inside c.loc)) :
    s.read rule stop t.loc = fold f t :=
  h.read_eq_fold id fun inside l n m hn hm => by
    rw [Node.map_id] at hm
    rw [hrule inside l n hn, hm, id]

/-! ### Parentheses -/

namespace Located

/-- The tree under any number of parentheses. -/
def strip : Located → Located := fold fun l n m => match m with
  | .paren inner => inner
  | _ => .node l n

/-- A tree in parentheses, the outermost first. -/
def inParens (ps : List Loc) (t : Located) : Located := ps.foldr (fun l t => .node l (.paren t)) t

def Bare (t : Located) : Prop := ∀ inner, t.here ≠ .paren inner

@[elab_as_elim] theorem induct_parens {P : Located → Prop}
    (paren : ∀ l inner, P inner → P (.node l (.paren inner)))
    (bare : ∀ l n, (Located.node l n).Bare → P (.node l n)) (t : Located) : P t := by
  induction t using induct with
  | node l n ih =>
    by_cases hn : ∃ inner, n = .paren inner
    · obtain ⟨inner, rfl⟩ := hn
      exact paren l inner (ih inner (List.mem_singleton_self _))
    · exact bare l n fun inner he => hn ⟨inner, he⟩

theorem strip_paren (l : Loc) (t : Located) : (node l (.paren t)).strip = t.strip :=
  fold_node _ l _

theorem Bare.strip {t : Located} (h : t.Bare) : t.strip = t := by
  obtain ⟨l, n⟩ := t
  rw [Located.strip, fold_node]
  cases n with
  | paren inner => exact absurd rfl (h inner)
  | _ => rfl

theorem bare_strip (t : Located) : t.strip.Bare := by
  induction t using induct_parens with
  | paren l inner ih =>
    rw [strip_paren]
    exact ih
  | bare l n hb =>
    rw [hb.strip]
    exact hb

theorem strip_inParens (ps : List Loc) (t : Located) : (inParens ps t).strip = t.strip := by
  induction ps with
  | nil => rfl
  | cons l ps ih => exact (strip_paren l _).trans ih

theorem exists_inParens (t : Located) : ∃ ps, t = inParens ps t.strip := by
  induction t using induct_parens with
  | paren l inner ih =>
    obtain ⟨ps, hps⟩ := ih
    refine ⟨l :: ps, ?_⟩
    rw [strip_paren]
    exact congrArg (fun u => node l (.paren u)) hps
  | bare l n hb =>
    refine ⟨[], ?_⟩
    rw [hb.strip]
    rfl

theorem occurs_inParens (ps : List Loc) (t : Located) : Occurs t (inParens ps t) := by
  induction ps with
  | nil => exact .self
  | cons l ps ih => exact .child (List.mem_singleton_self _) ih

@[simp] theorem loc_inParens (ps : List Loc) (t : Located) :
    (inParens ps t).loc = ps.headD t.loc := by
  cases ps <;> rfl

def parenCells : List Loc → Loc → Multiset Cell
  | [], _ => 0
  | p :: ps, l => {⟨p, .paren (ps.headD l)⟩} + parenCells ps l

theorem cells_inParens (ps : List Loc) (t : Located) :
    (inParens ps t).cells = parenCells ps t.loc + t.cells := by
  induction ps with
  | nil => exact (zero_add _).symm
  | cons p ps ih =>
    show (node p (.paren (inParens ps t))).cells = _
    rw [cells_node, Node.map, loc_inParens, Node.children, cellsOf_cons, cellsOf_nil, add_zero, ih,
      parenCells, add_assoc]

theorem occurs_strip (t : Located) : Occurs t.strip t := by
  obtain ⟨ps, hps⟩ := exists_inParens t
  nth_rewrite 2 [hps]
  exact occurs_inParens ps _

end Located

theorem Store.Shows.stripParens {s : Store} {t : Located} (h : s.Shows t) :
    s.stripParens t.loc = t.strip.loc := by
  refine h.read_eq_fold loc fun inside l n m _ hm => ?_
  cases n with
  | paren inner =>
    cases m <;> simp only [Node.map, Node.paren.injEq, reduceCtorEq] at hm
    exact hm
  | _ => cases m <;> first | rfl | simp only [Node.map, reduceCtorEq] at hm

theorem Store.Shows.strip {s : Store} {t : Located} (h : s.Shows t) : s.Shows t.strip :=
  h.occurs (occurs_strip t)

/-! ### Markup, returns and static paths -/

namespace Located

/-- Whether there is markup in the tree. -/
def hasMarkup : Located → Bool := fold fun _ _ m => match m with
  | .element _ | .fragment _ => true
  | .verbatim code => code.hasMarkup
  | m => m.children.any id

/-- Whether the tree returns from the function it stands in. -/
def returns : Located → Bool := fold fun _ _ m => match m with
  | .returning _ => true
  | .verbatim code => code.hasReturn
  | .lambda _ => false
  | m => m.children.any id

def markup : Located → List Loc := fold fun l n m =>
  if n.isMarkup then [l] else m.children.flatMap id

/-- The root name and the properties of a chain of plain members. -/
def staticPath : Located → Option (String × List String) := fold fun _ _ m => match m with
  | .paren inner => inner
  | .name name => some (name, [])
  | .member object property false =>
    object.map fun (root, properties) => (root, properties ++ [property])
  | _ => none

end Located

theorem any_children_map (f : α → β) (g : β → Bool) (n : Node α) :
    (n.map f).children.any g = (n.map fun a => g (f a)).children.any id := by
  simp [Function.comp_def]

theorem Store.Shows.hasMarkup {s : Store} {t : Located} (h : s.Shows t) :
    s.hasMarkup t.loc = t.hasMarkup := by
  refine h.read_eq_fold_self fun inside l n _ => ?_
  have below := any_children_map loc inside n
  cases n <;> first | rfl | exact below

theorem Store.Shows.returnsAt {s : Store} {t : Located} (h : s.Shows t) :
    s.returnsAt t.loc = t.returns := by
  refine h.read_eq_fold_self fun inside l n _ => ?_
  have below := any_children_map loc inside n
  cases n <;> first | rfl | exact below

theorem Store.Shows.markupAt {s : Store} {t : Located} (h : s.Shows t) :
    s.markupAt t.loc = t.markup := by
  refine h.read_eq_fold_self fun inside l n _ => ?_
  simp [List.flatMap_map]

theorem Store.Shows.staticPath {s : Store} {t : Located} (h : s.Shows t) :
    s.staticPath t.loc = t.staticPath := by
  refine h.read_eq_fold_self fun inside l n _ => ?_
  cases n with
  | member object property optional => cases optional <;> rfl
  | _ => rfl

/-! ### Scopes and mentions -/

def Node.declared : Node α → List String
  | .declaration _ declarators => declarators.flatMap fun d => d.binder.names
  | _ => []

/-- The mentions in a content, when those of the children are known. -/
def Content.mentions (l : Loc) : Content (List Mention) → List Mention
  | .code v => v.openMentions.map (⟨l, ·⟩)
  | .child inside => inside

/-- The mentions in a node, when those of its children are known. -/
def Node.mentions (l : Loc) : Node (List Mention) → List Mention
  | .name s => [⟨l, s⟩]
  | .verbatim code => code.openMentions.map (⟨l, ·⟩)
  | n => n.contents.flatMap (Content.mentions l)

namespace Located

def declaredBy (statements : List Located) : List String :=
  statements.flatMap fun t => t.here.declared

/-- The names that a node binds for what stands in it. -/
def scopeOf : Node Located → List String
  | .lambda f =>
    f.boundNames ++ match f.body with
      | .block statements => declaredBy statements
      | .value _ => []
  | .block statements => declaredBy statements
  | _ => []

def freeMentions : Located → List Mention := fold fun l n m =>
  (m.mentions l).filter fun x => !(scopeOf n).contains x.name

def freeNames (t : Located) : List String := (t.freeMentions.map Mention.name).eraseDups

end Located

theorem Store.Shows.declaredNames {s : Store} {ts : List Located} (h : ∀ t ∈ ts, s.Shows t) :
    s.declaredNames (ts.map loc) = declaredBy ts := by
  rw [Store.declaredNames, declaredBy, List.flatMap_map]
  refine List.flatMap_congr fun t ht => ?_
  obtain ⟨l, n⟩ := t
  rw [loc_node, (h _ ht).get_root]
  cases n <;> simp [Node.map, Node.declared, List.flatMap_map]

theorem Store.Shows.scopeNames {s : Store} {l : Loc} {n : Node Located} (h : s.Shows (.node l n)) :
    s.scopeNames (n.map loc) = scopeOf n := by
  cases n with
  | lambda f =>
    obtain ⟨form, isAsync, generator, params, v | body⟩ := f
    · rfl
    · have hb : s.declaredNames (body.map loc) = declaredBy body :=
        declaredNames fun t ht => h.child ht
      simp only [Node.map, Body.map, Store.scopeNames, scopeOf, hb]
      rfl
  | block statements => exact declaredNames fun t ht => h.child ht
  | _ => rfl

theorem Node.flatMap_contents_map {γ : Type} (f : α → β) (g : Content β → List γ) (n : Node α) :
    (n.map f).contents.flatMap g = n.contents.flatMap fun c => match c with
      | .code code => g (.code code)
      | .child a => g (.child (f a)) := by
  have codes (b : Binder) : (b.contents : List (Content β)).flatMap g =
      (b.contents : List (Content α)).flatMap fun c => match c with
        | .code code => g (.code code)
        | .child a => g (.child (f a)) := by
    cases b <;> simp [Binder.contents, Binder.code?]
  have kids (n : Node α) : ((n.map f).children.map Content.child).flatMap g =
      (n.children.map Content.child).flatMap fun c => match c with
        | .code code => g (.code code)
        | .child a => g (.child (f a)) := by
    simp [List.flatMap_map]
  cases n with
  | lambda l =>
    simp only [Node.map, Node.contents, List.flatMap_append, List.flatMap_assoc, codes]
    rw [Body.children_map]
    simp [List.flatMap_map]
  | declaration keyword ds =>
    simp only [Node.map, Node.contents, List.flatMap_assoc, List.flatMap_append, List.flatMap_map,
      codes]
    refine List.flatMap_congr fun d _ => ?_
    cases d.value <;> simp
  | _ => exact kids _

theorem Store.Shows.freeMentions {s : Store} {t : Located} (h : s.Shows t) :
    s.freeMentions t.loc = t.freeMentions := by
  refine h.read_eq_fold_self fun inside l n hn => ?_
  rw [hn.scopeNames]
  congr 1
  have below := Node.flatMap_contents_map (fun c : Located => inside c.loc) (Content.mentions l) n
  cases n <;> first | rfl | exact (Node.flatMap_contents_map loc _ _).trans below.symm

theorem Store.Shows.freeNames {s : Store} {t : Located} (h : s.Shows t) :
    s.freeNames t.loc = t.freeNames := by
  rw [Store.freeNames, h.freeMentions, Located.freeNames]

end JsxLoops.Tree
