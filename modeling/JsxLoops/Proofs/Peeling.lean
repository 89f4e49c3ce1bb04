import JsxLoops.Proofs.Erasure
import JsxLoops.Proofs.Scan
import Mathlib

/-!
Trees without their parentheses. `Located.peeled` takes away every pair of parentheses around an
expression; one pair stays around a mapping call that is the value of an attribute, since a call is
lowered there only if it stands in some. What is read of a tree, whether it is a mapping call and
how it is renamed is the same for the peeled tree, and putting expressions into parentheses does
not change the peeled tree.
-/

namespace JsxLoops.Tree

open Located

variable {α β γ : Type}

/-! ### Children by where they stand -/

def Body.mapAt (expression other : α → β) : Body α → Body β
  | .value v => .value (expression v)
  | .block statements => .block (statements.map other)

def Attribute.mapAt (expression value : α → β) : Attribute α → Attribute β
  | .named name v => .named name (v.map value)
  | .spread v => .spread (expression v)

/-- Changes every child by where it stands: as an expression, as the value of an attribute, or as a
child of markup or a statement. -/
def Node.mapAt (expression value other : α → β) : Node α → Node β
  | .lambda f => .lambda ⟨f.form, f.isAsync, f.generator, f.params, f.body.mapAt expression other⟩
  | .element e =>
    .element ⟨e.tag, e.attributes.map (Attribute.mapAt expression value), e.children.map other,
      e.selfClosing⟩
  | .fragment children => .fragment (children.map other)
  | .branch test yes no => .branch (expression test) (other yes) (no.map other)
  | .block statements => .block (statements.map other)
  | n => n.map expression

def Node.uniform : Node α → Bool
  | .lambda _ | .element _ | .fragment _ | .branch _ _ _ | .block _ => false
  | _ => true

namespace Node

variable {e v o : α → β} {n m : Node α}

theorem uniform_mapAt : (n.mapAt e v o).uniform = n.uniform := by
  cases n <;> rfl

theorem mapAt_of_uniform (h : n.uniform = true) : n.mapAt e v o = n.map e := by
  cases n <;> first | rfl | cases h

theorem map_eq_of_mapAt {k : Node β} (h : n.mapAt e v o = k) (hk : k.uniform = true) :
    n.map e = k := by
  subst h
  rw [uniform_mapAt] at hk
  exact (mapAt_of_uniform hk).symm

end Node

theorem Body.mapAt_self (f : α → β) (b : Body α) : b.mapAt f f = b.map f := by
  cases b <;> rfl

theorem Attribute.mapAt_self (f : α → β) (a : Attribute α) : a.mapAt f f = a.map f := by
  cases a <;> rfl

theorem Node.mapAt_self (f : α → β) (n : Node α) : n.mapAt f f f = n.map f := by
  cases n with
  | lambda g => simp only [mapAt, map, Body.mapAt_self]
  | element e => simp only [mapAt, map, funext (Attribute.mapAt_self f)]
  | _ => rfl

theorem Body.mapAt_mapAt (e o : α → β) (e' o' : β → γ) (b : Body α) :
    (b.mapAt e o).mapAt e' o' = b.mapAt (fun c => e' (e c)) fun c => o' (o c) := by
  cases b <;> simp [mapAt, Function.comp_def]

theorem Attribute.mapAt_mapAt (e v : α → β) (e' v' : β → γ) (a : Attribute α) :
    (a.mapAt e v).mapAt e' v' = a.mapAt (fun c => e' (e c)) fun c => v' (v c) := by
  cases a <;> simp [mapAt]

theorem Node.mapAt_mapAt (e v o : α → β) (e' v' o' : β → γ) (n : Node α) :
    (n.mapAt e v o).mapAt e' v' o' =
      n.mapAt (fun c => e' (e c)) (fun c => v' (v c)) fun c => o' (o c) := by
  cases h : n.uniform with
  | true =>
    have h' : (n.mapAt e v o).uniform = true := uniform_mapAt.trans h
    rw [mapAt_of_uniform h', mapAt_of_uniform h, mapAt_of_uniform h, map_map]
  | false =>
    cases n with
    | lambda g => simp only [mapAt, Body.mapAt_mapAt]
    | element e => simp only [mapAt, List.map_map, Function.comp_def, Attribute.mapAt_mapAt]
    | fragment | block => simp only [mapAt, List.map_map, Function.comp_def]
    | branch test yes no => simp only [mapAt, Option.map_map, Function.comp_def]
    | _ => cases h

theorem Node.map_mapAt (e v o : α → β) (f : β → γ) (n : Node α) :
    (n.mapAt e v o).map f = n.mapAt (fun c => f (e c)) (fun c => f (v c)) fun c => f (o c) := by
  rw [← mapAt_self, mapAt_mapAt]

theorem Node.mapAt_map (f : α → β) (e v o : β → γ) (n : Node α) :
    (n.map f).mapAt e v o = n.mapAt (fun c => e (f c)) (fun c => v (f c)) fun c => o (f c) := by
  rw [← mapAt_self, mapAt_mapAt]

theorem Node.mapAt_congr [Inhabited β] {e v o e' v' o' : α → β} {n : Node α}
    (h : ∀ c ∈ n.children, e c = e' c ∧ v c = v' c ∧ o c = o' c) :
    n.mapAt e v o = n.mapAt e' v' o' := by
  have hmap : n.map (fun c => (e c, v c, o c)) = n.map fun c => (e' c, v' c, o' c) :=
    Node.map_congr fun c hc => by
      obtain ⟨he, hv, ho⟩ := h c hc
      rw [he, hv, ho]
  have hparts := congrArg (Node.mapAt Prod.fst (fun p => p.2.1) fun p => p.2.2) hmap
  rwa [mapAt_map, mapAt_map] at hparts

theorem Node.mapAt_congr_values [Inhabited β] {e v o e' v' o' : α → β} {n : Node α}
    (h : ∀ c ∈ n.children, e c = e' c ∧ o c = o' c)
    (hv : ∀ el, n = .element el → ∀ name c, .named name (.expression c) ∈ el.attributes →
      v c = v' c) :
    n.mapAt e v o = n.mapAt e' v' o' := by
  have hsame : n.mapAt e e o = n.mapAt e' e' o' := mapAt_congr fun c hc =>
    ⟨(h c hc).1, (h c hc).1, (h c hc).2⟩
  cases n with
  | element el =>
    have hattributes : el.attributes.map (Attribute.mapAt e v) =
        el.attributes.map (Attribute.mapAt e' v') := List.map_congr_left fun a ha => by
      rcases a with ⟨name, _ | _ | c | _⟩ | c
      case named.expression =>
        simp only [Attribute.mapAt, AttributeValue.map, hv el rfl name c ha]
      case spread =>
        have hc : c ∈ (Node.element el).children :=
          List.mem_append.2 (.inl (List.mem_flatMap.2 ⟨_, ha, List.mem_singleton_self c⟩))
        simp only [Attribute.mapAt, (h c hc).1]
      all_goals rfl
    have hchildren : el.children.map o = el.children.map o' := List.map_congr_left fun c hc =>
      (h c (List.mem_append.2 (.inr hc))).2
    simp only [mapAt, hattributes, hchildren]
  | _ => exact hsame

@[simp] theorem Node.isMarkup_mapAt (e v o : α → β) (n : Node α) :
    (n.mapAt e v o).isMarkup = n.isMarkup := by
  cases n <;> rfl

theorem Node.declared_mapAt (e v o : α → β) (n : Node α) :
    (n.mapAt e v o).declared = n.declared := by
  rw [← Loop.Node.declared_map fun _ => (), map_mapAt, mapAt_self, Loop.Node.declared_map]

theorem Node.renameHere_mapAt (e v o : α → β) (a b : String) (n : Node α) :
    (n.mapAt e v o).renameHere a b = (n.renameHere a b).mapAt e v o := by
  cases h : n.uniform with
  | true =>
    have hr : (n.renameHere a b).uniform = true := by cases n <;> first | rfl | cases h
    rw [mapAt_of_uniform h, mapAt_of_uniform hr, Node.renameHere_map]
  | false => cases n <;> first | rfl | cases h

/-- The tree under any number of parentheses. -/
def Subtree.strip : Subtree → Subtree
  | .node (.paren t) => strip t
  | t => t

theorem Located.strip_erase (t : Located) : t.erase.strip = t.strip.erase := by
  induction t using induct_parens with
  | paren l inner ih =>
    rw [strip_paren, ← ih, erase_node]
    rfl
  | bare l n hb =>
    rw [hb.strip, erase_node]
    cases n <;> first | rfl | exact absurd rfl (hb _)

end JsxLoops.Tree

namespace JsxLoops.Tree.Located

open JsxLoops.Loop

variable {β : Type} [Inhabited β] {t u : Located}

/-! ### Taking parentheses away -/

/-- The tree under its parentheses, with one pair left around a mapping call. -/
def onlyPair (t : Located) : Located :=
  if (candidateTree? t).isOk then
    match t.here with
    | .paren _ => .node t.loc (.paren t.strip)
    | _ => t
  else t.strip

/-- The tree without the parentheses around the expressions in it. One pair stays around a mapping
call that is the value of an attribute. -/
def peeled : Located → Located := fold fun l _ m => .node l (m.mapAt strip onlyPair id)

theorem onlyPair_paren (l : Loc) (t : Located) : (node l (.paren t)).onlyPair =
    if (candidateTree? t).isOk then .node l (.paren t.strip) else t.strip := by
  rw [onlyPair, candidateTree?_paren, strip_paren]
  rfl

theorem onlyPair_of_bare (h : t.Bare) : t.onlyPair = t := by
  rw [onlyPair]
  split
  · split
    · exact absurd ‹_› (h _)
    · rfl
  · exact h.strip

theorem strip_onlyPair (t : Located) : t.onlyPair.strip = t.strip := by
  by_cases hn : ∃ l inner, t = .node l (.paren inner)
  · obtain ⟨l, inner, rfl⟩ := hn
    rw [onlyPair_paren, strip_paren]
    split
    · rw [strip_paren, (bare_strip inner).strip]
    · exact (bare_strip inner).strip
  · rw [onlyPair_of_bare fun inner he => hn ⟨t.loc, inner, by rw [← he, eta]⟩]

theorem peeled_paren (l : Loc) (t : Located) :
    (node l (.paren t)).peeled = .node l (.paren t.peeled.strip) :=
  fold_node _ l _

theorem Bare.peeled (h : t.Bare) : t.peeled.Bare := by
  obtain ⟨l, n⟩ := t
  rw [Located.peeled, fold_node]
  cases n with
  | paren inner => exact absurd rfl (h inner)
  | _ => exact fun inner hn => by cases hn

theorem bare_peeled_iff : t.peeled.Bare ↔ t.Bare := by
  refine ⟨fun h inner hn => ?_, Bare.peeled⟩
  obtain ⟨l, n⟩ := t
  obtain rfl : n = .paren inner := hn
  rw [peeled_paren] at h
  exact h _ rfl

theorem strip_peeled (t : Located) : t.peeled.strip = t.strip.peeled := by
  induction t using induct_parens with
  | paren l inner ih =>
    rw [peeled_paren, strip_paren, strip_paren, ← ih]
    exact (bare_strip _).strip
  | bare l n hb => rw [hb.strip, hb.peeled.strip]

theorem peeled_node (l : Loc) (n : Node Located) : (node l n).peeled =
    node l (n.mapAt (fun c => c.strip.peeled) (fun c => c.peeled.onlyPair) peeled) := by
  rw [show (node l n).peeled = node l ((n.map peeled).mapAt strip onlyPair id) from
    fold_node _ l n, Node.mapAt_map]
  simp only [id_eq, strip_peeled]

theorem here_peeled (t : Located) : t.peeled.here =
    t.here.mapAt (fun c => c.strip.peeled) (fun c => c.peeled.onlyPair) peeled := by
  obtain ⟨l, n⟩ := t
  rw [peeled_node, here_node, here_node]

/-! ### What is read of a peeled tree -/

theorem fold_strip {f : Node β → β} (hf : ∀ b, f (.paren b) = b) (t : Located) :
    fold (fun _ _ => f) t.strip = fold (fun _ _ => f) t := by
  induction t using induct_parens with
  | paren l inner ih =>
    rw [strip_paren, ih, fold_node (fun _ _ => f) l]
    exact (hf _).symm
  | bare l n hb => rw [hb.strip]

theorem fold_peeled {f : Node β → β} (hf : ∀ b, f (.paren b) = b) (t : Located) :
    fold (fun _ _ => f) t.peeled = fold (fun _ _ => f) t := by
  induction t using induct with
  | node l n ih =>
    rw [peeled_node, fold_node, fold_node, Node.map_mapAt, ← Node.mapAt_self]
    congr 1
    refine Node.mapAt_congr fun c hc => ⟨?_, ?_, ih c hc⟩
    · rw [← strip_peeled, fold_strip hf, ih c hc]
    · rw [← fold_strip hf, strip_onlyPair, fold_strip hf, ih c hc]

@[simp] theorem hasMarkup_peeled (t : Located) : t.peeled.hasMarkup = t.hasMarkup :=
  fold_peeled (fun b => Bool.or_false b) t

@[simp] theorem hasMarkup_strip (t : Located) : t.strip.hasMarkup = t.hasMarkup :=
  fold_strip (fun b => Bool.or_false b) t

@[simp] theorem returns_peeled (t : Located) : t.peeled.returns = t.returns :=
  fold_peeled (fun b => Bool.or_false b) t

@[simp] theorem staticPath_peeled (t : Located) : t.peeled.staticPath = t.staticPath :=
  fold_peeled (fun _ => rfl) t

@[simp] theorem staticPath_strip (t : Located) : t.strip.staticPath = t.staticPath :=
  fold_strip (fun _ => rfl) t

theorem declared_peeled (t : Located) : t.peeled.here.declared = t.here.declared := by
  rw [here_peeled, Node.declared_mapAt]

theorem declaredBy_peeled (ts : List Located) : declaredBy (ts.map peeled) = declaredBy ts := by
  rw [declaredBy, declaredBy, List.flatMap_map]
  simp only [declared_peeled]

theorem scopeOf_mapAt_peeled (e v : Located → Located) (n : Node Located) :
    scopeOf (n.mapAt e v peeled) = scopeOf n := by
  cases n with
  | lambda f =>
    obtain ⟨form, isAsync, generator, params, w | statements⟩ := f
    · rfl
    · simp only [Node.mapAt, Body.mapAt, scopeOf, declaredBy_peeled]
      rfl
  | block statements => exact declaredBy_peeled statements
  | _ => rfl

theorem openNames_strip (t : Located) : t.strip.openNames = t.openNames := by
  induction t using induct_parens with
  | paren l inner ih =>
    rw [strip_paren, ih, openNames_node]
    simp [scopeOf, Node.map, Node.mentioned, Node.contents, Node.children, Content.names]
  | bare l n hb => rw [hb.strip]

theorem openNames_peeled (t : Located) : t.peeled.openNames = t.openNames := by
  induction t using induct with
  | node l n ih =>
    rw [peeled_node, openNames_node, openNames_node, scopeOf_mapAt_peeled, Node.map_mapAt,
      ← Node.mapAt_self openNames n]
    congr 2
    refine Node.mapAt_congr fun c hc => ⟨?_, ?_, ih c hc⟩
    · rw [← strip_peeled, openNames_strip, ih c hc]
    · rw [← openNames_strip, strip_onlyPair, openNames_strip, ih c hc]

end JsxLoops.Tree.Located

namespace JsxLoops.Loop

open JsxLoops.Tree Located

variable {t u : Located}

/-! ### Mapping calls -/

theorem candidateTree?_strip (t : Located) : candidateTree? t.strip = candidateTree? t := by
  rw [candidateTree?, (bare_strip t).strip]
  rfl

theorem mapCallTree?_peeled (t : Located) : mapCallTree? t.peeled =
    (mapCallTree? t).map fun c => (c.1.strip.peeled, c.2.map fun a => a.strip.peeled) := by
  rw [mapCallTree?, mapCallTree?, here_peeled]
  cases t.here with
  | call callee arguments =>
    have hcallee : callee.strip.peeled.strip.here = callee.strip.here.mapAt
        (fun c => c.strip.peeled) (fun c => c.peeled.onlyPair) peeled := by
      rw [(bare_strip callee).peeled.strip, here_peeled]
    simp only [Node.mapAt, Node.map, hcallee]
    cases callee.strip.here with
    | member receiver property optional => split <;> simp_all
    | _ => rfl
  | _ => rfl

theorem splitTree?_peeled (b : Body Located) :
    splitTree? (b.mapAt (fun c => c.strip.peeled) peeled) =
      (splitTree? b).map fun c => (c.1.map peeled, c.2.strip.peeled) := by
  obtain value | statements := b
  · rfl
  · have hreturns : (statements.map peeled).dropLast.any returns =
        statements.dropLast.any returns := by
      rw [← List.map_dropLast, List.any_map]
      simp [Function.comp_def]
    simp only [Body.mapAt, splitTree?, List.getLast?_map, hreturns]
    cases statements.getLast? with
    | none => rfl
    | some last =>
      simp only [Option.map_some, here_peeled]
      cases last.here with
      | returning value =>
        cases value with
        | none => rfl
        | some value =>
          simp only [Node.mapAt, Node.map, Option.map_some]
          split <;> simp [List.map_dropLast]
      | _ => rfl

theorem isOk_candidateTree? {receiver : Located} {arguments : List Located}
    (h : mapCallTree? t.strip = some (receiver, arguments)) : (candidateTree? t).isOk = true ↔
      ∃ a f, arguments = [a] ∧ a.strip.here = .lambda f ∧ f.isAsync = false ∧
        f.generator = false ∧ (paramNames? f.params).isSome = true ∧
        ∃ leading result, splitTree? f.body = some (leading, result) ∧
          result.strip.here.isMarkup = true := by
  constructor
  · intro hok
    cases hc : candidateTree? t with
    | error reason => rw [hc] at hok; cases hok
    | ok c =>
      obtain ⟨ps, m, rfl, hm, -⟩ := candidateTree?_eq_ok hc
      rw [strip_inParens, m.bare_tree.strip, m.mapCallTree?_tree] at h
      obtain ⟨-, rfl⟩ := Prod.mk.inj (Option.some.inj h)
      have hcallback : Bare (.node m.callback (.lambda ⟨m.form, false, false, m.params, m.body⟩)) :=
        fun inner => by simp
      refine ⟨_, ⟨m.form, false, false, m.params, m.body⟩, rfl, ?_, rfl, rfl, ?_, _, _,
        Mapping.splitTree?_body hm.leading _, ?_⟩
      · rw [strip_inParens, hcallback.strip, here_node]
      · rw [hm.params]
        rfl
      · rw [strip_inParens, (bare_of_isMarkup hm.markup).strip, hm.markup]
  · rintro ⟨a, f, rfl, hf, hasync, hgenerator, hparams, leading, result, hsplit, hmarkup⟩
    obtain ⟨names, hnames⟩ := Option.isSome_iff_exists.1 hparams
    have hplain : plainTree? [a] = some a := by
      rw [plainTree?]
      split
      case h_1 inner hn =>
        have hbare : a.Bare := fun inner he => by
          rw [hn] at he
          cases he
        rw [hbare.strip, hn] at hf
        cases hf
      case h_2 => rfl
    simp only [candidateTree?, h, hplain, hf, hasync, hgenerator, hnames, hsplit, hmarkup]
    rfl

theorem isOk_candidateTree?_peeled (t : Located) :
    (candidateTree? t.peeled).isOk = (candidateTree? t).isOk := by
  have hcall := mapCallTree?_peeled t.strip
  rw [← strip_peeled] at hcall
  cases hm : mapCallTree? t.strip with
  | none =>
    rw [hm] at hcall
    rw [candidateTree?_eq_notMapCall_iff.2 hm, candidateTree?_eq_notMapCall_iff.2 hcall]
  | some call =>
    obtain ⟨receiver, arguments⟩ := call
    rw [hm] at hcall
    rw [Bool.eq_iff_iff, isOk_candidateTree? hm, isOk_candidateTree? hcall]
    have hstrip (a : Located) : a.strip.peeled.strip.here = a.strip.here.mapAt
        (fun c => c.strip.peeled) (fun c => c.peeled.onlyPair) peeled := by
      rw [(bare_strip a).peeled.strip, here_peeled]
    constructor
    · rintro ⟨a, f, ha, hf, hasync, hgenerator, hparams, leading, result, hsplit, hmarkup⟩
      obtain ⟨a, rfl, rfl⟩ := List.map_eq_singleton_iff.1 ha
      rw [hstrip] at hf
      cases hn : a.strip.here with
      | lambda g =>
        rw [hn] at hf
        obtain rfl := Node.lambda.inj hf
        rw [splitTree?_peeled] at hsplit
        obtain ⟨parts, hparts, heq⟩ := Option.map_eq_some_iff.1 hsplit
        obtain ⟨rfl, rfl⟩ := Prod.mk.inj heq
        rw [hstrip, Node.isMarkup_mapAt] at hmarkup
        exact ⟨a, g, rfl, hn, hasync, hgenerator, hparams, _, _, hparts, hmarkup⟩
      | _ => rw [hn] at hf; cases hf
    · rintro ⟨a, f, rfl, hf, hasync, hgenerator, hparams, leading, result, hsplit, hmarkup⟩
      refine ⟨_, ⟨f.form, f.isAsync, f.generator, f.params,
        f.body.mapAt (fun c => c.strip.peeled) peeled⟩, rfl, by
        rw [hstrip, hf]; rfl, hasync, hgenerator, hparams, _, _,
        by rw [splitTree?_peeled, hsplit]; rfl, ?_⟩
      rw [hstrip, Node.isMarkup_mapAt, hmarkup]

/-! ### Renaming -/

theorem onlyPair_renameFree (a b : String) (t : Located) :
    (t.renameFree a b).onlyPair = t.onlyPair.renameFree a b := by
  by_cases hn : ∃ l inner, t = .node l (.paren inner)
  · obtain ⟨l, inner, rfl⟩ := hn
    have hr (u : Located) : (Located.node l (.paren u)).renameFree a b =
        .node l (.paren (u.renameFree a b)) := renameFree_of_plain a b l rfl rfl
    rw [hr, onlyPair_paren, onlyPair_paren, candidateTree?_renameFree, strip_renameFree]
    split
    · exact (hr _).symm
    · rfl
  · have hb : t.Bare := fun inner he => hn ⟨t.loc, inner, by rw [← he, eta]⟩
    rw [onlyPair_of_bare hb, onlyPair_of_bare (hb.renameFree a b)]

theorem peeled_renameFree (a b : String) (t : Located) :
    (t.renameFree a b).peeled = t.peeled.renameFree a b := by
  induction t using induct with
  | node l n ih =>
    rw [peeled_node, renameFree_node, renameFree_node, scopeOf_mapAt_peeled]
    split
    · rw [peeled_node]
    · rw [peeled_node, ← Node.renameHere_mapAt, Node.mapAt_map, Node.map_mapAt]
      congr 2
      refine Node.mapAt_congr fun c hc => ⟨?_, ?_, ih c hc⟩
      · rw [← strip_peeled, ih c hc, strip_renameFree, strip_peeled]
      · rw [ih c hc, onlyPair_renameFree]

end JsxLoops.Loop

namespace JsxLoops.Tree.Located

open JsxLoops.Loop

variable {t u : Located}

/-! ### Trees that differ in parentheses -/

/-- The tree without locations and without the parentheses around the expressions in it. -/
def core (t : Located) : Subtree := t.peeled.erase

/-- An expression without locations and without parentheses. -/
def kernel (t : Located) : Subtree := t.strip.core

/-- The value of an attribute without locations and parentheses, but for a pair around a mapping
call. -/
def valueCore (t : Located) : Subtree := t.peeled.onlyPair.erase

theorem core_node (l : Loc) (n : Node Located) :
    (node l n).core = .node (n.mapAt kernel valueCore core) := by
  rw [core, peeled_node, erase_node, Node.map_mapAt]
  rfl

theorem core_eq_iff : t.core = u.core ↔
    t.here.mapAt kernel valueCore core = u.here.mapAt kernel valueCore core := by
  obtain ⟨l, n⟩ := t
  obtain ⟨k, m⟩ := u
  rw [core_node, core_node, Subtree.node.injEq, here_node, here_node]

theorem kernel_eq (t : Located) : t.kernel = t.peeled.strip.erase := by
  rw [kernel, core, strip_peeled]

theorem kernel_paren (l : Loc) (t : Located) : (node l (.paren t)).kernel = t.kernel := by
  rw [kernel, strip_paren, kernel]

theorem Bare.kernel (h : t.Bare) : t.kernel = t.core := by
  rw [Located.kernel, h.strip]

theorem kernel_node {l : Loc} {n : Node Located} (h : ∀ inner, n ≠ .paren inner) :
    (node l n).kernel = .node (n.mapAt Located.kernel valueCore core) := by
  rw [Bare.kernel (t := node l n) h, core_node]

theorem isOk_candidateTree?_of_erase_eq (h : t.erase = u.erase) :
    (candidateTree? t).isOk = (candidateTree? u).isOk := by
  obtain ⟨c, c', hc, hc'⟩ | ⟨r, r', hr, hr', -⟩ := candidateTree?_cases h
  · rw [hc, hc']
    rfl
  · rw [hr, hr']
    rfl

theorem strip_core (t : Located) : t.core.strip = t.kernel := by
  rw [core, strip_erase, kernel_eq]

theorem strip_kernel (t : Located) : t.kernel.strip = t.kernel := by
  rw [kernel, strip_core, kernel, (bare_strip t).strip]

theorem strip_valueCore (t : Located) : t.valueCore.strip = t.kernel := by
  rw [valueCore, strip_erase, strip_onlyPair, kernel_eq]

theorem kernel_of_core_eq (h : t.core = u.core) : t.kernel = u.kernel := by
  rw [← strip_core, h, strip_core]

theorem map_kernel_eq {n m : Node Located}
    (h : n.mapAt kernel valueCore core = m.mapAt kernel valueCore core) :
    n.map kernel = m.map kernel := by
  have hstrip := congrArg (Node.map Subtree.strip) h
  rw [Node.map_mapAt, Node.map_mapAt] at hstrip
  simpa only [strip_kernel, strip_valueCore, strip_core, Node.mapAt_self] using hstrip

theorem erase_onlyPair (h : t.erase = u.erase) : t.onlyPair.erase = u.onlyPair.erase := by
  by_cases hn : ∃ l inner, t = .node l (.paren inner)
  · obtain ⟨l, inner, rfl⟩ := hn
    obtain ⟨k, m⟩ := u
    obtain ⟨inner', rfl, hinner⟩ := Node.map_eq_paren (erase_eq_iff.1 h).symm
    rw [onlyPair_paren, onlyPair_paren, isOk_candidateTree?_of_erase_eq hinner]
    split
    · exact erase_eq_iff.2 (congrArg Node.paren (erase_strip hinner.symm))
    · exact erase_strip hinner.symm
  · have hb : t.Bare := fun inner he => hn ⟨t.loc, inner, by rw [← he, eta]⟩
    rw [onlyPair_of_bare hb, onlyPair_of_bare (bare_of_erase_eq h hb), h]

theorem core_of_erase_eq (h : t.erase = u.erase) : t.core = u.core := by
  induction t using induct generalizing u with
  | node l n ih =>
    obtain ⟨k, m⟩ := u
    have hmap := Node.map_eq_of_erase (f := fun c => (c.kernel, c.valueCore, c.core))
      (g := fun c => (c.kernel, c.valueCore, c.core)) (erase_eq_iff.1 h) fun c hc d hd => by
        have hcore := ih c hc hd
        rw [hcore, kernel_of_core_eq hcore, valueCore, erase_onlyPair hcore, valueCore]
    have hparts := congrArg (Node.mapAt Prod.fst (fun p => p.2.1) fun p => p.2.2) hmap
    rw [Node.mapAt_map, Node.mapAt_map] at hparts
    exact core_eq_iff.2 hparts

theorem isOk_of_kernel_eq (h : t.kernel = u.kernel) :
    (candidateTree? t).isOk = (candidateTree? u).isOk := by
  have hpeeled (t : Located) : (candidateTree? t).isOk = (candidateTree? t.peeled.strip).isOk := by
    rw [candidateTree?_strip, isOk_candidateTree?_peeled]
  rw [kernel_eq, kernel_eq] at h
  rw [hpeeled t, isOk_candidateTree?_of_erase_eq h, ← hpeeled u]

theorem bare_onlyPair_iff (h : (candidateTree? t).isOk = true) : t.onlyPair.Bare ↔ t.Bare := by
  by_cases hn : ∃ l inner, t = .node l (.paren inner)
  · obtain ⟨l, inner, rfl⟩ := hn
    rw [candidateTree?_paren] at h
    rw [onlyPair_paren, if_pos h]
    exact ⟨fun hb => absurd rfl (hb _), fun hb => absurd rfl (hb _)⟩
  · rw [onlyPair_of_bare fun inner he => hn ⟨t.loc, inner, by rw [← he, eta]⟩]

/-- The parentheses of a value count only if it is a mapping call, and only whether there are
any. -/
theorem of_valueCore_eq (h : t.valueCore = u.valueCore) : t.kernel = u.kernel ∧
    ((candidateTree? t).isOk = true → (t.Bare ↔ u.Bare)) := by
  have hkernel : t.kernel = u.kernel := by rw [← strip_valueCore, h, strip_valueCore]
  refine ⟨hkernel, fun hok => ?_⟩
  have hok' := (isOk_of_kernel_eq hkernel).symm.trans hok
  rw [← isOk_candidateTree?_peeled] at hok hok'
  calc t.Bare ↔ t.peeled.onlyPair.Bare := bare_peeled_iff.symm.trans (bare_onlyPair_iff hok).symm
    _ ↔ u.peeled.onlyPair.Bare := ⟨bare_of_erase_eq h, bare_of_erase_eq h.symm⟩
    _ ↔ u.Bare := (bare_onlyPair_iff hok').trans bare_peeled_iff

/-! ### Putting expressions into parentheses -/

/-- The tree with parentheses around the expressions in it, of which `f` says where they are
put. -/
def wrapped (f : Loc → List Loc) : Located → Located := fold fun l _ m =>
  .node l (m.mapAt (fun c => inParens (f c.loc) c) (fun c => inParens (f c.loc) c) id)

def IsValueIn (v t : Located) : Prop :=
  ∃ u e name, Occurs u t ∧ u.here = .element e ∧ .named name (.expression v) ∈ e.attributes

variable {f : Loc → List Loc}

theorem wrapped_node (l : Loc) (n : Node Located) : (node l n).wrapped f =
    node l (n.mapAt (fun c => inParens (f (c.wrapped f).loc) (c.wrapped f))
      (fun c => inParens (f (c.wrapped f).loc) (c.wrapped f)) (wrapped f)) := by
  rw [show (node l n).wrapped f = node l ((n.map (wrapped f)).mapAt _ _ id) from fold_node _ l n,
    Node.mapAt_map]
  rfl

theorem loc_wrapped (t : Located) : (t.wrapped f).loc = t.loc := by
  obtain ⟨l, n⟩ := t
  rw [wrapped_node, loc_node, loc_node]

theorem kernel_inParens (ps : List Loc) (t : Located) : (inParens ps t).kernel = t.kernel := by
  rw [kernel, strip_inParens, kernel]

theorem valueCore_of_bare (h : t.Bare) : t.valueCore = t.kernel := by
  rw [valueCore, onlyPair_of_bare h.peeled, h.kernel, core]

theorem valueCore_paren (l : Loc) (t : Located) : (node l (.paren t)).valueCore =
    if (candidateTree? t).isOk then .node (.paren t.kernel) else t.kernel := by
  rw [valueCore, peeled_paren, onlyPair_paren, candidateTree?_strip, isOk_candidateTree?_peeled,
    (bare_strip _).strip, kernel_eq]
  split
  · rw [erase_node]
    rfl
  · rfl

theorem valueCore_inParens {ps : List Loc} (h : t.core = u.core)
    (hps : (candidateTree? u).isOk = true → u.Bare → ps = []) :
    (inParens ps t).valueCore = u.valueCore := by
  have hkernel := kernel_of_core_eq h
  cases ps with
  | nil =>
    show t.valueCore = u.valueCore
    rw [valueCore, valueCore, erase_onlyPair h]
  | cons p ps =>
    show (node p (.paren (inParens ps t))).valueCore = _
    rw [valueCore_paren, candidateTree?_inParens, isOk_of_kernel_eq hkernel, kernel_inParens,
      hkernel]
    by_cases hu : ∃ l inner, u = .node l (.paren inner)
    · obtain ⟨l, inner, rfl⟩ := hu
      rw [valueCore_paren, candidateTree?_paren, kernel_paren]
    · have hb : u.Bare := fun inner he => hu ⟨u.loc, inner, by rw [← he, eta]⟩
      rw [valueCore_of_bare hb, if_neg]
      exact fun hok => by cases hps hok hb

/-- Expressions may be put into parentheses everywhere, but for values that are mapping calls. -/
theorem core_wrapped
    (h : ∀ v, v.IsValueIn t → (candidateTree? v).isOk = true → v.Bare → f v.loc = []) :
    (t.wrapped f).core = t.core := by
  induction t using induct with
  | node l n ih =>
    have hcore : ∀ c ∈ n.children, (c.wrapped f).core = c.core := fun c hc =>
      ih c hc fun v ⟨u, e, name, hu, hv⟩ => h v ⟨u, e, name, .child hc hu, hv⟩
    rw [wrapped_node, core_node, core_node, Node.mapAt_mapAt]
    congr 1
    refine Node.mapAt_congr_values (fun c hc => ⟨?_, hcore c hc⟩) fun e hn name v hv => ?_
    · rw [kernel_inParens, kernel_of_core_eq (hcore c hc)]
    · have hc : v ∈ n.children := by
        rw [hn]
        exact List.mem_append.2 (.inl (List.mem_flatMap.2 ⟨_, hv, List.mem_singleton_self v⟩))
      refine valueCore_inParens (hcore v hc) fun hok hb => ?_
      rw [loc_wrapped]
      exact h v ⟨_, e, name, .self, hn, hv⟩ hok hb

end JsxLoops.Tree.Located
