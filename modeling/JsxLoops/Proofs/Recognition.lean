import JsxLoops.Proofs.Returns
import Mathlib

/-!
Which expressions are loops. The grammar of a loop is stated about the store alone: a call of `map`
with one callback that returns markup, where parentheses may stand around the call, the callee, the
callback and the result. `candidate?` finds the parts of a loop exactly where the grammar has one.
Pairs of parentheses may be put around these expressions or taken away, and the answer stays the
same, with the reason if there is no loop.
-/

namespace JsxLoops.Tree.Store

open Located

variable {s : Store} {l k : Loc}

/-! ### Parentheses -/

/-- At the one location stands what stands at the other, in any number of parentheses. -/
inductive Encloses (s : Store) : Loc → Loc → Prop
  | refl (l : Loc) : s.Encloses l l
  | paren {l inner k : Loc} (hl : s.get l = .paren inner) (h : s.Encloses inner k) : s.Encloses l k

theorem Encloses.reaches (h : s.Encloses l k) : s.Reaches l k := by
  induction h with
  | refl l => exact .refl l
  | paren hl _ ih =>
    refine (reaches_of_mem ?_).trans ih
    rw [hl]
    exact List.mem_singleton_self _

theorem Encloses.eq_of_bare {k' : Loc} (h : s.Encloses l k) (h' : s.Encloses l k')
    (hk : ∀ inner, s.get k ≠ .paren inner) (hk' : ∀ inner, s.get k' ≠ .paren inner) : k = k' := by
  induction h with
  | refl l =>
    cases h' with
    | refl => rfl
    | paren hl => exact absurd hl (hk _)
  | paren hl _ ih =>
    cases h' with
    | refl => exact absurd hl (hk' _)
    | paren hl' h' =>
      obtain rfl := Node.paren.inj (hl.symm.trans hl')
      exact ih h' hk

theorem Shows.encloses_inParens {ps : List Loc} {t : Located} (h : s.Shows (inParens ps t)) :
    s.Encloses (inParens ps t).loc t.loc := by
  induction ps with
  | nil => exact .refl _
  | cons p ps ih =>
    have hp : s.Shows (.node p (.paren (inParens ps t))) := h
    exact .paren hp.get_root (ih (hp.child (List.mem_singleton_self _)))

theorem stripParens_eq_iff (h : s.IsTree l) :
    s.stripParens l = k ↔ s.Encloses l k ∧ ∀ inner, s.get k ≠ .paren inner := by
  have hshows := h.shows_treeAt
  obtain ⟨ps, hps⟩ := exists_inParens (s.treeAt l)
  have hstrip : s.stripParens l = (s.treeAt l).strip.loc := by
    rw [← hshows.stripParens, loc_treeAt]
  have hencloses : s.Encloses l (s.treeAt l).strip.loc := by
    have hin := hps ▸ hshows
    have := hin.encloses_inParens
    rwa [← hps, loc_treeAt] at this
  have hbare (inner : Loc) : s.get (s.treeAt l).strip.loc ≠ .paren inner := by
    intro hinner
    rw [hshows.strip.get_loc] at hinner
    obtain ⟨i, hi, -⟩ := Node.map_eq_paren hinner
    exact bare_strip _ i hi
  rw [hstrip]
  constructor
  · rintro rfl
    exact ⟨hencloses, hbare⟩
  · rintro ⟨hk, hkbare⟩
    exact hencloses.eq_of_bare hk hbare hkbare

/-! ### Returns -/

/-- What hangs at the location returns from the function it stands in: there is a return, or
verbatim code that has one, and no function between. -/
inductive ReturnsFrom (s : Store) : Loc → Prop
  | returning {l : Loc} {value : Option Loc} (hl : s.get l = .returning value) : s.ReturnsFrom l
  | verbatim {l : Loc} {code : Verbatim} (hl : s.get l = .verbatim code)
    (hcode : code.hasReturn = true) : s.ReturnsFrom l
  | child {l c : Loc} (hl : ∀ f, s.get l ≠ .lambda f) (hc : c ∈ (s.get l).children)
    (h : s.ReturnsFrom c) : s.ReturnsFrom l

theorem returnsFrom_of_isReturn (h : (s.get l).isReturn = true) : s.ReturnsFrom l := by
  cases hn : s.get l with
  | returning value => exact .returning hn
  | verbatim code =>
    rw [hn] at h
    exact .verbatim hn h
  | _ =>
    rw [hn] at h
    cases h

theorem isFunction_eq_false_iff : (s.get l).isFunction = false ↔ ∀ f, s.get l ≠ .lambda f := by
  cases s.get l <;> simp [Node.isFunction]

theorem Shows.returns_iff {t : Located} (h : s.Shows t) :
    t.returns = true ↔ s.ReturnsFrom t.loc := by
  induction t using Located.induct with
  | node l n ih =>
    have hreturn : (s.get l).isReturn = n.isReturn := by rw [h.get_root, Node.isReturn_map]
    have hfunction : (s.get l).isFunction = n.isFunction := by rw [h.get_root, Node.isFunction_map]
    have hchildren : (s.get l).children = n.children.map loc := by
      rw [h.get_root, Node.children_map]
    rw [returns_node, Bool.or_eq_true, Bool.and_eq_true, Bool.not_eq_true', List.any_eq_true,
      loc_node]
    constructor
    · rintro (hn | ⟨hn, c, hc, hreturns⟩)
      · exact returnsFrom_of_isReturn (hreturn.trans hn)
      · refine .child (isFunction_eq_false_iff.1 (hfunction.trans hn)) ?_
          ((ih c hc (h.child hc)).1 hreturns)
        rw [hchildren]
        exact List.mem_map_of_mem hc
    · intro hreturns
      cases hreturns with
      | returning hl =>
        rw [hl] at hreturn
        exact .inl hreturn.symm
      | verbatim hl hcode =>
        rw [hl] at hreturn
        exact .inl (hreturn.symm.trans hcode)
      | child hl hc hreturns =>
        rw [hchildren] at hc
        obtain ⟨t, ht, rfl⟩ := List.mem_map.1 hc
        exact .inr ⟨hfunction.symm.trans (isFunction_eq_false_iff.2 hl), t, ht,
          (ih t ht (h.child ht)).2 hreturns⟩

theorem returnsAt_iff (h : s.IsTree l) : s.returnsAt l = true ↔ s.ReturnsFrom l := by
  have hshows := h.shows_treeAt
  have hiff := hshows.returns_iff
  rwa [← hshows.returnsAt, loc_treeAt] at hiff

end JsxLoops.Tree.Store

namespace JsxLoops.Loop

open JsxLoops.Tree Located

variable {s : Store} {l : Loc}

/-! ### The grammar -/

def CallsMap (s : Store) (call receiver : Loc) (arguments : List Loc) : Prop :=
  ∃ callee member optional, s.get call = .call callee arguments ∧ s.Encloses callee member ∧
    s.get member = .member receiver "map" optional

/-- The binder is a single name, with an annotation or without. -/
inductive BindsName : Binder → String → Prop
  | plain (name : String) : BindsName (.plain name) name
  | annotated (name annotation : String) : BindsName (.annotated name annotation) name

/-- The body is its result, or statements and then one return of it. -/
inductive EndsIn (s : Store) : Body Loc → List Loc → Loc → Prop
  | value (result : Loc) : EndsIn s (.value result) [] result
  | block {leading : List Loc} {last result : Loc} (hlast : s.get last = .returning (some result))
    (hleading : ∀ x ∈ leading, ¬ s.ReturnsFrom x) :
    EndsIn s (.block (leading ++ [last])) leading result

/-- The expression is a mapping call that returns markup, and these are its parts. -/
structure IsLoop (s : Store) (l : Loc) (c : Candidate) : Prop where
  call : s.Encloses l c.call
  parts : ∃ argument f names result, CallsMap s c.call c.receiver [argument] ∧
    (∀ inner, s.get argument ≠ .spread inner) ∧ s.Encloses argument c.callback ∧
    s.get c.callback = .lambda f ∧ f.isAsync = false ∧ f.generator = false ∧
    List.Forall₂ BindsName f.params names ∧ names.length ≤ 2 ∧
    c.itemParam = names[0]? ∧ c.indexParam = names[1]? ∧
    EndsIn s f.body c.leading result ∧ s.Encloses result c.subtree ∧
    ((∃ e, s.get c.subtree = .element e) ∨ ∃ children, s.get c.subtree = .fragment children)

/-! ### Reading by the grammar -/

theorem mapCall?_eq_some_iff {receiver : Loc} {arguments : List Loc} (h : s.IsTree l) :
    mapCall? s l = some (receiver, arguments) ↔ CallsMap s l receiver arguments := by
  have hstrip {callee : Loc} {arguments : List Loc} (hn : s.get l = .call callee arguments)
      (member : Loc) := Store.stripParens_eq_iff (k := member)
    (h.of_mem (c := callee) (by rw [hn]; exact List.mem_cons_self))
  constructor
  · intro hm
    rw [mapCall?] at hm
    split at hm
    case h_2 => cases hm
    case h_1 callee arguments' hn =>
      split at hm
      case h_2 => cases hm
      case h_1 receiver' optional hmember =>
        obtain ⟨rfl, rfl⟩ := Prod.mk.inj (Option.some.inj hm)
        exact ⟨callee, _, optional, hn, ((hstrip hn _).1 rfl).1, hmember⟩
  · rintro ⟨callee, member, optional, hn, hcallee, hmember⟩
    have hbare (inner : Loc) : s.get member ≠ .paren inner := by simp [hmember]
    rw [mapCall?, hn]
    simp only [(hstrip hn member).2 ⟨hcallee, hbare⟩, hmember]

theorem plainArgument?_eq_some_iff {arguments : List Loc} {argument : Loc} :
    plainArgument? s arguments = some argument ↔
      arguments = [argument] ∧ ∀ inner, s.get argument ≠ .spread inner := by
  constructor
  · intro h
    rw [plainArgument?.eq_def] at h
    split at h
    case h_2 => cases h
    case h_1 a =>
      split at h
      · cases h
      · obtain rfl := Option.some.inj h
        exact ⟨rfl, ‹_›⟩
  · rintro ⟨rfl, hn⟩
    rw [plainArgument?]
    split
    · exact absurd ‹_› (hn _)
    · rfl

theorem name?_eq_some_iff {b : Binder} {name : String} :
    b.name? = some name ↔ BindsName b name := by
  constructor
  · intro h
    cases b with
    | plain =>
      obtain rfl := Option.some.inj h
      exact .plain _
    | annotated =>
      obtain rfl := Option.some.inj h
      exact .annotated _ _
    | verbatim => cases h
  · rintro (_ | _) <;> rfl

theorem mapM_name?_eq_some_iff {params : List Binder} {names : List String} :
    params.mapM Binder.name? = some names ↔ List.Forall₂ BindsName params names := by
  induction params generalizing names with
  | nil => simp [eq_comm]
  | cons b params ih =>
    simp only [List.mapM_cons, Option.bind_eq_bind, Option.bind_eq_some_iff, name?_eq_some_iff, ih,
      Option.pure_def, Option.some.injEq]
    constructor
    · rintro ⟨name, hb, rest, hrest, rfl⟩
      exact .cons hb hrest
    · rintro (_ | ⟨hb, hrest⟩)
      exact ⟨_, hb, _, hrest, rfl⟩

theorem paramNames?_eq_some_iff {params : List Binder} {names : List String} :
    paramNames? params = some names ↔
      List.Forall₂ BindsName params names ∧ names.length ≤ 2 := by
  rw [paramNames?, Option.ite_none_right_eq_some, mapM_name?_eq_some_iff, and_comm]
  exact and_congr_right fun h => by rw [h.length_eq]

theorem splitBody?_eq_some_iff {body : Body Loc} {leading : List Loc} {result : Loc}
    (h : ∀ x ∈ body.children, s.IsTree x) :
    splitBody? s body = some (leading, result) ↔ EndsIn s body leading result := by
  have hreturns {xs : List Loc} (hxs : ∀ x ∈ xs, s.IsTree x) :
      s.returns xs = false ↔ ∀ x ∈ xs, ¬ s.ReturnsFrom x := by
    rw [Store.returns, List.any_eq_false]
    exact forall₂_congr fun x hx => not_congr (Store.returnsAt_iff (hxs x hx))
  constructor
  · intro hb
    rw [splitBody?.eq_def] at hb
    split at hb
    case h_1 value =>
      obtain ⟨rfl, rfl⟩ := Prod.mk.inj (Option.some.inj hb)
      exact .value _
    case h_2 statements =>
      split at hb
      case h_2 => cases hb
      case h_1 last hlast =>
        split at hb
        case h_2 => cases hb
        case h_1 value hvalue =>
          split at hb
          · cases hb
          case isFalse hno =>
            obtain ⟨rfl, rfl⟩ := Prod.mk.inj (Option.some.inj hb)
            obtain ⟨leading, rfl⟩ := List.getLast?_eq_some_iff.1 hlast
            rw [List.dropLast_concat] at hno ⊢
            refine .block hvalue ((hreturns fun x hx => h x ?_).1 (Bool.eq_false_iff.2 hno))
            exact List.mem_append_left _ hx
  · intro hb
    cases hb with
    | value => rfl
    | @block leading last _ hlast hleading =>
      have hno : s.returns leading = false :=
        (hreturns fun x hx => h x (List.mem_append_left _ hx)).2 hleading
      rw [splitBody?, List.getLast?_concat]
      simp only [hlast, List.dropLast_concat, hno]
      rfl

theorem isMarkup_iff {n : Node Loc} :
    n.isMarkup = true ↔ (∃ e, n = .element e) ∨ ∃ children, n = .fragment children := by
  cases n <;> simp [Node.isMarkup]

theorem candidate?_eq_ok_iff {c : Candidate} : candidate? s l = .ok c ↔
    ∃ arguments argument f names result, s.stripParens l = c.call ∧
      mapCall? s c.call = some (c.receiver, arguments) ∧
      plainArgument? s arguments = some argument ∧ s.stripParens argument = c.callback ∧
      s.get c.callback = .lambda f ∧ f.isAsync = false ∧ f.generator = false ∧
      paramNames? f.params = some names ∧ c.itemParam = names[0]? ∧ c.indexParam = names[1]? ∧
      splitBody? s f.body = some (c.leading, result) ∧ s.stripParens result = c.subtree ∧
      (s.get c.subtree).isMarkup = true := by
  constructor
  · intro h
    rw [candidate?] at h
    simp only at h
    split at h
    case h_2 => cases h
    case h_1 receiver arguments hcall =>
    split at h
    case h_2 => cases h
    case h_1 argument hargument =>
    split at h
    case h_2 => cases h
    case h_1 f hf =>
    split at h
    · cases h
    case isFalse hflags =>
    split at h
    case h_2 => cases h
    case h_1 names hnames =>
    split at h
    case h_2 => cases h
    case h_1 leading result hresult =>
    split at h
    case isFalse => cases h
    case isTrue hmarkup =>
    obtain rfl := Except.ok.inj h
    obtain ⟨hasync, hgenerator⟩ : f.isAsync = false ∧ f.generator = false := by simpa using hflags
    exact ⟨arguments, argument, f, names, result, rfl, hcall, hargument, rfl, hf, hasync,
      hgenerator, hnames, rfl, rfl, hresult, rfl, hmarkup⟩
  · rintro ⟨arguments, argument, f, names, result, hl, hcall, hargument, hcallback, hf, hasync,
      hgenerator, hnames, hitem, hindex, hresult, hsubtree, hmarkup⟩
    obtain ⟨call, receiver, callback, itemParam, indexParam, leading, subtree⟩ := c
    simp only at *
    simp only [candidate?, hl, hcall, hargument, hcallback, hf, hasync, hgenerator, hnames, hresult,
      hsubtree, hmarkup, hitem, hindex]
    rfl

theorem CallsMap.bare {receiver : Loc} {arguments : List Loc} (h : CallsMap s l receiver arguments)
    (inner : Loc) : s.get l ≠ .paren inner := by
  obtain ⟨callee, member, optional, hn, -⟩ := h
  simp [hn]

theorem CallsMap.isTree {receiver argument : Loc} {arguments : List Loc}
    (h : CallsMap s l receiver arguments) (hl : s.IsTree l) (ha : argument ∈ arguments) :
    s.IsTree argument := by
  obtain ⟨callee, member, optional, hn, -⟩ := h
  exact hl.of_mem (by simp [hn, Node.children, ha])

theorem EndsIn.isTree {body : Body Loc} {leading : List Loc} {result : Loc}
    (h : EndsIn s body leading result) (hbody : ∀ x ∈ body.children, s.IsTree x) :
    s.IsTree result := by
  cases h with
  | value => exact hbody result (List.mem_singleton_self _)
  | @block _ last _ hlast =>
    have hreturn : s.IsTree last := hbody last (by simp [Body.children])
    exact hreturn.of_mem (by simp [hlast, Node.children])

theorem candidate?_iff_isLoop (h : s.IsTree l) (c : Candidate) :
    candidate? s l = .ok c ↔ IsLoop s l c := by
  have hbody {callback : Loc} {f : Lambda Loc} (ht : s.IsTree callback)
      (hf : s.get callback = .lambda f) (x : Loc) (hx : x ∈ f.body.children) : s.IsTree x :=
    ht.of_mem (by rwa [hf])
  rw [candidate?_eq_ok_iff]
  -- each part hangs below the one before it, so it is a tree and the step there can be turned
  constructor
  · rintro ⟨arguments, argument, f, names, result, hl, hmap, hplain, hcallback, hf, hasync,
      hgenerator, hnames, hitem, hindex, hsplit, hsubtree, hmarkup⟩
    obtain ⟨hl, -⟩ := (Store.stripParens_eq_iff h).1 hl
    have hcall := h.of_reaches hl.reaches
    have hmap := (mapCall?_eq_some_iff hcall).1 hmap
    obtain ⟨rfl, hspread⟩ := plainArgument?_eq_some_iff.1 hplain
    have hargument := hmap.isTree hcall (List.mem_singleton_self argument)
    obtain ⟨hcallback, -⟩ := (Store.stripParens_eq_iff hargument).1 hcallback
    have htrees := hbody (hargument.of_reaches hcallback.reaches) hf
    have hends := (splitBody?_eq_some_iff htrees).1 hsplit
    obtain ⟨hsubtree, -⟩ := (Store.stripParens_eq_iff (hends.isTree htrees)).1 hsubtree
    obtain ⟨hparams, hlength⟩ := paramNames?_eq_some_iff.1 hnames
    exact ⟨hl, argument, f, names, result, hmap, hspread, hcallback, hf, hasync, hgenerator,
      hparams, hlength, hitem, hindex, hends, hsubtree, isMarkup_iff.1 hmarkup⟩
  · rintro ⟨hl, argument, f, names, result, hmap, hspread, hcallback, hf, hasync, hgenerator,
      hparams, hlength, hitem, hindex, hends, hsubtree, hmarkup⟩
    have hcall := h.of_reaches hl.reaches
    have hargument := hmap.isTree hcall (List.mem_singleton_self argument)
    have htrees := hbody (hargument.of_reaches hcallback.reaches) hf
    refine ⟨[argument], argument, f, names, result, (Store.stripParens_eq_iff h).2 ⟨hl, hmap.bare⟩,
      (mapCall?_eq_some_iff hcall).2 hmap, plainArgument?_eq_some_iff.2 ⟨rfl, hspread⟩,
      (Store.stripParens_eq_iff hargument).2 ⟨hcallback, by simp [hf]⟩, hf, hasync, hgenerator,
      paramNames?_eq_some_iff.2 ⟨hparams, hlength⟩, hitem, hindex,
      (splitBody?_eq_some_iff htrees).2 hends, ?_, isMarkup_iff.2 hmarkup⟩
    refine (Store.stripParens_eq_iff (hends.isTree htrees)).2 ⟨hsubtree, fun inner => ?_⟩
    rcases hmarkup with ⟨e, he⟩ | ⟨children, he⟩ <;> simp [he]

/-! ### Parentheses around the parts -/

/-- One more pair of parentheses stands around an expression. -/
inductive OnePair : Located → Located → Prop
  | around (p : Loc) (t : Located) : OnePair t (.node p (.paren t))
  | inside (p : Loc) {t u : Located} (h : OnePair t u) :
    OnePair (.node p (.paren t)) (.node p (.paren u))

theorem OnePair.strip {t u : Located} (h : OnePair t u) : t.strip = u.strip := by
  induction h with
  | around p t => exact (strip_paren p t).symm
  | inside p _ ih => rw [strip_paren, strip_paren, ih]

/-- One more pair of parentheses stands around an expression itself, or, if it is a call, around its
callee, around an argument that is not spread, or around what a callback returns. -/
inductive Regroups : Located → Located → Prop
  | whole {t u : Located} (h : OnePair t u) : Regroups t u
  | inside (p : Loc) {t u : Located} (h : Regroups t u) :
    Regroups (.node p (.paren t)) (.node p (.paren u))
  | callee (l : Loc) {t u : Located} (h : OnePair t u) (arguments : List Located) :
    Regroups (.node l (.call t arguments)) (.node l (.call u arguments))
  | argument (l : Loc) (callee : Located) (before after : List Located) {t u : Located}
    (h : OnePair t u) (ht : ∀ inner, t.here ≠ .spread inner) :
    Regroups (.node l (.call callee (before ++ t :: after)))
      (.node l (.call callee (before ++ u :: after)))
  | result (l : Loc) (callee : Located) (parens : List Loc) (callback : Loc) (f : Lambda Located)
    (ending : Ending) {t u : Located} (h : OnePair t u) :
    Regroups
      (.node l (.call callee [inParens parens (.node callback
        (.lambda { f with body := ending.body t }))]))
      (.node l (.call callee [inParens parens (.node callback
        (.lambda { f with body := ending.body u }))]))

theorem OnePair.plainTree?_eq {t u : Located} (h : OnePair t u)
    (ht : ∀ inner, t.here ≠ .spread inner) :
    plainTree? [t] = some t ∧ plainTree? [u] = some u := by
  have hplain {x : Located} (hx : ∀ inner, x.here ≠ .spread inner) : plainTree? [x] = some x :=
    Mapping.plainTree?_inParens [] hx
  refine ⟨hplain ht, hplain fun inner => ?_⟩
  cases h with
  | around | inside => simp

theorem plainTree?_eq_none {ts : List Located} (h : ts.length ≠ 1) : plainTree? ts = none := by
  rcases ts with _ | ⟨t, _ | ⟨u, ts⟩⟩
  · rfl
  · exact absurd rfl h
  · rfl

theorem OnePair.splitTree?_eq {t u : Located} (h : OnePair t u) (ending : Ending) :
    (splitTree? (ending.body t)).map (fun c => (c.1, c.2.strip)) =
      (splitTree? (ending.body u)).map fun c => (c.1, c.2.strip) := by
  cases ending with
  | value => simp [Ending.body, splitTree?, h.strip]
  | block leading last =>
    simp only [Ending.body, splitTree?, List.getLast?_concat, here_node, List.dropLast_concat]
    split <;> simp [h.strip]

theorem Regroups.candidateTree?_eq {t u : Located} (h : Regroups t u) :
    candidateTree? t = candidateTree? u := by
  have hbare (l : Loc) (callee : Located) (arguments : List Located) :
      (Located.node l (.call callee arguments)).strip = .node l (.call callee arguments) :=
    Bare.strip fun inner => by simp
  induction h with
  | whole h => rw [candidateTree?, candidateTree?, h.strip]
  | inside p _ ih => rw [candidateTree?_paren, candidateTree?_paren, ih]
  | callee l h arguments =>
    rw [candidateTree?, candidateTree?, hbare, hbare]
    simp only [mapCallTree?, here_node, h.strip, loc_node]
  | @argument l callee before after t u h ht =>
    rw [candidateTree?, candidateTree?, hbare, hbare]
    simp only [mapCallTree?, here_node, loc_node]
    cases callee.strip.here with
    | member receiver property optional =>
      by_cases hproperty : property = "map"
      · subst hproperty
        by_cases hone : before = [] ∧ after = []
        · obtain ⟨rfl, rfl⟩ := hone
          obtain ⟨hp, hp'⟩ := h.plainTree?_eq ht
          simp only [List.nil_append, hp, hp', h.strip]
        · have hlength (x : Located) : (before ++ x :: after).length ≠ 1 := by
            intro hx
            rw [List.length_append, List.length_cons] at hx
            exact hone ⟨List.length_eq_zero_iff.1 (by omega), List.length_eq_zero_iff.1 (by omega)⟩
          simp only [plainTree?_eq_none (hlength _)]
      · simp [hproperty]
    | _ => rfl
  | @result l callee parens callback f ending t u h =>
    rw [candidateTree?, candidateTree?, hbare, hbare]
    have hplain (b : Body Located) := Mapping.plainTree?_inParens parens
      (t := .node callback (.lambda { f with body := b })) fun inner => by simp
    have hstrip (b : Body Located) :
        (inParens parens (.node callback (.lambda { f with body := b }))).strip =
          .node callback (.lambda { f with body := b }) := by
      rw [strip_inParens]
      exact Bare.strip fun inner => by simp
    have hsplit := h.splitTree?_eq ending
    simp only [mapCallTree?, here_node, loc_node]
    cases callee.strip.here with
    | member receiver property optional =>
      by_cases hproperty : property = "map"
      · subst hproperty
        simp only [hplain, hstrip, here_node, loc_node]
        cases hs : splitTree? (ending.body t) with
        | none =>
          rw [hs, Option.map_none, eq_comm, Option.map_eq_none_iff] at hsplit
          simp only [hsplit]
        | some parts =>
          rw [hs, Option.map_some, eq_comm, Option.map_eq_some_iff] at hsplit
          obtain ⟨parts', hs', hparts⟩ := hsplit
          obtain ⟨hleading, hresult⟩ := Prod.mk.inj hparts
          simp only [hs', hleading, hresult]
      · simp [hproperty]
    | _ => rfl

/-- A loop is found exactly where the grammar has one, with the parts that it has there. Pairs of
parentheses that are put around the call, its callee, an argument that is not spread or what the
callback returns, or that are taken away there, leave the answer as it is: the parts, or the reason
why there is no loop. -/
theorem candidate?_recognizes (h : s.IsTree l) :
    (∀ c, candidate? s l = .ok c ↔ IsLoop s l c) ∧
      ∀ {s' : Store} {l' : Loc}, s'.IsTree l' →
        Relation.EqvGen Regroups (s.treeAt l) (s'.treeAt l') →
          candidate? s' l' = candidate? s l := by
  refine ⟨candidate?_iff_isLoop h, fun {s' l'} h' hgroups => ?_⟩
  have hsame : candidateTree? (s.treeAt l) = candidateTree? (s'.treeAt l') := by
    generalize s.treeAt l = t at hgroups
    generalize s'.treeAt l' = u at hgroups
    induction hgroups with
    | rel t u h => exact h.candidateTree?_eq
    | refl t => rfl
    | symm t u _ ih => exact ih.symm
    | trans t u v _ _ ih ih' => exact ih.trans ih'
  rw [← candidate?_eq h.shows_treeAt, ← candidate?_eq h'.shows_treeAt, Store.loc_treeAt,
    Store.loc_treeAt] at hsame
  exact hsame.symm

/-- The tree of `xs.map((x: X, i) => { const y = i; return <li />; })`. Nothing hangs in three
places, which stay free for parentheses. -/
def plainCall : Store where
  nodes := #[.name "xs", .member ⟨0⟩ "map" false, .literal "", .name "i",
    .declaration "const" [⟨.plain "y", some ⟨3⟩⟩], .element ⟨"li", [], [], true⟩, .literal "",
    .returning (some ⟨5⟩),
    .lambda ⟨.arrow, false, false, [.annotated "x" ": X", .plain "i"], .block [⟨4⟩, ⟨7⟩]⟩,
    .literal "", .call ⟨1⟩ [⟨8⟩]]

/-- The tree of `((xs.map)(((x: X, i) => { const y = i; return (<li />); })))`. -/
def bracketedCall : Store where
  nodes := #[.name "xs", .member ⟨0⟩ "map" false, .paren ⟨1⟩, .name "i",
    .declaration "const" [⟨.plain "y", some ⟨3⟩⟩], .element ⟨"li", [], [], true⟩, .paren ⟨5⟩,
    .returning (some ⟨6⟩),
    .lambda ⟨.arrow, false, false, [.annotated "x" ": X", .plain "i"], .block [⟨4⟩, ⟨7⟩]⟩,
    .paren ⟨8⟩, .call ⟨2⟩ [⟨9⟩], .paren ⟨10⟩]

theorem plainCall_isTree : plainCall.IsTree ⟨10⟩ :=
  Store.isTree_of_filled (by decide) (by decide) (by decide)

theorem bracketedCall_isTree : bracketedCall.IsTree ⟨11⟩ :=
  Store.isTree_of_filled (by decide) (by decide) (by decide)

theorem bracketedCall_regroups :
    Relation.EqvGen Regroups (plainCall.treeAt ⟨10⟩) (bracketedCall.treeAt ⟨11⟩) := by
  let callee : Located := .node ⟨1⟩ (.member (.node ⟨0⟩ (.name "xs")) "map" false)
  let markup : Located := .node ⟨5⟩ (.element ⟨"li", [], [], true⟩)
  let ending : Ending := .block [.node ⟨4⟩ (.declaration "const"
    [⟨.plain "y", some (.node ⟨3⟩ (.name "i"))⟩])] ⟨7⟩
  let f (result : Located) : Lambda Located :=
    ⟨.arrow, false, false, [.annotated "x" ": X", .plain "i"], ending.body result⟩
  let bracketed (p : Loc) (t : Located) : Located := .node p (.paren t)
  have hresult := Regroups.result ⟨10⟩ callee [] ⟨8⟩ (f markup) ending (.around ⟨6⟩ markup)
  have hargument := Regroups.argument ⟨10⟩ callee [] []
    (.around ⟨9⟩ (.node ⟨8⟩ (.lambda (f (bracketed ⟨6⟩ markup))))) (by simp)
  have hcallee := Regroups.callee ⟨10⟩ (.around ⟨2⟩ callee)
    [bracketed ⟨9⟩ (.node ⟨8⟩ (.lambda (f (bracketed ⟨6⟩ markup))))]
  have hwhole := Regroups.whole (.around ⟨11⟩ (.node ⟨10⟩ (.call (bracketed ⟨2⟩ callee)
    [bracketed ⟨9⟩ (.node ⟨8⟩ (.lambda (f (bracketed ⟨6⟩ markup))))])))
  exact ((Relation.EqvGen.rel _ _ hresult).trans _ _ _ (.rel _ _ hargument)).trans _ _ _
    ((Relation.EqvGen.rel _ _ hcallee).trans _ _ _ (.rel _ _ hwhole))

theorem bracketedCall_recognized :
    let c : Candidate := ⟨⟨10⟩, ⟨0⟩, ⟨8⟩, some "x", some "i", [⟨4⟩], ⟨5⟩⟩
    plainCall.IsTree ⟨10⟩ ∧ bracketedCall.IsTree ⟨11⟩ ∧
      Relation.EqvGen Regroups (plainCall.treeAt ⟨10⟩) (bracketedCall.treeAt ⟨11⟩) ∧
      candidate? plainCall ⟨10⟩ = .ok c ∧ IsLoop plainCall ⟨10⟩ c ∧
      candidate? bracketedCall ⟨11⟩ = candidate? plainCall ⟨10⟩ := by
  intro c
  obtain ⟨hloop, hgroups⟩ := candidate?_recognizes plainCall_isTree
  have hc : candidate? plainCall ⟨10⟩ = .ok c := by cbv
  exact ⟨plainCall_isTree, bracketedCall_isTree, bracketedCall_regroups, hc, (hloop c).1 hc,
    hgroups bracketedCall_isTree bracketedCall_regroups⟩

end JsxLoops.Loop
