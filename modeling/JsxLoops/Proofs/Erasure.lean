import JsxLoops.Compile
import JsxLoops.Proofs.FreeNames
import JsxLoops.Proofs.Nesting
import JsxLoops.Proofs.Scopes
import Mathlib

/-!
What locations have no part in. Trees with one erasure differ only in where their nodes stand. They
have the same free names, they are renamed alike, they are mapping calls or not for the same reason,
and they are printed with the same text.
-/

namespace JsxLoops.Tree

open Located

variable {α β : Type} {n m : Node Located} {t u : Located} {ts us : List Located}

/-! ### Nodes -/

/-- What is computed tree by tree is the same for lists with one erasure, if it is so for each of
the trees. -/
theorem Located.map_eq_of_erase {f g : Located → β} (h : ts.map erase = us.map erase)
    (hf : ∀ t ∈ ts, ∀ u, t.erase = u.erase → f t = g u) : ts.map f = us.map g := by
  induction ts generalizing us with
  | nil => rw [List.map_eq_nil_iff.1 h.symm]; rfl
  | cons t ts ih =>
    cases us with
    | nil => cases h
    | cons u us =>
      obtain ⟨ht, hts⟩ := List.cons.inj h
      rw [List.map_cons, List.map_cons, hf t List.mem_cons_self u ht,
        ih hts fun x hx => hf x (List.mem_cons_of_mem t hx)]

theorem Node.map_eq_of_erase [Inhabited β] {f g : Located → β} (h : n.map erase = m.map erase)
    (hf : ∀ c ∈ n.children, ∀ d, c.erase = d.erase → f c = g d) : n.map f = m.map g := by
  have hshape : n.shape = m.shape := by simpa using congrArg Node.shape h
  have hkids : n.children.map erase = m.children.map erase := by
    simpa using congrArg Node.children h
  refine Node.ext_of_shape (by simpa using hshape) ?_
  rw [Node.children_map, Node.children_map]
  exact Located.map_eq_of_erase hkids hf

theorem Node.map_eq_call {f : α → β} {n : Node α} {callee : β} {arguments : List β}
    (h : n.map f = .call callee arguments) :
    ∃ c as, n = .call c as ∧ f c = callee ∧ as.map f = arguments := by
  cases n <;> simp_all [Node.map]

theorem Node.map_eq_member {f : α → β} {n : Node α} {object : β} {property : String}
    {optional : Bool} (h : n.map f = .member object property optional) :
    ∃ o, n = .member o property optional ∧ f o = object := by
  cases n <;> simp_all [Node.map]

theorem Node.map_eq_lambda {f : α → β} {n : Node α} {g : Lambda β} (h : n.map f = .lambda g) :
    ∃ body, n = .lambda ⟨g.form, g.isAsync, g.generator, g.params, body⟩ ∧ body.map f = g.body := by
  cases n with
  | lambda l =>
    obtain rfl := Node.lambda.inj h
    exact ⟨l.body, rfl, rfl⟩
  | _ => cases h

theorem Node.map_eq_paren {f : α → β} {n : Node α} {inner : β} (h : n.map f = .paren inner) :
    ∃ i, n = .paren i ∧ f i = inner := by
  cases n <;> simp_all [Node.map]

theorem Node.map_eq_container {f : α → β} {n : Node α} {inner : β}
    (h : n.map f = .container inner) : ∃ i, n = .container i ∧ f i = inner := by
  cases n <;> simp_all [Node.map]

theorem Node.map_eq_returning {f : α → β} {n : Node α} {value : β}
    (h : n.map f = .returning (some value)) :
    ∃ v, n = .returning (some v) ∧ f v = value := by
  cases n with
  | returning v => cases v <;> simp_all [Node.map]
  | _ => cases h

theorem Node.map_eq_name {f : α → β} {n : Node α} {name : String} (h : n.map f = .name name) :
    n = .name name := by
  cases n <;> simp_all [Node.map]

theorem Node.map_eq_fragment {f : α → β} {n : Node α} {children : List β}
    (h : n.map f = .fragment children) : ∃ cs, n = .fragment cs ∧ cs.map f = children := by
  cases n <;> simp_all [Node.map]

theorem Node.map_eq_element {f : α → β} {n : Node α} {e : Element β} (h : n.map f = .element e) :
    ∃ as cs, n = .element ⟨e.tag, as, cs, e.selfClosing⟩ ∧
      as.map (Attribute.map f) = e.attributes ∧ cs.map f = e.children := by
  cases n with
  | element d =>
    obtain rfl := Node.element.inj h
    exact ⟨d.attributes, d.children, rfl, rfl, rfl⟩
  | _ => cases h

theorem Node.map_eq_conditional {f : α → β} {n : Node α} {test yes no : β}
    (h : n.map f = .conditional test yes no) :
    ∃ t y e, n = .conditional t y e ∧ f t = test ∧ f y = yes ∧ f e = no := by
  cases n <;> simp_all [Node.map]

theorem Node.map_eq_logical {f : α → β} {n : Node α} {op : String} {left right : β}
    (h : n.map f = .logical op left right) :
    ∃ l r, n = .logical op l r ∧ f l = left ∧ f r = right := by
  cases n <;> simp_all [Node.map]

theorem Attribute.map_eq_expression {f : α → β} {a : Attribute α} {name : String} {value : β}
    (h : a.map f = .named name (.expression value)) :
    ∃ v, a = .named name (.expression v) ∧ f v = value := by
  cases a with
  | named _ v => cases v <;> simp_all [Attribute.map, AttributeValue.map]
  | spread => cases h

/-! ### Trees -/

namespace Located

theorem erase_eq_iff : t.erase = u.erase ↔ t.here.map erase = u.here.map erase := by
  obtain ⟨l, n⟩ := t
  obtain ⟨k, m⟩ := u
  rw [erase_node, erase_node, Subtree.node.injEq, here_node, here_node]

theorem bare_of_erase_eq (h : t.erase = u.erase) (ht : t.Bare) : u.Bare := by
  intro inner hu
  have hmap := erase_eq_iff.1 h
  rw [hu] at hmap
  obtain ⟨i, hi, -⟩ := Node.map_eq_paren hmap
  exact ht i hi

theorem erase_strip (h : t.erase = u.erase) : t.strip.erase = u.strip.erase := by
  induction t using induct_parens generalizing u with
  | paren l inner ih =>
    obtain ⟨k, m⟩ := u
    obtain ⟨i, rfl, hi⟩ := Node.map_eq_paren (erase_eq_iff.1 h).symm
    rw [strip_paren, strip_paren]
    exact ih hi.symm
  | bare l n hb => rw [hb.strip, (bare_of_erase_eq h hb).strip, h]

theorem hasMarkup_of_erase_eq (h : t.erase = u.erase) : t.hasMarkup = u.hasMarkup :=
  fold_eq_of_erase_eq (fun _ _ _ _ _ => rfl) h

theorem returns_of_erase_eq (h : t.erase = u.erase) : t.returns = u.returns :=
  fold_eq_of_erase_eq (fun _ _ _ _ _ => rfl) h

theorem staticPath_of_erase_eq (h : t.erase = u.erase) : t.staticPath = u.staticPath :=
  fold_eq_of_erase_eq (fun _ _ _ _ _ => rfl) h

theorem isMarkup_of_erase_eq (h : t.erase = u.erase) : t.here.isMarkup = u.here.isMarkup := by
  rw [← Node.isMarkup_map erase, erase_eq_iff.1 h, Node.isMarkup_map]

theorem declared_of_erase_eq (h : t.erase = u.erase) : t.here.declared = u.here.declared := by
  rw [← Loop.Node.declared_map erase, erase_eq_iff.1 h, Loop.Node.declared_map]

theorem declaredBy_of_erase_eq (h : ts.map erase = us.map erase) :
    declaredBy ts = declaredBy us := by
  rw [declaredBy, declaredBy, List.flatMap_def, List.flatMap_def,
    Located.map_eq_of_erase h fun t _ u => declared_of_erase_eq]

theorem scopeOf_of_erase_eq (h : n.map erase = m.map erase) : scopeOf n = scopeOf m := by
  cases n with
  | lambda f =>
    obtain ⟨body, rfl, hbody⟩ := Node.map_eq_lambda h.symm
    obtain ⟨form, isAsync, generator, params, v | statements⟩ := f
    · cases body with
      | value w => rfl
      | block us => cases hbody
    · cases body with
      | value w => cases hbody
      | block us =>
        have hdeclared := declaredBy_of_erase_eq (Body.block.inj hbody)
        simp only [scopeOf, hdeclared]
        rfl
  | block ts =>
    cases m with
    | block us => exact declaredBy_of_erase_eq (Node.block.inj h)
    | _ => cases h
  | _ => cases m <;> first | rfl | cases h

theorem openNames_of_erase_eq (h : t.erase = u.erase) : t.openNames = u.openNames := by
  induction t using induct generalizing u with
  | node l n ih =>
    obtain ⟨k, m⟩ := u
    have hmap : n.map erase = m.map erase := erase_eq_iff.1 h
    rw [openNames_node, openNames_node, Node.map_eq_of_erase hmap fun c hc d => ih c hc,
      scopeOf_of_erase_eq hmap]

theorem freeNames_of_erase_eq (h : t.erase = u.erase) : t.freeNames = u.freeNames :=
  congrArg List.eraseDups (openNames_of_erase_eq h)

theorem erase_renameFree (a b : String) (h : t.erase = u.erase) :
    (t.renameFree a b).erase = (u.renameFree a b).erase := by
  induction t using induct generalizing u with
  | node l n ih =>
    obtain ⟨k, m⟩ := u
    have hmap : n.map erase = m.map erase := erase_eq_iff.1 h
    rw [renameFree_node, renameFree_node, scopeOf_of_erase_eq hmap]
    split
    · exact h
    · rw [erase_node, erase_node, ← Node.renameHere_map, ← Node.renameHere_map, Node.map_map,
        Node.map_map, Node.map_eq_of_erase hmap fun c hc d => ih c hc]

theorem erase_inParens_inj {ps qs : List Loc} (ht : t.Bare) (hu : u.Bare)
    (h : (inParens ps t).erase = (inParens qs u).erase) :
    ps.length = qs.length ∧ t.erase = u.erase := by
  induction ps generalizing qs with
  | nil =>
    cases qs with
    | nil => exact ⟨rfl, h⟩
    | cons q qs => exact absurd rfl (bare_of_erase_eq h ht (inParens qs u))
  | cons p ps ih =>
    cases qs with
    | nil => exact absurd rfl (bare_of_erase_eq h.symm hu (inParens ps t))
    | cons q qs =>
      have hinner : (inParens ps t).erase = (inParens qs u).erase :=
        Node.paren.inj (erase_eq_iff.1 h)
      obtain ⟨hlength, he⟩ := ih hinner
      exact ⟨by simp [hlength], he⟩

theorem erase_inParens {ps qs : List Loc} (hlength : ps.length = qs.length)
    (h : t.erase = u.erase) : (inParens ps t).erase = (inParens qs u).erase := by
  induction ps generalizing qs with
  | nil => rwa [List.length_eq_zero_iff.1 hlength.symm]
  | cons p ps ih =>
    cases qs with
    | nil => cases hlength
    | cons q qs =>
      refine erase_eq_iff.2 ?_
      exact congrArg Node.paren (ih (Nat.succ.inj hlength))

/-! ### Printing -/

instance : Inhabited Shown := ⟨false, none, fun _ => ""⟩

def shown (style : Style) : Located → Shown := fold fun _ _ m => .ofNode style m

theorem shown_of_erase_eq (style : Style) (h : t.erase = u.erase) : t.shown style = u.shown style :=
  fold_eq_of_erase_eq (fun _ _ _ _ _ => rfl) h

end Located

theorem Store.Shows.shown {s : Store} (h : s.Shows t) (style : Style) :
    s.shown style t.loc = t.shown style :=
  h.read_eq_fold_self fun inside l n _ => by rw [Node.map_map]

theorem Store.Shows.print_eq {s s' : Store} (h : s.Shows t) (h' : s'.Shows u)
    (he : t.erase = u.erase) (style : Style) : s.print style t.loc = s'.print style u.loc := by
  rw [Store.print, Store.print, h.shown, h'.shown, shown_of_erase_eq style he]

end JsxLoops.Tree

namespace JsxLoops.Loop

open JsxLoops.Tree Located

variable {t u : Located} {ts us : List Located}

/-! ### Mapping calls -/

theorem mapCallTree?_of_erase_eq {receiver : Located} {arguments : List Located}
    (h : t.erase = u.erase) (ht : mapCallTree? t = some (receiver, arguments)) :
    ∃ receiver' arguments', mapCallTree? u = some (receiver', arguments') ∧
      arguments.map erase = arguments'.map erase := by
  obtain ⟨callee, optional, hcall, hmember⟩ := mapCallTree?_eq_some ht
  have hmap := erase_eq_iff.1 h
  rw [hcall] at hmap
  obtain ⟨callee', arguments', hcall', hcallee, harguments⟩ := Node.map_eq_call hmap.symm
  have hstrip := erase_eq_iff.1 (erase_strip hcallee.symm)
  rw [hmember] at hstrip
  obtain ⟨receiver', hmember', -⟩ := Node.map_eq_member hstrip.symm
  exact ⟨receiver', arguments', by rw [mapCallTree?, hcall']; simp [hmember'], harguments.symm⟩

theorem plainTree?_of_erase_eq (h : ts.map erase = us.map erase) (ht : plainTree? ts = some t) :
    ∃ u, plainTree? us = some u ∧ t.erase = u.erase := by
  obtain rfl := plainTree?_eq_some ht
  obtain ⟨u, rfl, hu⟩ := List.map_eq_singleton_iff.1 h.symm
  refine ⟨u, ?_, hu.symm⟩
  have hmap := erase_eq_iff.1 hu
  rw [plainTree?] at ht ⊢
  cases hn : u.here with
  | spread inner =>
    rw [hn] at hmap
    cases ht' : t.here with
    | spread => rw [ht'] at ht; cases ht
    | _ => rw [ht'] at hmap; cases hmap
  | _ => rfl

theorem splitTree?_of_erase_eq {b b' : Body Located} {leading : List Located} {result : Located}
    (h : b.map erase = b'.map erase) (hb : splitTree? b = some (leading, result)) :
    ∃ leading' result', splitTree? b' = some (leading', result') ∧
      result.erase = result'.erase := by
  obtain ⟨ending, rfl, rfl, hreturns⟩ := splitTree?_eq_some hb
  cases ending with
  | value =>
    cases b' with
    | block => cases h
    | value v => exact ⟨[], v, rfl, Body.value.inj h⟩
  | block leading last =>
    cases b' with
    | value => cases h
    | block statements =>
      have hlist : (leading ++ [Located.node last (.returning (some result))]).map erase =
          statements.map erase := Body.block.inj h
      rw [List.map_append] at hlist
      obtain ⟨leading', rest, rfl, hleading, hrest⟩ := List.map_eq_append_iff.1 hlist.symm
      obtain ⟨last', rfl, hlast⟩ := List.map_eq_singleton_iff.1 hrest
      obtain ⟨value, hvalue, hresult⟩ := Node.map_eq_returning (erase_eq_iff.1 hlast)
      refine ⟨leading', value, ?_, hresult.symm⟩
      have hnone : (leading'.map returns).any id = (leading.map returns).any id := by
        rw [Located.map_eq_of_erase hleading fun t _ u => returns_of_erase_eq]
      rw [List.any_map, List.any_map] at hnone
      have hreturns' : leading'.any returns = false := hnone.trans hreturns
      simp only [splitTree?, List.getLast?_concat, hvalue, List.dropLast_concat, hreturns']
      rfl

theorem mapCallTree?_eq_none_of_erase_eq (h : t.erase = u.erase) (ht : mapCallTree? t = none) :
    mapCallTree? u = none := by
  cases hu : mapCallTree? u with
  | none => rfl
  | some call =>
    obtain ⟨receiver, arguments, hsome, -⟩ := mapCallTree?_of_erase_eq h.symm hu
    rw [ht] at hsome
    cases hsome

theorem candidateTree?_eq_notMapCall_iff :
    candidateTree? t = .error .notMapCall ↔ mapCallTree? t.strip = none := by
  rw [candidateTree?]
  cases mapCallTree? t.strip with
  | none => exact ⟨fun _ => rfl, fun _ => rfl⟩
  | some call =>
    refine ⟨fun h => ?_, fun h => ?_⟩
    · simp only at h
      split at h
      case h_2 => cases h
      case h_1 =>
        split at h
        case h_2 => cases h
        case h_1 =>
          split at h
          · cases h
          · split at h
            case h_2 => cases h
            case h_1 =>
              split at h
              case h_2 => cases h
              case h_1 => split at h <;> cases h
    · cases h

theorem candidateTree?_of_erase_eq {c : Candidate} (h : t.erase = u.erase)
    (ht : candidateTree? t = .ok c) : ∃ c', candidateTree? u = .ok c' := by
  rw [candidateTree?] at ht
  simp only at ht
  split at ht
  case h_2 => cases ht
  case h_1 receiver arguments hcall =>
  split at ht
  case h_2 => cases ht
  case h_1 argument hargument =>
  split at ht
  case h_2 => cases ht
  case h_1 f hf =>
  split at ht
  · cases ht
  case isFalse hflags =>
  split at ht
  case h_2 => cases ht
  case h_1 names hnames =>
  split at ht
  case h_2 => cases ht
  case h_1 leading result hresult =>
  split at ht
  case isFalse => cases ht
  case isTrue hmarkup =>
  -- each step finds at the other place what it finds here
  obtain ⟨receiver', arguments', hcall', harguments⟩ :=
    mapCallTree?_of_erase_eq (erase_strip h) hcall
  obtain ⟨argument', hargument', he⟩ := plainTree?_of_erase_eq harguments hargument
  have hlambda := erase_eq_iff.1 (erase_strip he)
  rw [hf] at hlambda
  obtain ⟨body, hf', hbody⟩ := Node.map_eq_lambda hlambda.symm
  obtain ⟨leading', result', hresult', hr⟩ := splitTree?_of_erase_eq hbody.symm hresult
  have hmarkup' : result'.strip.here.isMarkup = true :=
    (isMarkup_of_erase_eq (erase_strip hr)).symm.trans hmarkup
  rw [candidateTree?, hcall']
  simp only [hargument', hf', hflags, hnames, hresult', hmarkup']
  exact ⟨_, rfl⟩

/-! ### Verdicts -/

theorem candidateTree?_cases (h : t.erase = u.erase) :
    (∃ c c', candidateTree? t = .ok c ∧ candidateTree? u = .ok c') ∨
      ∃ reason reason', candidateTree? t = .error reason ∧ candidateTree? u = .error reason' ∧
        (reason = .notMapCall ↔ reason' = .notMapCall) := by
  cases ht : candidateTree? t with
  | ok c =>
    obtain ⟨c', hc'⟩ := candidateTree?_of_erase_eq h ht
    exact .inl ⟨c, c', rfl, hc'⟩
  | error reason =>
    cases hu : candidateTree? u with
    | ok c =>
      obtain ⟨c', hc'⟩ := candidateTree?_of_erase_eq h.symm hu
      rw [ht] at hc'
      cases hc'
    | error reason' =>
      refine .inr ⟨reason, reason', rfl, rfl, ?_⟩
      have hnone := candidateTree?_eq_notMapCall_iff (t := t)
      have hnone' := candidateTree?_eq_notMapCall_iff (t := u)
      rw [ht, Except.error.injEq] at hnone
      rw [hu, Except.error.injEq] at hnone'
      rw [hnone, hnone']
      exact ⟨mapCallTree?_eq_none_of_erase_eq (erase_strip h),
        mapCallTree?_eq_none_of_erase_eq (erase_strip h).symm⟩

end JsxLoops.Loop
