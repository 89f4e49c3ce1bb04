import JsxLoops.Proofs.Layout
import JsxLoops.Proofs.Peeling

/-!
Lowering looks through parentheses. Two runs over trees that differ in parentheses around
expressions keep step: where the one goes through parentheses, the other one stays where it is, and
both find the same loops, number them alike and note the same in their records. There is one
exception: a mapping call that is the value of an attribute is lowered only if it stands in
parentheses.
-/

namespace JsxLoops.Tree.Located

open JsxLoops.Loop

variable {t u : Located}

/-! ### What can be told from a kernel -/

theorem strip_of_kernel_eq (h : t.kernel = u.kernel) :
    t.strip.here.mapAt kernel valueCore core = u.strip.here.mapAt kernel valueCore core :=
  core_eq_iff.1 h

theorem hasMarkup_of_kernel_eq (h : t.kernel = u.kernel) : t.hasMarkup = u.hasMarkup := by
  have hcore := hasMarkup_of_erase_eq h
  rwa [hasMarkup_peeled, hasMarkup_peeled, hasMarkup_strip, hasMarkup_strip] at hcore

theorem staticPath_of_kernel_eq (h : t.kernel = u.kernel) : t.staticPath = u.staticPath := by
  have hcore := staticPath_of_erase_eq h
  rwa [staticPath_peeled, staticPath_peeled, staticPath_strip, staticPath_strip] at hcore

theorem freeNames_of_kernel_eq (h : t.kernel = u.kernel) : t.freeNames = u.freeNames := by
  have hcore := openNames_of_erase_eq h
  rw [openNames_peeled, openNames_peeled, openNames_strip, openNames_strip] at hcore
  exact congrArg List.eraseDups hcore

theorem notMapCall_of_kernel_eq (h : t.kernel = u.kernel) :
    candidateTree? t = .error .notMapCall ↔ candidateTree? u = .error .notMapCall := by
  have hpeeled (t : Located) :
      mapCallTree? t.strip = none ↔ mapCallTree? t.strip.peeled = none := by
    rw [mapCallTree?_peeled, Option.map_eq_none_iff]
  rw [candidateTree?_eq_notMapCall_iff, candidateTree?_eq_notMapCall_iff, hpeeled t, hpeeled u]
  exact ⟨mapCallTree?_eq_none_of_erase_eq h, mapCallTree?_eq_none_of_erase_eq h.symm⟩

theorem lambda_of_kernel_eq (h : t.kernel = u.kernel) :
    (∃ f, t.strip.here = .lambda f) ↔ ∃ f, u.strip.here = .lambda f := by
  have half {t u : Located} (h : t.kernel = u.kernel) (ht : ∃ f, t.strip.here = .lambda f) :
      ∃ f, u.strip.here = .lambda f := by
    obtain ⟨f, hf⟩ := ht
    have hmap := strip_of_kernel_eq h
    rw [hf] at hmap
    cases hn : u.strip.here with
    | lambda g => exact ⟨g, rfl⟩
    | _ => rw [hn] at hmap; cases hmap
  exact ⟨half h, half h.symm⟩

theorem isMarkup_of_core_eq (h : t.core = u.core) : t.here.isMarkup = u.here.isMarkup := by
  have hmap := congrArg Node.isMarkup (core_eq_iff.1 h)
  rwa [Node.isMarkup_mapAt, Node.isMarkup_mapAt] at hmap

theorem declaredBy_of_core_eq {ts us : List Located} (h : ts.map core = us.map core) :
    declaredBy ts = declaredBy us := by
  rw [← declaredBy_peeled ts, ← declaredBy_peeled us]
  refine declaredBy_of_erase_eq ?_
  rwa [List.map_map, List.map_map]

theorem core_renameFree (a b : String) (h : t.core = u.core) :
    (t.renameFree a b).core = (u.renameFree a b).core := by
  rw [core, core, peeled_renameFree, peeled_renameFree]
  exact erase_renameFree a b h

end JsxLoops.Tree.Located

namespace JsxLoops.Loop

open JsxLoops.Tree Located

variable {adapter : Adapter} {start start' : Nat} {gs gs' : List Premise}
  {ps ps' qs qs' : List Part} {σ σ' τ τ' : Stage adapter} {t t' u u' v v' : Located}

theorem leafOf_of_kernel_eq {scope : LoopScope} (h : t.kernel = u.kernel)
    (position : Option String) :
    leafOf adapter scope position t = leafOf adapter scope position u := by
  have hmap := strip_of_kernel_eq h
  rw [leafOf, leafOf]
  split
  · rfl
  · cases hn : t.strip.here with
    | name name =>
      rw [hn] at hmap
      rw [Node.map_eq_name (Node.map_eq_of_mapAt hmap.symm rfl)]
    | _ =>
      rw [hn] at hmap
      cases hm : u.strip.here with
      | name name => rw [hm] at hmap; cases hmap
      | _ => rfl

theorem nestedOf_of_kernel_eq {scope : LoopScope} (h : t.kernel = u.kernel) :
    nestedOf scope t = nestedOf scope u := by
  rw [nestedOf, nestedOf, staticPath_of_kernel_eq h]

/-! ### Mapping calls -/

/-- Mapping calls that differ only in locations and in parentheses. -/
structure Mapping.Agrees (m m' : Mapping) : Prop where
  receiver : m.receiver.kernel = m'.receiver.kernel
  params : m.params = m'.params
  leading : m.leading.map core = m'.leading.map core
  subtree : m.subtree.core = m'.subtree.core

theorem Ending.agrees {ending ending' : Ending} {ps ps' : List Loc} (ht : t.here.isMarkup = true)
    (hu : u.here.isMarkup = true) (h : (ending.body (inParens ps t)).mapAt kernel core =
      (ending'.body (inParens ps' u)).mapAt kernel core) :
    ending.leading.map core = ending'.leading.map core ∧ t.core = u.core := by
  have hinner {ps ps' : List Loc} (h : (inParens ps t).kernel = (inParens ps' u).kernel) :
      t.core = u.core := by
    rwa [kernel_inParens, kernel_inParens, (bare_of_isMarkup ht).kernel,
      (bare_of_isMarkup hu).kernel] at h
  cases ending with
  | value =>
    cases ending' with
    | value => exact ⟨rfl, hinner (Body.value.inj h)⟩
    | block => cases h
  | block leading last =>
    cases ending' with
    | value => cases h
    | block leading' last' =>
      have hlist := Body.block.inj h
      rw [List.map_append, List.map_append] at hlist
      obtain ⟨hleading, hlast⟩ := List.append_inj' hlist rfl
      have hreturns := core_eq_iff.1 (List.cons.inj hlast).1
      exact ⟨hleading, hinner (Option.some.inj (Node.returning.inj hreturns))⟩

theorem Mapping.agrees_of_kernel_eq {m m' : Mapping} {ps ps' : List Loc} (hm : m.Valid)
    (hm' : m'.Valid) (h : (inParens ps m.tree).kernel = (inParens ps' m'.tree).kernel) :
    m.Agrees m' := by
  rw [kernel_inParens, kernel_inParens, m.bare_tree.kernel, m'.bare_tree.kernel] at h
  have hcall := core_eq_iff.1 h
  simp only [Mapping.tree, Mapping.withCallback, here_node, Node.mapAt, Node.map, List.map_cons,
    List.map_nil, Node.call.injEq, List.cons.injEq, and_true, Mapping.callee, kernel_inParens]
    at hcall
  obtain ⟨hcallee, hcallback⟩ := hcall
  rw [kernel_node (by simp), kernel_node (by simp)] at hcallee hcallback
  simp only [Node.mapAt, Node.map, Subtree.node.injEq, Node.member.injEq] at hcallee
  simp only [Node.mapAt, Subtree.node.injEq, Node.lambda.injEq, Lambda.mk.injEq,
    true_and] at hcallback
  obtain ⟨-, hparams, hbody⟩ := hcallback
  obtain ⟨hleading, hsubtree⟩ := Ending.agrees hm.markup hm'.markup hbody
  exact ⟨hcallee.1, hparams, hleading, hsubtree⟩

namespace Mapping.Agrees

variable {m m' : Mapping}

theorem names (h : m.Agrees m') : m.names = m'.names := by
  rw [Mapping.names, Mapping.names, h.params]

theorem itemName (h : m.Agrees m') : m.itemName = m'.itemName := by
  simp only [Mapping.itemName, Candidate.itemName, Mapping.candidate, h.names]

theorem renamed (h : m.Agrees m') (tokens : Tokens) (he : t.core = u.core) :
    (m.renamed tokens t).core = (m'.renamed tokens u).core := by
  rw [Mapping.renamed, Mapping.renamed, h.names]
  split
  · exact core_renameFree _ _ he
  · exact he

theorem renamed_leading (h : m.Agrees m') (tokens : Tokens) :
    (m.leading.map (m.renamed tokens)).map core =
      (m'.leading.map (m'.renamed tokens)).map core := by
  rw [List.map_map, List.map_map]
  exact map_eq_of_forall₂ (forall₂_eq_iff.2 h.leading) fun t _ u _ => h.renamed tokens

theorem scope (h : m.Agrees m') (tokens : Tokens) : m.scope tokens = m'.scope tokens := by
  rw [Mapping.scope, Mapping.scope, h.itemName, declaredBy_of_core_eq (h.renamed_leading tokens)]

end Mapping.Agrees

/-! ### Parts -/

/-- Parts that differ only in locations and in parentheses. Whether a mapping call that is gone
into stands in parentheses makes a difference. -/
inductive Part.Agrees : Part → Part → Prop
  | node {t u : Located} (h : t.kernel = u.kernel)
    (hb : (candidateTree? t).isOk = true → (t.Bare ↔ u.Bare)) : Part.Agrees (.node t) (.node u)
  | attribute (holder holder' : Loc) (position position' : Nat) {a b : Attribute Located}
    (h : a.mapAt kernel valueCore = b.mapAt kernel valueCore) :
    Part.Agrees (.attribute holder position a) (.attribute holder' position' b)
  | child {t u : Located} (h : t.core = u.core) : Part.Agrees (.child t) (.child u)
  | operand (under under' : List Premise) {t u : Located} (h : t.kernel = u.kernel) :
    Part.Agrees (.operand under t) (.operand under' u)
  | statement {t u : Located} (h : t.kernel = u.kernel) :
    Part.Agrees (.statement t) (.statement u)
  | loop {m m' : Mapping} (h : m.Agrees m') : Part.Agrees (.loop m) (.loop m')

theorem Part.Agrees.markup (h : t.core = u.core) (hm : t.here.isMarkup = true) :
    (Part.node t).Agrees (.node u) :=
  .node (kernel_of_core_eq h) fun _ => iff_of_true (bare_of_isMarkup hm)
    (bare_of_isMarkup ((isMarkup_of_core_eq h).symm.trans hm))

theorem Part.Agrees.inert {p q : Part} (h : p.Agrees q) (hp : p.Inert) : q.Inert := by
  cases h with
  | «attribute» _ _ _ _ h =>
    rintro name v rfl
    rename_i a
    rcases a with ⟨name', _ | _ | w | _⟩ | w
    case named.expression => exact hp name' w rfl
    all_goals cases h
  | child h =>
    refine ⟨(isMarkup_of_core_eq h).symm.trans hp.1, fun v hv => ?_⟩
    have hmap := core_eq_iff.1 h
    rw [hv] at hmap
    obtain ⟨w, hw, -⟩ := Node.map_eq_container (Node.map_eq_of_mapAt hmap rfl)
    exact hp.2 w hw
  | _ => cases hp

theorem agrees_children_iff {ts us : List Located} :
    List.Forall₂ Part.Agrees (ts.map .child) (us.map .child) ↔ ts.map core = us.map core := by
  rw [List.forall₂_map_left_iff, List.forall₂_map_right_iff, ← forall₂_eq_iff]
  refine ⟨fun h => h.imp fun t u h => ?_, fun h => h.imp fun t u h => .child h⟩
  cases h
  assumption

theorem agrees_attributes {l k : Loc} {as bs : List (Attribute Located)}
    (h : as.map (Attribute.mapAt kernel valueCore) = bs.map (Attribute.mapAt kernel valueCore)) :
    List.Forall₂ Part.Agrees (as.mapIdx fun i a => .attribute l i a)
      (bs.mapIdx fun i b => .attribute k i b) := by
  refine (forall₂_mapIdx_iff (S := fun a b => Attribute.mapAt kernel valueCore a =
    Attribute.mapAt kernel valueCore b) fun i j a b => ⟨fun h => ?_, .attribute l k i j⟩).2
    (forall₂_eq_iff.2 h)
  cases h
  assumption

theorem partsOf_agrees {l k : Loc} {n m : Node Located}
    (h : n.mapAt kernel valueCore core = m.mapAt kernel valueCore core)
    (hn : ∀ inner, n ≠ .paren inner) :
    List.Forall₂ Part.Agrees (partsOf l n) (partsOf k m) := by
  cases hp : hasParts n with
  | false =>
    have hparts (n : Node Located) : hasParts (n.mapAt kernel valueCore core) = hasParts n := by
      cases n <;> rfl
    have hq : hasParts m = false := by rw [← hparts, ← h, hparts, hp]
    rw [partsOf_eq_nil hp, partsOf_eq_nil hq]
    exact .nil
  | true =>
    cases n with
    | element e =>
      cases m with
      | element d =>
        simp only [Node.mapAt, Node.element.injEq, Element.mk.injEq] at h
        exact List.rel_append (agrees_attributes h.2.1) (agrees_children_iff.2 h.2.2.1)
      | _ => cases h
    | fragment cs =>
      cases m with
      | fragment ds => exact agrees_children_iff.2 (Node.fragment.inj h)
      | _ => cases h
    | conditional test yes no =>
      obtain ⟨test', yes', no', rfl, -, hyes, hno⟩ :=
        Node.map_eq_conditional (Node.map_eq_of_mapAt h.symm rfl)
      exact .cons (.operand _ _ hyes.symm) (.cons (.operand _ _ hno.symm) .nil)
    | logical op left right =>
      obtain ⟨left', right', rfl, -, hright⟩ :=
        Node.map_eq_logical (Node.map_eq_of_mapAt h.symm rfl)
      exact .cons (.operand _ _ hright.symm) .nil
    | paren inner => exact absurd rfl (hn inner)
    | _ => cases hp

/-! ### Places -/

inductive Place.Agrees : Place → Place → Prop
  | spot {spot spot' : Spot} (h : spot.Alike spot') : Place.Agrees (.spot spot) (.spot spot')
  | operand (under under' : List Premise) : Place.Agrees (.operand under) (.operand under')

namespace Place.Agrees

variable {place place' : Place}

theorem verdict (h : place.Agrees place') (he : v.kernel = v'.kernel) :
    place.verdict v = place'.verdict v' := by
  have hmarkup := hasMarkup_of_kernel_eq he
  have hok := isOk_of_kernel_eq he
  have hcall := notMapCall_of_kernel_eq he
  cases h with
  | spot h =>
    cases h with
    | text =>
      cases hc : candidateTree? v <;> cases hc' : candidateTree? v' <;>
        simp_all [Place.verdict, Except.isOk, Except.toBool]
    | «attribute» => simp only [Place.verdict, hmarkup]
  | operand =>
    cases hc : candidateTree? v <;> cases hc' : candidateTree? v' <;>
      simp_all [Place.verdict, Except.isOk, Except.toBool]

theorem of_holding {q : Part} (h : (place.holding v).Agrees q) :
    ∃ place' v', q = place'.holding v' ∧ place.Agrees place' ∧ v.kernel = v'.kernel ∧
      (place.verdict v = .enter → (Part.node v).Agrees (.node v')) := by
  rcases place with (c | ⟨l, i, name⟩) | under
  · cases h with
    | @child _ u h =>
      obtain ⟨k, m⟩ := u
      obtain ⟨w, rfl, hw⟩ :=
        Node.map_eq_container (Node.map_eq_of_mapAt (core_eq_iff.1 h).symm rfl)
      refine ⟨.spot (.text k), w, rfl, .spot (.text c k), hw.symm, fun hv => .node hw.symm ?_⟩
      intro hok
      cases hc : candidateTree? v with
      | ok => simp only [Place.verdict, hc] at hv; cases hv
      | error => rw [hc] at hok; cases hok
  · cases h with
    | @«attribute» _ k _ j _ b h =>
      rcases b with ⟨name', _ | _ | w | _⟩ | w
      case named.expression =>
        obtain ⟨rfl, hvalue⟩ := Attribute.named.inj h
        obtain ⟨hkernel, hbare⟩ := of_valueCore_eq (AttributeValue.expression.inj hvalue)
        exact ⟨.spot (.attribute k j name), w, rfl, .spot (.attribute l k i j name), hkernel,
          fun _ => .node hkernel hbare⟩
      all_goals cases h
  · cases h with
    | @operand _ under' _ u h =>
      refine ⟨.operand under', u, rfl, .operand under under', h, fun hv => .node h ?_⟩
      intro hok
      cases hc : candidateTree? v with
      | ok => simp only [Place.verdict, hc] at hv; cases hv
      | error => rw [hc] at hok; cases hok

end Place.Agrees

theorem Lowers.exists_treats_agrees {place : Place} (h : Lowers adapter start gs qs τ qs' τ')
    (hp : List.Forall₂ Part.Agrees [place.holding v] qs) :
    ∃ place' v' q', place.Agrees place' ∧ v.kernel = v'.kernel ∧
      place.verdict v = place'.verdict v' ∧
      (place.verdict v = .enter → (Part.node v).Agrees (.node v')) ∧
      Treats start gs place' v' τ q' τ' := by
  obtain ⟨q, q', rfl, rfl, hq⟩ := h.exists_related hp
  obtain ⟨place', v', rfl, hplace, he, henter⟩ := Place.Agrees.of_holding hq
  exact ⟨place', v', q', hplace, he, hplace.verdict he, henter, h.treats⟩

/-! ### Going through parentheses -/

theorem exists_error (h : (candidateTree? t).isOk = false) :
    ∃ reason, candidateTree? t = .error reason := by
  cases hc : candidateTree? t with
  | ok => rw [hc] at h; cases h
  | error reason => exact ⟨reason, rfl⟩

theorem verdict_operand_of_error (under : List Premise) {reason : Mismatch}
    (h : candidateTree? v = .error reason) :
    Place.verdict (.operand under) v =
      if reason = .notMapCall ∧ v.hasMarkup = true then .enter else .leave := by
  simp only [Place.verdict, h, Bool.and_eq_true, decide_eq_true_eq]

theorem Lowers.eq_of_operands (h : Lowers adapter start gs ps σ ps' σ')
    (hp : ∀ p ∈ ps, ∃ under v, p = .operand under v ∧ v.hasMarkup = false) : σ' = σ := by
  induction ps generalizing σ ps' with
  | nil => exact h.of_nil.2
  | cons p ps ih =>
    obtain ⟨p', qs', σ₁, -, hfirst, hrest⟩ := h.of_cons
    obtain ⟨under, v, rfl, hv⟩ := hp p List.mem_cons_self
    have hverdict := Place.verdict_operand under hv
    obtain rfl := ih hrest fun q hq => hp q (List.mem_cons_of_mem _ hq)
    have htreats : Treats start gs (.operand under) v σ p' σ' := Lowers.treats hfirst
    cases htreats with
    | leave => rfl
    | enter hv' | keep hv' | move _ hv' | loop hv' => cases hverdict.symm.trans hv'

theorem Lowers.eq_of_no_markup (h : Lowers adapter start gs [.node t] σ [.node t'] σ')
    (hm : t.hasMarkup = false) : σ' = σ := by
  obtain ⟨-, -, hparts⟩ := h.of_node
  refine hparts.eq_of_operands fun p hp => ?_
  obtain ⟨l, n⟩ := t
  have hno {c : Located} (hc : c ∈ n.children) : c.hasMarkup = false :=
    hasMarkup_eq_false_of_mem hc hm
  cases n with
  | element e => rw [hasMarkup_of_isMarkup rfl] at hm; cases hm
  | fragment cs => rw [hasMarkup_of_isMarkup rfl] at hm; cases hm
  | conditional test yes no =>
    simp only [partsOf, here_node, List.mem_cons, List.not_mem_nil, or_false] at hp
    rcases hp with rfl | rfl
    · exact ⟨_, yes, rfl, hno (by simp [Node.children])⟩
    · exact ⟨_, no, rfl, hno (by simp [Node.children])⟩
  | logical op left right =>
    exact ⟨_, right, List.mem_singleton.1 hp, hno (by simp [Node.children])⟩
  | paren inner => exact ⟨_, inner, List.mem_singleton.1 hp, hno (by simp [Node.children])⟩
  | _ => cases hp

theorem exists_call (hb : t.Bare) (hc : candidateTree? t ≠ .error .notMapCall) :
    ∃ callee arguments, t.here = .call callee arguments := by
  by_contra hno
  exact hc (candidateTree?_of_no_call hb fun callee arguments hn => hno ⟨callee, arguments, hn⟩)

/-- What is gone into without parentheses could have been gone into as an operand, unless it is a
mapping call. -/
theorem Lowers.as_operand (h : Lowers adapter start gs [.node t] σ [.node t'] σ') (hb : t.Bare)
    (hok : (candidateTree? t).isOk = false) :
    ∃ p', Lowers adapter start gs [.operand [] t] σ [p'] σ' := by
  obtain ⟨reason, hr⟩ := exists_error hok
  have hverdict := verdict_operand_of_error [] hr
  split at hverdict
  · have henter : Lowers adapter start (gs ++ Place.premises (.operand [])) [.node t] σ
        [.node t'] σ' := by rwa [Place.premises, List.append_nil]
    exact ⟨_, (Lowers.enter hverdict henter :)⟩
  case isFalse hno =>
    suffices hsame : σ' = σ by
      subst hsame
      exact ⟨_, (Lowers.leave hverdict :)⟩
    cases hm : t.hasMarkup with
    | false => exact h.eq_of_no_markup hm
    | true =>
      obtain ⟨callee, arguments, hn⟩ := exists_call hb fun hcall =>
        hno ⟨Except.error.inj (hr.symm.trans hcall), hm⟩
      obtain ⟨-, -, hparts⟩ := h.of_node
      rw [hn] at hparts
      exact hparts.of_nil.2

/-- Going through parentheses comes to the parts of what stands in them, unless that is a mapping
call. -/
theorem Lowers.of_parens {parens : List Loc} (hb : t.Bare)
    (hok : (candidateTree? t).isOk = true → parens = [])
    (h : Lowers adapter start gs [.node (inParens parens t)] σ [.node t'] σ') :
    ∃ gs' ps', Lowers adapter start gs' (partsOf t.loc t.here) σ ps' σ' := by
  induction parens generalizing gs t' with
  | nil => exact ⟨gs, _, h.of_node.2.2⟩
  | cons p parens ih =>
    have hno : (candidateTree? t).isOk = false := by
      cases hc : (candidateTree? t).isOk with
      | false => rfl
      | true => cases hok hc
    obtain ⟨reason, hr⟩ := exists_error hno
    have hverdict := verdict_operand_of_error [] ((candidateTree?_inParens parens t).trans hr)
    obtain ⟨-, -, hparts⟩ := h.of_node
    obtain ⟨p', hp'⟩ := Lowers.exists_single (p := .operand [] (inParens parens t)) hparts
    rw [hp'] at hparts
    have htreats : Treats start gs (.operand []) (inParens parens t) σ p' σ' :=
      Lowers.treats hparts
    cases htreats with
    | leave hv =>
      cases hm : t.hasMarkup with
      | false => exact ⟨[], _, (Lowers.of_no_markup σ hm).of_node.2.2⟩
      | true =>
        have hmarkup : (inParens parens t).hasMarkup = true :=
          hasMarkup_of_occurs (occurs_inParens parens t) hm
        obtain ⟨callee, arguments, hn⟩ := exists_call hb fun hcall => by
          obtain rfl := Except.error.inj (hr.symm.trans hcall)
          rw [if_pos ⟨rfl, hmarkup⟩, hv] at hverdict
          cases hverdict
        rw [hn]
        exact ⟨[], [], .nil⟩
    | enter _ hnode =>
      rw [Place.premises, List.append_nil] at hnode
      exact ih (fun hc => by rw [hno] at hc; cases hc) hnode
    | keep hv | move _ hv | loop hv =>
      rw [hv] at hverdict
      split at hverdict <;> cases hverdict

theorem Lowers.strip_statement {p' : Part}
    (h : Lowers adapter start gs [.statement t] σ [p'] σ') :
    ∃ p'', Lowers adapter start gs [.statement t.strip] σ [p''] σ' := by
  induction t using induct_parens generalizing p' with
  | paren l inner ih =>
    obtain ⟨t', rfl, ⟨hm, -⟩ | ⟨-, -, hsearch⟩⟩ := h.of_statement
    · cases hm
    · obtain ⟨q, hq⟩ := Lowers.exists_single (p := .statement inner) hsearch
      rw [hq] at hsearch
      rw [strip_paren]
      exact ih hsearch
  | bare l n hb =>
    rw [hb.strip]
    exact ⟨_, h⟩

theorem Lowers.exists_parts {l : Loc} {n : Node Located}
    (h : Lowers adapter start gs [.node u] σ [.node u'] σ')
    (hu : (Part.node (.node l n)).Agrees (.node u)) :
    ∃ gs' qs qs', Lowers adapter start gs' qs σ qs' σ' ∧
      List.Forall₂ Part.Agrees (partsOf l n) qs := by
  cases hu with | node he hbare =>
  by_cases hparen : ∃ inner, n = .paren inner
  · obtain ⟨inner, rfl⟩ := hparen
    rw [kernel_paren] at he
    by_cases hu : ∃ k inner', u = .node k (.paren inner')
    · obtain ⟨k, inner', rfl⟩ := hu
      rw [kernel_paren] at he
      exact ⟨_, _, _, h.of_node.2.2, .cons (.operand _ _ he) .nil⟩
    · -- this run is there already
      have hb : u.Bare := fun inner he => hu ⟨u.loc, inner, by rw [← he, eta]⟩
      have hok : (candidateTree? u).isOk = false := by
        rw [← isOk_of_kernel_eq he]
        cases hc : (candidateTree? inner).isOk with
        | false => rfl
        | true =>
          rw [candidateTree?_paren] at hbare
          exact absurd rfl ((hbare hc).2 hb inner)
      obtain ⟨p', hoperand⟩ := h.as_operand hb hok
      exact ⟨_, _, _, hoperand, .cons (.operand _ _ he) .nil⟩
  · have hb : (Located.node l n).Bare := fun inner he => hparen ⟨inner, he⟩
    -- this run goes through its parentheses first
    obtain ⟨parens, hparens⟩ := exists_inParens u
    rw [hparens] at h
    obtain ⟨gs', qs', hparts⟩ := h.of_parens (bare_strip u) fun hok => by
      rw [candidateTree?_strip, ← isOk_of_kernel_eq he] at hok
      cases parens with
      | nil => rfl
      | cons p parens =>
        have hu : u.here = .paren (inParens parens u.strip) := congrArg Located.here hparens
        exact absurd hu ((hbare hok).1 hb _)
    have hmap := strip_of_kernel_eq he
    rw [hb.strip] at hmap
    exact ⟨gs', _, qs', hparts, partsOf_agrees hmap fun inner he => hparen ⟨inner, he⟩⟩

theorem Lowers.exists_statements {l : Loc} {n : Node Located} {p' : Part}
    (h : Lowers adapter start gs [.statement u] σ [p'] σ')
    (he : (Located.node l n).kernel = u.kernel) (hm : n.isMarkup = false) :
    ∃ qs qs', Lowers adapter start gs qs σ qs' σ' ∧
      List.Forall₂ Part.Agrees (n.children.map .statement) qs := by
  by_cases hparen : ∃ inner, n = .paren inner
  · obtain ⟨inner, rfl⟩ := hparen
    rw [kernel_paren] at he
    exact ⟨_, _, h, .cons (.statement he) .nil⟩
  · have hb : (Located.node l n).Bare := fun inner he => hparen ⟨inner, he⟩
    have hmap := strip_of_kernel_eq he
    rw [hb.strip] at hmap
    obtain ⟨p', hstrip⟩ := h.strip_statement
    obtain ⟨u', rfl, ⟨hm', -⟩ | ⟨-, -, hsearch⟩⟩ := hstrip.of_statement
    · rw [← Node.isMarkup_mapAt, ← hmap, Node.isMarkup_mapAt] at hm'
      cases hm.symm.trans hm'
    · have hchildren := congrArg Node.children (map_kernel_eq hmap)
      rw [Node.children_map, Node.children_map] at hchildren
      refine ⟨_, _, hsearch, ?_⟩
      rw [List.forall₂_map_left_iff, List.forall₂_map_right_iff]
      exact (forall₂_eq_iff.2 hchildren).imp fun c d h => .statement h

/-! ### Runs in step -/

theorem Ledger.agrees_start {scope scope' : LoopScope} {outer outer' : List LoopScope}
    (tokens : Tokens) (hs : scope = scope') (ho : outer = outer') :
    (Ledger.start adapter scope outer tokens).Agrees (.start adapter scope' outer' tokens) :=
  (Ledger.alike_start tokens hs ho).toAgrees

theorem Ledger.Agrees.note {L M : Ledger adapter} {e e' : Event} {d d' : Draft}
    {h : Noted adapter L.scope L.draft e d} {h' : Noted adapter M.scope M.draft e' d'}
    (hl : L.Agrees M) (hd : d.blank = d'.blank) : (L.note h).Agrees (M.note h') :=
  ⟨hl.scope, hl.outer, hl.id, hd⟩

theorem Bound.agrees {lp lp' : Lowered adapter} {o o₁ o' o₁' : Option (Ledger adapter)}
    (h : Bound gs lp o o₁) (h' : Bound gs' lp' o' o₁') (ho : Option.Rel Ledger.Agrees o o')
    (hreceiver : lp.mapping.receiver.kernel = lp'.mapping.receiver.kernel) :
    lp.binding = lp'.binding ∧ Option.Rel Ledger.Agrees o₁ o₁' := by
  cases h with
  | inline hs hb =>
    cases ho
    cases h' with
    | inline hs' hb' => exact ⟨hb.trans hb'.symm, .none⟩
  | @nested L e d hn hu hs hc hr =>
    cases ho with
    | @some _ M hl =>
      cases h' with
      | nested hn' hu' hs' hc' hr' =>
        have hnested : nestedOf L.scope lp.mapping.receiver =
            nestedOf L.scope lp'.mapping.receiver := nestedOf_of_kernel_eq hreceiver
        have heq := hn.loop_eq hu
        have heq' := hn'.loop_eq hu'
        rw [hs, hl.draft, hnested, hl.scope, ← hs', ← heq'] at heq
        obtain ⟨-, hrest⟩ := Prod.mk.inj heq
        obtain ⟨hb, hblank⟩ := Prod.mk.inj hrest
        exact ⟨hb, .some (hl.note hblank)⟩

theorem Lowers.agrees (h : Lowers adapter start gs ps σ ps' σ')
    (h' : Lowers adapter start' gs' qs τ qs' τ') (hp : List.Forall₂ Part.Agrees ps qs)
    (hσ : σ.Related Ledger.Agrees τ) : InStep Ledger.Agrees Lowered.Agrees σ σ' τ τ' := by
  induction h generalizing gs' qs τ qs' τ' with
  | nil =>
    cases hp
    obtain ⟨rfl, rfl⟩ := h'.of_nil
    exact .refl hσ
  | cons _ _ ih ihs =>
    obtain ⟨q, qs, hq, hqs, rfl⟩ := List.forall₂_cons_left_iff.1 hp
    obtain ⟨q', qs', τ₁, rfl, h₁, h₂⟩ := h'.of_cons
    have hstep := ih h₁ (.cons hq .nil) hσ
    exact hstep.trans (ihs h₂ hqs hstep.stage)
  | node hn _ ih =>
    obtain ⟨q, q', rfl, rfl, hq⟩ := h'.exists_related hp
    cases hq with
    | node he hbare =>
      obtain ⟨u', rfl⟩ := h'.exists_node
      obtain ⟨gs', qs, qs', hparts, hagree⟩ := h'.exists_parts (.node he hbare)
      exact ih hparts hagree hσ
  | inert hi =>
    obtain ⟨q, q', rfl, rfl, hq⟩ := h'.exists_related hp
    obtain ⟨rfl, rfl⟩ := h'.of_inert (hq.inert hi)
    exact .refl hσ
  | markup hm _ ih =>
    obtain ⟨q, q', rfl, rfl, hq⟩ := h'.exists_related hp
    cases hq with
    | @child _ u he =>
      obtain ⟨u', rfl, hu⟩ := h'.of_markup ((isMarkup_of_core_eq he).symm.trans hm)
      exact ih hu (.cons (.markup he hm) .nil) hσ
  | leave hv =>
    obtain ⟨place', v', q', hplace, he, hverdict, -, htreats⟩ := h'.exists_treats_agrees hp
    rw [hverdict] at hv
    cases htreats with
    | leave => exact .refl hσ
    | enter hv' | keep hv' | move _ hv' | loop hv' => cases hv.symm.trans hv'
  | enter hv _ ih =>
    obtain ⟨place', v', q', hplace, he, hverdict, henter, htreats⟩ := h'.exists_treats_agrees hp
    have hnode := henter hv
    rw [hverdict] at hv
    cases htreats with
    | enter _ hnode' => exact ih hnode' (.cons hnode .nil) hσ
    | leave hv' | keep hv' | move _ hv' | loop hv' => cases hv.symm.trans hv'
  | keep hv hl =>
    obtain ⟨place', v', q', hplace, he, hverdict, -, htreats⟩ := h'.exists_treats_agrees hp
    rw [hverdict] at hv
    cases htreats with
    | keep => exact .refl hσ
    | move _ _ hM hl' =>
      obtain ⟨L, hL, hLM⟩ := hσ.exists_left hM
      have htakes := hLM.takes (freeNames_of_kernel_eq he) (lambda_of_kernel_eq he)
      cases (hl L hL).symm.trans (htakes.trans hl')
    | leave hv' | enter hv' | loop hv' => cases hv.symm.trans hv'
  | @move _ spot v a loops L e d hv hl hn hu hs =>
    obtain ⟨place', v', q', hplace, he, hverdict, -, htreats⟩ := h'.exists_treats_agrees hp
    rw [hverdict] at hv
    obtain ⟨hnone, -⟩ | ⟨L', M, hL, hM, hLM⟩ := hσ.ledger_cases
    · cases hnone
    obtain rfl := Option.some.inj hL
    have htakes := hLM.takes (freeNames_of_kernel_eq he) (lambda_of_kernel_eq he)
    cases htreats with
    | @move spot' M' e' d' hspot _ hM' _ hn' hu' hs' =>
      obtain rfl := Option.some.inj (hM.symm.trans hM')
      subst hspot
      cases hplace with
      | spot hspot =>
        have hleaf : leafOf adapter L.scope spot.position v =
            leafOf adapter L.scope spot'.position v' :=
          hspot.position ▸ leafOf_of_kernel_eq he _
        have heq := (hn.spot_eq hu).1
        have heq' := (hn'.spot_eq hu').1
        rw [hs, hLM.draft, hleaf, hLM.scope, ← hs', ← heq'] at heq
        exact ⟨⟨hσ.allocator, .some (hLM.note (Prod.mk.inj heq).2)⟩, .refl _ _⟩
    | keep _ hl' => cases hl.symm.trans (htakes.trans (hl' M hM))
    | leave hv' | enter hv' | loop hv' => cases hv.symm.trans hv'
  | loop hv h ih =>
    obtain ⟨place', v', q', hplace, he, hverdict, -, htreats⟩ := h'.exists_treats_agrees hp
    rw [hverdict] at hv
    cases htreats with
    | loop _ hm hloop' =>
      subst hm
      obtain ⟨-, -, -, -, -, hvalid, -⟩ := h.of_site
      obtain ⟨-, -, -, -, -, hvalid', -⟩ := hloop'.of_site
      exact ih hloop' (.cons (.loop (Mapping.agrees_of_kernel_eq hvalid hvalid' he)) .nil) hσ
    | leave hv' | enter hv' | keep hv' | move _ hv' => cases hv.symm.trans hv'
  | search hm hn _ ih =>
    obtain ⟨q, q', rfl, rfl, hq⟩ := h'.exists_related hp
    cases hq with
    | statement he =>
      obtain ⟨qs, qs', hsearch, hagree⟩ := h'.exists_statements he hm
      exact ih hsearch hagree hσ
  | found hm _ ih =>
    obtain ⟨q, q', rfl, rfl, hq⟩ := h'.exists_related hp
    cases hq with
    | @statement _ u he =>
      rw [(bare_of_isMarkup hm).kernel] at he
      obtain ⟨p', hstrip⟩ := h'.strip_statement
      obtain ⟨u', rfl, ⟨-, hnode⟩ | ⟨hm', -, -⟩⟩ := hstrip.of_statement
      · exact ih hnode (.cons (.markup he hm) .nil) hσ
      · cases hm.symm.trans ((isMarkup_of_core_eq he).trans hm')
  | @site _ lp σ σ₁ σ₂ _ hm htokens hparent _ _ hledger hrecord _ _ hbound ihl ihs =>
    obtain ⟨q, q', rfl, rfl, hq⟩ := h'.exists_related hp
    cases hq with
    | loop hmapping =>
      obtain ⟨w', rfl⟩ := h'.exists_wrapper
      obtain ⟨lp', τ₁, τ₂, rfl, rfl, -, htokens', hparent', hleading', hsubtree', hledger',
        hallocator', hloops', -, -, hbound', hrecord'⟩ := h'.of_site
      have htoken : lp.tokens = lp'.tokens := by rw [htokens, htokens', hσ.allocator]
      -- the statements in front of the return, then the template
      have hleading : List.Forall₂ Part.Agrees
          (lp.mapping.leading.map fun t => .statement (lp.mapping.renamed lp.tokens t))
          (lp'.mapping.leading.map fun t => .statement (lp'.mapping.renamed lp'.tokens t)) := by
        rw [← htoken, List.forall₂_map_left_iff, List.forall₂_map_right_iff]
        exact (forall₂_eq_iff.2 hmapping.leading).imp fun t u h =>
          .statement (kernel_of_core_eq (hmapping.renamed lp.tokens h))
      have hstep₁ := ihl hleading' hleading ⟨by rw [hσ.allocator], .none⟩
      rw [← htoken] at hsubtree'
      have hstep₂ := ihs hsubtree'
        (.cons (.markup (hmapping.renamed lp.tokens hmapping.subtree)
          (lp.mapping.isMarkup_renamed lp.tokens hm.markup)) .nil)
        ⟨hstep₁.stage.allocator, .some (Ledger.agrees_start lp.tokens (hmapping.scope lp.tokens)
          (hσ.outer fun _ _ h => h))⟩
      have hLM := hstep₂.stage.ledger
      rw [hledger, hledger'] at hLM
      obtain ⟨hLM⟩ := hLM
      -- how the loop is bound
      obtain ⟨hbinding, hparents⟩ := hbound.agrees hbound' hσ.ledger hmapping.receiver
      have hlp : lp.Agrees lp' := ⟨hmapping.itemName, htoken,
        hparent.trans ((hσ.parent fun _ _ h => h).trans hparent'.symm), hLM.draft, hbinding⟩
      refine ⟨⟨hstep₂.stage.allocator.trans hallocator'.symm, hparents⟩, ?_⟩
      exact (hstep₁.loops.trans hstep₂.loops).trans (hloops' ▸ .one hlp _ _)

/-! ### Whole runs -/

theorem LowersWhole.agrees {a a₁ a₂ : Allocator} {loops loops' : List (Lowered adapter)}
    (h : LowersWhole adapter start a t t' a₁ loops)
    (h' : LowersWhole adapter start' a u u' a₂ loops') (he : t.kernel = u.kernel) :
    a₁ = a₂ ∧ List.Forall₂ Lowered.Agrees loops loops' := by
  have hroot {ps : List Loc} {m : Mapping} (hm : m.Valid) :
      (candidateTree? (inParens ps m.tree)).isOk = true := by
    rw [candidateTree?_inParens, Mapping.candidateTree?_tree hm]
    rfl
  have hok := isOk_of_kernel_eq he
  have hstart : Stage.Related Ledger.Agrees (⟨a, [], none⟩ : Stage adapter) ⟨a, [], none⟩ :=
    ⟨rfl, .none⟩
  cases h with
  | inside hc h =>
    rw [hc] at hok
    cases h' with
    | inside hc' h' =>
      have hno : (candidateTree? t).isOk = true → (t.Bare ↔ u.Bare) := fun hok => by
        rw [hc] at hok
        cases hok
      have hstep := h.agrees h' (.cons (.node he hno) .nil) hstart
      obtain ⟨new, new', hnew, hnew', hloops⟩ := hstep.loops
      rw [hnew, hnew', List.nil_append, List.nil_append]
      exact ⟨hstep.stage.allocator, hloops⟩
    | root _ h' =>
      obtain ⟨-, -, -, -, -, hm, -⟩ := h'.of_site
      cases hok.trans (hroot ⟨hm.params, hm.leading, hm.markup⟩)
  | @root ps m call lp inner _ hcall h =>
    obtain ⟨-, -, -, -, -, hm, -⟩ := h.of_site
    have hm : m.Valid := ⟨hm.params, hm.leading, hm.markup⟩
    rw [hroot hm] at hok
    cases h' with
    | inside hc' h' =>
      rw [hc'] at hok
      cases hok
    | @root ps' m' call' lp' inner' _ hcall' h' =>
      obtain ⟨-, -, -, -, -, hm', -⟩ := h'.of_site
      have hm' : m'.Valid := ⟨hm'.params, hm'.leading, hm'.markup⟩
      have hmm := Mapping.agrees_of_kernel_eq hm hm' he
      have hmapping : Mapping.Agrees { m with call } { m' with call := call' } :=
        ⟨hmm.receiver, hmm.params, hmm.leading, hmm.subtree⟩
      have hstep := h.agrees h' (.cons (.loop hmapping) .nil) hstart
      obtain ⟨hinner, hlp⟩ := hstep.loops.last
      exact ⟨hstep.stage.allocator, List.rel_append hinner (.cons
        ⟨hlp.itemName, hlp.tokens, hlp.parent, hlp.draft, hlp.binding⟩ .nil)⟩

/-- A mapping call without parentheses that is the value of an attribute. -/
def IsBareValue (s : Store) (root v : Loc) : Prop :=
  (∃ l e name, s.Reaches root l ∧ s.get l = .element e ∧
      .named name (.expression v) ∈ e.attributes) ∧
    (candidate? s v).isOk = true ∧ ∀ inner, s.get v ≠ .paren inner

theorem isBareValue_of_isValueIn {s : Store} (hs : s.Shows t) (h : v.IsValueIn t)
    (hok : (candidateTree? v).isOk = true) (hb : v.Bare) : IsBareValue s t.loc v.loc := by
  obtain ⟨u, e, name, hu, hn, hv⟩ := h
  have hget : s.get u.loc = .element ⟨e.tag, e.attributes.map (Attribute.map loc),
      e.children.map loc, e.selfClosing⟩ := by
    rw [(hs.occurs hu).get_loc, hn]
    rfl
  have hshows : s.Shows v := (hs.occurs hu).of_mem (by
    rw [hn]
    exact List.mem_append.2 (.inl (List.mem_flatMap.2 ⟨_, hv, List.mem_singleton_self v⟩)))
  refine ⟨⟨u.loc, _, name, hs.reaches_iff.2 ⟨u, hu, rfl⟩, hget, List.mem_map_of_mem hv⟩, ?_, ?_⟩
  · rw [candidate?_eq hshows, hok]
  · intro inner hinner
    rw [hshows.get_loc] at hinner
    obtain ⟨i, hi, -⟩ := Node.map_eq_paren hinner
    exact hb i hi

/-- Parentheses do not change what is found. If expressions are put into parentheses, any number of
them anywhere in the tree, then there are as many loops as before, and the same is observed of them
but for the text of what they go over. The one exception is a mapping call that is the value of an
attribute and has no parentheses: it must get none. -/
theorem lowerLoops_parentheses (adapter : Adapter) (a : Allocator) {s s' : Store}
    {root root' : Loc} (f : Loc → List Loc) (h : s.IsTree root) (h' : s'.IsTree root')
    (he : s'.unfold root' = some (inParens (f root) ((s.treeAt root).wrapped f)).erase)
    (hf : ∀ v, IsBareValue s root v → f v = []) :
    let r := lowerLoops adapter root ⟨s, a, []⟩
    let r' := lowerLoops adapter root' ⟨s', a, []⟩
    r.2.sites.map (fun site => (site.observe r.2.store).withSource "") =
        r'.2.sites.map (fun site => (site.observe r'.2.store).withSource "") ∧
      r.1 = r'.1 ∧ r.2.allocator = r'.2.allocator := by
  intro r r'
  obtain ⟨t, loops, hlow, hcount, -, -, hsites⟩ := lowerLoops_isTree adapter h a
  obtain ⟨t', loops', hlow', hcount', -, -, hsites'⟩ := lowerLoops_isTree adapter h' a
  have hshows := h.owns_treeAt.shows le_rfl
  have hkernel : (s.treeAt root).kernel = (s'.treeAt root').kernel := by
    have hunfold := (h'.owns_treeAt.shows le_rfl).unfold
    rw [Store.loc_treeAt] at hunfold
    have herase := Option.some.inj (hunfold.symm.trans he)
    have hcore : ((s.treeAt root).wrapped f).core = (s.treeAt root).core :=
      core_wrapped fun v hv hok hb => hf v.loc (by
        have hbare := isBareValue_of_isValueIn hshows hv hok hb
        rwa [Store.loc_treeAt] at hbare)
    rw [kernel_of_core_eq (core_of_erase_eq herase), kernel_inParens, kernel_of_core_eq hcore]
  obtain ⟨halloc, hloops⟩ := hlow.agrees hlow' hkernel
  refine ⟨?_, hcount.trans (hloops.length_eq.trans hcount'.symm), halloc⟩
  have hsort (s : Store) (sites : List Site) :
      (sites.mergeSort fun x y => x.id ≤ y.id).map (fun x => (x.observe s).withSource "") =
        (sites.map fun x => (x.observe s).withSource "").mergeSort
          fun x y => x.report.id ≤ y.report.id :=
    List.map_mergeSort fun _ _ _ _ => rfl
  have hobserved : (loops.map Lowered.site).map (fun x => (x.observe r.2.store).withSource "") =
      (loops'.map Lowered.site).map (fun x => (x.observe r'.2.store).withSource "") := by
    rw [List.map_map, List.map_map]
    refine map_eq_of_forall₂ hloops fun lp _ lp' _ hagrees => ?_
    simp only [Function.comp_apply, hagrees.observe r.2.store r'.2.store]
    rfl
  rw [hsites, hsites', hsort, hsort, hobserved]

/-- The tree of `<ul title={b}>{flag && xs.map((x) => <li>{x.n}</li>)}</ul>`. -/
def guardedLoop : Store where
  nodes := #[.name "b", .name "flag", .name "xs", .member ⟨2⟩ "map" false, .name "x",
    .member ⟨4⟩ "n" false, .container ⟨5⟩, .element ⟨"li", [], [⟨6⟩], false⟩,
    .lambda ⟨.arrow, false, false, [.plain "x"], .value ⟨7⟩⟩, .call ⟨3⟩ [⟨8⟩],
    .logical "&&" ⟨1⟩ ⟨9⟩, .container ⟨10⟩,
    .element ⟨"ul", [.named "title" (.expression ⟨0⟩)], [⟨11⟩], false⟩]

/-- The same tree with every expression in parentheses. -/
def wrappedLoop : Store where
  nodes := #[.name "b", .paren ⟨0⟩, .name "flag", .paren ⟨2⟩, .name "xs", .paren ⟨4⟩,
    .member ⟨5⟩ "map" false, .paren ⟨6⟩, .name "x", .paren ⟨8⟩, .member ⟨9⟩ "n" false, .paren ⟨10⟩,
    .container ⟨11⟩, .element ⟨"li", [], [⟨12⟩], false⟩, .paren ⟨13⟩,
    .lambda ⟨.arrow, false, false, [.plain "x"], .value ⟨14⟩⟩, .paren ⟨15⟩, .call ⟨7⟩ [⟨16⟩],
    .paren ⟨17⟩, .logical "&&" ⟨3⟩ ⟨18⟩, .paren ⟨19⟩, .container ⟨20⟩,
    .element ⟨"ul", [.named "title" (.expression ⟨1⟩)], [⟨21⟩], false⟩, .paren ⟨22⟩]

theorem guardedLoop_isTree : guardedLoop.IsTree ⟨12⟩ :=
  Store.isTree_of_filled (by decide) (by decide) (by decide)

theorem wrappedLoop_isTree : wrappedLoop.IsTree ⟨23⟩ :=
  Store.isTree_of_filled (by decide) (by decide) (by decide)

theorem wrappedLoop_unfold : wrappedLoop.unfold ⟨23⟩ =
    some (inParens [⟨12⟩] ((guardedLoop.treeAt ⟨12⟩).wrapped fun l => [l])).erase := by
  cbv

theorem guardedLoop_values (v : Loc) : ¬ IsBareValue guardedLoop ⟨12⟩ v := by
  rintro ⟨⟨l, e, name, -, hget, hv⟩, hok, -⟩
  have helement : Node.element e ∈ guardedLoop.nodes := by
    by_cases hl : l.index < guardedLoop.nodes.size
    · rw [← hget]
      simp [Store.get, hl]
    · simp [Store.get, hl] at hget
  simp only [guardedLoop, List.mem_toArray, List.mem_cons, reduceCtorEq, List.not_mem_nil,
    false_or, or_false, Node.element.injEq] at helement
  rcases helement with rfl | rfl
  · cases hv
  · simp only [List.mem_singleton, Attribute.named.injEq, AttributeValue.expression.injEq] at hv
    have hname : candidate? guardedLoop ⟨0⟩ = .error .notMapCall := by cbv
    rw [hv.2, hname] at hok
    cases hok

theorem wrappedLoop_parentheses :
    let r := lowerLoops .wechat ⟨12⟩ ⟨guardedLoop, ⟨7⟩, []⟩
    let r' := lowerLoops .wechat ⟨23⟩ ⟨wrappedLoop, ⟨7⟩, []⟩
    guardedLoop.IsTree ⟨12⟩ ∧ wrappedLoop.IsTree ⟨23⟩ ∧
      wrappedLoop.unfold ⟨23⟩ =
        some (inParens [⟨12⟩] ((guardedLoop.treeAt ⟨12⟩).wrapped fun l => [l])).erase ∧
      (∀ v, ¬ IsBareValue guardedLoop ⟨12⟩ v) ∧ r.1 = 1 ∧
      r.2.sites.map (fun site => (site.observe r.2.store).withSource "") =
        r'.2.sites.map (fun site => (site.observe r'.2.store).withSource "") ∧
      r.1 = r'.1 ∧ r.2.allocator = r'.2.allocator := by
  refine ⟨guardedLoop_isTree, wrappedLoop_isTree, wrappedLoop_unfold, guardedLoop_values,
    by cbv, ?_⟩
  exact lowerLoops_parentheses _ _ (fun l => [l]) guardedLoop_isTree wrappedLoop_isTree
    wrappedLoop_unfold fun v hv => absurd hv (guardedLoop_values v)

/-- The tree of `<V a={xs.map((x) => <A />)} />`. -/
def loopInAttribute : Store where
  nodes := #[.name "xs", .member ⟨0⟩ "map" false, .element ⟨"A", [], [], true⟩,
    .lambda ⟨.arrow, false, false, [.plain "x"], .value ⟨2⟩⟩, .call ⟨1⟩ [⟨3⟩],
    .element ⟨"V", [.named "a" (.expression ⟨4⟩)], [], true⟩]

/-- The same tree with the value in parentheses. -/
def wrappedInAttribute : Store where
  nodes := #[.name "xs", .member ⟨0⟩ "map" false, .element ⟨"A", [], [], true⟩,
    .lambda ⟨.arrow, false, false, [.plain "x"], .value ⟨2⟩⟩, .call ⟨1⟩ [⟨3⟩], .paren ⟨4⟩,
    .element ⟨"V", [.named "a" (.expression ⟨5⟩)], [], true⟩]

/-- A mapping call that is the value of an attribute is no loop, but in parentheses it is one. -/
theorem wrappedInAttribute_loops :
    loopInAttribute.IsTree ⟨5⟩ ∧ wrappedInAttribute.IsTree ⟨6⟩ ∧
      wrappedInAttribute.unfold ⟨6⟩ = some ((loopInAttribute.treeAt ⟨5⟩).wrapped fun l =>
        if l = ⟨4⟩ then [l] else []).erase ∧
      (lowerLoops .wechat ⟨5⟩ ⟨loopInAttribute, ⟨0⟩, []⟩).1 = 0 ∧
      (lowerLoops .wechat ⟨6⟩ ⟨wrappedInAttribute, ⟨0⟩, []⟩).1 = 1 := by
  refine ⟨Store.isTree_of_filled (by decide) (by decide) (by decide),
    Store.isTree_of_filled (by decide) (by decide) (by decide), ?_, ?_, ?_⟩ <;> cbv

end JsxLoops.Loop
