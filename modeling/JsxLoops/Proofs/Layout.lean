import JsxLoops.Compile
import JsxLoops.Proofs.Likeness

/-!
Lowering does not depend on how a store is laid out. Two runs over trees that differ only in their
locations keep step: each rule that one of them takes, the other one takes as well, and the parts,
the stages and the loops stay alike. So the tree that comes out, the numbers that were given out
and what is reported of every loop are functions of the tree that went in.
-/

namespace JsxLoops.Loop

open JsxLoops.Tree Located

variable {adapter : Adapter} {start start' : Nat} {gs gs' : List Premise}
  {ps ps' qs qs' : List Part} {σ σ' σ'' τ τ' τ'' : Stage adapter} {t t' u u' v v' : Located}

/-! ### Lists side by side -/

theorem forall₂_append_of_length {α β : Type} {R : α → β → Prop} {xs xs' : List α}
    {ys ys' : List β} (h : List.Forall₂ R (xs ++ xs') (ys ++ ys')) (hl : xs.length = ys.length) :
    List.Forall₂ R xs ys ∧ List.Forall₂ R xs' ys' := by
  have htake := List.forall₂_take_append _ _ _ h
  have hdrop := List.forall₂_drop_append _ _ _ h
  rw [← hl, List.take_left] at htake
  rw [← hl, List.drop_left] at hdrop
  exact ⟨htake, hdrop⟩

theorem forall₂_mapIdx_iff {α β γ δ : Type} {R : γ → δ → Prop} {S : α → β → Prop}
    {f : Nat → α → γ} {g : Nat → β → δ} (hR : ∀ i j x y, R (f i x) (g j y) ↔ S x y)
    {xs : List α} {ys : List β} :
    List.Forall₂ R (xs.mapIdx f) (ys.mapIdx g) ↔ List.Forall₂ S xs ys := by
  induction xs generalizing f g ys with
  | nil => cases ys <;> simp
  | cons x xs ih =>
    cases ys with
    | nil => simp
    | cons y ys =>
      simp only [List.mapIdx_cons, List.forall₂_cons, hR]
      rw [ih fun i j => hR (i + 1) (j + 1)]

/-! ### Parts -/

inductive Part.Alike : Part → Part → Prop
  | node {t u : Located} (h : t.erase = u.erase) : Part.Alike (.node t) (.node u)
  | attribute (holder holder' : Loc) (position position' : Nat) {a b : Attribute Located}
    (h : a.map erase = b.map erase) :
    Part.Alike (.attribute holder position a) (.attribute holder' position' b)
  | child {t u : Located} (h : t.erase = u.erase) : Part.Alike (.child t) (.child u)
  | operand {under under' : List Premise} {t u : Located}
    (hg : List.Forall₂ Premise.Alike under under') (h : t.erase = u.erase) :
    Part.Alike (.operand under t) (.operand under' u)
  | statement {t u : Located} (h : t.erase = u.erase) : Part.Alike (.statement t) (.statement u)
  | loop {m m' : Mapping} (h : m.Alike m') : Part.Alike (.loop m) (.loop m')
  | wrapper {t u : Located} (h : t.erase = u.erase) : Part.Alike (.wrapper t) (.wrapper u)

namespace Part

@[simp] theorem alike_node : (Part.node t).Alike (.node u) ↔ t.erase = u.erase :=
  ⟨fun h => by cases h; assumption, .node⟩

@[simp] theorem alike_child : (Part.child t).Alike (.child u) ↔ t.erase = u.erase :=
  ⟨fun h => by cases h; assumption, .child⟩

@[simp] theorem alike_statement : (Part.statement t).Alike (.statement u) ↔ t.erase = u.erase :=
  ⟨fun h => by cases h; assumption, .statement⟩

@[simp] theorem alike_attribute {l k : Loc} {i j : Nat} {a b : Attribute Located} :
    (Part.attribute l i a).Alike (.attribute k j b) ↔ a.map erase = b.map erase :=
  ⟨fun h => by cases h; assumption, .attribute l k i j⟩

@[simp] theorem alike_operand {under under' : List Premise} :
    (Part.operand under t).Alike (.operand under' u) ↔
      List.Forall₂ Premise.Alike under under' ∧ t.erase = u.erase :=
  ⟨fun h => by cases h; exact ⟨‹_›, ‹_›⟩, fun h => .operand h.1 h.2⟩

theorem Alike.inert {p q : Part} (h : p.Alike q) (hp : p.Inert) : q.Inert := by
  cases h with
  | «attribute» _ _ _ _ h =>
    rintro name v rfl
    obtain ⟨w, hw, -⟩ := Attribute.map_eq_expression h
    exact hp name w hw
  | child h =>
    refine ⟨(isMarkup_of_erase_eq h).symm.trans hp.1, fun v hv => ?_⟩
    have hmap := erase_eq_iff.1 h
    rw [hv] at hmap
    obtain ⟨w, hw, -⟩ := Node.map_eq_container hmap
    exact hp.2 w hw
  | _ => cases hp

end Part

theorem alike_children_iff {ts us : List Located} :
    List.Forall₂ Part.Alike (ts.map .child) (us.map .child) ↔ ts.map erase = us.map erase := by
  simp [List.forall₂_map_left_iff, List.forall₂_map_right_iff, ← forall₂_eq_iff]

theorem alike_statements_iff {ts us : List Located} :
    List.Forall₂ Part.Alike (ts.map .statement) (us.map .statement) ↔
      ts.map erase = us.map erase := by
  simp [List.forall₂_map_left_iff, List.forall₂_map_right_iff, ← forall₂_eq_iff]

theorem alike_attributes_iff {l k : Loc} {as bs : List (Attribute Located)} :
    List.Forall₂ Part.Alike (as.mapIdx fun i a => .attribute l i a)
        (bs.mapIdx fun i b => .attribute k i b) ↔
      as.map (Attribute.map erase) = bs.map (Attribute.map erase) := by
  rw [← forall₂_eq_iff]
  refine forall₂_mapIdx_iff (S := fun a b => Attribute.map erase a = Attribute.map erase b)
    fun i j a b => ?_
  exact Part.alike_attribute

theorem hasParts_map {α β : Type} (f : α → β) (n : Node α) : hasParts (n.map f) = hasParts n := by
  cases n <;> rfl

theorem partsOf_eq_nil {l : Loc} {n : Node Located} (h : hasParts n = false) :
    partsOf l n = [] := by
  cases n <;> first | rfl | cases h

theorem SameAround.eq {n n' : Node Located} (h : SameAround n n') (hn : hasParts n = false) :
    n' = n := by
  cases n <;> first | exact h | cases hn

theorem partsOf_alike {l k : Loc} {n m : Node Located} (h : n.map erase = m.map erase) :
    List.Forall₂ Part.Alike (partsOf l n) (partsOf k m) := by
  cases hp : hasParts n with
  | false =>
    have hq : hasParts m = false := by rw [← hasParts_map erase, ← h, hasParts_map, hp]
    rw [partsOf_eq_nil hp, partsOf_eq_nil hq]
    exact .nil
  | true =>
    cases n with
    | element e =>
      obtain ⟨as, cs, rfl, has, hcs⟩ := Node.map_eq_element h.symm
      exact List.rel_append (alike_attributes_iff.2 has.symm) (alike_children_iff.2 hcs.symm)
    | fragment cs =>
      obtain ⟨ds, rfl, hds⟩ := Node.map_eq_fragment h.symm
      exact alike_children_iff.2 hds.symm
    | conditional test yes no =>
      obtain ⟨test', yes', no', rfl, htest, hyes, hno⟩ := Node.map_eq_conditional h.symm
      exact .cons (.operand (.cons (.whenTrue htest.symm) .nil) hyes.symm)
        (.cons (.operand (.cons (.whenFalse htest.symm) .nil) hno.symm) .nil)
    | logical op left right =>
      obtain ⟨left', right', rfl, hleft, hright⟩ := Node.map_eq_logical h.symm
      exact .cons (.operand (.cons (.operand op hleft.symm) .nil) hright.symm) .nil
    | paren inner =>
      obtain ⟨inner', rfl, hinner⟩ := Node.map_eq_paren h.symm
      exact .cons (.operand .nil hinner.symm) .nil
    | _ => cases hp

/-- Nodes with parts alike are the same, if what stands around the parts was the same. -/
theorem SameAround.alike {l k : Loc} {n n' m m' : Node Located} (hn : SameAround n n')
    (hm : SameAround m m') (h : n.map erase = m.map erase)
    (hp : List.Forall₂ Part.Alike (partsOf l n') (partsOf k m')) :
    n'.map erase = m'.map erase := by
  cases hparts : hasParts n with
  | false =>
    have hq : hasParts m = false := by rw [← hasParts_map erase, ← h, hasParts_map, hparts]
    rw [hn.eq hparts, hm.eq hq, h]
  | true =>
    cases n with
    | element e =>
      obtain ⟨as, cs, rfl, has, -⟩ := Node.map_eq_element h.symm
      obtain ⟨as₁, cs₁, rfl, hlen₁⟩ := hn
      obtain ⟨as₂, cs₂, rfl, hlen₂⟩ := hm
      have hlen : as₁.length = as₂.length := by
        have hlen := congrArg List.length has
        rw [List.length_map, List.length_map] at hlen
        exact hlen₁.trans (hlen.symm.trans hlen₂.symm)
      obtain ⟨hattributes, hchildren⟩ := forall₂_append_of_length hp (by simpa using hlen)
      simp only [Node.map, alike_attributes_iff.1 hattributes, alike_children_iff.1 hchildren]
    | fragment cs =>
      obtain ⟨ds, rfl, -⟩ := Node.map_eq_fragment h.symm
      obtain ⟨cs', rfl⟩ := hn
      obtain ⟨ds', rfl⟩ := hm
      simp only [Node.map, alike_children_iff.1 hp]
    | conditional test yes no =>
      obtain ⟨test', _, _, rfl, htest, -, -⟩ := Node.map_eq_conditional h.symm
      obtain ⟨yes₁, no₁, rfl⟩ := hn
      obtain ⟨yes₂, no₂, rfl⟩ := hm
      simp only [partsOf, List.forall₂_cons, Part.alike_operand] at hp
      obtain ⟨⟨-, hyes⟩, ⟨-, hno⟩, -⟩ := hp
      simp only [Node.map, htest, hyes, hno]
    | logical op left right =>
      obtain ⟨left', _, rfl, hleft, -⟩ := Node.map_eq_logical h.symm
      obtain ⟨right₁, rfl⟩ := hn
      obtain ⟨right₂, rfl⟩ := hm
      simp only [partsOf, List.forall₂_cons, Part.alike_operand] at hp
      simp only [Node.map, hleft, hp.1.2]
    | paren inner =>
      obtain ⟨_, rfl, -⟩ := Node.map_eq_paren h.symm
      obtain ⟨inner₁, rfl⟩ := hn
      obtain ⟨inner₂, rfl⟩ := hm
      simp only [partsOf, List.forall₂_cons, Part.alike_operand] at hp
      simp only [Node.map, hp.1.2]
    | _ => cases hparts

/-! ### Places -/

inductive Spot.Alike : Spot → Spot → Prop
  | text (c c' : Loc) : Spot.Alike (.text c) (.text c')
  | attribute (holder holder' : Loc) (position position' : Nat) (name : String) :
    Spot.Alike (.attribute holder position name) (.attribute holder' position' name)

theorem Spot.Alike.position {spot spot' : Spot} (h : spot.Alike spot') :
    spot.position = spot'.position := by
  cases h <;> rfl

theorem Spot.Alike.shown {spot spot' : Spot} (h : spot.Alike spot') (path : String) :
    (spot.shown path).Alike (spot'.shown path) := by
  cases h with
  | text c c' => exact .child (erase_eq_iff.2 rfl)
  | «attribute» => exact .attribute _ _ _ _ rfl

inductive Place.Alike : Place → Place → Prop
  | spot {spot spot' : Spot} (h : spot.Alike spot') : Place.Alike (.spot spot) (.spot spot')
  | operand {under under' : List Premise} (h : List.Forall₂ Premise.Alike under under') :
    Place.Alike (.operand under) (.operand under')

namespace Place.Alike

variable {place place' : Place}

theorem of_holding {q : Part} (h : (place.holding v).Alike q) :
    ∃ place' v', q = place'.holding v' ∧ place.Alike place' ∧ v.erase = v'.erase := by
  rcases place with (c | ⟨l, i, name⟩) | under
  · cases h with
    | @child _ u h =>
      obtain ⟨k, m⟩ := u
      obtain ⟨w, rfl, hw⟩ := Node.map_eq_container (erase_eq_iff.1 h).symm
      exact ⟨.spot (.text k), w, rfl, .spot (.text c k), hw.symm⟩
  · cases h with
    | «attribute» _ k _ j h =>
      obtain ⟨w, rfl, hw⟩ := Attribute.map_eq_expression h.symm
      exact ⟨.spot (.attribute k j name), w, rfl, .spot (.attribute l k i j name), hw.symm⟩
  · cases h with
    | @operand _ under' _ u hg h => exact ⟨.operand under', u, rfl, .operand hg, h⟩

theorem holding (h : place.Alike place') (he : v.erase = v'.erase) :
    (place.holding v).Alike (place'.holding v') := by
  cases h with
  | spot h =>
    cases h with
    | text => exact .child (erase_eq_iff.2 (by simp [Node.map, he]))
    | «attribute» => exact .attribute _ _ _ _ (by simp [Attribute.map, AttributeValue.map, he])
  | operand h => exact .operand h he

theorem taken (h : place.Alike place') (he : v.erase = v'.erase) :
    (place.taken v).Alike (place'.taken v') := by
  cases h with
  | spot h =>
    cases h with
    | text => exact .child he
    | «attribute» => exact .attribute _ _ _ _ (by simp [Attribute.map, AttributeValue.map, he])
  | operand h => exact .operand h he

theorem premises (h : place.Alike place') :
    List.Forall₂ Premise.Alike place.premises place'.premises := by
  cases h with
  | spot => exact .nil
  | operand h => exact h

theorem verdict (h : place.Alike place') (he : v.erase = v'.erase) :
    place.verdict v = place'.verdict v' := by
  have hmarkup := hasMarkup_of_erase_eq he
  have hcandidate := candidateTree?_cases he
  cases h with
  | spot h =>
    cases h with
    | text =>
      obtain ⟨c, c', hc, hc'⟩ | ⟨r, r', hr, hr', hsame⟩ := hcandidate
      · simp only [Place.verdict, hc, hc']
      · simp only [Place.verdict, hr, hr', hmarkup, hsame]
    | «attribute» => simp only [Place.verdict, hmarkup]
  | operand =>
    obtain ⟨c, c', hc, hc'⟩ | ⟨r, r', hr, hr', hsame⟩ := hcandidate
    · simp only [Place.verdict, hc, hc']
    · simp only [Place.verdict, hr, hr', hmarkup, hsame, Bool.and_eq_true, decide_eq_true_eq]

end Place.Alike

/-! ### What is done with single parts -/

theorem Lowers.of_cons {p : Part} (h : Lowers adapter start gs (p :: ps) σ ps' σ') :
    ∃ p' qs' σ₁, ps' = p' :: qs' ∧ Lowers adapter start gs [p] σ [p'] σ₁ ∧
      Lowers adapter start gs ps σ₁ qs' σ' := by
  generalize hps : p :: ps = all at h
  have hrun := h
  cases h with
  | nil => cases hps
  | cons h hs =>
    obtain ⟨rfl, rfl⟩ := List.cons.inj hps
    exact ⟨_, _, _, rfl, h, hs⟩
  | _ =>
    obtain ⟨rfl, rfl⟩ := List.cons.inj hps
    exact ⟨_, [], _, rfl, hrun, .nil⟩

theorem Lowers.exists_single {p : Part} (h : Lowers adapter start gs [p] σ ps' σ') :
    ∃ p', ps' = [p'] := by
  obtain ⟨p', qs', σ₁, rfl, -, hs⟩ := h.of_cons
  obtain ⟨rfl, -⟩ := hs.of_nil
  exact ⟨p', rfl⟩

theorem Lowers.of_inert {p p' : Part} (hp : p.Inert)
    (h : Lowers adapter start gs [p] σ [p'] σ') : p' = p ∧ σ' = σ := by
  generalize hps : [p] = ps at h
  generalize hps' : [p'] = ps' at h
  induction h with
  | nil => cases hps
  | cons h hs ih =>
    obtain ⟨rfl, rfl⟩ := List.cons.inj hps
    obtain ⟨rfl, rfl⟩ := List.cons.inj hps'
    obtain ⟨-, rfl⟩ := hs.of_nil
    exact ih rfl rfl
  | inert =>
    obtain rfl := List.singleton_inj.1 hps
    exact ⟨List.singleton_inj.1 hps', rfl⟩
  | markup hm =>
    obtain rfl := List.singleton_inj.1 hps
    cases hp.1.symm.trans hm
  | leave | enter | keep | move | loop =>
    obtain rfl := List.singleton_inj.1 hps
    exact absurd hp (Place.not_inert_holding _ _)
  | node | search | found | site =>
    obtain rfl := List.singleton_inj.1 hps
    cases hp

theorem Lowers.of_statement {p' : Part}
    (h : Lowers adapter start gs [.statement t] σ [p'] σ') :
    ∃ t', p' = .statement t' ∧
      (t.here.isMarkup = true ∧ Lowers adapter start [] [.node t] σ [.node t'] σ' ∨
        t.here.isMarkup = false ∧ t'.here.shape = t.here.shape ∧
          Lowers adapter start gs (t.here.children.map .statement) σ
            (t'.here.children.map .statement) σ') := by
  generalize hps : [Part.statement t] = ps at h
  generalize hps' : [p'] = ps' at h
  induction h with
  | nil => cases hps
  | cons h hs ih =>
    obtain ⟨rfl, rfl⟩ := List.cons.inj hps
    obtain ⟨rfl, rfl⟩ := List.cons.inj hps'
    obtain ⟨-, rfl⟩ := hs.of_nil
    exact ih rfl rfl
  | search hm hn h =>
    obtain rfl := Part.statement.inj (List.singleton_inj.1 hps)
    exact ⟨_, List.singleton_inj.1 hps', .inr ⟨hm, hn, h⟩⟩
  | found hm h =>
    obtain rfl := Part.statement.inj (List.singleton_inj.1 hps)
    exact ⟨_, List.singleton_inj.1 hps', .inl ⟨hm, h⟩⟩
  | inert hp =>
    obtain rfl := List.singleton_inj.1 hps
    cases hp
  | leave | enter | keep | move | loop =>
    exact absurd (List.singleton_inj.1 hps).symm (Place.holding_ne_statement _ _ _)
  | _ => cases hps

theorem Lowers.exists_wrapper {m : Mapping} {p' : Part}
    (h : Lowers adapter start gs [.loop m] σ [p'] σ') : ∃ w, p' = .wrapper w := by
  generalize hps : [Part.loop m] = ps at h
  generalize hps' : [p'] = ps' at h
  induction h with
  | cons h hs ih =>
    obtain ⟨rfl, rfl⟩ := List.cons.inj hps
    obtain ⟨rfl, rfl⟩ := List.cons.inj hps'
    exact ih rfl rfl
  | site => exact ⟨_, List.singleton_inj.1 hps'⟩
  | inert hp =>
    obtain rfl := List.singleton_inj.1 hps
    cases hp
  | _ => simp at hps

/-! ### Runs in step -/

section

variable {R : Ledger adapter → Ledger adapter → Prop} {Q : Lowered adapter → Lowered adapter → Prop}

/-- Stages with related ledgers, which may differ in the loops of before. -/
structure Stage.Related (R : Ledger adapter → Ledger adapter → Prop) (σ τ : Stage adapter) :
    Prop where
  allocator : σ.allocator = τ.allocator
  ledger : Option.Rel R σ.ledger τ.ledger

def Matches (Q : Lowered adapter → Lowered adapter → Prop)
    (xs xs' ys ys' : List (Lowered adapter)) :
    Prop :=
  ∃ new new', xs' = xs ++ new ∧ ys' = ys ++ new' ∧ List.Forall₂ Q new new'

theorem Matches.refl (xs ys : List (Lowered adapter)) : Matches Q xs xs ys ys :=
  ⟨[], [], (List.append_nil _).symm, (List.append_nil _).symm, .nil⟩

theorem Matches.one {lp lp' : Lowered adapter} (h : Q lp lp') (xs ys : List (Lowered adapter)) :
    Matches Q xs (xs ++ [lp]) ys (ys ++ [lp']) :=
  ⟨[lp], [lp'], rfl, rfl, .cons h .nil⟩

theorem Matches.trans {xs xs' xs'' ys ys' ys'' : List (Lowered adapter)}
    (h : Matches Q xs xs' ys ys') (h' : Matches Q xs' xs'' ys' ys'') : Matches Q xs
    xs'' ys ys'' := by
  obtain ⟨new, new', rfl, rfl, hnew⟩ := h
  obtain ⟨more, more', rfl, rfl, hmore⟩ := h'
  exact ⟨new ++ more, new' ++ more', List.append_assoc _ _ _, List.append_assoc _ _ _,
    List.rel_append hnew hmore⟩

theorem Matches.last {xs ys : List (Lowered adapter)} {lp lp' : Lowered adapter}
    (h : Matches Q [] (xs ++ [lp]) [] (ys ++ [lp'])) : List.Forall₂ Q xs ys ∧ Q lp lp' := by
  obtain ⟨_, _, rfl, rfl, hloops⟩ := h
  obtain ⟨hinner, hlast⟩ := forall₂_append_of_length hloops (by simpa using hloops.length_eq)
  exact ⟨hinner, (List.forall₂_cons.1 hlast).1⟩

/-- Two runs that found related loops and came to related stages. -/
structure InStep (R : Ledger adapter → Ledger adapter → Prop)
    (Q : Lowered adapter → Lowered adapter → Prop) (σ σ' τ τ' : Stage adapter) : Prop where
  stage : σ'.Related R τ'
  loops : Matches Q σ.loops σ'.loops τ.loops τ'.loops

theorem InStep.refl (h : σ.Related R τ) : InStep R Q σ σ τ τ := ⟨h, .refl _ _⟩

theorem InStep.trans (h : InStep R Q σ σ' τ τ') (h' : InStep R Q σ' σ'' τ' τ'') :
    InStep R Q σ σ'' τ τ'' := ⟨h'.stage, h.loops.trans h'.loops⟩

namespace Stage.Related

theorem ledger_cases (h : σ.Related R τ) : (σ.ledger = none ∧ τ.ledger = none) ∨
    ∃ L M, σ.ledger = some L ∧ τ.ledger = some M ∧ R L M := by
  have hledger := h.ledger
  generalize σ.ledger = o, τ.ledger = o' at hledger
  cases hledger with
  | none => exact .inl ⟨rfl, rfl⟩
  | some h => exact .inr ⟨_, _, rfl, rfl, h⟩

theorem exists_left {M : Ledger adapter} (h : σ.Related R τ) (hM : τ.ledger = some M) :
    ∃ L, σ.ledger = some L ∧ R L M := by
  obtain ⟨-, hnone⟩ | ⟨L, _, hL, hM', hLM⟩ := h.ledger_cases
  · cases hM.symm.trans hnone
  · exact ⟨L, hL, Option.some.inj (hM'.symm.trans hM) ▸ hLM⟩

theorem parent (h : σ.Related R τ) (hR : ∀ L M, R L M → L.Agrees M) :
    σ.ledger.map Ledger.id = τ.ledger.map Ledger.id := by
  rcases h.ledger_cases with ⟨hσ, hτ⟩ | ⟨L, M, hσ, hτ, hLM⟩
  · rw [hσ, hτ]
  · rw [hσ, hτ, Option.map_some, Option.map_some, (hR L M hLM).id]

theorem outer (h : σ.Related R τ) (hR : ∀ L M, R L M → L.Agrees M) :
    (σ.ledger.elim [] fun L => L.outer ++ [L.scope]) =
      τ.ledger.elim [] fun L => L.outer ++ [L.scope] := by
  rcases h.ledger_cases with ⟨hσ, hτ⟩ | ⟨L, M, hσ, hτ, hLM⟩
  · rw [hσ, hτ]
  · rw [hσ, hτ, Option.elim_some, Option.elim_some, (hR L M hLM).outer, (hR L M hLM).scope]

end Stage.Related

end

theorem Ledger.alike_start {scope scope' : LoopScope} {outer outer' : List LoopScope}
    (tokens : Tokens) (hs : scope = scope') (ho : outer = outer') :
    (Ledger.start adapter scope outer tokens).Alike (.start adapter scope' outer' tokens) := by
  subst hs ho
  exact ⟨⟨rfl, rfl, rfl, rfl⟩, rfl, .nil⟩

theorem Mapping.alike_of_lowers {m m' : Mapping} {parens parens' : List Loc} {w w' : Located}
    (h : Lowers adapter start gs [.loop m] σ [.wrapper w] σ')
    (h' : Lowers adapter start' gs' [.loop m'] τ [.wrapper w'] τ')
    (he : (inParens parens m.tree).erase = (inParens parens' m'.tree).erase) : m.Alike m' := by
  obtain ⟨-, -, -, -, -, hm, -⟩ := h.of_site
  obtain ⟨-, -, -, -, -, hm', -⟩ := h'.of_site
  exact (Mapping.alike_of_erase_eq hm hm' he).2

theorem Lowers.exists_related {P : Part → Part → Prop} {p : Part}
    (h : Lowers adapter start gs qs τ qs' τ') (hp : List.Forall₂ P [p] qs) :
    ∃ q q', qs = [q] ∧ qs' = [q'] ∧ P p q := by
  obtain ⟨q, _, hq, hnil, rfl⟩ := List.forall₂_cons_left_iff.1 hp
  cases hnil
  obtain ⟨q', rfl⟩ := h.exists_single
  exact ⟨q, q', rfl, rfl, hq⟩

theorem Lowers.exists_treats {place : Place} (h : Lowers adapter start gs qs τ qs' τ')
    (hp : List.Forall₂ Part.Alike [place.holding v] qs) :
    ∃ place' v' q', qs = [place'.holding v'] ∧ qs' = [q'] ∧ place.Alike place' ∧
      v.erase = v'.erase ∧ place.verdict v = place'.verdict v' ∧
      Treats start gs place' v' τ q' τ' := by
  obtain ⟨q, q', rfl, rfl, hq⟩ := h.exists_related hp
  obtain ⟨place', v', rfl, hplace, he⟩ := Place.Alike.of_holding hq
  exact ⟨place', v', q', rfl, rfl, hplace, he, hplace.verdict he, h.treats⟩

theorem Lowers.alike (h : Lowers adapter start gs ps σ ps' σ')
    (h' : Lowers adapter start' gs' qs τ qs' τ') (hg : List.Forall₂ Premise.Alike gs gs')
    (hp : List.Forall₂ Part.Alike ps qs) (hσ : σ.Related Ledger.Alike τ) :
    List.Forall₂ Part.Alike ps' qs' ∧ InStep Ledger.Alike Lowered.Alike σ σ' τ τ' := by
  -- the rule that the second run takes is read off from the one that the first run takes
  induction h generalizing gs' qs τ qs' τ' with
  | nil =>
    cases hp
    obtain ⟨rfl, rfl⟩ := h'.of_nil
    exact ⟨.nil, .refl hσ⟩
  | cons _ _ ih ihs =>
    obtain ⟨q, qs, hq, hqs, rfl⟩ := List.forall₂_cons_left_iff.1 hp
    obtain ⟨q', qs', τ₁, rfl, h₁, h₂⟩ := h'.of_cons
    obtain ⟨hfirst, hstep⟩ := ih h₁ hg (.cons hq .nil) hσ
    obtain ⟨hrest, hsteps⟩ := ihs h₂ hg hqs hstep.stage
    exact ⟨List.rel_append hfirst hrest, hstep.trans hsteps⟩
  | node hn _ ih =>
    obtain ⟨q, q', rfl, rfl, hq⟩ := h'.exists_related hp
    cases hq with
    | @node _ u he =>
      obtain ⟨u', rfl⟩ := h'.exists_node
      obtain ⟨-, hm, hparts'⟩ := h'.of_node
      have hmap := erase_eq_iff.1 he
      obtain ⟨hparts, hstep⟩ := ih hparts' hg (partsOf_alike hmap) hσ
      exact ⟨.cons (.node (erase_eq_iff.2 (hn.alike hm hmap hparts))) .nil, hstep⟩
  | inert hi =>
    obtain ⟨q, q', rfl, rfl, hq⟩ := h'.exists_related hp
    obtain ⟨rfl, rfl⟩ := h'.of_inert (hq.inert hi)
    exact ⟨hp, .refl hσ⟩
  | markup hm _ ih =>
    obtain ⟨q, q', rfl, rfl, hq⟩ := h'.exists_related hp
    cases hq with
    | @child _ u he =>
      obtain ⟨u', rfl, hu⟩ := h'.of_markup ((isMarkup_of_erase_eq he).symm.trans hm)
      obtain ⟨hnode, hstep⟩ := ih hu hg (.cons (.node he) .nil) hσ
      simp only [List.forall₂_cons, Part.alike_node] at hnode
      exact ⟨.cons (.child hnode.1) .nil, hstep⟩
  | leave hv =>
    obtain ⟨place', v', q', rfl, rfl, hplace, he, hverdict, htreats⟩ := h'.exists_treats hp
    rw [hverdict] at hv
    cases htreats with
    | leave => exact ⟨hp, .refl hσ⟩
    | enter hv' | keep hv' | move _ hv' | loop hv' => cases hv.symm.trans hv'
  | enter hv _ ih =>
    obtain ⟨place', v', q', rfl, rfl, hplace, he, hverdict, htreats⟩ := h'.exists_treats hp
    rw [hverdict] at hv
    cases htreats with
    | enter _ hnode' =>
      obtain ⟨hnode, hstep⟩ :=
        ih hnode' (List.rel_append hg hplace.premises) (.cons (.node he) .nil) hσ
      simp only [List.forall₂_cons, Part.alike_node] at hnode
      exact ⟨.cons (hplace.holding hnode.1) .nil, hstep⟩
    | leave hv' | keep hv' | move _ hv' | loop hv' => cases hv.symm.trans hv'
  | keep hv hl =>
    obtain ⟨place', v', q', rfl, rfl, hplace, he, hverdict, htreats⟩ := h'.exists_treats hp
    rw [hverdict] at hv
    cases htreats with
    | keep => exact ⟨hp, .refl hσ⟩
    | move _ _ hM hl' =>
      obtain ⟨L, hL, hLM⟩ := hσ.exists_left hM
      cases (hl L hL).symm.trans ((hLM.takes he).trans hl')
    | leave hv' | enter hv' | loop hv' => cases hv.symm.trans hv'
  | @move _ spot v a loops L e d hv hl hn hu hs =>
    obtain ⟨place', v', q', rfl, rfl, hplace, he, hverdict, htreats⟩ := h'.exists_treats hp
    rw [hverdict] at hv
    obtain ⟨hnone, -⟩ | ⟨L', M, hL, hM, hLM⟩ := hσ.ledger_cases
    · cases hnone
    obtain rfl := Option.some.inj hL
    cases htreats with
    | @move spot' M' e' d' hspot _ hM' _ hn' hu' hs' =>
      obtain rfl := Option.some.inj (hM.symm.trans hM')
      subst hspot
      cases hplace with
      | spot hspot =>
        have hn₁ : Noted adapter M.scope L.draft e d := hLM.scope ▸ hn
        obtain ⟨hee, hd⟩ := hn₁.alike_spot hn' hLM.draft hu hu' hspot.position
          (by rw [hs, hs', he])
        refine ⟨.cons ?_ .nil, ⟨hσ.allocator, .some (hLM.note hee hd)⟩, .refl _ _⟩
        rw [hLM.path hee]
        exact hspot.shown _
    | keep _ hl' => cases hl.symm.trans ((hLM.takes he).trans (hl' M hM))
    | leave hv' | enter hv' | loop hv' => cases hv.symm.trans hv'
  | loop hv h ih =>
    obtain ⟨place', v', q', rfl, rfl, hplace, he, hverdict, htreats⟩ := h'.exists_treats hp
    rw [hverdict] at hv
    cases htreats with
    | loop _ hm hloop' =>
      subst hm
      obtain ⟨hwrapper, hstep⟩ := ih hloop' (List.rel_append hg hplace.premises)
        (.cons (.loop (Mapping.alike_of_lowers h hloop' he)) .nil) hσ
      cases hwrapper with
      | cons hw =>
        cases hw with
        | wrapper hw => exact ⟨.cons (hplace.taken hw) .nil, hstep⟩
    | leave hv' | enter hv' | keep hv' | move _ hv' => cases hv.symm.trans hv'
  | search hm hn _ ih =>
    obtain ⟨q, q', rfl, rfl, hq⟩ := h'.exists_related hp
    cases hq with
    | @statement _ u he =>
      have hmarkup := isMarkup_of_erase_eq he
      obtain ⟨u', rfl, ⟨hm', -⟩ | ⟨-, hn', hsearch'⟩⟩ := h'.of_statement
      · cases hm.symm.trans (hmarkup.trans hm')
      · have hmap := erase_eq_iff.1 he
        have hchildren := congrArg Node.children hmap
        rw [Node.children_map, Node.children_map] at hchildren
        obtain ⟨hparts, hstep⟩ := ih hsearch' hg (alike_statements_iff.2 hchildren) hσ
        refine ⟨.cons (.statement (erase_eq_iff.2 (Node.ext_of_shape ?_ ?_))) .nil, hstep⟩
        · have hshape := congrArg Node.shape hmap
          rw [Node.shape_map, Node.shape_map] at hshape ⊢
          exact hn.trans (hshape.trans hn'.symm)
        · rw [Node.children_map, Node.children_map]
          exact alike_statements_iff.1 hparts
  | found hm _ ih =>
    obtain ⟨q, q', rfl, rfl, hq⟩ := h'.exists_related hp
    cases hq with
    | @statement _ u he =>
      have hmarkup := isMarkup_of_erase_eq he
      obtain ⟨u', rfl, ⟨-, hnode'⟩ | ⟨hm', -, -⟩⟩ := h'.of_statement
      · obtain ⟨hnode, hstep⟩ := ih hnode' .nil (.cons (.node he) .nil) hσ
        simp only [List.forall₂_cons, Part.alike_node] at hnode
        exact ⟨.cons (.statement hnode.1) .nil, hstep⟩
      · cases hm.symm.trans (hmarkup.trans hm')
  | @site _ lp σ σ₁ σ₂ _ hm htokens hparent _ _ hledger hrecord _ _ hbound ihl ihs =>
    obtain ⟨q, q', rfl, rfl, hq⟩ := h'.exists_related hp
    cases hq with
    | loop hmapping =>
      obtain ⟨w', rfl⟩ := h'.exists_wrapper
      obtain ⟨lp', τ₁, τ₂, rfl, rfl, -, htokens', hparent', hleading', hsubtree', hledger',
        hallocator', hloops', -, -, hbound', hrecord'⟩ := h'.of_site
      have htoken : lp.tokens = lp'.tokens := by rw [htokens, htokens', hσ.allocator]
      -- the statements in front of the return, then the template
      obtain ⟨hleading, hstep₁⟩ := ihl hleading' .nil
        (by
          simpa [List.map_map, Function.comp_def, htoken] using
            alike_statements_iff.2 (hmapping.renamed_leading lp.tokens))
        ⟨by rw [hσ.allocator], .none⟩
      rw [← htoken] at hsubtree'
      obtain ⟨hsubtree, hstep₂⟩ := ihs hsubtree' .nil
        (.cons (.node (hmapping.renamed lp.tokens hmapping.subtree)) .nil)
        ⟨hstep₁.stage.allocator,
          .some (Ledger.alike_start lp.tokens (hmapping.scope lp.tokens)
            (hσ.outer fun _ _ h => h.toAgrees))⟩
      simp only [List.forall₂_cons, Part.alike_node] at hsubtree
      have hLM := hstep₂.stage.ledger
      rw [hledger, hledger'] at hLM
      obtain ⟨hLM⟩ := hLM
      -- the record, and how the loop is bound
      rw [← hmapping.itemName, ← htoken] at hrecord'
      have hrec := hrecord.alike hrecord' hLM.log
      have hlead := alike_statements_iff.1 hleading
      have hcall := Lowered.erase_call_eq hmapping htoken hlead hrec
      obtain ⟨hsource, hbinding, hparents⟩ :=
        hbound.alike hbound' hg hσ.ledger hcall hmapping.receiver
      have hparents' := hσ.parent fun _ _ h => h.toAgrees
      have hlp : lp.Alike lp' := ⟨hmapping, htoken, hparent.trans (hparents'.trans hparent'.symm),
        hlead, hsubtree.1, hLM, hrec, hsource, hbinding⟩
      refine ⟨.cons (.wrapper hlp.tree) .nil,
        ⟨hstep₂.stage.allocator.trans hallocator'.symm, hparents⟩, ?_⟩
      exact (hstep₁.loops.trans hstep₂.loops).trans (hloops' ▸ .one hlp _ _)

/-! ### Whole runs -/

theorem LowersWhole.alike {a a₁ a₂ : Allocator} {loops loops' : List (Lowered adapter)}
    (h : LowersWhole adapter start a t t' a₁ loops)
    (h' : LowersWhole adapter start' a u u' a₂ loops') (he : t.erase = u.erase) :
    t'.erase = u'.erase ∧ a₁ = a₂ ∧ List.Forall₂ Lowered.Alike loops loops' := by
  have hroot {ps : List Loc} {m : Mapping} (hm : m.Valid) :
      candidateTree? (inParens ps m.tree) = .ok m.candidate := by
    rw [candidateTree?_inParens, Mapping.candidateTree?_tree hm]
  have hstart : Stage.Related Ledger.Alike (⟨a, [], none⟩ : Stage adapter) ⟨a, [], none⟩ :=
    ⟨rfl, .none⟩
  cases h with
  | inside hc h =>
    cases h' with
    | inside hc' h' =>
      obtain ⟨hnode, hstep⟩ := h.alike h' .nil (.cons (.node he) .nil) hstart
      obtain ⟨new, new', hnew, hnew', hloops⟩ := hstep.loops
      simp only [List.forall₂_cons, Part.alike_node] at hnode
      rw [hnew, hnew', List.nil_append, List.nil_append]
      exact ⟨hnode.1, hstep.stage.allocator, hloops⟩
    | root _ h' =>
      obtain ⟨-, -, -, -, -, hm, -⟩ := h'.of_site
      obtain ⟨c, hc'⟩ :=
        candidateTree?_of_erase_eq he.symm (hroot ⟨hm.params, hm.leading, hm.markup⟩)
      cases hc.symm.trans hc'
  | @root ps m call lp inner _ hcall h =>
    obtain ⟨-, -, -, -, -, hm, -⟩ := h.of_site
    have hm : m.Valid := ⟨hm.params, hm.leading, hm.markup⟩
    cases h' with
    | inside hc' h' =>
      obtain ⟨c, hc⟩ := candidateTree?_of_erase_eq he (hroot hm)
      cases hc.symm.trans hc'
    | @root ps' m' call' lp' inner' _ hcall' h' =>
      obtain ⟨-, -, -, -, -, hm', -⟩ := h'.of_site
      have hm' : m'.Valid := ⟨hm'.params, hm'.leading, hm'.markup⟩
      obtain ⟨hparens, hmm⟩ := Mapping.alike_of_erase_eq hm hm' he
      have hmapping : Mapping.Alike { m with call } { m' with call := call' } :=
        ⟨hmm.callee, hmm.receiver, hmm.parens, hmm.form, hmm.params, hmm.leading, hmm.subtree⟩
      obtain ⟨-, hstep⟩ := h.alike h' .nil (.cons (.loop hmapping) .nil) hstart
      obtain ⟨hinner, hlp⟩ := hstep.loops.last
      have hmoved : Lowered.Alike { lp with wrapper := m.call } { lp' with wrapper := m'.call } :=
        ⟨hlp.mapping, hlp.tokens, hlp.parent, hlp.leading, hlp.subtree, hlp.ledger, hlp.record,
          hlp.source, hlp.binding⟩
      exact ⟨erase_inParens hparens hmoved.tree, hstep.stage.allocator,
        List.rel_append hinner (.cons hmoved .nil)⟩

/-! ### What can be observed -/

/-- All that can be told of a loop without naming a location. -/
structure Observation where
  report : SiteReport
  slots : List (Dependency × String × Nat)
deriving DecidableEq, Repr

def Site.observe (s : Store) (site : Site) : Observation where
  report := .ofSite s site
  slots := site.schema.slots.map fun slot => (slot.kind, slot.field, slot.position)

theorem Draft.itemSource_blank (d : Draft) : d.blank.itemSource = d.itemSource := by
  rw [Draft.itemSource, Draft.itemSource, Draft.blank]
  cases d.itemValue <;> simp [ItemValue.blank]

/-- The same with another text for what the loop goes over. -/
def Observation.withSource (o : Observation) (source : String) : Observation :=
  { o with report := { o.report with source } }

/-- Loops of which the same is known, but for what they go over and what their records hold. -/
structure Lowered.Agrees (lp lp' : Lowered adapter) : Prop where
  itemName : lp.mapping.itemName = lp'.mapping.itemName
  tokens : lp.tokens = lp'.tokens
  parent : lp.parent = lp'.parent
  draft : lp.ledger.draft.blank = lp'.ledger.draft.blank
  binding : lp.binding = lp'.binding

theorem Lowered.Agrees.observe {lp lp' : Lowered adapter} (h : lp.Agrees lp') (s s' : Store) :
    lp.site.observe s =
      (lp'.site.observe s').withSource (s.print .concise lp.mapping.receiver.loc) := by
  have hdraft := h.draft
  have hitem : lp.ledger.draft.item = lp'.ledger.draft.item := (Draft.mk.inj hdraft).1
  have hsource : lp.ledger.draft.itemSource = lp'.ledger.draft.itemSource := by
    rw [← Draft.itemSource_blank, hdraft, Draft.itemSource_blank]
  have hslots : lp.ledger.draft.slots.map Slot.blank = lp'.ledger.draft.slots.map Slot.blank :=
    (Draft.mk.inj hdraft).2.2.2.1
  have hfields : lp.ledger.draft.slots.map Slot.field = lp'.ledger.draft.slots.map Slot.field := by
    simpa [Function.comp_def, Slot.blank] using congrArg (List.map Slot.field) hslots
  have hrows := congrArg (List.map fun slot : Slot => (slot.kind, slot.field, slot.position)) hslots
  rw [List.map_map, List.map_map] at hrows
  simp only [Site.observe, SiteReport.ofSite, Lowered.site, Draft.schema, Schema.fieldNames,
    h.tokens, h.parent, h.itemName, h.binding, hitem, hsource, hfields, Observation.withSource,
    Observation.mk.injEq, true_and]
  exact hrows

theorem Lowered.Alike.observe {lp lp' : Lowered adapter} {s s' : Store} (h : lp.Alike lp')
    (hs : s.Shows lp.mapping.receiver) (hs' : s'.Shows lp'.mapping.receiver) :
    lp.site.observe s = lp'.site.observe s' := by
  have hagrees : lp.Agrees lp' :=
    ⟨h.mapping.itemName, h.tokens, h.parent, h.ledger.draft, h.binding⟩
  rw [hagrees.observe s s', hs.print_eq hs' h.mapping.receiver .concise]
  rfl

theorem map_eq_of_forall₂ {α β γ : Type} {R : α → β → Prop} {f : α → γ} {g : β → γ} {xs : List α}
    {ys : List β} (h : List.Forall₂ R xs ys) (hR : ∀ x ∈ xs, ∀ y ∈ ys, R x y → f x = g y) :
    xs.map f = ys.map g := by
  induction h with
  | nil => rfl
  | cons h _ ih =>
    rw [List.map_cons, List.map_cons, hR _ List.mem_cons_self _ List.mem_cons_self h,
      ih fun x hx y hy => hR x (List.mem_cons_of_mem _ hx) y (List.mem_cons_of_mem _ hy)]

theorem map_observe_mergeSort (s : Store) (sites : List Site) :
    (sites.mergeSort fun x y => x.id ≤ y.id).map (Site.observe s) =
      (sites.map (Site.observe s)).mergeSort fun x y => x.report.id ≤ y.report.id :=
  List.map_mergeSort fun _ _ _ _ => rfl

theorem LowersWhole.observe {a b a' b' : Allocator} {loops loops' new : List (Lowered adapter)}
    {s s' : Store} (h : LowersWhole adapter start a t t' a' loops)
    (h' : LowersWhole adapter start' b u u' b' loops') (hs : s.Shows t') (hs' : s'.Shows u')
    (hnew : new ⊆ loops) (halike : List.Forall₂ Lowered.Alike new loops') :
    (new.map Lowered.site).map (Site.observe s) =
      (loops'.map Lowered.site).map (Site.observe s') := by
  rw [List.map_map, List.map_map]
  refine map_eq_of_forall₂ halike fun lp hlp lp' hlp' hlike => ?_
  have hcall := (h.placed lp (hnew hlp)).2
  have hcall' := (h'.placed lp' hlp').2
  exact hlike.observe (hs.occurs ((lp.mapping.occurs_receiver _ _).trans hcall))
    (hs'.occurs ((lp'.mapping.occurs_receiver _ _).trans hcall'))

/-- The result of a run does not depend on how the store is laid out: from trees that are the same
up to their locations come trees that are the same up to their locations, as many loops, of which
the same is observed, and the same next number. -/
theorem lowerLoops_layout (adapter : Adapter) (a : Allocator) {s s' : Store} {root root' : Loc}
    (h : s.IsTree root) (h' : s'.IsTree root') (he : s.unfold root = s'.unfold root') :
    let r := lowerLoops adapter root ⟨s, a, []⟩
    let r' := lowerLoops adapter root' ⟨s', a, []⟩
    (∃ t, r.2.store.unfold root = some t ∧ r'.2.store.unfold root' = some t) ∧
      r.2.sites.map (Site.observe r.2.store) = r'.2.sites.map (Site.observe r'.2.store) ∧
      r.1 = r'.1 ∧ r.2.allocator = r'.2.allocator := by
  intro r r'
  obtain ⟨t, loops, hlow, hcount, hloc, hown, hsites⟩ := lowerLoops_isTree adapter h a
  obtain ⟨t', loops', hlow', hcount', hloc', hown', hsites'⟩ := lowerLoops_isTree adapter h' a
  have hshows := hown.shows le_rfl
  have hshows' := hown'.shows le_rfl
  have htree : (s.treeAt root).erase = (s'.treeAt root').erase := by
    have hunfold := (h.owns_treeAt.shows le_rfl).unfold
    have hunfold' := (h'.owns_treeAt.shows le_rfl).unfold
    rw [Store.loc_treeAt] at hunfold hunfold'
    exact Option.some.inj (hunfold.symm.trans (he.trans hunfold'))
  obtain ⟨herase, halloc, hloops⟩ := hlow.alike hlow' htree
  refine ⟨⟨t.erase, ?_, ?_⟩, ?_, ?_, halloc⟩
  · rw [← hloc]
    exact hshows.unfold
  · rw [herase, ← hloc']
    exact hshows'.unfold
  · rw [hsites, hsites', map_observe_mergeSort, map_observe_mergeSort,
      hlow.observe hlow' hshows hshows' (List.Subset.refl _) hloops]
  · exact hcount.trans (hloops.length_eq.trans hcount'.symm)

/-- The tree of `nestedLoops` in another layout, with locations that belong to nothing. -/
def relaidLoops : Store where
  nodes := #[.name "stray", .name "i", .container ⟨1⟩, .name "tag", .container ⟨3⟩,
    .element ⟨"b", [], [⟨4⟩, ⟨2⟩], false⟩, .unary "!" ⟨0⟩,
    .lambda ⟨.arrow, false, false, [.plain "tag"], .value ⟨5⟩⟩, .name "item",
    .member ⟨8⟩ "tags" false, .member ⟨9⟩ "map" false, .call ⟨10⟩ [⟨7⟩], .container ⟨11⟩,
    .name "item", .member ⟨13⟩ "name" false, .container ⟨14⟩, .name "item",
    .member ⟨16⟩ "look" false,
    .element ⟨"li", [.named "style" (.expression ⟨17⟩)], [⟨15⟩, ⟨12⟩], false⟩,
    .lambda ⟨.arrow, false, false, [.plain "item", .plain "i"], .value ⟨18⟩⟩, .name "items",
    .member ⟨20⟩ "map" false, .call ⟨21⟩ [⟨19⟩], .container ⟨22⟩,
    .element ⟨"ul", [], [⟨23⟩], false⟩]

theorem relaidLoops_isTree : relaidLoops.IsTree ⟨24⟩ :=
  Store.isTree_of_filled (by decide) (by decide) (by decide)

theorem relaidLoops_unfold : nestedLoops.unfold ⟨22⟩ = relaidLoops.unfold ⟨24⟩ := by
  cbv

theorem nestedLoops_run :
    let r := lowerLoops .wechat ⟨22⟩ ⟨nestedLoops, ⟨7⟩, []⟩
    r.1 = 2 ∧ r.2.allocator = ⟨9⟩ ∧
      (r.2.sites.map (Site.observe r.2.store)).map (fun o => (o.report.id, o.report.binding)) =
        [(7, .inline), (8, .itemPath "item.tags")] := by
  cbv

theorem relaidLoops_layout :
    let r := lowerLoops .wechat ⟨22⟩ ⟨nestedLoops, ⟨7⟩, []⟩
    let r' := lowerLoops .wechat ⟨24⟩ ⟨relaidLoops, ⟨7⟩, []⟩
    nestedLoops.IsTree ⟨22⟩ ∧ relaidLoops.IsTree ⟨24⟩ ∧
      nestedLoops.unfold ⟨22⟩ = relaidLoops.unfold ⟨24⟩ ∧
      (∃ t, r.2.store.unfold ⟨22⟩ = some t ∧ r'.2.store.unfold ⟨24⟩ = some t) ∧
      (r'.2.sites.map (Site.observe r'.2.store)).map (fun o => (o.report.id, o.report.binding)) =
        [(7, .inline), (8, .itemPath "item.tags")] ∧
      r'.1 = 2 ∧ r'.2.allocator = ⟨9⟩ := by
  have hrun := nestedLoops_run
  have hlayout :=
    lowerLoops_layout .wechat ⟨7⟩ nestedLoops_isTree relaidLoops_isTree relaidLoops_unfold
  -- what the runs are is known by now
  generalize lowerLoops .wechat ⟨22⟩ ⟨nestedLoops, ⟨7⟩, []⟩ = r at hrun hlayout ⊢
  generalize lowerLoops .wechat ⟨24⟩ ⟨relaidLoops, ⟨7⟩, []⟩ = r' at hlayout ⊢
  obtain ⟨hcount, hnext, hsites⟩ := hrun
  obtain ⟨htree, hobserved, hcount', hnext'⟩ := hlayout
  exact ⟨nestedLoops_isTree, relaidLoops_isTree, relaidLoops_unfold, htree, hobserved ▸ hsites,
    hcount' ▸ hcount, hnext' ▸ hnext⟩

end JsxLoops.Loop
