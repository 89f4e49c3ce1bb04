import JsxLoops.Proofs.Renaming

/-!
Renaming in a store. The walk that turns back at bindings comes by the same nodes as the collector
of free mentions, which filters on the way up: it notes a place for exactly the free mentions of the
name. Working through the notes therefore renames in the nodes that hold such a mention. Below the
root of a tree no place is noted twice, and then the count is that of the mentions.
-/

namespace JsxLoops.Tree

open Located

variable {α : Type} {a b : String} {l k : Loc}

/-! ### The places of one node -/

def Node.targets (name : String) (l : Loc) : Node α → List Target
  | .name found => if found == name then [.name l] else []
  | .verbatim code => if code.refersTo name then [.code l] else []
  | .lambda f => Binder.targets name (.param l) f.params
  | .declaration _ declarators =>
    Binder.targets name (.declarator l) (declarators.map Declarator.binder)
  | _ => []

theorem Verbatim.refersTo_iff {v : Verbatim} : v.refersTo a = true ↔ a ∈ v.openMentions := by
  simp [refersTo, openMentions, and_comm]

theorem Binder.refersTo_iff {x : Binder} :
    x.refersTo a = true ↔ a ∈ x.code?.toList.flatMap Verbatim.openMentions := by
  cases x with
  | verbatim code => simpa [refersTo, code?] using Verbatim.refersTo_iff
  | _ => simp [refersTo, code?]

theorem Binder.mem_targets {place : Nat → Target} {xs : List Binder} {t : Target} :
    t ∈ Binder.targets a place xs ↔
      ∃ i x, xs[i]? = some x ∧ x.refersTo a = true ∧ t = place i := by
  simp only [targets, List.mem_flatMap, Prod.exists, List.mem_zipIdx_iff_getElem?]
  constructor
  · rintro ⟨x, i, hx, ht⟩
    split at ht
    case isTrue hr => exact ⟨i, x, hx, hr, List.mem_singleton.1 ht⟩
    case isFalse => cases ht
  · rintro ⟨i, x, hx, hr, rfl⟩
    exact ⟨x, i, hx, by simp [hr]⟩

theorem Node.loc_of_mem_targets {n : Node α} {t : Target} (h : t ∈ n.targets a l) : t.loc = l := by
  cases n with
  | name found | verbatim code =>
    simp only [targets] at h
    split at h
    · rw [List.mem_singleton.1 h, Target.loc]
    · cases h
  | lambda f | declaration keyword ds =>
    obtain ⟨i, x, -, -, rfl⟩ := Binder.mem_targets.1 h
    rfl
  | _ => cases h

theorem Node.exists_target {n : Node α} : (∃ t, t ∈ n.targets a l) ↔ a ∈ n.said := by
  have hbinders (place : Nat → Target) (xs : List Binder) :
      (∃ t, t ∈ Binder.targets a place xs) ↔
        a ∈ xs.flatMap fun x => x.code?.toList.flatMap Verbatim.openMentions := by
    simp only [Binder.mem_targets, List.mem_flatMap, Binder.refersTo_iff]
    constructor
    · rintro ⟨t, i, x, hx, hr, rfl⟩
      exact ⟨x, List.mem_of_getElem? hx, hr⟩
    · rintro ⟨x, hx, hr⟩
      obtain ⟨i, hi⟩ := List.mem_iff_getElem?.1 hx
      exact ⟨_, i, x, hi, hr, rfl⟩
  cases n with
  | name found =>
    by_cases h : found = a
    · simp [targets, said, h]
    · simp [targets, said, h, Ne.symm h]
  | verbatim code =>
    rw [said, ← Verbatim.refersTo_iff, targets]
    split <;> simp_all
  | lambda f => exact hbinders _ f.params
  | declaration keyword ds => exact hbinders _ _
  | _ => simp [targets, said, binders]

/-! ### Rewriting one node -/

theorem getElem?_foldl_modify {β : Type} {f : β → β} (hf : ∀ x, f (f x) = f x)
    (is : List Nat) (xs : List β) (j : Nat) :
    (is.foldl (fun xs i => xs.modify i f) xs)[j]? =
      xs[j]?.map fun x => if j ∈ is then f x else x := by
  induction is generalizing xs with
  | nil => simp
  | cons i is ih =>
    rw [List.foldl_cons, ih, List.getElem?_modify]
    cases xs[j]? with
    | none => rfl
    | some x => grind

/-- Changing the marked positions of a list changes all of it, where the others have nothing to
change. -/
theorem foldl_modify_eq_map {β : Type} {f : β → β} (hf : ∀ x, f (f x) = f x)
    {is : List Nat} {xs : List β} (h : ∀ i x, xs[i]? = some x → i ∈ is ∨ f x = x) :
    is.foldl (fun xs i => xs.modify i f) xs = xs.map f := by
  refine List.ext_getElem? fun j => ?_
  rw [getElem?_foldl_modify hf, List.getElem?_map]
  cases hj : xs[j]? with
  | none => rfl
  | some x =>
    rcases h j x hj with hmem | hx
    · simp [hmem]
    · simp [hx]

/-- The position of a place in its owner. -/
def Target.position : Target → Nat
  | .param _ i | .declarator _ i => i
  | _ => 0

def Node.rewriteAll (a b : String) (ts : List Target) (n : Node α) : Node α :=
  ts.foldl (fun n t => (n.rewrite a b t).2) n

theorem Node.rewriteAll_cons (t : Target) (ts : List Target) (n : Node α) :
    n.rewriteAll a b (t :: ts) = ((n.rewrite a b t).2).rewriteAll a b ts := rfl

theorem Node.rewriteAll_same {t : Target} {ts : List Target} {n n' : Node α}
    (h : (n.rewrite a b t).2 = n') (h' : (n'.rewrite a b t).2 = n') (hts : ∀ x ∈ ts, x = t)
    (hne : ts ≠ []) : n.rewriteAll a b ts = n' := by
  cases ts with
  | nil => exact absurd rfl hne
  | cons x ts =>
    rw [rewriteAll_cons, hts x List.mem_cons_self, h]
    clear hne h
    induction ts with
    | nil => rfl
    | cons y ts ih =>
      rw [rewriteAll_cons, hts y (by simp), h']
      exact ih fun z hz => hts z (by grind)

theorem Node.rewriteAll_lambda {f : Lambda α} {ts : List Target}
    (hts : ∀ t ∈ ts, t = .param l t.position) :
    (Node.lambda f).rewriteAll a b ts = .lambda ⟨f.form, f.isAsync, f.generator,
      (ts.map Target.position).foldl (fun xs i => xs.modify i (Binder.rename a b)) f.params,
      f.body⟩ := by
  induction ts generalizing f with
  | nil => rfl
  | cons t ts ih =>
    rw [rewriteAll_cons, hts t List.mem_cons_self]
    exact ih fun x hx => hts x (List.mem_cons_of_mem t hx)

theorem Node.rewriteAll_declaration {keyword : String} {ds : List (Declarator α)}
    {ts : List Target} (hts : ∀ t ∈ ts, t = .declarator l t.position) :
    (Node.declaration keyword ds).rewriteAll a b ts = .declaration keyword
      ((ts.map Target.position).foldl (fun xs i => xs.modify i (Declarator.rename a b)) ds) := by
  induction ts generalizing ds with
  | nil => rfl
  | cons t ts ih =>
    rw [rewriteAll_cons, hts t List.mem_cons_self]
    exact ih fun x hx => hts x (List.mem_cons_of_mem t hx)

/-- Rewriting all places of a node, in any order and with repetitions, renames in it. -/
theorem Node.rewriteAll_eq (hab : a ≠ b) {n : Node α} {ts : List Target}
    (h : ∀ t, t ∈ ts ↔ t ∈ n.targets a l) : n.rewriteAll a b ts = n.renameHere a b := by
  have hnone (hts : n.targets a l = []) : n.rewriteAll a b ts = n.renameHere a b := by
    have hsaid : a ∉ n.said := fun ha => by
      obtain ⟨t, ht⟩ := exists_target (l := l).2 ha
      rw [hts] at ht
      cases ht
    obtain rfl : ts = [] := List.eq_nil_iff_forall_not_mem.2 fun t ht => by
      rw [h, hts] at ht
      cases ht
    rw [renameHere_of_not_mem hsaid]
    rfl
  cases n with
  | name found =>
    by_cases hf : found = a
    · have htargets : (Node.name found : Node α).targets a l = [.name l] := by simp [targets, hf]
      rw [htargets] at h
      have hhere : (Node.name found : Node α).renameHere a b = .name b := by simp [renameHere, hf]
      rw [hhere]
      exact rewriteAll_same rfl rfl (fun t ht => List.mem_singleton.1 ((h t).1 ht))
        (List.ne_nil_of_mem ((h _).2 List.mem_cons_self))
    · exact hnone (by simp [targets, hf])
  | verbatim code =>
    by_cases hr : code.refersTo a = true
    · have htargets : (Node.verbatim code : Node α).targets a l = [.code l] := by simp [targets, hr]
      rw [htargets] at h
      refine rewriteAll_same rfl ?_ (fun t ht => List.mem_singleton.1 ((h t).1 ht))
        (List.ne_nil_of_mem ((h _).2 List.mem_cons_self))
      simp [rewrite, renameHere, Verbatim.rename_rename hab]
    · exact hnone (by simp [targets, hr])
  | lambda f =>
    have hparam (t : Target) (ht : t ∈ ts) : t = .param l t.position := by
      obtain ⟨i, x, -, -, rfl⟩ := Binder.mem_targets.1 ((h t).1 ht)
      rfl
    rw [rewriteAll_lambda hparam, renameHere, foldl_modify_eq_map (Binder.rename_rename hab)]
    intro i x hx
    by_cases hr : x.refersTo a = true
    · refine .inl (List.mem_map.2 ⟨.param l i, (h _).2 (Binder.mem_targets.2 ?_), rfl⟩)
      exact ⟨i, x, hx, hr, rfl⟩
    · exact .inr (Binder.rename_of_not_mem (mt Binder.refersTo_iff.2 hr))
  | declaration keyword ds =>
    have hslot (t : Target) (ht : t ∈ ts) : t = .declarator l t.position := by
      obtain ⟨i, x, -, -, rfl⟩ := Binder.mem_targets.1 ((h t).1 ht)
      rfl
    have hidem (d : Declarator α) : (d.rename a b).rename a b = d.rename a b := by
      simp [Declarator.rename, Binder.rename_rename hab]
    rw [rewriteAll_declaration hslot, renameHere, foldl_modify_eq_map hidem]
    · rfl
    intro i d hd
    by_cases hr : d.binder.refersTo a = true
    · refine .inl (List.mem_map.2 ⟨.declarator l i, (h _).2 (Binder.mem_targets.2 ?_), rfl⟩)
      exact ⟨i, d.binder, by rw [List.getElem?_map, hd, Option.map_some], hr, rfl⟩
    · refine .inr ?_
      rw [Declarator.rename, Binder.rename_of_not_mem (mt Binder.refersTo_iff.2 hr)]
  | _ => exact hnone rfl

inductive Target.Fits : Target → Node α → Prop
  | name (l : Loc) (found : String) : Fits (.name l) (.name found)
  | code (l : Loc) (code : Verbatim) : Fits (.code l) (.verbatim code)
  | param (l : Loc) (i : Nat) (f : Lambda α) : Fits (.param l i) (.lambda f)
  | declarator (l : Loc) (i : Nat) (keyword : String) (ds : List (Declarator α)) :
    Fits (.declarator l i) (.declaration keyword ds)

theorem Node.fits_of_mem_targets {n : Node α} {t : Target} (h : t ∈ n.targets a l) : t.Fits n := by
  cases n with
  | name found | verbatim code =>
    simp only [targets] at h
    split at h
    · rw [List.mem_singleton.1 h]
      constructor
    · cases h
  | lambda f | declaration keyword ds =>
    obtain ⟨i, x, -, -, rfl⟩ := Binder.mem_targets.1 h
    constructor
  | _ => cases h

theorem Node.fits_rewrite {n : Node α} {t x : Target} (ht : t.Fits n) (hx : x.Fits n) :
    x.Fits (n.rewrite a b t).2 := by
  cases ht <;> cases hx <;> constructor

theorem Node.fst_rewrite_rewrite {n : Node α} {t x : Target} (ht : t.Fits n) (hx : x.Fits n)
    (hloc : x.loc = t.loc) (hne : x ≠ t) :
    ((n.rewrite a b t).2.rewrite a b x).1 = (n.rewrite a b x).1 := by
  cases ht with
  | name =>
    cases hx
    exact absurd (congrArg Target.name hloc) hne
  | code =>
    cases hx
    exact absurd (congrArg Target.code hloc) hne
  | param l i f =>
    cases hx with
    | param k j =>
      have hij : i ≠ j := fun he => hne (by rw [he, show k = l from hloc])
      simp [rewrite, hij]
  | declarator l i keyword ds =>
    cases hx with
    | declarator k j =>
      have hij : i ≠ j := fun he => hne (by rw [he, show k = l from hloc])
      simp [rewrite, hij]

theorem Binder.nodup_targets {place : Nat → Target} (hp : Function.Injective place)
    (xs : List Binder) : (Binder.targets a place xs).Nodup := by
  rw [targets, List.nodup_flatMap]
  constructor
  · rintro ⟨x, i⟩ -
    show (if x.refersTo a then [place i] else []).Nodup
    split <;> simp
  · have hnodup : (xs.zipIdx.map Prod.snd).Nodup := by
      rw [List.zipIdx_map_snd]
      exact List.nodup_range'
    refine (List.pairwise_map.1 hnodup).imp fun {p q} hne t ht ht' => ?_
    obtain ⟨x, i⟩ := p
    obtain ⟨y, j⟩ := q
    change t ∈ (if x.refersTo a then [place i] else []) at ht
    change t ∈ (if y.refersTo a then [place j] else []) at ht'
    split at ht <;> split at ht' <;> simp_all [hp.eq_iff]

theorem Node.nodup_targets (n : Node α) : (n.targets a l).Nodup := by
  cases n with
  | name found | verbatim code =>
    simp only [targets]
    split <;> simp
  | lambda f => exact Binder.nodup_targets (fun i j h => (Target.param.inj h).2) _
  | declaration keyword ds =>
    exact Binder.nodup_targets (fun i j h => (Target.declarator.inj h).2) _
  | _ => exact List.nodup_nil

theorem Verbatim.openCount_of_not_refersTo {v : Verbatim} (h : ¬ v.refersTo a = true) :
    v.openCount a = 0 :=
  List.count_eq_zero.2 (mt Verbatim.refersTo_iff.2 h)

theorem Binder.openCount_eq (x : Binder) :
    x.openCount a = (x.code?.toList.flatMap Verbatim.openMentions).count a := by
  cases x <;> simp [openCount, code?, Verbatim.openCount]

theorem sum_map_flatMap {β γ δ : Type} {w : γ → Nat} {p : δ → Bool} {f : β → List γ}
    {g : β → List δ} {xs : List β} (h : ∀ x ∈ xs, ((f x).map w).sum = (g x).countP p) :
    ((xs.flatMap f).map w).sum = (xs.flatMap g).countP p := by
  induction xs with
  | nil => rfl
  | cons x xs ih =>
    simp only [List.flatMap_cons, List.map_append, List.sum_append, List.countP_append,
      h x List.mem_cons_self, ih fun y hy => h y (List.mem_cons_of_mem x hy)]

theorem Binder.sum_targets {place : Nat → Target} {w : Target → Nat} {xs : List Binder}
    (hw : ∀ i x, xs[i]? = some x → w (place i) = x.openCount a) :
    ((Binder.targets a place xs).map w).sum =
      (xs.flatMap fun x => x.code?.toList.flatMap Verbatim.openMentions).count a := by
  have hfst : (xs.flatMap fun x => x.code?.toList.flatMap Verbatim.openMentions) =
      xs.zipIdx.flatMap fun p => p.1.code?.toList.flatMap Verbatim.openMentions := by
    nth_rewrite 1 [← List.zipIdx_map_fst 0 xs]
    rw [List.flatMap_map]
  rw [targets, hfst]
  refine sum_map_flatMap fun p hp => ?_
  obtain ⟨x, i⟩ := p
  have hx := List.mem_zipIdx_iff_getElem?.1 hp
  show ((if x.refersTo a then [place i] else []).map w).sum = List.count a _
  rw [← Binder.openCount_eq]
  split
  · simp [hw i x hx]
  case isFalse hr =>
    rw [openCount_eq, List.count_eq_zero.2 (mt Binder.refersTo_iff.2 hr)]
    rfl

theorem Node.sum_targets (n : Node α) :
    ((n.targets a l).map fun t => (n.rewrite a b t).1).sum = n.said.count a := by
  cases n with
  | name found => by_cases h : found = a <;> simp [targets, said, rewrite, h]
  | verbatim code =>
    rw [targets, said]
    split
    · simp [rewrite, Verbatim.openCount]
    case isFalse hr => exact (Verbatim.openCount_of_not_refersTo hr).symm
  | lambda f => exact Binder.sum_targets fun i x hx => by simp [rewrite, hx]
  | declaration keyword ds =>
    refine Binder.sum_targets fun i x hx => ?_
    rw [List.getElem?_map] at hx
    obtain ⟨d, hd, rfl⟩ := Option.map_eq_some_iff.1 hx
    simp [rewrite, hd]
  | _ => rfl

/-! ### The walk and the collector -/

theorem flatMap_filterMap_value (ds : List (Declarator α)) {β : Type} (f : α → List β) :
    (ds.filterMap Declarator.value).flatMap f = ds.flatMap fun d => d.value.toList.flatMap f := by
  induction ds with
  | nil => rfl
  | cons d ds ih => cases h : d.value <;> simp [h, ih]

namespace Store

variable {s : Store}

theorem rebinds_iff {f : Lambda Loc} : s.rebinds a f = true ↔ a ∈ s.scopeNames (.lambda f) := by
  rw [rebinds, scopeNames]
  cases f.body <;> simp

theorem targetsIn_perm (inside : Loc → List Target) (n : Node Loc) :
    (s.targetsIn a inside l n).Perm
      (if a ∈ s.scopeNames n then [] else n.targets a l ++ n.children.flatMap inside) := by
  cases n with
  | name found | verbatim code => simp [targetsIn, scopeNames, Node.targets, Node.children]
  | lambda f =>
    simp only [targetsIn, rebinds_iff]
    exact .refl _
  | block statements =>
    simp only [targetsIn, List.contains_eq_mem, decide_eq_true_eq]
    exact .refl _
  | declaration keyword ds =>
    have hown : Binder.targets a (.declarator l) (ds.map Declarator.binder) = ds.zipIdx.flatMap
        fun x => if x.1.binder.refersTo a then [.declarator l x.2] else [] := by
      simp [Binder.targets, List.zipIdx_map, List.flatMap_map]
    have hinside : (ds.filterMap Declarator.value).flatMap inside =
        ds.zipIdx.flatMap fun x => x.1.value.toList.flatMap inside := by
      rw [flatMap_filterMap_value]
      nth_rewrite 1 [← List.zipIdx_map_fst 0 ds]
      rw [List.flatMap_map]
    simp only [scopeNames, List.not_mem_nil, if_false, Node.targets, Node.children, hown, hinside]
    exact (List.flatMap_append_perm _ _ _).symm
  | _ => simp [targetsIn, scopeNames, Node.targets]

theorem mentionsIn_eq (inside : Loc → List Mention) (n : Node Loc) :
    mentionsIn inside l n = (n.map inside).mentions l := by
  have below := Node.flatMap_contents_map inside (Content.mentions l) n
  cases n with
  | name | verbatim => rfl
  | _ => exact (List.flatMap_congr fun c _ => by cases c <;> rfl).trans below.symm

theorem mentionsIn_perm (inside : Loc → List Mention) (n : Node Loc) :
    (mentionsIn inside l n).Perm (n.said.map (⟨l, ·⟩) ++ n.children.flatMap inside) := by
  have hbinder (x : Binder) : x.contents.flatMap (Content.mentions l) =
      (x.code?.toList.flatMap Verbatim.openMentions).map (⟨l, ·⟩) := by
    cases x <;> simp [Binder.contents, Binder.code?, Content.mentions]
  have hchildren (cs : List (List Mention)) :
      (cs.map Content.child).flatMap (Content.mentions l) = cs.flatten := by
    rw [List.flatMap_map]
    exact List.flatMap_id
  rw [mentionsIn_eq]
  cases n with
  | name found | verbatim code => simp [Node.map, Node.mentions, Node.said, Node.children]
  | lambda f =>
    simp only [Node.map, Node.mentions, Node.contents, List.flatMap_append, List.flatMap_assoc,
      hbinder, Body.children_map, hchildren, Node.said, Node.binders, List.map_flatMap,
      Node.children]
    exact .refl _
  | declaration keyword ds =>
    have hvalue (d : Declarator Loc) :
        ((d.value.map inside).toList.map Content.child).flatMap (Content.mentions l) =
          d.value.toList.flatMap inside := by
      cases d.value <;> simp [Content.mentions]
    simp only [Node.map, Node.mentions, Node.contents, List.flatMap_assoc, List.flatMap_append,
      List.flatMap_map, hbinder, hvalue, Node.said, Node.binders, List.map_flatMap,
      Node.children, flatMap_filterMap_value]
    exact (List.flatMap_append_perm _ _ _).symm
  | _ =>
    show (((Node.map inside _).children.map Content.child).flatMap (Content.mentions l)).Perm _
    rw [hchildren, Node.children_map]
    exact .refl _

def freeRule (s : Store) (inside : Loc → List Mention) (l : Loc) (n : Node Loc) : List Mention :=
  (mentionsIn inside l n).filter fun m => !(s.scopeNames n).contains m.name

/-- The nodes that are met on the way down with no binding of the name around them. -/
def Meets (s : Store) (a : String) : Nat → Loc → Loc → Prop
  | 0, _, _ => False
  | depth + 1, l, k =>
    a ∉ s.scopeNames (s.get l) ∧ (k = l ∨ ∃ c ∈ (s.get l).children, s.Meets a depth c k)

theorem mem_visit_targets {depth : Nat} {t : Target} :
    t ∈ s.visit (s.targetsIn a) [] depth l ↔
      ∃ k, s.Meets a depth l k ∧ t ∈ (s.get k).targets a k := by
  induction depth generalizing l with
  | zero => simp [visit, Meets]
  | succ depth ih =>
    rw [visit, (targetsIn_perm _ _).mem_iff]
    simp only [Meets]
    split
    case isTrue hs => simp [hs]
    case isFalse hs =>
      simp only [List.mem_append, List.mem_flatMap, ih, hs, not_false_eq_true, true_and]
      constructor
      · rintro (ht | ⟨c, hc, k, hk, ht⟩)
        · exact ⟨l, .inl rfl, ht⟩
        · exact ⟨k, .inr ⟨c, hc, hk⟩, ht⟩
      · rintro ⟨k, rfl | ⟨c, hc, hk⟩, ht⟩
        · exact .inl ht
        · exact .inr ⟨c, hc, k, hk, ht⟩

theorem mem_visit_freeRule {depth : Nat} {x : Mention} :
    x ∈ s.visit s.freeRule [] depth l ∧ x.name = a ↔
      ∃ k, s.Meets a depth l k ∧ a ∈ (s.get k).said ∧ x = ⟨k, a⟩ := by
  induction depth generalizing l with
  | zero => simp [visit, Meets]
  | succ depth ih =>
    rw [visit, freeRule, List.mem_filter, (mentionsIn_perm _ _).mem_iff]
    simp only [Meets, List.mem_append, List.mem_map, List.mem_flatMap, Bool.not_eq_true',
      List.contains_eq_mem, decide_eq_false_iff_not]
    constructor
    · rintro ⟨⟨⟨name, hname, rfl⟩ | ⟨c, hc, hx⟩, hs⟩, rfl⟩
      · exact ⟨l, ⟨hs, .inl rfl⟩, hname, rfl⟩
      · obtain ⟨k, hk, hsaid, he⟩ := ih.1 ⟨hx, rfl⟩
        exact ⟨k, ⟨hs, .inr ⟨c, hc, hk⟩⟩, hsaid, he⟩
    · rintro ⟨k, ⟨hs, rfl | ⟨c, hc, hk⟩⟩, hsaid, rfl⟩
      · exact ⟨⟨.inl ⟨a, hsaid, rfl⟩, hs⟩, rfl⟩
      · exact ⟨⟨.inr ⟨c, hc, (ih.2 ⟨k, hk, hsaid, rfl⟩).1⟩, hs⟩, rfl⟩

/-! ### Rewriting in a store -/

def renameAt (s : Store) (source target : String) (locs : List Loc) : Store :=
  locs.foldl (fun s l => s.put l ((s.get l).renameHere source target)) s

variable {locs : List Loc}

@[simp] theorem size_renameAt (s : Store) (a b : String) (locs : List Loc) :
    (s.renameAt a b locs).size = s.size := by
  rw [renameAt]
  induction locs generalizing s with
  | nil => rfl
  | cons l locs ih => rw [List.foldl_cons, ih, size_put]

theorem get_renameAt (hab : a ≠ b) (h : ∀ l ∈ locs, l.index < s.size) (l : Loc) :
    (s.renameAt a b locs).get l = if l ∈ locs then (s.get l).renameHere a b else s.get l := by
  rw [renameAt]
  induction locs generalizing s with
  | nil => simp
  | cons k locs ih =>
    have hk := h k List.mem_cons_self
    rw [List.foldl_cons, ih fun x hx => by
      rw [size_put]
      exact h x (List.mem_cons_of_mem k hx), get_put s k l _ hk]
    by_cases hl : l = k
    · subst hl
      by_cases hm : l ∈ locs <;> simp [hm, Node.renameHere_renameHere hab]
    · simp [hl]

theorem size_foldl_rewrite (ts : List Target) (done : Nat × Store) :
    (ts.foldl (rewrite a b) done).2.size = done.2.size := by
  induction ts generalizing done with
  | nil => rfl
  | cons t ts ih => rw [List.foldl_cons, ih, rewrite, size_put]

theorem get_foldl_rewrite {ts : List Target} {done : Nat × Store}
    (h : ∀ t ∈ ts, t.loc.index < done.2.size) (l : Loc) :
    (ts.foldl (rewrite a b) done).2.get l =
      (done.2.get l).rewriteAll a b (ts.filter fun t => t.loc == l) := by
  induction ts generalizing done with
  | nil => rfl
  | cons t ts ih =>
    rw [List.foldl_cons, ih fun x hx => by
      rw [rewrite, size_put]
      exact h x (List.mem_cons_of_mem t hx), rewrite, get_put _ _ _ _ (h t List.mem_cons_self)]
    by_cases hl : l = t.loc
    · subst hl
      rw [if_pos rfl, List.filter_cons_of_pos (by simp), Node.rewriteAll_cons]
    · rw [if_neg hl, List.filter_cons_of_neg (by simpa using Ne.symm hl)]

theorem eq_of_get_eq {s s' : Store} (hsize : s.size = s'.size) (hget : ∀ l, s.get l = s'.get l) :
    s = s' := by
  obtain ⟨nodes⟩ := s
  obtain ⟨nodes'⟩ := s'
  refine congrArg Store.mk (Array.ext hsize fun i hi hi' => ?_)
  have := hget ⟨i⟩
  rwa [get, get, Array.getD_eq_getD_getElem?, Array.getD_eq_getD_getElem?,
    Array.getElem?_eq_getElem hi, Array.getElem?_eq_getElem hi'] at this

/-- The locations of the free mentions of a name below some roots. -/
def mentionLocs (s : Store) (roots : List Loc) (a : String) : List Loc :=
  ((roots.flatMap s.freeMentions).filter fun m => m.name == a).map Mention.loc

theorem mem_mentionLocs {roots : List Loc} {k : Loc} : k ∈ s.mentionLocs roots a ↔
    (∃ root ∈ roots, s.Meets a s.size root k) ∧ a ∈ (s.get k).said := by
  simp only [mentionLocs, List.mem_map, List.mem_filter, List.mem_flatMap, beq_iff_eq]
  constructor
  · rintro ⟨x, ⟨⟨root, hroot, hx⟩, hname⟩, rfl⟩
    obtain ⟨k, hk, hsaid, rfl⟩ := mem_visit_freeRule.1 ⟨hx, hname⟩
    exact ⟨⟨root, hroot, hk⟩, hsaid⟩
  · rintro ⟨⟨root, hroot, hk⟩, hsaid⟩
    obtain ⟨hx, hname⟩ := mem_visit_freeRule.2 ⟨k, hk, hsaid, rfl⟩
    exact ⟨⟨k, a⟩, ⟨⟨root, hroot, hx⟩, hname⟩, rfl⟩

theorem lt_size_of_said {k : Loc} (h : a ∈ (s.get k).said) : k.index < s.size := by
  by_contra hlt
  rw [get, Array.getD_eq_getD_getElem?, Array.getElem?_eq_none (Nat.le_of_not_lt hlt)] at h
  simp [Node.said, Node.binders] at h

def notes (s : Store) (roots : List Loc) (a : String) : List Target :=
  let found := roots.flatMap (s.targets a)
  found.filter Target.isName ++ found.filter Target.isCode ++ found.filter Target.isSlot

theorem notes_perm (roots : List Loc) : (s.notes roots a).Perm (roots.flatMap (s.targets a)) := by
  have hkinds (ts : List Target) :
      (ts.filter Target.isName ++ ts.filter Target.isCode ++ ts.filter Target.isSlot).Perm ts := by
    induction ts with
    | nil => rfl
    | cons t ts ih =>
      cases t <;> simp only [List.filter_cons, Target.isName, Target.isCode, Target.isSlot, if_true,
        Bool.false_eq_true, if_false, List.cons_append]
      · exact ih.cons _
      · exact (List.Perm.append_right _ List.perm_middle).trans (ih.cons _)
      all_goals exact List.perm_middle.trans (ih.cons _)
  exact hkinds _

theorem mem_notes {roots : List Loc} {t : Target} : t ∈ s.notes roots a ↔
    (∃ root ∈ roots, s.Meets a s.size root t.loc) ∧ t ∈ (s.get t.loc).targets a t.loc := by
  rw [(notes_perm roots).mem_iff, List.mem_flatMap]
  constructor
  · rintro ⟨root, hroot, ht⟩
    obtain ⟨k, hk, hmem⟩ := mem_visit_targets.1 ht
    obtain rfl := Node.loc_of_mem_targets hmem
    exact ⟨⟨root, hroot, hk⟩, hmem⟩
  · rintro ⟨⟨root, hroot, hk⟩, ht⟩
    exact ⟨root, hroot, mem_visit_targets.2 ⟨_, hk, ht⟩⟩

theorem snd_rename (s : Store) (roots : List Loc) (a b : String) :
    (s.rename roots a b).2 = if a = b then s else s.renameAt a b (s.mentionLocs roots a) := by
  rw [rename]
  split
  · rfl
  case isFalse hab =>
    have hnotes (t : Target) (ht : t ∈ s.notes roots a) : a ∈ (s.get t.loc).said :=
      Node.exists_target.1 ⟨t, (mem_notes.1 ht).2⟩
    have hlocs (l : Loc) (hl : l ∈ s.mentionLocs roots a) : l.index < s.size :=
      lt_size_of_said (mem_mentionLocs.1 hl).2
    refine eq_of_get_eq ?_ fun l => ?_
    · rw [size_foldl_rewrite, size_renameAt]
    refine (get_foldl_rewrite (fun t ht => lt_size_of_said (hnotes t ht)) l).trans ?_
    rw [get_renameAt hab hlocs]
    split
    case isTrue hl =>
      obtain ⟨hmet, -⟩ := mem_mentionLocs.1 hl
      refine Node.rewriteAll_eq (l := l) hab fun t => ?_
      simp only [List.mem_filter, beq_iff_eq, mem_notes]
      constructor
      · rintro ⟨⟨-, ht⟩, rfl⟩
        exact ht
      · intro ht
        obtain rfl := Node.loc_of_mem_targets ht
        exact ⟨⟨hmet, ht⟩, rfl⟩
    case isFalse hl =>
      have hnone : (s.notes roots a).filter (fun t => t.loc == l) = [] :=
        List.filter_eq_nil_iff.2 fun t ht he => hl (by
          obtain rfl := beq_iff_eq.1 he
          exact mem_mentionLocs.2 ⟨(mem_notes.1 ht).1, hnotes t ht⟩)
      rw [hnone]
      rfl

theorem size_rename (s : Store) (roots : List Loc) (a b : String) :
    (s.rename roots a b).2.size = s.size := by
  rw [snd_rename]
  split
  · rfl
  · exact size_renameAt s a b _

theorem Owns.rename (ts : List Located) {rest : Multiset Cell} (h : s.Owns (cellsOf ts + rest))
    (a b : String) :
    (s.rename (ts.map loc) a b).2.Owns (cellsOf (ts.map (renameFree a b)) + rest) := by
  by_cases hab : a = b
  · subst hab
    have hid : ts.map (renameFree a a) = ts :=
      (List.map_congr_left fun t _ => renameFree_self a t).trans (List.map_id ts)
    rwa [snd_rename, if_pos rfl, hid]
  have hts : s.Owns (cellsOf ts) := h.mono (Multiset.le_add_right _ _)
  have hn := h.nodup
  rw [Multiset.map_add, Multiset.nodup_add] at hn
  have hfree : (ts.map loc).flatMap s.freeMentions = ts.flatMap Located.freeMentions := by
    rw [List.flatMap_map]
    exact List.flatMap_congr fun t ht => (hts.shows (cells_le_of_mem ht)).freeMentions
  rw [snd_rename, if_neg hab, mentionLocs, hfree]
  generalize hlocs :
    ((ts.flatMap Located.freeMentions).filter fun m => m.name == a).map Mention.loc = locs
  have hmem (l : Loc) :
      l ∈ locs ↔ ∃ t ∈ ts, ∃ x ∈ t.freeMentions, x.name = a ∧ x.loc = l := by
    subst hlocs
    simp only [List.mem_map, List.mem_filter, List.mem_flatMap, beq_iff_eq]
    constructor
    · rintro ⟨x, ⟨⟨t, ht, hx⟩, ha⟩, hl⟩
      exact ⟨t, ht, x, hx, ha, hl⟩
    · rintro ⟨t, ht, x, hx, ha, hl⟩
      exact ⟨x, ⟨⟨t, ht, hx⟩, ha⟩, hl⟩
  have hown (l : Loc) (hl : l ∈ locs) : ∃ c ∈ cellsOf ts, c.loc = l := by
    obtain ⟨t, ht, x, hx, -, rfl⟩ := (hmem l).1 hl
    obtain ⟨c, hc, he⟩ := exists_cell_of_mem_freeMentions hx
    exact ⟨c, mem_cellsOf.2 ⟨t, ht, hc⟩, he⟩
  have hbound : ∀ l ∈ locs, l.index < s.size := fun l hl => by
    obtain ⟨c, hc, rfl⟩ := hown l hl
    exact hts.bound c hc
  have hmarks : ∀ t ∈ ts, MarksFree locs a t := MarksFree.of_forall hn.1 fun c _ => hmem c.loc
  have hcells : cellsOf (ts.map (renameFree a b)) = (cellsOf ts).map (Cell.renameAt locs a b) :=
    cellsOf_map_renameFree fun t ht => cells_renameFree
      (Multiset.nodup_of_le (Multiset.map_le_map (cells_le_of_mem ht)) hn.1) (hmarks t ht)
  rw [hcells]
  refine ⟨fun c hc => ?_, fun c hc => ?_, ?_⟩
  · rw [size_renameAt]
    rcases Multiset.mem_add.1 hc with hc | hc
    · obtain ⟨d, hd, rfl⟩ := Multiset.mem_map.1 hc
      rw [Cell.loc_renameAt]
      exact hts.bound d hd
    · exact h.bound c (Multiset.mem_add.2 (.inr hc))
  · rw [get_renameAt hab hbound]
    rcases Multiset.mem_add.1 hc with hc | hc
    · obtain ⟨d, hd, rfl⟩ := Multiset.mem_map.1 hc
      rw [Cell.loc_renameAt, hts.get d hd, Cell.renameAt]
      split <;> rfl
    · have hl : c.loc ∉ locs := fun hl => by
        obtain ⟨d, hd, he⟩ := hown _ hl
        exact Multiset.disjoint_left.1 hn.2.2 (he ▸ Multiset.mem_map_of_mem _ hd)
          (Multiset.mem_map_of_mem _ hc)
      rw [if_neg hl, h.get c (Multiset.mem_add.2 (.inr hc))]
  · have hloc : Cell.loc ∘ Cell.renameAt locs a b = Cell.loc := by
      funext c
      exact Cell.loc_renameAt locs a b c
    rw [Multiset.map_add, Multiset.map_map, hloc, ← Multiset.map_add]
    exact h.nodup

/-! ### The count -/

def weight (s : Store) (a b : String) (t : Target) : Nat := ((s.get t.loc).rewrite a b t).1

theorem fst_foldl_rewrite {ts : List Target} {done : Nat × Store} (hn : ts.Nodup)
    (h : ∀ t ∈ ts, t.Fits (done.2.get t.loc)) :
    (ts.foldl (rewrite a b) done).1 = done.1 + (ts.map (done.2.weight a b)).sum := by
  induction ts generalizing done with
  | nil => rfl
  | cons t ts ih =>
    obtain ⟨hnot, hn⟩ := List.nodup_cons.1 hn
    have ht := h t List.mem_cons_self
    have hrest (x : Target) (hx : x ∈ ts) : x.Fits ((rewrite a b done t).2.get x.loc) ∧
        (rewrite a b done t).2.weight a b x = done.2.weight a b x := by
      have hfits := h x (List.mem_cons_of_mem t hx)
      rw [weight, weight, rewrite]
      obtain hsame | ⟨hloc, hput⟩ := get_put_cases (s := done.2) t.loc x.loc
        ((done.2.get t.loc).rewrite a b t).2
      · rw [hsame]
        exact ⟨hfits, rfl⟩
      · rw [hput]
        rw [hloc] at hfits ⊢
        exact ⟨Node.fits_rewrite ht hfits, Node.fst_rewrite_rewrite ht hfits hloc fun he =>
          hnot (he ▸ hx)⟩
    rw [List.foldl_cons, ih hn fun x hx => (hrest x hx).1, List.map_cons, List.sum_cons,
      List.map_congr_left fun x hx => (hrest x hx).2, ← Nat.add_assoc]
    rfl

theorem sum_visit_targets (depth : Nat) (l : Loc) :
    ((s.visit (s.targetsIn a) [] depth l).map (s.weight a b)).sum =
      (s.visit s.freeRule [] depth l).countP fun m => m.name == a := by
  induction depth generalizing l with
  | zero => rfl
  | succ depth ih =>
    rw [visit, visit, ((targetsIn_perm _ _).map _).sum_nat, freeRule, List.countP_filter]
    split
    case isTrue hs =>
      refine (List.countP_eq_zero.2 fun m _ hm => ?_).symm
      simp only [Bool.and_eq_true, beq_iff_eq, Bool.not_eq_true', List.contains_eq_mem,
        decide_eq_false_iff_not] at hm
      exact hm.2 (hm.1 ▸ hs)
    case isFalse hs =>
      have hpred (m : Mention) : (m.name == a && !(s.scopeNames (s.get l)).contains m.name) =
          (m.name == a) := by
        by_cases hm : m.name = a <;> simp [hm, hs]
      have hown : ((s.get l).targets a l).map (s.weight a b) =
          ((s.get l).targets a l).map fun t => ((s.get l).rewrite a b t).1 :=
        List.map_congr_left fun t ht => by rw [weight, Node.loc_of_mem_targets ht]
      simp only [hpred]
      rw [(mentionsIn_perm _ _).countP_eq, List.map_append, List.sum_append, List.countP_append,
        hown, Node.sum_targets, List.countP_map, sum_map_flatMap fun c _ => ih c]
      rfl

theorem Shows.meets {t : Located} (h : s.Shows t) {depth : Nat} {k : Loc}
    (hk : s.Meets a depth t.loc k) : k ∈ t.cells.map Cell.loc := by
  induction depth generalizing t with
  | zero => cases hk
  | succ depth ih =>
    obtain ⟨l, n⟩ := t
    rw [Meets, loc_node, h.get_root, Node.children_map] at hk
    rw [cells_node, Multiset.map_add, Multiset.map_singleton, Multiset.mem_add]
    rcases hk.2 with rfl | ⟨_, hmem, hk⟩
    · exact .inl (Multiset.mem_singleton_self _)
    · obtain ⟨c, hc, rfl⟩ := List.mem_map.1 hmem
      exact .inr (Multiset.mem_of_le (Multiset.map_le_map (cells_le_of_mem hc))
        (ih (h.child hc) hk))

theorem pairwise_disjoint_locs {ts : List Located} (h : ((cellsOf ts).map Cell.loc).Nodup) :
    ts.Pairwise fun t u => Disjoint (t.cells.map Cell.loc) (u.cells.map Cell.loc) := by
  induction ts with
  | nil => exact .nil
  | cons t ts ih =>
    rw [cellsOf_cons, Multiset.map_add, Multiset.nodup_add] at h
    refine .cons (fun u hu => ?_) (ih h.2.1)
    exact h.2.2.mono_right (Multiset.map_le_map (cells_le_of_mem hu))

theorem Shows.nodup_visit_targets {t : Located} (h : s.Shows t)
    (hn : (t.cells.map Cell.loc).Nodup) (depth : Nat) :
    (s.visit (s.targetsIn a) [] depth t.loc).Nodup := by
  induction depth generalizing t with
  | zero => exact List.nodup_nil
  | succ depth ih =>
    obtain ⟨l, n⟩ := t
    rw [cells_node, Multiset.map_add, Multiset.map_singleton, Multiset.nodup_add] at hn
    have hloc {c : Located} (hc : c ∈ n.children) {t : Target}
        (ht : t ∈ s.visit (s.targetsIn a) [] depth c.loc) : t.loc ∈ c.cells.map Cell.loc := by
      obtain ⟨k, hk, hmem⟩ := mem_visit_targets.1 ht
      rw [Node.loc_of_mem_targets hmem]
      exact (h.child hc).meets hk
    rw [visit, loc_node, (targetsIn_perm _ _).nodup_iff, h.get_root, Node.children_map]
    split
    · exact List.nodup_nil
    refine List.nodup_append.2 ⟨Node.nodup_targets _, List.nodup_flatMap.2 ⟨?_, ?_⟩, ?_⟩
    · intro _ hmem
      obtain ⟨c, hc, rfl⟩ := List.mem_map.1 hmem
      exact ih (h.child hc) (Multiset.nodup_of_le (Multiset.map_le_map (cells_le_of_mem hc)) hn.2.1)
    · refine List.pairwise_map.2 ((pairwise_disjoint_locs hn.2.1).imp_of_mem ?_)
      intro c d hc hd hcd t ht ht'
      exact Multiset.disjoint_left.1 hcd (hloc hc ht) (hloc hd ht')
    · intro t ht t' ht' he
      obtain ⟨_, hmem, ht'⟩ := List.mem_flatMap.1 ht'
      obtain ⟨c, hc, rfl⟩ := List.mem_map.1 hmem
      have hl : l ∈ c.cells.map Cell.loc := by
        rw [← Node.loc_of_mem_targets ht, he]
        exact hloc hc ht'
      exact Multiset.disjoint_left.1 hn.2.2 (Multiset.mem_singleton_self l)
        (Multiset.mem_of_le (Multiset.map_le_map (cells_le_of_mem hc)) hl)

theorem Owns.fst_rename {t : Located} (h : s.Owns t.cells) (hab : a ≠ b) :
    (s.rename [t.loc] a b).1 = (s.freeMentions t.loc).countP fun m => m.name == a := by
  have hshows : s.Shows t := h.shows le_rfl
  have hnotes : (s.notes [t.loc] a).Perm (s.visit (s.targetsIn a) [] s.size t.loc) :=
    (notes_perm _).trans (by rw [List.flatMap_singleton]; exact .refl _)
  rw [Store.rename, if_neg hab]
  refine (fst_foldl_rewrite ?_ fun x hx => ?_).trans ?_
  · exact hnotes.nodup_iff.2 (hshows.nodup_visit_targets h.nodup _)
  · exact Node.fits_of_mem_targets (mem_notes.1 hx).2
  · rw [Nat.zero_add]
    exact (hnotes.map _).sum_nat.trans (sum_visit_targets _ _)

end Store

end JsxLoops.Tree
