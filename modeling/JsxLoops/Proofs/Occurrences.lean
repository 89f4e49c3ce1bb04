import JsxLoops.Proofs.FreeNames

/-!
Where names are mentioned. An occurrence of a name is told by the way down to the node that holds it
and by its place in that node; both are numbered in source order. An occurrence is
    free if no node on
the way binds its name. The free names of a tree are the names of its
    free occurrences, each once and
in the order of the first of them.
-/

namespace JsxLoops.Tree

open Located

variable {α β : Type}

/-! ### Occurrences in a store -/

/-- The code mentions `x` at one of its pieces and does not declare it itself. -/
def Verbatim.MentionsAt (v : Verbatim) (x : String) (k : Nat) : Prop :=
  v.pieces[k]? = some (.mention x) ∧ x ∉ v.declares

inductive Node.MentionsAt (x : String) : Node α → List Nat → Prop
  | name : MentionsAt x (.name x) []
  | verbatim {v : Verbatim} {k : Nat} (h : v.MentionsAt x k) : MentionsAt x (.verbatim v) [k]
  | binder {n : Node α} {i : Nat} {v : Verbatim} {k : Nat} (hi : n.contents[i]? = some (.code v))
    (h : v.MentionsAt x k) : MentionsAt x n [i, k]

namespace Store

def Declares (s : Store) (statements : List Loc) (x : String) : Prop :=
  ∃ l ∈ statements, ∃ keyword declarators, s.get l = .declaration keyword declarators ∧
    ∃ d ∈ declarators, x ∈ d.binder.names

/-- The node at a location binds `x`: a function by a parameter, its own name or a declaration in
its block, a block by a declaration. -/
def Binds (s : Store) (l : Loc) (x : String) : Prop :=
  match s.get l with
  | .lambda f => (∃ p ∈ f.params, x ∈ p.names) ∨ f.form = .function (some x) ∨
      ∃ statements, f.body = .block statements ∧ s.Declares statements x
  | .block statements => s.Declares statements x
  | _ => False

/-- The path leads from `l` down to `l'`, and no node on it binds `x`, both ends included. -/
inductive Sees (s : Store) (x : String) : Loc → List Nat → Loc → Prop
  | here {l : Loc} (h : ¬ s.Binds l x) : Sees s x l [] l
  | through {l c l' : Loc} {i : Nat} {path : List Nat} (h : ¬ s.Binds l x)
    (hi : (s.get l).contents[i]? = some (.child c)) (hc : Sees s x c path l') :
    Sees s x l (i :: path) l'

end Store

structure Occurrence where
  /-- The way down to the node that mentions the name. -/
  path : List Nat
  holder : Loc
  /-- Where in that node it is mentioned. -/
  place : List Nat
  name : String
deriving DecidableEq

/-- Where in the source the name stands. Positions are ordered as lists are. -/
def Occurrence.position (o : Occurrence) : List Nat := o.path ++ o.place

/-- An occurrence below `l` whose name is bound by no node on the way to it. -/
structure Store.Free (s : Store) (l : Loc) (o : Occurrence) : Prop where
  sees : s.Sees o.name l o.path o.holder
  mentions : (s.get o.holder).MentionsAt o.name o.place

/-! ### Occurrences in a tree -/

/-- The name that a piece of the code mentions from outside. -/
def Verbatim.open? (v : Verbatim) (p : Piece) : Option String :=
  p.mentioned?.filter fun x => !v.declares.contains x

/-- The pieces that mention a name from outside, with their numbers. -/
def Verbatim.places (v : Verbatim) : List (Nat × String) :=
  v.pieces.zipIdx.filterMap fun p => (v.open? p.1).map (p.2, ·)

namespace Occurrence

/-- An occurrence of the child with a number, as seen from its parent. -/
def under (i : Nat) (o : Occurrence) : Occurrence := { o with path := i :: o.path }

def mention (o : Occurrence) : Mention := ⟨o.holder, o.name⟩

@[simp] theorem position_under (i : Nat) (o : Occurrence) :
    (o.under i).position = i :: o.position := rfl

@[simp] theorem mention_under (i : Nat) (o : Occurrence) : (o.under i).mention = o.mention := rfl

@[simp] theorem name_mention (o : Occurrence) : o.mention.name = o.name := rfl

@[simp] theorem loc_mention (o : Occurrence) : o.mention.loc = o.holder := rfl

end Occurrence

def Content.occurrences (l : Loc) (i : Nat) : Content (List Occurrence) → List Occurrence
  | .code v => v.places.map fun p => ⟨[], l, [i, p.1], p.2⟩
  | .child inside => inside.map (.under i)

def Node.occurrences (l : Loc) : Node (List Occurrence) → List Occurrence
  | .name x => [⟨[], l, [], x⟩]
  | .verbatim v => v.places.map fun p => ⟨[], l, [p.1], p.2⟩
  | n => n.contents.zipIdx.flatMap fun c => c.1.occurrences l c.2

namespace Located

def occurrences : Located → List Occurrence := fold fun l n m =>
  (m.occurrences l).filter fun o => !(scopeOf n).contains o.name

theorem occurrences_node (l : Loc) (n : Node Located) :
    (node l n).occurrences =
      ((n.map occurrences).occurrences l).filter fun o => !(scopeOf n).contains o.name :=
  fold_node _ l n

end Located

/-! ### The names of the occurrences -/

theorem Verbatim.open?_eq_some {v : Verbatim} {p : Piece} {x : String} :
    v.open? p = some x ↔ p = .mention x ∧ x ∉ v.declares := by
  cases p <;> simp [Verbatim.open?, Piece.mentioned?, Option.filter_eq_some_iff]

theorem Verbatim.openMentions_eq (v : Verbatim) : v.openMentions = v.pieces.filterMap v.open? := by
  rw [Verbatim.openMentions, Verbatim.mentions, List.filter_filterMap]
  rfl

theorem Verbatim.map_snd_places (v : Verbatim) : v.places.map Prod.snd = v.openMentions := by
  calc v.places.map Prod.snd
      = v.pieces.zipIdx.filterMap fun p => v.open? p.1 := by
        rw [Verbatim.places, List.map_filterMap]
        simp [Function.comp_def]
    _ = (v.pieces.zipIdx.map Prod.fst).filterMap v.open? := by rw [List.filterMap_map]; rfl
    _ = v.openMentions := by rw [List.zipIdx_map_fst, v.openMentions_eq]

theorem Content.map_mention_occurrences (l : Loc) (i : Nat) (c : Content (List Occurrence)) :
    (c.occurrences l i).map Occurrence.mention =
      Content.mentions l (match c with
        | .code v => .code v
        | .child inside => .child (inside.map Occurrence.mention)) := by
  cases c with
  | code v =>
    simp only [Content.occurrences, Content.mentions, ← v.map_snd_places, List.map_map]
    rfl
  | child inside =>
    simp only [Content.occurrences, Content.mentions, List.map_map]
    rfl

theorem flatMap_zipIdx_map {γ : Type} (f : α → Nat → List β) (g : β → γ) (h : α → List γ)
    (hf : ∀ a i, (f a i).map g = h a) (xs : List α) (k : Nat) :
    ((xs.zipIdx k).flatMap fun x => f x.1 x.2).map g = xs.flatMap h := by
  induction xs generalizing k with
  | nil => rfl
  | cons x xs ih => rw [List.zipIdx_cons, List.flatMap_cons, List.map_append, hf, ih,
    List.flatMap_cons]

theorem Node.map_mention_occurrences (f : α → List Occurrence) (l : Loc) (n : Node α) :
    ((n.map f).occurrences l).map Occurrence.mention =
      (n.map fun c => (f c).map Occurrence.mention).mentions l := by
  have hcontents :
      ((n.map f).contents.zipIdx.flatMap fun c => c.1.occurrences l c.2).map Occurrence.mention =
      (n.map fun c => (f c).map Occurrence.mention).contents.flatMap (Content.mentions l) := by
    rw [flatMap_zipIdx_map _ _ _ (fun c i => Content.map_mention_occurrences l i c),
      Node.flatMap_contents_map, Node.flatMap_contents_map]
  cases n with
  | name => rfl
  | verbatim v =>
    simp only [Node.map, Node.occurrences, Node.mentions, ← v.map_snd_places, List.map_map]
    rfl
  | _ => exact hcontents

theorem Located.map_mention_occurrences (t : Located) :
    t.occurrences.map Occurrence.mention = t.freeMentions := by
  induction t using induct with
  | node l n ih =>
    have hmap : n.map (fun c => c.occurrences.map Occurrence.mention) = n.map freeMentions :=
      Node.map_congr ih
    rw [freeMentions, fold_node, ← freeMentions, ← hmap, ← Node.map_mention_occurrences,
      occurrences_node, List.filter_map]
    rfl

theorem Located.map_name_occurrences (t : Located) :
    t.occurrences.map Occurrence.name = t.openNames := by
  rw [openNames, ← t.map_mention_occurrences, List.map_map]
  rfl

/-! ### Source order -/

theorem Verbatim.mem_places {v : Verbatim} {k : Nat} {x : String} :
    (k, x) ∈ v.places ↔ v.MentionsAt x k := by
  simp only [Verbatim.places, List.mem_filterMap, Verbatim.MentionsAt, Option.map_eq_some_iff,
    Verbatim.open?_eq_some, Prod.mk.injEq]
  constructor
  · rintro ⟨⟨p, i⟩, hp, y, ⟨rfl, hy⟩, rfl, rfl⟩
    exact ⟨List.mem_zipIdx_iff_getElem?.1 hp, hy⟩
  · rintro ⟨hp, hx⟩
    exact ⟨(.mention x, k), List.mem_zipIdx_iff_getElem?.2 hp, x, ⟨rfl, hx⟩, rfl, rfl⟩

theorem Verbatim.pairwise_places (v : Verbatim) : v.places.Pairwise fun p q => p.1 < q.1 := by
  have hidx : v.pieces.zipIdx.Pairwise fun p q => p.2 < q.2 := by
    rw [List.pairwise_iff_getElem]
    intro i j hi hj hij
    simpa using hij
  refine List.pairwise_filterMap.2 (hidx.imp fun {p q} hpq y hy z hz => ?_)
  obtain ⟨x, -, rfl⟩ := Option.map_eq_some_iff.1 hy
  obtain ⟨x', -, rfl⟩ := Option.map_eq_some_iff.1 hz
  exact hpq

def Occurrence.Before (o o' : Occurrence) : Prop := o.position < o'.position

theorem Content.pairwise_occurrences (l : Loc) (i : Nat) {c : Content (List Occurrence)}
    (h : ∀ inside, c = .child inside → inside.Pairwise Occurrence.Before) :
    (c.occurrences l i).Pairwise Occurrence.Before := by
  cases c with
  | code v =>
    refine List.pairwise_map.2 (v.pairwise_places.imp fun {p q} hpq => ?_)
    show [i, p.1] < [i, q.1]
    simp [List.cons_lt_cons_iff, hpq]
  | child inside =>
    refine List.pairwise_map.2 ((h inside rfl).imp fun {o o'} ho => ?_)
    show i :: o.position < i :: o'.position
    exact List.cons_lt_cons_iff.2 (.inr ⟨rfl, ho⟩)

theorem Content.exists_position_of_mem {l : Loc} {i : Nat} {c : Content (List Occurrence)}
    {o : Occurrence} (h : o ∈ c.occurrences l i) : ∃ rest, o.position = i :: rest := by
  cases c with
  | code v =>
    obtain ⟨p, -, rfl⟩ := List.mem_map.1 h
    exact ⟨[p.1], rfl⟩
  | child inside =>
    obtain ⟨o, -, rfl⟩ := List.mem_map.1 h
    exact ⟨o.position, rfl⟩

theorem pairwise_occurrences_zipIdx (l : Loc) {cs : List (Content (List Occurrence))}
    (h : ∀ inside, .child inside ∈ cs → inside.Pairwise Occurrence.Before) (k : Nat) :
    ((cs.zipIdx k).flatMap fun c => c.1.occurrences l c.2).Pairwise Occurrence.Before := by
  induction cs generalizing k with
  | nil => simp
  | cons c cs ih =>
    rw [List.zipIdx_cons, List.flatMap_cons, List.pairwise_append]
    refine ⟨c.pairwise_occurrences l k fun inside hc => h inside (hc ▸ List.mem_cons_self),
      ih (fun inside hm => h inside (List.mem_cons_of_mem c hm)) (k + 1), ?_⟩
    intro o ho o' ho'
    obtain ⟨⟨d, j⟩, hd, ho'⟩ := List.mem_flatMap.1 ho'
    obtain ⟨rest, hrest⟩ := Content.exists_position_of_mem ho
    obtain ⟨rest', hrest'⟩ := Content.exists_position_of_mem ho'
    have hj : k < j := by
      have := (List.mem_zipIdx hd).1
      omega
    rw [Occurrence.Before, hrest, hrest']
    exact List.cons_lt_cons_iff.2 (.inl hj)

theorem Node.pairwise_occurrences {f : α → List Occurrence} (l : Loc) {n : Node α}
    (h : ∀ c ∈ n.children, (f c).Pairwise Occurrence.Before) :
    ((n.map f).occurrences l).Pairwise Occurrence.Before := by
  have hcontents :
      ((n.map f).contents.zipIdx.flatMap fun c => c.1.occurrences l c.2).Pairwise
        Occurrence.Before := by
    refine pairwise_occurrences_zipIdx l (fun inside hm => ?_) 0
    have hmem := Node.child_mem_contents.1 hm
    rw [Node.children_map] at hmem
    obtain ⟨c, hc, rfl⟩ := List.mem_map.1 hmem
    exact h c hc
  cases n with
  | name x => exact List.pairwise_singleton _ _
  | verbatim v =>
    refine List.pairwise_map.2 (v.pairwise_places.imp fun {p q} hpq => ?_)
    show [p.1] < [q.1]
    simp [List.cons_lt_cons_iff, hpq]
  | _ => exact hcontents

theorem Located.pairwise_occurrences (t : Located) : t.occurrences.Pairwise Occurrence.Before := by
  induction t using induct with
  | node l n ih =>
    rw [occurrences_node]
    exact (Node.pairwise_occurrences l ih).filter _

/-! ### Reading occurrences off a store -/

def Content.map (f : α → β) : Content α → Content β
  | .code v => .code v
  | .child a => .child (f a)

theorem Node.contents_map (f : α → β) (n : Node α) :
    (n.map f).contents = n.contents.map (Content.map f) := by
  have h := Node.flatMap_contents_map f (fun c : Content β => [c]) n
  rw [List.flatMap_singleton'] at h
  rw [h, List.map_eq_flatMap]
  refine List.flatMap_congr fun c _ => ?_
  cases c <;> rfl

theorem Node.contents_map_eq_code {f : α → β} {n : Node α} {i : Nat} {v : Verbatim} :
    (n.map f).contents[i]? = some (.code v) ↔ n.contents[i]? = some (.code v) := by
  rw [Node.contents_map, List.getElem?_map]
  cases n.contents[i]? with
  | none => simp
  | some c => cases c <;> simp [Content.map]

theorem Node.contents_map_eq_child {f : α → β} {n : Node α} {i : Nat} {b : β} :
    (n.map f).contents[i]? = some (.child b) ↔ ∃ a, n.contents[i]? = some (.child a) ∧ f a = b := by
  rw [Node.contents_map, List.getElem?_map]
  cases n.contents[i]? with
  | none => simp
  | some c => cases c <;> simp [Content.map]

theorem Node.mentionsAt_map {f : α → β} {n : Node α} {x : String} {p : List Nat} :
    (n.map f).MentionsAt x p ↔ n.MentionsAt x p := by
  constructor
  · intro h
    generalize hm : n.map f = m at h
    cases h with
    | name => cases n <;> cases hm; exact .name
    | verbatim h => cases n <;> cases hm; exact .verbatim h
    | binder hi h => exact .binder (Node.contents_map_eq_code.1 (hm ▸ hi)) h
  · intro h
    cases h with
    | name => exact .name
    | verbatim h => exact .verbatim h
    | binder hi h => exact .binder (Node.contents_map_eq_code.2 hi) h

theorem Node.mem_occurrences {f : α → List Occurrence} {l : Loc} {n : Node α} {o : Occurrence} :
    o ∈ (n.map f).occurrences l ↔
      (o.path = [] ∧ o.holder = l ∧ n.MentionsAt o.name o.place) ∨
      ∃ i c o', n.contents[i]? = some (.child c) ∧ o' ∈ f c ∧ o = o'.under i := by
  have hcontents : o ∈ (n.map f).contents.zipIdx.flatMap (fun c => c.1.occurrences l c.2) ↔
      (o.path = [] ∧ o.holder = l ∧ ∃ i v k, n.contents[i]? = some (.code v) ∧
        v.MentionsAt o.name k ∧ o.place = [i, k]) ∨
      ∃ i c o', n.contents[i]? = some (.child c) ∧ o' ∈ f c ∧ o = o'.under i := by
    rw [List.mem_flatMap]
    constructor
    · rintro ⟨⟨c, i⟩, hi, ho⟩
      have hi := List.mem_zipIdx_iff_getElem?.1 hi
      cases c with
      | code v =>
        obtain ⟨⟨k, x⟩, hk, rfl⟩ := List.mem_map.1 ho
        exact .inl ⟨rfl, rfl, i, v, k, Node.contents_map_eq_code.1 hi,
          Verbatim.mem_places.1 hk, rfl⟩
      | child inside =>
        obtain ⟨c, hc, rfl⟩ := Node.contents_map_eq_child.1 hi
        obtain ⟨o', ho', rfl⟩ := List.mem_map.1 ho
        exact .inr ⟨i, c, o', hc, ho', rfl⟩
    · rintro (⟨hpath, hholder, i, v, k, hi, hk, hplace⟩ | ⟨i, c, o', hi, ho', rfl⟩)
      · refine ⟨(.code v, i), List.mem_zipIdx_iff_getElem?.2 (Node.contents_map_eq_code.2 hi),
          List.mem_map.2 ⟨(k, o.name), Verbatim.mem_places.2 hk, ?_⟩⟩
        obtain ⟨path, holder, place, x⟩ := o
        simp only [Occurrence.mk.injEq]
        exact ⟨hpath.symm, hholder.symm, hplace.symm, trivial⟩
      · exact ⟨(.child (f c), i),
          List.mem_zipIdx_iff_getElem?.2 (Node.contents_map_eq_child.2 ⟨c, hi, rfl⟩),
          List.mem_map_of_mem ho'⟩
  -- what a node with contents mentions itself stands in the code of its binders
  have hbinder (hname : ∀ x, n ≠ .name x) (hverbatim : ∀ v, n ≠ .verbatim v) :
      n.MentionsAt o.name o.place ↔
        ∃ i v k, n.contents[i]? = some (.code v) ∧ v.MentionsAt o.name k ∧ o.place = [i, k] := by
    constructor
    · intro h
      generalize hp : o.place = p at h
      cases h with
      | name => exact absurd rfl (hname _)
      | verbatim => exact absurd rfl (hverbatim _)
      | binder hi h => exact ⟨_, _, _, hi, h, rfl⟩
    · rintro ⟨i, v, k, hi, h, hp⟩
      exact hp ▸ .binder hi h
  obtain ⟨path, holder, place, x⟩ := o
  cases n with
  | name y =>
    simp only [Node.map, Node.occurrences, List.mem_singleton, Occurrence.mk.injEq]
    constructor
    · rintro ⟨rfl, rfl, rfl, rfl⟩
      exact .inl ⟨rfl, rfl, .name⟩
    · rintro (⟨rfl, rfl, h⟩ | ⟨i, c, o', hi, -⟩)
      · cases h with
        | name => exact ⟨rfl, rfl, rfl, rfl⟩
        | binder hi => cases hi
      · cases hi
  | verbatim v =>
    simp only [Node.map, Node.occurrences, List.mem_map, Occurrence.mk.injEq]
    constructor
    · rintro ⟨⟨k, y⟩, hk, rfl, rfl, rfl, rfl⟩
      exact .inl ⟨rfl, rfl, .verbatim (Verbatim.mem_places.1 hk)⟩
    · rintro (⟨rfl, rfl, h⟩ | ⟨i, c, o', hi, -⟩)
      · cases h with
        | verbatim h => exact ⟨_, Verbatim.mem_places.2 h, rfl, rfl, rfl, rfl⟩
        | binder hi => cases hi
      · cases hi
  | _ =>
    rw [hbinder (by simp) (by simp)]
    exact hcontents

namespace Store

variable {s : Store}

theorem declares_iff {statements : List Loc} {x : String} :
    s.Declares statements x ↔ x ∈ s.declaredNames statements := by
  simp only [Declares, declaredNames, List.mem_flatMap]
  refine exists_congr fun l => and_congr_right fun _ => ?_
  cases s.get l <;> simp

theorem binds_iff {l : Loc} {x : String} : s.Binds l x ↔ x ∈ s.scopeNames (s.get l) := by
  rw [Binds]
  cases s.get l with
  | lambda f =>
    obtain ⟨form, isAsync, generator, params, value | statements⟩ := f <;>
      cases form with
      | arrow => simp [scopeNames, Lambda.boundNames, declares_iff]
      | function name => cases name <;> simp [scopeNames, Lambda.boundNames, declares_iff, eq_comm]
  | block statements => exact declares_iff
  | _ => simp [scopeNames]

theorem free_iff {l : Loc} {o : Occurrence} :
    s.Free l o ↔ ¬ s.Binds l o.name ∧
      ((o.path = [] ∧ o.holder = l ∧ (s.get l).MentionsAt o.name o.place) ∨
        ∃ i c o', (s.get l).contents[i]? = some (.child c) ∧ s.Free c o' ∧ o = o'.under i) := by
  obtain ⟨path, holder, place, x⟩ := o
  constructor
  · rintro ⟨hsees, hmentions⟩
    cases hsees with
    | here hb => exact ⟨hb, .inl ⟨rfl, rfl, hmentions⟩⟩
    | @through _ c _ i path hb hi hc =>
      exact ⟨hb, .inr ⟨i, c, ⟨path, holder, place, x⟩, hi, ⟨hc, hmentions⟩, rfl⟩⟩
  · rintro ⟨hb, ⟨hpath, hholder, hmentions⟩ | ⟨i, c, o', hi, hfree, ho⟩⟩
    · obtain rfl : path = [] := hpath
      obtain rfl : holder = l := hholder
      exact ⟨.here hb, hmentions⟩
    · rw [ho] at hb ⊢
      exact ⟨.through hb hi hfree.sees, hfree.mentions⟩

theorem Shows.mem_occurrences {t : Located} (h : s.Shows t) {o : Occurrence} :
    o ∈ t.occurrences ↔ s.Free t.loc o := by
  induction t using induct generalizing o with
  | node l n ih =>
    have hscope : s.Binds l o.name ↔ o.name ∈ scopeOf n := by
      rw [binds_iff, h.get_root, h.scopeNames]
    rw [occurrences_node, List.mem_filter, Node.mem_occurrences, loc_node, free_iff, hscope,
      h.get_root, Node.mentionsAt_map, and_comm]
    refine and_congr (by simp) (or_congr_right ?_)
    constructor
    · rintro ⟨i, c, o', hi, ho', rfl⟩
      have hc := Node.child_mem_contents.1 (List.mem_of_getElem? hi)
      exact ⟨i, c.loc, o', Node.contents_map_eq_child.2 ⟨c, hi, rfl⟩,
        (ih c hc (h.child hc)).1 ho', rfl⟩
    · rintro ⟨i, k, o', hk, hfree, rfl⟩
      obtain ⟨c, hi, rfl⟩ := Node.contents_map_eq_child.1 hk
      have hc := Node.child_mem_contents.1 (List.mem_of_getElem? hi)
      exact ⟨i, c, o', hi, (ih c hc (h.child hc)).2 hfree, rfl⟩

end Store

/-! ### The names in order -/

theorem pairwise_eraseDups {ι : Type} {R : ι → ι → Prop} (name : ι → String) {os : List ι}
    (h : os.Pairwise R) : (os.map name).eraseDups.Nodup ∧
      (os.map name).eraseDups.Pairwise fun x y =>
        ∃ o ∈ os, name o = x ∧ ∀ o' ∈ os, name o' = y → R o o' := by
  induction hn : os.length using Nat.strong_induction_on generalizing os with
  | _ n ih =>
    subst hn
    cases os with
    | nil => simp
    | cons o os =>
      obtain ⟨hfirst, hrest⟩ := List.pairwise_cons.1 h
      -- the others are those that do not have the name of the first
      let others := os.filter fun o' => !name o' == name o
      have hothers : (os.map name).filter (fun x => !x == name o) = others.map name :=
        List.filter_map
      obtain ⟨hnodup, horder⟩ := ih others.length
        (Nat.lt_succ_of_le (List.length_filter_le _ _)) (hrest.filter _) rfl
      rw [List.map_cons, List.eraseDups_cons, hothers, List.nodup_cons, List.pairwise_cons]
      have hne {x : String} (hx : x ∈ (others.map name).eraseDups) : x ≠ name o := by
        obtain ⟨o', ho', rfl⟩ := List.mem_map.1 (List.mem_eraseDups.1 hx)
        simpa using (List.mem_filter.1 ho').2
      refine ⟨⟨fun hmem => hne hmem rfl, hnodup⟩, fun y hy => ?_, ?_⟩
      · refine ⟨o, List.mem_cons_self, rfl, fun o' ho' hy' => ?_⟩
        rcases List.mem_cons.1 ho' with rfl | ho'
        · exact absurd hy'.symm (hne hy)
        · exact hfirst o' ho'
      · refine horder.imp_of_mem fun {x y} hx hy => ?_
        rintro ⟨p, hp, rfl, hbefore⟩
        refine ⟨p, List.mem_cons_of_mem o (List.mem_filter.1 hp).1, rfl, fun o' ho' hy' => ?_⟩
        rcases List.mem_cons.1 ho' with rfl | ho'
        · exact absurd hy'.symm (hne hy)
        · exact hbefore o' (List.mem_filter.2 ⟨ho', by simpa [hy'] using hne hy⟩) hy'

/-- The free names are the names of the free occurrences. Each is listed once, and one comes before
another if its first free occurrence comes before all of the other's. -/
theorem freeNames_occurrences {s : Store} {l : Loc} (h : s.IsTree l) :
    (∀ x, x ∈ s.freeNames l ↔ ∃ o, s.Free l o ∧ o.name = x) ∧ (s.freeNames l).Nodup ∧
      (s.freeNames l).Pairwise fun x y => ∃ o, s.Free l o ∧ o.name = x ∧
        ∀ o', s.Free l o' → o'.name = y → o.position < o'.position := by
  have hshows : s.Shows (s.treeAt l) := h.owns_treeAt.shows le_rfl
  have hmem {o : Occurrence} : o ∈ (s.treeAt l).occurrences ↔ s.Free l o := by
    rw [hshows.mem_occurrences, Store.loc_treeAt]
  have hnames : s.freeNames l = ((s.treeAt l).occurrences.map Occurrence.name).eraseDups := by
    rw [map_name_occurrences, openNames, ← Located.freeNames, ← hshows.freeNames, Store.loc_treeAt]
  obtain ⟨hnodup, horder⟩ := pairwise_eraseDups Occurrence.name (s.treeAt l).pairwise_occurrences
  rw [hnames]
  refine ⟨fun x => ?_, hnodup, horder.imp fun {x y} => ?_⟩
  · simp only [List.mem_eraseDups, List.mem_map, hmem]
  · simp only [hmem]
    rintro ⟨o, ho, hx, hfirst⟩
    exact ⟨o, ho, hx, hfirst⟩

/-- A function whose block uses a variable before it declares it, and which has code for a parameter
and a block of its own inside: `(row, { deep = page }) => { use(row, late, page);
const late = other; { const other = 1; other; } }`. -/
def shadowing : Store where
  nodes := #[.name "use", .name "row", .name "late", .name "page", .call ⟨0⟩ [⟨1⟩, ⟨2⟩, ⟨3⟩],
    .performing ⟨4⟩, .name "other", .declaration "const" [⟨.plain "late", some ⟨6⟩⟩], .literal "1",
    .declaration "const" [⟨.plain "other", some ⟨8⟩⟩], .name "other", .performing ⟨10⟩,
    .block [⟨9⟩, ⟨11⟩],
    .lambda ⟨.arrow, false, false, [.plain "row", .verbatim ⟨[.text "\x7b deep = ", .mention "page",
      .text " \x7d"], ["deep"], false, false⟩], .block [⟨5⟩, ⟨7⟩, ⟨12⟩]⟩]

theorem shadowing_isTree : shadowing.IsTree ⟨13⟩ :=
  Store.isTree_of_filled (by decide) (by decide) (by decide)

theorem shadowing_freeNames : shadowing.freeNames ⟨13⟩ = ["page", "use", "other"] := by
  cbv

theorem shadowing_occurrences :
    shadowing.IsTree ⟨13⟩ ∧ shadowing.freeNames ⟨13⟩ = ["page", "use", "other"] ∧
      (∀ x, x ∈ shadowing.freeNames ⟨13⟩ ↔ ∃ o, shadowing.Free ⟨13⟩ o ∧ o.name = x) ∧
      (shadowing.freeNames ⟨13⟩).Nodup ∧
      (shadowing.freeNames ⟨13⟩).Pairwise fun x y => ∃ o, shadowing.Free ⟨13⟩ o ∧ o.name = x ∧
        ∀ o', shadowing.Free ⟨13⟩ o' → o'.name = y → o.position < o'.position :=
  ⟨shadowing_isTree, shadowing_freeNames, freeNames_occurrences shadowing_isTree⟩

end JsxLoops.Tree
