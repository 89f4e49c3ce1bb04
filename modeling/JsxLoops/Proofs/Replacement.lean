import JsxLoops.Proofs.Occurrences

/-!
What renaming replaces. Renaming and the list of free names look at the same occurrences: all free
occurrences of the old name become occurrences of the new one, their number is returned, and nothing
else in the store changes. If the new name is bound nowhere below, then it takes the
    place of the old
one among the free names.
-/

namespace JsxLoops.Tree

open Located

variable {α β : Type} {a b : String}

/-! ### A node without its names -/

/-- The code without the names that it mentions. -/
def Verbatim.unnamed (v : Verbatim) : Verbatim :=
  { v with pieces := v.pieces.map fun p => match p with
    | .mention _ => .mention ""
    | p => p }

def Binder.unnamed : Binder → Binder
  | .verbatim v => .verbatim v.unnamed
  | x => x

/-- The node without the names that it mentions itself. -/
def Node.unnamed : Node α → Node α
  | .name _ => .name ""
  | .verbatim v => .verbatim v.unnamed
  | .lambda f => .lambda { f with params := f.params.map Binder.unnamed }
  | .declaration keyword ds =>
    .declaration keyword (ds.map fun d => { d with binder := d.binder.unnamed })
  | n => n

def Verbatim.nameAt? (v : Verbatim) (k : Nat) : Option String := v.pieces[k]?.bind Piece.mentioned?

/-- The name that stands at a place of a node, whether it is bound there or not. -/
def Node.nameAt? (n : Node α) (place : List Nat) : Option String :=
  match n, place with
  | .name x, [] => some x
  | .verbatim v, [k] => v.nameAt? k
  | n, [i, k] =>
    match n.contents[i]? with
    | some (.code v) => v.nameAt? k
    | _ => none
  | _, _ => none

/-- The code in a node itself. -/
def Node.codes : Node α → List Verbatim
  | .verbatim v => [v]
  | n => n.binders.filterMap Binder.code?

@[simp] theorem Node.codes_map (f : α → β) (n : Node α) : (n.map f).codes = n.codes := by
  cases n <;> simp [Node.map, Node.codes, Node.binders, Function.comp_def]

/-! ### Renaming in a node -/

theorem Verbatim.unnamed_rename (v : Verbatim) : (v.rename a b).unnamed = v.unnamed := by
  rw [Verbatim.rename]
  split
  · rfl
  · have hpieces (p : Piece) : (match p.rename a b with
        | .mention _ => Piece.mention ""
        | p => p) = match p with
        | .mention _ => Piece.mention ""
        | p => p := by
      cases p <;> rfl
    simp only [Verbatim.unnamed, List.map_map, Function.comp_def, hpieces]

theorem Binder.unnamed_rename (x : Binder) : (x.rename a b).unnamed = x.unnamed := by
  cases x with
  | verbatim v => rw [Binder.rename, Binder.unnamed, Binder.unnamed, v.unnamed_rename]
  | _ => rfl

theorem Node.unnamed_renameHere (n : Node α) : (n.renameHere a b).unnamed = n.unnamed := by
  cases n <;> simp [Node.renameHere, Node.unnamed, Verbatim.unnamed_rename, Binder.unnamed_rename]

theorem Verbatim.nameAt?_eq_some {v : Verbatim} {k : Nat} {x : String} :
    v.nameAt? k = some x ↔ v.pieces[k]? = some (.mention x) := by
  rw [Verbatim.nameAt?]
  cases v.pieces[k]? with
  | none => simp
  | some p => cases p <;> simp [Piece.mentioned?]

theorem Verbatim.nameAt?_rename {v : Verbatim} {k : Nat} {x : String} :
    (v.rename a b).nameAt? k = some x ↔
      (v.MentionsAt a k ∧ x = b) ∨ (¬ v.MentionsAt a k ∧ v.nameAt? k = some x) := by
  simp only [Verbatim.nameAt?_eq_some, Verbatim.MentionsAt]
  by_cases ha : a ∈ v.declares
  · simp [Verbatim.rename, ha]
  · simp only [Verbatim.rename, List.contains_eq_mem, ha, decide_false,
      Bool.false_eq_true, ite_false,
      List.getElem?_map, not_false_eq_true, and_true]
    cases v.pieces[k]? with
    | none => simp
    | some p =>
      cases p with
      | text s => simp [Piece.rename]
      | mention y =>
        by_cases hy : y = a
        · simp [Piece.rename, hy, eq_comm (a := b)]
        · simp [Piece.rename, hy]

theorem Node.nameAt?_pair (n : Node α) (i k : Nat) :
    n.nameAt? [i, k] = match n.contents[i]? with
      | some (.code v) => v.nameAt? k
      | _ => none := by
  cases n <;> rfl

theorem Node.mentionsAt_pair {n : Node α} {x : String} {i k : Nat} :
    n.MentionsAt x [i, k] ↔ ∃ v, n.contents[i]? = some (.code v) ∧ v.MentionsAt x k := by
  constructor
  · intro h
    cases h with
    | binder hi h => exact ⟨_, hi, h⟩
  · rintro ⟨v, hi, h⟩
    exact .binder hi h

theorem Node.mentionsAt_single {n : Node α} {x : String} {k : Nat} :
    n.MentionsAt x [k] ↔ ∃ v, n = .verbatim v ∧ v.MentionsAt x k := by
  constructor
  · intro h
    cases h with
    | verbatim h => exact ⟨_, rfl, h⟩
  · rintro ⟨v, rfl, h⟩
    exact .verbatim h

theorem Node.mentionsAt_nil {n : Node α} {x : String} : n.MentionsAt x [] ↔ n = .name x := by
  constructor
  · intro h
    cases h
    rfl
  · rintro rfl
    exact .name

theorem Node.nameAt?_renameHere {n : Node α} {p : List Nat} {x : String} :
    (n.renameHere a b).nameAt? p = some x ↔
      (n.MentionsAt a p ∧ x = b) ∨ (¬ n.MentionsAt a p ∧ n.nameAt? p = some x) := by
  match p with
  | [] =>
    rw [Node.mentionsAt_nil]
    cases n with
    | name y =>
      by_cases hy : y = a
      · simp [Node.renameHere, Node.nameAt?, hy, eq_comm (a := b)]
      · simp [Node.renameHere, Node.nameAt?, hy]
    | _ => simp [Node.renameHere, Node.nameAt?]
  | [k] =>
    rw [Node.mentionsAt_single]
    cases n with
    | verbatim v => simpa [Node.renameHere, Node.nameAt?] using Verbatim.nameAt?_rename
    | _ => simp [Node.renameHere, Node.nameAt?]
  | [i, k] =>
    rw [Node.mentionsAt_pair, Node.nameAt?_pair, Node.nameAt?_pair, Node.contents_renameHere,
      List.getElem?_map]
    cases n.contents[i]? with
    | none => simp
    | some c =>
      cases c with
      | code v => simpa [Content.rename] using Verbatim.nameAt?_rename
      | child c => simp [Content.rename]
  | i :: k :: j :: rest =>
    have hnone (m : Node α) : m.nameAt? (i :: k :: j :: rest) = none := by
      cases m <;> rfl
    have hno : ¬ n.MentionsAt a (i :: k :: j :: rest) := fun h => by cases h
    simp [hnone, hno]

/-! ### A new name that is bound nowhere -/

def swapName (a b x : String) : String := if x = a then b else x

theorem filter_map_swapName (xs : List String) {ys : List String} (ha : a ∉ ys) (hb : b ∉ ys) :
    (xs.map (swapName a b)).filter (fun x => !ys.contains x) =
      (xs.filter fun x => !ys.contains x).map (swapName a b) := by
  rw [List.filter_map]
  congr 1
  refine List.filter_congr fun x _ => ?_
  by_cases hx : x = a
  · simp [swapName, hx, ha, hb]
  · simp [swapName, hx]

theorem map_swapName_of_not_mem {xs : List String} (h : a ∉ xs) : xs.map (swapName a b) = xs := by
  refine (List.map_congr_left fun x hx => ?_).trans (List.map_id _)
  have hne : x ≠ a := fun he => h (he ▸ hx)
  exact if_neg hne

theorem Verbatim.openMentions_rename {v : Verbatim} (hb : b ∉ v.declares) :
    (v.rename a b).openMentions = v.openMentions.map (swapName a b) := by
  by_cases ha : a ∈ v.declares
  · have hopen : a ∉ v.openMentions := fun hm => by simpa [ha] using (List.mem_filter.1 hm).2
    rw [map_swapName_of_not_mem hopen, Verbatim.rename_of_not_mem hopen]
  · have hmentions (ps : List Piece) : (ps.map (Piece.rename a b)).filterMap Piece.mentioned? =
        (ps.filterMap Piece.mentioned?).map (swapName a b) := by
      rw [List.filterMap_map, List.map_filterMap]
      congr 1
      funext p
      cases p <;> simp [Piece.rename, Piece.mentioned?, swapName]
    simp only [Verbatim.rename, List.contains_eq_mem, ha, decide_false,
      Bool.false_eq_true, ite_false,
      Verbatim.openMentions, Verbatim.mentions, hmentions]
    simpa using filter_map_swapName (v.pieces.filterMap Piece.mentioned?) ha hb

theorem Node.mem_codes_of_contents {n : Node α} {v : Verbatim} (h : Content.code v ∈ n.contents) :
    v ∈ n.codes := by
  have hbinder {x : Binder} (hx : Content.code v ∈ (x.contents : List (Content α))) :
      x.code? = some v := by
    cases x with
    | verbatim code => simpa [Binder.contents, Binder.code?, eq_comm] using hx
    | _ => simp [Binder.contents, Binder.code?] at hx
  cases n with
  | lambda f =>
    rcases List.mem_append.1 h with h | h
    · obtain ⟨x, hx, h⟩ := List.mem_flatMap.1 h
      exact List.mem_filterMap.2 ⟨x, hx, hbinder h⟩
    · simp at h
  | declaration keyword ds =>
    obtain ⟨d, hd, h⟩ := List.mem_flatMap.1 h
    rcases List.mem_append.1 h with h | h
    · exact List.mem_filterMap.2 ⟨d.binder, List.mem_map_of_mem hd, hbinder h⟩
    · simp at h
  | _ => simp [Node.contents] at h

theorem Node.mentioned_renameHere {f g : α → List String} {n : Node α}
    (hcodes : ∀ v ∈ n.codes, b ∉ v.declares)
    (h : ∀ c ∈ n.children, f c = (g c).map (swapName a b)) :
    ((n.map f).renameHere a b).mentioned = (n.map g).mentioned.map (swapName a b) := by
  have hcontents : ((n.map f).renameHere a b).contents.flatMap Content.names =
      ((n.map g).contents.flatMap Content.names).map (swapName a b) := by
    rw [Node.contents_renameHere, List.flatMap_map, List.map_flatMap, Node.flatMap_contents_map,
      Node.flatMap_contents_map]
    refine List.flatMap_congr fun c hc => ?_
    cases c with
    | code v => exact Verbatim.openMentions_rename (hcodes v (Node.mem_codes_of_contents hc))
    | child c => exact h c (Node.child_mem_contents.1 hc)
  cases n with
  | name s => simp [Node.map, Node.renameHere, Node.mentioned, swapName]
  | verbatim v => exact Verbatim.openMentions_rename (hcodes v (List.mem_singleton_self v))
  | _ => exact hcontents

/-- The name is bound by no node of the tree and declared by none of its code. -/
def Located.Unbound (x : String) (t : Located) : Prop :=
  ∀ u, Occurs u t → x ∉ scopeOf u.here ∧ ∀ v ∈ u.here.codes, x ∉ v.declares

theorem openNames_renameFree {t : Located} (h : t.Unbound b) :
    (t.renameFree a b).openNames = t.openNames.map (swapName a b) := by
  induction t using Located.induct with
  | node l n ih =>
    obtain ⟨hscope, hcodes⟩ : b ∉ scopeOf n ∧ ∀ v ∈ n.codes, b ∉ v.declares := h _ .self
    rw [renameFree_node]
    split
    case isTrue hs => rw [map_swapName_of_not_mem (not_mem_openNames_of_bound hs)]
    case isFalse hs =>
      rw [openNames_node, openNames_node, scopeOf_renameHere,
        ← filter_map_swapName _ (by simpa using hs) hscope, ← Node.renameHere_map, Node.map_map,
        Node.mentioned_renameHere hcodes fun c hc => ih c hc fun u hu => h u (.child hc hu)]

theorem eraseDups_map (f : String → String) (xs : List String) :
    (xs.eraseDups.map f).eraseDups = (xs.map f).eraseDups := by
  induction hn : xs.length using Nat.strong_induction_on generalizing xs with
  | _ n ih =>
    subst hn
    cases xs with
    | nil => rfl
    | cons x xs =>
      let others := xs.filter fun y => !f y == f x
      -- what differs from `x` under `f` differs from `x`
      have hothers : (xs.filter fun y => !y == x).filter (fun y => !f y == f x) = others := by
        rw [List.filter_filter]
        refine List.filter_congr fun y _ => ?_
        by_cases hy : y = x <;> simp [hy]
      rw [List.eraseDups_cons, List.map_cons, List.map_cons, List.eraseDups_cons,
        List.eraseDups_cons,
        List.filter_map, List.filter_map]
      congr 1
      calc (((xs.filter fun y => !y == x).eraseDups.filter fun y => !f y == f x).map f).eraseDups
          = (others.eraseDups.map f).eraseDups := by rw [← eraseDups_filter, hothers]
        _ = (others.map f).eraseDups :=
          ih others.length (Nat.lt_succ_of_le (List.length_filter_le _ _)) others rfl

/-! ### Renaming in a store -/

namespace Store

variable {s : Store}

/-- The old name stands free at a place of the node at `l`. -/
def FreeAt (s : Store) (r : Loc) (x : String) (l : Loc) (place : List Nat) : Prop :=
  ∃ o, s.Free r o ∧ o.name = x ∧ o.holder = l ∧ o.place = place

theorem Free.freeAt {r : Loc} {o : Occurrence} (h : s.Free r o) {place : List Nat}
    (hp : (s.get o.holder).MentionsAt o.name place) : s.FreeAt r o.name o.holder place :=
  ⟨{ o with place }, ⟨h.sees, hp⟩, rfl, rfl, rfl⟩

theorem IsTree.shows_rename {r : Loc} (h : s.IsTree r) (a b : String) :
    (s.rename [r] a b).2.Shows ((s.treeAt r).renameFree a b) := by
  have hown : s.Owns (cellsOf [s.treeAt r] + 0) := by simpa using h.owns_treeAt
  have hrenamed := Owns.rename [s.treeAt r] hown a b
  rw [List.map_cons, List.map_nil, loc_treeAt] at hrenamed
  exact hrenamed.shows (by simp)

section

variable {r : Loc} (h : s.IsTree r) (hab : a ≠ b)
include h hab

theorem IsTree.rename_eq : s.rename [r] a b =
    let os := (s.treeAt r).occurrences.filter fun o => o.name == a
    (os.length, s.renameAt a b (os.map Occurrence.holder)) := by
  have hmentions : s.freeMentions r = (s.treeAt r).occurrences.map Occurrence.mention := by
    rw [map_mention_occurrences, ← (h.owns_treeAt.shows le_rfl).freeMentions, loc_treeAt]
  have hcount := h.owns_treeAt.fst_rename hab
  rw [loc_treeAt, hmentions, List.countP_eq_length_filter] at hcount
  refine Prod.ext ?_ ?_
  · rw [hcount, List.filter_map, List.length_map]
    rfl
  · rw [snd_rename, if_neg hab, mentionLocs, List.flatMap_singleton, hmentions, List.filter_map,
      List.map_map]
    rfl

theorem IsTree.encard_free :
    {o | s.Free r o ∧ o.name = a}.encard = (s.rename [r] a b).1 := by
  let os := (s.treeAt r).occurrences.filter fun o => o.name == a
  have hmem (o : Occurrence) : s.Free r o ∧ o.name = a ↔ o ∈ os.toFinset := by
    rw [List.mem_toFinset, List.mem_filter, beq_iff_eq,
      (h.owns_treeAt.shows le_rfl).mem_occurrences, loc_treeAt]
  have hnodup : os.Nodup :=
    ((s.treeAt r).pairwise_occurrences.filter _).imp fun {o o'} hbefore he => by
      rw [he] at hbefore
      exact lt_irrefl _ hbefore
  have hset : {o | s.Free r o ∧ o.name = a} = ↑os.toFinset := Set.ext hmem
  rw [hset, Set.encard_coe_eq_coe_finsetCard, List.toFinset_card_of_nodup hnodup,
    h.rename_eq hab]

theorem IsTree.get_rename (l : Loc) : (s.rename [r] a b).2.size = s.size ∧
    (((∀ place, ¬ s.FreeAt r a l place) ∧ (s.rename [r] a b).2.get l = s.get l) ∨
      ((∀ place, s.FreeAt r a l place ↔ (s.get l).MentionsAt a place) ∧
        (s.rename [r] a b).2.get l = (s.get l).renameHere a b)) := by
  let locs := ((s.treeAt r).occurrences.filter fun o => o.name == a).map Occurrence.holder
  have hshows : s.Shows (s.treeAt r) := h.owns_treeAt.shows le_rfl
  have hmem (l : Loc) : l ∈ locs ↔ ∃ o, s.Free r o ∧ o.name = a ∧ o.holder = l := by
    simp only [locs, List.mem_map, List.mem_filter, beq_iff_eq, hshows.mem_occurrences, loc_treeAt,
      and_assoc]
  have hbound : ∀ l ∈ locs, l.index < s.size := by
    intro l hl
    obtain ⟨o, ho, rfl⟩ := List.mem_map.1 hl
    have hmention : o.mention ∈ (s.treeAt r).freeMentions := by
      rw [← map_mention_occurrences]
      exact List.mem_map_of_mem (List.mem_filter.1 ho).1
    obtain ⟨c, hc, he⟩ := exists_cell_of_mem_freeMentions hmention
    have hlt := hshows.bound c hc
    rwa [he] at hlt
  rw [h.rename_eq hab]
  refine ⟨size_renameAt s a b locs, ?_⟩
  rw [get_renameAt hab hbound]
  split
  case isTrue hl =>
    obtain ⟨o, ho, rfl, rfl⟩ := (hmem l).1 hl
    refine .inr ⟨fun place => ⟨?_, ho.freeAt⟩, rfl⟩
    rintro ⟨o', ho', hname, hholder, rfl⟩
    exact hname ▸ hholder ▸ ho'.mentions
  case isFalse hl =>
    refine .inl ⟨?_, rfl⟩
    rintro place ⟨o, ho, hname, hholder, -⟩
    exact hl ((hmem l).2 ⟨o, ho, hname, hholder⟩)

end

end Store

/-- Renaming replaces the free occurrences of the old name, returns their number,
    and changes nothing
else. If the new name is bound nowhere below, then it takes the place of the old one among the free
names. -/
theorem rename_occurrences {s : Store} {r : Loc} (h : s.IsTree r) {a b : String} (hab : a ≠ b) :
    let renamed := s.rename [r] a b
    a ∉ renamed.2.freeNames r ∧
    {o | s.Free r o ∧ o.name = a}.encard = renamed.1 ∧
    (renamed.2.size = s.size ∧ ∀ l, (renamed.2.get l).unnamed = (s.get l).unnamed ∧
      ∀ place x, (renamed.2.get l).nameAt? place = some x ↔
        (s.FreeAt r a l place ∧ x = b) ∨
          (¬ s.FreeAt r a l place ∧ (s.get l).nameAt? place = some x)) ∧
    ((∀ l, s.Reaches r l → ¬ s.Binds l b ∧ ∀ v ∈ (s.get l).codes, b ∉ v.declares) →
      renamed.2.freeNames r =
        ((s.freeNames r).map fun x => if x = a then b else x).eraseDups) := by
  intro renamed
  have hshows : s.Shows (s.treeAt r) := h.owns_treeAt.shows le_rfl
  have hbefore : s.freeNames r = (s.treeAt r).openNames.eraseDups := by
    rw [openNames, ← Located.freeNames, ← hshows.freeNames, Store.loc_treeAt]
  have hafter : renamed.2.freeNames r = ((s.treeAt r).renameFree a b).openNames.eraseDups := by
    rw [openNames, ← Located.freeNames, ← (h.shows_rename a b).freeNames, loc_renameFree,
      Store.loc_treeAt]
  refine ⟨?_, h.encard_free hab, ⟨(h.get_rename hab r).1, fun l => ?_⟩, fun hfresh => ?_⟩
  · rw [hafter, List.mem_eraseDups]
    exact not_mem_openNames_renameFree hab _
  · rcases (h.get_rename hab l).2 with ⟨hno, hget⟩ | ⟨hall, hget⟩
    · rw [hget]
      exact ⟨rfl, fun place x => by simp [hno place]⟩
    · rw [hget]
      refine ⟨Node.unnamed_renameHere _, fun place x => ?_⟩
      rw [Node.nameAt?_renameHere, hall place]
  · have hunbound : (s.treeAt r).Unbound b := by
      intro u hu
      have hushows := hshows.occurs hu
      have hreach : s.Reaches r u.loc := by
        rw [← Store.loc_treeAt r]
        exact hshows.reaches_iff.2 ⟨u, hu, rfl⟩
      obtain ⟨hbinds, hcodes⟩ := hfresh u.loc hreach
      obtain ⟨l, n⟩ := u
      rw [loc_node, Store.binds_iff, hushows.get_root, hushows.scopeNames] at hbinds
      rw [loc_node, hushows.get_root, Node.codes_map] at hcodes
      exact ⟨hbinds, hcodes⟩
    rw [hafter, hbefore, openNames_renameFree hunbound, eraseDups_map]
    rfl

theorem shadowing_unbound (l : Loc) (h : shadowing.Reaches ⟨13⟩ l) :
    ¬ shadowing.Binds l "more" ∧ ∀ v ∈ (shadowing.get l).codes, "more" ∉ v.declares := by
  obtain ⟨path, hpath⟩ := h
  have hall : ∀ i < shadowing.size, "more" ∉ shadowing.scopeNames (shadowing.get ⟨i⟩) ∧
      ∀ v ∈ (shadowing.get ⟨i⟩).codes, "more" ∉ v.declares := by decide
  rw [Store.binds_iff]
  exact hall l.index (shadowing_isTree.bound path l hpath)

/-- In the function of `shadowing` one of the two variables `other` is free. -/
theorem shadowing_rename :
    shadowing.IsTree ⟨13⟩ ∧ "other" ≠ "more" ∧
      let renamed := shadowing.rename [⟨13⟩] "other" "more"
      renamed.1 = 1 ∧ renamed.2.freeNames ⟨13⟩ = ["page", "use", "more"] ∧
      "other" ∉ renamed.2.freeNames ⟨13⟩ ∧
      {o | shadowing.Free ⟨13⟩ o ∧ o.name = "other"}.encard = renamed.1 ∧
      (renamed.2.size = shadowing.size ∧ ∀ l,
        (renamed.2.get l).unnamed = (shadowing.get l).unnamed ∧
        ∀ place x, (renamed.2.get l).nameAt? place = some x ↔
          (shadowing.FreeAt ⟨13⟩ "other" l place ∧ x = "more") ∨
            (¬ shadowing.FreeAt ⟨13⟩ "other" l place ∧
              (shadowing.get l).nameAt? place = some x)) ∧
      renamed.2.freeNames ⟨13⟩ =
        ((shadowing.freeNames ⟨13⟩).map fun x => if x = "other" then "more" else x).eraseDups := by
  obtain ⟨hold, hcount, hothers, hnames⟩ :=
    rename_occurrences shadowing_isTree (show "other" ≠ "more" by decide)
  exact ⟨shadowing_isTree, by decide, by cbv, by cbv, hold, hcount, hothers,
    hnames shadowing_unbound⟩

end JsxLoops.Tree
