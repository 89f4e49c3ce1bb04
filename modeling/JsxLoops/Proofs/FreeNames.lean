import JsxLoops.Proofs.Shape
import JsxLoops.Proofs.Wrapping
import Mathlib

/-!
Free names and the parameters of a callback. Renaming changes no free name but the two it is about.
A callback that gets the parameters of its loop loses the free names that these parameters bind, and
no others: its free names stay as they were exactly if none of them was the name of the item or the
new name of the index.
-/

namespace JsxLoops.Tree

open Located

variable {α β : Type}

/-! ### The names in a node -/

def Content.names : Content (List String) → List String
  | .code v => v.openMentions
  | .child inside => inside

def Node.mentioned : Node (List String) → List String
  | .name s => [s]
  | .verbatim code => code.openMentions
  | n => n.contents.flatMap Content.names

theorem Node.map_name_mentions (f : α → List Mention) (l : Loc) (n : Node α) :
    ((n.map f).mentions l).map Mention.name =
      (n.map fun c => (f c).map Mention.name).mentioned := by
  have hcontents : ((n.map f).contents.flatMap (Content.mentions l)).map Mention.name =
      (n.map fun c => (f c).map Mention.name).contents.flatMap Content.names := by
    rw [Node.flatMap_contents_map, Node.flatMap_contents_map, List.map_flatMap]
    refine List.flatMap_congr fun c _ => ?_
    cases c <;> simp [Content.mentions, Content.names, Function.comp_def]
  cases n with
  | verbatim => simp [Node.map, Node.mentions, Node.mentioned, Function.comp_def]
  | name => rfl
  | _ => exact hcontents

namespace Located

def openNames (t : Located) : List String := t.freeMentions.map Mention.name

theorem openNames_node (l : Loc) (n : Node Located) :
    (node l n).openNames =
      (n.map openNames).mentioned.filter fun x => !(scopeOf n).contains x := by
  have hnames : (n.map openNames).mentioned = ((n.map freeMentions).mentions l).map Mention.name :=
    (Node.map_name_mentions freeMentions l n).symm
  rw [hnames, List.filter_map, openNames, freeMentions, fold_node]
  rfl

theorem not_mem_openNames_of_bound {l : Loc} {n : Node Located} {x : String}
    (h : (scopeOf n).contains x = true) : x ∉ (node l n).openNames := by
  rw [openNames_node]
  intro hx
  have hfree := (List.mem_filter.1 hx).2
  rw [h] at hfree
  cases hfree

end Located

/-! ### Renaming -/

section

variable (a b : String)

/-- Neither of the two names that renaming is about. -/
def untouched (x : String) : Bool := x != a && x != b

theorem filter_mentioned_rename (ps : List Piece) :
    ((ps.map (Piece.rename a b)).filterMap Piece.mentioned?).filter (untouched a b) =
      (ps.filterMap Piece.mentioned?).filter (untouched a b) := by
  induction ps with
  | nil => rfl
  | cons p ps ih =>
    cases p with
    | text s => exact ih
    | mention s =>
      simp only [List.map_cons, Piece.rename, Piece.mentioned?, List.filterMap_cons,
        List.filter_cons, ih]
      by_cases hs : s = a
      · simp [hs, untouched]
      · simp [hs]

theorem Verbatim.filter_openMentions_rename (v : Verbatim) :
    (v.rename a b).openMentions.filter (untouched a b) =
      v.openMentions.filter (untouched a b) := by
  rw [Verbatim.rename]
  split
  · rfl
  · simp only [Verbatim.openMentions, Verbatim.mentions]
    rw [List.filter_comm, filter_mentioned_rename, List.filter_comm]

def Content.rename : Content α → Content α
  | .code v => .code (v.rename a b)
  | .child c => .child c

theorem Binder.contents_rename (x : Binder) :
    ((x.rename a b).contents : List (Content α)) = x.contents.map (Content.rename a b) := by
  cases x <;> rfl

theorem Node.contents_renameHere (n : Node α) :
    (n.renameHere a b).contents = n.contents.map (Content.rename a b) := by
  have hchildren (cs : List α) :
      cs.map Content.child = (cs.map Content.child).map (Content.rename a b) := by
    simp [Content.rename]
  cases n with
  | lambda f =>
    simp only [Node.renameHere, Node.contents, List.map_append, ← hchildren, List.map_flatMap,
      List.flatMap_map, Binder.contents_rename]
  | declaration keyword ds =>
    simp only [Node.renameHere, Node.contents, List.map_flatMap, List.flatMap_map, List.map_append,
      ← hchildren, Binder.contents_rename]
  | _ => exact hchildren _

theorem Node.child_mem_contents {n : Node α} {c : α} :
    Content.child c ∈ n.contents ↔ c ∈ n.children := by
  have hbinder (x : Binder) : Content.child c ∉ (x.contents : List (Content α)) := by
    cases x <;> simp [Binder.contents, Binder.code?]
  cases n with
  | lambda f => simp [Node.contents, Node.children, hbinder]
  | declaration keyword ds => simp [Node.contents, Node.children, hbinder]
  | _ => simp [Node.contents, Node.children]

theorem Node.filter_mentioned_renameHere {f g : α → List String} (n : Node α)
    (h : ∀ c ∈ n.children, (f c).filter (untouched a b) = (g c).filter (untouched a b)) :
    ((n.map f).renameHere a b).mentioned.filter (untouched a b) =
      (n.map g).mentioned.filter (untouched a b) := by
  have hcontents : (((n.map f).renameHere a b).contents.flatMap Content.names).filter
      (untouched a b) = ((n.map g).contents.flatMap Content.names).filter (untouched a b) := by
    rw [Node.contents_renameHere, List.flatMap_map, List.filter_flatMap, List.filter_flatMap,
      Node.flatMap_contents_map, Node.flatMap_contents_map]
    refine List.flatMap_congr fun c hc => ?_
    cases c with
    | code v => exact v.filter_openMentions_rename a b
    | child c => exact h c (Node.child_mem_contents.1 hc)
  cases n with
  | name s =>
    by_cases hs : s = a
    · simp [Node.map, Node.renameHere, Node.mentioned, hs, untouched]
    · simp [Node.map, Node.renameHere, Node.mentioned, hs]
  | verbatim code => exact code.filter_openMentions_rename a b
  | _ => exact hcontents

theorem declaredBy_map_renameFree (ts : List Located) :
    declaredBy (ts.map (renameFree a b)) = declaredBy ts := by
  simp only [declaredBy, List.flatMap_map, declared_renameFree]

theorem scopeOf_renameHere (n : Node Located) :
    scopeOf ((n.map (renameFree a b)).renameHere a b) = scopeOf n := by
  cases n with
  | lambda f =>
    obtain ⟨form, isAsync, generator, params, value | statements⟩ := f <;>
      simp [Node.map, Node.renameHere, scopeOf, Lambda.boundNames, List.flatMap_map, Body.map,
        Binder.names_rename, declaredBy_map_renameFree]
  | block statements => exact declaredBy_map_renameFree a b statements
  | _ => rfl

theorem filter_openNames_renameFree (t : Located) :
    (t.renameFree a b).openNames.filter (untouched a b) =
      t.openNames.filter (untouched a b) := by
  induction t using Located.induct with
  | node l n ih =>
    rw [renameFree_node]
    split
    · rfl
    · rw [openNames_node, openNames_node, List.filter_comm, List.filter_comm (untouched a b),
        scopeOf_renameHere]
      congr 1
      rw [← Node.renameHere_map, Node.map_map]
      exact n.filter_mentioned_renameHere a b ih

variable {a b}

theorem Verbatim.not_mem_openMentions_rename (h : a ≠ b) (v : Verbatim) :
    a ∉ (v.rename a b).openMentions := by
  intro ha
  rw [Verbatim.rename] at ha
  split at ha
  case isTrue hd =>
    have hopen := (List.mem_filter.1 ha).2
    rw [hd] at hopen
    cases hopen
  case isFalse =>
    obtain ⟨q, hq, he⟩ := List.mem_filterMap.1 (List.mem_filter.1 ha).1
    obtain ⟨p, -, rfl⟩ := List.mem_map.1 hq
    cases p with
    | text => cases he
    | mention s =>
      by_cases hs : s = a
      · simp [Piece.rename, Piece.mentioned?, hs, h.symm] at he
      · simp [Piece.rename, Piece.mentioned?, hs] at he

theorem Binder.not_mem_code_rename (h : a ≠ b) (x : Binder) :
    a ∉ (x.rename a b).code?.toList.flatMap Verbatim.openMentions := by
  cases x with
  | verbatim code => simpa [Binder.rename, Binder.code?] using code.not_mem_openMentions_rename h
  | _ => simp [Binder.rename, Binder.code?]

theorem Node.not_mem_said_renameHere (h : a ≠ b) (n : Node α) : a ∉ (n.renameHere a b).said := by
  have hbinders (xs : List Binder) : a ∉ (xs.map (Binder.rename a b)).flatMap
      fun x => x.code?.toList.flatMap Verbatim.openMentions := by
    intro ha
    obtain ⟨y, hy, ha⟩ := List.mem_flatMap.1 ha
    obtain ⟨x, -, rfl⟩ := List.mem_map.1 hy
    exact x.not_mem_code_rename h ha
  cases n with
  | name s =>
    by_cases hs : s = a
    · simp [Node.renameHere, Node.said, hs, h]
    · simp [Node.renameHere, Node.said, hs, Ne.symm hs]
  | verbatim code => exact code.not_mem_openMentions_rename h
  | lambda f => exact hbinders f.params
  | declaration keyword ds =>
    simpa [Node.renameHere, Node.said, Node.binders] using hbinders (ds.map Declarator.binder)
  | _ => simp [Node.renameHere, Node.said, Node.binders]

theorem not_mem_openNames_renameFree (h : a ≠ b) (t : Located) :
    a ∉ (t.renameFree a b).openNames := by
  induction t using Located.induct with
  | node l n ih =>
    rw [renameFree_node]
    split
    case isTrue hs => exact not_mem_openNames_of_bound hs
    case isFalse =>
      intro ha
      obtain ⟨x, hx, rfl⟩ := List.mem_map.1 ha
      rcases (mem_freeMentions.1 hx).2 with ⟨-, hsaid⟩ | ⟨c, hc, hx⟩
      · exact Node.not_mem_said_renameHere h _ hsaid
      · rw [Node.children_renameHere, Node.children_map] at hc
        obtain ⟨d, hd, rfl⟩ := List.mem_map.1 hc
        exact ih d hd (List.mem_map_of_mem hx)

end

/-! ### Functions -/

theorem openNames_lambda {l : Loc} {f : Lambda Located} (hp : ∀ x ∈ f.params, x.code? = none) :
    (node l (.lambda f)).openNames = (f.body.children.flatMap openNames).filter
      fun x => !(scopeOf (.lambda f)).contains x := by
  have hparams : f.params.flatMap (Binder.contents (α := List String)) = [] :=
    List.flatMap_eq_nil_iff.2 fun x hx => by simp [Binder.contents, hp x hx]
  rw [openNames_node]
  simp [Node.map, Node.mentioned, Node.contents, hparams, List.flatMap_map, Content.names]

theorem eraseDups_filter (p : String → Bool) (xs : List String) :
    (xs.filter p).eraseDups = xs.eraseDups.filter p := by
  induction hn : xs.length using Nat.strong_induction_on generalizing xs with
  | _ n ih =>
    subst hn
    cases xs with
    | nil => rfl
    | cons x xs =>
      have hrest : ((xs.filter fun y => !y == x).filter p).eraseDups =
          (xs.filter fun y => !y == x).eraseDups.filter p :=
        ih _ (Nat.lt_succ_of_le (List.length_filter_le _ _)) _ rfl
      rw [List.eraseDups_cons]
      by_cases hx : p x = true
      · rw [List.filter_cons_of_pos hx, List.filter_cons_of_pos hx, List.eraseDups_cons,
          List.filter_comm, hrest]
      · -- the repetitions of a dropped element are dropped as well
        have hsame : xs.filter p = (xs.filter fun y => !y == x).filter p := by
          rw [List.filter_filter]
          refine List.filter_congr fun y _ => ?_
          by_cases hy : y = x
          · simp [hy, hx]
          · simp [hy]
        rw [List.filter_cons_of_neg hx, List.filter_cons_of_neg hx, hsame, hrest]

end JsxLoops.Tree

namespace JsxLoops.Loop

open JsxLoops.Tree Located

/-! ### The callback of a loop -/

namespace Mapping

variable {m : Mapping} {tokens : Tokens}

theorem Valid.params_names (h : m.Valid) :
    m.params.length ≤ 2 ∧ ∀ x ∈ m.params, ∃ name, x.name? = some name := by
  have list (ps : List Binder) (ns : List String) (h : ps.mapM Binder.name? = some ns) :
      ∀ x ∈ ps, ∃ name, x.name? = some name := by
    induction ps generalizing ns with
    | nil => simp
    | cons p ps ih =>
      rw [List.mapM_cons] at h
      obtain ⟨n, hn, h⟩ := Option.bind_eq_some_iff.1 h
      obtain ⟨ns', hns, -⟩ := Option.bind_eq_some_iff.1 h
      exact List.forall_mem_cons.2 ⟨⟨n, hn⟩, ih ns' hns⟩
  have hp := h.params
  rw [paramNames?] at hp
  split at hp
  case isTrue hlen => exact ⟨hlen, list _ _ hp⟩
  case isFalse => cases hp

theorem Valid.code?_eq_none (h : m.Valid) : ∀ x ∈ m.params, x.code? = none := by
  intro x hx
  obtain ⟨name, hname⟩ := h.params_names.2 x hx
  cases x with
  | verbatim => cases hname
  | _ => rfl

theorem Valid.flatMap_names (h : m.Valid) : m.params.flatMap Binder.names = m.names := by
  rw [names, List.filterMap_eq_flatMap_toList]
  refine List.flatMap_congr fun x hx => ?_
  obtain ⟨name, hname⟩ := h.params_names.2 x hx
  cases x with
  | verbatim => cases hname
  | _ => rfl

/-- The names that the callback binds besides its parameters. -/
def inner (m : Mapping) : List String :=
  (match m.form with
    | .function (some name) => [name]
    | _ => []) ++
  match m.body with
    | .block statements => declaredBy statements
    | .value _ => []

/-- What the body of the callback mentions after the index was renamed. -/
def bodyNames (m : Mapping) (tokens : Tokens) : List String :=
  m.body.children.flatMap fun t => (m.renamed tokens t).openNames

theorem declaredBy_renamed (m : Mapping) (tokens : Tokens) (ts : List Located) :
    declaredBy (ts.map (m.renamed tokens)) = declaredBy ts := by
  cases hi : m.names[1]? with
  | none =>
    have hid : m.renamed tokens = id := funext fun t => by rw [renamed, hi, id]
    rw [hid, List.map_id]
  | some index =>
    have hrn : m.renamed tokens = renameFree index tokens.indexName :=
      funext fun t => by rw [renamed, hi]
    rw [hrn, declaredBy_map_renameFree]

theorem openNames_callback (h : m.Valid) :
    (node m.callback (.lambda ⟨m.form, false, false, m.params, m.body⟩)).openNames =
      (m.body.children.flatMap openNames).filter fun x => !(m.names ++ m.inner).contains x := by
  rw [openNames_lambda h.code?_eq_none, ← h.flatMap_names, inner, ← List.append_assoc]
  rfl

theorem openNames_normalized (m : Mapping) (tokens : Tokens) :
    (node m.callback (.lambda ⟨m.form, false, false,
      [.plain m.itemName, .plain tokens.indexName], m.body.map (m.renamed tokens)⟩)).openNames =
      (m.bodyNames tokens).filter
        fun x => !(m.itemName :: tokens.indexName :: m.inner).contains x := by
  have hscope : scopeOf (.lambda ⟨m.form, false, false,
      [.plain m.itemName, .plain tokens.indexName], m.body.map (m.renamed tokens)⟩) =
      m.itemName :: tokens.indexName :: m.inner := by
    rw [inner]
    cases m.body with
    | value => rfl
    | block statements =>
      show _ ++ declaredBy (statements.map (m.renamed tokens)) = _
      rw [declaredBy_renamed]
      rfl
  rw [openNames_lambda (by simp [Binder.code?]), hscope, bodyNames, Body.children_map,
    List.flatMap_map]

/-- The parameters of the loop take from the free names of the callback those that they bind. -/
theorem openNames_normalized_eq (h : m.Valid) (tokens : Tokens) :
    (node m.callback (.lambda ⟨m.form, false, false,
      [.plain m.itemName, .plain tokens.indexName], m.body.map (m.renamed tokens)⟩)).openNames =
      (node m.callback (.lambda ⟨m.form, false, false, m.params, m.body⟩)).openNames.filter
        (untouched m.itemName tokens.indexName) := by
  rw [openNames_normalized, openNames_callback h, List.filter_filter]
  have hlen : m.names.length ≤ 2 := (List.length_filterMap_le _ _).trans h.params_names.1
  cases hi : m.names[1]? with
  | none =>
    have hbody : m.bodyNames tokens = m.body.children.flatMap openNames :=
      List.flatMap_congr fun t _ => by rw [renamed, hi]
    have hitem : ∀ x ∈ m.names, x = m.itemName := by
      intro x hx
      obtain ⟨k, hk, rfl⟩ := List.getElem_of_mem hx
      have hone : m.names.length ≤ 1 := List.getElem?_eq_none_iff.1 hi
      obtain rfl : k = 0 := by omega
      simp [itemName, Candidate.itemName, candidate, List.getElem?_eq_getElem hk]
    rw [hbody]
    refine List.filter_congr fun x _ => ?_
    rw [Bool.eq_iff_iff]
    simp only [untouched, List.contains_eq_mem, List.mem_cons, List.mem_append, Bool.not_eq_true',
      decide_eq_false_iff_not, not_or, Bool.and_eq_true, bne_iff_ne]
    have := hitem x
    tauto
  | some index =>
    obtain ⟨item, hnames⟩ : ∃ item, m.names = [item, index] := by
      rcases hn : m.names with _ | ⟨item, _ | ⟨x, _ | ⟨y, rest⟩⟩⟩
      · simp [hn] at hi
      · simp [hn] at hi
      · exact ⟨item, by simpa [hn] using hi⟩
      · simp [hn] at hlen
    have hitem : m.itemName = item := by simp [itemName, Candidate.itemName, candidate, hnames]
    have hrn : m.renamed tokens = renameFree index tokens.indexName :=
      funext fun t => by rw [renamed, hi]
    -- renaming leaves the other names, and takes the old name of the index away
    have hothers : (m.bodyNames tokens).filter (untouched index tokens.indexName) =
        (m.body.children.flatMap openNames).filter (untouched index tokens.indexName) := by
      rw [bodyNames, hrn, List.filter_flatMap, List.filter_flatMap]
      exact List.flatMap_congr fun t _ => filter_openNames_renameFree _ _ t
    have hold (hne : index ≠ tokens.indexName) : index ∉ m.bodyNames tokens := by
      intro hmem
      obtain ⟨t, -, ht⟩ := List.mem_flatMap.1 hmem
      rw [hrn] at ht
      exact not_mem_openNames_renameFree hne t ht
    have hsame : (m.bodyNames tokens).filter
          (fun x => !(m.itemName :: tokens.indexName :: m.inner).contains x) =
        ((m.bodyNames tokens).filter (untouched index tokens.indexName)).filter
          fun x => !(m.itemName :: tokens.indexName :: m.inner).contains x := by
      rw [List.filter_filter]
      refine List.filter_congr fun x hx => ?_
      have hx' : x ≠ tokens.indexName → x ≠ index := by
        rintro hne rfl
        exact hold hne hx
      rw [Bool.eq_iff_iff]
      simp only [untouched, List.contains_eq_mem, List.mem_cons, Bool.not_eq_true',
        decide_eq_false_iff_not, not_or, Bool.and_eq_true, bne_iff_ne]
      tauto
    rw [hsame, hothers, List.filter_filter]
    refine List.filter_congr fun x _ => ?_
    rw [Bool.eq_iff_iff, hnames, hitem]
    simp only [untouched, List.contains_eq_mem, List.mem_cons, List.mem_append, Bool.not_eq_true',
      decide_eq_false_iff_not, not_or, Bool.and_eq_true, bne_iff_ne, List.not_mem_nil]
    tauto

end Mapping

/-- The free names of a callback after it got the parameters of its loop are those it had before
without the names of these parameters. So they stay as they were exactly if neither the item's name
nor the new name of the index was free in it. -/
theorem freeNames_normalize {s : Store} {l : Loc} (h : s.IsTree l) {c : Candidate}
    (hc : candidate? s l = .ok c) (tokens : Tokens) :
    let s' := (c.normalize tokens s).2
    s'.freeNames c.callback = (s.freeNames c.callback).filter
        (fun x => x ≠ c.itemName ∧ x ≠ tokens.indexName) ∧
      (s'.freeNames c.callback = s.freeNames c.callback ↔
        c.itemName ∉ s.freeNames c.callback ∧ tokens.indexName ∉ s.freeNames c.callback) := by
  have hown := h.owns_treeAt
  have hshows : s.Shows (s.treeAt l) := hown.shows le_rfl
  rw [← Store.loc_treeAt l, candidate?_eq hshows] at hc
  obtain ⟨parens, m, ht, hm, rfl⟩ := candidateTree?_eq_ok hc
  rw [ht] at hown hshows
  rw [cells_inParens, add_comm] at hown
  obtain ⟨s', hrun, -, hown'⟩ := normalize_withCallback tokens hown
  have hcall : s.Shows m.tree := hshows.occurs (occurs_inParens _ _)
  have hcall' := hown'.shows (Multiset.le_add_right _ _)
  have hbefore : s.freeNames m.callback = _ :=
    (hcall.occurs (m.occurs_callback _ _)).freeNames
  have hafter : s'.freeNames m.callback = _ :=
    (hcall'.occurs (m.occurs_callback _ _)).freeNames
  rw [show (m.candidate.normalize tokens s).2 = s' from congrArg Prod.snd hrun]
  have heq : s'.freeNames m.callback = (s.freeNames m.callback).filter
      fun x => x ≠ m.itemName ∧ x ≠ tokens.indexName := by
    rw [hafter, hbefore, Located.freeNames, Located.freeNames, ← openNames, ← openNames,
      Mapping.openNames_normalized_eq hm, eraseDups_filter]
    refine List.filter_congr fun x _ => ?_
    rw [Bool.eq_iff_iff]
    simp [untouched]
  refine ⟨heq, ?_⟩
  show s'.freeNames m.callback = s.freeNames m.callback ↔
    m.itemName ∉ s.freeNames m.callback ∧ tokens.indexName ∉ s.freeNames m.callback
  rw [heq, List.filter_eq_self]
  simp only [decide_eq_true_eq]
  constructor
  · intro hall
    exact ⟨fun hmem => (hall _ hmem).1 rfl, fun hmem => (hall _ hmem).2 rfl⟩
  · rintro ⟨hitem, hindex⟩ x hx
    exact ⟨fun he => hitem (he ▸ hx), fun he => hindex (he ▸ hx)⟩

/-- A callback without parameters that mentions a variable of the page with the name that its item
gets: `rows.map(() => { log(item); return <A />; })`. -/
def pageItem : Store where
  nodes := #[.name "rows", .member ⟨0⟩ "map" false, .name "log", .name "item", .call ⟨2⟩ [⟨3⟩],
    .performing ⟨4⟩, .element ⟨"A", [], [], true⟩, .returning (some ⟨6⟩),
    .lambda ⟨.arrow, false, false, [], .block [⟨5⟩, ⟨7⟩]⟩, .call ⟨1⟩ [⟨8⟩]]

def pageItemLoop : Candidate := ⟨⟨9⟩, ⟨0⟩, ⟨8⟩, none, none, [⟨5⟩], ⟨6⟩⟩

theorem pageItem_isTree : pageItem.IsTree ⟨9⟩ :=
  Store.isTree_of_filled (by decide) (by decide) (by decide)

theorem pageItem_candidate : candidate? pageItem ⟨9⟩ = .ok pageItemLoop := by
  cbv

theorem pageItem_freeNames_normalize :
    pageItem.IsTree ⟨9⟩ ∧ candidate? pageItem ⟨9⟩ = .ok pageItemLoop ∧
      let s' := (pageItemLoop.normalize (.ofId 0) pageItem).2
      s'.freeNames pageItemLoop.callback = (pageItem.freeNames pageItemLoop.callback).filter
          (fun x => x ≠ pageItemLoop.itemName ∧ x ≠ (Tokens.ofId 0).indexName) ∧
        (s'.freeNames pageItemLoop.callback = pageItem.freeNames pageItemLoop.callback ↔
          pageItemLoop.itemName ∉ pageItem.freeNames pageItemLoop.callback ∧
            (Tokens.ofId 0).indexName ∉ pageItem.freeNames pageItemLoop.callback) :=
  ⟨pageItem_isTree, pageItem_candidate, freeNames_normalize pageItem_isTree pageItem_candidate _⟩

/-- The variable of the page becomes the item. -/
theorem pageItem_captured :
    pageItem.IsTree ⟨9⟩ ∧ candidate? pageItem ⟨9⟩ = .ok pageItemLoop ∧
      pageItem.freeNames pageItemLoop.callback = ["log", "item"] ∧
      (pageItemLoop.normalize (.ofId 0) pageItem).2.freeNames pageItemLoop.callback = ["log"] :=
  ⟨pageItem_isTree, pageItem_candidate, by cbv, by cbv⟩

end JsxLoops.Loop
