import JsxLoops.Surface.RenderRoot
import JsxLoops.Text.Position
import Mathlib

/-!
The render root of a module. A place in a module is a path: which part is taken at each step. A
rendered expression is markup that is returned or is the whole body of an arrow, and the functions
around it are counted along its path. The render root is the rendered expression inside the fewest
functions, and the first of these on the way through the whole.
-/

namespace JsxLoops.Surface

/-! ### Paths in phrases -/

namespace Phrase

@[elab_as_elim] theorem induct {P : Phrase → Prop}
    (phrase : ∀ span shape parts, (∀ p ∈ parts, P p) → P ⟨span, shape, parts⟩) (p : Phrase) : P p :=
  match p with
  | ⟨span, shape, parts⟩ => phrase span shape parts fun p _ => induct phrase p
termination_by p

/-- The phrase reached by taking the numbered part at each step. -/
def at? : List Nat → Phrase → Option Phrase
  | [], p => some p
  | i :: path, p => p.parts[i]?.bind (at? path)

def isFunction (p : Phrase) : Bool :=
  match p.shape with
  | .lambda _ _ _ _ => true
  | _ => false

/-- How many functions a path leads into. -/
def functionsTo : List Nat → Phrase → Nat
  | [], _ => 0
  | i :: path, p => (if p.isFunction then 1 else 0) + p.parts[i]?.elim 0 (functionsTo path)

/-- An element or a fragment in any number of parentheses. -/
inductive IsMarkup : Phrase → Prop
  | element (span tag : Span) (selfClosing : Bool) (parts : List Phrase) :
    IsMarkup ⟨span, .element tag selfClosing, parts⟩
  | fragment (span : Span) (parts : List Phrase) : IsMarkup ⟨span, .fragment, parts⟩
  | paren (span : Span) {inner : Phrase} (h : IsMarkup inner) : IsMarkup ⟨span, .paren, [inner]⟩

theorem isMarkup_iff {p : Phrase} : p.isMarkup = true ↔ p.IsMarkup := by
  constructor
  · intro h
    induction p using induct with
    | phrase span shape parts ih =>
      cases shape with
      | element tag selfClosing => exact .element span tag selfClosing parts
      | fragment => exact .fragment span parts
      | paren =>
        obtain _ | ⟨inner, _ | ⟨other, rest⟩⟩ := parts
        · cases h
        · exact .paren span (ih inner (List.mem_singleton_self inner) h)
        · cases h
      | _ => cases h
  · intro h
    induction h with
    | element | fragment => rfl
    | paren _ _ ih => exact ih

/-- At the end of the path stands markup that is returned or is the whole body of an arrow. -/
def Renders (whole : Phrase) (path : List Nat) (value : Phrase) : Prop :=
  ∃ front holder, path = front ++ [0] ∧ whole.at? front = some holder ∧ holder.parts = [value] ∧
    (holder.shape = .returns ∨ holder.shape = .concise) ∧ value.IsMarkup

/-- Rendered expressions that come later on the way through the module start later in its text. -/
def VisitsInOrder (whole : Phrase) : Prop :=
  ∀ {path path' value value'}, whole.Renders path value → whole.Renders path' value' →
    path < path' → value.span.start < value'.span.start

/-- The expression that the phrase itself returns, if that is markup. -/
def own (p : Phrase) : Option Phrase :=
  match p.shape, p.parts with
  | .returns, [value] | .concise, [value] => if value.isMarkup then some value else none
  | _, _ => none

theorem mem_own_iff {p value : Phrase} : value ∈ p.own ↔
    p.parts = [value] ∧ (p.shape = .returns ∨ p.shape = .concise) ∧ value.IsMarkup := by
  constructor
  · intro h
    rw [own, Option.mem_def] at h
    split at h
    case h_1 hshape hparts =>
      obtain ⟨hmarkup, hvalue⟩ := Option.ite_none_right_eq_some.1 h
      cases hvalue
      exact ⟨hparts, .inl hshape, isMarkup_iff.1 hmarkup⟩
    case h_2 hshape hparts =>
      obtain ⟨hmarkup, hvalue⟩ := Option.ite_none_right_eq_some.1 h
      cases hvalue
      exact ⟨hparts, .inr hshape, isMarkup_iff.1 hmarkup⟩
    case h_3 => cases h
  · rintro ⟨hparts, hshape | hshape, hmarkup⟩
    · rw [own, hshape, hparts]
      exact if_pos (isMarkup_iff.2 hmarkup)
    · rw [own, hshape, hparts]
      exact if_pos (isMarkup_iff.2 hmarkup)

theorem isFunction_of_mem_own {p value : Phrase} (h : value ∈ p.own) : p.isFunction = false := by
  obtain ⟨-, hshape | hshape, -⟩ := mem_own_iff.1 h <;> rw [isFunction, hshape]

theorem functionsTo_of_mem_own {p value : Phrase} (h : value ∈ p.own) : p.functionsTo [0] = 0 := by
  rw [functionsTo, isFunction_of_mem_own h, (mem_own_iff.1 h).1]
  rfl

theorem renders_iff {p value : Phrase} {path : List Nat} : p.Renders path value ↔
    (path = [0] ∧ value ∈ p.own) ∨
      ∃ i rest q, path = i :: rest ∧ p.parts[i]? = some q ∧ q.Renders rest value := by
  constructor
  · rintro ⟨_ | ⟨i, front⟩, holder, rfl, hholder, hvalue⟩
    · cases hholder
      exact .inl ⟨rfl, mem_own_iff.2 hvalue⟩
    · obtain ⟨q, hq, hrest⟩ := Option.bind_eq_some_iff.1 hholder
      exact .inr ⟨i, front ++ [0], q, rfl, hq, front, holder, rfl, hrest, hvalue⟩
  · rintro (⟨rfl, h⟩ | ⟨i, _, q, rfl, hq, front, holder, rfl, hholder, hvalue⟩)
    · exact ⟨[], p, rfl, rfl, mem_own_iff.1 h⟩
    · exact ⟨i :: front, holder, rfl, Option.bind_eq_some_iff.2 ⟨q, hq, hholder⟩, hvalue⟩

/-! ### The rendered expressions in order -/

mutual

/-- The rendered expressions of a phrase that stands in `depth` functions, with their paths. -/
def rendered (depth : Nat) : Phrase → List (List Nat × Candidate)
  | ⟨span, shape, parts⟩ =>
    (own ⟨span, shape, parts⟩).toList.map (fun value => ([0], ⟨depth, value.span⟩)) ++
      renderedFrom (depth + if isFunction ⟨span, shape, parts⟩ then 1 else 0) 0 parts

/-- Those of several parts, of which the first has the number `i`. -/
def renderedFrom (depth i : Nat) : List Phrase → List (List Nat × Candidate)
  | [] => []
  | p :: rest =>
    (rendered depth p).map (fun r => (i :: r.1, r.2)) ++ renderedFrom depth (i + 1) rest

end

theorem candidates_eq (depth : Nat) (p : Phrase) : p.candidates depth =
    p.own.toList.map (fun value => ⟨depth, value.span⟩) ++
      candidatesOf (depth + if p.isFunction then 1 else 0) p.parts := by
  fun_cases candidates depth p with
  | case1 span arrow isAsync generator name parts => rfl
  | case2 span value =>
    by_cases h : value.isMarkup = true <;> simp [own, isFunction, candidatesOf, offer, h]
  | case3 span value =>
    by_cases h : value.isMarkup = true <;> simp [own, isFunction, candidatesOf, offer, h]
  | case4 span shape parts hfunction hconcise hreturns =>
    have hown : own ⟨span, shape, parts⟩ = none := by
      refine Option.eq_none_iff_forall_not_mem.2 fun value h => ?_
      obtain ⟨hparts, hshape | hshape, -⟩ := mem_own_iff.1 h
      · exact hreturns value hshape hparts
      · exact hconcise value hshape hparts
    have hplain : isFunction ⟨span, shape, parts⟩ = false := by
      cases shape with
      | lambda arrow isAsync generator name => cases hfunction arrow isAsync generator name rfl
      | _ => rfl
    rw [hown, hplain]
    rfl

theorem candidatesOf_eq {depth i : Nat} {parts : List Phrase}
    (h : ∀ p ∈ parts, p.candidates depth = (p.rendered depth).map Prod.snd) :
    candidatesOf depth parts = (renderedFrom depth i parts).map Prod.snd := by
  induction parts generalizing i with
  | nil => rfl
  | cons p rest ih =>
    rw [candidatesOf, renderedFrom, List.map_append, List.map_map,
      h p List.mem_cons_self, ih fun q hq => h q (List.mem_cons_of_mem p hq)]
    rfl

theorem candidates_eq_map_rendered (depth : Nat) (p : Phrase) :
    p.candidates depth = (p.rendered depth).map Prod.snd := by
  induction p using induct generalizing depth with
  | phrase span shape parts ih =>
    rw [candidates_eq, rendered, List.map_append, List.map_map,
      candidatesOf_eq fun p hp => ih p hp _]
    rfl

theorem mem_renderedFrom {depth i : Nat} {parts : List Phrase} {r : List Nat × Candidate} :
    r ∈ renderedFrom depth i parts ↔ ∃ j q path, parts[j]? = some q ∧
      (path, r.2) ∈ q.rendered depth ∧ r.1 = (i + j) :: path := by
  induction parts generalizing i with
  | nil => simp [renderedFrom]
  | cons p rest ih =>
    rw [renderedFrom, List.mem_append, List.mem_map, ih]
    constructor
    · rintro (⟨r, hr, rfl⟩ | ⟨j, q, path, hq, hr, hpath⟩)
      · exact ⟨0, p, r.1, rfl, hr, rfl⟩
      · exact ⟨j + 1, q, path, hq, hr, by rw [hpath, Nat.add_assoc, Nat.add_comm 1]⟩
    · rintro ⟨_ | j, q, path, hq, hr, hpath⟩
      · cases hq
        exact .inl ⟨_, hr, Prod.ext hpath.symm rfl⟩
      · exact .inr ⟨j, q, path, hq, hr, by rw [hpath, Nat.add_assoc, Nat.add_comm 1]⟩

theorem mem_rendered {depth : Nat} {p : Phrase} {r : List Nat × Candidate} : r ∈ p.rendered depth ↔
    ∃ value, p.Renders r.1 value ∧ r.2 = ⟨depth + p.functionsTo r.1, value.span⟩ := by
  induction p using induct generalizing depth r with
  | phrase span shape parts ih =>
    simp only [rendered, List.mem_append, List.mem_map, Option.mem_toList, mem_renderedFrom]
    constructor
    · rintro (⟨value, hvalue, rfl⟩ | ⟨j, q, path, hq, hr, hpath⟩)
      · refine ⟨value, renders_iff.2 (.inl ⟨rfl, hvalue⟩), ?_⟩
        rw [functionsTo_of_mem_own hvalue, Nat.add_zero]
      · obtain ⟨value, hvalue, hr⟩ := (ih q (List.mem_of_getElem? hq)).1 hr
        rw [Nat.zero_add] at hpath
        refine ⟨value, renders_iff.2 (.inr ⟨j, path, q, hpath, hq, hvalue⟩), ?_⟩
        rw [hr, hpath, functionsTo, hq, Option.elim_some, Nat.add_assoc]
    · rintro ⟨value, hvalue, hr⟩
      obtain ⟨hpath, hown⟩ | ⟨j, path, q, hpath, hq, hvalue⟩ := renders_iff.1 hvalue
      · refine .inl ⟨value, hown, Prod.ext hpath.symm ?_⟩
        rw [hr, hpath, functionsTo_of_mem_own hown, Nat.add_zero]
      · refine .inr ⟨j, q, path, hq, (ih q (List.mem_of_getElem? hq)).2 ⟨value, hvalue, ?_⟩, ?_⟩
        · rw [hr, hpath, functionsTo, hq, Option.elim_some, Nat.add_assoc]
        · rw [hpath, Nat.zero_add]

theorem rendered_eq_nil_iff {depth : Nat} {p : Phrase} :
    p.rendered depth = [] ↔ ¬∃ path value, p.Renders path value := by
  rw [List.eq_nil_iff_forall_not_mem]
  constructor
  · rintro h ⟨path, value, hvalue⟩
    exact h (path, ⟨depth + p.functionsTo path, value.span⟩)
      (mem_rendered.2 ⟨value, hvalue, rfl⟩)
  · intro h r hr
    obtain ⟨value, hvalue, -⟩ := mem_rendered.1 hr
    exact h ⟨r.1, value, hvalue⟩

theorem Renders.path_ne_nil {p value : Phrase} {path : List Nat} (h : p.Renders path value) :
    path ≠ [] := by
  obtain ⟨front, _, rfl, _⟩ := h
  exact List.append_ne_nil_of_right_ne_nil front (List.cons_ne_nil 0 [])

theorem pairwise_renderedFrom {depth i : Nat} {parts : List Phrase}
    (h : ∀ p ∈ parts, (p.rendered depth).Pairwise (·.1 < ·.1)) :
    (renderedFrom depth i parts).Pairwise (·.1 < ·.1) := by
  induction parts generalizing i with
  | nil => exact .nil
  | cons p rest ih =>
    rw [renderedFrom, List.pairwise_append, List.pairwise_map]
    refine ⟨?_, ih fun q hq => h q (List.mem_cons_of_mem p hq), ?_⟩
    · exact (h p List.mem_cons_self).imp fun hlt => List.cons_lt_cons_iff.2 (.inr ⟨rfl, hlt⟩)
    · intro r hr r' hr'
      obtain ⟨r, -, rfl⟩ := List.mem_map.1 hr
      obtain ⟨j, -, path, -, -, hpath⟩ := mem_renderedFrom.1 hr'
      rw [hpath]
      exact List.cons_lt_cons_iff.2 (.inl (by omega))

/-- The list is in the order of the paths: a phrase before its parts, and an earlier part before a
later one. -/
theorem pairwise_rendered (depth : Nat) (p : Phrase) :
    (p.rendered depth).Pairwise (·.1 < ·.1) := by
  induction p using induct generalizing depth with
  | phrase span shape parts ih =>
    rw [rendered, List.pairwise_append]
    refine ⟨?_, pairwise_renderedFrom fun p hp => ih p hp _, ?_⟩
    · cases own ⟨span, shape, parts⟩ with
      | none => exact .nil
      | some value => exact List.pairwise_singleton _ _
    · intro r hr r' hr'
      obtain ⟨value, -, rfl⟩ := List.mem_map.1 hr
      obtain ⟨j, q, path, -, hr', hpath⟩ := mem_renderedFrom.1 hr'
      obtain ⟨value', hvalue', -⟩ := mem_rendered.1 hr'
      obtain ⟨k, rest, rfl⟩ := List.exists_cons_of_ne_nil hvalue'.path_ne_nil
      rw [hpath]
      refine List.cons_lt_cons_iff.2 ((Nat.zero_le (0 + j)).lt_or_eq.imp_right fun hj => ⟨hj, ?_⟩)
      exact List.nil_lt_cons k rest

theorem visitsInOrder_of_pairwise {p : Phrase}
    (h : (p.candidates 0).Pairwise (·.span.start < ·.span.start)) : p.VisitsInOrder := by
  intro path path' value value' hvalue hvalue' hlt
  rw [candidates_eq_map_rendered, List.pairwise_map] at h
  let Agrees (r r' : List Nat × Candidate) : Prop :=
    (r.1 < r'.1 → r.2.span.start < r'.2.span.start) ∧
      (r'.1 < r.1 → r'.2.span.start < r.2.span.start)
  have hagrees : (p.rendered 0).Pairwise Agrees :=
    h.imp₂ (fun r r' hstart hpath => ⟨fun _ => hstart, fun hback => absurd hback (lt_asymm hpath)⟩)
      (pairwise_rendered 0 p)
  have hsymm : Std.Symm Agrees := ⟨fun r r' hr => ⟨hr.2, hr.1⟩⟩
  have hself (r) (_ : r ∈ p.rendered 0) : Agrees r r :=
    ⟨fun hr => absurd hr (lt_irrefl _), fun hr => absurd hr (lt_irrefl _)⟩
  have hmem : (path, ⟨0 + p.functionsTo path, value.span⟩) ∈ p.rendered 0 :=
    mem_rendered.2 ⟨value, hvalue, rfl⟩
  have hmem' : (path', ⟨0 + p.functionsTo path', value'.span⟩) ∈ p.rendered 0 :=
    mem_rendered.2 ⟨value', hvalue', rfl⟩
  exact (hagrees.forall_of_forall hself hmem hmem').1 hlt

end Phrase

/-! ### The choice among the candidates -/

theorem shallowest_eq_none_iff {cs : List Candidate} : shallowest cs = none ↔ cs = [] := by
  cases cs with
  | nil => simp [shallowest]
  | cons c rest =>
    simp only [shallowest, reduceCtorEq, iff_false]
    split
    · split <;> exact Option.some_ne_none _
    · exact Option.some_ne_none _

/-- The candidate that is chosen stands in fewer functions than those before it, and in no more
than those behind it. -/
theorem shallowest_eq_some {cs : List Candidate} {best : Candidate}
    (h : shallowest cs = some best) : ∃ before after, cs = before ++ best :: after ∧
      (∀ c ∈ before, best.depth < c.depth) ∧ ∀ c ∈ after, best.depth ≤ c.depth := by
  induction cs generalizing best with
  | nil => cases h
  | cons c rest ih =>
    rw [shallowest] at h
    split at h
    next other hother =>
      obtain ⟨before, after, hrest, hbefore, hafter⟩ := ih hother
      split at h
      next hlt =>
        cases h
        exact ⟨c :: before, after, by rw [hrest, List.cons_append],
          List.forall_mem_cons.2 ⟨hlt, hbefore⟩, hafter⟩
      next hle =>
        cases h
        refine ⟨[], rest, rfl, List.forall_mem_nil _, fun d hd => ?_⟩
        have hleast : other.depth ≤ d.depth := by
          rw [hrest, List.mem_append, List.mem_cons] at hd
          obtain hd | rfl | hd := hd
          · exact (hbefore d hd).le
          · exact le_rfl
          · exact hafter d hd
        omega
    next hnone =>
      cases h
      rw [shallowest_eq_none_iff.1 hnone]
      exact ⟨[], [], rfl, List.forall_mem_nil _, List.forall_mem_nil _⟩

/-- The expression at the path is rendered inside the fewest functions, and it is the first of these
on the way through the whole. -/
structure IsRenderRoot (whole : Phrase) (path : List Nat) (value : Phrase) : Prop where
  renders : whole.Renders path value
  least {path' value'} (h : whole.Renders path' value') :
    whole.functionsTo path ≤ whole.functionsTo path'
  first {path' value'} (h : whole.Renders path' value')
    (hdepth : whole.functionsTo path' = whole.functionsTo path) : path' = path ∨ path < path'

theorem exists_isRenderRoot (whole : Phrase) {best : Candidate}
    (h : shallowest (whole.candidates 0) = some best) :
    ∃ path value, IsRenderRoot whole path value ∧ best.span = value.span := by
  obtain ⟨before, after, hsplit, hbefore, hafter⟩ := shallowest_eq_some h
  rw [Phrase.candidates_eq_map_rendered] at hsplit
  obtain ⟨front, back, hlist, rfl, hback⟩ := List.map_eq_append_iff.1 hsplit
  obtain ⟨⟨path, best⟩, behind, rfl, rfl, rfl⟩ := List.map_eq_cons_iff.1 hback
  have hsorted := List.pairwise_append.1 (hlist ▸ whole.pairwise_rendered 0)
  have hlater := (List.pairwise_cons.1 hsorted.2.1).1
  -- Every other rendered expression is before the chosen one and deeper, or behind it.
  have hplace {path' value'} (hvalue' : whole.Renders path' value') :
      best.depth < whole.functionsTo path' ∨ path' = path ∨
        best.depth ≤ whole.functionsTo path' ∧ path < path' := by
    have hmem : (path', ⟨0 + whole.functionsTo path', value'.span⟩) ∈ whole.rendered 0 :=
      Phrase.mem_rendered.2 ⟨value', hvalue', rfl⟩
    rw [hlist, List.mem_append, List.mem_cons, Nat.zero_add] at hmem
    obtain hmem | heq | hmem := hmem
    · exact .inl (hbefore _ (List.mem_map_of_mem hmem))
    · exact .inr (.inl (congrArg Prod.fst heq))
    · exact .inr (.inr ⟨hafter _ (List.mem_map_of_mem hmem), hlater _ hmem⟩)
  have hmem : (path, best) ∈ whole.rendered 0 := by
    rw [hlist]
    exact List.mem_append_right _ List.mem_cons_self
  obtain ⟨value, hvalue, (hbest : best = _)⟩ := Phrase.mem_rendered.1 hmem
  have hdepth : best.depth = whole.functionsTo path := by rw [hbest, Nat.zero_add]
  refine ⟨path, value, ⟨hvalue, fun h' => ?_, fun h' heq => ?_⟩, by rw [hbest]⟩
  · obtain hdeep | rfl | hlate := hplace h' <;> omega
  · obtain hdeep | hsame | hlate := hplace h'
    · omega
    · exact .inl hsame
    · exact .inr hlate.2

/-! ### The render root -/

/-- A stretch of a text in bytes of its UTF-8 form: where it begins and where it ends. -/
def Span.bytes (source : List Char) (span : Span) : Nat × Nat :=
  (Text.byteLength (source.take span.start), Text.byteLength (source.take span.stop))

/-- A module has no render root exactly if it renders nothing. Otherwise the root is the rendered
expression, with its parentheses, that stands in the fewest functions and comes first among
these. -/
theorem renderRoot_first_shallowest {source : List Char} {items : List Phrase}
    (h : readModule source = some items) :
    ∃ root, renderRoot source = some root ∧
      (root = none ↔ ¬∃ path value, (Phrase.group items).Renders path value) ∧
      ∀ range, root.map (Span.bytes source) = some range → ∃ path value,
        IsRenderRoot (.group items) path value ∧ range = value.span.bytes source ∧
        ((Phrase.group items).VisitsInOrder → ∀ {path' value'},
          (Phrase.group items).Renders path' value' → path' ≠ path →
            (Phrase.group items).functionsTo path' = (Phrase.group items).functionsTo path →
              value.span.start < value'.span.start) := by
  refine ⟨_, by rw [renderRoot, h, Option.map_some], ?_, fun range hrange => ?_⟩
  · have hall : candidatesOf 0 items = ((Phrase.group items).rendered 0).map Prod.snd :=
      Phrase.candidates_eq_map_rendered 0 (.group items)
    rw [Option.map_eq_none_iff, shallowest_eq_none_iff, hall, List.map_eq_nil_iff,
      Phrase.rendered_eq_nil_iff]
  · obtain ⟨span, hspan, rfl⟩ := Option.map_eq_some_iff.1 hrange
    obtain ⟨best, hbest, rfl⟩ := Option.map_eq_some_iff.1 hspan
    obtain ⟨path, value, hroot, hvalue⟩ := exists_isRenderRoot (.group items) hbest
    refine ⟨path, value, hroot, by rw [hvalue], fun horder path' value' h' hne hdepth => ?_⟩
    exact horder hroot.renders h' ((hroot.first h' hdepth).resolve_left hne)

/-- Two candidates stand in one function and one, which comes before them, in two. -/
def earlyReturn : List Char :=
  ("const pick = () => () => <u />;\n" ++
    "const View = (é = 'ü') => \x7b if (a) \x7b return (<b />); \x7d return <i />; \x7d;").toList

theorem earlyReturn_root : ∃ items, readModule earlyReturn = some items ∧
    (Phrase.group items).VisitsInOrder ∧ ∃ path value,
      IsRenderRoot (.group items) path value ∧ value.span.bytes earlyReturn = (78, 85) ∧
      ∀ {path' value'}, (Phrase.group items).Renders path' value' → path' ≠ path →
        (Phrase.group items).functionsTo path' = (Phrase.group items).functionsTo path →
          value.span.start < value'.span.start := by
  have hread : (readModule earlyReturn).map (candidatesOf 0) =
      some [⟨2, 25, 30⟩, ⟨1, 76, 83⟩, ⟨1, 94, 99⟩] := by decide +kernel
  obtain ⟨items, hitems, hlist⟩ := Option.map_eq_some_iff.1 hread
  have horder : (Phrase.group items).VisitsInOrder := by
    refine Phrase.visitsInOrder_of_pairwise ?_
    change (candidatesOf 0 items).Pairwise _
    rw [hlist]
    decide
  obtain ⟨root, hroot, -, hfirst⟩ := renderRoot_first_shallowest hitems
  have hspan : root = some ⟨76, 83⟩ := by
    rw [renderRoot, hitems, Option.map_some, hlist] at hroot
    exact (Option.some.inj hroot).symm
  obtain ⟨path, value, hvalue, hbytes, hleft⟩ := hfirst (78, 85) (by rw [hspan]; decide +kernel)
  exact ⟨items, hitems, horder, path, value, hvalue, hbytes.symm, hleft horder⟩

end JsxLoops.Surface
