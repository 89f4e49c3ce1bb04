import JsxLoops.Loop.Candidate
import JsxLoops.Proofs.Reading

/-!
Mapping calls as trees. `Mapping` is a mapping call that returns markup, taken apart with all its
parentheses; `Mapping.tree` puts it together again. A tree is accepted as a candidate exactly by
being such a call in parentheses, and the candidate names the locations of its parts.
-/

namespace JsxLoops.Loop

open JsxLoops.Tree Located

/-! ### Candidates of trees -/

def plainTree? : List Located → Option Located
  | [argument] =>
    match argument.here with
    | .spread _ => none
    | _ => some argument
  | _ => none

/-- How the body of a callback ends in its result. -/
inductive Ending where
  | value
  | block (leading : List Located) (last : Loc)

namespace Ending

def leading : Ending → List Located
  | .value => []
  | .block leading _ => leading

def body (result : Located) : Ending → Body Located
  | .value => .value result
  | .block leading last => .block (leading ++ [.node last (.returning (some result))])

end Ending

/-- The statements in front of the last return, and what that returns. -/
def splitTree? : Body Located → Option (List Located × Located)
  | .value value => some ([], value)
  | .block statements =>
    match statements.getLast? with
    | some last =>
      match last.here with
      | .returning (some value) =>
        if statements.dropLast.any Located.returns then none
        else some (statements.dropLast, value)
      | _ => none
    | none => none

/-- The receiver and the arguments of a call of `map`. -/
def mapCallTree? (t : Located) : Option (Located × List Located) :=
  match t.here with
  | .call callee arguments =>
    match callee.strip.here with
    | .member receiver "map" _ => some (receiver, arguments)
    | _ => none
  | _ => none

/-- What `candidate?` finds at the root of a tree. -/
def candidateTree? (t : Located) : Except Mismatch Candidate := do
  let call := t.strip
  let some (receiver, arguments) := mapCallTree? call | throw .notMapCall
  let some argument := plainTree? arguments | throw .arguments
  let callback := argument.strip
  let .lambda f := callback.here | throw .notFunction
  if f.isAsync || f.generator then throw .asyncOrGenerator
  let some names := paramNames? f.params | throw .parameters
  let some (leading, result) := splitTree? f.body | throw .body
  let subtree := result.strip
  if subtree.here.isMarkup then
    return ⟨call.loc, receiver.loc, callback.loc, names[0]?, names[1]?, leading.map loc,
      subtree.loc⟩
  else throw .notMarkup

theorem mapCall?_eq {s : Store} {t : Located} (h : s.Shows t) :
    mapCall? s t.loc = (mapCallTree? t).map fun c => (c.1.loc, c.2.map loc) := by
  rw [mapCall?, mapCallTree?, h.get_loc]
  cases hn : t.here with
  | call callee arguments =>
    have hc : s.Shows callee := h.of_mem (by simp [hn, Node.children])
    simp only [Node.map, hc.stripParens, hc.strip.get_loc]
    cases callee.strip.here with
    | member receiver property optional =>
      simp only
      split <;> simp_all
    | _ => rfl
  | _ => rfl

theorem plainArgument?_eq {s : Store} {ts : List Located} (h : ∀ t ∈ ts, s.Shows t) :
    plainArgument? s (ts.map loc) = (plainTree? ts).map loc := by
  obtain _ | ⟨t, _ | ⟨u, ts⟩⟩ := ts
  · rfl
  · have ht := (h t List.mem_cons_self).get_loc
    simp only [List.map_cons, List.map_nil, plainArgument?, ht, plainTree?]
    cases t.here <;> rfl
  · rfl

theorem splitBody?_eq {s : Store} {b : Body Located} (h : ∀ t ∈ b.children, s.Shows t) :
    splitBody? s (b.map loc) = (splitTree? b).map fun c => (c.1.map loc, c.2.loc) := by
  obtain value | statements := b
  · rfl
  · have hr : s.returns ((statements.map loc).dropLast) = statements.dropLast.any returns := by
      rw [← List.map_dropLast, Store.returns, List.any_map, Bool.eq_iff_iff, List.any_eq_true,
        List.any_eq_true]
      refine exists_congr fun t => and_congr_right fun ht => ?_
      rw [Function.comp, (h t ((List.dropLast_subset _) ht)).returnsAt]
    simp only [Body.map, splitBody?, splitTree?, List.getLast?_map]
    cases hl : statements.getLast? with
    | none => rfl
    | some last =>
      have hlast : s.Shows last := h last (List.mem_of_getLast? hl)
      simp only [Option.map_some, hlast.get_loc]
      cases last.here with
      | returning v =>
        cases v with
        | none => rfl
        | some v =>
          simp only [Node.map, Option.map_some, hr]
          split <;> simp [List.map_dropLast]
      | _ => rfl

theorem mapCallTree?_eq_some {t receiver : Located} {arguments : List Located}
    (h : mapCallTree? t = some (receiver, arguments)) :
    ∃ callee optional, t.here = .call callee arguments ∧
      callee.strip.here = .member receiver "map" optional := by
  rw [mapCallTree?] at h
  split at h
  · split at h
    · simp only [Option.some.injEq, Prod.mk.injEq] at h
      obtain ⟨rfl, rfl⟩ := h
      exact ⟨_, _, ‹_›, ‹_›⟩
    · cases h
  · cases h

theorem plainTree?_eq_some {ts : List Located} {t : Located} (h : plainTree? ts = some t) :
    ts = [t] := by
  rw [plainTree?.eq_def] at h
  split at h
  · split at h
    · cases h
    · rw [Option.some.inj h]
  · cases h

theorem splitTree?_eq_some {b : Body Located} {leading : List Located} {result : Located}
    (h : splitTree? b = some (leading, result)) :
    ∃ ending : Ending, b = ending.body result ∧ leading = ending.leading ∧
      leading.any returns = false := by
  obtain value | statements := b
  · simp only [splitTree?, Option.some.injEq, Prod.mk.injEq] at h
    obtain ⟨rfl, rfl⟩ := h
    exact ⟨.value, rfl, rfl, rfl⟩
  · simp only [splitTree?] at h
    split at h
    case h_2 => cases h
    case h_1 last hlast =>
      split at h
      case h_2 => cases h
      case h_1 value hvalue =>
        split at h
        · cases h
        · simp only [Option.some.injEq, Prod.mk.injEq] at h
          obtain ⟨rfl, rfl⟩ := h
          refine ⟨.block statements.dropLast last.loc, ?_, rfl, Bool.eq_false_iff.2 ‹_›⟩
          have he : Located.node last.loc (.returning (some value)) = last := by
            rw [← hvalue, eta]
          rw [Ending.body, he, List.dropLast_append_getLast? last hlast]

theorem Ending.occurs_body (ending : Ending) (result : Located) :
    ∃ c ∈ (ending.body result).children, Occurs result c := by
  cases ending with
  | value => exact ⟨result, List.mem_singleton_self _, .self⟩
  | block leading last =>
    exact ⟨.node last (.returning (some result)), by simp [body, Body.children],
      .child (List.mem_singleton_self _) .self⟩

theorem Ending.occurs_leading (ending : Ending) (result : Located) :
    ∀ t ∈ ending.leading, t ∈ (ending.body result).children := by
  intro t ht
  cases ending with
  | value => cases ht
  | block leading last => exact List.mem_append.2 (.inl ht)

theorem candidate?_eq {s : Store} {t : Located} (h : s.Shows t) :
    candidate? s t.loc = candidateTree? t := by
  simp only [candidate?, candidateTree?, h.stripParens, mapCall?_eq h.strip]
  cases hm : mapCallTree? t.strip with
  | none => rfl
  | some call =>
    obtain ⟨receiver, arguments⟩ := call
    obtain ⟨callee, optional, hcall, -⟩ := mapCallTree?_eq_some hm
    have hargs : ∀ a ∈ arguments, s.Shows a := fun a ha =>
      h.strip.of_mem (by simp [hcall, Node.children, ha])
    simp only [Option.map_some, plainArgument?_eq hargs]
    cases hp : plainTree? arguments with
    | none => rfl
    | some argument =>
      have harg : s.Shows argument := hargs argument (by simp [plainTree?_eq_some hp])
      simp only [Option.map_some, harg.stripParens, harg.strip.get_loc]
      cases hf : argument.strip.here with
      | lambda f =>
        have hbody : ∀ c ∈ f.body.children, s.Shows c := fun c hc =>
          harg.strip.of_mem (by rw [hf]; exact hc)
        simp only [Node.map, splitBody?_eq hbody]
        cases hs : splitTree? f.body with
        | none => rfl
        | some parts =>
          obtain ⟨leading, result⟩ := parts
          obtain ⟨ending, he, -, -⟩ := splitTree?_eq_some hs
          obtain ⟨c, hc, hr⟩ := ending.occurs_body result
          have hresult : s.Shows result := (hbody c (he ▸ hc)).occurs hr
          simp only [Option.map_some, hresult.stripParens]
          rewrite [hresult.strip.get_loc, Node.isMarkup_map]
          rfl
      | _ => rfl

theorem candidateTree?_paren (l : Loc) (t : Located) :
    candidateTree? (.node l (.paren t)) = candidateTree? t := by
  rw [candidateTree?, strip_paren]
  rfl

theorem candidateTree?_of_no_call {t : Located} (hb : t.Bare)
    (hc : ∀ callee arguments, t.here ≠ .call callee arguments) :
    candidateTree? t = .error .notMapCall := by
  have hno : mapCallTree? t = none := by
    rw [mapCallTree?]
    cases hn : t.here with
    | call callee arguments => exact absurd hn (hc callee arguments)
    | _ => rfl
  rw [candidateTree?, hb.strip, hno]
  rfl

theorem candidateTree?_inParens (ps : List Loc) (t : Located) :
    candidateTree? (inParens ps t) = candidateTree? t := by
  induction ps with
  | nil => rfl
  | cons p ps ih => exact (candidateTree?_paren p _).trans ih

theorem bare_of_isMarkup {t : Located} (h : t.here.isMarkup = true) : t.Bare := by
  intro inner ht
  rw [ht] at h
  cases h

/-! ### Mapping calls -/

/-- A mapping call that returns markup, taken apart. -/
structure Mapping where
  call : Loc
  /-- The parentheses around the callee. -/
  calleeParens : List Loc
  member : Loc
  receiver : Located
  optional : Bool
  /-- The parentheses around the callback. -/
  parens : List Loc
  callback : Loc
  form : LambdaForm
  params : List Binder
  ending : Ending
  /-- The parentheses around the markup. -/
  resultParens : List Loc
  subtree : Located

namespace Mapping

def leading (m : Mapping) : List Located := m.ending.leading

def body (m : Mapping) : Body Located := m.ending.body (inParens m.resultParens m.subtree)

def callee (m : Mapping) : Located :=
  inParens m.calleeParens (.node m.member (.member m.receiver "map" m.optional))

def withCallback (m : Mapping) (params : List Binder) (body : Body Located) : Located :=
  .node m.call (.call m.callee
    [inParens m.parens (.node m.callback (.lambda ⟨m.form, false, false, params, body⟩))])

def tree (m : Mapping) : Located := m.withCallback m.params m.body

def names (m : Mapping) : List String := m.params.filterMap Binder.name?

/-- The locations of the parts. -/
def candidate (m : Mapping) : Candidate where
  call := m.call
  receiver := m.receiver.loc
  callback := m.callback
  itemParam := m.names[0]?
  indexParam := m.names[1]?
  leading := m.leading.map loc
  subtree := m.subtree.loc

structure Valid (m : Mapping) : Prop where
  params : paramNames? m.params = some m.names
  leading : m.leading.any returns = false
  markup : m.subtree.here.isMarkup = true

end Mapping

theorem paramNames?_eq_some {params : List Binder} {names : List String}
    (h : paramNames? params = some names) : names = params.filterMap Binder.name? := by
  have list (ps : List Binder) (ns : List String) (h : ps.mapM Binder.name? = some ns) :
      ns = ps.filterMap Binder.name? := by
    induction ps generalizing ns with
    | nil => simpa using h.symm
    | cons p ps ih =>
      rw [List.mapM_cons] at h
      obtain ⟨n, hn, h⟩ := Option.bind_eq_some_iff.1 h
      obtain ⟨ns', hns, h⟩ := Option.bind_eq_some_iff.1 h
      rw [List.filterMap_cons_some hn, ← ih ns' hns]
      exact (Option.some.inj h).symm
  rw [paramNames?] at h
  split at h
  · exact list params names h
  · cases h

theorem candidateTree?_eq_ok {t : Located} {c : Candidate} (h : candidateTree? t = .ok c) :
    ∃ ps m, t = inParens ps (Mapping.tree m) ∧ m.Valid ∧ c = m.candidate := by
  obtain ⟨ps, hps⟩ := exists_inParens t
  rw [candidateTree?] at h
  simp only at h
  split at h
  case h_2 => cases h
  case h_1 receiver arguments hcall =>
  split at h
  case h_2 => cases h
  case h_1 argument hargument =>
  split at h
  case h_2 => cases h
  case h_1 f hf =>
  split at h
  · cases h
  case isFalse hflags =>
  split at h
  case h_2 => cases h
  case h_1 names hnames =>
  split at h
  case h_2 => cases h
  case h_1 leading result hresult =>
  split at h
  case isFalse => cases h
  case isTrue hmarkup =>
  obtain ⟨callee, optional, ht, hmember⟩ := mapCallTree?_eq_some hcall
  obtain rfl := plainTree?_eq_some hargument
  obtain rfl := paramNames?_eq_some hnames
  obtain ⟨form, isAsync, generator, params, body⟩ := f
  obtain ⟨rfl, rfl⟩ : isAsync = false ∧ generator = false := by simpa using hflags
  obtain ⟨qs, hqs⟩ := exists_inParens callee
  obtain ⟨rs, hrs⟩ := exists_inParens argument
  obtain ⟨us, hus⟩ := exists_inParens result
  obtain ⟨ending, rfl, rfl, hleading⟩ := splitTree?_eq_some hresult
  let m : Mapping := ⟨t.strip.loc, qs, callee.strip.loc, receiver, optional, rs,
    argument.strip.loc, form, params, ending, us, result.strip⟩
  refine ⟨ps, m, ?_, ⟨hnames, hleading, hmarkup⟩, (Except.ok.inj h).symm⟩
  rw [hps]
  congr 1
  have hcb : Located.node argument.strip.loc
      (.lambda ⟨form, false, false, params, ending.body result⟩) = argument.strip := by
    rw [← hf, eta]
  have hcm : Located.node callee.strip.loc (.member receiver "map" optional) = callee.strip := by
    rw [← hmember, eta]
  rw [← eta t.strip, ht]
  simp only [Mapping.tree, Mapping.withCallback, Mapping.body, Mapping.callee, m, hcm, ← hqs,
    ← hus, hcb, ← hrs]

/-! ### The parts of a mapping call -/

def Ending.spare (ps : List Loc) (l : Loc) : Ending → Multiset Cell
  | .value => parenCells ps l
  | .block _ last => {⟨last, .returning (some (ps.headD l))⟩} + parenCells ps l

theorem Ending.cellsOf_body (ending : Ending) (ps : List Loc) (t : Located) :
    cellsOf (ending.body (inParens ps t)).children =
      cellsOf ending.leading + (t.cells + ending.spare ps t.loc) := by
  cases ending with
  | value =>
    simp only [body, leading, spare, Body.children, cellsOf_cons, cellsOf_nil, cells_inParens]
    abel
  | block leading last =>
    simp only [body, Ending.leading, spare, Body.children, cellsOf_append,
      cellsOf_cons, cellsOf_nil,
      cells_node, Node.children, Option.toList_some, Node.map, Option.map_some, loc_inParens,
      cells_inParens]
    abel

namespace Mapping

/-- The cells of a mapping call around its callback. -/
def around (m : Mapping) : Multiset Cell :=
  {⟨m.call, .call m.callee.loc [m.parens.headD m.callback]⟩} +
    (m.callee.cells + parenCells m.parens m.callback)

theorem cells_withCallback (m : Mapping) (params : List Binder) (body : Body Located) :
    (m.withCallback params body).cells = m.around +
      ({⟨m.callback, .lambda ⟨m.form, false, false, params, body.map loc⟩⟩} +
        cellsOf body.children) := by
  rw [withCallback, cells_node, around]
  simp only [Node.map, Node.children, List.map_cons, List.map_nil, loc_inParens, loc_node,
    cellsOf_cons, cellsOf_nil, cells_inParens, cells_node]
  abel

theorem receiver_occurs_callee (m : Mapping) : Occurs m.receiver m.callee :=
  .trans (.child (List.mem_singleton_self _) .self) (occurs_inParens m.calleeParens _)

theorem occurs_receiver (m : Mapping) (params : List Binder) (body : Body Located) :
    Occurs m.receiver (m.withCallback params body) :=
  .child List.mem_cons_self m.receiver_occurs_callee

theorem occurs_callback (m : Mapping) (params : List Binder) (body : Body Located) :
    Occurs (.node m.callback (.lambda ⟨m.form, false, false, params, body⟩))
      (m.withCallback params body) :=
  .child (List.mem_cons_of_mem _ (List.mem_singleton_self _)) (occurs_inParens m.parens _)

theorem occurs_body (m : Mapping) (params : List Binder) {body : Body Located} {t : Located}
    (ht : t ∈ body.children) : Occurs t (m.withCallback params body) :=
  .trans (.child ht .self) (m.occurs_callback params body)

theorem occurs_subtree (m : Mapping) : Occurs m.subtree m.tree := by
  obtain ⟨c, hc, hr⟩ := m.ending.occurs_body (inParens m.resultParens m.subtree)
  exact ((occurs_inParens m.resultParens m.subtree).trans hr).trans (m.occurs_body m.params hc)

theorem occurs_leading (m : Mapping) {t : Located} (ht : t ∈ m.leading) : Occurs t m.tree :=
  m.occurs_body m.params (m.ending.occurs_leading _ t ht)

theorem bare_tree (m : Mapping) : m.tree.Bare := fun inner => by simp [tree, withCallback]

theorem mapCallTree?_tree (m : Mapping) : mapCallTree? m.tree = some (m.receiver,
    [inParens m.parens (.node m.callback (.lambda ⟨m.form, false, false, m.params, m.body⟩))]) := by
  have hmember : Bare (.node m.member (.member m.receiver "map" m.optional)) := fun inner => by simp
  have hcallee : m.callee.strip.here = .member m.receiver "map" m.optional := by
    rw [callee, strip_inParens, hmember.strip, here_node]
  rw [tree, withCallback, mapCallTree?]
  simp only [here_node, hcallee]

theorem mapCallTree?_strip (m : Mapping) (parens : List Loc) :
    (mapCallTree? (inParens parens m.tree).strip).map Prod.fst = some m.receiver := by
  rw [strip_inParens, m.bare_tree.strip, m.mapCallTree?_tree, Option.map_some]

theorem splitTree?_body {ending : Ending} (h : ending.leading.any returns = false)
    (result : Located) : splitTree? (ending.body result) = some (ending.leading, result) := by
  cases ending with
  | value => rfl
  | block leading last =>
    simp only [Ending.leading] at h
    simp [Ending.body, splitTree?, Ending.leading, h]

theorem plainTree?_inParens (ps : List Loc) {t : Located} (h : ∀ inner, t.here ≠ .spread inner) :
    plainTree? [inParens ps t] = some (inParens ps t) := by
  cases ps with
  | nil =>
    show plainTree? [t] = some t
    rw [plainTree?]
    split
    · exact absurd ‹_› (h _)
    · rfl
  | cons p ps => rfl

theorem candidateTree?_tree {m : Mapping} (h : m.Valid) :
    candidateTree? m.tree = .ok m.candidate := by
  have hcallback : Bare (.node m.callback (.lambda ⟨m.form, false, false, m.params, m.body⟩)) :=
    fun inner => by simp
  have hargument := plainTree?_inParens m.parens
    (t := .node m.callback (.lambda ⟨m.form, false, false, m.params, m.body⟩)) fun inner => by simp
  have hbody : splitTree? m.body = some (m.leading, inParens m.resultParens m.subtree) :=
    splitTree?_body h.leading _
  simp only [candidateTree?, m.bare_tree.strip, m.mapCallTree?_tree, hargument, strip_inParens,
    hcallback.strip, here_node, loc_node, h.params, hbody, (bare_of_isMarkup h.markup).strip,
    h.markup]
  rfl

end Mapping

end JsxLoops.Loop
