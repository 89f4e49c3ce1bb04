import JsxLoops.Proofs.Editing
import JsxLoops.Proofs.Shape
import JsxLoops.Tree.Build

/-!
Templates are trees. Building a phrase puts every node in a fresh place, and a node takes over the
locations of its parts, each of them once. So the store of a template that was parsed is tree-shaped
below its root.
-/

namespace JsxLoops.Tree

open Located JsxLoops.Surface

deriving instance DecidableEq for Store

deriving instance DecidableEq for Template

variable {α β : Type}

/-! ### Planting -/

/-- Given owned trees at some locations, a computation ends with owned trees at the locations that
its value holds, and what is owned beside them stays so. -/
def Plants (given : List Loc) (e : Edit α) (held : α → List Loc) : Prop :=
  ∀ (s : Store) (ts : List Located) (rest : Multiset Cell), ts.map loc = given →
    s.Owns (cellsOf ts + rest) → ∃ a s' us, Runs e s a s' ∧ us.map loc = held a ∧
      s'.Owns (cellsOf us + rest)

namespace Plants

variable {given : List Loc} {held : α → List Loc} {kept : β → List Loc}

theorem pure {a : α} (h : held a = given) : Plants given (Pure.pure a) held :=
  fun s ts _ hts hown => ⟨a, s, ts, .pure a s, hts.trans h.symm, hown⟩

theorem bind {e : Edit α} {f : α → Edit β} (he : Plants [] e held)
    (hf : ∀ a, Plants (given ++ held a) (f a) kept) : Plants given (e >>= f) kept := by
  intro s ts rest hts hown
  obtain ⟨a, s', us, hrun, hus, hown'⟩ := he s [] (cellsOf ts + rest) rfl (by simpa using hown)
  obtain ⟨b, s'', vs, hrun', hvs, hown''⟩ := hf a s' (ts ++ us) rest (by simp [hts, hus])
    (hown'.congr (by rw [cellsOf_append]; abel))
  exact ⟨b, s'', vs, hrun.bind hrun', hvs, hown''⟩

theorem through {e : Edit α} {f : α → Edit β} (he : Plants given e held)
    (hf : ∀ a, Plants (held a) (f a) kept) : Plants given (e >>= f) kept := by
  intro s ts rest hts hown
  obtain ⟨a, s', us, hrun, hus, hown'⟩ := he s ts rest hts hown
  obtain ⟨b, s'', vs, hrun', hvs, hown''⟩ := hf a s' us rest hus hown'
  exact ⟨b, s'', vs, hrun.bind hrun', hvs, hown''⟩

theorem add {n : Node Loc} (h : n.children = given) : Plants given (Edit.add n) fun l => [l] := by
  intro s ts rest hts hown
  obtain ⟨hchildren, hhead⟩ := refill_roots (hts.trans h.symm)
  obtain ⟨t, s', hrun, -, hown', -⟩ := Gives.add (n.refill ts) (hchildren.symm ▸ hown)
  rw [hhead] at hrun
  exact ⟨t.loc, s', [t], hrun, rfl, by simpa using hown'⟩

theorem mapM {f : β → Edit α} (h : ∀ x, Plants [] (f x) held) (xs : List β) :
    Plants [] (xs.mapM f) fun as => as.flatMap held := by
  induction xs with
  | nil => exact .pure rfl
  | cons x xs ih =>
    rw [List.mapM_cons]
    exact .bind (h x) fun a => .bind ih fun as => .pure List.flatMap_cons

theorem mapM_id {f : β → Edit Loc} (h : ∀ x, Plants [] (f x) fun l => [l]) (xs : List β) :
    Plants [] (xs.mapM f) id := by
  simpa [Function.id_def] using mapM h xs

end Plants

/-! ### Building -/

section

variable {source : List Char} {inside : Phrase → Edit Loc}

theorem keepVerbatim_plants (p : Phrase) : Plants [] (keepVerbatim source p) fun l => [l] :=
  .add rfl

theorem buildEntry_plants (h : ∀ p, Plants [] (inside p) fun l => [l]) (p : Phrase) :
    Plants [] (buildEntry source inside p) Entry.children := by
  rw [buildEntry]
  split
  case h_1 => exact .bind (h _) fun _ => .bind (h _) fun _ => .pure rfl
  case h_2 | h_3 | h_4 => exact .bind (h _) fun _ => .pure rfl
  case h_5 => exact .bind (keepVerbatim_plants p) fun _ => .pure rfl

theorem buildAttributeValue_plants (h : ∀ p, Plants [] (inside p) fun l => [l]) (p : Phrase) :
    Plants [] (buildAttributeValue source inside p) AttributeValue.children := by
  rw [buildAttributeValue]
  split
  case h_1 => exact .pure rfl
  case h_2 | h_3 => exact .bind (h _) fun _ => .pure rfl

theorem buildAttribute_plants (h : ∀ p, Plants [] (inside p) fun l => [l]) (p : Phrase) :
    Plants [] (buildAttribute source inside p) Attribute.children := by
  rw [buildAttribute]
  split
  case h_1 => exact .bind (buildAttributeValue_plants h _) fun _ => .pure rfl
  case h_2 => exact .pure rfl
  case h_3 => exact .bind (h _) fun _ => .pure rfl
  case h_4 => exact .bind (keepVerbatim_plants p) fun _ => .pure rfl

theorem buildDeclarator_plants (h : ∀ p, Plants [] (inside p) fun l => [l]) (p : Phrase) :
    Plants [] (buildDeclarator source inside p) fun d => d.value.toList := by
  rw [buildDeclarator]
  split
  case h_1 => exact .bind (h _) fun _ => .pure rfl
  case h_2 | h_3 => exact .pure rfl

theorem buildLambda_plants {form : LambdaForm} {isAsync generator : Bool} {params : Phrase}
    {body : Edit (Body Loc)} (h : Plants [] body Body.children) :
    Plants [] (buildLambda source form isAsync generator params body) fun l => [l] :=
  .bind h fun _ => .add rfl

theorem buildNode_plants (h : ∀ p, Plants [] (inside p) fun l => [l]) (p : Phrase) :
    Plants [] (buildNode source inside p) fun l => [l] := by
  have hkept : Plants [] (keepVerbatim source p) fun l => [l] := keepVerbatim_plants p
  have hall := Plants.mapM_id h
  rw [buildNode]
  split
  -- a node without parts, or with as many as its construct has
  case h_1 | h_2 | h_19 | h_20 | h_23 => exact .add rfl
  case h_3 | h_8 | h_10 | h_14 | h_21 | h_22 | h_24 => exact .bind (h _) fun _ => .add rfl
  case h_4 | h_11 | h_12 | h_26 => exact .bind (h _) fun _ => .bind (h _) fun _ => .add rfl
  case h_13 | h_27 =>
    exact .bind (h _) fun _ => .bind (h _) fun _ => .bind (h _) fun _ => .add rfl
  -- lists of parts
  case h_18 | h_28 => exact .bind (hall _) fun _ => .add rfl
  case h_25 =>
    refine .bind (.mapM (buildDeclarator_plants h) _) fun ds => .add ?_
    exact List.filterMap_eq_flatMap_toList Declarator.value ds
  case h_17 =>
    exact .bind (.mapM (buildAttribute_plants h) _) fun _ => .bind (hall _) fun _ => .add rfl
  -- constructs that are kept verbatim unless they are plain
  case h_5 =>
    split
    · exact .bind (h _) fun _ => .bind (hall _) fun _ => .add rfl
    · exact hkept
  case h_6 =>
    split
    · exact .bind (h _) fun _ => .through (.add rfl) fun _ => .bind (hall _) fun _ => .add rfl
    · exact hkept
  case h_7 =>
    split
    · exact hkept
    · exact .bind (hall _) fun _ => .add rfl
  case h_9 =>
    split
    · exact .bind (.mapM (buildEntry_plants h) _) fun _ => .add rfl
    · exact hkept
  case h_15 =>
    split
    · exact buildLambda_plants (.bind (h _) fun _ => .pure rfl)
    · exact hkept
  case h_16 =>
    split
    · exact buildLambda_plants (.bind (hall _) fun _ => .pure rfl)
    · exact hkept
  case h_29 => exact hkept

theorem buildTo_plants (depth : Nat) (p : Phrase) :
    Plants [] (buildTo source depth p) fun l => [l] := by
  induction depth generalizing p with
  | zero => exact keepVerbatim_plants p
  | succ depth ih => exact buildNode_plants ih p

end

theorem Template.isTree_of_parse {source : List Char} {template : Template}
    (h : Template.parse source = some template) : template.store.IsTree template.root := by
  obtain ⟨p, -, rfl⟩ := Option.map_eq_some_iff.1 h
  have hplants : Plants [] (buildTo source (depthFor source) p) fun l => [l] := buildTo_plants _ p
  obtain ⟨root, s, us, hrun, hus, hown⟩ := hplants .empty [] 0 rfl ⟨by simp, by simp, by simp⟩
  obtain ⟨t, rfl⟩ := List.length_eq_one_iff.1 (by simpa using congrArg List.length hus)
  have hstore : (buildTo source (depthFor source) p).run .empty = (t.loc, s) := by
    rw [List.singleton_inj.1 hus]
    exact hrun
  rw [hstore]
  exact Store.isTree_iff.2 ⟨t, rfl, by simpa using hown⟩

end JsxLoops.Tree
