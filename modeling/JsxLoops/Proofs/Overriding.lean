import JsxLoops.Proofs.Drafting

/-!
What an overridden item comes to. Object literals are evaluated entry by entry: a spread copies all
keys of a map, and a later entry wins over an earlier one. Then the copies that a record makes of
its item read, at the end of each merged path, what was merged there, and everywhere else what the
item reads. The argument goes along the tree of the paths, one copy at a time.
-/

namespace JsxLoops.Tree

/-! ### Values -/

/-- Maps from strings, nested in each other, and all other values. -/
inductive Value where
  | atom (id : Nat)
  | map (fields : String → Option Value)

namespace Value

def get? : Value → String → Option Value
  | .map fields, key => fields key
  | .atom _, _ => none

/-- What is found by taking one key after the other. -/
def read : Value → List String → Option Value
  | v, [] => some v
  | v, key :: path => (v.get? key).bind fun w => w.read path

@[simp] theorem read_nil (v : Value) : v.read [] = some v := rfl

@[simp] theorem read_cons (v : Value) (key : String) (path : List String) :
    v.read (key :: path) = (v.get? key).bind fun w => w.read path := rfl

theorem read_append (v : Value) (path more : List String) :
    v.read (path ++ more) = (v.read path).bind fun w => w.read more := by
  induction path generalizing v with
  | nil => rfl
  | cons key path ih =>
    rw [List.cons_append, read_cons, read_cons, Option.bind_assoc]
    exact congrArg _ (funext ih)

end Value

/-- What names stand for, and what the expressions come to that are there already. -/
structure Setting where
  names : String → Option Value
  known : Loc → Option Value

/-- Adds an entry of an object literal to the entries before it. -/
def addEntry (inside : Loc → Option Value) (fields : String → Option Value) :
    Entry Loc → Option (String → Option Value)
  | .pair (.name key) value _ => do
    let v ← inside value
    return fun k => if k = key then some v else fields k
  | .spread value => do
    match ← inside value with
    | .map more => return fun k => (more k).or (fields k)
    | .atom _ => none
  | _ => none

/-- How one node is evaluated: the first `old` nodes are known, and the others are names, members
and object literals. -/
def valueRule (old : Nat) (ρ : Setting) (inside : Loc → Option Value) (l : Loc) (n : Node Loc) :
    Option Value :=
  if l.index < old then ρ.known l
  else match n with
    | .name name => ρ.names name
    | .member object property false => (inside object).bind fun v => v.get? property
    | .object entries => (entries.foldlM (addEntry inside) fun _ => none).map Value.map
    | _ => none

/-- What an expression comes to that was added to the first `old` nodes of a store. -/
def Store.value (s : Store) (old : Nat) (ρ : Setting) (l : Loc) : Option Value :=
  s.read (valueRule old ρ) none l

/-- The node comes to a value. A new node stands after its children, so a reading that is deeper
than the place of the node is deep enough. -/
def Store.Comes (s : Store) (old : Nat) (ρ : Setting) (l : Loc) (v : Value) : Prop :=
  ∀ depth, l.index < depth → s.visit (valueRule old ρ) none depth l = some v

namespace Store.Comes

variable {s : Store} {old : Nat} {ρ : Setting} {l : Loc} {v w : Value}

theorem value_eq (h : s.Comes old ρ l v) (hl : l.index < s.size) : s.value old ρ l = some v :=
  h s.size hl

theorem of_rule
    (h : ∀ depth, l.index ≤ depth →
      valueRule old ρ (s.visit (valueRule old ρ) none depth) l (s.get l) = some v) :
    s.Comes old ρ l v := by
  intro depth hd
  obtain ⟨depth, rfl⟩ : ∃ k, depth = k + 1 := ⟨depth - 1, by omega⟩
  exact h depth (Nat.le_of_lt_succ hd)

theorem known (hl : l.index < old) (hv : ρ.known l = some v) : s.Comes old ρ l v :=
  of_rule fun _ _ => (if_pos hl).trans hv

theorem name {x : String} (h : s.Made old l (.name x)) (hv : ρ.names x = some v) :
    s.Comes old ρ l v :=
  of_rule fun depth _ => by rw [h.get, valueRule, if_neg (Nat.not_lt.2 h.new), hv]

theorem member {object : Loc} {property : String}
    (h : s.Made old l (.member object property false)) (ho : s.Comes old ρ object v)
    (hw : v.get? property = some w) : s.Comes old ρ l w := by
  refine of_rule fun depth hd => ?_
  have hbelow : object.index < l.index := h.below object (List.mem_singleton_self object)
  rw [h.get, valueRule, if_neg (Nat.not_lt.2 h.new), ho depth (hbelow.trans_le hd)]
  exact hw

theorem path {root : String} {properties : List String} (h : s.Spells old root properties l)
    (hv : ρ.names root = some v) (hw : v.read properties = some w) : s.Comes old ρ l w := by
  induction h generalizing w with
  | name h =>
    obtain rfl := Option.some.inj hw
    exact name h hv
  | member property h _ ih =>
    rw [Value.read_append] at hw
    obtain ⟨u, hu, hw⟩ := Option.bind_eq_some_iff.1 hw
    refine member h (ih hu) ?_
    simpa using hw

end Store.Comes

theorem foldlM_fields {inside : Loc → Option Value} {fields : List (String × Loc)}
    (hn : (fields.map Prod.fst).Nodup) {g : String × Loc → Value}
    (h : ∀ f ∈ fields, inside f.2 = some (g f)) (before : String → Option Value) :
    ∃ after, (fields.map fun f => Entry.field f.1 f.2).foldlM (addEntry inside) before =
        some after ∧
      (∀ f ∈ fields, after f.1 = some (g f)) ∧
      ∀ key ∉ fields.map Prod.fst, after key = before key := by
  induction fields generalizing before with
  | nil => exact ⟨before, rfl, nofun, fun _ _ => rfl⟩
  | cons f fields ih =>
    rw [List.map_cons, List.nodup_cons] at hn
    obtain ⟨after, hfold, hfields, hothers⟩ := ih hn.2
      (fun x hx => h x (List.mem_cons_of_mem f hx))
      (fun key => if key = f.1 then some (g f) else before key)
    refine ⟨after, ?_, ?_, fun key hkey => ?_⟩
    · rw [List.map_cons, List.foldlM_cons, Entry.field, addEntry, h f List.mem_cons_self]
      exact hfold
    · refine List.forall_mem_cons.2 ⟨?_, hfields⟩
      rw [hothers f.1 hn.1, if_pos rfl]
    · rw [List.map_cons, List.mem_cons, not_or] at hkey
      rw [hothers key hkey.2, if_neg hkey.1]

theorem Store.Comes.object {s : Store} {old : Nat} {ρ : Setting} {l whole : Loc}
    {fields : List (String × Loc)} {more : String → Option Value} {g : String × Loc → Value}
    (h : s.Made old l (.object (.spread whole :: fields.map fun f => .field f.1 f.2)))
    (hn : (fields.map Prod.fst).Nodup) (hwhole : s.Comes old ρ whole (.map more))
    (hfields : ∀ f ∈ fields, s.Comes old ρ f.2 (g f)) :
    ∃ after, s.Comes old ρ l (.map after) ∧ (∀ f ∈ fields, after f.1 = some (g f)) ∧
      ∀ key ∉ fields.map Prod.fst, after key = more key := by
  have hbelow := h.below
  rw [Node.children, List.flatMap_cons, Loop.children_fields] at hbelow
  have hfold (depth : Nat) (hd : l.index ≤ depth) :
      ∃ after, ((Entry.spread whole :: fields.map fun f => Entry.field f.1 f.2).foldlM
          (addEntry (s.visit (valueRule old ρ) none depth)) fun _ => none) = some after ∧
        (∀ f ∈ fields, after f.1 = some (g f)) ∧
        ∀ key ∉ fields.map Prod.fst, after key = more key := by
    obtain ⟨after, hfold, hafter⟩ := foldlM_fields hn
      (fun f hf => hfields f hf depth
        ((hbelow _ (List.mem_cons_of_mem _ (List.mem_map_of_mem hf))).trans_le hd)) more
    refine ⟨after, ?_, hafter⟩
    rw [List.foldlM_cons, addEntry, hwhole depth ((hbelow _ List.mem_cons_self).trans_le hd)]
    simpa using hfold
  obtain ⟨after, -, hnames, hothers⟩ := hfold l.index le_rfl
  refine ⟨after, of_rule fun depth hd => ?_, hnames, hothers⟩
  -- deeper readings give the same map, since its keys are settled
  obtain ⟨after', hfold', hnames', hothers'⟩ := hfold depth hd
  have hsame : after' = after := by
    funext key
    by_cases hkey : key ∈ fields.map Prod.fst
    · obtain ⟨f, hf, rfl⟩ := List.mem_map.1 hkey
      rw [hnames f hf, hnames' f hf]
    · rw [hothers key hkey, hothers' key hkey]
  rw [h.get, valueRule, if_neg (Nat.not_lt.2 h.new), ← hsame]
  exact congrArg (Option.map Value.map) hfold'

end JsxLoops.Tree

namespace JsxLoops.Loop

open JsxLoops.Tree

variable {s : Store} {old : Nat} {ρ : Setting} {l : Loc} {item keyToken : String} {v : Value}

/-! ### Copies -/

/-- Every proper beginning of the paths leads to a map. -/
def Value.Along (v : Value) (base : List String) (entries : List (List String × Loc)) : Prop :=
  ∀ e ∈ entries, ∀ q, q <+: e.1 → q ≠ e.1 → ∃ fields, v.read (base ++ q) = some (.map fields)

/-- The value reads what is known of the merged nodes at the ends of their paths, and apart from
the paths what `v` reads from `base` on. -/
structure Value.Overridden (w v : Value) (ρ : Setting) (base : List String)
    (entries : List (List String × Loc)) : Prop where
  merged : ∀ e ∈ entries, w.read e.1 = ρ.known e.2
  others : ∀ q, (∀ e ∈ entries, overlap e.1 q = false) → w.read q = v.read (base ++ q)

theorem Copies.comes {base tail : List String} {entries : List (List String × Loc)}
    (h : Copies s old base entries l) (hbase : base = item :: tail) (hne : entries ≠ [])
    (hv : ρ.names item = some v) (halong : Value.Along v tail entries)
    (hknown : ∀ e ∈ entries, ∃ u, ρ.known e.2 = some u) :
    ∃ w, s.Comes old ρ l w ∧ Value.Overridden w v ρ tail entries := by
  induction h generalizing tail with
  | @value base call hcall =>
    obtain ⟨u, hu⟩ := hknown _ (List.mem_singleton_self _)
    refine ⟨u, .known hcall hu, ⟨List.forall_mem_singleton.2 hu.symm, fun q hq => ?_⟩⟩
    have hq := hq _ (List.mem_singleton_self _)
    rw [overlap_nil_left] at hq
    cases hq
  | @copy base entries whole l fields h hpaths hwhole hnames _ ih =>
    subst hbase
    obtain ⟨e₀, he₀⟩ := List.exists_mem_of_ne_nil entries hne
    obtain ⟨more, hmore⟩ := halong e₀ he₀ [] List.nil_prefix (hpaths e₀ he₀).symm
    rw [List.append_nil] at hmore
    have hnodup : (fields.map Prod.fst).Nodup := hnames ▸ nodup_pathHeads entries
    -- the values under the first properties, by the induction hypothesis
    have hinner : ∀ f ∈ fields, ∃ w, s.Comes old ρ f.2 w ∧
        Value.Overridden w v ρ (tail ++ [f.1]) (pathsUnder f.1 entries) := by
      intro f hf
      obtain ⟨path, x, hx⟩ := mem_pathHeads.1 (hnames ▸ List.mem_map_of_mem hf)
      have hmem : (path, x) ∈ pathsUnder f.1 entries := mem_pathsUnder.2 hx
      refine ih f hf rfl (List.ne_nil_of_mem hmem) ?_ ?_
      · intro e he q hq hne
        obtain ⟨m, hm⟩ := halong _ (mem_pathsUnder.1 he) (f.1 :: q) ((List.prefix_cons_inj _).2 hq)
          fun h => hne (List.cons.inj h).2
        exact ⟨m, by rwa [List.append_assoc]⟩
      · exact fun e he => hknown (f.1 :: e.1, e.2) (mem_pathsUnder.1 he)
    let : Inhabited Value := ⟨.atom 0⟩
    choose! g hg using hinner
    obtain ⟨after, hafter, hfields, hothers⟩ := Store.Comes.object h hnodup
      (.path hwhole hv hmore) fun f hf => (hg f hf).1
    refine ⟨.map after, hafter, ⟨fun e he => ?_, fun q hq => ?_⟩⟩
    · obtain ⟨key, path, hpath⟩ := List.exists_cons_of_ne_nil (hpaths e he)
      have hmem : (key :: path, e.2) ∈ entries := hpath ▸ he
      have hkey : key ∈ fields.map Prod.fst := hnames ▸ mem_pathHeads.2 ⟨path, e.2, hmem⟩
      obtain ⟨f, hf, rfl⟩ := List.mem_map.1 hkey
      rw [hpath, Value.read_cons, Value.get?, hfields f hf]
      exact (hg f hf).2.merged (path, e.2) (mem_pathsUnder.2 hmem)
    · cases q with
      | nil =>
        have hq := hq e₀ he₀
        rw [overlap_nil_right] at hq
        cases hq
      | cons key q =>
        rw [Value.read_cons, Value.get?]
        by_cases hkey : key ∈ fields.map Prod.fst
        · obtain ⟨f, hf, rfl⟩ := List.mem_map.1 hkey
          rw [hfields f hf, List.append_cons]
          refine (hg f hf).2.others q fun e he => ?_
          rw [← overlap_cons f.1]
          exact hq _ (mem_pathsUnder.1 he)
        · rw [hothers key hkey, Value.read_append, hmore]
          rfl

/-! ### Merges -/

/-- What a merge that was accepted puts where. -/
def mergedAt? (e : Request × Answer) : Option (List String × Loc) :=
  match e with
  | (.mergeAt _ path call, .accepted) => some (path, call)
  | _ => none

theorem Drafted.itemValue {first : Store} {history : List (Request × Answer)} {d : Draft}
    (h : Drafted first { item, keyToken } history s d)
    (hmerges : ∀ e ∈ history, e.1.path? ≠ none) :
    history.filterMap mergedAt? = [] ∧ d.itemValue = .raw ∨
      history.filterMap mergedAt? ≠ [] ∧
        d.itemValue = .overridden (history.filterMap mergedAt?) := by
  induction h with
  | nil => exact .inl ⟨rfl, rfl⟩
  | @snoc history s s' d d' op a _ _ hp ih =>
    rw [List.forall_mem_append, List.forall_mem_singleton] at hmerges
    have ih := ih hmerges.1
    rw [List.filterMap_append]
    cases hp with
    | mergeAt source path call entries hentries =>
      refine .inr ⟨List.append_ne_nil_of_right_ne_nil _ (List.cons_ne_nil _ _), ?_⟩
      have hentries : entries = history.filterMap mergedAt? := by
        rcases hentries with ⟨hraw, rfl⟩ | ⟨hover, -⟩
        · rcases ih with ⟨hnil, -⟩ | ⟨-, hover⟩
          · exact hnil.symm
          · rw [hraw] at hover
            cases hover
        · rcases ih with ⟨-, hraw⟩ | ⟨-, hover'⟩
          · rw [hraw] at hover
            cases hover
          · exact ItemValue.overridden.inj (hover.symm.trans hover')
      rw [hentries]
      rfl
    | refused =>
      have hnone : [(op, Answer.refused)].filterMap mergedAt? = [] := by
        cases op <;> rfl
      rwa [hnone, List.append_nil]
    | dynamic | style | noted | known | merge | named => exact absurd rfl hmerges.2

theorem overlap_eq_false_iff {p q : List String} :
    overlap p q = false ↔ ¬ p <+: q ∧ ¬ q <+: p := by
  simp [overlap, List.isPrefixOf_iff_prefix, ← Bool.not_eq_true]

/-- Merging into properties of the item overrides them and nothing else. The accepted paths do not
overlap. Where the item has maps on the way to them, what the record holds under the item's name
reads each merged value at the end of its path, and on all paths beside them what the item reads. -/
theorem Draft.performAll_overrides (item keyToken : String)
    (merges : List (Loc × List String × Loc)) (s : Store)
    (hpaths : ∀ m ∈ merges, m.2.1 ≠ []) (hcalls : ∀ m ∈ merges, m.2.2.index < s.size) :
    let ops := merges.map fun m => Request.mergeAt m.1 m.2.1 m.2.2
    let r := Draft.performAll { item, keyToken } ops s
    let accepted := (ops.zip r.1.1).filterMap mergedAt?
    let s' := (r.1.2.build r.2).2
    accepted.Pairwise (fun a b => ¬ a.1 <+: b.1 ∧ ¬ b.1 <+: a.1) ∧
      ∀ (ρ : Setting) (v : Value), ρ.names item = some v →
        (∀ e ∈ accepted, ∀ q, q <+: e.1 → q ≠ e.1 → ∃ fields, v.read q = some (.map fields)) →
        (∀ e ∈ accepted, ∃ u, ρ.known e.2 = some u) →
        ∃ value rest w, s'.get (r.1.2.build r.2).1 = .object (.field item value :: rest) ∧
          s'.value r.2.size ρ value = some w ∧ (∀ e ∈ accepted, w.read e.1 = ρ.known e.2) ∧
          ∀ q, (∀ e ∈ accepted, ¬ e.1 <+: q ∧ ¬ q <+: e.1) → w.read q = v.read q := by
  intro ops r accepted s'
  obtain ⟨hlength, hdrafted⟩ := Draft.drafted item keyToken ops s
  have hops : ∀ e ∈ ops.zip r.1.1, ∃ m ∈ merges, e.1 = .mergeAt m.1 m.2.1 m.2.2 := fun e he => by
    obtain ⟨m, hm, he⟩ := List.mem_map.1 (List.of_mem_zip he).1
    exact ⟨m, hm, he.symm⟩
  have hstocked := hdrafted.stocked
    (fun e he path hpath => by
      obtain ⟨m, hm, he⟩ := hops e he
      rw [he] at hpath
      obtain rfl := Option.some.inj hpath
      exact hpaths m hm)
    (fun e he call hcall => by
      obtain ⟨m, hm, he⟩ := hops e he
      rw [he] at hcall
      obtain rfl := Option.some.inj hcall
      exact hcalls m hm)
  have hitem := hdrafted.itemValue fun e he => by
    obtain ⟨m, -, he⟩ := hops e he
    rw [he]
    exact Option.some_ne_none _
  obtain ⟨hextends, value, hvalue, key, -, hrecord⟩ := (Leads.build hstocked.sound).elim
  rw [hdrafted.keeps.ofItem] at hvalue hrecord
  have hbound : value.index < s'.size := hvalue.bound hextends.size
  refine ⟨?_, fun ρ v hv halong hknown => ?_⟩
  · rcases hitem with ⟨hnil, -⟩ | ⟨-, hover⟩
    · rw [show accepted = [] from hnil]
      exact .nil
    · exact (hstocked.sound.apart _ hover).apart.imp overlap_eq_false_iff.1
  · rcases hitem with ⟨hnil, hraw⟩ | ⟨hne, hover⟩
    · rw [hraw] at hvalue
      cases hvalue with
      | raw hname =>
        refine ⟨value, _, v, hrecord.get, (Store.Comes.name hname hv).value_eq hbound, ?_,
          fun _ _ => rfl⟩
        intro e he
        rw [show accepted = [] from hnil] at he
        cases he
    · rw [hover] at hvalue
      cases hvalue with
      | overridden hcopies =>
        obtain ⟨w, hw, hread⟩ := hcopies.comes rfl hne hv halong hknown
        refine ⟨value, _, w, hrecord.get, hw.value_eq hbound, hread.merged, fun q hq => ?_⟩
        exact hread.others q fun e he => overlap_eq_false_iff.2 (hq e he)

/-- Merges into two properties that lie side by side and into a third one, with one between them
that overlaps. -/
def sideBySide : List (Loc × List String × Loc) :=
  [(⟨0⟩, ["info", "rows"], ⟨1⟩), (⟨0⟩, ["info"], ⟨2⟩), (⟨0⟩, ["list"], ⟨2⟩),
    (⟨0⟩, ["info", "cells"], ⟨3⟩)]

def sideStore : Store := ⟨#[.name "row", .name "rows", .name "list", .name "cells"]⟩

def sideItem : Value := .map fun
  | "info" => some (.map fun
    | "rows" => some (.atom 1)
    | "count" => some (.atom 2)
    | _ => none)
  | "list" => some (.atom 3)
  | _ => none

def sideSetting : Setting where
  names _ := some sideItem
  known l := some (.atom (10 + l.index))

theorem sideBySide_overrides :
    let r := Draft.performAll { item := "row", keyToken := "_key0" }
      (sideBySide.map fun m => .mergeAt m.1 m.2.1 m.2.2) sideStore
    (∀ m ∈ sideBySide, m.2.1 ≠ []) ∧ (∀ m ∈ sideBySide, m.2.2.index < sideStore.size) ∧
      r.1.1 = [.accepted, .refused, .accepted, .accepted] ∧
      ∃ value rest w,
        (r.1.2.build r.2).2.get (r.1.2.build r.2).1 = .object (.field "row" value :: rest) ∧
        (r.1.2.build r.2).2.value r.2.size sideSetting value = some w ∧
        w.read ["info", "rows"] = some (.atom 11) ∧ w.read ["info", "cells"] = some (.atom 13) ∧
        w.read ["list"] = some (.atom 12) ∧ w.read ["info", "count"] = some (.atom 2) := by
  intro r
  have hpaths : ∀ m ∈ sideBySide, m.2.1 ≠ [] := by decide
  have hcalls : ∀ m ∈ sideBySide, m.2.2.index < sideStore.size := by decide
  have hanswers : r.1.1 = [.accepted, .refused, .accepted, .accepted] := by cbv
  have haccepted : ((sideBySide.map fun m => Request.mergeAt m.1 m.2.1 m.2.2).zip
      r.1.1).filterMap mergedAt? =
        [(["info", "rows"], ⟨1⟩), (["list"], ⟨2⟩), (["info", "cells"], ⟨3⟩)] := by
    rw [hanswers]
    rfl
  obtain ⟨-, hreads⟩ :=
    Draft.performAll_overrides "row" "_key0" sideBySide sideStore hpaths hcalls
  rw [haccepted] at hreads
  have halong : ∀ e ∈ [(["info", "rows"], (⟨1⟩ : Loc)), (["list"], ⟨2⟩), (["info", "cells"], ⟨3⟩)],
      ∀ q, q <+: e.1 → q ≠ e.1 → ∃ fields, sideItem.read q = some (.map fields) := by
    intro e he q hq hne
    rw [← List.mem_inits] at hq
    fin_cases he <;> fin_cases hq <;> first | exact absurd rfl hne | exact ⟨_, rfl⟩
  obtain ⟨value, rest, w, hrecord, hvalue, hmerged, hothers⟩ :=
    hreads sideSetting sideItem rfl halong (by simp [sideSetting])
  refine ⟨hpaths, hcalls, hanswers, value, rest, w, hrecord, hvalue,
    hmerged (["info", "rows"], ⟨1⟩) (by simp), hmerged (["info", "cells"], ⟨3⟩) (by simp),
    hmerged (["list"], ⟨2⟩) (by simp), ?_⟩
  rw [hothers ["info", "count"] (by decide)]
  rfl

end JsxLoops.Loop
