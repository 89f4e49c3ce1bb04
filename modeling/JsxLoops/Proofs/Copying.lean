import JsxLoops.Proofs.Records

/-!
Building in any store. Building a record adds nodes and changes none, whatever hangs in the store
and however it is shared: nothing here asks for trees. `Spells` and `Copies` say which nodes are
added for the item: members from its name on, and shallow copies with values at the ends of paths.
-/

namespace JsxLoops.Tree

variable {α β : Type} {s s' : Store} {old : Nat} {l : Loc} {n : Node Loc}

/-- The edit only adds nodes, and of its answer and the store at its end something holds. -/
def Leads (e : Edit α) (s : Store) (P : α → Store → Prop) : Prop :=
  ∃ a s', Runs e s a s' ∧ s.Extends s' ∧ P a s'

namespace Leads

variable {P : α → Store → Prop} {Q : β → Store → Prop}

theorem pure {a : α} (h : P a s) : Leads (Pure.pure a) s P := ⟨a, s, .pure a s, .refl s, h⟩

theorem bind {e : Edit α} {f : α → Edit β} (he : Leads e s P)
    (hf : ∀ a s', s.Extends s' → P a s' → Leads (f a) s' Q) : Leads (e >>= f) s Q := by
  obtain ⟨a, s', hrun, hle, hp⟩ := he
  obtain ⟨b, s'', hrun', hle', hq⟩ := hf a s' hle hp
  exact ⟨b, s'', hrun.bind hrun', hle.trans hle', hq⟩

theorem mono {e : Edit α} {P' : α → Store → Prop} (he : Leads e s P)
    (h : ∀ a s', s.Extends s' → P a s' → P' a s') : Leads e s P' := by
  obtain ⟨a, s', hrun, hle, hp⟩ := he
  exact ⟨a, s', hrun, hle, h a s' hle hp⟩

theorem elim {e : Edit α} (he : Leads e s P) : s.Extends (e s).2 ∧ P (e s).1 (e s).2 := by
  obtain ⟨a, s', hrun, hle, hp⟩ := he
  rw [show e s = (a, s') from hrun]
  exact ⟨hle, hp⟩

end Leads

/-- A node that is not among the first `old` ones, and was added after its children. -/
structure Store.Made (s : Store) (old : Nat) (l : Loc) (n : Node Loc) : Prop where
  new : old ≤ l.index
  bound : l.index < s.size
  get : s.get l = n
  below : ∀ c ∈ n.children, c.index < l.index

theorem Store.Made.extend (h : s.Made old l n) (he : s.Extends s') : s'.Made old l n :=
  ⟨h.new, h.bound.trans_le he.size, (he.get l h.bound).trans h.get, h.below⟩

theorem Leads.add (hold : old ≤ s.size) (hn : ∀ c ∈ n.children, c.index < s.size) :
    Leads (Edit.add n) s fun l s' => s'.Made old l n := by
  refine ⟨⟨s.size⟩, (s.add n).2, rfl, s.extends_add n, hold, ?_, s.get_add_new n, hn⟩
  rw [Store.size_add]
  exact Nat.lt_succ_self _

theorem Leads.name (text : String) (hold : old ≤ s.size) :
    Leads (Edit.add (.name text)) s fun l s' => s'.Made old l (.name text) :=
  Leads.add hold (List.forall_mem_nil _)

/-! ### Paths -/

/-- Members taken one after the other from a root name, all of them added. -/
inductive Store.Spells (s : Store) (old : Nat) (root : String) : List String → Loc → Prop
  | name {l : Loc} (h : s.Made old l (.name root)) : Spells s old root [] l
  | member {properties : List String} {object l : Loc} (property : String)
    (h : s.Made old l (.member object property false))
    (ho : Spells s old root properties object) : Spells s old root (properties ++ [property]) l

variable {root : String} {properties : List String}

theorem Store.Spells.extend (h : s.Spells old root properties l) (he : s.Extends s') :
    s'.Spells old root properties l := by
  induction h with
  | name h => exact .name (h.extend he)
  | member property h _ ih => exact .member property (h.extend he) ih

theorem Store.Spells.bound (h : s.Spells old root properties l) : l.index < s.size := by
  cases h with
  | name h => exact h.bound
  | member property h => exact h.bound

theorem Leads.members (more : List String) (hold : old ≤ s.size)
    (h : s.Spells old root properties l) :
    Leads (Edit.members l more) s fun l' s' => s'.Spells old root (properties ++ more) l' := by
  induction more generalizing properties l s with
  | nil =>
    rw [List.append_nil]
    exact .pure h
  | cons property more ih =>
    rw [List.append_cons]
    refine .bind (Leads.add (n := .member l property false) hold ?_) fun l' s' he h' => ?_
    · exact fun c hc => List.mem_singleton.1 hc ▸ h.bound
    · exact ih (hold.trans he.size) (.member property h' (h.extend he))

theorem Leads.path (root : String) (properties : List String) (hold : old ≤ s.size) :
    Leads (Edit.path root properties) s fun l s' => s'.Spells old root properties l := by
  refine .bind (Leads.name root hold) fun l s' he h => ?_
  exact Leads.members properties (hold.trans he.size) (.name h)

end JsxLoops.Tree

namespace JsxLoops.Loop

open JsxLoops.Tree

variable {s s' : Store} {old : Nat} {l : Loc} {base : List String}
  {entries : List (List String × Loc)}

/-! ### Copies -/

/-- The values stand at the ends of their paths from `base`, in copies of what is on the way. -/
inductive Copies (s : Store) (old : Nat) : List String → List (List String × Loc) → Loc → Prop
  | value (base : List String) {v : Loc} (hv : v.index < old) : Copies s old base [([], v)] v
  | copy {base : List String} {entries : List (List String × Loc)} {whole l : Loc}
    {fields : List (String × Loc)}
    (h : s.Made old l (.object (.spread whole :: fields.map fun f => .field f.1 f.2)))
    (hpaths : ∀ e ∈ entries, e.1 ≠ [])
    (hwhole : s.Spells old (base.headD "") base.tail whole)
    (hnames : fields.map Prod.fst = pathHeads entries)
    (hfields : ∀ f ∈ fields, Copies s old (base ++ [f.1]) (pathsUnder f.1 entries) f.2) :
    Copies s old base entries l

theorem Copies.extend (h : Copies s old base entries l) (he : s.Extends s') :
    Copies s' old base entries l := by
  induction h with
  | value base hv => exact .value base hv
  | copy h hpaths hwhole hnames _ ih =>
    exact .copy (h.extend he) hpaths (hwhole.extend he) hnames ih

theorem Copies.bound (h : Copies s old base entries l) (hold : old ≤ s.size) :
    l.index < s.size := by
  cases h with
  | value base hv => exact hv.trans_le hold
  | copy h => exact h.bound

theorem children_fields (fields : List (String × Loc)) :
    (fields.map fun f => Entry.field f.1 f.2).flatMap Entry.children = fields.map Prod.snd := by
  rw [List.flatMap_map, List.map_eq_flatMap]
  rfl

theorem Leads.overrideFields {depth : Nat} {heads : List String} (hold : old ≤ s.size)
    (hstep : ∀ x ∈ heads, ∀ s', s.Extends s' → Leads (overrideAt depth base entries x) s'
      fun l s'' => Copies s'' old (base ++ [x]) (pathsUnder x entries) l) :
    Leads (heads.mapM fun x => do return Entry.field x (← overrideAt depth base entries x)) s
      fun es s' => ∃ fields : List (String × Loc), es = fields.map (fun f => .field f.1 f.2) ∧
        fields.map Prod.fst = heads ∧
        ∀ f ∈ fields, Copies s' old (base ++ [f.1]) (pathsUnder f.1 entries) f.2 := by
  induction heads generalizing s with
  | nil => exact .pure ⟨[], rfl, rfl, List.forall_mem_nil _⟩
  | cons x heads ih =>
    rw [List.mapM_cons]
    refine .bind (.bind (hstep x List.mem_cons_self s (.refl s)) fun l s₁ _ hl =>
      .pure (P := fun e s₁ => ∃ l, e = Entry.field x l ∧
        Copies s₁ old (base ++ [x]) (pathsUnder x entries) l) ⟨l, rfl, hl⟩) ?_
    rintro _ s₁ he ⟨l, rfl, hl⟩
    refine .bind (ih (hold.trans he.size) fun y hy s' he' =>
      hstep y (List.mem_cons_of_mem x hy) s' (he.trans he')) ?_
    rintro _ s₂ he' ⟨fields, rfl, rfl, hfields⟩
    refine .pure ⟨(x, l) :: fields, rfl, rfl, ?_⟩
    -- the first value is still there, since the others only added nodes
    exact List.forall_mem_cons.2 ⟨hl.extend he', hfields⟩

theorem Leads.overrideCopy {depth : Nat} (hold : old ≤ s.size) (hpaths : ∀ e ∈ entries, e.1 ≠ [])
    (hstep : ∀ x ∈ pathHeads entries, ∀ s', s.Extends s' →
      Leads (overrideAt depth base entries x) s'
        fun l s'' => Copies s'' old (base ++ [x]) (pathsUnder x entries) l) :
    Leads (Loop.overrideTo (depth + 1) base entries) s
      fun l s' => Copies s' old base entries l := by
  rw [overrideTo_succ]
  refine .bind (Leads.path (base.headD "") base.tail hold) fun whole s₁ he₁ hwhole => ?_
  have hold₁ := hold.trans he₁.size
  refine .bind (Leads.overrideFields hold₁ fun x hx s' he => hstep x hx s' (he₁.trans he)) ?_
  rintro _ s₂ he₂ ⟨fields, rfl, hnames, hfields⟩
  have hold₂ := hold₁.trans he₂.size
  refine (Leads.add hold₂ ?_).mono fun l s₃ he₃ h => ?_
  · intro c hc
    rw [Node.children, List.flatMap_cons, children_fields] at hc
    rcases List.mem_cons.1 hc with rfl | hc
    · exact (hwhole.extend he₂).bound
    · obtain ⟨f, hf, rfl⟩ := List.mem_map.1 hc
      exact (hfields f hf).bound hold₂
  · exact .copy h hpaths (hwhole.extend (he₂.trans he₃)) hnames fun f hf =>
      (hfields f hf).extend he₃

theorem Leads.overrideTo {depth : Nat} (hold : old ≤ s.size) (ha : ItemTree.Apart entries)
    (hv : ∀ e ∈ entries, e.2.index < old) (hd : ∀ e ∈ entries, e.1.length ≤ depth) :
    Leads (Loop.overrideTo (depth + 1) base entries) s
      fun l s' => Copies s' old base entries l := by
  induction depth generalizing base entries s with
  | zero =>
    refine Leads.overrideCopy hold ha.nonempty fun x hx => ?_
    obtain ⟨path, v, hm⟩ := mem_pathHeads.1 hx
    exact absurd (hd _ hm) (by simp)
  | succ depth ih =>
    refine Leads.overrideCopy hold ha.nonempty fun x hx s' he => ?_
    have hv' : ∀ e ∈ pathsUnder x entries, e.2.index < old := fun e he =>
      hv (x :: e.1, e.2) (mem_pathsUnder.1 he)
    have hlen : ∀ e ∈ pathsUnder x entries, e.1.length ≤ depth := fun e he => by
      simpa using hd _ (mem_pathsUnder.1 he)
    rw [overrideAt]
    -- under a property there is one path that ends there, or paths that are apart again
    rcases ha.under x with ⟨v, hone⟩ | hunder
    · rw [hone] at hv' ⊢
      exact .pure (.value _ (hv' _ (List.mem_singleton_self _)))
    · split
      case h_1 call hone =>
        rw [hone] at hunder
        exact absurd rfl (hunder.nonempty _ (List.mem_singleton_self _))
      case h_2 => exact ih (hold.trans he.size) hunder hv' hlen

/-! ### Records -/

inductive ItemAt (s : Store) (old : Nat) (item : String) : ItemValue → Loc → Prop
  | raw {l : Loc} (h : s.Made old l (.name item)) : ItemAt s old item .raw l
  | merged {call : Loc} (h : call.index < old) : ItemAt s old item (.merged call) call
  | overridden {entries : List (List String × Loc)} {l : Loc} (h : Copies s old [item] entries l) :
    ItemAt s old item (.overridden entries) l

/-- The record of a draft, with all that was added for it. -/
structure RecordAt (s : Store) (old : Nat) (d : Draft) (item record : Loc) : Prop where
  value : ItemAt s old d.item d.itemValue item
  made : ∃ key, s.Made old key (.name d.keyToken) ∧ s.Made old record
    (.object (.field d.item item :: .field keyField key :: d.fields.map fun f => .field f.1 f.2))

def ItemValue.values : ItemValue → List Loc
  | .raw => []
  | .merged call => [call]
  | .overridden entries => entries.map Prod.snd

/-- The paths that a draft merges are apart, and all its values are in the store. -/
structure Draft.Sound (d : Draft) (s : Store) : Prop where
  apart : ∀ entries, d.itemValue = .overridden entries → ItemTree.Apart entries
  item : ∀ v ∈ d.itemValue.values, v.index < s.size
  fields : ∀ f ∈ d.fields, f.2.index < s.size

theorem Leads.buildItem {d : Draft} (h : d.Sound s) :
    Leads d.buildItem s fun l s' => ItemAt s' s.size d.item d.itemValue l := by
  have hitem := h.item
  rw [Draft.buildItem]
  cases hi : d.itemValue with
  | raw => exact (Leads.name d.item le_rfl).mono fun l s' _ hl => .raw hl
  | merged call =>
    rw [hi] at hitem
    exact .pure (.merged (hitem call (List.mem_singleton_self call)))
  | overridden entries =>
    rw [hi] at hitem
    refine (Leads.overrideTo le_rfl (h.apart entries hi) (fun e he => ?_) fun e he => ?_).mono
      fun l s' _ hl => .overridden hl
    · exact hitem _ (List.mem_map_of_mem he)
    · exact le_foldl_max (.inr (List.mem_map_of_mem (f := fun e => e.1.length) he))

theorem ItemAt.extend {item : String} {i : ItemValue} (h : ItemAt s old item i l)
    (he : s.Extends s') : ItemAt s' old item i l := by
  cases h with
  | raw h => exact .raw (h.extend he)
  | merged h => exact .merged h
  | overridden h => exact .overridden (h.extend he)

theorem ItemAt.bound {item : String} {i : ItemValue} (h : ItemAt s old item i l)
    (hold : old ≤ s.size) : l.index < s.size := by
  cases h with
  | raw h => exact h.bound
  | merged h => exact h.trans_le hold
  | overridden h => exact h.bound hold

theorem Leads.build {d : Draft} (h : d.Sound s) :
    Leads d.build s fun record s' => ∃ item, RecordAt s' s.size d item record := by
  refine .bind (Leads.buildItem h) fun item s₁ he₁ hitem => ?_
  refine .bind (Leads.name d.keyToken he₁.size) fun key s₂ he₂ hkey => ?_
  refine (Leads.add (he₁.trans he₂).size ?_).mono fun record s₃ he₃ hrecord => ?_
  · intro c hc
    rw [Node.children, List.flatMap_cons, List.flatMap_cons, children_fields] at hc
    rcases List.mem_cons.1 hc with rfl | hc
    · exact (hitem.extend he₂).bound (he₁.trans he₂).size
    rcases List.mem_cons.1 hc with rfl | hc
    · exact hkey.bound
    · obtain ⟨f, hf, rfl⟩ := List.mem_map.1 hc
      exact (h.fields f hf).trans_le (he₁.trans he₂).size
  · exact ⟨item, hitem.extend (he₂.trans he₃), key, hkey.extend he₃, hrecord⟩

end JsxLoops.Loop
