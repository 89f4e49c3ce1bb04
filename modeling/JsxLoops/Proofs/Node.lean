import JsxLoops.Tree.Node
import Mathlib.Data.List.Basic

/-!
Laws of nodes. A node is its shape, which is what remains when the children are forgotten,
together with the list of its children: `refill` puts a list of children back into a node, and all
ways of changing every child (`map`, `mapM`) are described by what they do to that list.
-/

namespace JsxLoops.Tree

variable {α β γ : Type}

/-! ### Children of the parts -/

@[simp] theorem Key.children_name (s : String) : (Key.name s : Key α).children = [] := rfl

@[simp] theorem Key.children_literal (s : String) : (Key.literal s : Key α).children = [] := rfl

@[simp] theorem Key.children_computed (k : α) : (Key.computed k).children = [k] := rfl

@[simp] theorem Entry.children_pair (k : Key α) (v : α) (short : Bool) :
    (Entry.pair k v short).children = k.children ++ [v] := rfl

@[simp] theorem Entry.children_spread (v : α) : (Entry.spread v).children = [v] := rfl

theorem Entry.field_inj {name name' : String} {v v' : α}
    (h : Entry.field name v = .field name' v') : name = name' ∧ v = v' := by
  obtain ⟨hname, hv, -⟩ := Entry.pair.inj h
  exact ⟨Key.name.inj hname, hv⟩

@[simp] theorem Entry.children_field (s : String) (v : α) : (Entry.field s v).children = [v] := rfl

@[simp] theorem AttributeValue.children_absent :
    (AttributeValue.absent : AttributeValue α).children = [] := rfl

@[simp] theorem AttributeValue.children_literal (s : String) :
    (AttributeValue.literal s : AttributeValue α).children = [] := rfl

@[simp] theorem AttributeValue.children_mustache (s : String) :
    (AttributeValue.mustache s : AttributeValue α).children = [] := rfl

@[simp] theorem AttributeValue.children_expression (v : α) :
    (AttributeValue.expression v).children = [v] := rfl

@[simp] theorem Attribute.children_named (s : String) (v : AttributeValue α) :
    (Attribute.named s v).children = v.children := rfl

@[simp] theorem Attribute.children_spread (v : α) : (Attribute.spread v).children = [v] := rfl

@[simp] theorem Attribute.children_quoted (s t : String) :
    (Attribute.quoted s t : Attribute α).children = [] := rfl

/-! ### Mapping -/

@[simp] theorem Body.children_map (f : α → β) (b : Body α) :
    (b.map f).children = b.children.map f := by
  cases b <;> rfl

@[simp] theorem Key.children_map (f : α → β) (k : Key α) :
    (k.map f).children = k.children.map f := by
  cases k <;> rfl

@[simp] theorem Entry.children_map (f : α → β) (e : Entry α) :
    (e.map f).children = e.children.map f := by
  cases e <;> simp [Entry.map, Entry.children]

@[simp] theorem AttributeValue.children_map (f : α → β) (v : AttributeValue α) :
    (v.map f).children = v.children.map f := by
  cases v <;> rfl

@[simp] theorem Attribute.children_map (f : α → β) (a : Attribute α) :
    (a.map f).children = a.children.map f := by
  cases a <;> simp [Attribute.map, Attribute.children]

theorem flatMap_map_children {ε ε' : Type} (m : ε → ε') (c : ε → List α) (c' : ε' → List β)
    (f : α → β) (h : ∀ e, c' (m e) = (c e).map f) (es : List ε) :
    (es.map m).flatMap c' = (es.flatMap c).map f := by
  induction es with
  | nil => rfl
  | cons e es ih => simp [List.flatMap_cons, h, ih]

@[simp] theorem Node.children_map (f : α → β) (n : Node α) :
    (n.map f).children = n.children.map f := by
  cases n with
  | object entries =>
    exact flatMap_map_children _ _ _ f (Entry.children_map f) entries
  | element e =>
    simp only [Node.map, Node.children, List.map_append]
    rw [flatMap_map_children _ _ _ f (Attribute.children_map f)]
  | declaration keyword declarators =>
    simp only [Node.map, Node.children]
    induction declarators with
    | nil => rfl
    | cons d ds ih => cases hd : d.value <;> simp [hd, ih]
  | returning v => cases v <;> rfl
  | branch test yes no => cases no <;> rfl
  | _ => simp [Node.map, Node.children]

@[simp] theorem Node.isMarkup_map (f : α → β) (n : Node α) : (n.map f).isMarkup = n.isMarkup := by
  cases n <;> rfl

@[simp] theorem Body.map_map (f : α → β) (g : β → γ) (b : Body α) :
    (b.map f).map g = b.map (fun a => g (f a)) := by
  cases b <;> simp [Body.map]

@[simp] theorem Key.map_map (f : α → β) (g : β → γ) (k : Key α) :
    (k.map f).map g = k.map (fun a => g (f a)) := by
  cases k <;> rfl

@[simp] theorem Entry.map_map (f : α → β) (g : β → γ) (e : Entry α) :
    (e.map f).map g = e.map (fun a => g (f a)) := by
  cases e <;> simp [Entry.map]

@[simp] theorem AttributeValue.map_map (f : α → β) (g : β → γ) (v : AttributeValue α) :
    (v.map f).map g = v.map (fun a => g (f a)) := by
  cases v <;> rfl

@[simp] theorem Attribute.map_map (f : α → β) (g : β → γ) (a : Attribute α) :
    (a.map f).map g = a.map (fun a => g (f a)) := by
  cases a <;> simp [Attribute.map]

@[simp] theorem Node.map_map (f : α → β) (g : β → γ) (n : Node α) :
    (n.map f).map g = n.map (fun a => g (f a)) := by
  cases n <;> simp [Node.map, Function.comp_def]

theorem Entry.map_id (e : Entry α) : e.map id = e := by
  rcases e with ⟨k, v, short⟩ | v
  · cases k <;> rfl
  · rfl

theorem Attribute.map_id (a : Attribute α) : a.map id = a := by
  rcases a with ⟨s, v⟩ | v
  · cases v <;> rfl
  · rfl

@[simp] theorem Node.map_id (n : Node α) : n.map id = n := by
  cases n with
  | lambda l => rcases l with ⟨form, a, g, ps, _ | _⟩ <;> simp [Node.map, Body.map]
  | object entries =>
    simp only [Node.map, funext Entry.map_id (f := Entry.map id) (g := id), List.map_id]
  | element e => simp only [Node.map, funext Attribute.map_id (g := id), List.map_id]
  | _ => simp [Node.map]

/-! ### Shapes -/

/-- What remains of a node without its children. -/
def Node.shape (n : Node α) : Node Unit := n.map fun _ => ()

@[simp] theorem Node.shape_map (f : α → β) (n : Node α) : (n.map f).shape = n.shape := by
  simp [Node.shape]

/-! ### Putting children back -/

section Refill

variable [Inhabited β]

def Body.refill : Body α → List β → Body β
  | .value _, ts => .value (ts.headD default)
  | .block _, ts => .block ts

def Entry.refill : List (Entry α) → List β → List (Entry β)
  | [], _ => []
  | .pair (.computed _) _ short :: es, ts =>
    .pair (.computed (ts.headD default)) (ts.tail.headD default) short ::
      Entry.refill es ts.tail.tail
  | .pair (.name s) _ short :: es, ts =>
    .pair (.name s) (ts.headD default) short :: Entry.refill es ts.tail
  | .pair (.literal s) _ short :: es, ts =>
    .pair (.literal s) (ts.headD default) short :: Entry.refill es ts.tail
  | .spread _ :: es, ts => .spread (ts.headD default) :: Entry.refill es ts.tail

def Attribute.refill : List (Attribute α) → List β → List (Attribute β)
  | [], _ => []
  | .named s .absent :: as, ts => .named s .absent :: Attribute.refill as ts
  | .named s (.literal t) :: as, ts => .named s (.literal t) :: Attribute.refill as ts
  | .named s (.expression _) :: as, ts =>
    .named s (.expression (ts.headD default)) :: Attribute.refill as ts.tail
  | .named s (.mustache p) :: as, ts => .named s (.mustache p) :: Attribute.refill as ts
  | .spread _ :: as, ts => .spread (ts.headD default) :: Attribute.refill as ts.tail

def Declarator.refill : List (Declarator α) → List β → List (Declarator β)
  | [], _ => []
  | ⟨b, none⟩ :: ds, ts => ⟨b, none⟩ :: Declarator.refill ds ts
  | ⟨b, some _⟩ :: ds, ts => ⟨b, some (ts.headD default)⟩ :: Declarator.refill ds ts.tail

/-- The node with other children, taken from a list. -/
def Node.refill : Node α → List β → Node β
  | .name s, _ => .name s
  | .literal s, _ => .literal s
  | .verbatim c, _ => .verbatim c
  | .member _ p opt, ts => .member (ts.headD default) p opt
  | .index _ _, ts => .index (ts.headD default) (ts.tail.headD default)
  | .call _ _, ts => .call (ts.headD default) ts.tail
  | .lambda l, ts => .lambda ⟨l.form, l.isAsync, l.generator, l.params, l.body.refill ts⟩
  | .object entries, ts => .object (Entry.refill entries ts)
  | .array _, ts => .array ts
  | .spread _, ts => .spread (ts.headD default)
  | .binary op _ _, ts => .binary op (ts.headD default) (ts.tail.headD default)
  | .logical op _ _, ts => .logical op (ts.headD default) (ts.tail.headD default)
  | .unary op _, ts => .unary op (ts.headD default)
  | .conditional _ _ _, ts =>
    .conditional (ts.headD default) (ts.tail.headD default) (ts.tail.tail.headD default)
  | .paren _, ts => .paren (ts.headD default)
  | .element e, ts =>
    let count := (e.attributes.flatMap Attribute.children).length
    .element ⟨e.tag, Attribute.refill e.attributes (ts.take count), ts.drop count, e.selfClosing⟩
  | .fragment _, ts => .fragment ts
  | .text s, _ => .text s
  | .container _, ts => .container (ts.headD default)
  | .mustache p, _ => .mustache p
  | .returning v, ts => .returning (v.map fun _ => ts.headD default)
  | .performing _, ts => .performing (ts.headD default)
  | .declaration keyword ds, ts => .declaration keyword (Declarator.refill ds ts)
  | .branch _ _ no, ts =>
    .branch (ts.headD default) (ts.tail.headD default) (no.map fun _ => ts.tail.tail.headD default)
  | .block _, ts => .block ts

theorem Entry.refill_map (f : α → β) (es : List (Entry α)) (ts : List β) :
    Entry.refill es ((es.flatMap Entry.children).map f ++ ts) = es.map (Entry.map f) := by
  induction es with
  | nil => rfl
  | cons e es ih =>
    rcases e with ⟨k, v, short⟩ | v
    · cases k <;> simp [Entry.refill, Entry.children, Key.children, Entry.map, Key.map, ih]
    · simp [Entry.refill, Entry.children, Entry.map, ih]

theorem Attribute.refill_map (f : α → β) (as : List (Attribute α)) :
    Attribute.refill as ((as.flatMap Attribute.children).map f) = as.map (Attribute.map f) := by
  induction as with
  | nil => rfl
  | cons a as ih =>
    rcases a with ⟨s, v⟩ | v
    · cases v <;> simp [Attribute.refill, Attribute.children, AttributeValue.children,
        Attribute.map, AttributeValue.map, ih]
    · simp [Attribute.refill, Attribute.children, Attribute.map, ih]

theorem Declarator.refill_map (f : α → β) (ds : List (Declarator α)) :
    Declarator.refill ds ((ds.filterMap Declarator.value).map f) =
      ds.map fun d => ⟨d.binder, d.value.map f⟩ := by
  induction ds with
  | nil => rfl
  | cons d ds ih => rcases d with ⟨b, _ | v⟩ <;> simp [Declarator.refill, ih]

theorem Node.refill_map_children (f : α → β) (n : Node α) :
    n.refill (n.children.map f) = n.map f := by
  cases n with
  | lambda l => rcases l with ⟨form, a, g, ps, _ | _⟩ <;> rfl
  | object entries =>
    have h := Entry.refill_map f entries []
    rw [List.append_nil] at h
    simp [Node.refill, Node.children, Node.map, h]
  | element e =>
    have hl : (e.attributes.flatMap Attribute.children).length =
        ((e.attributes.flatMap Attribute.children).map f).length := by simp
    simp only [Node.refill, Node.children, Node.map, List.map_append]
    rw [hl, List.take_left, List.drop_left, Attribute.refill_map]
  | declaration keyword ds => simp [Node.refill, Node.children, Node.map, Declarator.refill_map]
  | returning v => cases v <;> rfl
  | branch test yes no => cases no <;> rfl
  | _ => simp [Node.refill, Node.children, Node.map]

theorem Node.map_congr {f g : α → β} {n : Node α} (h : ∀ c ∈ n.children, f c = g c) :
    n.map f = n.map g := by
  rw [← Node.refill_map_children, ← Node.refill_map_children, List.map_congr_left h]

theorem Entry.refill_of_map (f : α → γ) (es : List (Entry α)) (ts : List β) :
    Entry.refill (es.map (Entry.map f)) ts = Entry.refill es ts := by
  induction es generalizing ts with
  | nil => rfl
  | cons e es ih =>
    rcases e with ⟨k, v, short⟩ | v
    · cases k <;> simp [Entry.refill, Entry.map, Key.map, ih]
    · simp [Entry.refill, Entry.map, ih]

theorem Attribute.refill_of_map (f : α → γ) (as : List (Attribute α)) (ts : List β) :
    Attribute.refill (as.map (Attribute.map f)) ts = Attribute.refill as ts := by
  induction as generalizing ts with
  | nil => rfl
  | cons a as ih =>
    rcases a with ⟨s, v⟩ | v
    · cases v <;> simp [Attribute.refill, Attribute.map, AttributeValue.map, ih]
    · simp [Attribute.refill, Attribute.map, ih]

theorem Declarator.refill_of_map (f : α → γ) (ds : List (Declarator α)) (ts : List β) :
    Declarator.refill (ds.map fun d => (⟨d.binder, d.value.map f⟩ : Declarator γ)) ts =
      Declarator.refill ds ts := by
  induction ds generalizing ts with
  | nil => rfl
  | cons d ds ih => rcases d with ⟨b, _ | v⟩ <;> simp [Declarator.refill, ih]

theorem Node.refill_of_map (f : α → γ) (n : Node α) (ts : List β) :
    (n.map f).refill ts = n.refill ts := by
  cases n with
  | lambda l => rcases l with ⟨form, a, g, ps, _ | _⟩ <;> rfl
  | object entries => simp [Node.refill, Node.map, Entry.refill_of_map]
  | element e =>
    simp only [Node.refill, Node.map, Attribute.refill_of_map,
      flatMap_map_children _ _ _ f (Attribute.children_map f), List.length_map]
  | declaration keyword ds => simp only [Node.refill, Node.map, Declarator.refill_of_map]
  | returning v => cases v <;> rfl
  | branch test yes no => cases no <;> rfl
  | _ => simp [Node.refill, Node.map]

theorem Node.refill_children_of_shape {n : Node α} {m : Node β} (h : n.shape = m.shape) :
    n.refill m.children = m := by
  calc
    n.refill m.children = n.shape.refill m.children := (Node.refill_of_map _ n _).symm
    _ = m.refill m.children := by rw [h]; exact Node.refill_of_map _ m _
    _ = m := by
      have hm := Node.refill_map_children id m
      rwa [List.map_id, Node.map_id] at hm

theorem Node.ext_of_shape {n m : Node β} (h : n.shape = m.shape) (hc : n.children = m.children) :
    n = m := by
  rw [← Node.refill_children_of_shape h, ← hc, Node.refill_children_of_shape rfl]

theorem Entry.children_refill (es : List (Entry α)) (ts : List β)
    (h : ts.length = (es.flatMap Entry.children).length) :
    (Entry.refill es ts).flatMap Entry.children = ts ∧
      (Entry.refill es ts).map (Entry.map fun _ => ()) = es.map (Entry.map fun _ => ()) := by
  induction es generalizing ts with
  | nil => simpa [Entry.refill, eq_comm] using h
  | cons e es ih =>
    rw [List.flatMap_cons, List.length_append] at h
    rcases e with ⟨k, v, short⟩ | v
    · cases k with
      | computed k =>
        obtain _ | ⟨t, _ | ⟨u, ts⟩⟩ := ts <;> simp only [Entry.children_pair,
          Key.children_computed, List.length_append, List.length_cons, List.length_nil] at h
        · omega
        · omega
        · have hs := ih ts (by omega)
          simp [Entry.refill, Entry.map, Key.map, hs]
      | _ =>
        obtain _ | ⟨t, ts⟩ := ts <;> simp only [Entry.children_pair, Key.children_name,
          Key.children_literal, List.length_append, List.length_cons, List.length_nil] at h
        · omega
        · have hs := ih ts (by omega)
          simp [Entry.refill, Entry.map, Key.map, hs]
    · obtain _ | ⟨t, ts⟩ := ts <;>
        simp only [Entry.children_spread, List.length_cons, List.length_nil] at h
      · omega
      · have hs := ih ts (by omega)
        simp [Entry.refill, Entry.map, hs]

theorem Attribute.children_refill (as : List (Attribute α)) (ts : List β)
    (h : ts.length = (as.flatMap Attribute.children).length) :
    (Attribute.refill as ts).flatMap Attribute.children = ts ∧
      (Attribute.refill as ts).map (Attribute.map fun _ => ()) =
        as.map (Attribute.map fun _ => ()) := by
  induction as generalizing ts with
  | nil => simpa [Attribute.refill, eq_comm] using h
  | cons a as ih =>
    rw [List.flatMap_cons, List.length_append] at h
    rcases a with ⟨s, v⟩ | v
    · cases v with
      | expression v =>
        obtain _ | ⟨t, ts⟩ := ts <;> simp only [Attribute.children_named,
          AttributeValue.children_expression, List.length_cons, List.length_nil] at h
        · omega
        · have hs := ih ts (by omega)
          simp [Attribute.refill, Attribute.map, AttributeValue.map, hs]
      | _ =>
        have hs := ih ts (by simpa using h)
        simp [Attribute.refill, Attribute.map, AttributeValue.map, hs]
    · obtain _ | ⟨t, ts⟩ := ts <;>
        simp only [Attribute.children_spread, List.length_cons, List.length_nil] at h
      · omega
      · have hs := ih ts (by omega)
        simp [Attribute.refill, Attribute.map, hs]

theorem Declarator.children_refill (ds : List (Declarator α)) (ts : List β)
    (h : ts.length = (ds.filterMap Declarator.value).length) :
    (Declarator.refill ds ts).filterMap Declarator.value = ts ∧
      ((Declarator.refill ds ts).map fun d =>
          (⟨d.binder, d.value.map fun _ => ()⟩ : Declarator Unit)) =
        ds.map fun d => ⟨d.binder, d.value.map fun _ => ()⟩ := by
  induction ds generalizing ts with
  | nil => simpa [Declarator.refill, eq_comm] using h
  | cons d ds ih =>
    rcases d with ⟨b, _ | v⟩
    · have hs := ih ts (by simpa using h)
      simp [Declarator.refill, hs]
    · obtain _ | ⟨t, ts⟩ := ts
      · simp at h
      · have hs := ih ts (by simpa using h)
        simp [Declarator.refill, hs]

/-- Refilling with as many children as there were gives a node with these children and the old
shape. -/
theorem Node.children_refill (n : Node α) (ts : List β) (h : ts.length = n.children.length) :
    (n.refill ts).children = ts ∧ (n.refill ts).shape = n.shape := by
  have units (xs : List β) (ys : List α) (hl : xs.length = ys.length) :
      xs.map (fun _ => ()) = ys.map (fun _ => ()) := by
    simp [List.map_const', hl]
  cases n with
  | object entries =>
    have hs := Entry.children_refill entries ts h
    exact ⟨hs.1, by simp [Node.refill, Node.shape, Node.map, hs.2]⟩
  | element e =>
    obtain ⟨us, vs, rfl, hu⟩ : ∃ us vs, ts = us ++ vs ∧
        us.length = (e.attributes.flatMap Attribute.children).length := by
      rw [Node.children, List.length_append] at h
      exact ⟨_, _, (List.take_append_drop (e.attributes.flatMap Attribute.children).length ts).symm,
        by rw [List.length_take]; omega⟩
    have hv : vs.length = e.children.length := by
      rw [Node.children, List.length_append, List.length_append, hu] at h
      omega
    have hs := Attribute.children_refill e.attributes us hu
    simp only [Node.refill, ← hu, List.take_left, List.drop_left, Node.children, Node.shape,
      Node.map, hs, units vs e.children hv, and_self]
  | declaration keyword ds =>
    have hs := Declarator.children_refill ds ts h
    exact ⟨hs.1, by simp [Node.refill, Node.shape, Node.map, hs.2]⟩
  | lambda l =>
    rcases l with ⟨form, a, g, ps, v | body⟩
    · obtain ⟨t, rfl⟩ := List.length_eq_one_iff.1 h
      exact ⟨rfl, rfl⟩
    · exact ⟨rfl, by simp [Node.refill, Body.refill, Node.shape, Node.map, Body.map,
        units ts body h]⟩
  | call callee args =>
    obtain _ | ⟨t, ts⟩ := ts
    · simp [Node.children] at h
    · refine ⟨rfl, ?_⟩
      simp [Node.refill, Node.shape, Node.map, units ts args (by simpa [Node.children] using h)]
  | returning v =>
    cases v with
    | none => simpa [Node.refill, Node.children, Node.shape, Node.map] using h
    | some v =>
      obtain ⟨t, rfl⟩ := List.length_eq_one_iff.1 h
      exact ⟨rfl, rfl⟩
  | branch test yes no =>
    cases no with
    | none =>
      obtain ⟨t, u, rfl⟩ := List.length_eq_two.1 h
      exact ⟨rfl, rfl⟩
    | some no =>
      obtain ⟨t, u, v, rfl⟩ := List.length_eq_three.1 h
      exact ⟨rfl, rfl⟩
  | conditional test yes no =>
    obtain ⟨t, u, v, rfl⟩ := List.length_eq_three.1 h
    exact ⟨rfl, rfl⟩
  | array items | fragment items | block items =>
    exact ⟨rfl, by simp [Node.refill, Node.shape, Node.map, units ts items h]⟩
  | index _ _ | binary _ _ _ | logical _ _ _ =>
    obtain ⟨t, u, rfl⟩ := List.length_eq_two.1 h
    exact ⟨rfl, rfl⟩
  | member _ _ _ | spread _ | unary _ _ | paren _ | container _ | performing _ =>
    obtain ⟨t, rfl⟩ := List.length_eq_one_iff.1 h
    exact ⟨rfl, rfl⟩
  | name _ | literal _ | verbatim _ | text _ | mustache _ =>
    obtain rfl := List.length_eq_zero_iff.1 h
    exact ⟨rfl, rfl⟩

/-! ### Effects on every child -/

section Effects

variable {m : Type → Type} [Monad m] [LawfulMonad m]

theorem Entry.mapM_eq_refill (f : α → m β) (es : List (Entry α)) :
    es.mapM (Entry.mapM f) = Entry.refill es <$> (es.flatMap Entry.children).mapM f := by
  induction es with
  | nil => simp [Entry.refill]
  | cons e es ih =>
    rcases e with ⟨k, v, short⟩ | v
    · cases k <;> simp [Entry.mapM, Key.mapM, Entry.refill, ih]
    · simp [Entry.mapM, Entry.refill, ih]

theorem Attribute.mapM_eq_refill (f : α → m β) (as : List (Attribute α)) :
    as.mapM (Attribute.mapM f) =
    Attribute.refill as <$> (as.flatMap Attribute.children).mapM f := by
  induction as with
  | nil => simp [Attribute.refill]
  | cons a as ih =>
    rcases a with ⟨s, v⟩ | v
    · cases v <;> simp [Attribute.mapM, AttributeValue.mapM, Attribute.refill, ih]
    · simp [Attribute.mapM, Attribute.refill, ih]

theorem Declarator.mapM_eq_refill (f : α → m β) (ds : List (Declarator α)) :
    (ds.mapM fun d => return (⟨d.binder, ← mapOption f d.value⟩ : Declarator β)) =
      Declarator.refill ds <$> (ds.filterMap Declarator.value).mapM f := by
  induction ds with
  | nil => simp [Declarator.refill]
  | cons d ds ih =>
    rw [List.mapM_cons, ih]
    rcases d with ⟨b, _ | v⟩ <;> simp [mapOption, Declarator.refill]

omit [Inhabited β] in
theorem mapM_bind_length (f : α → m β) (xs : List α) (g : Nat → List β → m γ) :
    (xs.mapM f >>= fun ys => g ys.length ys) = xs.mapM f >>= fun ys => g xs.length ys := by
  induction xs generalizing g with
  | nil => simp
  | cons x xs ih =>
    simp only [List.mapM_cons, bind_assoc, pure_bind, List.length_cons]
    congr 1
    funext y
    exact ih fun k ys => g (k + 1) (y :: ys)

theorem Node.mapM_eq_refill (f : α → m β) (n : Node α) :
    n.mapM f = n.refill <$> n.children.mapM f := by
  cases n with
  | object entries =>
    simp only [Node.mapM, Node.children, Entry.mapM_eq_refill, bind_pure_comp, Functor.map_map]
    rfl
  | element e =>
    have h := mapM_bind_length f (e.attributes.flatMap Attribute.children) fun k us =>
      e.children.mapM f >>= fun vs => pure (Node.element
        ⟨e.tag, Attribute.refill e.attributes ((us ++ vs).take k), (us ++ vs).drop k,
          e.selfClosing⟩)
    simp only [List.take_left, List.drop_left] at h
    simp only [Node.mapM, Node.children, Node.refill, Attribute.mapM_eq_refill, List.mapM_append,
      map_bind, bind_pure_comp, Functor.map_map, bind_map_left] at h ⊢
    exact h
  | declaration keyword ds =>
    rw [Node.mapM, Declarator.mapM_eq_refill]
    simp only [Node.children, bind_pure_comp, Functor.map_map]
    rfl
  | lambda l =>
    rcases l with ⟨form, a, g, ps, _ | _⟩
    · simp [Node.mapM, Body.mapM, Node.children, Body.children, Node.refill, Body.refill]
    · simp only [Node.mapM, Body.mapM, Node.children, Body.children, bind_pure_comp,
        Functor.map_map]
      rfl
  | returning v => cases v <;> simp [Node.mapM, mapOption, Node.children, Node.refill]
  | branch test yes no => cases no <;> simp [Node.mapM, mapOption, Node.children, Node.refill]
  | array items | fragment items | block items =>
    simp only [Node.mapM, Node.children, bind_pure_comp]
    rfl
  | _ => simp [Node.mapM, Node.children, Node.refill]

end Effects

end Refill

end JsxLoops.Tree
