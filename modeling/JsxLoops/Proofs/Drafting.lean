import JsxLoops.Proofs.Copying
import JsxLoops.Proofs.Logs
import Mathlib

/-!
Histories of a draft. Whatever is asked of a draft, and in whatever order, its record has the item
and the key first and then the fields in the order in which they were asked for; numbers are
given out in two rows; what was refused leaves no trace; and every value that was taken stands at
one place of the record. What one request can do is said once, by `Performed`, and the rest is
carried through a history by induction.
-/

namespace JsxLoops.Loop

open JsxLoops.Tree

/-! ### Requests -/

/-- What can be asked of a draft. -/
inductive Request where
  | dynamic (kind : Dependency) (source value : Loc)
  | style (source : Loc) (createStyle : String)
  | note (source : Loc)
  | merge (source call : Loc)
  | mergeAt (source : Loc) (path : List String) (call : Loc)
  | named (source : Loc) (name : String) (value : Loc)
deriving DecidableEq

inductive Answer where
  | issued (field : String)
  | noted
  | accepted
  | refused
deriving DecidableEq

namespace Request

/-- The path of a merge. -/
def path? : Request → Option (List String)
  | .mergeAt _ path _ => some path
  | _ => none

def name? : Request → Option String
  | .named _ name _ => some name
  | _ => none

/-- The value that is handed over. -/
def value? : Request → Option Loc
  | .dynamic _ _ value | .named _ _ value => some value
  | .merge _ call | .mergeAt _ _ call => some call
  | _ => none

def numbering? : Request → Option Numbering
  | .dynamic _ _ _ => some .value
  | .style _ _ => some .style
  | _ => none

def isNote : Request → Bool
  | .note _ => true
  | _ => false

/-- The node is what a record has to hold for the request. -/
def Carries (s : Store) : Request → Loc → Prop
  | .dynamic _ _ value, l | .named _ _ value, l => l = value
  | .merge _ call, l | .mergeAt _ _ call, l => l = call
  | .style source createStyle, l =>
    ∃ callee, s.get l = .call callee [source] ∧ s.get callee = .name createStyle
  | .note _, _ => False

end Request

def Answer.issued? : Answer → Option String
  | .issued field => some field
  | _ => none

/-- The field that a request with this answer adds. -/
def fieldAdded (e : Request × Answer) : Option String :=
  match e.2 with
  | .issued field => some field
  | .accepted => e.1.name?
  | _ => none

/-- Whether a value was taken. -/
def isTaken (e : Request × Answer) : Bool := !e.1.isNote && e.2 != .refused

/-- The answers that gave numbers of one row. -/
def answersTo (n : Numbering) (history : List (Request × Answer)) : List Answer :=
  (history.filter fun e => e.1.numbering? = some n).map Prod.snd

namespace Draft

def answer (d : Draft) : Option Draft → Answer × Draft
  | some d' => (.accepted, d')
  | none => (.refused, d)

def perform (d : Draft) : Request → Edit (Answer × Draft)
  | .dynamic kind source value =>
    let (field, d) := d.pushDynamic kind source value
    return (.issued field, d)
  | .style source createStyle => do
    let (field, d) ← d.pushStyle source createStyle
    return (.issued field, d)
  | .note source => return (.noted, d.noteItem source)
  | .merge source call => return d.answer (d.mergeItem source call)
  | .mergeAt source path call => return d.answer (d.mergePath source path call)
  | .named source name value => return d.answer (d.pushNamed source name value)

def performAll (d : Draft) : List Request → Edit (List Answer × Draft)
  | [] => return ([], d)
  | op :: ops => do
    let (a, d) ← d.perform op
    let (answers, d) ← d.performAll ops
    return (a :: answers, d)

/-- The record and the schema that the requests come to. -/
def compose (d : Draft) (ops : List Request) : Edit (Loc × Schema) := do
  let (_, d) ← d.performAll ops
  return (← d.build, d.schema)

end Draft

/-- All that a request can do: the draft `d` becomes another one with an answer. -/
inductive Performed (s : Store) (d : Draft) : Request → Answer → Draft → Prop
  | dynamic (kind : Dependency) (source value : Loc) :
    Performed s d (.dynamic kind source value) (.issued (Numbering.value.name d.dynamicCount))
      (d.pushDynamic kind source value).2
  | style {source call callee : Loc} {createStyle : String} (hcall : call.index < s.size)
    (hcallee : callee.index < s.size) (hget : s.get call = .call callee [source])
    (hname : s.get callee = .name createStyle) :
    Performed s d (.style source createStyle) (.issued (Numbering.style.name d.styleCount))
      { d.pushSlot .styleValue source (Numbering.style.name d.styleCount) with
        fields := d.fields ++ [(Numbering.style.name d.styleCount, call)]
        styleCount := d.styleCount + 1 }
  | noted (source : Loc) : Performed s d (.note source) .noted (d.pushSlot .itemWhole source d.item)
  | known (source : Loc) (h : ∃ slot ∈ d.slots, slot.kind = .itemWhole) :
    Performed s d (.note source) .noted d
  | merge (source call : Loc) (h : d.itemValue = .raw) :
    Performed s d (.merge source call) .accepted
      { d.pushSlot .nestedCarrier source d.item with itemValue := .merged call }
  | mergeAt (source : Loc) (path : List String) (call : Loc) (entries : List (List String × Loc))
    (h : d.itemValue = .raw ∧ entries = [] ∨ d.itemValue = .overridden entries ∧
      ∀ e ∈ entries, overlap e.1 path = false) :
    Performed s d (.mergeAt source path call) .accepted
      { d.pushSlot .nestedCarrier source d.item with
        itemValue := .overridden (entries ++ [(path, call)]) }
  | named (source : Loc) (name : String) (value : Loc)
    (h : name ≠ d.item ∧ name ≠ keyField ∧ isNumberedField name = false ∧
      ∀ f ∈ d.fields, f.1 ≠ name) :
    Performed s d (.named source name value) .accepted
      { d.pushSlot .nestedCarrier source name with fields := d.fields ++ [(name, value)] }
  | refused {op : Request} (hn : op.numbering? = none) (hnote : op.isNote = false) :
    Performed s d op .refused d

/-- What was asked of a draft and answered, while the store may have grown. -/
inductive Drafted (first : Store) (start : Draft) :
    List (Request × Answer) → Store → Draft → Prop
  | nil : Drafted first start [] first start
  | snoc {history : List (Request × Answer)} {s s' : Store} {d d' : Draft} {op : Request}
    {a : Answer} (h : Drafted first start history s d) (he : s.Extends s')
    (hp : Performed s' d op a d') : Drafted first start (history ++ [(op, a)]) s' d'

section

variable {s s' first : Store} {d d' start : Draft} {op : Request} {a : Answer}
  {history : List (Request × Answer)} {item keyToken : String}

theorem Performed.of_noteItem (source : Loc) :
    Performed s d (.note source) .noted (d.noteItem source) := by
  rw [Draft.noteItem]
  split
  case isTrue h =>
    obtain ⟨slot, hslot, hkind⟩ := List.any_eq_true.1 h
    exact .known source ⟨slot, hslot, beq_iff_eq.1 hkind⟩
  case isFalse => exact .noted source

theorem Draft.perform_leads (d : Draft) (op : Request) :
    Leads (d.perform op) s fun r s' => Performed s' d op r.1 r.2 := by
  cases op with
  | dynamic kind source value => exact .pure (.dynamic kind source value)
  | style source createStyle =>
    refine .bind (P := fun (r : String × Draft) s' =>
      Performed s' d (.style source createStyle) (.issued r.1) r.2) ?_ fun r s' _ h => .pure h
    -- the call of the style function is the only node that a request adds
    refine .bind (P := fun call s' => ∃ callee : Loc, call.index < s'.size ∧
      callee.index < s'.size ∧ s'.get call = .call callee [source] ∧
      s'.get callee = .name createStyle) ?_ ?_
    · refine ⟨_, _, rfl, (s.extends_add _).trans (Store.extends_add _ _), ⟨s.size⟩, ?_, ?_,
        Store.get_add_new _ _, ?_⟩
      · simp [Store.size]
      · simp [Store.size]
      · exact (Store.get_add_old _ _ (by simp [Store.size])).trans (Store.get_add_new _ _)
    · rintro call s' - ⟨callee, hcall, hcallee, hget, hname⟩
      exact .pure (.style hcall hcallee hget hname)
  | note source => exact .pure (.of_noteItem source)
  | merge source call =>
    refine .pure ?_
    cases hd : d.mergeItem source call with
    | none => exact .refused rfl rfl
    | some d' =>
      obtain ⟨hraw, rfl⟩ := Draft.mergeItem_eq_some hd
      exact .merge source call hraw
  | mergeAt source path call =>
    refine .pure ?_
    cases hd : d.mergePath source path call with
    | none => exact .refused rfl rfl
    | some d' =>
      obtain ⟨entries, hentries, rfl⟩ := Draft.mergePath_eq_some hd
      exact .mergeAt source path call entries hentries
  | named source name value =>
    refine .pure ?_
    cases hd : d.pushNamed source name value with
    | none => exact .refused rfl rfl
    | some d' =>
      obtain ⟨hname, rfl⟩ := Draft.pushNamed_eq_some hd
      exact .named source name value hname

theorem Drafted.performAll (h : Drafted first start history s d) (ops : List Request) :
    Leads (d.performAll ops) s fun r s' => r.1.length = ops.length ∧
      Drafted first start (history ++ ops.zip r.1) s' r.2 := by
  induction ops generalizing history s d with
  | nil => exact .pure ⟨rfl, by simpa using h⟩
  | cons op ops ih =>
    refine .bind (d.perform_leads op) fun r s₁ he hp => ?_
    refine .bind (ih (h.snoc he hp)) fun r' s₂ _ hr => .pure ⟨congrArg (· + 1) hr.1, ?_⟩
    rw [List.zip_cons_cons, List.append_cons]
    exact hr.2

/-! ### Fields and slots -/

structure Draft.Keeps (d : Draft) (item keyToken : String)
    (history : List (Request × Answer)) : Prop where
  ofItem : d.item = item
  ofKey : d.keyToken = keyToken
  names : d.fields.map Prod.fst = history.filterMap fieldAdded
  numbers : ∀ n : Numbering,
    answersTo n history = (List.range (n.count d)).map fun k => .issued (n.name k)
  positions : d.slots.map Slot.position = List.range d.slots.length
  slots : (d.slots.map Slot.field).filter (· != item) =
    (d.fields.map Prod.fst).filter (· != item)
  named : ∀ name ∈ d.fields.map Prod.fst, (∃ n k, k < Numbering.count n d ∧ name = n.name k) ∨
    isNumberedField name = false ∧ name ≠ keyField ∧ name ≠ item
  nodup : (d.fields.map Prod.fst).Nodup
  noted : (∃ e ∈ history, e.1.isNote = true) → ∃ slot ∈ d.slots, slot.kind = .itemWhole

theorem answersTo_append (n : Numbering) (history : List (Request × Answer)) (op : Request)
    (a : Answer) : answersTo n (history ++ [(op, a)]) =
      answersTo n history ++ if op.numbering? = some n then [a] else [] := by
  simp only [answersTo, List.filter_append, List.map_append, List.filter_cons, List.filter_nil]
  split <;> simp_all

theorem positions_pushSlot {kind : Dependency} {source : Loc} {field : String}
    (h : d.slots.map Slot.position = List.range d.slots.length) :
    (d.pushSlot kind source field).slots.map Slot.position =
      List.range (d.pushSlot kind source field).slots.length := by
  simp [Draft.pushSlot, h, List.range_succ]

theorem Draft.Keeps.unchanged (h : d.Keeps item keyToken history) (hitem : d'.item = d.item)
    (hkey : d'.keyToken = d.keyToken) (hfields : d'.fields = d.fields)
    (hcounts : ∀ n : Numbering, n.count d' = n.count d) (hn : op.numbering? = none)
    (hadded : fieldAdded (op, a) = none)
    (hslots : d'.slots = d.slots ∨ ∃ kind source, d'.slots = (d.pushSlot kind source d.item).slots)
    (hnoted : op.isNote = true → ∃ slot ∈ d'.slots, slot.kind = .itemWhole) :
    d'.Keeps item keyToken (history ++ [(op, a)]) where
  ofItem := hitem.trans h.ofItem
  ofKey := hkey.trans h.ofKey
  names := by simp [hfields, h.names, hadded]
  numbers n := by simp [answersTo_append, hn, hcounts, h.numbers]
  positions := by
    rcases hslots with hs | ⟨kind, source, hs⟩
    · rw [hs, h.positions]
    · rw [hs]
      exact positions_pushSlot h.positions
  slots := by
    rcases hslots with hs | ⟨kind, source, hs⟩
    · rw [hs, hfields, h.slots]
    · simp [hs, hfields, Draft.pushSlot, h.slots, h.ofItem]
  named := by
    rw [hfields]
    simp only [hcounts]
    exact h.named
  nodup := hfields ▸ h.nodup
  noted := by
    rintro ⟨e, he, hnote⟩
    rcases List.mem_append.1 he with he | he
    · obtain ⟨slot, hslot, hkind⟩ := h.noted ⟨e, he, hnote⟩
      refine ⟨slot, ?_, hkind⟩
      rcases hslots with hs | ⟨kind, source, hs⟩
      · rwa [hs]
      · rw [hs]
        exact List.mem_append_left _ hslot
    · obtain rfl := List.mem_singleton.1 he
      exact hnoted hnote

theorem Draft.Keeps.field {kind : Dependency} {source value : Loc} {name : String}
    (h : d.Keeps item keyToken history) (hitem : d'.item = d.item)
    (hkey : d'.keyToken = d.keyToken) (hfields : d'.fields = d.fields ++ [(name, value)])
    (hslots : d'.slots = (d.pushSlot kind source name).slots)
    (hadded : fieldAdded (op, a) = some name)
    (hnumbers : ∀ n : Numbering, answersTo n (history ++ [(op, a)]) =
      (List.range (n.count d')).map fun k => .issued (n.name k))
    (hcounts : ∀ n : Numbering, n.count d ≤ n.count d')
    (hnamed : (∃ n k, k < Numbering.count n d' ∧ name = n.name k) ∨
      isNumberedField name = false ∧ name ≠ keyField ∧ name ≠ item)
    (hnew : name ∉ d.fields.map Prod.fst) (hnote : op.isNote = false) :
    d'.Keeps item keyToken (history ++ [(op, a)]) where
  ofItem := hitem.trans h.ofItem
  ofKey := hkey.trans h.ofKey
  names := by simp [hfields, h.names, hadded]
  numbers := hnumbers
  positions := by
    rw [hslots]
    exact positions_pushSlot h.positions
  slots := by
    simp only [hslots, hfields, Draft.pushSlot, List.map_append, List.filter_append, h.slots,
      List.map_cons, List.map_nil]
  named := by
    intro x hx
    rw [hfields, List.map_append] at hx
    rcases List.mem_append.1 hx with hx | hx
    · rcases h.named x hx with ⟨n, k, hk, rfl⟩ | hx
      · exact .inl ⟨n, k, hk.trans_le (hcounts n), rfl⟩
      · exact .inr hx
    · obtain rfl := List.mem_singleton.1 hx
      exact hnamed
  nodup := by
    rw [hfields, List.map_append]
    refine List.nodup_append.2 ⟨h.nodup, List.nodup_singleton _, fun x hx y hy hxy => ?_⟩
    obtain rfl := List.mem_singleton.1 hy
    exact hnew (hxy ▸ hx)
  noted := by
    rintro ⟨e, he, hnote'⟩
    rcases List.mem_append.1 he with he | he
    · obtain ⟨slot, hslot, hkind⟩ := h.noted ⟨e, he, hnote'⟩
      exact ⟨slot, hslots ▸ List.mem_append_left _ hslot, hkind⟩
    · obtain rfl := List.mem_singleton.1 he
      rw [hnote] at hnote'
      cases hnote'

theorem Draft.Keeps.next_not_mem (h : d.Keeps item keyToken history) (n : Numbering) :
    n.name (n.count d) ∉ d.fields.map Prod.fst := by
  intro hmem
  rcases h.named _ hmem with ⟨m, k, hk, hname⟩ | ⟨hname, -, -⟩
  · obtain ⟨rfl, rfl⟩ := Numbering.name_inj hname
    exact lt_irrefl _ hk
  · rw [n.isNumberedField_name] at hname
    cases hname

theorem Draft.Keeps.next {kind : Dependency} {source value : Loc} (n : Numbering)
    (h : d.Keeps item keyToken history) (hitem : d'.item = d.item)
    (hkey : d'.keyToken = d.keyToken)
    (hfields : d'.fields = d.fields ++ [(n.name (n.count d), value)])
    (hslots : d'.slots = (d.pushSlot kind source (n.name (n.count d))).slots)
    (hcount : n.count d' = n.count d + 1) (hothers : ∀ m ≠ n, Numbering.count m d' = m.count d)
    (hn : op.numbering? = some n) (hnote : op.isNote = false) :
    d'.Keeps item keyToken (history ++ [(op, .issued (n.name (n.count d)))]) := by
  refine h.field hitem hkey hfields hslots rfl (fun m => ?_) (fun m => ?_)
    (.inl ⟨n, _, hcount ▸ Nat.lt_succ_self _, rfl⟩) (h.next_not_mem n) hnote
  · rw [answersTo_append, h.numbers, hn]
    by_cases hm : m = n
    · subst hm
      simp [hcount, List.range_succ]
    · rw [if_neg fun he => hm (Option.some.inj he).symm, hothers m hm, List.append_nil]
  · by_cases hm : m = n
    · subst hm
      omega
    · exact (hothers m hm).ge

theorem Performed.keeps (hp : Performed s d op a d') (h : d.Keeps item keyToken history) :
    d'.Keeps item keyToken (history ++ [(op, a)]) := by
  cases hp with
  | dynamic kind source value =>
    exact h.next .value rfl rfl rfl rfl rfl (fun m hm => by cases m <;> first | rfl | cases hm rfl)
      rfl rfl
  | style =>
    exact h.next .style rfl rfl rfl rfl rfl (fun m hm => by cases m <;> first | rfl | cases hm rfl)
      rfl rfl
  | noted source =>
    exact h.unchanged rfl rfl rfl (fun n => by cases n <;> rfl) rfl rfl (.inr ⟨_, _, rfl⟩)
      fun _ => ⟨_, List.mem_append_right _ (List.mem_singleton_self _), rfl⟩
  | known source hknown =>
    exact h.unchanged rfl rfl rfl (fun _ => rfl) rfl rfl (.inl rfl) fun _ => hknown
  | merge source call =>
    exact h.unchanged rfl rfl rfl (fun n => by cases n <;> rfl) rfl rfl (.inr ⟨_, _, rfl⟩) nofun
  | mergeAt source path call =>
    exact h.unchanged rfl rfl rfl (fun n => by cases n <;> rfl) rfl rfl (.inr ⟨_, _, rfl⟩) nofun
  | named source name value hname =>
    -- a name that was asked for is no number, so both rows stay as they are
    obtain ⟨hitem, hkey, hnumber, hnew⟩ := hname
    refine h.field rfl rfl rfl rfl rfl (fun n => ?_) (fun n => ?_)
      (.inr ⟨hnumber, hkey, h.ofItem ▸ hitem⟩) (fun hmem => ?_) rfl
    · rw [answersTo_append, h.numbers, if_neg (by simp [Request.numbering?]), List.append_nil]
      cases n <;> rfl
    · cases n <;> exact le_rfl
    · obtain ⟨f, hf, hfst⟩ := List.mem_map.1 hmem
      exact hnew f hf hfst
  | refused hn hnote =>
    refine h.unchanged rfl rfl rfl (fun _ => rfl) hn rfl (.inl rfl) fun hnote' => ?_
    rw [hnote] at hnote'
    cases hnote'

theorem Drafted.keeps (h : Drafted first { item, keyToken } history s d) :
    d.Keeps item keyToken history := by
  induction h with
  | nil =>
    exact ⟨rfl, rfl, rfl, fun n => by cases n <;> rfl, rfl, rfl, nofun, List.nodup_nil, nofun⟩
  | snoc _ _ hp ih => exact hp.keeps ih

theorem Draft.Keeps.item_mem_iff (h : d.Keeps item keyToken history) :
    item ∈ d.fields.map Prod.fst ↔ item ∈ (history.map Prod.snd).filterMap Answer.issued? := by
  constructor
  · intro hmem
    rcases h.named item hmem with ⟨n, k, hk, hname⟩ | ⟨-, -, hne⟩
    · have hanswer : Answer.issued (n.name k) ∈ answersTo n history := by
        rw [h.numbers]
        exact List.mem_map_of_mem (List.mem_range.2 hk)
      obtain ⟨e, he, hissued⟩ := List.mem_map.1 hanswer
      refine List.mem_filterMap.2 ⟨e.2, List.mem_map_of_mem (List.mem_of_mem_filter he), ?_⟩
      rw [hissued, hname]
      rfl
    · exact absurd rfl hne
  · intro hmem
    obtain ⟨a, ha, hissued⟩ := List.mem_filterMap.1 hmem
    obtain ⟨e, he, rfl⟩ := List.mem_map.1 ha
    rw [h.names]
    refine List.mem_filterMap.2 ⟨e, he, ?_⟩
    rw [fieldAdded]
    revert hissued
    cases e.2 <;> simp [Answer.issued?]

theorem Draft.Keeps.nodup_keys_iff (h : d.Keeps item keyToken history) :
    (item :: keyField :: d.fields.map Prod.fst).Nodup ↔
      item ≠ keyField ∧ item ∉ (history.map Prod.snd).filterMap Answer.issued? := by
  have hkey : keyField ∉ d.fields.map Prod.fst := fun hmem => by
    rcases h.named _ hmem with ⟨n, k, -, hname⟩ | ⟨-, hne, -⟩
    · exact n.name_ne_keyField k hname.symm
    · exact hne rfl
  rw [List.nodup_cons, List.nodup_cons, List.mem_cons, not_or, ← h.item_mem_iff]
  exact ⟨And.left, fun hne => ⟨hne, hkey, h.nodup⟩⟩

theorem Draft.Keeps.fieldNames (h : d.Keeps item keyToken history)
    (hitem : item ∉ (history.map Prod.snd).filterMap Answer.issued?) :
    d.schema.fieldNames = item :: keyField :: d.fields.map Prod.fst := by
  rw [Schema.fieldNames, Draft.schema]
  simp only [h.ofItem, h.slots]
  rw [List.filter_eq_self.2]
  intro x hx
  rw [bne_iff_ne]
  exact fun he => hitem (h.item_mem_iff.1 (he ▸ hx))

/-! ### Values -/

/-- The store holds a value for the request, and will go on to do so. -/
def Request.Held (s : Store) (op : Request) (v : Loc) : Prop :=
  v.index < s.size ∧ ∀ s', s.Extends s' → op.Carries s' v

/-- The values that a history has handed over are those of the draft. -/
structure Draft.Stocked (d : Draft) (s : Store) (history : List (Request × Answer)) : Prop where
  sound : d.Sound s
  held : ∃ values, List.Forall₂ (fun e v => e.1.Held s v) (history.filter isTaken) values ∧
    values.Perm (d.itemValue.values ++ d.fields.map Prod.snd)

theorem Draft.Stocked.extend (h : d.Stocked s history) (he : s.Extends s') :
    d.Stocked s' history where
  sound := ⟨h.sound.apart, fun v hv => (h.sound.item v hv).trans_le he.size,
    fun f hf => (h.sound.fields f hf).trans_le he.size⟩
  held := by
    obtain ⟨values, hheld, hperm⟩ := h.held
    refine ⟨values, hheld.imp fun e v hv => ?_, hperm⟩
    exact ⟨hv.1.trans_le he.size, fun s'' he' => hv.2 s'' (he.trans he')⟩

theorem Draft.Stocked.unchanged (h : d.Stocked s history) (hitem : d'.itemValue = d.itemValue)
    (hfields : d'.fields = d.fields) (htaken : isTaken (op, a) = false) :
    d'.Stocked s (history ++ [(op, a)]) where
  sound := ⟨hitem ▸ h.sound.apart, hitem ▸ h.sound.item, hfields ▸ h.sound.fields⟩
  held := by
    rw [List.filter_append, List.filter_cons_of_neg (by simp [htaken]), List.filter_nil,
      List.append_nil, hitem, hfields]
    exact h.held

theorem forall₂_taken {R : Request × Answer → Loc → Prop} {values : List Loc} {v : Loc}
    (h : List.Forall₂ R (history.filter isTaken) values) (htaken : isTaken (op, a) = true)
    (hv : R (op, a) v) :
    List.Forall₂ R ((history ++ [(op, a)]).filter isTaken) (values ++ [v]) := by
  rw [List.filter_append, List.filter_cons_of_pos htaken, List.filter_nil]
  exact List.rel_append h (.cons hv .nil)

theorem Draft.Stocked.field {name : String} {v : Loc} (h : d.Stocked s history)
    (hitem : d'.itemValue = d.itemValue) (hfields : d'.fields = d.fields ++ [(name, v)])
    (htaken : isTaken (op, a) = true) (hv : op.Held s v) :
    d'.Stocked s (history ++ [(op, a)]) where
  sound := by
    refine ⟨hitem ▸ h.sound.apart, hitem ▸ h.sound.item, ?_⟩
    rw [hfields]
    exact List.forall_mem_append.2 ⟨h.sound.fields, List.forall_mem_singleton.2 hv.1⟩
  held := by
    obtain ⟨values, hheld, hperm⟩ := h.held
    refine ⟨values ++ [v], forall₂_taken hheld htaken hv, ?_⟩
    rw [hitem, hfields, List.map_append, ← List.append_assoc]
    exact hperm.append_right [v]

theorem Draft.Stocked.merged {v : Loc} (h : d.Stocked s history)
    (hvalues : d'.itemValue.values = d.itemValue.values ++ [v]) (hfields : d'.fields = d.fields)
    (hapart : ∀ entries, d'.itemValue = .overridden entries → ItemTree.Apart entries)
    (htaken : isTaken (op, a) = true) (hv : op.Held s v) :
    d'.Stocked s (history ++ [(op, a)]) where
  sound := by
    refine ⟨hapart, ?_, hfields ▸ h.sound.fields⟩
    rw [hvalues]
    exact List.forall_mem_append.2 ⟨h.sound.item, List.forall_mem_singleton.2 hv.1⟩
  held := by
    obtain ⟨values, hheld, hperm⟩ := h.held
    refine ⟨values ++ [v], forall₂_taken hheld htaken hv, ?_⟩
    rw [hvalues, hfields, List.append_assoc]
    refine (hperm.append_right [v]).trans ?_
    rw [List.append_assoc]
    exact List.perm_append_comm.append_left _

theorem Performed.stocked (hp : Performed s d op a d') (h : d.Stocked s history)
    (hpath : ∀ path ∈ op.path?, path ≠ []) (hvalue : ∀ v ∈ op.value?, v.index < s.size) :
    d'.Stocked s (history ++ [(op, a)]) := by
  cases hp with
  | dynamic kind source value => exact h.field rfl rfl rfl ⟨hvalue value rfl, fun _ _ => rfl⟩
  | style hcall hcallee hget hname =>
    refine h.field rfl rfl rfl ⟨hcall, fun s' he => ?_⟩
    exact ⟨_, (he.get _ hcall).trans hget, (he.get _ hcallee).trans hname⟩
  | noted | known => exact h.unchanged rfl rfl rfl
  | merge source call hraw =>
    refine h.merged ?_ rfl nofun rfl ⟨hvalue call rfl, fun _ _ => rfl⟩
    rw [hraw]
    rfl
  | mergeAt source path call entries hentries =>
    have hpath : path ≠ [] := hpath path rfl
    refine h.merged ?_ rfl ?_ rfl ⟨hvalue call rfl, fun _ _ => rfl⟩
    · rcases hentries with ⟨hraw, rfl⟩ | ⟨hover, -⟩
      · rw [hraw]
        rfl
      · rw [hover]
        simp [ItemValue.values]
    · intro all hall
      obtain rfl := ItemValue.overridden.inj hall
      rcases hentries with ⟨-, rfl⟩ | ⟨hover, hapart⟩
      · exact ItemTree.Apart.snoc ⟨nofun, .nil⟩ hpath nofun
      · exact (h.sound.apart entries hover).snoc hpath hapart
  | named source name value => exact h.field rfl rfl rfl ⟨hvalue value rfl, fun _ _ => rfl⟩
  | refused hn hnote => exact h.unchanged rfl rfl (by simp [isTaken])

theorem Drafted.extends (h : Drafted first start history s d) : first.Extends s := by
  induction h with
  | nil => exact .refl first
  | snoc _ he _ ih => exact ih.trans he

theorem Drafted.stocked (h : Drafted first { item, keyToken } history s d)
    (hpaths : ∀ e ∈ history, ∀ path ∈ e.1.path?, path ≠ [])
    (hvalues : ∀ e ∈ history, ∀ v ∈ e.1.value?, v.index < first.size) : d.Stocked s history := by
  induction h with
  | nil => exact ⟨⟨nofun, nofun, nofun⟩, [], .nil, .nil⟩
  | snoc h he hp ih =>
    rw [List.forall_mem_append, List.forall_mem_singleton] at hpaths hvalues
    refine hp.stocked ((ih hpaths.1 hvalues.1).extend he) hpaths.2 fun v hv => ?_
    exact (hvalues.2 v hv).trans_le (h.extends.trans he).size

/-! ### Places -/

/-- Following numbered children through new nodes only leads to a node that was there before. -/
inductive PlacedAt (s : Store) (old : Nat) : Loc → List Nat → Loc → Prop
  | here {l : Loc} (h : l.index < old) : PlacedAt s old l [] l
  | child {l c v : Loc} {i : Nat} {path : List Nat} (h : old ≤ l.index)
    (hc : (s.get l).children[i]? = some c) (hp : PlacedAt s old c path v) :
    PlacedAt s old l (i :: path) v

/-- All places of old nodes, each once. -/
structure HasPlaces (s : Store) (old : Nat) (l : Loc) (places : List (List Nat × Loc)) : Prop where
  nodup : (places.map Prod.fst).Nodup
  mem : ∀ path v, PlacedAt s old l path v ↔ (path, v) ∈ places

def joinPlaces : Nat → List (List (List Nat × Loc)) → List (List Nat × Loc)
  | _, [] => []
  | i, places :: more => places.map (fun p => (i :: p.1, p.2)) ++ joinPlaces (i + 1) more

theorem mem_joinPlaces {i : Nat} {pss : List (List (List Nat × Loc))} {path : List Nat} {v : Loc} :
    (path, v) ∈ joinPlaces i pss ↔
      ∃ k rest ps, path = (i + k) :: rest ∧ pss[k]? = some ps ∧ (rest, v) ∈ ps := by
  induction pss generalizing i with
  | nil => simp [joinPlaces]
  | cons places more ih =>
    rw [joinPlaces, List.mem_append, ih, List.mem_map]
    constructor
    · rintro (⟨⟨rest, w⟩, hp, he⟩ | ⟨k, rest, ps, rfl, hk, hp⟩)
      · obtain ⟨rfl, rfl⟩ := Prod.mk.inj he
        exact ⟨0, rest, places, rfl, rfl, hp⟩
      · exact ⟨k + 1, rest, ps, by rw [Nat.add_right_comm, Nat.add_assoc], hk, hp⟩
    · rintro ⟨_ | k, rest, ps, rfl, hk, hp⟩
      · obtain rfl := Option.some.inj hk
        exact .inl ⟨(rest, v), hp, rfl⟩
      · exact .inr ⟨k, rest, ps, by rw [Nat.add_right_comm, Nat.add_assoc], hk, hp⟩

theorem nodup_joinPlaces {i : Nat} {pss : List (List (List Nat × Loc))}
    (h : ∀ ps ∈ pss, (ps.map Prod.fst).Nodup) : ((joinPlaces i pss).map Prod.fst).Nodup := by
  induction pss generalizing i with
  | nil => exact List.nodup_nil
  | cons places more ih =>
    rw [joinPlaces, List.map_append, List.map_map]
    refine List.nodup_append.2 ⟨?_, ih fun ps hps => h ps (List.mem_cons_of_mem _ hps), ?_⟩
    · have hnodup := (h places List.mem_cons_self).map (List.cons_injective (a := i))
      rwa [List.map_map] at hnodup
    · rintro x hx y hy rfl
      obtain ⟨p, -, rfl⟩ := List.mem_map.1 hx
      obtain ⟨⟨path, v⟩, hq, he⟩ := List.mem_map.1 hy
      obtain ⟨k, rest, ps, rfl, -, -⟩ := mem_joinPlaces.1 hq
      have hhead : i + 1 + k = i := (List.cons.inj he).1
      omega

theorem map_snd_joinPlaces (i : Nat) (pss : List (List (List Nat × Loc))) :
    (joinPlaces i pss).map Prod.snd = pss.flatMap (List.map Prod.snd) := by
  induction pss generalizing i with
  | nil => rfl
  | cons places more ih =>
    rw [joinPlaces, List.map_append, List.map_map, ih, List.flatMap_cons]
    rfl

variable {old : Nat} {l : Loc}

theorem HasPlaces.here (h : l.index < old) : HasPlaces s old l [([], l)] where
  nodup := List.nodup_singleton _
  mem path v := by
    rw [List.mem_singleton]
    constructor
    · intro hp
      cases hp with
      | here => rfl
      | child hnew => exact absurd h (Nat.not_lt.2 hnew)
    · intro he
      obtain ⟨rfl, rfl⟩ := Prod.mk.inj he
      exact .here h

theorem HasPlaces.node {n : Node Loc} {pss : List (List (List Nat × Loc))} (hm : s.Made old l n)
    (h : List.Forall₂ (HasPlaces s old) n.children pss) :
    HasPlaces s old l (joinPlaces 0 pss) := by
  obtain ⟨hlength, hget⟩ := List.forall₂_iff_get.1 h
  refine ⟨nodup_joinPlaces fun ps hps => ?_, fun path v => ?_⟩
  · obtain ⟨k, hk, rfl⟩ := List.getElem_of_mem hps
    exact (hget k (hlength ▸ hk) hk).nodup
  rw [mem_joinPlaces]
  constructor
  · intro hp
    cases hp with
    | here hold => exact absurd hold (Nat.not_lt.2 hm.new)
    | @child _ c _ k path hnew hc hp =>
      rw [hm.get] at hc
      obtain ⟨hk, rfl⟩ := List.getElem?_eq_some_iff.1 hc
      have hk' : k < pss.length := hlength ▸ hk
      exact ⟨k, path, pss[k], by rw [Nat.zero_add], List.getElem?_eq_getElem hk',
        ((hget k hk hk').mem path v).1 hp⟩
  · rintro ⟨k, rest, ps, rfl, hps, hp⟩
    obtain ⟨hk', rfl⟩ := List.getElem?_eq_some_iff.1 hps
    have hk : k < n.children.length := hlength ▸ hk'
    rw [Nat.zero_add]
    refine .child hm.new ?_ (((hget k hk hk').mem rest v).2 hp)
    rw [hm.get]
    exact List.getElem?_eq_getElem hk

theorem hasPlaces_of_spells {root : String} {properties : List String}
    (h : s.Spells old root properties l) : HasPlaces s old l [] := by
  induction h with
  | name h => exact .node h .nil
  | member property h _ ih => exact .node h (.cons ih .nil)

theorem exists_places {fields : List (String × Loc)} {g : String × Loc → List Loc}
    (h : ∀ f ∈ fields, ∃ ps, HasPlaces s old f.2 ps ∧ (ps.map Prod.snd).Perm (g f)) :
    ∃ pss, List.Forall₂ (HasPlaces s old) (fields.map Prod.snd) pss ∧
      (pss.flatMap (List.map Prod.snd)).Perm (fields.flatMap g) := by
  induction fields with
  | nil => exact ⟨[], .nil, .nil⟩
  | cons f fields ih =>
    obtain ⟨ps, hps, hperm⟩ := h f List.mem_cons_self
    obtain ⟨pss, hpss, hperms⟩ := ih fun x hx => h x (List.mem_cons_of_mem f hx)
    exact ⟨ps :: pss, .cons hps hpss, hperm.append hperms⟩

theorem Copies.hasPlaces {base : List String} {entries : List (List String × Loc)}
    (h : Copies s old base entries l) :
    ∃ ps, HasPlaces s old l ps ∧ (ps.map Prod.snd).Perm (entries.map Prod.snd) := by
  induction h with
  | value base hv => exact ⟨_, .here hv, .refl _⟩
  | @copy base entries whole l fields h hpaths hwhole hnames _ ih =>
    -- the spread in front is made of new nodes only, so it adds no place
    obtain ⟨pss, hpss, hperm⟩ := exists_places ih
    refine ⟨joinPlaces 0 ([] :: pss), .node h ?_, ?_⟩
    · rw [Node.children, List.flatMap_cons, children_fields]
      exact .cons (hasPlaces_of_spells hwhole) hpss
    · have hheads : (fields.flatMap fun f => (pathsUnder f.1 entries).map Prod.snd) =
          (pathHeads entries).flatMap fun x => (pathsUnder x entries).map Prod.snd := by
        rw [← hnames, List.flatMap_map]
      rw [map_snd_joinPlaces, List.flatMap_cons]
      exact (hperm.trans (.of_eq hheads)).trans (pathHeads_perm hpaths)

theorem ItemAt.hasPlaces {i : ItemValue} (h : ItemAt s old item i l) :
    ∃ ps, HasPlaces s old l ps ∧ (ps.map Prod.snd).Perm i.values := by
  cases h with
  | raw h => exact ⟨_, .node h .nil, .nil⟩
  | merged h => exact ⟨_, .here h, .refl _⟩
  | overridden h => exact h.hasPlaces

theorem RecordAt.hasPlaces {value record : Loc} (h : RecordAt s old d value record)
    (hfields : ∀ f ∈ d.fields, f.2.index < old) :
    ∃ ps, HasPlaces s old record ps ∧
      (ps.map Prod.snd).Perm (d.itemValue.values ++ d.fields.map Prod.snd) := by
  obtain ⟨key, hkey, hrecord⟩ := h.made
  obtain ⟨ps, hps, hperm⟩ := h.value.hasPlaces
  obtain ⟨pss, hpss, hperms⟩ := exists_places (g := fun f => [f.2]) fun f hf =>
    ⟨_, HasPlaces.here (s := s) (hfields f hf), .refl _⟩
  refine ⟨joinPlaces 0 (ps :: [] :: pss), .node hrecord ?_, ?_⟩
  · rw [Node.children, List.flatMap_cons, List.flatMap_cons, children_fields]
    exact .cons hps (.cons (.node hkey .nil) hpss)
  · have hvalues : d.fields.flatMap (fun f => [f.2]) = d.fields.map Prod.snd :=
      List.map_eq_flatMap.symm
    rw [map_snd_joinPlaces, List.flatMap_cons, List.flatMap_cons, ← hvalues]
    exact hperm.append hperms

theorem exists_perm_of_map_perm {α β : Type} {f : α → β} {xs : List α} {ys : List β}
    (h : (xs.map f).Perm ys) : ∃ xs' : List α, xs'.Perm xs ∧ xs'.map f = ys := by
  generalize hzs : xs.map f = zs at h
  induction h generalizing xs with
  | nil => exact ⟨xs, .refl xs, hzs⟩
  | cons y _ ih =>
    obtain ⟨x, xs, rfl, rfl, hxs⟩ := List.map_eq_cons_iff.1 hzs
    obtain ⟨xs', hperm, rfl⟩ := ih hxs
    exact ⟨x :: xs', hperm.cons x, rfl⟩
  | swap y z zs =>
    obtain ⟨a, xs, rfl, rfl, hxs⟩ := List.map_eq_cons_iff.1 hzs
    obtain ⟨b, xs, rfl, rfl, rfl⟩ := List.map_eq_cons_iff.1 hxs
    exact ⟨b :: a :: xs, .swap a b xs, rfl⟩
  | trans _ _ ih ih' =>
    obtain ⟨xs', hperm, hxs'⟩ := ih hzs
    obtain ⟨xs'', hperm', rfl⟩ := ih' hxs'
    exact ⟨xs'', hperm'.trans hperm, rfl⟩

theorem Draft.Stocked.places (h : d.Stocked s history) :
    ∃ places, HasPlaces (d.build s).2 s.size (d.build s).1 places ∧
      List.Forall₂ (fun e p => e.1.Carries (d.build s).2 p.2) (history.filter isTaken) places := by
  obtain ⟨hextends, value, hrecord⟩ := (Leads.build h.sound).elim
  obtain ⟨ps, hps, hperm⟩ := hrecord.hasPlaces h.sound.fields
  obtain ⟨values, hheld, hvalues⟩ := h.held
  -- the record has the places in its own order, which is not that of the history
  obtain ⟨places, hplaces, rfl⟩ := exists_perm_of_map_perm (hperm.trans hvalues.symm)
  refine ⟨places, ⟨?_, fun path v => ?_⟩, ?_⟩
  · exact (hplaces.map Prod.fst).nodup_iff.2 hps.nodup
  · rw [hps.mem, hplaces.mem_iff]
  · exact (List.forall₂_map_right_iff.1 hheld).imp fun e p hp => hp.2 _ hextends

/-! ### What leaves no trace -/

theorem Draft.performAll_cons (d : Draft) (op : Request) (ops : List Request) (s : Store) :
    let r := d.perform op s
    let r' := r.1.2.performAll ops r.2
    d.performAll (op :: ops) s = ((r.1.1 :: r'.1.1, r'.1.2), r'.2) := rfl

theorem Draft.performAll_append (d : Draft) (before after : List Request) (s : Store) :
    let r := d.performAll before s
    let r' := r.1.2.performAll after r.2
    d.performAll (before ++ after) s = ((r.1.1 ++ r'.1.1, r'.1.2), r'.2) := by
  induction before generalizing d s with
  | nil => rfl
  | cons op before ih =>
    rw [List.cons_append, performAll_cons, performAll_cons]
    simp only [ih, List.cons_append]

theorem Draft.perform_of_refused (h : (d.perform op s).1.1 = .refused) :
    d.perform op s = ((.refused, d), s) := by
  have answered (d₁ : Option Draft) (h : (d.answer d₁).1 = .refused) :
      d.answer d₁ = (.refused, d) := by
    cases d₁ with
    | none => rfl
    | some d₁ => cases h
  cases op with
  | dynamic | style | note => cases h
  | merge source call => exact congrArg (·, s) (answered _ h)
  | mergeAt source path call => exact congrArg (·, s) (answered _ h)
  | named source name value => exact congrArg (·, s) (answered _ h)

theorem Draft.perform_note_again (source : Loc) (h : ∃ slot ∈ d.slots, slot.kind = .itemWhole) :
    d.perform (.note source) s = ((.noted, d), s) := by
  obtain ⟨slot, hslot, hkind⟩ := h
  have hany : d.slots.any (·.kind == .itemWhole) = true :=
    List.any_eq_true.2 ⟨slot, hslot, beq_iff_eq.2 hkind⟩
  show ((Answer.noted, d.noteItem source), s) = _
  rw [noteItem, if_pos hany]

theorem Draft.compose_skip (d : Draft) {before after : List Request}
    (h : ∃ a, (d.performAll before s).1.2.perform op (d.performAll before s).2 =
      ((a, (d.performAll before s).1.2), (d.performAll before s).2)) :
    d.compose (before ++ op :: after) s = d.compose (before ++ after) s := by
  obtain ⟨a, h⟩ := h
  have hsame : (d.performAll (before ++ op :: after) s).1.2 =
        (d.performAll (before ++ after) s).1.2 ∧
      (d.performAll (before ++ op :: after) s).2 = (d.performAll (before ++ after) s).2 := by
    rw [performAll_append, performAll_append]
    simp only [performAll_cons, h, and_self]
  have hcompose (ops : List Request) : d.compose ops s =
      (((((d.performAll ops s).1.2.build (d.performAll ops s).2)).1,
        (d.performAll ops s).1.2.schema),
        ((d.performAll ops s).1.2.build (d.performAll ops s).2).2) := rfl
  rw [hcompose, hcompose, hsame.1, hsame.2]

/-! ### Whole histories -/

theorem Draft.build_keys (d : Draft) (s : Store) :
    ∃ entries, (d.build s).2.get (d.build s).1 = .object entries ∧
      entries.map Entry.fieldName? =
        (d.item :: keyField :: d.fields.map Prod.fst).map some := by
  refine ⟨_, Store.get_add_new _ _, ?_⟩
  simp [Entry.field, Entry.fieldName?, Function.comp_def]

theorem Draft.drafted (item keyToken : String) (ops : List Request) (s : Store) :
    let start : Draft := { item, keyToken }
    let r := start.performAll ops s
    r.1.1.length = ops.length ∧ Drafted s start (ops.zip r.1.1) r.2 r.1.2 :=
  (Drafted.performAll .nil ops).elim.2

theorem Draft.compose_without {before after : List Request}
    (h : ((Draft.performAll { item, keyToken } (before ++ op :: after)) s).1.1[before.length]? =
        some .refused ∨ op.isNote = true ∧ ∃ op' ∈ before, op'.isNote = true) :
    Draft.compose { item, keyToken } (before ++ op :: after) s =
      Draft.compose { item, keyToken } (before ++ after) s := by
  obtain ⟨hlength, hdrafted⟩ := Draft.drafted item keyToken before s
  apply compose_skip
  rcases h with hrefused | ⟨hnote, op', hop', hnote'⟩
  · rw [performAll_append, performAll_cons, List.getElem?_append_right hlength.le, hlength,
      Nat.sub_self, List.getElem?_cons_zero] at hrefused
    exact ⟨.refused, perform_of_refused (Option.some.inj hrefused)⟩
  · cases op with
    | note source =>
      refine ⟨.noted, perform_note_again source (hdrafted.keeps.noted ?_)⟩
      obtain ⟨k, hk, rfl⟩ := List.getElem_of_mem hop'
      exact ⟨_, List.getElem_mem (n := k) (by simpa [hlength] using hk), by simpa using hnote'⟩
    | _ => cases hnote

/-- Any requests in any order come to a record with the item, the key and the fields in the order
in which they were asked for. Numbers are given out from zero on in two rows, and slots are
numbered as they come. What was refused or noted before leaves no trace. Each value that was taken
has one place in the record, and there is nothing else in it. Its keys differ, and are those of the
schema, unless the name of the item is the name of the key or a number that was given out. -/
theorem Draft.performAll_builds (item keyToken : String) (ops : List Request) (s : Store)
    (hpaths : ∀ op ∈ ops, ∀ path ∈ op.path?, path ≠ []) :
    let start : Draft := { item, keyToken }
    let answers := (start.performAll ops s).1.1
    let d := (start.performAll ops s).1.2
    let s₁ := (start.performAll ops s).2
    let record := (d.build s₁).1
    let s₂ := (d.build s₁).2
    let history := ops.zip answers
    let keys := item :: keyField :: history.filterMap fieldAdded
    let issued := answers.filterMap Answer.issued?
    answers.length = ops.length ∧
      (∃ entries, s₂.get record = .object entries ∧
        entries.map Entry.fieldName? = keys.map some) ∧
      (∀ n : Numbering, answersTo n history =
        (List.range (answersTo n history).length).map fun k => .issued (n.name k)) ∧
      d.schema.slots.map Slot.position = List.range d.schema.slots.length ∧
      (∀ before op after, ops = before ++ op :: after →
        (answers[before.length]? = some .refused ∨
          op.isNote = true ∧ ∃ op' ∈ before, op'.isNote = true) →
        start.compose ops s = start.compose (before ++ after) s) ∧
      ((∀ op ∈ ops, ∀ v ∈ op.value?, v.index < s.size) →
        ∃ places, HasPlaces s₂ s₁.size record places ∧
          List.Forall₂ (fun e p => e.1.Carries s₂ p.2) (history.filter isTaken) places) ∧
      (keys.Nodup ↔ item ≠ keyField ∧ item ∉ issued) ∧
      (item ≠ keyField → item ∉ issued → keys = d.schema.fieldNames) := by
  intro start answers d s₁ record s₂ history keys issued
  obtain ⟨hlength, hdrafted⟩ : answers.length = ops.length ∧ Drafted s start history s₁ d :=
    Draft.drafted item keyToken ops s
  have hkeeps := hdrafted.keeps
  have hissued : (history.map Prod.snd).filterMap Answer.issued? = issued := by
    rw [List.map_snd_zip hlength.le]
  have hkeys : keys = item :: keyField :: d.fields.map Prod.fst := by rw [hkeeps.names]
  have hops : ∀ e ∈ history, e.1 ∈ ops := fun e he => (List.of_mem_zip he).1
  refine ⟨hlength, ?_, fun n => ?_, hkeeps.positions, ?_, fun hvalues => ?_, ?_, fun _ hitem => ?_⟩
  · obtain ⟨entries, hget, hnames⟩ := d.build_keys s₁
    exact ⟨entries, hget, by rw [hnames, hkeys, hkeeps.ofItem]⟩
  · have hanswers := hkeeps.numbers n
    rw [hanswers, List.length_map, List.length_range]
  · rintro before op after hsplit hop
    subst hsplit
    exact Draft.compose_without hop
  · exact (hdrafted.stocked (fun e he => hpaths e.1 (hops e he)) fun e he =>
      hvalues e.1 (hops e he)).places
  · rw [hkeys, hkeeps.nodup_keys_iff, hissued]
  · rw [hkeys]
    exact (hkeeps.fieldNames (hissued ▸ hitem)).symm

end

/-- Two numbers and two merges, of which the second one overlaps with the first, with other
requests in between. -/
def mixedRequests : List Request :=
  [.dynamic .generic ⟨0⟩ ⟨0⟩, .note ⟨1⟩, .mergeAt ⟨1⟩ ["info", "rows"] ⟨2⟩, .style ⟨0⟩ "css",
    .mergeAt ⟨1⟩ ["info"] ⟨2⟩, .note ⟨1⟩, .named ⟨1⟩ "_d0" ⟨0⟩, .named ⟨1⟩ "cells" ⟨0⟩]

def mixedStore : Store := ⟨#[.name "a", .name "row", .name "rows"]⟩

theorem mixedRequests_build :
    let r := Draft.performAll { item := "row", keyToken := "_key0" } mixedRequests mixedStore
    (∀ op ∈ mixedRequests, ∀ path ∈ op.path?, path ≠ []) ∧
      (∀ op ∈ mixedRequests, ∀ v ∈ op.value?, v.index < mixedStore.size) ∧
      r.1.1 = [.issued "_d0", .noted, .accepted, .issued "_s0", .refused, .noted, .refused,
        .accepted] ∧
      r.1.2.schema.fieldNames = ["row", "_key", "_d0", "_s0", "cells"] ∧
      ∃ places, HasPlaces (r.1.2.build r.2).2 r.2.size (r.1.2.build r.2).1 places ∧
        List.Forall₂ (fun e p => e.1.Carries (r.1.2.build r.2).2 p.2)
          ((mixedRequests.zip r.1.1).filter isTaken) places := by
  have hpaths : ∀ op ∈ mixedRequests, ∀ path ∈ op.path?, path ≠ [] := by
    simp [mixedRequests, Request.path?]
  have hvalues : ∀ op ∈ mixedRequests, ∀ v ∈ op.value?, v.index < mixedStore.size := by
    simp [mixedRequests, Request.value?, mixedStore, Store.size]
  have hanswers : (Draft.performAll { item := "row", keyToken := "_key0" } mixedRequests
      mixedStore).1.1 = [.issued "_d0", .noted, .accepted, .issued "_s0", .refused, .noted,
        .refused, .accepted] := by
    cbv
  obtain ⟨-, -, -, -, -, hplaces, -, hfields⟩ :=
    Draft.performAll_builds "row" "_key0" mixedRequests mixedStore hpaths
  refine ⟨hpaths, hvalues, hanswers, ?_, hplaces hvalues⟩
  rw [← hfields (by decide) (by rw [hanswers]; decide), hanswers]
  decide

end JsxLoops.Loop
