import JsxLoops.Proofs.Records
import Mathlib.Data.List.Pairwise

/-!
What a log says about its record. Every tree that was moved into the record has its place in it: in
the place of the item, at the end of a path of the item's copy, or in a field. The fields are
numbered in the order of the log, and no two of them have one name.
-/

namespace JsxLoops.Loop

open JsxLoops.Tree Located

variable {adapter : Adapter} {scope : LoopScope} {item keyToken : String} {log : List Event}
  {d d' : Draft} {e : Event}

theorem Logged.noted {start : Draft} (h : Logged adapter scope start log d) (he : e ∈ log) :
    ∃ d d', Noted adapter scope d e d' := by
  induction h with
  | nil => cases he
  | snoc _ hn ih =>
    rcases List.mem_append.1 he with he | he
    · exact ih he
    · obtain rfl := List.mem_singleton.1 he
      exact ⟨_, _, hn⟩

/-! ### The item -/

theorem Noted.itemOf_of_merging (hn : Noted adapter scope d e d') (h : d.Holds log) :
    (e.holding = .merged → itemOf log = .raw) ∧
      ∀ path, e.holding = .under path → ∀ carrier, itemOf log ≠ .merged carrier := by
  cases hn with
  | merged wrapper receiver carrier hs hd =>
    obtain ⟨hraw, -⟩ := Draft.mergeItem_eq_some hd
    exact ⟨fun _ => ItemTree.value_eq_raw (h.item ▸ hraw), by simp⟩
  | under wrapper receiver carrier path hs hd =>
    refine ⟨by simp, fun _ _ carrier hi => ?_⟩
    obtain ⟨entries, ⟨hraw, -⟩ | ⟨hover, -⟩, -⟩ := Draft.mergePath_eq_some hd
    · rw [h.item, hi] at hraw
      cases hraw
    · rw [h.item, hi] at hover
      cases hover
  | _ => exact ⟨by simp, by simp⟩

theorem Logged.itemOf_of_mem (h : Logged adapter scope { item, keyToken } log d) (he : e ∈ log) :
    (e.holding = .merged → itemOf log = .merged e.carrier) ∧
      ∀ path, e.holding = .under path →
        ∃ entries, itemOf log = .overridden entries ∧ (path, e.carrier) ∈ entries := by
  induction h with
  | nil => cases he
  | @snoc log e' d d' h hn ih =>
    obtain ⟨hmerged, hunder⟩ := hn.itemOf_of_merging h.holds
    rw [itemOf_append]
    rcases List.mem_append.1 he with he | he
    · obtain ⟨ihm, ihu⟩ := ih he
      refine ⟨fun hh => ?_, fun path hh => ?_⟩
      · rw [ItemTree.note]
        split
        case h_1 hh' => rw [ihm hh] at hmerged; cases hmerged hh'
        case h_2 path hh' => exact absurd (ihm hh) (hunder path hh' _)
        case h_3 => exact ihm hh
      · obtain ⟨entries, hi, hmem⟩ := ihu path hh
        rw [ItemTree.note]
        split
        case h_1 hh' => rw [hi] at hmerged; cases hmerged hh'
        case h_2 path' _ =>
          rw [hi]
          exact ⟨_, rfl, List.mem_append_left _ hmem⟩
        case h_3 => exact ⟨entries, hi, hmem⟩
    · obtain rfl := List.mem_singleton.1 he
      refine ⟨fun hh => ?_, fun path hh => ?_⟩
      · rw [ItemTree.note, hh]
      · rw [ItemTree.note, hh]
        exact ⟨_, rfl, List.mem_append_right _ (List.mem_singleton_self _)⟩

/-! ### Where a record holds what -/

theorem exists_field_of_mem {entries : List (List String × Located)} {path : List String}
    {fields : List (String × Located)} {x whole : Located} (hpaths : ∀ e ∈ entries, e.1 ≠ [])
    (hnames : fields.map Prod.fst = pathHeads entries) (hx : (path, x) ∈ entries) :
    ∃ f ∈ fields, ∃ rest, path = f.1 :: rest ∧ (rest, x) ∈ pathsUnder f.1 entries ∧
      f.2 ∈ (Node.object (.spread whole :: fields.map fun f => .field f.1 f.2)).children := by
  obtain _ | ⟨head, path⟩ := path
  · exact absurd rfl (hpaths _ hx)
  · have hhead : head ∈ fields.map Prod.fst := hnames ▸ mem_pathHeads.2 ⟨path, x, hx⟩
    obtain ⟨f, hf, rfl⟩ := List.mem_map.1 hhead
    refine ⟨f, hf, path, rfl, mem_pathsUnder.2 hx, ?_⟩
    simp only [Node.children, List.flatMap_cons, List.mem_append, List.flatMap_map]
    exact .inr (List.mem_flatMap.2 ⟨f, hf, by simp⟩)

theorem Overrides.occurs {base path : List String} {entries : List (List String × Located)}
    {t x : Located} (h : Overrides base entries t) (hx : (path, x) ∈ entries) : Occurs x t := by
  induction h generalizing path x with
  | carrier base t =>
    obtain ⟨-, rfl⟩ := Prod.mk.inj (List.mem_singleton.1 hx)
    exact .self
  | copy l hpaths _ hnames _ ih =>
    obtain ⟨f, hf, _, rfl, hx, hchild⟩ := exists_field_of_mem hpaths hnames hx
    exact .child hchild (ih f hf hx)

theorem IsRecord.occurs {record x : Located} (hr : IsRecord item keyToken log record)
    (h : Logged adapter scope { item, keyToken } log d) (hx : x ∈ heldBy log) :
    Occurs x record := by
  obtain ⟨e, he, hx⟩ := List.mem_flatMap.1 hx
  obtain ⟨l, key, hv⟩ := hr
  cases hh : e.holding with
  | item => simp [Event.held, hh] at hx
  | merged =>
    obtain rfl : x = e.carrier := by simpa [Event.held, hh] using hx
    rw [(h.itemOf_of_mem he).1 hh] at hv
    cases hv
    exact .child (by simp [Node.children]) .self
  | under path =>
    obtain rfl : x = e.carrier := by simpa [Event.held, hh] using hx
    obtain ⟨entries, hi, hmem⟩ := (h.itemOf_of_mem he).2 path hh
    rw [hi] at hv
    cases hv with
    | overridden hv => exact .child (by simp [Node.children]) (hv.occurs hmem)
  | field name =>
    obtain rfl : x = e.carrier := by simpa [Event.held, hh] using hx
    have hf : (name, e.carrier) ∈ fieldsOf log :=
      List.mem_filterMap.2 ⟨e, he, by rw [Event.field?, hh]⟩
    refine .child ?_ .self
    simp only [Node.children, List.flatMap_cons, List.mem_append, List.flatMap_map]
    exact .inr (.inr (List.mem_flatMap.2 ⟨_, hf, by simp⟩))

/-! ### The names of fields -/

theorem isDecimalDigit_of_isDigit {c : Char} (h : c.isDigit = true) :
    Text.isDecimalDigit c = true := by
  rw [Char.isDigit, Bool.and_eq_true, decide_eq_true_eq, decide_eq_true_eq] at h
  have h0 : 48 ≤ c.toNat := h.1
  have h9 : c.toNat ≤ 57 := h.2
  simp [Text.isDecimalDigit, Text.digitRanges, Text.inRanges, h0, h9]

/-- The two ways of numbering fields. -/
inductive Numbering where
  /-- `_d0`, `_d1`, … -/
  | value
  /-- `_s0`, `_s1`, … -/
  | style
deriving DecidableEq

namespace Numbering

def letter : Numbering → Char
  | .value => 'd'
  | .style => 's'

def name : Numbering → Nat → String
  | .value, k => "_d" ++ toString k
  | .style, k => "_s" ++ toString k

/-- How many numbers a draft has used. -/
def count : Numbering → Draft → Nat
  | .value, d => d.dynamicCount
  | .style, d => d.styleCount

theorem toList_name (n : Numbering) (k : Nat) :
    (n.name k).toList = '_' :: n.letter :: Nat.toDigits 10 k := by
  cases n <;> simp [name, letter, Nat.toList_repr]

theorem name_inj {m n : Numbering} {j k : Nat} (h : m.name j = n.name k) : m = n ∧ j = k := by
  have hl := congrArg String.toList h
  rw [toList_name, toList_name, List.cons.injEq, List.cons.injEq] at hl
  refine ⟨?_, ?_⟩
  · revert hl
    cases m <;> cases n <;> simp [letter]
  · rw [← Nat.ofDigitChars_toDigits (b := 10) (n := j) (by omega) (by omega), hl.2.2,
      Nat.ofDigitChars_toDigits (by omega) (by omega)]

theorem isNumberedField_name (n : Numbering) (k : Nat) : isNumberedField (n.name k) = true := by
  have hdigits : (Nat.toDigits 10 k).all Text.isDecimalDigit = true :=
    List.all_eq_true.2 fun c hc =>
      isDecimalDigit_of_isDigit (Nat.isDigit_of_mem_toDigits (by omega) (by omega) hc)
  have hne : (Nat.toDigits 10 k).isEmpty = false :=
    List.isEmpty_eq_false_iff.2 Nat.toDigits_ne_nil
  rw [isNumberedField, toList_name]
  cases n <;> simp [letter, hdigits, hne]

theorem name_ne_keyField (n : Numbering) (k : Nat) : n.name k ≠ keyField := by
  intro h
  have hnumber := n.isNumberedField_name k
  rw [h] at hnumber
  revert hnumber
  decide

end Numbering

/-- How a draft gets a field: with the next number, or with the name of a local variable. -/
inductive Named (scope : LoopScope) (d d' : Draft) : String → Prop
  | numbered (n : Numbering) (hn : n.count d' = n.count d + 1)
    (hothers : ∀ m ≠ n, m.count d' = m.count d) : Named scope d d' (n.name (n.count d))
  | ofLocal {name : String} (hl : name ∈ scope.locals) (hitem : name ≠ d.item)
    (hkey : name ≠ keyField) (hnumber : isNumberedField name = false)
    (hnew : ∀ f ∈ d.fields, f.1 ≠ name) (hcounts : ∀ m : Numbering, m.count d' = m.count d) :
    Named scope d d' name

theorem Noted.adds_field (h : Noted adapter scope d e d') {name : String}
    (he : e.holding = .field name) : Named scope d d' name := by
  cases h with
  | value spot v shape hs hshape =>
    obtain rfl := Holding.field.inj he
    exact Named.numbered .value rfl fun m hm => by cases m <;> first | rfl | cases hm rfl
  | style spot v call callee hshape =>
    obtain rfl := Holding.field.inj he
    exact Named.numbered .style rfl fun m hm => by cases m <;> first | rfl | cases hm rfl
  | field wrapper receiver carrier =>
    obtain rfl := Holding.field.inj he
    exact Named.numbered .value rfl fun m hm => by cases m <;> first | rfl | cases hm rfl
  | named wrapper receiver carrier name' hs hd =>
    obtain rfl := Holding.field.inj he
    obtain ⟨⟨hitem, hkey, hnumber, hnew⟩, rfl⟩ := Draft.pushNamed_eq_some hd
    exact .ofLocal (nestedOf_eq_local hs).2 hitem hkey hnumber hnew fun m => by cases m <;> rfl
  | _ => cases he

theorem Noted.counts (h : Noted adapter scope d e d') (he : e.field? = none) (m : Numbering) :
    m.count d' = m.count d := by
  cases h with
  | item spot v =>
    rw [Draft.noteItem]
    split <;> cases m <;> rfl
  | merged wrapper receiver carrier hs hd =>
    obtain ⟨-, rfl⟩ := Draft.mergeItem_eq_some hd
    cases m <;> rfl
  | under wrapper receiver carrier path hs hd =>
    obtain ⟨entries, -, rfl⟩ := Draft.mergePath_eq_some hd
    cases m <;> rfl
  | _ => cases he

theorem Event.field?_eq_some {f : String × Located} (h : e.field? = some f) :
    e.holding = .field f.1 ∧ e.carrier = f.2 := by
  rw [Event.field?] at h
  split at h
  · obtain rfl := Option.some.inj h
    exact ⟨‹_›, rfl⟩
  · cases h

theorem Noted.fieldsOf_append (h : Noted adapter scope d e d') (log : List Event) :
    (fieldsOf (log ++ [e]) = fieldsOf log ∧ ∀ m : Numbering, m.count d' = m.count d) ∨
      ∃ name, fieldsOf (log ++ [e]) = fieldsOf log ++ [(name, e.carrier)] ∧
        Named scope d d' name := by
  rw [Loop.fieldsOf_append]
  cases hf : e.field? with
  | none => exact .inl ⟨by simp [fieldsOf, hf], h.counts hf⟩
  | some f =>
    obtain ⟨hh, hc⟩ := Event.field?_eq_some hf
    exact .inr ⟨f.1, by simp [fieldsOf, hf, hc], h.adds_field hh⟩

theorem Named.le {name : String} (h : Named scope d d' name) (m : Numbering) :
    m.count d ≤ m.count d' := by
  cases h with
  | numbered n hn hothers =>
    by_cases hm : m = n
    · rw [hm, hn]
      exact Nat.le_succ _
    · exact (hothers m hm).ge
  | ofLocal _ _ _ _ _ hcounts => exact (hcounts m).ge

/-- A name that a field can have when the numbers below the counts of a draft are used. -/
inductive Issued (scope : LoopScope) (item : String) (d : Draft) : String → Prop
  | numbered (n : Numbering) (k : Nat) (hk : k < n.count d) : Issued scope item d (n.name k)
  | ofLocal {name : String} (hl : name ∈ scope.locals) (hitem : name ≠ item)
    (hkey : name ≠ keyField) (hnumber : isNumberedField name = false) : Issued scope item d name

theorem Issued.mono {name : String} (h : Issued scope item d name)
    (hd : ∀ m : Numbering, m.count d ≤ m.count d') : Issued scope item d' name := by
  cases h with
  | numbered n k hk => exact .numbered n k (hk.trans_le (hd n))
  | ofLocal hl hitem hkey hnumber => exact .ofLocal hl hitem hkey hnumber

theorem Logged.issued (h : Logged adapter scope { item, keyToken } log d) :
    ∀ f ∈ fieldsOf log, Issued scope item d f.1 := by
  induction h with
  | nil => simp [fieldsOf]
  | @snoc log e d d' h hn ih =>
    intro f hmem
    rcases hn.fieldsOf_append log with ⟨hf, hd⟩ | ⟨name, hf, hname⟩
    · rw [hf] at hmem
      exact (ih f hmem).mono fun m => (hd m).ge
    · rw [hf] at hmem
      rcases List.mem_append.1 hmem with hmem | hmem
      · exact (ih f hmem).mono hname.le
      · rw [List.mem_singleton.1 hmem]
        cases hname with
        | numbered n hn _ => exact .numbered n _ (by omega)
        | ofLocal hl hitem hkey hnumber =>
          exact .ofLocal hl (fun he => hitem (he.trans h.names.1.symm)) hkey hnumber

theorem Issued.lt {n : Numbering} {k : Nat} (h : Issued scope item d (n.name k)) :
    k < n.count d := by
  generalize hname : n.name k = name at h
  cases h with
  | numbered m j hj =>
    obtain ⟨rfl, rfl⟩ := Numbering.name_inj hname
    exact hj
  | ofLocal _ _ _ hnumber =>
    rw [← hname, n.isNumberedField_name] at hnumber
    cases hnumber

theorem Logged.nodup_fields (h : Logged adapter scope { item, keyToken } log d) :
    ((fieldsOf log).map Prod.fst).Nodup := by
  induction h with
  | nil => simp [fieldsOf]
  | @snoc log e d d' h hn ih =>
    rcases hn.fieldsOf_append log with ⟨hf, -⟩ | ⟨name, hf, hname⟩
    · rwa [hf]
    · rw [hf, List.map_append, List.map_singleton, List.nodup_append]
      refine ⟨ih, List.nodup_singleton _, ?_⟩
      intro x hx y hy he
      obtain ⟨f, hmem, rfl⟩ := List.mem_map.1 hx
      obtain rfl := List.mem_singleton.1 hy
      have hissued := h.issued f hmem
      rw [he] at hissued
      cases hname with
      | numbered => exact Nat.lt_irrefl _ hissued.lt
      | ofLocal _ _ _ _ hnew =>
        refine hnew (f.1, f.2.loc) ?_ he
        rw [h.holds.fields]
        exact List.mem_map_of_mem hmem

theorem Logged.event_unique {e' : Event} {name : String}
    (h : Logged adapter scope { item, keyToken } log d) (he : e ∈ log) (he' : e' ∈ log)
    (hh : e.holding = .field name) (hh' : e'.holding = .field name) : e = e' := by
  have hapart := h.nodup_fields
  rw [fieldsOf, List.Nodup, List.pairwise_map, List.pairwise_filterMap] at hapart
  have hsymm : Std.Symm fun e e' : Event =>
      ∀ f, e.field? = some f → ∀ f', e'.field? = some f' → f.1 ≠ f'.1 :=
    ⟨fun x y hxy f hf f' hf' => (hxy f' hf' f hf).symm⟩
  by_contra hne
  exact hapart.forall he he' hne (name, e.carrier) (by rw [Event.field?, hh])
    (name, e'.carrier) (by rw [Event.field?, hh']) rfl

theorem Logged.exists_field (h : Logged adapter scope { item, keyToken } log d) {n : Numbering}
    {k : Nat} (hk : k < n.count d) : ∃ f ∈ fieldsOf log, f.1 = n.name k := by
  induction h with
  | nil => cases n <;> cases hk
  | @snoc log e d d' h hn ih =>
    rcases hn.fieldsOf_append log with ⟨hf, hd⟩ | ⟨name, hf, hname⟩
    · rw [hf]
      exact ih (hd n ▸ hk)
    · rw [hf]
      by_cases hlt : k < n.count d
      · obtain ⟨f, hf, he⟩ := ih hlt
        exact ⟨f, List.mem_append_left _ hf, he⟩
      · refine ⟨_, List.mem_append_right _ (List.mem_singleton_self _), ?_⟩
        cases hname with
        | numbered m hm hothers =>
          by_cases hmn : n = m
          · subst hmn
            obtain rfl : k = n.count d := by omega
            rfl
          · exact absurd (hothers n hmn ▸ hk) hlt
        | ofLocal _ _ _ _ _ hcounts => exact absurd (hcounts n ▸ hk) hlt

end JsxLoops.Loop
