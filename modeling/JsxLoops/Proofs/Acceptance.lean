import JsxLoops.Proofs.Operations
import JsxLoops.Proofs.Verification
import Mathlib

/-!
What verification accepts. The rules for a site are stated about the store alone, in the order they
are checked in. Verification accepts a list of sites exactly if the numbers increase and every rule
is kept; what it reports otherwise is the first rule that the first offending site breaks, unless it
looks up a node before that which the store does not have. Sites may come from anywhere, not only
from lowering.
-/

namespace JsxLoops.Loop

open JsxLoops.Tree

variable {adapter : Adapter} {s : Store} {l : Loc} {site : Site} {sites : List Site}

/-! ### Numbered fields -/

/-- Digits that make a number of a machine word. -/
def DigitsOf (text : List Char) (number : Nat) : Prop :=
  text ≠ [] ∧ (∀ c ∈ text, c.isDigit) ∧ Nat.ofDigitChars 10 text 0 = number ∧ number < UInt64.size

/-- Such digits, with a plus sign in front or without. -/
def Numeral (text : List Char) (number : Nat) : Prop :=
  DigitsOf text number ∨ ∃ digits, text = '+' :: digits ∧ DigitsOf digits number

theorem fieldNumber?_eq_some_iff {text : List Char} {number : Nat} :
    fieldNumber? text = some number ↔ Numeral text number := by
  by_cases hplus : ∃ rest, text = '+' :: rest
  · obtain ⟨rest, rfl⟩ := hplus
    have hnot : ¬ DigitsOf ('+' :: rest) number := fun h =>
      absurd (h.2.1 '+' List.mem_cons_self) (by decide)
    rw [Numeral, or_iff_right hnot, fieldNumber?]
    simp only [Bool.and_eq_true, Bool.not_eq_true', List.isEmpty_eq_false_iff, List.all_eq_true,
      Option.ite_none_right_eq_some, Option.some.injEq, List.cons.injEq, true_and,
      exists_eq_left', DigitsOf, Nat.ofDigitChars]
    grind
  · have hnot : ¬ ∃ digits, text = '+' :: digits ∧ DigitsOf digits number := by
      rintro ⟨digits, h, -⟩
      exact hplus ⟨digits, h⟩
    rw [Numeral, or_iff_left hnot]
    exact fieldNumber?_eq_some fun rest h => hplus ⟨rest, h⟩

namespace Numbering

/-- The name is `_d` or `_s` with a number after it. -/
def Marks (n : Numbering) (name : String) (number : Nat) : Prop :=
  ∃ text, name.toList = '_' :: n.letter :: text ∧ Numeral text number

inductive Series (n : Numbering) : List String → List Nat → Prop
  | nil : n.Series [] []
  | numbered {name : String} {names : List String} {number : Nat} {numbers : List Nat}
      (h : n.Marks name number) (hs : n.Series names numbers) :
      n.Series (name :: names) (number :: numbers)
  | other {name : String} {names : List String} {numbers : List Nat}
      (h : ∀ number, ¬ n.Marks name number) (hs : n.Series names numbers) :
      n.Series (name :: names) numbers

theorem numberOf?_eq_some_iff (n : Numbering) {name : String} {number : Nat} :
    numberOf? n.letter name = some number ↔ n.Marks name number := by
  simp only [numberOf?_eq_some, fieldNumber?_eq_some_iff, Marks]

/-- What is due after a name, when `due` was due before it. -/
def Advances (n : Numbering) (name : String) (due due' : Nat) : Prop :=
  (n.Marks name due ∧ due' = due + 1) ∨ ((∀ number, ¬ n.Marks name number) ∧ due' = due)

theorem countField_eq_ok_iff (n : Numbering) {name : String} {due due' : Nat} :
    countField n.letter due name = .ok due' ↔ n.Advances name due due' := by
  rw [countField]
  cases hnumber : numberOf? n.letter name with
  | none =>
    have hnone (number : Nat) : ¬ n.Marks name number := fun h => by
      rw [(numberOf?_eq_some_iff n).2 h] at hnumber
      cases hnumber
    simp [Advances, hnone, eq_comm]
  | some number =>
    have hmarks := (numberOf?_eq_some_iff n).1 hnumber
    have heq {k : Nat} (h : n.Marks name k) : k = number := by
      rw [(numberOf?_eq_some_iff n).2 h] at hnumber
      exact Option.some.inj hnumber
    by_cases hdue : number = due
    · subst hdue
      have hsome : ¬ ∀ k, ¬ n.Marks name k := fun h => h _ hmarks
      simp [Advances, hmarks, hsome, eq_comm]
    · have hnot : ¬ n.Marks name due := fun h => hdue (heq h).symm
      have hsome : ¬ ∀ k, ¬ n.Marks name k := fun h => h _ hmarks
      simp [Advances, hnot, hsome, hdue]

theorem series_cons_iff (n : Numbering) {name : String} {names : List String} {due : Nat} :
    (∃ count, n.Series (name :: names) (List.range' due count)) ↔
      ∃ due', n.Advances name due due' ∧ ∃ count, n.Series names (List.range' due' count) := by
  constructor
  · rintro ⟨count, h⟩
    generalize hnumbers : List.range' due count = numbers at h
    cases h with
    | numbered hmarks hs =>
      cases count with
      | zero => cases hnumbers
      | succ count =>
        rw [List.range'_succ] at hnumbers
        obtain ⟨rfl, rfl⟩ := List.cons.inj hnumbers
        exact ⟨due + 1, .inl ⟨hmarks, rfl⟩, count, hs⟩
    | other hnone hs => exact ⟨due, .inr ⟨hnone, rfl⟩, count, hnumbers ▸ hs⟩
  · rintro ⟨due', ⟨hmarks, rfl⟩ | ⟨hnone, rfl⟩, count, hs⟩
    · refine ⟨count + 1, ?_⟩
      rw [List.range'_succ]
      exact .numbered hmarks hs
    · exact ⟨count, .other hnone hs⟩

end Numbering

theorem Tally.step_eq_ok_iff {t t' : Tally} {name : String} :
    t.step (some name) = .ok t' ↔ name ∉ t.seen ∧ t'.seen = name :: t.seen ∧
      ∀ n : Numbering, n.Advances name (t.due n) (t'.due n) := by
  by_cases hseen : name ∈ t.seen
  · rw [step_repeated hseen]
    refine ⟨fun h => ?_, fun h => absurd hseen h.1⟩
    cases h
  · have hcontains : t.seen.contains name = false := by simpa using hseen
    have hd := @Numbering.countField_eq_ok_iff .value name t.dynamic
    have hs := @Numbering.countField_eq_ok_iff .style name t.style
    obtain ⟨seen', dynamic', style'⟩ := t'
    simp only [step, hcontains, Bool.false_eq_true, if_false]
    constructor
    · intro h
      cases hdyn : countField 'd' t.dynamic name with
      | error e =>
        rw [hdyn] at h
        cases h
      | ok dynamic =>
        cases hsty : countField 's' t.style name with
        | error e =>
          rw [hdyn, hsty] at h
          cases h
        | ok style =>
          rw [hdyn, hsty] at h
          cases h
          refine ⟨hseen, rfl, fun n => ?_⟩
          cases n with
          | value => exact hd.1 hdyn
          | style => exact hs.1 hsty
    · rintro ⟨-, rfl, hn⟩
      rw [show countField 'd' t.dynamic name = .ok dynamic' from hd.2 (hn .value),
        show countField 's' t.style name = .ok style' from hs.2 (hn .style)]
      rfl

/-- The fields that pass: plain names, none of them twice, whose numbers count on from what is
due. -/
theorem Tally.foldlM_eq_ok_iff {t : Tally} {fields : List (Option String)} :
    (∃ t', fields.foldlM step t = .ok t') ↔ ∃ names : List String, fields = names.map some ∧
      names.Nodup ∧ (∀ name ∈ names, name ∉ t.seen) ∧
      ∀ n : Numbering, ∃ count, n.Series names (List.range' (t.due n) count) := by
  induction fields generalizing t with
  | nil =>
    refine ⟨fun _ => ⟨[], rfl, List.nodup_nil, by simp, fun n => ⟨0, .nil⟩⟩, fun _ => ⟨t, rfl⟩⟩
  | cons field fields ih =>
    cases field with
    | none =>
      refine ⟨?_, ?_⟩
      · rintro ⟨t', h⟩
        cases h
      · rintro ⟨names, h, -⟩
        cases names <;> cases h
    | some name =>
      constructor
      · rintro ⟨t', h⟩
        obtain ⟨t₁, hstep, hrest⟩ := foldlM_cons_eq_ok.1 h
        obtain ⟨hnew, hseen, hdue⟩ := step_eq_ok_iff.1 hstep
        obtain ⟨names, rfl, hnodup, hfresh, hseries⟩ := ih.1 ⟨t', hrest⟩
        rw [hseen] at hfresh
        refine ⟨name :: names, rfl, List.nodup_cons.2 ⟨fun hmem => ?_, hnodup⟩, ?_, fun n => ?_⟩
        · exact hfresh name hmem List.mem_cons_self
        · intro x hx
          rcases List.mem_cons.1 hx with rfl | hx
          · exact hnew
          · exact fun hmem => hfresh x hx (List.mem_cons_of_mem _ hmem)
        · exact n.series_cons_iff.2 ⟨_, hdue n, hseries n⟩
      · rintro ⟨names, hnames, hnodup, hfresh, hseries⟩
        cases names with
        | nil => cases hnames
        | cons x names =>
          obtain ⟨hx, rfl⟩ := List.cons.inj hnames
          obtain rfl := Option.some.inj hx
          have hnew := hfresh name List.mem_cons_self
          obtain ⟨hnot, hnodup⟩ := List.nodup_cons.1 hnodup
          obtain ⟨dynamic, hd, hdseries⟩ := Numbering.value.series_cons_iff.1 (hseries .value)
          obtain ⟨style, hs, hsseries⟩ := Numbering.style.series_cons_iff.1 (hseries .style)
          have hstep : t.step (some name) = .ok ⟨name :: t.seen, dynamic, style⟩ := by
            refine step_eq_ok_iff.2 ⟨hnew, rfl, fun n => ?_⟩
            cases n with
            | value => exact hd
            | style => exact hs
          obtain ⟨t', hrest⟩ := (ih (t := ⟨name :: t.seen, dynamic, style⟩)).2
            ⟨names, rfl, hnodup, fun y hy hmem => (List.mem_cons.1 hmem).elim
              (fun he => hnot (he ▸ hy)) (hfresh y (List.mem_cons_of_mem _ hy)),
              fun n => by cases n <;> assumption⟩
          exact ⟨t', foldlM_cons_eq_ok.2 ⟨_, hstep, hrest⟩⟩

theorem code_of_verifyFields {t : Tally} {fields : List (Option String)} {defect : Defect}
    (h : verifyFields t.seen t.dynamic t.style fields = .error defect) :
    defect.code = "LIST003" := by
  rw [verifyFields_eq] at h
  induction fields generalizing t with
  | nil => cases h
  | cons field fields ih =>
    rw [List.foldlM_cons] at h
    cases field with
    | none =>
      cases h
      rfl
    | some name =>
      cases hs : t.step (some name) with
      | error e =>
        rw [hs] at h
        cases h
        exact Tally.code_of_step hs
      | ok t' =>
        rw [hs] at h
        exact ih h

/-! ### The rules for one site -/

/-- The function has a block that ends in the return of a record with these entries. -/
def EndsInRecord (s : Store) (f : Lambda Loc) (entries : List (Entry Loc)) : Prop :=
  ∃ last record, lastStatement? f.body = some last ∧
    lookup s last = .ok (.returning (some record)) ∧ lookup s record = .ok (.object entries)

/-- The location is looked up for the record of a function, and the store has no node there. -/
inductive RecordMisses (s : Store) (f : Lambda Loc) : Loc → Prop
  | last {last : Loc} (hlast : lastStatement? f.body = some last) (h : s.size ≤ last.index) :
      RecordMisses s f last
  | record {last record : Loc} (hlast : lastStatement? f.body = some last)
      (hreturn : lookup s last = .ok (.returning (some record))) (h : s.size ≤ record.index) :
      RecordMisses s f record

namespace Site

/-- The callback is a function of the item and the index. -/
def TakesParameters (s : Store) (site : Site) : Prop :=
  ∃ f, lookup s site.callback = .ok (.lambda f) ∧
    f.params.map Binder.name? = [some site.itemName, some site.indexName]

/-- The callback has a block that ends in the return of a record with these entries. -/
def Returns (s : Store) (site : Site) (entries : List (Entry Loc)) : Prop :=
  ∃ f, lookup s site.callback = .ok (.lambda f) ∧ EndsInRecord s f entries

/-- The record starts with the item and the key. -/
def StartsRecord (s : Store) (site : Site) : Prop :=
  ∃ entries rest, site.Returns s entries ∧
    entries.map Entry.fieldName? = some site.itemName :: some keyField :: rest

/-- All keys of the record are plain names, none of them comes twice, and those with a number count
from zero. -/
def NumbersFields (s : Store) (site : Site) : Prop :=
  ∃ entries names, site.Returns s entries ∧ entries.map Entry.fieldName? = names.map some ∧
    names.Nodup ∧ ∀ n : Numbering, ∃ count, n.Series names (List.range count)

/-- The wrapper is a block with the four attributes of a loop, and they have the values of the
site. -/
def IsWrapped (adapter : Adapter) (s : Store) (site : Site) : Prop :=
  ∃ e source, lookup s site.wrapper = .ok (.element e) ∧ e.tag = "block" ∧
    e.attributes = [.named adapter.forAttribute (.expression source),
      .quoted adapter.itemAttribute site.itemName, .quoted adapter.indexAttribute site.indexName,
      .quoted adapter.keyAttribute keyField]

/-- The rules for a site that comes after one with the number `previous`, each with its code, in
the order they are checked in. -/
def rules (adapter : Adapter) (s : Store) (previous : Option UInt32) (site : Site) :
    List (String × Prop) :=
  [("LIST005", ∀ id ∈ previous, id < site.id),
    ("LIST001", site.TakesParameters s),
    ("LIST002", site.StartsRecord s),
    ("LIST003", site.NumbersFields s),
    ("LIST004", site.IsWrapped adapter s)]

/-- The location is looked up for the site, and the store has no node there. -/
inductive Misses (s : Store) (site : Site) : Loc → Prop
  | callback (h : s.size ≤ site.callback.index) : Misses s site site.callback
  | record {f : Lambda Loc} {l : Loc} (hf : lookup s site.callback = .ok (.lambda f))
      (hparams : f.params.map Binder.name? = [some site.itemName, some site.indexName])
      (h : RecordMisses s f l) : Misses s site l
  | wrapper (hparams : site.TakesParameters s) (hhead : site.StartsRecord s)
      (hfields : site.NumbersFields s) (h : s.size ≤ site.wrapper.index) :
      Misses s site site.wrapper

end Site

/-- The code of the first rule that does not hold. -/
def FirstBroken (rules : List (String × Prop)) (code : String) : Prop :=
  ∃ kept rule rest, rules = kept ++ (code, rule) :: rest ∧ (∀ r ∈ kept, r.2) ∧ ¬ rule

/-- The numbers increase along the list, and every site keeps the rules. -/
def Accepted (adapter : Adapter) (s : Store) (sites : List Site) : Prop :=
  (sites.Pairwise fun x y => x.id < y.id) ∧
    ∀ site ∈ sites, ∀ rule ∈ site.rules adapter s none, rule.2

theorem lookup_of_lt (h : l.index < s.size) : lookup s l = .ok (s.get l) := by
  have hl : s.nodes[l.index]? = some s.nodes[l.index] := Array.getElem?_eq_getElem h
  rw [lookup, Store.get, Array.getD_eq_getD_getElem?, hl]
  rfl

theorem lookup_of_ge (h : s.size ≤ l.index) : lookup s l = .error (.outOfBounds l.index) := by
  rw [lookup, Array.getElem?_eq_none h]

theorem lookup_cases (s : Store) (l : Loc) :
    (∃ n, lookup s l = .ok n) ∨
      (lookup s l = .error (.outOfBounds l.index) ∧ s.size ≤ l.index) := by
  by_cases h : l.index < s.size
  · exact .inl ⟨_, lookup_of_lt h⟩
  · exact .inr ⟨lookup_of_ge (not_lt.1 h), not_lt.1 h⟩

theorem get_of_lookup {n : Node Loc} (h : lookup s l = .ok n) :
    l.index < s.size ∧ s.get l = n := by
  by_cases hl : l.index < s.size
  · rw [lookup_of_lt hl] at h
    exact ⟨hl, Except.ok.inj h⟩
  · rw [lookup_of_ge (not_lt.1 hl)] at h
    cases h

theorem lookup_inj {n n' : Node Loc} (h : lookup s l = .ok n) (h' : lookup s l = .ok n') :
    n = n' := Except.ok.inj (h.symm.trans h')

theorem EndsInRecord.eq {f : Lambda Loc} {entries entries' : List (Entry Loc)}
    (h : EndsInRecord s f entries) (h' : EndsInRecord s f entries') : entries = entries' := by
  obtain ⟨last, record, hlast, hreturn, hrecord⟩ := h
  obtain ⟨last', record', hlast', hreturn', hrecord'⟩ := h'
  obtain rfl := Option.some.inj (hlast.symm.trans hlast')
  obtain rfl := Option.some.inj (Node.returning.inj (lookup_inj hreturn hreturn'))
  exact Node.object.inj (lookup_inj hrecord hrecord')

theorem Site.Returns.eq {entries entries' : List (Entry Loc)} (h : site.Returns s entries)
    (h' : site.Returns s entries') : entries = entries' := by
  obtain ⟨f, hf, hends⟩ := h
  obtain ⟨f', hf', hends'⟩ := h'
  obtain rfl := Node.lambda.inj (lookup_inj hf hf')
  exact hends.eq hends'

theorem EndsInRecord.returnedRecord_eq {f : Lambda Loc} {entries : List (Entry Loc)}
    (h : EndsInRecord s f entries) : returnedRecord s f = .ok entries := by
  obtain ⟨last, record, hlast, hreturn, hrecord⟩ := h
  exact returnedRecord_of_lookup hlast hreturn hrecord

theorem RecordMisses.returnedRecord_eq {f : Lambda Loc} (h : RecordMisses s f l) :
    returnedRecord s f = .error (.outOfBounds l.index) := by
  cases h with
  | last hlast h => simp [returnedRecord, hlast, lookup_of_ge h, bind, Except.bind]
  | record hlast hreturn h =>
    simp [returnedRecord, hlast, hreturn, lookup_of_ge h, bind, Except.bind]

/-- The record of a function is found, or a node is missed on the way to it, or there is none. -/
theorem returnedRecord_cases (s : Store) (f : Lambda Loc) :
    (∃ entries, EndsInRecord s f entries) ∨ (∃ l, RecordMisses s f l) ∨
      returnedRecord s f = .error .noRecord := by
  cases hlast : lastStatement? f.body with
  | none => exact .inr (.inr (by rw [returnedRecord, hlast]; rfl))
  | some last =>
    rcases lookup_cases s last with ⟨n, hreturn⟩ | ⟨-, hle⟩
    case inr => exact .inr (.inl ⟨last, .last hlast hle⟩)
    by_cases hr : ∃ record, n = .returning (some record)
    case neg =>
      refine .inr (.inr ?_)
      simp only [returnedRecord, hlast, hreturn, bind, Except.bind]
      split
      case h_1 record => exact absurd ⟨record, rfl⟩ hr
      case h_2 => rfl
    obtain ⟨record, rfl⟩ := hr
    rcases lookup_cases s record with ⟨n, hrecord⟩ | ⟨-, hle⟩
    case inr => exact .inr (.inl ⟨record, .record hlast hreturn hle⟩)
    by_cases ho : ∃ entries, n = .object entries
    case pos =>
      obtain ⟨entries, rfl⟩ := ho
      exact .inl ⟨entries, last, record, hlast, hreturn, hrecord⟩
    case neg =>
      refine .inr (.inr ?_)
      simp only [returnedRecord, hlast, hreturn, hrecord, bind, Except.bind]
      split
      case h_1 entries => exact absurd ⟨entries, rfl⟩ ho
      case h_2 => rfl

/-- What becomes of looking for the record of a site: it is found, a node is missed on the way, or
the callback is refused, for its parameters first and then for what it returns. -/
theorem verifyCallback_cases (s : Store) (site : Site) :
    (∃ entries, verifyCallback s site = .ok entries ∧ site.TakesParameters s ∧
        site.Returns s entries) ∨
      (∃ l, verifyCallback s site = .error (.outOfBounds l.index) ∧ site.Misses s l) ∨
      ∃ defect, verifyCallback s site = .error defect ∧
        ((¬ site.TakesParameters s ∧ defect.code = "LIST001") ∨
          (site.TakesParameters s ∧ (∀ entries, ¬ site.Returns s entries) ∧
            defect.code = "LIST002")) := by
  rcases lookup_cases s site.callback with ⟨n, hn⟩ | ⟨hout, hle⟩
  case inr =>
    refine .inr (.inl ⟨_, ?_, .callback hle⟩)
    rw [verifyCallback, hout]
    rfl
  by_cases hf : ∃ f, n = .lambda f
  case neg =>
    refine .inr (.inr ⟨.noCallback, ?_, .inl ⟨?_, rfl⟩⟩)
    · rw [verifyCallback, hn]
      cases n with
      | lambda f => exact absurd ⟨f, rfl⟩ hf
      | _ => rfl
    · rintro ⟨f, hf', -⟩
      exact hf ⟨f, lookup_inj hn hf'⟩
  obtain ⟨f, rfl⟩ := hf
  by_cases hparams : f.params.map Binder.name? = [some site.itemName, some site.indexName]
  case neg =>
    refine .inr (.inr ⟨.parameters site.itemName site.indexName, ?_, .inl ⟨?_, rfl⟩⟩)
    · simp [verifyCallback, hn, hparams, bind, Except.bind, throw, throwThe, MonadExceptOf.throw]
    · rintro ⟨f', hf', hparams'⟩
      obtain rfl := Node.lambda.inj (lookup_inj hn hf')
      exact hparams hparams'
  rw [verifyCallback_of_lookup hn hparams]
  rcases returnedRecord_cases s f with ⟨entries, hends⟩ | ⟨l, hl⟩ | hnone
  · exact .inl ⟨entries, hends.returnedRecord_eq, ⟨f, hn, hparams⟩, f, hn, hends⟩
  · exact .inr (.inl ⟨l, hl.returnedRecord_eq, .record hn hparams hl⟩)
  · refine .inr (.inr ⟨.noRecord, hnone, .inr ⟨⟨f, hn, hparams⟩, ?_, rfl⟩⟩)
    rintro entries ⟨f', hf', hends⟩
    obtain rfl := Node.lambda.inj (lookup_inj hn hf')
    rw [hends.returnedRecord_eq] at hnone
    cases hnone

/-- The record of a site that returns these entries is refused for its head first, and then for its
fields. -/
theorem verifyRecord_cases {entries : List (Entry Loc)} (hr : site.Returns s entries) :
    (verifyRecord site entries = .ok () ∧ site.StartsRecord s ∧ site.NumbersFields s) ∨
      ∃ defect, verifyRecord site entries = .error defect ∧
        ((¬ site.StartsRecord s ∧ defect.code = "LIST002") ∨
          (site.StartsRecord s ∧ ¬ site.NumbersFields s ∧ defect.code = "LIST003")) := by
  by_cases hhead : site.StartsRecord s
  · obtain ⟨entries', rest, hr', hnames⟩ := hhead
    obtain rfl := hr'.eq hr
    have hrecord : verifyRecord site entries' =
        verifyFields [] 0 0 (entries'.map Entry.fieldName?) := by
      simp [verifyRecord, hnames]
    have hfields : (∃ t, (entries'.map Entry.fieldName?).foldlM Tally.step ⟨[], 0, 0⟩ = .ok t) ↔
        site.NumbersFields s := by
      rw [Tally.foldlM_eq_ok_iff]
      constructor
      · rintro ⟨names, he, hnodup, -, hseries⟩
        refine ⟨entries', names, hr, he, hnodup, fun n => ?_⟩
        obtain ⟨count, h⟩ := hseries n
        refine ⟨count, ?_⟩
        rw [List.range_eq_range']
        cases n <;> exact h
      · rintro ⟨found, names, hfound, he, hnodup, hseries⟩
        obtain rfl := hfound.eq hr
        refine ⟨names, he, hnodup, by simp, fun n => ?_⟩
        obtain ⟨count, h⟩ := hseries n
        refine ⟨count, ?_⟩
        rw [List.range_eq_range'] at h
        cases n <;> exact h
    have heq := verifyFields_eq ⟨[], 0, 0⟩ (entries'.map Entry.fieldName?)
    rw [hrecord]
    cases hrun : (entries'.map Entry.fieldName?).foldlM Tally.step ⟨[], 0, 0⟩ with
    | ok t =>
      rw [hrun] at heq
      exact .inl ⟨heq, ⟨entries', rest, hr, hnames⟩, hfields.1 ⟨t, hrun⟩⟩
    | error defect =>
      rw [hrun] at heq
      refine .inr ⟨defect, heq, .inr ⟨⟨entries', rest, hr, hnames⟩, fun hnum => ?_, ?_⟩⟩
      · obtain ⟨t, ht⟩ := hfields.2 hnum
        rw [ht] at hrun
        cases hrun
      · exact code_of_verifyFields (t := ⟨[], 0, 0⟩) heq
  · refine .inr ⟨.recordHead site.itemName, ?_, .inl ⟨hhead, rfl⟩⟩
    rw [verifyRecord]
    split
    case h_2 => rfl
    case h_1 item key rest hnames =>
      refine if_neg ?_
      rintro ⟨rfl, rfl⟩
      exact hhead ⟨entries, rest, hr, hnames⟩

theorem verifyValues_eq_ok_iff {attributes : List (Attribute Loc)}
    (hnames : attributes.map Attribute.name? = adapter.loopAttributes.map some) :
    verifyValues site attributes = .ok () ↔ ∃ source, attributes =
      [.named adapter.forAttribute (.expression source),
        .quoted adapter.itemAttribute site.itemName,
        .quoted adapter.indexAttribute site.indexName, .quoted adapter.keyAttribute keyField] := by
  constructor
  · intro h
    unfold verifyValues at h
    split at h
    case h_2 => cases h
    case h_1 _ source _ item _ index _ key =>
      simp only at h
      simp only [Adapter.loopAttributes, List.map_cons, List.map_nil, Attribute.name?,
        List.cons.injEq, Option.some.injEq, and_true] at hnames
      obtain ⟨rfl, rfl, rfl, rfl⟩ := hnames
      split at h
      case isFalse => cases h
      case isTrue hvalues =>
        obtain ⟨rfl, rfl, rfl⟩ := hvalues
        exact ⟨source, rfl⟩
  · rintro ⟨source, rfl⟩
    simp [verifyValues, Attribute.quoted]

theorem code_of_verifyValues {attributes : List (Attribute Loc)} {defect : Defect}
    (h : verifyValues site attributes = .error defect) : defect.code = "LIST004" := by
  unfold verifyValues at h
  split at h
  case h_1 =>
    simp only at h
    split at h
    case isTrue => cases h
    case isFalse =>
      cases h
      rfl
  case h_2 =>
    cases h
    rfl

theorem filterMap_name?_iff {attributes : List (Attribute Loc)} {names : List String} :
    ((attributes.filterMap Attribute.name?).length = attributes.length ∧
      attributes.filterMap Attribute.name? = names) ↔
    attributes.map Attribute.name? = names.map some := by
  induction attributes generalizing names with
  | nil => cases names <;> simp
  | cons x attributes ih =>
    have hle := List.length_filterMap_le Attribute.name? attributes
    cases x with
    | named name value =>
      cases names with
      | nil => simp [Attribute.name?]
      | cons y names =>
        have := @ih names
        simp only [List.filterMap_cons, Attribute.name?, List.length_cons, List.map_cons,
          List.cons.injEq, Option.some.injEq, Nat.add_right_cancel_iff, ← this]
        tauto
    | spread value =>
      have hlt : (attributes.filterMap Attribute.name?).length ≠ attributes.length + 1 := by
        omega
      have hnone : Attribute.name? (.spread value : Attribute Loc) = none := rfl
      rw [List.filterMap_cons_none hnone, List.length_cons, List.map_cons, hnone]
      cases names <;> simp [hlt]

theorem verifyWrapper_cases (adapter : Adapter) (s : Store) (site : Site) :
    (verifyWrapper adapter s site = .ok () ∧ site.IsWrapped adapter s) ∨
      (verifyWrapper adapter s site = .error (.outOfBounds site.wrapper.index) ∧
        s.size ≤ site.wrapper.index) ∨
      ∃ defect, verifyWrapper adapter s site = .error defect ∧ ¬ site.IsWrapped adapter s ∧
        defect.code = "LIST004" := by
  rcases lookup_cases s site.wrapper with ⟨n, hn⟩ | ⟨hout, hle⟩
  case inr =>
    refine .inr (.inl ⟨?_, hle⟩)
    rw [verifyWrapper, hout]
    rfl
  by_cases he : ∃ e, n = .element e
  case neg =>
    refine .inr (.inr ⟨.noElement, ?_, ?_, rfl⟩)
    · rw [verifyWrapper, hn]
      cases n with
      | element e => exact absurd ⟨e, rfl⟩ he
      | _ => rfl
    · rintro ⟨e, -, he', -⟩
      exact he ⟨e, lookup_inj hn he'⟩
  obtain ⟨e, rfl⟩ := he
  by_cases htag : e.tag = "block"
  case neg =>
    refine .inr (.inr ⟨.tag e.tag, ?_, ?_, rfl⟩)
    · simp [verifyWrapper, hn, htag, bind, Except.bind, throw, throwThe, MonadExceptOf.throw]
    · rintro ⟨e', source, he', htag', -⟩
      obtain rfl := Node.element.inj (lookup_inj hn he')
      exact htag htag'
  by_cases hnames : e.attributes.map Attribute.name? = adapter.loopAttributes.map some
  case neg =>
    refine .inr (.inr ⟨.attributes (e.attributes.filterMap Attribute.name?)
      adapter.loopAttributes, ?_, ?_, rfl⟩)
    · simp only [verifyWrapper, hn, htag, bind, Except.bind, ne_eq, not_true_eq_false, if_false,
        filterMap_name?_iff, if_neg hnames]
      rfl
    · rintro ⟨e', source, he', -, h⟩
      obtain rfl := Node.element.inj (lookup_inj hn he')
      exact hnames (by simp [h, Attribute.quoted, Attribute.name?, Adapter.loopAttributes])
  have hcheck : verifyWrapper adapter s site = verifyValues site e.attributes := by
    simp only [verifyWrapper, hn, htag, bind, Except.bind, ne_eq, not_true_eq_false, if_false,
      filterMap_name?_iff, if_pos hnames]
  rw [hcheck]
  cases hvalues : verifyValues site e.attributes with
  | ok =>
    obtain ⟨source, h⟩ := (verifyValues_eq_ok_iff hnames).1 hvalues
    exact .inl ⟨rfl, e, source, hn, htag, h⟩
  | error defect =>
    refine .inr (.inr ⟨defect, rfl, ?_, code_of_verifyValues hvalues⟩)
    rintro ⟨e', source, he', -, h⟩
    obtain rfl := Node.element.inj (lookup_inj hn he')
    rw [(verifyValues_eq_ok_iff hnames).2 ⟨source, h⟩] at hvalues
    cases hvalues

/-! ### One site -/

theorem Site.Misses.verifySite_eq (h : site.Misses s l) (adapter : Adapter) :
    verifySite adapter s site = .error (.outOfBounds l.index) := by
  cases h with
  | callback h => simp [verifySite, verifyCallback, lookup_of_ge h, bind, Except.bind]
  | record hf hparams h =>
    simp [verifySite, verifyCallback_of_lookup hf hparams, h.returnedRecord_eq, bind, Except.bind]
  | wrapper hparams hhead hfields h =>
    obtain ⟨f, hf, hparams⟩ := hparams
    obtain ⟨entries, rest, ⟨f', hf', hends⟩, hnames⟩ := hhead
    obtain rfl := Node.lambda.inj (lookup_inj hf hf')
    have hcb := (verifyCallback_of_lookup hf hparams).trans hends.returnedRecord_eq
    have hok : verifyRecord site entries = .ok () := by
      rcases verifyRecord_cases ⟨f, hf, hends⟩ with ⟨hok, -⟩ | ⟨-, -, ⟨hnot, -⟩ | ⟨-, hnot, -⟩⟩
      · exact hok
      · exact absurd ⟨entries, rest, ⟨f, hf, hends⟩, hnames⟩ hnot
      · exact absurd hfields hnot
    simp [verifySite, verifyWrapper, hcb, hok, lookup_of_ge h, bind, Except.bind]

/-- A site keeps every rule about its shape, or a node is missed while it is checked, or the first
rule that it breaks is reported. -/
theorem verifySite_cases (adapter : Adapter) (s : Store) (site : Site) :
    (verifySite adapter s site = .ok () ∧ ∀ rule ∈ site.rules adapter s none, rule.2) ∨
      (∃ l, verifySite adapter s site = .error (.outOfBounds l.index) ∧ site.Misses s l) ∨
      ∃ defect, verifySite adapter s site = .error defect ∧
        ∀ previous : Option UInt32, (∀ id ∈ previous, id < site.id) →
          FirstBroken (site.rules adapter s previous) defect.code := by
  rcases verifyCallback_cases s site with ⟨entries, hcb, hparams, hr⟩ | ⟨l, -, hl⟩ |
    ⟨defect, hcb, hbroken⟩
  · rcases verifyRecord_cases hr with ⟨hok, hhead, hfields⟩ | ⟨defect, herror, hbroken⟩
    · rcases verifyWrapper_cases adapter s site with ⟨hw, hwrapped⟩ | ⟨-, hle⟩ |
        ⟨defect, hw, hnot, hcode⟩
      · refine .inl ⟨?_, by simp [Site.rules, hparams, hhead, hfields, hwrapped]⟩
        simp [verifySite, hcb, bind, Except.bind, hok, hw]
      · have hmiss : site.Misses s site.wrapper := .wrapper hparams hhead hfields hle
        exact .inr (.inl ⟨_, hmiss.verifySite_eq adapter, hmiss⟩)
      · refine .inr (.inr ⟨defect, by simp [verifySite, hcb, bind, Except.bind, hok, hw],
          fun previous hid => ?_⟩)
        rw [hcode]
        exact ⟨[_, _, _, _], _, _, rfl, by simpa using ⟨hid, hparams, hhead, hfields⟩, hnot⟩
    · refine .inr (.inr ⟨defect, by simp [verifySite, hcb, bind, Except.bind, herror],
        fun previous hid => ?_⟩)
      rcases hbroken with ⟨hhead, hcode⟩ | ⟨hhead, hfields, hcode⟩
      · rw [hcode]
        exact ⟨[_, _], _, _, rfl, by simpa using ⟨hid, hparams⟩, hhead⟩
      · rw [hcode]
        exact ⟨[_, _, _], _, _, rfl, by simpa using ⟨hid, hparams, hhead⟩, hfields⟩
  · exact .inr (.inl ⟨l, hl.verifySite_eq adapter, hl⟩)
  · refine .inr (.inr ⟨defect, by simp [verifySite, hcb, bind, Except.bind],
      fun previous hid => ?_⟩)
    rcases hbroken with ⟨hparams, hcode⟩ | ⟨hparams, hnone, hcode⟩
    · rw [hcode]
      exact ⟨[_], _, _, rfl, by simpa using hid, hparams⟩
    · rw [hcode]
      refine ⟨[_, _], _, _, rfl, by simpa using ⟨hid, hparams⟩, ?_⟩
      rintro ⟨entries, rest, hr, -⟩
      exact hnone entries hr

/-! ### All sites -/

/-- What stops the check of a site that comes after one with the number `previous`: a node that is
missed, if the number is right, or the first rule that is broken. -/
inductive Stops (adapter : Adapter) (s : Store) (previous : Option UInt32) (site : Site) :
    Defect → Prop
  | missing {l : Loc} (hid : ∀ id ∈ previous, id < site.id) (h : site.Misses s l) :
      Stops adapter s previous site (.outOfBounds l.index)
  | broken {defect : Defect} (h : FirstBroken (site.rules adapter s previous) defect.code)
      (hnone : (∀ id ∈ previous, id < site.id) → ∀ l, ¬ site.Misses s l) :
      Stops adapter s previous site defect

theorem FirstBroken.code_ne {previous : Option UInt32} {code : String}
    (h : FirstBroken (site.rules adapter s previous) code) : code ≠ "" := by
  obtain ⟨kept, rule, rest, he, -⟩ := h
  have hmem : code ∈ (site.rules adapter s previous).map Prod.fst := by simp [he]
  simp only [Site.rules, List.map_cons, List.map_nil] at hmem
  rintro rfl
  exact absurd hmem (by decide)

/-- Sites that follow one with the number `previous` keep all rules, or they are accepted up to the
first one whose check stops. -/
theorem verifyAfter_cases (adapter : Adapter) (s : Store) (previous : Option UInt32)
    (sites : List Site) :
    (verifyAfter adapter s previous sites = .ok () ∧ Accepted adapter s sites ∧
        ∀ id ∈ previous, ∀ site ∈ sites, id < site.id) ∨
      ∃ before site after defect, sites = before ++ site :: after ∧
        verifyAfter adapter s previous sites = .error (.loop site.id defect) ∧
        Accepted adapter s before ∧ (∀ id ∈ previous, ∀ x ∈ before, id < x.id) ∧
        Stops adapter s ((before.getLast?.map Site.id).or previous) site defect := by
  induction sites generalizing previous with
  | nil => exact .inl ⟨rfl, ⟨.nil, by simp⟩, by simp⟩
  | cons site rest ih =>
    by_cases horder : ∀ id ∈ previous, id < site.id
    case neg =>
      have hany : previous.any (site.id ≤ ·) = true := by
        cases previous <;> simp_all
      refine .inr ⟨[], site, rest, .unordered, rfl, ?_, ⟨.nil, by simp⟩, by simp, ?_⟩
      · rw [verifyAfter, if_pos hany]
        rfl
      · exact .broken ⟨[], _, _, rfl, by simp, by simpa using horder⟩ fun h => absurd h horder
    case pos =>
      have hany : ¬ previous.any (site.id ≤ ·) = true := by
        cases previous <;> simp_all
      have hstep {defect : Defect} (herror : verifySite adapter s site = .error defect) :
          verifyAfter adapter s previous (site :: rest) = .error (.loop site.id defect) := by
        rw [verifyAfter, if_neg hany, herror]
        rfl
      rcases verifySite_cases adapter s site with ⟨hok, hrules⟩ | ⟨l, herror, hmiss⟩ |
        ⟨defect, herror, hbroken⟩
      · rw [verifyAfter, if_neg hany, hok]
        rcases ih (some site.id) with ⟨hrest, ⟨hsorted, hkept⟩, hafter⟩ |
          ⟨before, x, after, defect, rfl, herror, ⟨hsorted, hkept⟩, hafter, hstops⟩
        · have hfirst := hafter site.id rfl
          refine .inl ⟨hrest, ⟨List.pairwise_cons.2 ⟨hfirst, hsorted⟩, ?_⟩, ?_⟩
          · exact List.forall_mem_cons.2 ⟨hrules, hkept⟩
          · exact fun id hid => List.forall_mem_cons.2
              ⟨horder id hid, fun y hy => UInt32.lt_trans (horder id hid) (hfirst y hy)⟩
        · have hfirst := hafter site.id rfl
          refine .inr ⟨site :: before, x, after, defect, rfl, herror,
            ⟨List.pairwise_cons.2 ⟨hfirst, hsorted⟩, ?_⟩, ?_, ?_⟩
          · exact List.forall_mem_cons.2 ⟨hrules, hkept⟩
          · exact fun id hid => List.forall_mem_cons.2
              ⟨horder id hid, fun y hy => UInt32.lt_trans (horder id hid) (hfirst y hy)⟩
          · rw [List.getLast?_cons]
            cases hlast : before.getLast? with
            | none => simpa [hlast] using hstops
            | some y => simpa [hlast] using hstops
      · exact .inr ⟨[], site, rest, _, rfl, hstep herror, ⟨.nil, by simp⟩, by simp,
          .missing horder hmiss⟩
      · have hfirst := hbroken previous horder
        refine .inr ⟨[], site, rest, defect, rfl, hstep herror, ⟨.nil, by simp⟩, by simp,
          .broken hfirst fun _ l hl => hfirst.code_ne ?_⟩
        rw [hl.verifySite_eq adapter] at herror
        cases herror
        rfl

theorem FirstBroken.exists_broken {rules : List (String × Prop)} {code : String}
    (h : FirstBroken rules code) : ∃ rule ∈ rules, ¬ rule.2 := by
  obtain ⟨kept, rule, rest, rfl, -, hnot⟩ := h
  exact ⟨(code, rule), by simp, hnot⟩

theorem Accepted.rules {before after : List Site}
    (h : Accepted adapter s (before ++ site :: after)) :
    ∀ rule ∈ site.rules adapter s (before.getLast?.map Site.id), rule.2 := by
  obtain ⟨hsorted, hkept⟩ := h
  have hsite := hkept site (by simp)
  have horder : ∀ id ∈ before.getLast?.map Site.id, id < site.id := by
    intro id hid
    obtain ⟨x, hx, rfl⟩ := Option.map_eq_some_iff.1 hid
    exact (List.pairwise_append.1 hsorted).2.2 x (List.mem_of_getLast? hx) site
      List.mem_cons_self
  simp only [Site.rules, List.forall_mem_cons] at hsite ⊢
  exact ⟨horder, hsite.2⟩

theorem Stops.not_accepted {before after : List Site} {defect : Defect}
    (h : Stops adapter s (before.getLast?.map Site.id) site defect) :
    ¬ Accepted adapter s (before ++ site :: after) := by
  intro hacc
  have hrules := hacc.rules
  cases h with
  | broken h =>
    obtain ⟨rule, hmem, hnot⟩ := h.exists_broken
    exact hnot (hrules rule hmem)
  | missing _ h =>
    -- the rules look up every node that can be missed
    simp only [Site.rules, List.forall_mem_cons] at hrules
    obtain ⟨-, ⟨f, hf, -⟩, ⟨entries, _, ⟨f', hf', hends⟩, -⟩, -, ⟨e, source, he, -⟩, -⟩ := hrules
    obtain rfl := Node.lambda.inj (lookup_inj hf hf')
    cases h with
    | callback h => exact absurd (get_of_lookup hf).1 (not_lt.2 h)
    | wrapper _ _ _ h => exact absurd (get_of_lookup he).1 (not_lt.2 h)
    | record hf' _ h =>
      obtain rfl := Node.lambda.inj (lookup_inj hf hf')
      have hboth := h.returnedRecord_eq
      rw [hends.returnedRecord_eq] at hboth
      cases hboth

/-! ### Where verification looks -/

/-- The nodes of the store name only nodes of the store. -/
def Closed (s : Store) : Prop :=
  ∀ l : Loc, l.index < s.size → ∀ c ∈ (s.get l).children, c.index < s.size

theorem lastStatement?_mem {body : Body Loc} {last : Loc} (h : lastStatement? body = some last) :
    last ∈ body.children := by
  cases body with
  | block statements => exact List.mem_of_getLast? h
  | value _ => cases h

theorem Site.Misses.eq_of_closed (h : site.Misses s l) (hclosed : Closed s) :
    (l = site.callback ∨ l = site.wrapper) ∧ s.size ≤ l.index := by
  cases h with
  | callback h => exact ⟨.inl rfl, h⟩
  | wrapper _ _ _ h => exact ⟨.inr rfl, h⟩
  | record hf _ h =>
    cases h with
    | last hlast h =>
      obtain ⟨hlt, hget⟩ := get_of_lookup hf
      have hmem := hclosed _ hlt l (by simp [hget, Node.children, lastStatement?_mem hlast])
      exact absurd hmem (not_lt.2 h)
    | record _ hreturn h =>
      obtain ⟨hlt, hget⟩ := get_of_lookup hreturn
      have hmem := hclosed _ hlt l (by simp [hget, Node.children])
      exact absurd hmem (not_lt.2 h)

/-- Verification decides its rules. A list of sites passes exactly if the numbers increase and every
site keeps the rules about its callback, its record and its wrapper. Otherwise it stops at the first
site that does not: with a report that has the code of the first rule that is broken, or because a
node is looked up that the store does not have. The latter only happens if the store or a site names
such a node. -/
theorem verify_decides (adapter : Adapter) (s : Store) (sites : List Site) (file : String) :
    (verify adapter s sites = .ok () ↔ Accepted adapter s sites) ∧
      (¬ Accepted adapter s sites → ∃ before site after defect,
        sites = before ++ site :: after ∧ Accepted adapter s before ∧
        verify adapter s sites = .error (.loop site.id defect) ∧
        Stops adapter s (before.getLast?.map Site.id) site defect ∧
        ((∀ index, defect ≠ .outOfBounds index) → ∃ report,
          (verify adapter s sites).mapError (Fault.report file) = .error report ∧
          report.code = defect.code ∧ report.file = file ∧
          ∃ why, report.message = "Loop site " ++ toString site.id.toNat ++ ": " ++ why)) ∧
      (Closed s →
        (∀ site ∈ sites, site.callback.index < s.size ∧ site.wrapper.index < s.size) →
        ∀ id index, verify adapter s sites ≠ .error (.loop id (.outOfBounds index))) := by
  rcases verifyAfter_cases adapter s none sites with ⟨hok, hacc, -⟩ |
    ⟨before, site, after, defect, rfl, herror, hacc, -, hstops⟩
  · refine ⟨⟨fun _ => hacc, fun _ => hok⟩, fun hnot => absurd hacc hnot, fun _ _ id index h => ?_⟩
    rw [verify, hok] at h
    cases h
  · rw [Option.or_none] at hstops
    refine ⟨⟨fun hok => ?_, fun h => absurd h hstops.not_accepted⟩, fun _ => ?_, ?_⟩
    · rw [verify, herror] at hok
      cases hok
    · refine ⟨before, site, after, defect, rfl, hacc, herror, hstops, fun _ => ⟨
        Fault.report file (.loop site.id defect), ?_, rfl, rfl, defect.message, rfl⟩⟩
      rw [verify, herror]
      rfl
    · intro hclosed hsites id index h
      rw [verify, herror] at h
      cases h
      obtain ⟨hcallback, hwrapper⟩ := hsites site (by simp)
      generalize hdefect : Defect.outOfBounds index = defect at hstops
      cases hstops with
      | missing _ hmiss =>
        obtain ⟨rfl | rfl, hle⟩ := hmiss.eq_of_closed hclosed
        · exact absurd hcallback (not_lt.2 hle)
        · exact absurd hwrapper (not_lt.2 hle)
      | broken hfirst => exact hfirst.code_ne (hdefect ▸ rfl)

/-- A loop over `rows` as lowering would leave it, without the tree around it. -/
def oneLoop : Store := ⟨#[.name "rows", .name "row", .name "_key0",
  .object [.field "row" ⟨1⟩, .field keyField ⟨2⟩], .returning (some ⟨3⟩),
  .lambda ⟨.arrow, false, false, [.plain "row", .plain "index0"], .block [⟨4⟩]⟩,
  .element ⟨"block", [.named "a:for" (.expression ⟨0⟩), .quoted "a:for-item" "row",
    .quoted "a:for-index" "index0", .quoted "a:key" keyField], [], false⟩]⟩

def oneSite : Site where
  id := 0
  parent := none
  itemName := "row"
  indexName := "index0"
  keyToken := "_key0"
  source := ⟨0⟩
  mappingCall := ⟨0⟩
  callback := ⟨5⟩
  wrapper := ⟨6⟩
  ownedSubtree := ⟨6⟩
  bodyStatements := []
  schema := ⟨"row", .raw, []⟩
  binding := .inline

/-- A callback past the end of the store ends the run; and parentheses around the record are not
looked through. -/
theorem strayCallback_outOfBounds :
    verify .ali oneLoop [{ oneSite with callback := ⟨9999⟩ }] =
        .error (.loop 0 (.outOfBounds 9999)) ∧
      verify .ali ((oneLoop.add (.paren ⟨3⟩)).2.put ⟨4⟩ (.returning (some ⟨7⟩))) [oneSite] =
        .error (.loop 0 .noRecord) := ⟨rfl, rfl⟩

/-- The site passes; listed twice, its second copy is out of order; and no node is missed. -/
theorem oneSite_decided :
    Accepted .ali oneLoop [oneSite] ∧ ¬ Accepted .ali oneLoop [oneSite, oneSite] ∧
      verify .ali oneLoop [oneSite, oneSite] = .error (.loop 0 .unordered) ∧
      ∀ id index, verify .ali oneLoop [oneSite] ≠ .error (.loop id (.outOfBounds index)) := by
  obtain ⟨hone, -, hreads⟩ := verify_decides .ali oneLoop [oneSite] "list.tsx"
  have htwo : verify .ali oneLoop [oneSite, oneSite] = .error (.loop 0 .unordered) := by rfl
  have hclosed : Closed oneLoop := by
    have hall : ∀ i < 7, ∀ c ∈ (oneLoop.get ⟨i⟩).children, c.index < 7 := by decide
    exact fun l hl => hall l.index hl
  refine ⟨hone.1 (by rfl), fun h => ?_, htwo,
    hreads hclosed (by simp [oneSite, oneLoop, Store.size])⟩
  rw [(verify_decides .ali oneLoop [oneSite, oneSite] "list.tsx").1.2 h] at htwo
  cases htwo

end JsxLoops.Loop
