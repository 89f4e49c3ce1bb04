import JsxLoops.Loop.Verify
import JsxLoops.Proofs.Loops
import Mathlib

/-!
Lowering and verification agree. Whatever a run leaves passes verification, with one exception: an
item whose own name reads as the name of the key, or as a numbered field that is out of turn. Then
the fields of that loop's record are refused, and nothing else ever is.
-/

namespace JsxLoops.Loop

open JsxLoops.Tree Located

variable {adapter : Adapter} {scope : LoopScope} {item keyToken : String} {log : List Event}
  {d : Draft}

/-! ### Numbers in names -/

/-- The name is `_d` or `_s` with digits after it, and the digits make a number that fits into a
machine word. -/
def Numbering.Denotes (n : Numbering) (name : String) (number : Nat) : Prop :=
  ∃ digits : List Char, name.toList = '_' :: n.letter :: digits ∧ digits ≠ [] ∧
    (∀ c ∈ digits, c.isDigit) ∧ Nat.ofDigitChars 10 digits 0 = number ∧ number < UInt64.size

theorem fieldNumber?_eq_some {text : List Char} (hplus : ∀ rest, text ≠ '+' :: rest)
    {number : Nat} : fieldNumber? text = some number ↔ text ≠ [] ∧ (∀ c ∈ text, c.isDigit) ∧
      Nat.ofDigitChars 10 text 0 = number ∧ number < UInt64.size := by
  rw [fieldNumber?.eq_2 _ hplus]
  simp only [Bool.and_eq_true, Bool.not_eq_true', List.isEmpty_eq_false_iff, List.all_eq_true,
    Option.ite_none_right_eq_some, Option.some.injEq, Nat.ofDigitChars]
  grind

theorem numberOf?_eq_some {letter : Char} {name : String} {number : Nat} :
    numberOf? letter name = some number ↔
      ∃ text, name.toList = '_' :: letter :: text ∧ fieldNumber? text = some number := by
  rw [numberOf?]
  split <;> grind

theorem Numbering.numberOf?_iff_denotes (n : Numbering) {name : String}
    (hplus : '+' ∉ name.toList) {number : Nat} :
    numberOf? n.letter name = some number ↔ n.Denotes name number := by
  refine numberOf?_eq_some.trans (exists_congr fun text => and_congr_right fun hname =>
    fieldNumber?_eq_some ?_)
  rintro rest rfl
  exact hplus (by simp [hname])

theorem Numbering.denotes_name (n : Numbering) {k : Nat} (hk : k < UInt64.size) :
    n.Denotes (n.name k) k :=
  ⟨Nat.toDigits 10 k, n.toList_name k, Nat.toDigits_ne_nil,
    fun _ hc => Nat.isDigit_of_mem_toDigits (by omega) (by omega) hc,
    Nat.ofDigitChars_toDigits (by omega) (by omega), hk⟩

theorem Numbering.Denotes.inj {m n : Numbering} {name : String} {j k : Nat}
    (h : m.Denotes name j) (h' : n.Denotes name k) : m = n ∧ j = k := by
  obtain ⟨digits, hname, -, -, rfl, -⟩ := h
  obtain ⟨digits', hname', -, -, rfl, -⟩ := h'
  rw [hname, List.cons.injEq, List.cons.injEq] at hname'
  obtain ⟨-, hletter, rfl⟩ := hname'
  refine ⟨?_, rfl⟩
  revert hletter
  cases m <;> cases n <;> simp [letter]

theorem Numbering.Denotes.isNumberedField {n : Numbering} {name : String} {k : Nat}
    (h : n.Denotes name k) : isNumberedField name = true := by
  obtain ⟨digits, hname, hne, hdigits, -⟩ := h
  have hall : digits.all Text.isDecimalDigit = true :=
    List.all_eq_true.2 fun c hc => isDecimalDigit_of_isDigit (hdigits c hc)
  rw [Loop.isNumberedField, hname]
  cases n <;> simp [letter, hall, hne]

theorem Numbering.not_denotes_keyField (n : Numbering) (k : Nat) : ¬ n.Denotes keyField k := by
  rintro ⟨digits, h, -⟩
  cases n <;> simp [keyField, letter] at h

theorem plus_not_mem_name (n : Numbering) (k : Nat) : '+' ∉ (n.name k).toList := by
  rw [n.toList_name]
  intro h
  rcases List.mem_cons.1 h with h | h
  · cases h
  · rcases List.mem_cons.1 h with h | h
    · cases n <;> cases h
    · exact absurd (Nat.isDigit_of_mem_toDigits (by omega) (by omega) h) (by decide)

/-! ### Checking fields one after the other -/

/-- What is known of the fields that were checked so far. -/
structure Tally where
  seen : List String
  dynamic : Nat
  style : Nat

namespace Tally

def due (t : Tally) : Numbering → Nat
  | .value => t.dynamic
  | .style => t.style

def step (t : Tally) : Option String → Except Defect Tally
  | none => .error .unnamedField
  | some name => do
    if t.seen.contains name then throw (.repeatedField name)
    let dynamic ← countField 'd' t.dynamic name
    let style ← countField 's' t.style name
    return ⟨name :: t.seen, dynamic, style⟩

end Tally

theorem verifyFields_eq (t : Tally) (names : List (Option String)) :
    verifyFields t.seen t.dynamic t.style names =
      (names.foldlM Tally.step t).map fun _ => () := by
  induction names generalizing t with
  | nil => rfl
  | cons name names ih =>
    rw [List.foldlM_cons]
    cases name with
    | none => rfl
    | some name =>
      rw [verifyFields, Tally.step]
      by_cases hseen : t.seen.contains name = true
      · rw [if_pos hseen, if_pos hseen]
        rfl
      · rw [if_neg hseen, if_neg hseen]
        cases countField 'd' t.dynamic name with
        | error e => rfl
        | ok dynamic =>
          cases countField 's' t.style name with
          | error e => rfl
          | ok style => exact ih ⟨name :: t.seen, dynamic, style⟩

theorem countField_of_not {n : Numbering} {name : String} (hplus : '+' ∉ name.toList) (due : Nat)
    (h : ∀ k, ¬ n.Denotes name k) : countField n.letter due name = .ok due := by
  have hnone : numberOf? n.letter name = none :=
    Option.eq_none_iff_forall_ne_some.2 fun k hk => h k ((n.numberOf?_iff_denotes hplus).1 hk)
  rw [countField, hnone]

theorem countField_of_denotes {n : Numbering} {name : String} (hplus : '+' ∉ name.toList)
    (due : Nat) {k : Nat} (h : n.Denotes name k) : countField n.letter due name =
      if k = due then .ok (due + 1) else .error (.misnumberedField name) := by
  rw [countField, (n.numberOf?_iff_denotes hplus).2 h]

theorem code_of_countField {kind : Char} {due : Nat} {name : String} {defect : Defect}
    (h : countField kind due name = .error defect) : defect.code = "LIST003" := by
  rw [countField] at h
  split at h
  · split at h <;> cases h
    rfl
  · cases h

namespace Tally

variable {t t' : Tally} {name : String}

theorem step_plain (hplus : '+' ∉ name.toList) (hseen : name ∉ t.seen)
    (h : ∀ (n : Numbering) k, ¬ n.Denotes name k) :
    t.step (some name) = .ok { t with seen := name :: t.seen } := by
  have hcontains : t.seen.contains name = false := by simpa using hseen
  simp only [step, hcontains, Bool.false_eq_true, if_false]
  rw [show countField 'd' t.dynamic name = .ok t.dynamic from
    countField_of_not (n := .value) hplus _ (h .value)]
  rw [show countField 's' t.style name = .ok t.style from
    countField_of_not (n := .style) hplus _ (h .style)]
  rfl

/-- The tally after a name with the number that is due. -/
def count (t : Tally) (name : String) : Numbering → Tally
  | .value => ⟨name :: t.seen, t.dynamic + 1, t.style⟩
  | .style => ⟨name :: t.seen, t.dynamic, t.style + 1⟩

theorem step_numbered {n : Numbering} {k : Nat} (hplus : '+' ∉ name.toList)
    (hseen : name ∉ t.seen) (h : n.Denotes name k) : t.step (some name) =
      if k = t.due n then .ok (t.count name n) else .error (.misnumberedField name) := by
  have hcontains : t.seen.contains name = false := by simpa using hseen
  have hother (m : Numbering) (hm : m ≠ n) (due : Nat) :
      countField m.letter due name = .ok due :=
    countField_of_not hplus due fun j hj => hm (hj.inj h).1
  have hown := countField_of_denotes hplus (t.due n) h
  simp only [step, hcontains, Bool.false_eq_true, if_false]
  cases n with
  | value =>
    rw [show countField 'd' t.dynamic name = _ from hown,
      show countField 's' t.style name = _ from hother .style (by simp) _]
    by_cases hk : k = t.due .value
    · rw [if_pos hk, if_pos hk]
      rfl
    · rw [if_neg hk, if_neg hk]
      rfl
  | style =>
    rw [show countField 'd' t.dynamic name = _ from hother .value (by simp) _,
      show countField 's' t.style name = _ from hown]
    by_cases hk : k = t.due .style
    · rw [if_pos hk, if_pos hk]
      rfl
    · rw [if_neg hk, if_neg hk]
      rfl

theorem step_repeated (hseen : name ∈ t.seen) :
    t.step (some name) = .error (.repeatedField name) := by
  have hcontains : t.seen.contains name = true := by simpa using hseen
  simp only [step, hcontains, if_true]
  rfl

theorem code_of_step {defect : Defect} (h : t.step (some name) = .error defect) :
    defect.code = "LIST003" := by
  rw [step] at h
  split at h
  · cases h
    rfl
  · cases hd : countField 'd' t.dynamic name with
    | error e =>
      rw [hd] at h
      cases h
      exact code_of_countField hd
    | ok dynamic =>
      cases hs : countField 's' t.style name with
      | error e =>
        rw [hd, hs] at h
        cases h
        exact code_of_countField hs
      | ok style =>
        rw [hd, hs] at h
        cases h

theorem foldlM_cons_eq_ok {x : Option String} {xs : List (Option String)} :
    (x :: xs).foldlM step t = .ok t' ↔ ∃ t₁, t.step x = .ok t₁ ∧ xs.foldlM step t₁ = .ok t' := by
  rw [List.foldlM_cons]
  cases t.step x with
  | error e => exact ⟨fun h => (nomatch h), fun ⟨_, h, _⟩ => (nomatch h)⟩
  | ok t₁ => exact ⟨fun h => ⟨t₁, rfl, h⟩, fun ⟨_, h, hs⟩ => Except.ok.inj h ▸ hs⟩

theorem due_count (t : Tally) (name : String) (n m : Numbering) :
    (t.count name n).due m = if m = n then t.due m + 1 else t.due m := by
  cases n <;> cases m <;> rfl

theorem due_of_step (hplus : '+' ∉ name.toList) (h : t.step (some name) = .ok t')
    (n : Numbering) : t.due n ≤ t'.due n ∧ ∀ k, n.Denotes name k → k = t.due n := by
  have hseen : name ∉ t.seen := fun hmem => by
    rw [step_repeated hmem] at h
    cases h
  by_cases hnum : ∃ (m : Numbering) (j : Nat), m.Denotes name j
  · obtain ⟨m, j, hj⟩ := hnum
    rw [step_numbered hplus hseen hj] at h
    split at h
    case isTrue hdue =>
      cases h
      rw [due_count]
      refine ⟨by split <;> omega, fun k hk => ?_⟩
      obtain ⟨rfl, rfl⟩ := hk.inj hj
      exact hdue
    case isFalse => cases h
  · have hnone (m : Numbering) (k : Nat) : ¬ m.Denotes name k := fun hk => hnum ⟨m, k, hk⟩
    rw [step_plain hplus hseen hnone] at h
    cases h
    exact ⟨by cases n <;> exact le_rfl, fun k hk => absurd hk (hnone n k)⟩

theorem not_mem_of_foldlM {names : List String} {n : Numbering} {k : Nat}
    (hplus : ∀ name ∈ names, '+' ∉ name.toList) (h : (names.map some).foldlM step t = .ok t')
    (hk : k < t.due n) : ∀ name ∈ names, ¬ n.Denotes name k := by
  induction names generalizing t with
  | nil => simp
  | cons name names ih =>
    obtain ⟨t₁, hs, h⟩ := foldlM_cons_eq_ok.1 h
    obtain ⟨hle, hturn⟩ := due_of_step (hplus name List.mem_cons_self) hs n
    intro x hx
    rcases List.mem_cons.1 hx with rfl | hx
    · exact fun hden => hk.ne (hturn k hden)
    · exact ih (fun y hy => hplus y (List.mem_cons_of_mem _ hy)) h (hk.trans_le hle) x hx

theorem code_of_foldlM {names : List String} {defect : Defect}
    (h : (names.map some).foldlM step t = .error defect) : defect.code = "LIST003" := by
  induction names generalizing t with
  | nil => cases h
  | cons name names ih =>
    rw [List.map_cons, List.foldlM_cons] at h
    cases hs : t.step (some name) with
    | error e =>
      rw [hs] at h
      cases h
      exact code_of_step hs
    | ok t' =>
      rw [hs] at h
      exact ih h

end Tally

/-! ### The fields of a record -/

/-- The fields that a log adds pass one after the other, if the name of the item has not taken a
number that is due. -/
theorem Logged.foldlM_step {t : Tally} (h : Logged adapter scope { item, keyToken } log d)
    (hplus : ∀ name ∈ scope.locals, '+' ∉ name.toList)
    (hcount : ∀ n : Numbering, n.count d ≤ UInt64.size) (hseen : t.seen = [keyField, item])
    (hdue : ∀ n : Numbering, n.count d ≠ 0 →
      t.due n = 0 ∧ ∀ k < UInt64.size, item ≠ n.name k) :
    ∃ t', (((fieldsOf log).map Prod.fst).map some).foldlM Tally.step t = .ok t' ∧
      t'.seen = ((fieldsOf log).map Prod.fst).reverse ++ t.seen ∧
      ∀ n : Numbering, t'.due n = t.due n + n.count d := by
  induction h with
  | nil => exact ⟨t, rfl, rfl, fun n => by cases n <;> rfl⟩
  | @snoc log e d d' h hn ih =>
    have hnodup := (h.snoc hn).nodup_fields
    rcases hn.fieldsOf_append log with ⟨hf, hd⟩ | ⟨name, hf, hname⟩
    · rw [hf]
      simp only [hd] at hcount hdue ⊢
      exact ih hcount hdue
    · have hle := hname.le
      obtain ⟨t', hrun, hseen', hdue'⟩ := ih (fun n => (hle n).trans (hcount n))
        (fun n hn => hdue n (by have := hle n; omega))
      rw [hf] at hnodup ⊢
      have hmem : name ∈ t'.seen ↔ name = keyField ∨ name = item := by
        rw [List.map_append, List.nodup_append] at hnodup
        have hnew : name ∉ (fieldsOf log).map Prod.fst := fun hmem =>
          hnodup.2.2 _ hmem name (by simp) rfl
        rw [hseen', hseen, List.mem_append, List.mem_reverse]
        simp only [hnew, false_or, List.mem_cons, List.not_mem_nil, or_false]
      have hstep : ∃ t'', t'.step (some name) = .ok t'' ∧ t''.seen = name :: t'.seen ∧
          ∀ n : Numbering, t''.due n = t.due n + n.count d' := by
        cases hname with
        | numbered n hcountn hothers =>
          have hlt : n.count d < UInt64.size := by
            have := hcount n
            omega
          have hden : n.Denotes (n.name (n.count d)) (n.count d) := n.denotes_name hlt
          obtain ⟨hzero, hitem⟩ := hdue n (by omega)
          have hnot : n.name (n.count d) ∉ t'.seen := by
            rw [hmem]
            rintro (hk | hi)
            · exact n.not_denotes_keyField _ (hk ▸ hden)
            · exact hitem _ hlt hi.symm
          rw [Tally.step_numbered (plus_not_mem_name _ _) hnot hden,
            if_pos (by rw [hdue', hzero, zero_add])]
          refine ⟨_, rfl, by cases n <;> rfl, fun m => ?_⟩
          rw [Tally.due_count, hdue']
          split
          case isTrue hm => rw [hm, hcountn, add_assoc]
          case isFalse hm => rw [hothers m hm]
        | ofLocal hl hitem hkey hnumber _ hcounts =>
          have hnot : name ∉ t'.seen := by
            rw [hmem]
            rintro (hk | hi)
            · exact hkey hk
            · exact hitem (hi.trans h.names.1.symm)
          rw [Tally.step_plain (hplus name hl) hnot fun n k hk => by
            rw [hk.isNumberedField] at hnumber
            cases hnumber]
          exact ⟨_, rfl, rfl, fun n => by rw [hcounts, ← hdue']; cases n <;> rfl⟩
      obtain ⟨t'', hok, hseen'', hdue''⟩ := hstep
      refine ⟨t'', ?_, ?_, hdue''⟩
      · simp only [List.map_append, List.map_cons, List.map_nil, List.foldlM_append, hrun]
        exact (congrArg (· >>= fun t => pure t) hok).trans rfl
      · rw [hseen'', hseen']
        simp

/-- The name of an item reads as that of the key, or as a numbered field that is not the first one,
or that has others of its kind after it. -/
def Clash (item : String) (fields : List String) : Prop :=
  item = keyField ∨ ∃ (n : Numbering) (number : Nat), n.Denotes item number ∧
    (number ≠ 0 ∨ ∃ k, n.name k ∈ fields)

theorem keyField_plain : '+' ∉ keyField.toList := by
  simp [keyField]

theorem Logged.name_zero_mem (h : Logged adapter scope { item, keyToken } log d) {n : Numbering}
    (hn : n.count d ≠ 0) : n.name 0 ∈ (fieldsOf log).map Prod.fst := by
  obtain ⟨f, hf, he⟩ := h.exists_field (Nat.pos_of_ne_zero hn)
  exact he ▸ List.mem_map_of_mem hf

theorem Logged.not_clash (h : Logged adapter scope { item, keyToken } log d)
    (hplus : ∀ name ∈ scope.locals, '+' ∉ name.toList) (hitem : '+' ∉ item.toList) {t : Tally}
    (hok : ((item :: keyField :: (fieldsOf log).map Prod.fst).map some).foldlM Tally.step
      ⟨[], 0, 0⟩ = .ok t) : ¬ Clash item ((fieldsOf log).map Prod.fst) := by
  have hfields : ∀ name ∈ (fieldsOf log).map Prod.fst, '+' ∉ name.toList := by
    intro name hname
    obtain ⟨f, hf, rfl⟩ := List.mem_map.1 hname
    generalize hfst : f.1 = name
    have hissued := h.issued f hf
    rw [hfst] at hissued
    cases hissued with
    | numbered n k _ => exact plus_not_mem_name n k
    | ofLocal hl => exact hplus _ hl
  obtain ⟨t₁, hfirst, hok⟩ := Tally.foldlM_cons_eq_ok.1 hok
  obtain ⟨t₂, hsecond, hok⟩ := Tally.foldlM_cons_eq_ok.1 hok
  rintro (hkey | ⟨n, number, hden, hclash⟩)
  · have hseen : keyField ∈ t₁.seen := by
      rw [Tally.step_plain hitem List.not_mem_nil fun n k => hkey ▸ n.not_denotes_keyField k]
        at hfirst
      obtain rfl := Except.ok.inj hfirst
      rw [hkey]
      exact List.mem_cons_self
    rw [Tally.step_repeated hseen] at hsecond
    cases hsecond
  · obtain rfl : number = 0 := by
      have := (Tally.due_of_step hitem hfirst n).2 number hden
      cases n <;> exact this
    obtain ⟨k, hk⟩ := hclash.resolve_left fun h => h rfl
    obtain ⟨f, hf, hfk⟩ := List.mem_map.1 hk
    have hcount : n.count d ≠ 0 := by
      have := h.issued f hf
      rw [hfk] at this
      exact (Nat.zero_le k).trans_lt this.lt |>.ne'
    -- the item has taken the number zero, so the first numbered field is refused
    have hdue : 0 < t₂.due n := by
      rw [Tally.step_numbered hitem List.not_mem_nil hden, if_pos (by cases n <;> rfl)] at hfirst
      obtain rfl := Except.ok.inj hfirst
      refine Nat.lt_of_lt_of_le ?_ (Tally.due_of_step keyField_plain hsecond n).1
      rw [Tally.due_count, if_pos rfl]
      exact Nat.succ_pos _
    exact Tally.not_mem_of_foldlM hfields hok hdue _ (h.name_zero_mem hcount)
      (n.denotes_name (by decide))

theorem Logged.foldlM_ok (h : Logged adapter scope { item, keyToken } log d)
    (hplus : ∀ name ∈ scope.locals, '+' ∉ name.toList) (hitem : '+' ∉ item.toList)
    (hcount : ∀ n : Numbering, n.count d ≤ UInt64.size)
    (hclash : ¬ Clash item ((fieldsOf log).map Prod.fst)) :
    ∃ t, ((item :: keyField :: (fieldsOf log).map Prod.fst).map some).foldlM Tally.step
      ⟨[], 0, 0⟩ = .ok t := by
  have hkey : keyField ≠ item := fun he => hclash (.inl he.symm)
  -- the name of the item can take a number only where no field does
  have hfirst : ∃ t₁, Tally.step ⟨[], 0, 0⟩ (some item) = .ok t₁ ∧ t₁.seen = [item] ∧
      ∀ n : Numbering, n.count d ≠ 0 → t₁.due n = 0 := by
    by_cases hnum : ∃ (n : Numbering) (number : Nat), n.Denotes item number
    · obtain ⟨n, number, hden⟩ := hnum
      have hnumber : number = 0 := by
        by_contra hne
        exact hclash (.inr ⟨n, number, hden, .inl hne⟩)
      rw [Tally.step_numbered hitem List.not_mem_nil hden, if_pos (by cases n <;> exact hnumber)]
      refine ⟨_, rfl, by cases n <;> rfl, fun m hm => ?_⟩
      rw [Tally.due_count, if_neg]
      · cases m <;> rfl
      · rintro rfl
        exact hclash (.inr ⟨m, number, hden, .inr ⟨0, h.name_zero_mem hm⟩⟩)
    · rw [Tally.step_plain hitem List.not_mem_nil fun n k hk => hnum ⟨n, k, hk⟩]
      exact ⟨_, rfl, rfl, fun n _ => by cases n <;> rfl⟩
  obtain ⟨t₁, hstep, hseen, hdue⟩ := hfirst
  have hsecond : t₁.step (some keyField) = .ok { t₁ with seen := keyField :: t₁.seen } :=
    Tally.step_plain keyField_plain (by simpa [hseen] using hkey) Numbering.not_denotes_keyField
  obtain ⟨t, hrest, -, -⟩ := h.foldlM_step (t := { t₁ with seen := keyField :: t₁.seen }) hplus
    hcount (by simp [hseen]) fun n hn => ⟨by cases n <;> exact hdue _ hn, fun k hk he =>
      hclash (.inr ⟨n, k, he ▸ n.denotes_name hk, .inr ⟨0, h.name_zero_mem hn⟩⟩)⟩
  exact ⟨t, Tally.foldlM_cons_eq_ok.2 ⟨_, hstep, Tally.foldlM_cons_eq_ok.2 ⟨_, hsecond, hrest⟩⟩⟩

/-! ### Sites -/

/-- The names of the fields that follow the item and the key in the record of a site. -/
def fieldNames (s : Store) (site : Site) : List String :=
  match verifyCallback s site with
  | .ok entries => (entries.drop 2).filterMap Entry.fieldName?
  | .error _ => []

theorem Lowered.verifyWrapper_eq {s : Store} (lp : Lowered adapter) (hs : s.Shows lp.tree) :
    verifyWrapper adapter s lp.site = .ok () := by
  rw [verifyWrapper, lookup_of_get (l := lp.site.wrapper) hs.get_root nofun]
  simp [bind, Except.bind, wrapperNode, Node.map, Attribute.map, Attribute.quoted, Attribute.name?,
    AttributeValue.map, Adapter.loopAttributes, verifyValues, site]

theorem fieldNames_eq {s : Store} {site : Site} {item : String} {v key : Loc}
    {fields : List (String × Located)} (h : verifyCallback s site = .ok (.field item v ::
      .field keyField key :: fields.map fun f => .field f.1 f.2.loc)) :
    fieldNames s site = fields.map Prod.fst := by
  rw [fieldNames, h]
  simp [List.filterMap_map, Function.comp_def, Entry.field, Entry.fieldName?]

/-- What stands in the way of a site: the name of its item. -/
def Site.Clashes (site : Site) (s : Store) : Prop := Clash site.itemName (fieldNames s site)

/-- The names that a loop binds have no plus sign, and its log has no more events than a machine
word can count. -/
structure Plain (lp : Lowered adapter) : Prop where
  item : '+' ∉ lp.mapping.itemName.toList
  locals : ∀ name ∈ (lp.mapping.scope lp.tokens).locals, '+' ∉ name.toList
  counts : ∀ n : Numbering, n.count lp.ledger.draft ≤ UInt64.size

theorem verifyRecord_eq (site : Site) (v key : Loc) (fields : List (String × Located)) :
    verifyRecord site (.field site.itemName v :: .field keyField key ::
      fields.map fun f => .field f.1 f.2.loc) =
    (((site.itemName :: keyField :: fields.map Prod.fst).map some).foldlM Tally.step
      ⟨[], 0, 0⟩).map fun _ => () := by
  rw [← verifyFields_eq]
  simp [verifyRecord, Entry.field, Entry.fieldName?, Function.comp_def]

theorem Formed.verifySite_iff {start : Nat} {lp : Lowered adapter} {s : Store}
    (h : Formed start lp) (hp : Plain lp) (hcall : s.Shows lp.call) (htree : s.Shows lp.tree) :
    (verifySite adapter s lp.site = .ok () ↔ ¬ lp.site.Clashes s) ∧
      ∀ defect, verifySite adapter s lp.site = .error defect → defect.code = "LIST003" := by
  obtain ⟨key, v, -, -, hcb⟩ := h.verifyCallback_eq hcall
  have hsite : verifySite adapter s lp.site = (((lp.site.itemName :: keyField ::
      (fieldsOf lp.ledger.log).map Prod.fst).map some).foldlM Tally.step ⟨[], 0, 0⟩).map
      fun _ => () := by
    rw [verifySite, hcb, lp.verifyWrapper_eq htree, ← verifyRecord_eq lp.site v.loc key]
    exact bind_pure_unit (m := Except Defect)
  rw [hsite, Site.Clashes, fieldNames_eq hcb]
  have hok := h.logged.foldlM_ok hp.locals hp.item hp.counts
  have hnot {t : Tally} := h.logged.not_clash (t := t) hp.locals hp.item
  rw [show lp.site.itemName = lp.mapping.itemName from rfl]
  cases hrun : ((lp.mapping.itemName :: keyField ::
      (fieldsOf lp.ledger.log).map Prod.fst).map some).foldlM Tally.step ⟨[], 0, 0⟩ with
  | ok t => exact ⟨⟨fun _ => hnot hrun, fun _ => rfl⟩, fun defect h => nomatch h⟩
  | error e =>
    refine ⟨⟨fun h => (nomatch h), fun hclash => ?_⟩, fun defect h => ?_⟩
    · obtain ⟨t, ht⟩ := hok hclash
      rw [ht] at hrun
      cases hrun
    · cases h
      exact Tally.code_of_foldlM hrun

/-! ### Names and sizes that loops inherit -/

def PlainTree (t : Located) : Prop :=
  ∀ u, Occurs u t → ∀ b ∈ u.here.binders, ∀ name ∈ b.names, '+' ∉ name.toList

theorem names_renameFree (a b : String) (t : Located) :
    (t.renameFree a b).here.binders.map Binder.names = t.here.binders.map Binder.names := by
  obtain ⟨l, n⟩ := t
  rw [renameFree_node]
  split
  · rfl
  · cases n <;> simp [Node.renameHere, Node.map, Node.binders, Binder.names_rename,
      Function.comp_def]

theorem PlainTree.renameFree {t : Located} (h : PlainTree t) (a b : String) :
    PlainTree (t.renameFree a b) := by
  intro u hu x hx name hname
  obtain ⟨v, hv, rfl | rfl⟩ := occurs_renameFree hu
  · exact h u hv x hx name hname
  · have hmem : x.names ∈ v.here.binders.map Binder.names := by
      rw [← names_renameFree a b]
      exact List.mem_map_of_mem hx
    obtain ⟨y, hy, he⟩ := List.mem_map.1 hmem
    exact h v hv y hy name (he ▸ hname)

theorem card_cells_renameFree (a b : String) (t : Located) :
    (t.renameFree a b).cells.card = t.cells.card := by
  have hcard := congrArg Multiset.card (map_loc_cells_renameFree a b t)
  rwa [Multiset.card_map, Multiset.card_map] at hcard

theorem PlainTree.names {m : Mapping} (h : PlainTree m.tree) :
    ∀ name ∈ m.names, '+' ∉ name.toList := by
  intro name hname
  obtain ⟨b, hb, he⟩ := List.mem_filterMap.1 hname
  refine h _ (m.occurs_callback m.params m.body) b hb name ?_
  cases b with
  | plain | annotated => simp_all [Binder.name?, Binder.names]
  | verbatim => cases he

theorem PlainTree.itemName {m : Mapping} (h : PlainTree m.tree) : '+' ∉ m.itemName.toList := by
  rw [Mapping.itemName, Candidate.itemName, Mapping.candidate]
  cases hn : m.names[0]? with
  | none => simp
  | some name => exact h.names name (List.mem_of_getElem? hn)

theorem PlainTree.locals {m : Mapping} (h : PlainTree m.tree) (tokens : Tokens) :
    ∀ name ∈ (m.scope tokens).locals, '+' ∉ name.toList := by
  intro name hname
  simp only [Mapping.scope, declaredBy, List.flatMap_map, List.mem_flatMap] at hname
  obtain ⟨t, ht, hname⟩ := hname
  have hplain : PlainTree (m.renamed tokens t) := by
    have : PlainTree t := fun u hu => h u (hu.trans (m.occurs_leading ht))
    rw [Mapping.renamed]
    split
    · exact this.renameFree _ _
    · exact this
  have hbinders : ∀ n : Node Located, name ∈ n.declared → ∃ b ∈ n.binders, name ∈ b.names := by
    intro n hn
    cases n with
    | declaration keyword declarators =>
      obtain ⟨x, hx, hn⟩ := List.mem_flatMap.1 hn
      exact ⟨x.binder, List.mem_map_of_mem hx, hn⟩
    | _ => cases hn
  obtain ⟨b, hb, hn⟩ := hbinders _ hname
  exact hplain _ .self b hb name hn

theorem Noted.count_le {e : Event} {d' : Draft} (h : Noted adapter scope d e d') (n : Numbering) :
    n.count d' ≤ n.count d + 1 := by
  rcases h.fieldsOf_append [] with ⟨-, hd⟩ | ⟨name, -, hname⟩
  · exact (hd n).le.trans (Nat.le_succ _)
  · cases hname with
    | numbered m hm hothers =>
      by_cases hnm : n = m
      · exact (hnm ▸ hm).le
      · exact (hothers n hnm).le.trans (Nat.le_succ _)
    | ofLocal _ _ _ _ _ hcounts => exact (hcounts n).le.trans (Nat.le_succ _)

theorem Logged.count_le (h : Logged adapter scope { item, keyToken } log d) (n : Numbering) :
    n.count d ≤ log.length := by
  induction h with
  | nil => cases n <;> exact le_rfl
  | snoc _ hn ih =>
    rw [List.length_append, List.length_singleton]
    exact (hn.count_le n).trans (Nat.succ_le_succ ih)

theorem Formed.length_log_le {start : Nat} {lp : Lowered adapter} (h : Formed start lp) :
    lp.ledger.log.length ≤ lp.mapping.tree.cells.card := by
  obtain ⟨-, -, -, hsubtree, hledger, -⟩ := h
  have hlen := hsubtree.length_log_le
  rw [Stage.log, hledger] at hlen
  simp only [Stage.log, Option.elim_some, Ledger.start, List.length_nil, Nat.zero_add,
    treesOf_cons, treesOf_nil, List.append_nil, Part.trees] at hlen
  have hnode := card_cells_node (lp.mapping.renamed lp.tokens lp.mapping.subtree).loc
    (lp.mapping.renamed lp.tokens lp.mapping.subtree).here
  have hrenamed : (lp.mapping.renamed lp.tokens lp.mapping.subtree).cells.card =
      lp.mapping.subtree.cells.card := by
    rw [Mapping.renamed]
    split
    · exact card_cells_renameFree _ _ _
    · rfl
  have hsub := Multiset.card_le_card lp.mapping.occurs_subtree.cells_le
  rw [eta, hrenamed] at hnode
  omega

theorem LowersWhole.plain {start : Nat} {a a' : Allocator} {t t' : Located}
    {loops : List (Lowered adapter)} (h : LowersWhole adapter start a t t' a' loops)
    (hplain : PlainTree t) (hsize : t.cells.card ≤ UInt64.size) : ∀ lp ∈ loops, Plain lp := by
  intro lp hlp
  have htree : PlainTree lp.mapping.tree := by
    refine h.inherits (fun t c ht hc u hu => ht u (hu.trans (.of_mem hc)))
      (fun a b t ht => ht.renameFree a b) (fun l l' n ht u hu => ?_) hplain lp hlp
    cases hu with
    | self => exact ht (.node l n) .self
    | child hc hu => exact ht u (.child hc hu)
  have hcard : lp.mapping.tree.cells.card ≤ UInt64.size := by
    refine h.inherits (P := fun t => t.cells.card ≤ UInt64.size)
      (fun t c ht hc => (Multiset.card_le_card (Occurs.of_mem hc).cells_le).trans ht)
      (fun a b t ht => (card_cells_renameFree a b t).trans_le ht) (fun l l' n ht => ?_) hsize lp hlp
    rwa [card_cells_node] at ht ⊢
  have hformed := h.formed lp hlp
  exact ⟨htree.itemName, htree.locals lp.tokens, fun n =>
    (hformed.logged.count_le n).trans (hformed.length_log_le.trans hcard)⟩

/-! ### Whole runs -/

theorem verifyAfter_of_sorted (s : Store) (previous : Option UInt32) {sites : List Site}
    (hprevious : ∀ site ∈ sites, ∀ id ∈ previous, id < site.id)
    (hsorted : sites.Pairwise fun x y => x.id < y.id) :
    (verifyAfter adapter s previous sites = .ok () ↔
      ∀ site ∈ sites, verifySite adapter s site = .ok ()) ∧
    ∀ fault, verifyAfter adapter s previous sites = .error fault →
      ∃ site ∈ sites, ∃ defect, verifySite adapter s site = .error defect ∧
        fault = .loop site.id defect := by
  induction sites generalizing previous with
  | nil => exact ⟨⟨fun _ => by simp, fun _ => rfl⟩, fun _ h => nomatch h⟩
  | cons site sites ih =>
    obtain ⟨hfirst, hsorted⟩ := List.pairwise_cons.1 hsorted
    have horder : previous.any (site.id ≤ ·) = false := by
      cases previous with
      | none => rfl
      | some id => simpa using hprevious site List.mem_cons_self id rfl
    obtain ⟨hok, herror⟩ := ih (some site.id) (fun x hx id hid => by
      obtain rfl := Option.mem_some.1 hid
      exact hfirst x hx) hsorted
    rw [List.forall_mem_cons, ← hok, verifyAfter, horder]
    cases hs : verifySite adapter s site with
    | ok =>
      refine ⟨⟨fun h => ⟨rfl, h⟩, fun h => h.2⟩, fun fault h => ?_⟩
      obtain ⟨x, hx, defect, hd, hf⟩ := herror fault h
      exact ⟨x, List.mem_cons_of_mem _ hx, defect, hd, hf⟩
    | error defect =>
      refine ⟨⟨fun h => (nomatch h), fun h => nomatch h.1⟩, fun fault h => ?_⟩
      cases h
      exact ⟨site, List.mem_cons_self, defect, hs, rfl⟩

theorem Allocator.nodup_numbers (a : Allocator) {count : Nat} (h : count ≤ UInt32.size) :
    (a.numbers count).Nodup := by
  refine List.Nodup.map_on (fun i hi j hj he => ?_) List.nodup_range
  rw [List.mem_range] at hi hj
  have hij := congrArg UInt32.toNat (UInt32.add_right_inj a.next |>.1 he)
  rwa [UInt32.toNat_ofNat_of_lt' (hi.trans_le h), UInt32.toNat_ofNat_of_lt' (hj.trans_le h)] at hij

theorem LowersWhole.sorted {start : Nat} {a a' : Allocator} {t t' : Located}
    {loops : List (Lowered adapter)} (h : LowersWhole adapter start a t t' a' loops)
    (hcount : loops.length ≤ UInt32.size) :
    ((loops.map Lowered.site).mergeSort fun x y => x.id ≤ y.id).Pairwise fun x y =>
    x.id < y.id := by
  have hle := pairwise_mergeSort_id (loops.map Lowered.site)
  have hnodup : (((loops.map Lowered.site).mergeSort fun x y => x.id ≤ y.id).map
    Site.id).Nodup := by
    refine ((List.mergeSort_perm _ _).map Site.id).nodup_iff.2 ?_
    rw [List.map_map]
    exact h.numbers.2.nodup_iff.2 (a.nodup_numbers hcount)
  rw [List.nodup_iff_pairwise_ne, List.pairwise_map] at hnodup
  exact (hle.and hnodup).imp fun h => UInt32.lt_of_le_of_ne h.1 h.2

/-- No name that is bound below the root has a plus sign. -/
def PlainNames (s : Store) (root : Loc) : Prop :=
  ∀ path l, s.descend path root = some l → ∀ b ∈ (s.get l).binders, ∀ name ∈ b.names,
    '+' ∉ name.toList

theorem PlainNames.tree {s : Store} {t : Located} (h : PlainNames s t.loc) (hs : s.Shows t) :
    PlainTree t := by
  intro u hu b hb
  obtain ⟨path, hpath⟩ := hu.exists_path
  refine h path u.loc (by rw [hs.descend, hpath, Option.map_some]) b ?_
  rw [(hs.occurs hu).get_loc]
  generalize u.here = n at hb
  cases n with
  | lambda | declaration => simpa [Node.map, Node.binders] using hb
  | _ => cases hb

/-- Lowering and verification agree. What a run leaves passes, unless the name of some item reads as
that of the key, as a numbered field other than the first, or as the first one of a kind that the
record also has. In each of these cases, and in no other, a fault is reported, and its code is the
one for fields that are repeated or out of turn. -/
theorem verify_lowerLoops (adapter : Adapter) {s : Store} {root : Loc} (h : s.IsTree root)
    (hsize : s.size ≤ UInt64.size) (hnames : PlainNames s root) (a : Allocator)
    (hnext : a.next.toNat + (lowerLoops adapter root ⟨s, a, []⟩).1 < 2 ^ 32) :
    let p := (lowerLoops adapter root ⟨s, a, []⟩).2
    (verify adapter p.store p.sites = .ok () ↔ ∀ site ∈ p.sites, ¬ site.Clashes p.store) ∧
      ∀ fault, verify adapter p.store p.sites = .error fault → fault.code = "LIST003" := by
  obtain ⟨t, rfl, hown⟩ := Store.isTree_iff.1 h
  obtain ⟨t', p, loops, hrun, -, hown', hlow, -, hsites⟩ := lowerLoops_runs adapter hown a []
  rw [show lowerLoops adapter t.loc ⟨s, a, []⟩ = (loops.length, p) from hrun] at hnext ⊢
  have hshows : p.store.Shows t' := hown'.shows le_rfl
  have hplain := hlow.plain (hnames.tree (hown.shows le_rfl)) (hown.card_le.trans hsize)
  have hsorted := hlow.sorted (by rw [UInt32.size]; omega)
  rw [← hsites rfl] at hsorted
  -- every site is the site of a loop that stands in the tree
  have hsite : ∀ site ∈ p.sites,
      (verifySite adapter p.store site = .ok () ↔ ¬ site.Clashes p.store) ∧
      ∀ defect, verifySite adapter p.store site = .error defect → defect.code = "LIST003" := by
    intro site hmem
    rw [hsites rfl, List.mem_mergeSort] at hmem
    obtain ⟨lp, hlp, rfl⟩ := List.mem_map.1 hmem
    obtain ⟨htree, hcall⟩ := hlow.placed lp hlp
    exact (hlow.formed lp hlp).verifySite_iff (hplain lp hlp) (hshows.occurs hcall)
      (hshows.occurs htree)
  obtain ⟨hok, herror⟩ := verifyAfter_of_sorted p.store none (by simp) hsorted
  refine ⟨hok.trans (forall₂_congr fun site hmem => (hsite site hmem).1), fun fault hf => ?_⟩
  obtain ⟨site, hmem, defect, hd, rfl⟩ := herror fault hf
  exact (hsite site hmem).2 defect hd

theorem plainNames_of_all {s : Store} {root : Loc} (h : s.IsTree root)
    (hall : ∀ i < s.size, ∀ b ∈ (s.get ⟨i⟩).binders, ∀ name ∈ b.names, '+' ∉ name.toList) :
    PlainNames s root :=
  fun path l hl => hall l.index (h.bound path l hl)

theorem nestedLoops_plainNames : PlainNames nestedLoops ⟨22⟩ :=
  plainNames_of_all nestedLoops_isTree (by decide +kernel)

theorem nestedLoops_verdict :
    let r := lowerLoops .wechat ⟨22⟩ ⟨nestedLoops, ⟨7⟩, []⟩
    r.1 = 2 ∧ r.2.sites.map (fun site => (site.id, site.itemName)) = [(7, "item"), (8, "tag")] ∧
      verify .wechat r.2.store r.2.sites = .ok () := by
  cbv

/-- `xs.map((_key) => <i>{_key}</i>)`: the item has the name of the key. -/
def keyedLoop : Store where
  nodes := #[.name "xs", .member ⟨0⟩ "map" false, .name "_key", .container ⟨2⟩,
    .element ⟨"i", [], [⟨3⟩], false⟩,
    .lambda ⟨.arrow, false, false, [.plain "_key"], .value ⟨4⟩⟩, .call ⟨1⟩ [⟨5⟩]]

theorem keyedLoop_isTree : keyedLoop.IsTree ⟨6⟩ :=
  Store.isTree_of_filled (by decide) (by decide) (by decide)

theorem keyedLoop_verdict :
    let r := lowerLoops .wechat ⟨6⟩ ⟨keyedLoop, ⟨7⟩, []⟩
    r.1 = 1 ∧ r.2.sites.map (fun site => (site.id, site.itemName)) = [(7, "_key")] ∧
      verify .wechat r.2.store r.2.sites = .error (.loop 7 (.repeatedField "_key")) := by
  cbv

theorem nestedLoops_verified :
    (let r := lowerLoops .wechat ⟨22⟩ ⟨nestedLoops, ⟨7⟩, []⟩
     nestedLoops.IsTree ⟨22⟩ ∧ PlainNames nestedLoops ⟨22⟩ ∧
        r.2.sites.map (fun site => (site.id, site.itemName)) = [(7, "item"), (8, "tag")] ∧
        verify .wechat r.2.store r.2.sites = .ok () ∧
        ∀ site ∈ r.2.sites, ¬ site.Clashes r.2.store) ∧
      let r := lowerLoops .wechat ⟨6⟩ ⟨keyedLoop, ⟨7⟩, []⟩
      keyedLoop.IsTree ⟨6⟩ ∧ PlainNames keyedLoop ⟨6⟩ ∧
        r.2.sites.map (fun site => (site.id, site.itemName)) = [(7, "_key")] ∧
        (∃ site ∈ r.2.sites, site.Clashes r.2.store) ∧
        ∃ fault, verify .wechat r.2.store r.2.sites = .error fault ∧ fault.code = "LIST003" := by
  obtain ⟨hcount, hsites, hok⟩ := nestedLoops_verdict
  obtain ⟨hcount', hsites', herror⟩ := keyedLoop_verdict
  have hplain : PlainNames keyedLoop ⟨6⟩ := plainNames_of_all keyedLoop_isTree (by decide +kernel)
  have hnested := verify_lowerLoops .wechat nestedLoops_isTree (by decide)
    nestedLoops_plainNames ⟨7⟩
    (by rw [hcount]; decide)
  have hkeyed := verify_lowerLoops .wechat keyedLoop_isTree (by decide) hplain ⟨7⟩
    (by rw [hcount']; decide)
  refine ⟨⟨nestedLoops_isTree, nestedLoops_plainNames, hsites, hok, hnested.1.1 hok⟩,
    keyedLoop_isTree, hplain, hsites', ?_, _, herror, hkeyed.2 _ herror⟩
  by_contra hnone
  have hpassed := hkeyed.1.2 fun site hmem hclash => hnone ⟨site, hmem, hclash⟩
  rw [herror] at hpassed
  cases hpassed

end JsxLoops.Loop
