import JsxLoops.Json.Read
import JsxLoops.Json.Write
import Mathlib

/-!
JSON texts. The text of an array or an object is put together from the texts of its items: each is
read as it is alone, whatever follows it, as long as that does not carry a number on. So a value
whose numbers are natural is read back from what is written for it.
-/

namespace JsxLoops.Json

variable {α : Type}

theorem skipGap_cons {c : Char} (h : isGap c = false) (text : List Char) :
    skipGap (c :: text) = c :: text :=
  List.dropWhile_cons_of_neg (by rw [h]; exact Bool.false_ne_true)

theorem skipGap_skipGap (text : List Char) : skipGap (skipGap text) = skipGap text :=
  List.dropWhile_idempotent isGap text

/-! ### Reading in front of other text -/

def inNumber (c : Char) : Bool := c.isDigit || c == '.' || c == 'e' || c == 'E'

def EndsNumber (rest : List Char) : Prop := ∀ c ∈ rest.head?, inNumber c = false

theorem EndsNumber.cons {c : Char} (h : inNumber c = false) (rest : List Char) :
    EndsNumber (c :: rest) := by
  simpa [EndsNumber] using h

/-- The text `m` is read as `a` in front of any text that does not carry a number on. -/
def Reads (r : Reader α) (m : List Char) (a : α) : Prop :=
  ∀ rest, EndsNumber rest → r (m ++ rest) = some (a, rest)

/-! ### Strings -/

/-- The text `m`, with a closing quote at its end, is read as some codes. -/
def CodesOf (m : List Char) (codes : List Nat) : Prop :=
  ∀ rest, readCodes (m ++ rest) = some (codes, rest)

theorem CodesOf.escaped {m : List Char} {codes : List Nat} {code : Nat} {c : Char}
    (hcode : escapedCode? c = some code) (h : CodesOf m codes) :
    CodesOf ('\x5c' :: c :: m) (code :: codes) := fun rest => by
  have hc : c ≠ 'u' := by
    rintro rfl
    cases hcode
  simp [readCodes, hcode, h rest, hc]

theorem CodesOf.escape {m : List Char} {codes : List Nat} (h : CodesOf m codes) (c : Char) :
    CodesOf (escapeChar c ++ m) (c.toNat :: codes) := by
  have hcontrol : ∀ n < 0x20, hexCode? '0' '0' (hexDigit (n / 16)) (hexDigit n) = some n := by
    decide
  unfold escapeChar
  split_ifs with h₁ h₂ h₃ h₄ h₅ h₆ h₇ h₈
  · subst h₁
    exact h.escaped rfl
  · subst h₂
    exact h.escaped rfl
  · exact h₃ ▸ h.escaped rfl
  · exact h₄ ▸ h.escaped rfl
  · exact h₅ ▸ h.escaped rfl
  · exact h₆ ▸ h.escaped rfl
  · exact h₇ ▸ h.escaped rfl
  · intro rest
    simp [readCodes, hcontrol c.toNat h₈, h rest]
  · intro rest
    simp [readCodes, h₂, h₈, h rest]

theorem joinHalves_toNat (text : List Char) : joinHalves (text.map Char.toNat) = some text := by
  have whole (c : Char) : ¬ (0xD800 ≤ c.toNat ∧ c.toNat < 0xE000) := by
    rcases c.valid with h | h
    · exact fun hc => absurd hc.1 (not_le.2 h)
    · exact fun hc => absurd hc.2 (not_lt.2 h.1)
  induction text with
  | nil => rfl
  | cons c text ih =>
    have hc := whole c
    cases text with
    | nil => simp [joinHalves, hc]
    | cons d text =>
      rw [List.map_cons, List.map_cons, joinHalves, if_neg (fun h => hc ⟨h.1, by omega⟩),
        if_neg (fun h => hc ⟨by omega, h.2⟩), ← List.map_cons, ih, Option.map_some,
        Char.ofNat_toNat]

theorem reads_escaped (text : String) :
    Reads readString (text.toList.flatMap escapeChar ++ ['\x22']) (some text) := by
  have codes (cs : List Char) : CodesOf (cs.flatMap escapeChar ++ ['\x22'])
    (cs.map Char.toNat) := by
    induction cs with
    | nil => exact fun rest => rfl
    | cons c cs ih =>
      rw [List.flatMap_cons, List.append_assoc]
      exact ih.escape c
  intro rest _
  rw [readString, codes text.toList rest]
  simp [joinHalves_toNat]

/-! ### Numbers -/

theorem toDigits_eq_cons {n : Nat} (hn : n ≠ 0) : ∃ c m, Nat.toDigits 10 n = c :: m ∧ c ≠ '0' := by
  induction n using Nat.strongRecOn with
  | ind n ih =>
    rw [Nat.toDigits_eq_if (by decide)]
    split
    · rename_i hlt
      have hfirst : ∀ n < 10, n ≠ 0 → Nat.digitChar n ≠ '0' := by decide
      exact ⟨_, [], rfl, hfirst n hlt hn⟩
    · obtain ⟨c, m, he, hc⟩ := ih (n / 10) (by omega) (by omega)
      exact ⟨c, m ++ [_], by rw [he]; rfl, hc⟩

theorem readWhole_toDigits (n : Nat) {rest : List Char} (h : EndsNumber rest) :
    readWhole (Nat.toDigits 10 n ++ rest) = some (Nat.toDigits 10 n, rest) := by
  by_cases hn : n = 0
  · subst hn
    rfl
  · obtain ⟨c, m, he, hc⟩ := toDigits_eq_cons hn
    have hdigits : ∀ d ∈ c :: m, d.isDigit = true := fun d hd =>
      Nat.isDigit_of_mem_toDigits (by decide) (by decide) (he ▸ hd)
    have hstop : rest.takeWhile Char.isDigit = [] ∧ rest.dropWhile Char.isDigit = rest := by
      cases rest with
      | nil => exact ⟨rfl, rfl⟩
      | cons d rest =>
        have hd : d.isDigit = false := by
          have := h d rfl
          simp_all [inNumber]
        simp [hd]
    have hsplit : splitDigits (c :: m ++ rest) = (c :: m, rest) := by
      rw [splitDigits, List.takeWhile_append_of_pos hdigits, List.dropWhile_append_of_pos hdigits,
        hstop.1, hstop.2, List.append_nil]
    rw [List.cons_append] at hsplit
    simp [he, readWhole, hc, hsplit]

theorem reads_natural (n : Nat) :
    ∃ c m, Nat.toDigits 10 n = c :: m ∧ c.isDigit = true ∧ Reads readNumeral (c :: m)
    (.ofNat n) := by
  obtain ⟨c, m, he⟩ := List.exists_cons_of_ne_nil (Nat.toDigits_ne_nil (n := n) (b := 10))
  have hc : c.isDigit = true :=
    Nat.isDigit_of_mem_toDigits (by decide) (by decide) (he ▸ List.mem_cons_self)
  refine ⟨c, m, he, hc, fun rest hrest => ?_⟩
  have hsign : c ≠ '-' := by
    rintro rfl
    cases hc
  have hwhole := readWhole_toDigits n hrest
  have hnone : readFraction rest = some (none, rest) ∧ readExponent rest = some (none, rest) := by
    cases rest with
    | nil => exact ⟨rfl, rfl⟩
    | cons d rest =>
      have hd := hrest d rfl
      simp only [inNumber, Bool.or_eq_false_iff, beq_eq_false_iff_ne] at hd
      simp [readFraction, readExponent, hd]
  rw [he, List.cons_append] at hwhole
  simp [readNumeral, hsign, hwhole, hnone, Numeral.ofNat, he]

/-! ### Items -/

def TextOf (R : Nat → Reader α) (m : List Char) (a : α) : Prop :=
  ∀ depth, m.length ≤ depth → Reads (R depth) m a

/-- The readers pass over a gap, and find nothing in front of a closing bracket. -/
structure Skips (R : Nat → Reader α) : Prop where
  gap : ∀ depth t, R depth (skipGap t) = R depth t
  closing : ∀ depth c t, c = ']' ∨ c = '\x7d' → R depth (c :: t) = none

section

variable {R : Nat → Reader α} {close : Char} {ms : List (List Char)} {as : List α} {depth : Nat}

theorem readListed_texts (hclose : close = ']' ∨ close = '\x7d') (h : List.Forall₂ (TextOf R) ms as)
    (hne : ms ≠ []) (hdepth : ∀ m ∈ ms, m.length ≤ depth) {count : Nat} (hcount : ms.length ≤ count)
    (rest : List Char) :
    readListed (R depth) close count (List.intercalate [','] ms ++ close :: rest) =
      some (as, rest) := by
  induction h generalizing count with
  | nil => exact absurd rfl hne
  | @cons m a ms as hm h ih =>
    obtain ⟨hlength, hdepth⟩ := List.forall_mem_cons.1 hdepth
    obtain ⟨count, rfl⟩ : ∃ k, count = k + 1 := ⟨count - 1, by simp at hcount; omega⟩
    cases h with
    | nil =>
      rw [List.intercalate_singleton, readListed]
      rcases hclose with rfl | rfl
      · simp [hm depth hlength (']' :: rest) (.cons rfl _), skipGap_cons (c := ']') rfl]
      · simp [hm depth hlength ('\x7d' :: rest) (.cons rfl _), skipGap_cons (c := '\x7d') rfl]
    | @cons m' a' ms as hm' h =>
      have htail := ih (List.cons_ne_nil _ _) hdepth (Nat.le_of_succ_le_succ hcount)
      rw [List.intercalate_cons_cons, List.append_assoc, List.append_assoc,
        List.singleton_append, readListed, hm depth hlength _ (.cons rfl _)]
      simp [skipGap_cons (c := ',') rfl, htail]

theorem length_le_of_mem {m : List Char} (h : m ∈ ms) :
    m.length ≤ (List.intercalate [','] ms).length := by
  induction ms with
  | nil => cases h
  | cons m' ms ih =>
    cases ms with
    | nil => rw [List.mem_singleton.1 h, List.intercalate_singleton]
    | cons m'' ms =>
      rw [List.intercalate_cons_cons, List.length_append, List.length_append]
      rcases List.mem_cons.1 h with rfl | h
      · omega
      · have := ih h
        omega

theorem length_le_intercalate (ms : List (List Char)) :
    ms.length ≤ (List.intercalate [','] ms).length + 1 := by
  induction ms with
  | nil => exact Nat.zero_le _
  | cons m ms ih =>
    cases ms with
    | nil => simp
    | cons m' ms =>
      rw [List.intercalate_cons_cons, List.length_append, List.length_append]
      simp only [List.length_cons] at ih ⊢
      omega

theorem readItems_texts (hR : Skips R) (hclose : close = ']' ∨ close = '\x7d')
    (h : List.Forall₂ (TextOf R) ms as) (hdepth : ∀ m ∈ ms, m.length ≤ depth) (rest : List Char) :
    readItems (R depth) close (List.intercalate [','] ms ++ close :: rest) = some (as, rest) := by
  have hgapless : isGap close = false := by rcases hclose with rfl | rfl <;> rfl
  rw [readItems]
  cases h with
  | nil =>
    rw [List.intercalate_nil, List.nil_append, skipGap_cons hgapless]
    exact if_pos rfl
  | @cons m a ms as hm h =>
    let text := List.intercalate [','] (m :: ms) ++ close :: rest
    have hread : readListed (R depth) close text.length text = some (a :: as, rest) := by
      refine readListed_texts hclose (.cons hm h) (List.cons_ne_nil m ms) hdepth ?_ rest
      have := length_le_intercalate (m :: ms)
      simp only [text, List.length_append, List.length_cons] at this ⊢
      omega
    have hskip (count : Nat) (t : List Char) :
        readListed (R depth) close count (skipGap t) = readListed (R depth) close count t := by
      cases count with
      | zero => rfl
      | succ count => rw [readListed, readListed, hR.gap]
    -- what comes first is no closing bracket
    cases htext : skipGap text with
    | nil =>
      have hgap := List.dropWhile_eq_nil_iff.1 htext close (by simp [text])
      exact Bool.noConfusion (hgapless.symm.trans hgap)
    | cons c more =>
      rw [← hskip, htext] at hread
      have hc : c ≠ close := by
        rintro rfl
        rw [List.length_append] at hread
        simp [readListed, hR.closing depth c more hclose] at hread
      simpa [hc, text] using hread

end

/-! ### Values -/

theorem skips_value : Skips readValue where
  gap depth t := by
    cases depth with
    | zero => rfl
    | succ depth => rw [readValue, readValue, skipGap_skipGap]
  closing depth c t hc := by
    cases depth with
    | zero => rfl
    | succ depth => rcases hc with rfl | rfl <;> rfl

def readMemberAt (depth : Nat) : Reader (Option String × Value) := readMember (readValue depth)

theorem skips_member : Skips readMemberAt where
  gap depth t := by rw [readMemberAt, readMember, readMember, skipGap_skipGap]
  closing depth c t hc := by rcases hc with rfl | rfl <;> rfl

theorem textOf_member {m mv : List Char} {key : Option String} {v : Value}
    (hm : Reads readString m key) (hv : TextOf readValue mv v) :
    TextOf readMemberAt ('\x22' :: (m ++ ':' :: mv)) (key, v) := by
  intro depth hdepth rest hrest
  have hkey := hm (':' :: (mv ++ rest)) (.cons rfl _)
  have hvalue : readValue depth (mv ++ rest) = some (v, rest) := by
    refine hv depth ?_ rest hrest
    simp only [List.length_cons, List.length_append] at hdepth
    omega
  simp [readMemberAt, readMember, skipGap_cons (c := '\x22') rfl, hkey, skipGap_cons (c := ':') rfl,
    hvalue]

theorem textOf_bracketed {R : Nat → Reader α} (hR : Skips R) {opening close : Char}
    (hclose : close = ']' ∨ close = '\x7d') {wrap : List α → Value}
    (hopening : ∀ depth t, readValue (depth + 1) (opening :: t) =
      (readItems (R depth) close t).map fun p => (wrap p.1, p.2))
    {ms : List (List Char)} {as : List α} (h : List.Forall₂ (TextOf R) ms as) :
    TextOf readValue (opening :: (List.intercalate [','] ms ++ [close])) (wrap as) := by
  intro depth hdepth rest _
  simp only [List.length_cons, List.length_append, List.length_nil] at hdepth
  obtain ⟨depth, rfl⟩ : ∃ k, depth = k + 1 := ⟨depth - 1, by omega⟩
  have hitems : ∀ m ∈ ms, m.length ≤ depth := fun m hm => by
    have := length_le_of_mem hm
    omega
  rw [List.cons_append, hopening, List.append_assoc, List.singleton_append,
    readItems_texts hR hclose h hitems rest, Option.map_some]

theorem textOf_scalar {m : List Char} {v : Value} (hm : m ≠ [])
    (h : ∀ depth, Reads (readValue (depth + 1)) m v) : TextOf readValue m v := by
  intro depth hdepth
  have hpos := List.length_pos_iff.2 hm
  obtain ⟨depth, rfl⟩ : ∃ k, depth = k + 1 := ⟨depth - 1, by omega⟩
  exact h depth

theorem textOf_natural (n : Nat) : TextOf readValue (Nat.toDigits 10 n) (.number (.ofNat n)) := by
  refine textOf_scalar Nat.toDigits_ne_nil fun depth rest hrest => ?_
  obtain ⟨c, m, he, hc, hreads⟩ := reads_natural n
  have hother (d : Char) (hd : d.isDigit = false) : c ≠ d := by
    rintro rfl
    exact Bool.noConfusion (hd.symm.trans hc)
  have hgap : isGap c = false := by
    simp [isGap, hother ' ' rfl, hother '\n' rfl, hother '\t' rfl, hother '\r' rfl]
  have hnumeral := hreads rest hrest
  rw [he, List.cons_append]
  rw [List.cons_append] at hnumeral
  simp [readValue, skipGap_cons hgap, hnumeral, hother 'n' rfl, hother 't' rfl, hother 'f' rfl,
    hother '\x22' rfl, hother '[' rfl, hother '\x7b' rfl]

/-! ### Writing -/

/-- A value whose numbers are natural and whose strings are texts. -/
inductive Plain : Value → Prop
  | null : Plain .null
  | bool (b : Bool) : Plain (.bool b)
  | natural (n : Nat) : Plain (.number (.ofNat n))
  | text (s : String) : Plain (.ofText s)
  | array {items : List Value} (h : ∀ v ∈ items, Plain v) : Plain (.array items)
  | object {fields : List (String × Value)} (h : ∀ f ∈ fields, Plain f.2) : Plain (.ofFields fields)

def writeMember (f : String × Value) : List Char := writeString f.1 ++ ':' :: f.2.write

theorem write_array (items : List Value) :
    (Value.array items).write =
      '[' :: (List.intercalate [','] (items.map Value.write) ++ [']']) := by
  have more (v : Value) (rest : List Value) : v.write ++ Value.writeItems rest =
      List.intercalate [','] ((v :: rest).map Value.write) ++ [']'] := by
    induction rest generalizing v with
    | nil => simp [Value.writeItems]
    | cons w rest ih =>
      rw [Value.writeItems, ih]
      simp [List.intercalate_cons_cons]
  cases items with
  | nil => simp [Value.write]
  | cons v rest => rw [Value.write, more]

theorem write_object (fields : List (String × Value)) :
    (Value.ofFields fields).write =
      '\x7b' :: (List.intercalate [','] (fields.map writeMember) ++ ['\x7d']) := by
  have more (f : String × Value) (rest : List (String × Value)) :
      writeString f.1 ++ ':' :: (f.2.write ++
          Value.writeMembers (rest.map fun f => (some f.1, f.2))) =
        List.intercalate [','] ((f :: rest).map writeMember) ++ ['\x7d'] := by
    induction rest generalizing f with
    | nil => simp [Value.writeMembers, writeMember]
    | cons g rest ih =>
      rw [List.map_cons, Value.writeMembers, Option.getD_some, ih]
      simp [List.intercalate_cons_cons, writeMember]
  cases fields with
  | nil => simp [Value.ofFields, Value.write]
  | cons f rest =>
    rw [Value.ofFields, List.map_cons, Value.write, Option.getD_some, ← more]

theorem Plain.textOf {v : Value} (h : Plain v) : TextOf readValue v.write v := by
  induction h with
  | null => exact textOf_scalar (List.cons_ne_nil _ _) fun _ _ _ => rfl
  | bool b => cases b <;> exact textOf_scalar (List.cons_ne_nil _ _) fun _ _ _ => rfl
  | natural n =>
    have hwrite : (Value.number (.ofNat n)).write = Nat.toDigits 10 n := by
      simp [Value.write, Numeral.write, Numeral.ofNat]
    exact hwrite ▸ textOf_natural n
  | text s =>
    exact textOf_scalar (List.cons_ne_nil _ _) fun _ rest hrest =>
      congrArg (Option.map _) (reads_escaped s rest hrest)
  | array _ ih =>
    rw [write_array]
    refine textOf_bracketed skips_value (.inl rfl) (fun _ _ => rfl) ?_
    rw [List.forall₂_map_left_iff, List.forall₂_same]
    exact ih
  | object _ ih =>
    rw [write_object]
    refine textOf_bracketed skips_member (.inr rfl) (fun _ _ => rfl) ?_
    rw [List.forall₂_map_left_iff, List.forall₂_map_right_iff, List.forall₂_same]
    exact fun f hf => textOf_member (reads_escaped f.1) (ih f hf)

theorem Plain.parse_write {v : Value} (h : Plain v) : parse v.write = some v := by
  have hread := h.textOf (v.write.length + 1) (Nat.le_succ _) [] (by simp [EndsNumber])
  rw [List.append_nil] at hread
  rw [parse, hread]
  rfl

end JsxLoops.Json
