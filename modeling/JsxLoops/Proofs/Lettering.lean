import JsxLoops.Proofs.Openings

/-!
Lexemes in front of characters. Each kind of lexeme is scanned as its token if the characters that
follow it do not run together with it: a word in front of what goes on with no name, a number in
front of what goes on with no number, and a sign in front of what makes no longer sign of it.
-/

namespace JsxLoops.Surface

open JsxLoops.Text (opensName continuesName)

variable {rest r : List Char} {c : Char}

/-! ### Gaps -/

def isBlankGap (gap : List Char) : Bool := gap.all fun c => c == ' ' || c == '\n'

/-- A character that opens a token other than a comment. -/
def isInk (c : Char) : Bool := !isLineEnd c && !isGap c && c != '/'

def Inked (cs : List Char) : Prop :=
  cs ≠ [] ∧ ∀ newline pos, skipGap .blank newline pos cs = ⟨newline, pos, cs, true⟩

theorem inked_of_isInk (hc : isInk c = true) (r : List Char) : Inked (c :: r) := by
  refine ⟨by simp, fun newline pos => ?_⟩
  simp only [isInk, Bool.and_eq_true, Bool.not_eq_true', bne_iff_ne] at hc
  rw [skipGap.eq_3]
  · simp [hc.1.1, hc.1.2]
  · rintro r' rfl
    simp at hc
  · rintro r' rfl
    simp at hc

theorem inked_slash {d : Char} (hslash : d ≠ '/') (hstar : d ≠ '*') (r : List Char) :
    Inked ('/' :: d :: r) := by
  refine ⟨by simp, fun newline pos => ?_⟩
  rw [skipGap.eq_3 _ _ _ _ (by simp [hslash]) (by simp [hstar])]
  rfl

theorem skipGap_blank {gap cs : List Char} (hgap : isBlankGap gap = true) (hc : Inked cs)
    (newline : Bool) (pos : Nat) :
    skipGap .blank newline pos (gap ++ cs) =
      ⟨newline || gap.any isLineEnd, pos + gap.length, cs, true⟩ := by
  induction gap generalizing newline pos with
  | nil => simp [hc.2]
  | cons d gap ih =>
    have hd : d = ' ' ∨ d = '\n' := by
      simp [isBlankGap] at hgap
      exact hgap.1
    have hmore : isBlankGap gap = true := by
      simp [isBlankGap] at hgap ⊢
      exact hgap.2
    rcases hd with rfl | rfl
    · rw [List.cons_append, skipGap.eq_3 _ _ _ _ (by simp) (by simp)]
      have hline : isLineEnd ' ' = false := by decide
      have hblank : isGap ' ' = true := by decide
      simp [hline, hblank, ih hmore]
      omega
    · rw [List.cons_append, skipGap.eq_3 _ _ _ _ (by simp) (by simp)]
      have hline : isLineEnd '\n' = true := by decide
      simp [hline, ih hmore]
      omega

theorem scan_blank {gap cs : List Char} (hgap : isBlankGap gap = true) (hc : Inked cs)
    (stop : Nat) :
    scan stop (gap ++ cs) = scanAt (gap.any isLineEnd) (stop + gap.length) cs := by
  simp [scan, skipGap_blank hgap hc]

/-! ### Words -/

/-- Characters in front of which words and numbers are over. -/
def edges : List Char :=
  [' ', '\n', '?', '[', '(', ')', ']', '\x7b', '\x7d', ',', ';', ':', '>', '<', '=', '*', '/']

def EndsWord (rest : List Char) : Prop := ∀ c ∈ rest.head?, c ∈ '.' :: edges

theorem EndsWord.not_continues (h : EndsWord rest) :
    ∀ c ∈ rest.head?, continuesName c = false ∧ c ≠ '\x5c' := by
  intro c hc
  have hmem := h c hc
  simp only [edges, List.mem_cons, List.not_mem_nil, or_false] at hmem
  rcases hmem with rfl | rfl | rfl | rfl | rfl | rfl | rfl | rfl | rfl | rfl | rfl | rfl | rfl |
    rfl | rfl | rfl | rfl | rfl <;> exact ⟨rfl, by decide⟩

theorem takeWhile_append_of_all {p : Char → Bool} {xs : List Char} (hxs : xs.all p = true)
    (hrest : ∀ c ∈ rest.head?, p c = false) :
    (xs ++ rest).takeWhile p = xs ∧ (xs ++ rest).dropWhile p = rest := by
  have hnil : rest.takeWhile p = [] ∧ rest.dropWhile p = rest := by
    cases rest with
    | nil => simp
    | cons c rest => simp [hrest c (by simp)]
  rw [List.all_eq_true] at hxs
  rw [List.takeWhile_append_of_pos hxs, List.dropWhile_append_of_pos hxs, hnil.1, hnil.2]
  simp

theorem nameTail_plain {run : List Char} {fuel : Nat} (hrun : run.all continuesName = true)
    (hrest : EndsWord rest) : nameTail (fuel + 1) (run ++ rest) =
    ⟨run, run.length, rest, false, true⟩ := by
  have hno := hrest.not_continues
  obtain ⟨htake, hdrop⟩ := takeWhile_append_of_all hrun fun c hc => (hno c hc).1
  simp only [nameTail, htake, hdrop]
  split
  case h_1 r =>
    exact absurd rfl (hno '\x5c' (by simp)).2
  case h_2 => rfl

theorem isInk_of_opensName (h : opensName c = true) : isInk c = true := by
  rw [← Bool.not_eq_false]
  intro hink
  have hall : ∀ code ∈ [10, 13, 0x2028, 0x2029, 9, 11, 12, 32, 0x85, 0xA0, 0x1680, 0x202F, 0x205F,
      0x3000, 0xFEFF, 47] ++ List.range' 0x2000 12, opensName (Char.ofNat code) = false := by
    decide +kernel
  have hnone : opensName (Char.ofNat c.toNat) = false := by
    refine hall _ ?_
    simp only [isInk, isLineEnd, isGap, Bool.and_eq_false_iff, Bool.not_eq_false', Bool.or_eq_true,
      beq_iff_eq, Bool.and_eq_true, decide_eq_true_eq, bne_eq_false_iff_eq] at hink
    simp only [List.mem_append, List.mem_cons, List.not_mem_nil, List.mem_range'_1]
    rcases hink with (((( rfl | rfl) | h) | h) | h) | rfl
    · decide
    · decide
    · omega
    · omega
    · omega
    · decide
  rw [Char.ofNat_toNat, h] at hnone
  cases hnone

theorem Lexeme.leads_word {gap : List Char} {text : String} (hgap : isBlankGap gap = true)
    (htext : Tree.isWordText text = true) (hrest : EndsWord rest) : (word gap text).Leads rest := by
  intro stop
  have htext' := htext
  rw [Tree.isWordText] at htext'
  split at htext'
  case h_2 => cases htext'
  case h_1 c run hchars =>
    simp only [Bool.and_eq_true] at htext'
    have hof : text = String.ofList (c :: run) := by rw [← hchars, String.ofList_toList]
    have hlength : text.length = run.length + 1 := by
      rw [← String.length_toList, hchars, List.length_cons]
    have hname : nameTail ((run ++ rest).length + 1) (run ++ rest) = _ :=
      nameTail_plain htext'.2 hrest
    have hsplit : (word gap text).chars ++ rest = gap ++ c :: (run ++ rest) := by
      simp [chars, word, hchars]
    change scan stop ((word gap text).chars ++ rest) = _
    rw [hsplit, scan_blank hgap (inked_of_isInk (isInk_of_opensName htext'.1) _)]
    simp only [scanAt, htext'.1, if_true, List.length_cons, hname, List.singleton_append]
    simp [token, word, ← hof, hlength, Nat.add_comm]

/-! ### Literals -/

theorem quotedTail_append {quote : Char} {e : Escape} {n m : Nat} {sound sound' : Bool}
    {xs ys : List Char} (h : quotedTail quote e n sound xs = some (m, ys, sound'))
    (rest : List Char) :
    quotedTail quote e n sound (xs ++ rest) = some (m, ys ++ rest, sound') := by
  fun_induction quotedTail quote e n sound xs with
  | case1 => cases h
  | case2 e n sound c r e' he ih =>
    rw [List.cons_append, quotedTail, he]
    exact ih h
  | case3 e n sound c r he s hq =>
    obtain ⟨rfl, rfl, rfl⟩ := by simpa using h
    rw [List.cons_append, quotedTail, he]
    simp only [hq, if_true]
    rfl
  | case4 => cases h
  | case5 e n sound c r he s hq hline hslash ih =>
    rw [List.cons_append, quotedTail, he]
    simp only [hq, hline, hslash, if_true]
    exact ih h
  | case6 e n sound c r he s hq hline hslash ih =>
    rw [List.cons_append, quotedTail, he]
    simp only [hq, hline, hslash]
    exact ih h

theorem isInk_quote : ∀ c ∈ ['\x22', '\x27'], isInk c = true ∧ opensName c = false ∧ c ≠ '\x5c' ∧
    c ≠ '#' ∧ c.isDigit = false ∧ c ≠ '.' := by
  intro c hc
  simp only [List.mem_cons, List.not_mem_nil, or_false] at hc
  rcases hc with rfl | rfl <;> exact ⟨rfl, rfl, by decide, by decide, rfl, by decide⟩

theorem Lexeme.leads_quoted {gap : List Char} {text : String} (hgap : isBlankGap gap = true)
    (htext : Tree.isQuotedText text = true) (rest : List Char) :
    (Tree.literalLexeme gap text).Leads rest := by
  intro stop
  have htext' := htext
  rw [Tree.isQuotedText] at htext'
  split at htext'
  case h_2 => cases htext'
  case h_1 c run hchars =>
    simp only [Bool.and_eq_true, beq_iff_eq, Bool.or_eq_true] at htext'
    obtain ⟨hc, htail⟩ := htext'
    have hof : text = String.ofList (c :: run) := by rw [← hchars, String.ofList_toList]
    have hlength : text.length = run.length + 1 := by
      rw [← String.length_toList, hchars, List.length_cons]
    obtain ⟨hink, hopens, hslash, hhash, hdigit, hdot⟩ := isInk_quote c (by simpa using hc)
    have hmore := quotedTail_append htail rest
    have hsplit : (Tree.literalLexeme gap text).chars ++ rest = gap ++ c :: (run ++ rest) := by
      simp [chars, Tree.literalLexeme, hchars]
    change scan stop ((Tree.literalLexeme gap text).chars ++ rest) = _
    rw [hsplit, scan_blank hgap (inked_of_isInk hink _)]
    simp [scanAt, hopens, hslash, hhash, hdigit, hdot, hc, hmore, token,
      Tree.literalLexeme, htext, hlength]

theorem edge_facts {c : Char} (h : c ∈ edges) :
    (c.isDigit = false ∧ isHexDigit c = false ∧ opensName c = false) ∧
      (c == '0' || c == '1') = false ∧ ('0' ≤ c && c ≤ '7') = false ∧
      c ∉ ['_', '.', '+', '-', 'e', 'E', 'n', 'b', 'B', 'o', 'O', 'x', 'X'] := by
  simp only [edges, List.mem_cons, List.not_mem_nil, or_false] at h
  rcases h with rfl | rfl | rfl | rfl | rfl | rfl | rfl | rfl | rfl | rfl | rfl | rfl | rfl |
    rfl | rfl | rfl | rfl <;> exact ⟨⟨rfl, rfl, rfl⟩, rfl, rfl, by decide⟩

def EndsNumber (rest : List Char) : Prop := ∀ c ∈ rest.head?, c ∈ edges

/-- The stretch, in front of more characters. -/
def Stretch.before (s : Stretch) (rest : List Char) : Stretch := ⟨s.size, s.rest ++ rest, s.sound⟩

/-- The stretch that `f` reads does not depend on what follows it. -/
def Settled (rest : List Char) (f : List Char → Stretch) : Prop :=
  ∀ xs, f (xs ++ rest) = (f xs).before rest

theorem Settled.followedBy {f : List Char → Stretch} (hf : Settled rest f) {s s' : Stretch}
    (h : s' = s.before rest) : s'.followedBy f = (s.followedBy f).before rest := by
  subst h
  have hrest := hf s.rest
  simp [Stretch.followedBy, Stretch.before, hrest]

/-- Some marks are looked for first. If none of them can follow, then it is enough that what is read
otherwise is settled, and what is read after each of the marks. -/
theorem Settled.of_marks (marks : List Char) {f g : List Char → Stretch} (hg : Settled rest g)
    (hrest : ∀ c ∈ rest.head?, c ∉ marks)
    (hother : ∀ xs : List Char, (∀ c ∈ xs.head?, c ∉ marks) → f xs = g xs)
    (hmarks : ∀ c ∈ marks, ∀ xs, f (c :: (xs ++ rest)) = (f (c :: xs)).before rest) :
    Settled rest f := by
  intro xs
  cases xs with
  | nil =>
    rw [List.nil_append, hother rest hrest, hother [] (by simp)]
    exact hg []
  | cons c xs =>
    by_cases hc : c ∈ marks
    · exact hmarks c hc xs
    · rw [List.cons_append, hother _ (by simpa using hc), hother _ (by simpa using hc)]
      exact hg (c :: xs)

theorem moreDigits_settled {p : Char → Bool} (hp : ∀ c ∈ rest.head?, p c = false ∧ c ≠ '_') :
    Settled rest (moreDigits p) := by
  intro xs
  have hnil : moreDigits p rest = ⟨0, rest, true⟩ := by
    cases rest with
    | nil => rfl
    | cons c rest =>
      obtain ⟨hc, hne⟩ := hp c (by simp)
      rw [moreDigits.eq_4 _ _ _ hne]
      simp [hc]
  fun_induction moreDigits p xs with
  | case1 => simpa [Stretch.before] using hnil
  | case2 =>
    cases rest with
    | nil => rfl
    | cons c rest => simp [moreDigits, Stretch.before, (hp c (by simp)).1]
  | case3 d r' hd s ih =>
    simp only [List.cons_append, moreDigits, hd, if_true, ih]
    rfl
  | case4 d r' hd =>
    simp [moreDigits, hd, Stretch.before]
  | case5 c r hne hc s ih =>
    rw [List.cons_append, moreDigits.eq_4 _ _ _ (by simpa using hne)]
    simp only [hc, if_true, ih]
    rfl
  | case6 c r hne hc =>
    rw [List.cons_append, moreDigits.eq_4 _ _ _ (by simpa using hne)]
    simp [hc, Stretch.before]

theorem someDigits_settled {p : Char → Bool} (hp : ∀ c ∈ rest.head?, p c = false ∧ c ≠ '_') :
    Settled rest (someDigits p) := by
  intro xs
  cases xs with
  | nil =>
    cases rest with
    | nil => rfl
    | cons c rest => simp [someDigits, Stretch.before, (hp c (by simp)).1]
  | cons c xs =>
    simp only [List.cons_append, someDigits]
    split
    · exact (moreDigits_settled hp).followedBy rfl
    · rfl

section

variable (hrest : EndsNumber rest)
include hrest

theorem EndsNumber.digits : ∀ c ∈ rest.head?, c.isDigit = false ∧ c ≠ '_' := by
  intro c hc
  have := edge_facts (hrest c hc)
  simp at this
  tauto

theorem EndsNumber.unmarked (marks : List Char)
    (h : ∀ c ∈ marks, c ∈ ['_', '.', '+', '-', 'e', 'E', 'n', 'b', 'B', 'o', 'O', 'x', 'X']) :
    ∀ c ∈ rest.head?, c ∉ marks :=
  fun c hc hm => (edge_facts (hrest c hc)).2.2.2 (h c hm)

theorem fractionDigits_settled : Settled rest fractionDigits := by
  intro xs
  cases xs with
  | nil =>
    cases rest with
    | nil => rfl
    | cons c rest => simp [fractionDigits, Stretch.before, (hrest.digits c (by simp)).1]
  | cons c xs =>
    simp only [List.cons_append, fractionDigits]
    split
    · exact (moreDigits_settled hrest.digits).followedBy rfl
    · rfl

theorem exponentDigits_settled : Settled rest exponentDigits := by
  have hdigits := someDigits_settled hrest.digits
  refine .of_marks ['+', '-'] hdigits (hrest.unmarked _ (by simp)) (fun xs hxs => ?_) ?_
  · exact exponentDigits.eq_3 xs (by rintro r rfl; simp at hxs) (by rintro r rfl; simp at hxs)
  · simp only [List.forall_mem_cons]
    exact ⟨fun _ => hdigits.followedBy rfl, fun _ => hdigits.followedBy rfl, by simp⟩

theorem optionalExponent_settled : Settled rest optionalExponent := by
  have hdigits := exponentDigits_settled hrest
  refine .of_marks ['e', 'E'] (g := (⟨0, ·, true⟩)) (fun _ => rfl) (hrest.unmarked _ (by simp))
    (fun xs hxs => ?_) ?_
  · exact optionalExponent.eq_3 xs (by rintro r rfl; simp at hxs) (by rintro r rfl; simp at hxs)
  · simp only [List.forall_mem_cons]
    exact ⟨fun _ => hdigits.followedBy rfl, fun _ => hdigits.followedBy rfl, by simp⟩

theorem numberEnd_settled : Settled rest numberEnd := by
  intro xs
  cases xs with
  | nil =>
    cases rest with
    | nil => rfl
    | cons c rest =>
      have hc := (edge_facts (hrest c (by simp))).1
      simp [numberEnd, Stretch.before, hc.1, hc.2.2]
  | cons c xs =>
    simp only [List.cons_append, numberEnd]
    split <;> rfl

theorem optionalBig_settled : Settled rest optionalBig := by
  refine .of_marks ['n'] (g := (⟨0, ·, true⟩)) (fun _ => rfl) (hrest.unmarked _ (by simp))
    (fun xs hxs => ?_) ?_
  · exact optionalBig.eq_2 xs (by rintro r rfl; simp at hxs)
  · exact List.forall_mem_singleton.2 fun _ => rfl

theorem decimalEnd_settled : Settled rest decimalEnd := by
  have hexponent := optionalExponent_settled hrest
  refine .of_marks ['.', 'n'] hexponent (hrest.unmarked _ (by simp)) (fun xs hxs => ?_) ?_
  · exact decimalEnd.eq_3 xs (by rintro r rfl; simp at hxs) (by rintro r rfl; simp at hxs)
  · simp only [List.forall_mem_cons]
    exact ⟨fun _ => hexponent.followedBy ((fractionDigits_settled hrest).followedBy rfl),
      fun _ => rfl, by simp⟩

theorem span_digits (xs : List Char) :
    (xs ++ rest).takeWhile Char.isDigit = xs.takeWhile Char.isDigit ∧
      (xs ++ rest).dropWhile Char.isDigit = xs.dropWhile Char.isDigit ++ rest := by
  induction xs with
  | nil =>
    cases rest with
    | nil => simp
    | cons c rest => simp [(hrest.digits c (by simp)).1]
  | cons c xs ih =>
    by_cases hc : c.isDigit = true
    · simp [hc, ih]
    · simp [hc]

theorem afterZero_settled : Settled rest afterZero := by
  have hbinary : ∀ c ∈ rest.head?, (c == '0' || c == '1') = false ∧ c ≠ '_' := fun c hc =>
    ⟨(edge_facts (hrest c hc)).2.1, (hrest.digits c hc).2⟩
  have hoctal : ∀ c ∈ rest.head?, ('0' ≤ c && c ≤ '7') = false ∧ c ≠ '_' := fun c hc =>
    ⟨(edge_facts (hrest c hc)).2.2.1, (hrest.digits c hc).2⟩
  have hhex : ∀ c ∈ rest.head?, isHexDigit c = false ∧ c ≠ '_' := fun c hc =>
    ⟨(edge_facts (hrest c hc)).1.2.1, (hrest.digits c hc).2⟩
  intro xs
  cases xs with
  | nil =>
    have hdecimal := decimalEnd_settled hrest []
    rw [List.nil_append] at hdecimal ⊢
    cases rest with
    | nil => rfl
    | cons c rest =>
      have hne := (edge_facts (hrest c (by simp))).2.2.2
      have hdigit := (hrest.digits c (by simp)).1
      simp only [List.mem_cons, List.not_mem_nil, or_false, not_or] at hne
      simp only [afterZero, beq_iff_eq, hne, hdigit, Bool.or_eq_true, or_self, if_false]
      rw [hdecimal]
      rfl
  | cons c xs =>
    simp only [List.cons_append, afterZero]
    split
    · exact (optionalBig_settled hrest).followedBy ((someDigits_settled hbinary).followedBy rfl)
    split
    · exact (optionalBig_settled hrest).followedBy ((someDigits_settled hoctal).followedBy rfl)
    split
    · exact (optionalBig_settled hrest).followedBy ((someDigits_settled hhex).followedBy rfl)
    split
    · obtain ⟨htake, hdrop⟩ := span_digits hrest xs
      rw [htake, hdrop]
      split
      · -- the digits after a leading zero may be followed by a fraction or an exponent
        cases hmore : xs.dropWhile Char.isDigit with
        | nil =>
          cases rest with
          | nil => rfl
          | cons d rest =>
            have hne := (edge_facts (hrest d (by simp))).2.2.2
            simp only [List.mem_cons, List.not_mem_nil, or_false, not_or] at hne
            simp only [List.nil_append]
            split
            · rename_i heq
              exact absurd (List.cons.inj heq).1 hne.2.1
            · rename_i heq
              exact absurd (List.cons.inj heq).1 hne.2.2.2.2.1
            · rfl
        | cons d ds =>
          by_cases hdot : d = '.'
          · subst hdot
            exact (decimalEnd_settled hrest).followedBy rfl
          by_cases hexp : d = 'e'
          · subst hexp
            exact (decimalEnd_settled hrest).followedBy rfl
          simp only [List.cons_append]
          split
          · rename_i heq
            exact absurd (List.cons.inj heq).1 hdot
          · rename_i heq
            exact absurd (List.cons.inj heq).1 hexp
          split
          · rename_i heq
            exact absurd (List.cons.inj heq).1 hdot
          · rename_i heq
            exact absurd (List.cons.inj heq).1 hexp
          rfl
      · rfl
    · exact decimalEnd_settled hrest (c :: xs)

theorem numberTail_settled (first : Char) : Settled rest (numberTail first) := by
  intro xs
  refine (numberEnd_settled hrest).followedBy ?_
  split
  · exact (optionalExponent_settled hrest).followedBy (someDigits_settled hrest.digits xs)
  split
  · exact afterZero_settled hrest xs
  · exact (decimalEnd_settled hrest).followedBy (moreDigits_settled hrest.digits xs)

end

theorem facts_of_number {c : Char} (h : c.isDigit = true ∨ c = '.') :
    isInk c = true ∧ opensName c = false ∧ c ≠ '\x5c' ∧ c ≠ '#' ∧ c ≠ '\x22' ∧ c ≠ '\x27' := by
  rcases h with h | rfl
  · have hcode : c.toNat ∈ List.range' 48 10 := by
      simp only [Char.isDigit, Bool.and_eq_true, decide_eq_true_eq, ge_iff_le,
        UInt32.le_iff_toNat_le] at h
      rw [List.mem_range'_1]
      change 48 ≤ c.toNat ∧ c.toNat ≤ 57 at h
      omega
    have hall : ∀ code ∈ List.range' 48 10, isInk (Char.ofNat code) = true ∧
        opensName (Char.ofNat code) = false ∧ Char.ofNat code ≠ '\x5c' ∧ Char.ofNat code ≠ '#' ∧
        Char.ofNat code ≠ '\x22' ∧ Char.ofNat code ≠ '\x27' := by decide +kernel
    have hfacts := hall _ hcode
    rwa [Char.ofNat_toNat] at hfacts
  · exact ⟨rfl, rfl, by decide, by decide, by decide, by decide⟩

theorem Lexeme.leads_number {gap : List Char} {text : String} (hgap : isBlankGap gap = true)
    (htext : Tree.isNumberText text = true) (hrest : EndsNumber rest) :
    (Tree.literalLexeme gap text).Leads rest := by
  intro stop
  have htext' := htext
  rw [Tree.isNumberText] at htext'
  split at htext'
  case h_2 => cases htext'
  case h_1 c run hchars =>
    simp only [Bool.and_eq_true, beq_iff_eq, Bool.or_eq_true, List.isEmpty_iff] at htext'
    obtain ⟨⟨⟨hc, hnone⟩, hsize⟩, hsound⟩ := htext'
    have hlength : text.length = run.length + 1 := by
      rw [← String.length_toList, hchars, List.length_cons]
    obtain ⟨hink, hopens, hslash, hhash, hdouble, hsingle⟩ :=
      facts_of_number (c := c) (hc.imp_right And.left)
    have hquoted : Tree.isQuotedText text = false := by
      simp [Tree.isQuotedText, hchars, hdouble, hsingle]
    have hdigit : (c.isDigit || c == '.' && (run ++ rest).head?.any Char.isDigit) = true := by
      rcases hc with hc | ⟨rfl, hc⟩
      · simp [hc]
      · cases run with
        | nil => simp at hc
        | cons d run => simpa using hc
    have htail := numberTail_settled hrest c run
    have htake : (c :: (run ++ rest)).take (run.length + 1) = text.toList := by
      rw [hchars, List.take_succ_cons, List.take_left]
    have hsplit : (Tree.literalLexeme gap text).chars ++ rest = gap ++ c :: (run ++ rest) := by
      simp [chars, Tree.literalLexeme, hchars]
    change scan stop ((Tree.literalLexeme gap text).chars ++ rest) = _
    rw [hsplit, scan_blank hgap (inked_of_isInk hink _)]
    simp only [scanAt, hopens, Bool.false_eq_true, if_false, beq_iff_eq, hslash, hhash, hdigit,
      if_true, htail, Stretch.before, hnone, hsize, hsound, htake]
    simp [token, Tree.literalLexeme, hquoted, htext, hlength]

/-! ### Signs -/

def opensSign (c : Char) : Bool :=
  !opensName c && !c.isDigit && !(['\x5c', '#', '.', '\x22', '\x27', '\x60'].contains c)

theorem Lexeme.leads_inked {gap : List Char} {text : String} {tail : List Char} {c : Char}
    {more : List Char} (hgap : isBlankGap gap = true) (htext : text.toList = c :: more)
    (hink : Inked (c :: (more ++ (tail ++ rest)))) (hc : opensSign c = true)
    (hat : signAt (c :: (more ++ (tail ++ rest))) = some (c :: more)) :
    (⟨.code, gap, .sign, text, tail⟩ : Lexeme).Leads rest := by
  intro stop
  simp only [opensSign, Bool.and_eq_true, Bool.not_eq_true', List.contains_eq_mem, List.mem_cons,
    List.not_mem_nil, or_false, decide_eq_false_iff_not, not_or] at hc
  obtain ⟨⟨hopens, hdigit⟩, hslash, hhash, hdot, hdouble, hsingle, hback⟩ := hc
  have hlength : text.length = more.length + 1 := by
    rw [← String.length_toList, htext, List.length_cons]
  have hof : String.ofList (c :: more) = text := by rw [← htext, String.ofList_toList]
  have hsplit : (⟨.code, gap, .sign, text, tail⟩ : Lexeme).chars ++ rest =
      gap ++ c :: (more ++ (tail ++ rest)) := by
    simp [chars, htext]
  change scan stop ((⟨.code, gap, .sign, text, tail⟩ : Lexeme).chars ++ rest) = _
  rw [hsplit, scan_blank hgap hink]
  simp [scanAt, hopens, hdigit, hslash, hhash, hdot, hdouble, hsingle, hback, hat, hof,
    token, hlength]

theorem Lexeme.leads_sign {gap : List Char} {text : String} {tail : List Char} {c : Char}
    {more : List Char} (hgap : isBlankGap gap = true) (htext : text.toList = c :: more)
    (hc : isInk c = true ∧ opensSign c = true)
    (hat : signAt (c :: (more ++ (tail ++ rest))) = some (c :: more)) :
    (⟨.code, gap, .sign, text, tail⟩ : Lexeme).Leads rest :=
  leads_inked hgap htext (inked_of_isInk hc.1 _) hc.2 hat

theorem Lexeme.leads_slash {gap : List Char} (hgap : isBlankGap gap = true) {d : Char}
    (hd : d ∉ ['/', '*', '=']) (r : List Char) : (sign gap "/").Leads (d :: r) := by
  simp only [List.mem_cons, List.not_mem_nil, or_false, not_or] at hd
  have htext : "/".toList = ['/'] := rfl
  have heq : ('=' == d) = false := by simpa using Ne.symm hd.2.2
  refine leads_inked hgap htext (inked_slash hd.1 hd.2.1 r) rfl ?_
  simp [signAt, signs, List.isPrefixOf, heq]

end JsxLoops.Surface
