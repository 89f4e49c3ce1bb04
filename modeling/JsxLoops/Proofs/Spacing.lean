import JsxLoops.Proofs.Lettering

/-!
What is written can be scanned. The lexemes of a legible tree are linked: the printer puts enough
between two of them that none runs together with the next. In front of what the tree may stand is
told by its kind: statements end in a sign of their own, and only a member may follow a name by its
dot.
-/

namespace JsxLoops.Surface

variable {rest : List Char} {gap : List Char} {s : String}

theorem EndsNumber.endsWord (h : EndsNumber rest) : EndsWord rest := fun c hc =>
  List.mem_cons_of_mem _ (h c hc)

theorem endsNumber_cons {x : Lexeme} (hgap : isBlankGap x.gap = true)
    (h : x.gap ≠ [] ∨ x.spelling.toList.head?.any edges.contains = true) (xs : List Lexeme) :
    EndsNumber (charsOf (x :: xs)) := by
  intro c hc
  obtain ⟨place, gap, kind, spelling, tail⟩ := x
  cases gap with
  | nil =>
    have hfirst := h.resolve_left (fun h => h rfl)
    simp only [charsOf_cons, Lexeme.chars, List.nil_append] at hc hfirst
    cases hspelling : spelling.toList with
    | nil => simp [hspelling] at hfirst
    | cons d more =>
      simp [hspelling] at hfirst hc
      exact hc ▸ hfirst
  | cons d gap =>
    simp only [charsOf_cons, Lexeme.chars, List.cons_append, List.head?_cons, Option.mem_def,
      Option.some.injEq] at hc
    subst hc
    simp [isBlankGap] at hgap
    rcases hgap.1 with rfl | rfl <;> simp [edges]

/-- Signs that are scanned as they are, whatever follows, and in front of which words are over. -/
def delimiters : List String := ["(", ")", "[", "]", "\x7b", "\x7d", ",", ";", ":", "=>"]

theorem Lexeme.leads_delimiter (hgap : isBlankGap gap = true) (hs : s ∈ delimiters)
    (rest : List Char) : (sign gap s).Leads rest := by
  simp only [delimiters, List.mem_cons, List.not_mem_nil, or_false] at hs
  rcases hs with rfl | rfl | rfl | rfl | rfl | rfl | rfl | rfl | rfl | rfl <;>
    exact leads_sign hgap rfl ⟨rfl, rfl⟩ rfl

theorem endsNumber_delimiter (hgap : isBlankGap gap = true) (hs : s ∈ delimiters)
    (xs : List Lexeme) : EndsNumber (charsOf (.sign gap s :: xs)) := by
  refine endsNumber_cons hgap (.inr ?_) xs
  simp only [delimiters, List.mem_cons, List.not_mem_nil, or_false] at hs
  rcases hs with rfl | rfl | rfl | rfl | rfl | rfl | rfl | rfl | rfl | rfl <;>
    simp [Lexeme.sign, edges]

theorem Lexeme.leads_dots (hgap : isBlankGap gap = true) (rest : List Char) :
    (sign gap "...").Leads rest := by
  intro stop
  change scan stop ((sign gap "...").chars ++ rest) = _
  have hsplit : (sign gap "...").chars ++ rest = gap ++ '.' :: '.' :: '.' :: rest := by
    simp [chars, sign]
  rw [hsplit, scan_blank hgap (inked_of_isInk rfl _)]
  rfl

open JsxLoops.Text in
theorem Lexeme.leads_dot {c : Char} {r : List Char} (hc : opensName c = true) :
    (sign [] ".").Leads (c :: r) := by
  intro stop
  have hne : ('.' == c) = false := by
    rw [beq_eq_false_iff_ne]
    rintro rfl
    cases hc
  have hdigit : c.isDigit = false := by
    rw [← Bool.not_eq_true]
    intro hdigit
    rw [(facts_of_number (.inl hdigit)).2.1] at hc
    cases hc
  have hat : signAt ('.' :: c :: r) = some ['.'] := by
    simp [signAt, signs, List.isPrefixOf, hne]
  change scan stop ([] ++ '.' :: c :: r) = _
  rw [scan_blank rfl (inked_of_isInk rfl _)]
  have hopens : opensName '.' = false := rfl
  have hpoint : Char.isDigit '.' = false := rfl
  simp [scanAt, hopens, hpoint, hdigit, hat, token, sign]
  rfl

open JsxLoops.Text in
theorem Lexeme.leads_optional {c : Char} {r : List Char} (hc : opensName c = true) :
    (sign [] "?.").Leads (c :: r) := by
  have hdigit : c.isDigit = false := by
    rw [← Bool.not_eq_true]
    intro hdigit
    rw [(facts_of_number (.inl hdigit)).2.1] at hc
    cases hc
  have htext : "?.".toList = ['?', '.'] := rfl
  refine leads_sign rfl htext ⟨rfl, rfl⟩ ?_
  simp only [List.cons_append, List.nil_append, signAt, hdigit]
  rfl

end JsxLoops.Surface

namespace JsxLoops.Tree

open Located JsxLoops.Surface JsxLoops.Text

theorem Style.isBlankGap_gap (style : Style) (level : Nat) : isBlankGap (style.gap level) =
    true := by
  cases style with
  | concise => rfl
  | pretty =>
    simp only [Style.gap, isBlankGap, List.all_cons, Bool.and_eq_true, List.all_eq_true]
    refine ⟨rfl, fun c hc => ?_⟩
    rw [(List.mem_replicate.1 hc).2]
    rfl

theorem isWordText_of_isNameText {text : String} (h : isNameText text = true) :
    isWordText text = true := by
  simp only [isNameText, Bool.and_eq_true] at h
  exact h.1.1

theorem toList_of_isWordText {text : String} (h : isWordText text = true) :
    ∃ c r, text.toList = c :: r ∧ opensName c = true := by
  rw [isWordText] at h
  split at h
  case h_1 c r hchars =>
    simp only [Bool.and_eq_true] at h
    exact ⟨c, r, hchars, h.1⟩
  case h_2 => cases h

/-! ### Lists -/

def LinksIn (w : Writing) : Prop :=
  ∀ ⦃gap : List Char⦄ ⦃level : Nat⦄ ⦃rest : List Lexeme⦄, isBlankGap gap = true → Linked rest →
    EndsNumber (charsOf rest) → Linked (w gap level ++ rest)

section

variable {ws : List Writing} {level : Nat} {first others g : List Char} {closing : String}
  {rest : List Lexeme}

theorem linked_flatMap (level : Nat) (h : ∀ w ∈ ws, LinksIn w) (hothers : isBlankGap others = true)
    (hg : isBlankGap g = true) (hclosing : closing ∈ delimiters) (hrest : Linked rest) :
    Linked (ws.flatMap (fun w => .sign [] "," :: w others level) ++ .sign g closing :: rest) ∧
      EndsNumber (charsOf
        (ws.flatMap (fun w => .sign [] "," :: w others level) ++ .sign g closing :: rest)) := by
  induction ws with
  | nil => exact ⟨⟨Lexeme.leads_delimiter hg hclosing _, hrest⟩, endsNumber_delimiter hg hclosing _⟩
  | cons w ws ih =>
    obtain ⟨hlinked, hends⟩ := ih fun v hv => h v (List.mem_cons_of_mem w hv)
    rw [List.flatMap_cons, List.cons_append, List.cons_append, List.append_assoc]
    exact ⟨⟨Lexeme.leads_delimiter rfl (by decide) _,
      h w List.mem_cons_self hothers hlinked hends⟩, endsNumber_delimiter rfl (by decide) _⟩

theorem linked_listed (h : ∀ w ∈ ws, LinksIn w) (hfirst : isBlankGap first = true)
    (hothers : isBlankGap others = true) (hg : isBlankGap g = true)
    (hclosing : closing ∈ delimiters)
    (hrest : Linked rest) :
    Linked (writeListed first others ws level ++ .sign g closing :: rest) := by
  cases ws with
  | nil => exact ⟨Lexeme.leads_delimiter hg hclosing _, hrest⟩
  | cons w ws =>
    have hmore := linked_flatMap level (fun v hv => h v (List.mem_cons_of_mem w hv))
      hothers hg hclosing hrest
    rw [writeListed, List.append_assoc]
    exact h w List.mem_cons_self hfirst hmore.1 hmore.2

theorem linked_between {gap : List Char} {opening : String} (h : ∀ w ∈ ws, LinksIn w)
    (hgap : isBlankGap gap = true) (hopening : opening ∈ delimiters)
    (hclosing : closing ∈ delimiters)
    (hrest : Linked rest) : Linked (writeBetween gap opening closing ws level ++ rest) := by
  simp only [writeBetween, List.cons_append, List.append_assoc, List.nil_append]
  exact ⟨Lexeme.leads_delimiter hgap hopening _, linked_listed h rfl rfl rfl hclosing hrest⟩

end

/-! ### Openings -/

theorem Located.Opening.chars_lexeme {o : Opening} (h : o.isFair = true) :
    ∃ c r, (o.lexeme []).chars = c :: r ∧ c ≠ '=' ∧ (c = '+' → o = .sign "+") ∧
      (c = '-' → o = .sign "-") := by
  have hne {c d : Char} (hc : opensName c = true) (hd : opensName d = false) : c ≠ d := by
    rintro rfl
    rw [hc] at hd
    cases hd
  cases o with
  | name text =>
    obtain ⟨c, r, hchars, hc⟩ := toList_of_isWordText (isWordText_of_isNameText h)
    refine ⟨c, r, by simp [Opening.lexeme, Lexeme.word, Lexeme.chars, hchars], hne hc rfl,
      fun he => absurd he (hne hc rfl), fun he => absurd he (hne hc rfl)⟩
  | keyword text =>
    have hkeyword : ∀ k ∈ ["this", "null", "true", "false", "typeof", "void", "delete"],
        isWordText k = true := by decide
    obtain ⟨c, r, hchars, hc⟩ := toList_of_isWordText (hkeyword text (by simpa [isFair] using h))
    refine ⟨c, r, by simp [Opening.lexeme, Lexeme.word, Lexeme.chars, hchars], hne hc rfl,
      fun he => absurd he (hne hc rfl), fun he => absurd he (hne hc rfl)⟩
  | literal text =>
    have hchars : ∃ c r, text.toList = c :: r ∧ c ≠ '=' ∧ c ≠ '+' ∧ c ≠ '-' := by
      simp only [isFair, Bool.or_eq_true] at h
      rcases h with h | h
      · rw [isQuotedText] at h
        split at h
        case h_1 c r hchars =>
          simp only [Bool.and_eq_true, Bool.or_eq_true, beq_iff_eq] at h
          rcases h.1 with rfl | rfl <;> exact ⟨_, r, hchars, by decide, by decide, by decide⟩
        case h_2 => cases h
      · rw [isNumberText] at h
        split at h
        case h_1 c r hchars =>
          simp only [Bool.and_eq_true, Bool.or_eq_true, beq_iff_eq] at h
          refine ⟨c, r, hchars, ?_⟩
          rcases h.1.1.1 with hc | ⟨rfl, -⟩
          · refine ⟨?_, ?_, ?_⟩ <;> rintro rfl <;> cases hc
          · exact ⟨by decide, by decide, by decide⟩
        case h_2 => cases h
    obtain ⟨c, r, hchars, heq, hplus, hminus⟩ := hchars
    exact ⟨c, r, by simp [Opening.lexeme, literalLexeme, Lexeme.chars, hchars], heq,
      fun he => absurd he hplus, fun he => absurd he hminus⟩
  | sign text =>
    simp only [isFair, List.contains_eq_mem, List.mem_cons, List.not_mem_nil, or_false,
      decide_eq_true_eq] at h
    rcases h with rfl | rfl | rfl | rfl | rfl | rfl | rfl
    · exact ⟨'(', [], rfl, by decide, by decide, by decide⟩
    · exact ⟨'[', [], rfl, by decide, by decide, by decide⟩
    · exact ⟨'\x7b', [], rfl, by decide, by decide, by decide⟩
    · exact ⟨'+', [], rfl, by decide, fun _ => rfl, by decide⟩
    · exact ⟨'-', [], rfl, by decide, by decide, fun _ => rfl⟩
    · exact ⟨'~', [], rfl, by decide, by decide, by decide⟩
    · exact ⟨'!', [], rfl, by decide, by decide, by decide⟩

/-- An operand that starts with a sign of a number is one with that sign in front of it. -/
theorem Located.unary_of_opening {t : Located} {op : String} (hl : t.isLegible = true)
    (hv : 14 ≤ t.strength) (hop : op = "+" ∨ op = "-") (h : t.opening = .sign op) :
    ∃ a, t.here = .unary op a := by
  have htight := (opening_fair hl (.inl (by omega))).2
  have hchain : t.isChain = false := by
    rw [← Bool.not_eq_true]
    intro hchain
    have := htight hchain
    rw [h] at this
    rcases hop with rfl | rfl <;> cases this
  obtain ⟨l, n⟩ := t
  rw [opening_node] at h
  cases n with
  | unary op' a =>
    simp only [Node.map, Opening.ofNode] at h
    split at h
    · cases h
    · exact ⟨a, by rw [Opening.sign.inj h]; rfl⟩
  | binary op' _ _ | logical op' _ _ =>
    have := operatorLevel_le op'
    simp [strength] at hv
    omega
  | call _ _ => simp [isChain] at hchain
  | member _ _ optional =>
    cases optional
    · simp [isChain, strength] at hchain
    · simp [isChain, isOptional] at hchain
  | verbatim code =>
    by_cases hcode : (code == thisCode) = true
    · simp [isChain, strength, hcode] at hchain
    · simp [strength, hcode] at hv
  | name _ | literal _ | index _ _ | object _ | array _ | paren _ =>
    simp [isChain, strength] at hchain
  | _ => simp [strength] at hv

theorem leads_unary {gap : List Char} {op : String} {o : Opening} {rest : List Char}
    (hgap : isBlankGap gap = true) (hop : op ∈ ["+", "-", "~", "!"]) (ho : o.isFair = true)
    (hne : op = "+" ∨ op = "-" → o ≠ .sign op) :
    (Lexeme.sign gap op).Leads ((o.lexeme []).chars ++ rest) := by
  obtain ⟨c, r, hchars, heq, hplus, hminus⟩ := Opening.chars_lexeme ho
  rw [hchars, List.cons_append]
  have h1 : ('=' == c) = false := by simpa using heq.symm
  simp only [List.mem_cons, List.not_mem_nil, or_false] at hop
  rcases hop with rfl | rfl | rfl | rfl
  · have h2 : ('+' == c) = false := by
      rw [beq_eq_false_iff_ne]
      exact fun he => hne (.inl rfl) (hplus he.symm)
    have htext : "+".toList = ['+'] := rfl
    refine Lexeme.leads_sign hgap htext ⟨rfl, rfl⟩ ?_
    simp [signAt, signs, List.isPrefixOf, h1, h2]
  · have h2 : ('-' == c) = false := by
      rw [beq_eq_false_iff_ne]
      exact fun he => hne (.inr rfl) (hminus he.symm)
    have htext : "-".toList = ['-'] := rfl
    refine Lexeme.leads_sign hgap htext ⟨rfl, rfl⟩ ?_
    simp [signAt, signs, List.isPrefixOf, h1, h2]
  · exact Lexeme.leads_sign hgap rfl ⟨rfl, rfl⟩ rfl
  · have htext : "!".toList = ['!'] := rfl
    refine Lexeme.leads_sign hgap htext ⟨rfl, rfl⟩ ?_
    simp [signAt, signs, List.isPrefixOf, h1]

theorem leads_operator {op : String} (hop : op ∈ logicalOperators ++ binaryOperators)
    (r : List Char) : (operatorLexeme op).Leads (' ' :: r) := by
  have hword {text : String} (h : isWordText text = true) :
    (Lexeme.word [' '] text).Leads (' ' :: r) :=
    Lexeme.leads_word rfl h fun c hc => by
      obtain rfl : ' ' = c := by simpa using hc
      decide
  simp only [logicalOperators, binaryOperators, List.cons_append, List.nil_append, List.mem_cons,
    List.not_mem_nil, or_false] at hop
  rcases hop with rfl | rfl | rfl | rfl | rfl | rfl | rfl | rfl | rfl | rfl | rfl | rfl | rfl | rfl |
    rfl | rfl | rfl | rfl | rfl | rfl | rfl | rfl | rfl
  case inr.inr.inr.inr.inr.inr.inr.inr.inr.inr.inr.inr.inr.inl => exact hword (by decide)
  case inr.inr.inr.inr.inr.inr.inr.inr.inr.inr.inr.inr.inr.inr.inl => exact hword (by decide)
  case inr.inr.inr.inr.inr.inr.inr.inr.inr.inr.inr.inr.inr.inr.inr.inr.inr.inr.inr.inr.inl =>
    exact Lexeme.leads_slash rfl (by decide) r
  all_goals exact Lexeme.leads_sign (show isBlankGap [' '] = true from rfl) rfl ⟨rfl, rfl⟩ rfl

/-! ### Trees -/

/-- The tree may stand in front of the characters. -/
def Located.Fits (t : Located) (rest : List Char) : Prop :=
  ∀ c ∈ rest.head?, c ∈ edges ∨ (c = '.' ∧ t.strength = 15 ∧ t.isNumber = false)

def Links (style : Style) (t : Located) : Prop :=
  ∀ ⦃gap : List Char⦄ ⦃level : Nat⦄ ⦃rest : List Lexeme⦄, isBlankGap gap = true → Linked rest →
    t.Fits (charsOf rest) → Linked (t.written style gap level ++ rest)

section

variable {style : Style} {l : Loc} {t : Located} {rest : List Char}

theorem Located.Fits.of_edge (h : EndsNumber rest) : t.Fits rest := fun c hc => .inl (h c hc)

theorem Located.Fits.endsWord (h : t.Fits rest) : EndsWord rest := by
  intro c hc
  rcases h c hc with h | ⟨rfl, -⟩
  · exact List.mem_cons_of_mem _ h
  · exact List.mem_cons_self

theorem Located.Fits.endsNumber (h : t.Fits rest) (ht : t.strength ≠ 15) : EndsNumber rest :=
  fun c hc => (h c hc).resolve_right fun hdot => ht hdot.2.1

theorem Links.linksIn (h : Links style t) : LinksIn (t.written style) :=
    fun _ _ _ hgap hrest hends =>
  h hgap hrest (.of_edge hends)

theorem linksIn_map {ts : List Located} (h : ∀ t ∈ ts, Links style t) :
    ∀ w ∈ ts.map (written style), LinksIn w := by
  intro w hw
  obtain ⟨t, ht, rfl⟩ := List.mem_map.1 hw
  exact (h t ht).linksIn

theorem links_name {text : String} (h : isNameText text = true) :
    Links style (node l (.name text)) := by
  intro gap level rest hgap hrest hfits
  rw [written_node]
  exact ⟨Lexeme.leads_word hgap (isWordText_of_isNameText h) hfits.endsWord, hrest⟩

theorem links_literal {text : String} (h : isLiteralText text = true) :
    Links style (node l (.literal text)) := by
  intro gap level rest hgap hrest hfits
  rw [written_node]
  refine ⟨?_, hrest⟩
  by_cases hquoted : isQuotedText text = true
  · exact Lexeme.leads_quoted hgap hquoted _
  by_cases hnumber : isNumberText text = true
  · refine Lexeme.leads_number hgap hnumber fun c hc => ?_
    have hno : (node l (.literal text)).isNumber = true := hnumber
    refine (hfits c hc).resolve_right fun hdot => ?_
    rw [hno] at hdot
    cases hdot.2.2
  · have hword : text ∈ ["null", "true", "false"] := by
      simpa [isLiteralText, hquoted, hnumber] using h
    have hall : ∀ w ∈ ["null", "true", "false"], isWordText w = true := by decide
    have hlexeme : literalLexeme gap text = .word gap text := by
      simp [literalLexeme, hquoted, hnumber, Lexeme.word]
    rw [hlexeme]
    exact Lexeme.leads_word hgap (hall text hword) hfits.endsWord

theorem links_this : Links style (node l (.verbatim thisCode)) := by
  intro gap level rest hgap hrest hfits
  have hwritten : (node l (.verbatim thisCode)).written style gap level = [.word gap "this"] := by
    simp [written_node, Node.map, writeNode, thisCode, Verbatim.text, Piece.spelling, String.join]
  rw [hwritten]
  exact ⟨Lexeme.leads_word hgap (by decide) hfits.endsWord, hrest⟩

theorem links_member {object : Located} {property : String} {optional : Bool}
    (hn : fairNode (.member object property optional) = true) (h : Links style object) :
    Links style (node l (.member object property optional)) := by
  intro gap level rest hgap hrest hfits
  simp only [fairNode, Bool.and_eq_true, beq_iff_eq, Bool.not_eq_true'] at hn
  obtain ⟨⟨⟨hstrength, hnumber⟩, hproperty⟩, -⟩ := hn
  obtain ⟨c, r, hchars, hc⟩ := toList_of_isWordText hproperty
  have hword : Linked (.word [] property :: rest) :=
    ⟨Lexeme.leads_word rfl hproperty hfits.endsWord, hrest⟩
  have hcharsOf : charsOf (.word [] property :: rest) = c :: (r ++ charsOf rest) := by
    simp [Lexeme.chars, Lexeme.word, hchars]
  rw [written_node]
  simp only [Node.map, writeNode, List.append_assoc, List.cons_append, List.nil_append]
  cases optional with
  | false =>
    refine h hgap ⟨?_, hword⟩ (fun d hd => .inr ?_)
    · rw [hcharsOf]
      exact Lexeme.leads_dot hc
    · obtain rfl : '.' = d := by simpa [Lexeme.chars, Lexeme.sign] using hd
      exact ⟨rfl, hstrength, hnumber⟩
  | true =>
    refine h hgap ⟨?_, hword⟩ (fun d hd => .inl ?_)
    · rw [hcharsOf]
      exact Lexeme.leads_optional hc
    · obtain rfl : '?' = d := by simpa [Lexeme.chars, Lexeme.sign] using hd
      decide

theorem links_index {object index : Located} (h : Links style object) (hindex : Links style index) :
    Links style (node l (.index object index)) := by
  intro gap level rest hgap hrest hfits
  rw [written_node]
  simp only [Node.map, writeNode, List.append_assoc, List.cons_append, List.nil_append]
  refine h hgap ⟨Lexeme.leads_delimiter rfl (by decide) _, ?_⟩
    (.of_edge (endsNumber_delimiter rfl (by decide) _))
  exact hindex rfl ⟨Lexeme.leads_delimiter rfl (by decide) _, hrest⟩
    (.of_edge (endsNumber_delimiter rfl (by decide) _))

theorem links_call {callee : Located} {args : List Located} (h : Links style callee)
    (hargs : ∀ c ∈ args, Links style c) : Links style (node l (.call callee args)) := by
  intro gap level rest hgap hrest hfits
  rw [written_node]
  simp only [Node.map, writeNode, List.append_assoc]
  refine h hgap (linked_between (linksIn_map hargs) rfl (by decide) (by decide) hrest) (.of_edge ?_)
  exact endsNumber_delimiter rfl (by decide) _

theorem links_array {items : List Located} (h : ∀ c ∈ items, Links style c) :
    Links style (node l (.array items)) := by
  intro gap level rest hgap hrest hfits
  rw [written_node]
  exact linked_between (linksIn_map h) hgap (by decide) (by decide) hrest

theorem links_paren {inner : Located} (h : Links style inner) :
    Links style (node l (.paren inner)) := by
  intro gap level rest hgap hrest hfits
  rw [written_node]
  simp only [Node.map, writeNode, List.append_assoc, List.cons_append, List.nil_append]
  refine ⟨Lexeme.leads_delimiter hgap (by decide) _, h rfl ⟨?_, hrest⟩ (.of_edge ?_)⟩
  · exact Lexeme.leads_delimiter rfl (by decide) _
  · exact endsNumber_delimiter rfl (by decide) _

theorem links_spread {inner : Located} (h : Links style inner) :
    Links style (node l (.spread inner)) := by
  intro gap level rest hgap hrest hfits
  rw [written_node]
  have hends : EndsNumber (charsOf rest) := hfits.endsNumber fun hfull => by cases hfull
  exact ⟨Lexeme.leads_dots hgap _, h rfl hrest (.of_edge hends)⟩

theorem links_entry {e : Entry Located} (he : fairEntry e = true)
    (h : ∀ c ∈ e.children, Links style c) : LinksIn (writeEntry (e.map (written style))) := by
  intro gap level rest hgap hrest hends
  cases e with
  | spread value =>
    exact ⟨Lexeme.leads_dots hgap _, h value (by simp) rfl hrest (.of_edge hends)⟩
  | pair key value short =>
    simp only [fairEntry, Bool.and_eq_true] at he
    have hkey : LinksIn (writeKey (key.map (written style))) := by
      intro gap level rest hgap hrest hends
      cases key with
      | name name => exact ⟨Lexeme.leads_word hgap he.1.1 hends.endsWord, hrest⟩
      | literal text =>
        have htext : isQuotedText text = true ∨ isNumberText text = true := by
          have := he.1.1
          simp only [fairKey, Bool.and_eq_true, Bool.or_eq_true] at this
          exact this.1
        refine ⟨?_, hrest⟩
        rcases htext with htext | htext
        · exact Lexeme.leads_quoted hgap htext _
        · exact Lexeme.leads_number hgap htext hends
      | computed key =>
        simp only [Key.map, writeKey, List.append_assoc, List.cons_append, List.nil_append]
        refine ⟨Lexeme.leads_delimiter hgap (by decide) _,
          h key (by simp) rfl ⟨?_, hrest⟩ (.of_edge ?_)⟩
        · exact Lexeme.leads_delimiter rfl (by decide) _
        · exact endsNumber_delimiter rfl (by decide) _
    cases short with
    | true =>
      simp only [Entry.map, writeEntry, if_true]
      exact hkey hgap hrest hends
    | false =>
      simp only [Entry.map, writeEntry, Bool.false_eq_true, if_false, List.append_assoc,
        List.cons_append]
      refine hkey hgap ⟨Lexeme.leads_delimiter rfl (by decide) _, ?_⟩
        (endsNumber_delimiter rfl (by decide) _)
      exact h value (by simp) rfl hrest (.of_edge hends)

theorem links_object {entries : List (Entry Located)} (he : entries.all fairEntry = true)
    (h : ∀ c ∈ entries.flatMap Entry.children, Links style c) :
    Links style (node l (.object entries)) := by
  intro gap level rest hgap hrest hfits
  rw [written_node]
  have hentries : ∀ w ∈ (entries.map (Entry.map (written style))).map writeEntry, LinksIn w := by
    intro w hw
    simp only [List.map_map, List.mem_map] at hw
    obtain ⟨e, hmem, rfl⟩ := hw
    rw [List.all_eq_true] at he
    exact links_entry (he e hmem) fun c hc => h c (List.mem_flatMap.2 ⟨e, hmem, hc⟩)
  simp only [Node.map, writeNode]
  cases hcases : entries.map (Entry.map (written style)) with
  | nil =>
    exact ⟨Lexeme.leads_delimiter hgap (by decide) _, Lexeme.leads_delimiter rfl
      (by decide) _, hrest⟩
  | cons e es =>
    rw [hcases] at hentries
    simp only [writeObject, List.append_assoc, List.cons_append, List.nil_append]
    exact ⟨Lexeme.leads_delimiter hgap (by decide) _,
      linked_listed hentries (style.isBlankGap_gap _) (style.isBlankGap_gap _)
        (style.isBlankGap_gap _) (by decide) hrest⟩

/-! ### Operators -/

theorem charsOf_blank (style : Style) {t : Located} (hl : t.isLegible = true)
    (hv : 1 ≤ t.strength) (level : Nat)
    (rest : List Lexeme) : ∃ r, charsOf (t.written style [' '] level ++ rest) = ' ' :: r := by
  obtain ⟨xs, hxs⟩ := written_eq_cons style hl (.inl hv) [' '] level
  rw [hxs]
  exact ⟨_, by simp [Lexeme.chars, Opening.gap_lexeme]; rfl⟩

theorem endsNumber_operator (op : String) (xs : List Lexeme) :
    EndsNumber (charsOf (operatorLexeme op :: xs)) := by
  have hgap : (operatorLexeme op).gap = [' '] := by
    unfold operatorLexeme
    split
    · rfl
    · split <;> rfl
  exact endsNumber_cons (by rw [hgap]; rfl) (.inl (by rw [hgap]; simp)) xs

theorem links_operation {n : Node Located} {op : String} {left right : Located}
    (hn : n = .binary op left right ∨ n = .logical op left right)
    (hop : op ∈ logicalOperators ++ binaryOperators) (hl : right.isLegible = true)
    (hv : 1 ≤ right.strength) (hleft : Links style left) (hright : Links style right) :
    Links style (node l n) := by
  intro gap level rest hgap hrest hfits
  have hwritten : (node l n).written style gap level ++ rest =
      left.written style gap level ++ operatorLexeme op :: (right.written style [' ']
        level ++ rest) := by
    rw [written_node]
    rcases hn with rfl | rfl <;> simp [Node.map, writeNode]
  have hlow : (node l n).strength ≠ 15 := by
    have := operatorLevel_le op
    rcases hn with rfl | rfl <;> simp [strength] <;> omega
  have hends : EndsNumber (charsOf rest) := hfits.endsNumber hlow
  rw [hwritten]
  refine hleft hgap ⟨?_, hright rfl hrest (.of_edge hends)⟩ (.of_edge (endsNumber_operator op _))
  obtain ⟨r, hr⟩ := charsOf_blank style hl hv level rest
  rw [hr]
  exact leads_operator hop r

theorem links_unary {op : String} {argument : Located}
    (hn : fairNode (.unary op argument) = true) (hl : argument.isLegible = true)
    (h : Links style argument) : Links style (node l (.unary op argument)) := by
  intro gap level rest hgap hrest hfits
  simp only [fairNode, Bool.and_eq_true, decide_eq_true_eq, List.contains_eq_mem] at hn
  obtain ⟨⟨hop, hv⟩, hsame⟩ := hn
  have hends : EndsNumber (charsOf rest) := hfits.endsNumber fun hfull => by cases hfull
  have hopening := (opening_fair hl (.inl (by omega))).1
  rw [written_node]
  simp only [Node.map, writeNode, unaryLexeme, List.cons_append]
  by_cases hword : op.toList.all Char.isAlpha = true
  · simp only [hword, if_true]
    have hall : ∀ op ∈ unaryOperators, op.toList.all Char.isAlpha =
      true → isWordText op = true := by
      decide
    refine ⟨Lexeme.leads_word hgap (hall op hop hword) ?_, h rfl hrest (.of_edge hends)⟩
    obtain ⟨r, hr⟩ := charsOf_blank style hl (by omega) level rest
    rw [hr]
    intro c hc
    obtain rfl : ' ' = c := by simpa using hc
    decide
  · simp only [hword, Bool.false_eq_true, if_false]
    have hall : ∀ op ∈ unaryOperators, op.toList.all Char.isAlpha ≠ true →
        op ∈ ["+", "-", "~", "!"] := by decide
    refine ⟨?_, h rfl hrest (.of_edge hends)⟩
    obtain ⟨xs, hxs⟩ := written_eq_cons style hl (.inl (by omega)) [] level
    rw [hxs, List.cons_append, charsOf_cons]
    refine leads_unary hgap (hall op hop hword) hopening fun hsign heq => ?_
    obtain ⟨a, ha⟩ := unary_of_opening hl hv hsign heq
    rw [ha] at hsame
    rcases hsign with rfl | rfl <;> simp at hsame

theorem links_conditional {test yes no : Located}
    (hyes : yes.isLegible = true) (hv : 1 ≤ yes.strength) (h : Links style test)
    (h' : Links style yes) (h'' : Links style no) :
    Links style (node l (.conditional test yes no)) := by
  intro gap level rest hgap hrest hfits
  have hends : EndsNumber (charsOf rest) := hfits.endsNumber fun hfull => by cases hfull
  rw [written_node]
  simp only [Node.map, writeNode, List.append_assoc, List.cons_append]
  refine h hgap ⟨?_, h' rfl ⟨Lexeme.leads_delimiter rfl (by decide) _, ?_⟩ (.of_edge ?_)⟩
    (.of_edge ?_)
  · obtain ⟨r, hr⟩ := charsOf_blank style hyes hv level
      (.sign [' '] ":" :: (no.written style [' '] level ++ rest))
    rw [hr]
    exact Lexeme.leads_sign rfl rfl ⟨rfl, rfl⟩ rfl
  · exact h'' rfl hrest (.of_edge hends)
  · exact endsNumber_delimiter rfl (by decide) _
  · exact endsNumber_cons rfl (.inl (by simp)) _

end

end JsxLoops.Tree
