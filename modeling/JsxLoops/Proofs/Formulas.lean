import JsxLoops.Proofs.Infix

/-!
Formulas: expressions without functions and markup. What is written for a formula is never taken
for the head of an arrow: where it starts with a parenthesis, either what stands inside could be no
parameter, or no arrow follows.
-/

namespace JsxLoops.Tree

open Located JsxLoops.Surface Parse

namespace Located

variable {l : Loc} {n : Node Located} {c t : Located}

/-- A formula that starts with a parenthesis starts with an expression in parentheses. -/
theorem written_paren (style : Style) (hl : t.isLegible = true)
    (hv : 1 ≤ t.strength ∨ t.isOptional = true) (ho : t.opening = .sign "(") (level : Nat) :
    ∃ l inner tail, (∀ gap, t.written style gap level =
        .sign gap "(" :: (inner.written style [] level ++ .sign [] ")" :: tail)) ∧
      (node l (.paren inner)).isLegible = true ∧
      ((tail = [] ∧ t = node l (.paren inner)) ∨ ∃ y ys, tail = y :: ys ∧ isJoint y = true) := by
  induction t using induct with
  | node l n ih =>
    obtain ⟨hn, hkids⟩ := isLegible_node.1 hl
    cases hfirst : first? n with
    | some c =>
      have hc := mem_of_first? hfirst
      rw [opening_of_first? hfirst] at ho
      obtain ⟨y, ys, hwritten, hjoint, -⟩ := written_of_first? style hl hfirst level
      obtain ⟨k, inner, tail, hmore, hlegible, htail⟩ :=
        ih c hc (hkids c hc) (fair_of_first? (l := l) hn hfirst).1 ho
      refine ⟨k, inner, tail ++ y :: ys, fun gap => ?_, hlegible, .inr ?_⟩
      · rw [hwritten, hmore]
        simp
      · rcases htail with ⟨rfl, -⟩ | ⟨z, zs, rfl, hz⟩
        · exact ⟨y, ys, rfl, hjoint⟩
        · exact ⟨z, _, rfl, hz⟩
    | none =>
      rw [opening_node] at ho
      cases n with
      | paren inner =>
        refine ⟨l, inner, [], fun gap => ?_, hl, .inl ⟨rfl, rfl⟩⟩
        rw [written_node]
        rfl
      | literal text =>
        simp only [Node.map, Opening.ofNode] at ho
        split at ho <;> cases ho
      | unary op argument =>
        have hop := mem_unaryOperators hn
        have hne : ∀ op ∈ unaryOperators, op ≠ "(" := by decide
        simp only [Node.map, Opening.ofNode] at ho
        split at ho
        · cases ho
        · exact absurd (Opening.sign.inj ho) (hne op hop)
      | object _ | array _ => exact absurd (Opening.sign.inj ho) (by decide)
      | name _ | verbatim _ => cases ho
      | member _ _ _ | index _ _ | call _ _ | binary _ _ _ | logical _ _ _ | conditional _ _ _ =>
        simp [first?] at hfirst
      | _ => simp [strength, isOptional] at hv

theorem Opening.not_bindable {o : Opening} (h : o.isFair = true) (hb : o.couldBind = false)
    (gap : List Char) (stop : Nat) :
    ((o.lexeme gap).token stop).isModifier = false ∧
    ((o.lexeme gap).token stop).isBindable = false ∧
      ((o.lexeme gap).token stop).is "this" = false := by
  cases o with
  | name text => cases hb
  | keyword text =>
    have hall : ∀ k ∈ ["this", "null", "true", "false", "typeof", "void", "delete"],
        k ≠ "this" → (Token.isModifier ⟨.word, k, ⟨0, 0⟩, false, false⟩) = false ∧
          (Token.isBindable ⟨.word, k, ⟨0, 0⟩, false, false⟩) = false := by decide
    have hne : text ≠ "this" := by simpa [couldBind] using hb
    obtain ⟨hmodifier, hbindable⟩ := hall text (by simpa [isFair] using h) hne
    exact ⟨hmodifier, hbindable, beq_false_of_ne hne⟩
  | literal text =>
    have his (w : String) := is_literalLexeme (by simpa [isFair] using h) gap stop w
    have hword : ((literalLexeme gap text).token stop).isWord = false := by
      have hkind : (literalLexeme gap text).kind = .quoted ∨
        (literalLexeme gap text).kind = .number := by
        simp only [isFair, Bool.or_eq_true] at h
        by_cases hq : isQuotedText text = true <;> simp_all [literalLexeme]
      rcases hkind with hkind | hkind <;> simp [Token.isWord, hkind]
    simp [Opening.lexeme, Token.isModifier, Token.isBindable, Token.isPlainName, hword, his]
  | sign text =>
    simp only [isFair, List.contains_eq_mem, List.mem_cons, List.not_mem_nil, or_false,
      decide_eq_true_eq] at h
    rcases h with rfl | rfl | rfl | rfl | rfl | rfl | rfl <;> exact ⟨rfl, rfl, rfl⟩

theorem Opening.not_pattern {o : Opening} (h : o.isFair = true) (hbrace : o ≠ .sign "\x7b")
    (hbracket : o ≠ .sign "[") (gap : List Char) (stop : Nat) :
    ((o.lexeme gap).token stop).isAny ["[", "\x7b"] = false := by
  have his (w : String) (hw : w = "[" ∨ w = "\x7b") (hsign : o ≠ .sign w) :
      ((o.lexeme gap).token stop).is w = false := by
    rcases hw with rfl | rfl <;>
      exact is_of_ne h (by decide) (by rintro rfl; cases h) hsign gap stop
  simp [Token.isAny, his "[" (.inl rfl) hbracket, his "\x7b" (.inr rfl) hbrace]

theorem Opening.bindable {o : Opening} (h : o.isFair = true) (hb : o.couldBind = true)
    (gap : List Char) (stop : Nat) :
    ((o.lexeme gap).token stop).isBindable = true ∨
    ((o.lexeme gap).token stop).is "this" = true := by
  cases o with
  | name text => exact .inl (by simp [Opening.lexeme, Token.isBindable, isPlainName_word h])
  | keyword text => exact .inr hb
  | literal text => cases hb
  | sign text => cases hb

end Located

section

variable {g : Grammar} {ctx : Context} {s : State} {b : Bool} {stop level d : Nat} {gap : List Char}
  {rest : List Lexeme} {style : Style} {t : Located}

theorem arrowLikelihood_of_false (h : s.token.isAny ["(", "<", "async"] = false) :
    arrowLikelihood ctx s = some (.no, s) := by
  simp [arrowLikelihood, h]

theorem asyncNameArrow_of_false {y : Bool} (h : s.token.is "async" = false) :
    asyncNameArrow g y ctx s = some (none, s) := by
  simp [asyncNameArrow, h]

theorem isJoint_token {y : Lexeme} (h : isJoint y = true) (stop : Nat) :
    (y.token stop).isBindable = false ∧ (y.token stop).isAny [":", ",", "=", ")", "=>"] = false ∧
      ((y.token stop).is "?" = true → y.spelling = "?" ∧ y.tail = []) := by
  obtain ⟨place, gap, kind, spelling, tail⟩ := y
  simp only [isJoint, Bool.and_eq_true, Bool.or_eq_true, bne_iff_ne, beq_iff_eq,
    List.isEmpty_iff] at h
  obtain ⟨⟨-, htail⟩, hkind⟩ := h
  cases kind with
  | sign =>
    have hall : ∀ w ∈ [".", "?.", "[", "(", "?", "??", "||", "&&", "|", "^", "&", "==", "!=", "===",
        "!==", ">", "<=", "+", "-", "*", "/", "%", "**"],
        (w == "yield") = false ∧ (w == "await") = false ∧
          w ∉ [":", ",", "=", ")", "=>"] := by decide
    obtain ⟨hyield, hawait, hno⟩ := hall spelling (by simpa using hkind)
    simp only [List.mem_cons, List.not_mem_nil, or_false, not_or] at hno
    refine ⟨?_, ?_, fun h => ?_⟩
    · simp [Token.isBindable, Token.isPlainName, Token.isWord, Token.is,
        Lexeme.token, hyield, hawait]
    · simp [Token.isAny, Token.is, Lexeme.token, hno]
    · have hq : spelling = "?" := by simpa [Token.is, Lexeme.token] using h
      exact ⟨hq, htail.resolve_left (fun hne => hne hq)⟩
  | word =>
    have hwords : spelling = "in" ∨ spelling = "instanceof" := by simpa using hkind
    rcases hwords with rfl | rfl <;> exact ⟨rfl, rfl, fun h => by cases h⟩
  | _ => cases hkind

theorem likelihoodInParens_written {inner : Located} {tail : List Lexeme} {l : Loc}
    (hl : (node l (.paren inner)).isLegible = true)
    (hs : Linked (.sign gap "(" :: (inner.written style [] level ++ .sign [] ")" :: tail))) :
    (likelihoodInParens ctx (stand b stop
        (.sign gap "(" :: (inner.written style [] level ++ .sign [] ")" :: tail)))).map Prod.fst =
      some (if inner.isSimple then .maybe else .no) := by
  obtain ⟨hn, hkids⟩ := isLegible_node.1 hl
  have hinner : inner.isLegible = true := hkids inner (by simp [Node.children])
  simp only [fairNode, Bool.and_eq_true, bne_iff_ne, ne_eq] at hn
  obtain ⟨⟨hvalue, hbrace⟩, hbracket⟩ := hn
  have hv : 1 ≤ inner.strength ∨ inner.isOptional = true := .inl (by simpa [isValue] using hvalue)
  obtain ⟨hfair, -⟩ := opening_fair hinner hv
  have hready := ready_written hinner hv hs.2
  generalize hstop : stop + (Lexeme.sign gap "(").width = mid
  have htoken : (stand b mid (inner.written style [] level ++ .sign [] ")" :: tail)).token =
      (inner.opening.lexeme []).token mid := token_written hinner hv
  have hno : ∀ w ∈ noOpenings, ((inner.opening.lexeme []).token mid).is w = false := fun w hw =>
    Opening.is_of_isFair hfair hw [] mid
  have hclose : ((inner.opening.lexeme []).token mid).is ")" = false := hno ")" (by decide)
  have hdots : ((inner.opening.lexeme []).token mid).is "..." = false := hno "..." (by decide)
  have hpattern : ((inner.opening.lexeme []).token mid).isAny ["[", "\x7b"] = false :=
    Opening.not_pattern hfair hbrace hbracket [] mid
  simp only [Token.isAny, List.any_cons, List.any_nil, Bool.or_false,
    Bool.or_eq_false_iff] at hpattern
  by_cases hbind : inner.opening.couldBind = true
  · have hmodifier := Opening.bindable hfair hbind [] mid
    rcases written_second style hinner hv hbind level with ⟨hsimple, hone⟩
      | ⟨y, ys, hmore, hjoint, hnext⟩
    · rw [hone] at hs hready htoken ⊢
      have hlast : Ready (.sign [] ")" :: tail) := ⟨hs.2.2, rfl⟩
      have hstep : step ctx (stand b mid (inner.opening.lexeme [] :: .sign [] ")" :: tail)) = _ :=
        step_stand ⟨Opening.tail_lexeme _ _, hlast⟩
      simp only [List.cons_append, List.nil_append] at hready ⊢
      have hparen (k : Nat) : ((Lexeme.sign [] ")").token k).isBindable = false := rfl
      rcases hmodifier with hm | hm <;>
        simp [likelihoodInParens, advance_stand, hready, hstop, hclose, hpattern, hdots,
          hstep, hsimple,
          hm, hparen, Token.isAny]
    · rw [hmore] at hs hready htoken ⊢
      have hsimple : inner.isSimple = false := by
        rw [← Bool.not_eq_true]
        intro hsimple
        have hlength := congrArg List.length (hmore [])
        obtain ⟨l, n⟩ := inner
        rw [written_node] at hlength
        cases n with
        | name | verbatim => simp [Node.map, writeNode] at hlength
        | _ => cases hsimple
      have hplace : y.place = .code := by
        simp only [isJoint, Bool.and_eq_true, beq_iff_eq] at hjoint
        exact hjoint.1.1
      have hlast : Ready (y :: (ys ++ .sign [] ")" :: tail)) := ⟨hs.2.2, hplace⟩
      have hstep : step ctx (stand b mid (inner.opening.lexeme [] :: y :: (ys ++ .sign [] ")"
        :: tail))) = _ :=
        step_stand ⟨Opening.tail_lexeme _ _, hlast⟩
      generalize mid + (inner.opening.lexeme []).width = next at hstep
      obtain ⟨hbindable, hany, hquestion⟩ := isJoint_token hjoint next
      simp only [Token.isAny, List.any_cons, List.any_nil, Bool.or_false,
        Bool.or_eq_false_iff] at hany
      by_cases hq : (y.token next).is "?" = true
      · obtain ⟨hspelling, htail⟩ := hquestion hq
        obtain ⟨o, zs, rfl, hofair⟩ := hnext hspelling
        have hlater : Ready (Opening.lexeme [' '] o :: (zs ++ .sign [] ")" :: tail)) :=
          ⟨hs.2.2.2, Opening.place_lexeme _ _⟩
        have hstep' : step ctx (stand b next (y :: Opening.lexeme [' '] o :: (zs ++ .sign [] ")"
          :: tail))) = _ :=
          step_stand ⟨htail, hlater⟩
        have hnone (w : String) (hw : w ∈ [":", ",", "=", ")"]) :
            ((Opening.lexeme [' '] o).token (next + y.width)).is w = false := by
          have hall : ∀ w ∈ [":", ",", "=", ")"], w ∈ noOpenings := by decide
          exact Opening.is_of_isFair hofair (hall w hw) [' '] _
        simp only [List.cons_append] at hready hstep ⊢
        rcases hmodifier with hm | hm <;>
          simp [likelihoodInParens, advance_stand, hready, hstop, hclose, hpattern, hdots, hstep,
            hsimple, hm, hbindable, hany, hq, hstep', Token.isAny, hnone]
      · simp only [List.cons_append] at hready ⊢
        rcases hmodifier with hm | hm <;>
          simp [likelihoodInParens, advance_stand, hready, hstop, hclose, hpattern, hdots,
            hstep, hsimple,
            hm, hbindable, hany, hq, Token.isAny]
  · rw [Bool.not_eq_true] at hbind
    have hsimple : inner.isSimple = false := by
      rw [← Bool.not_eq_true]
      intro hsimple
      obtain ⟨l, n⟩ := inner
      cases n with
      | name text => rw [opening_node] at hbind; cases hbind
      | verbatim code =>
        obtain rfl : code = thisCode := by
          by_contra hne
          simp [strength, hne, isOptional] at hv
        rw [opening_node] at hbind
        cases hbind
      | _ => cases hsimple
    obtain ⟨hmodifier, hbindable, hthis⟩ := Opening.not_bindable hfair hbind [] mid
    simp [likelihoodInParens, advance_stand, hready, hstop, htoken, hclose, hpattern, hdots,
      step, hsimple,
      hmodifier, hbindable, hthis, Token.isAny]

theorem lookahead_of_map {α : Type} {p : Parse α} {a : α} (fallback : α)
    (h : (p ctx s).map Prod.fst = some a) : lookahead p fallback ctx s = some (a, s) := by
  cases hp : p ctx s with
  | none => simp [hp] at h
  | some r =>
    obtain rfl : r.1 = a := by simpa [hp] using h
    simp [lookahead, hp]

theorem flawIf_stand (b c : Bool) (stop : Nat) (xs : List Lexeme) :
    flawIf c ctx (stand b stop xs) = some ((), stand (b && !c) stop xs) := by
  cases c <;> simp [flawIf, flaw, stand]

section

variable {text : String} {zs : List Lexeme}

theorem pattern_name (hname : isNameText text = true) (hclose : Ready (.sign [] ")" :: zs)) :
    grammar (d + 1) .pattern ctx (stand b stop (.word gap text :: .sign [] ")" :: zs)) =
      some (.leaf ⟨stop + gap.length, stop + (Lexeme.word gap text).width⟩ (.bind text),
        stand b (stop + (Lexeme.word gap text).width) (.sign [] ")" :: zs)) := by
  have hne := not_mem_noNames hname
  simp [noNames, reservedWords] at hne
  change pattern (grammar d) ctx _ = _
  simp [pattern, hne, Parse.bound, Token.isBindable, isPlainName_word hname, checkName, flawIf,
    step_stand, hclose]

theorem modifiers_name (hname : isNameText text = true) (hbound : 0 < ctx.bound)
    (hclose : Ready (.sign [] ")" :: zs)) :
    modifiers ctx (stand b stop (.word gap text :: .sign [] ")" :: zs)) =
      some ([], stand b stop (.word gap text :: .sign [] ")" :: zs)) := by
  obtain ⟨k, hk⟩ : ∃ k, ctx.bound = k + 1 := ⟨ctx.bound - 1, by omega⟩
  have hne := not_mem_noNames hname
  simp [noNames, reservedWords] at hne
  have hfollows (n : Nat) : ((Lexeme.sign [] ")").token n).followsModifier = false := rfl
  have hat : atModifier ctx (stand b stop (.word gap text :: .sign [] ")" :: zs)) =
      some (false, stand b stop (.word gap text :: .sign [] ")" :: zs)) := by
    by_cases hmodifier : ((Lexeme.word gap text).token stop).isModifier = true
    · by_cases hstatic : text = "static"
      · subst hstatic
        simp [atModifier, hmodifier, nextToken_stand, hclose, Token.isAny, hfollows]
      · simp [atModifier, hmodifier, nextToken_stand, hclose, Token.isAny, hne, hstatic, hfollows]
    · simp [atModifier, hmodifier]
  simp only [modifiers, bind_run, read_run, Option.bind_some, hk, modifiersFrom, token_run]
  by_cases hstatic : text = "static"
  · subst hstatic
    simp [nextIs_stand, hclose, hat]
  · simp [hstatic, hat]

theorem parameter_name (hname : isNameText text = true) (hbound : 0 < ctx.bound)
    (hclose : Ready (.sign [] ")" :: zs)) (stop : Nat) : ∃ q, parameter (grammar (d + 1)) false ctx
        (stand b stop (.word [] text :: .sign [] ")" :: zs)) =
      some (q, stand b (stop + (Lexeme.word [] text).width) (.sign [] ")" :: zs)) := by
  have hne := not_mem_noNames hname
  simp [noNames, reservedWords] at hne
  obtain ⟨k, hk⟩ : ∃ k, ctx.bound = k + 1 := ⟨ctx.bound - 1, by omega⟩
  have hdecorators : decorators (grammar (d + 1)) ctx
      (stand b stop (.word [] text :: .sign [] ")" :: zs)) =
        some ([], stand b stop (.word [] text :: .sign [] ")" :: zs)) := by
    simp [decorators, many, hk, rounds, eat, hne]
  apply Exists.intro
  simp only [parameter, bind_run, here_run, Option.bind_some, hdecorators, flawIf_stand,
    modifiers_name hname hbound hclose, pattern_name hname hclose]
  simp [eat, annotation, initializer]
  rfl

theorem parameters_simple (htext : isNameText text = true ∨ text = "this") (hbound : 0 < ctx.bound)
    (hs : Linked (.sign gap "(" :: .word [] text :: .sign [] ")" :: zs)) (hzs : Ready zs) :
    ∃ p e, parameters (grammar (d + 1)) false ctx
        (stand b stop (.sign gap "(" :: .word [] text :: .sign [] ")" :: zs)) =
      some ((p, []), stand b e zs) := by
  have hword : Ready (.word [] text :: .sign [] ")" :: zs) := ⟨hs.2, rfl⟩
  have hclose : Ready (.sign [] ")" :: zs) := ⟨hs.2.2, rfl⟩
  by_cases hthis : text = "this"
  · subst hthis
    apply Exists.intro
    apply Exists.intro
    simp [parameters, expect_stand, hword, eat, advance_stand, hclose, annotation, listedWithRest,
      listed, hzs]
    exact ⟨rfl, rfl⟩
  · have hname : isNameText text = true := htext.resolve_right hthis
    have hne := not_mem_noNames hname
    simp [noNames, reservedWords] at hne
    obtain ⟨k, hk⟩ : ∃ k, ctx.bound = k + 1 := ⟨ctx.bound - 1, by omega⟩
    obtain ⟨q, hq⟩ := parameter_name (b := b) (d := d) hname hbound hclose
      (stop + (Lexeme.sign gap "(").width)
    apply Exists.intro
    apply Exists.intro
    simp [parameters, expect_stand, hword, eat, hne, listedWithRest, listed, hq,
      listedMore, hk, hzs]
    exact ⟨rfl, rfl⟩

theorem arrowHead_simple (htext : isNameText text = true ∨ text = "this") (hbound : 0 < ctx.bound)
    (hs : Linked (.sign gap "(" :: .word [] text :: .sign [] ")" :: zs)) (hzs : Ready zs)
    (hfollow : ∀ stop b, (stand b stop zs).token.is ":" = false ∧
      (stand b stop zs).token.is "=>" = false) :
    arrowHead (grammar (d + 1)) ctx
      (stand b stop (.sign gap "(" :: .word [] text :: .sign [] ")" :: zs)) = none := by
  have hword : Ready (.word [] text :: .sign [] ")" :: zs) := ⟨hs.2, rfl⟩
  have hsign (b : Bool) (stop : Nat) : arrowSign ctx (stand b stop zs) = none := by
    simp only [arrowSign, bind_run, onNewLine_run, Option.bind_some, flawIf_stand]
    exact expect_of_false _ _ (hfollow _ _).2
  have hresult (ctx : Context) (b : Bool) (stop : Nat) :
      resultAnnotation (grammar (d + 1)) ctx (stand b stop zs) = some ([], stand b stop zs) := by
    simp [ resultAnnotation, eat_of_false, hfollow]
  have hasync : eat "async" ctx
    (stand b stop (.sign gap "(" :: .word [] text :: .sign [] ")" :: zs)) =
      some (false, _) := eat_of_false _ _ rfl
  have hgenerics (ctx : Context) : typeParameters (grammar (d + 1)) ctx
      (stand b stop (.sign gap "(" :: .word [] text :: .sign [] ")" :: zs)) =
      some ([], stand b stop (.sign gap "(" :: .word [] text :: .sign [] ")" :: zs)) := by
    simp [typeParameters]
  have hand (ctx : Context) : (isAt "(" <&&> nextIs "this") ctx
      (stand b stop (.sign gap "(" :: .word [] text :: .sign [] ")" :: zs)) =
      some (text == "this", stand b stop (.sign gap "(" :: .word [] text :: .sign []
        ")" :: zs)) := by
    simp [andM, ToBool.toBool, nextIs_stand, hword]
  obtain ⟨p, e, hp⟩ : ∃ p e, parameters (grammar (d + 1)) false
      { ctx with awaits := ctx.awaits || false } (stand (b && !(text == "this")) stop
        (.sign gap "(" :: .word [] text :: .sign [] ")" :: zs)) = some ((p, []), stand _ e zs) :=
    parameters_simple htext hbound hs hzs
  simp only [arrowHead, bind_run, here_run, Option.bind_some, hasync, within_run, hgenerics, hand,
    flawIf_stand, hp, hresult, pure_run, hsign, Option.bind_none]

end

theorem Located.Opening.not_arrow {o : Opening} (h : o.isFair = true) (hparen : o ≠ .sign "(")
    (gap : List Char) (stop : Nat) :
    ((o.lexeme gap).token stop).isAny ["(", "<", "async"] = false := by
  have his (w : String) (hw : w = "(" ∨ w = "<" ∨ w = "async") (hsign : o ≠ .sign w) :
      ((o.lexeme gap).token stop).is w = false := by
    rcases hw with rfl | rfl | rfl <;>
      exact is_of_ne h (by decide) (by rintro rfl; cases h) hsign gap stop
  simp [Token.isAny, his "(" (.inl rfl) hparen,
    his "<" (.inr (.inl rfl)) (by rintro rfl; cases h),
    his "async" (.inr (.inr rfl)) (by rintro rfl; cases h)]

theorem Ends.not_arrow (hends : Ends rest) (hcolon : ¬Colon rest) (stop : Nat) (b : Bool) :
    (stand b stop rest).token.is ":" = false ∧ (stand b stop rest).token.is "=>" = false := by
  rcases hends with rfl | ⟨gap, text, xs, rfl, htext⟩
  · exact ⟨rfl, rfl⟩
  · have hall : ∀ w ∈ closers, w ≠ "=>" := by decide
    refine ⟨beq_false_of_ne ?_, beq_false_of_ne (hall text htext)⟩
    rintro rfl
    exact hcolon ⟨gap, xs, rfl⟩

theorem arrowLikelihood_paren {inner : Located} {tail : List Lexeme} {l : Loc}
    (hl : (node l (.paren inner)).isLegible = true)
    (hs : Linked (.sign gap "(" :: (inner.written style [] level ++ .sign [] ")" :: tail))) :
    arrowLikelihood ctx (stand b stop
        (.sign gap "(" :: (inner.written style [] level ++ .sign [] ")" :: tail))) =
      some (if inner.isSimple then .maybe else .no, stand b stop
        (.sign gap "(" :: (inner.written style [] level ++ .sign [] ")" :: tail))) := by
  have hany : (stand b stop (.sign gap "(" ::
      (inner.written style [] level ++ .sign [] ")" :: tail))).token.isAny
      ["(", "<", "async"] = true :=
    rfl
  simp only [arrowLikelihood, bind_run, isAtAny_run, Option.bind_some, hany, Bool.not_true,
    Bool.false_eq_true, if_false]
  refine lookahead_of_map Likelihood.no ?_
  have hin : (likelihoodInParens ctx (stand b stop _)).map Prod.fst = _ :=
    likelihoodInParens_written hl hs
  simpa [eat] using hin

/-- A formula is not taken for an arrow. In front of a colon, it must not end in what could be
parameters. -/
theorem parenthesizedArrow_formula {source : List Char} {y : Bool} (hl : t.isLegible = true)
    (hv : 1 ≤ t.strength) (hd : 0 < d)
    (hsite : Site source ctx stop (t.written style gap level) rest) (hends : Ends rest ∨
      ∃ y ys, rest = y :: ys ∧ isJoint y = true)
    (hcolon : t.endsInParams = true → ¬Colon rest) :
    parenthesizedArrow (grammar d) y ctx (stand b stop (t.written style gap level ++ rest)) =
      some (none, stand b stop (t.written style gap level ++ rest)) := by
  have hvalue : 1 ≤ t.strength ∨ t.isOptional = true := .inl hv
  have htoken : (stand b stop (t.written style gap level ++ rest)).token =
      (t.opening.lexeme gap).token stop := token_written hl hvalue
  obtain ⟨hfair, -⟩ := opening_fair hl hvalue
  by_cases hparen : t.opening = .sign "("
  · obtain ⟨l, inner, tail, hwritten, hlegible, htail⟩ :=
      written_paren style hl hvalue hparen level
    have hs := hsite.spells.linked
    rw [hwritten, List.cons_append, List.append_assoc, List.cons_append] at hs ⊢
    by_cases hsimple : inner.isSimple = true
    · obtain ⟨d, rfl⟩ : ∃ k, d = k + 1 := ⟨d - 1, by omega⟩
      obtain ⟨text, htext, hone⟩ : ∃ text, (isNameText text = true ∨ text = "this") ∧
          inner.written style [] level = [.word [] text] := by
        have hinner := (isLegible_node.1 hlegible).2 inner (by simp [Node.children])
        obtain ⟨k, n⟩ := inner
        replace hinner := (isLegible_node.1 hinner).1
        rw [written_node]
        cases n with
        | name text => exact ⟨text, .inl hinner, rfl⟩
        | verbatim code =>
          obtain rfl : code = thisCode := by simpa [fairNode] using hinner
          exact ⟨"this", .inr rfl, by
            simp [Node.map, writeNode, thisCode, Verbatim.text, Piece.spelling, String.join]⟩
        | _ => cases hsimple
      have hbound : 0 < ctx.bound := by
        rw [hsite.suits.bound]
        omega
      have hlikely : arrowLikelihood ctx (stand b stop _) = _ :=
        arrowLikelihood_paren hlegible hs
      have hjoint (y : Lexeme) (h : isJoint y = true) (ys : List Lexeme) (stop : Nat) (b : Bool) :
          (stand b stop (y :: ys)).token.is ":" = false ∧
          (stand b stop (y :: ys)).token.is "=>" = false := by
        have hany := (isJoint_token h stop).2.1
        simp only [Token.isAny, List.any_cons, List.any_nil, Bool.or_false,
          Bool.or_eq_false_iff] at hany
        exact ⟨hany.1, hany.2.2.2.2⟩
      have hfollow : Ready (tail ++ rest) ∧ ∀ stop b, (stand b stop (tail ++ rest)).token.is ":" =
        false ∧
          (stand b stop (tail ++ rest)).token.is "=>" = false := by
        rcases htail with ⟨rfl, rfl⟩ | ⟨z, zs, rfl, hz⟩
        · refine ⟨hsite.ready, fun stop b => ?_⟩
          rcases hends with hends | ⟨z, zs, rfl, hz⟩
          · exact hends.not_arrow (hcolon (by rw [endsInParams_paren, hsimple])) stop b
          · exact hjoint z hz zs stop b
        · have hplace : z.place = .code := by
            simp only [isJoint, Bool.and_eq_true, beq_iff_eq] at hz
            exact hz.1.1
          rw [hone] at hs
          exact ⟨⟨hs.2.2.2, hplace⟩, fun stop b => hjoint z hz _ stop b⟩
      rw [hone] at hs hlikely ⊢
      simp only [List.cons_append, List.nil_append] at hs hlikely ⊢
      have hhead : arrowHead (grammar (d + 1)) ctx
          (stand b stop (.sign gap "(" :: .word [] text :: .sign [] ")" :: (tail ++ rest))) =
          none :=
        arrowHead_simple htext hbound hs hfollow.1 hfollow.2
      simp [parenthesizedArrow, hlikely, hsimple, attempt, hhead]
    · have hlikely : arrowLikelihood ctx (stand b stop _) = _ :=
        arrowLikelihood_paren hlegible hs
      simp [parenthesizedArrow, hlikely, hsimple]
  · have hno : (stand b stop (t.written style gap level ++ rest)).token.isAny ["(", "<", "async"] =
        false := by
      rw [htoken]
      exact Opening.not_arrow hfair hparen gap stop
    simp [parenthesizedArrow, arrowLikelihood_of_false hno]

end

end JsxLoops.Tree
