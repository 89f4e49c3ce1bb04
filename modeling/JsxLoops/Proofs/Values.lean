import JsxLoops.Proofs.Formulas

/-!
Formulas are read as they are written: every legible formula is read by each rule of the grammar
that its place asks for.
-/

namespace JsxLoops.Tree

open Located JsxLoops.Surface Parse

theorem Located.Opening.not_async {o : Opening} (h : o.isFair = true) (gap : List Char)
    (stop : Nat) : ((o.lexeme gap).token stop).is "async" = false :=
  is_of_ne h (by decide) (by rintro rfl; cases h) (by rintro rfl; cases h) gap stop

section

variable {source : List Char} {style : Style} {t : Located} {b : Bool} {stop level d : Nat}
  {gap : List Char} {rest : List Lexeme} {ctx : Context} {l : Loc}

theorem Ends.is_false (h : Ends rest) {w : String} (hw : w ∉ closers) (b : Bool) (stop : Nat) :
    (stand b stop rest).token.is w = false := by
  rcases h with rfl | ⟨gap, text, xs, rfl, htext⟩
  · rfl
  · refine beq_false_of_ne ?_
    rintro rfl
    exact hw htext

theorem Ends.stopsLinks (h : Ends rest) : StopsLinks rest := by
  rcases h with rfl | ⟨gap, text, xs, rfl, htext⟩
  · trivial
  · have hall : ∀ w ∈ closers,
        (!([".", "[", "!", "<", "<<", "?.", "(", "++", "--"].contains w)) = true := by decide
    exact hall text htext

theorem Ends.levelOf_eq (h : Ends rest) : levelOf rest = 0 := by
  rcases h with rfl | ⟨gap, text, xs, rfl, htext⟩
  · rfl
  · simp only [closers, List.mem_cons, List.not_mem_nil, or_false] at htext
    rcases htext with rfl | rfl | rfl | rfl | rfl | rfl <;> rfl

/-- In front of the operands of a formula nothing else that could open an expression is read. -/
theorem assignment_opens {y : Bool} (hl : t.isLegible = true) (hv : 1 ≤ t.strength)
    (hd : 0 < d)
    (hsite : Site source ctx stop (t.written style gap level) rest) (hends : Ends rest)
    (hcolon : t.endsInParams = true → ¬Colon rest) :
    (stand b stop (t.written style gap level ++ rest)).token.is "yield" = false ∧
      parenthesizedArrow (grammar d) y ctx (stand b stop (t.written style gap level ++ rest)) =
        some (none, stand b stop (t.written style gap level ++ rest)) ∧
      asyncNameArrow (grammar d) y ctx (stand b stop (t.written style gap level ++ rest)) =
        some (none, stand b stop (t.written style gap level ++ rest)) ∧
      (stand b stop (t.written style gap level ++ rest)).token.span.start = stop + gap.length := by
  have hvalue : 1 ≤ t.strength ∨ t.isOptional = true := .inl hv
  have htoken : (stand b stop (t.written style gap level ++ rest)).token =
      (t.opening.lexeme gap).token stop := token_written hl hvalue
  have hasync : (stand b stop (t.written style gap level ++ rest)).token.is "async" = false := by
    rw [htoken]
    exact Opening.not_async (opening_fair hl hvalue).1 gap stop
  refine ⟨is_written hl hvalue (by decide), ?_, asyncNameArrow_of_false hasync, ?_⟩
  · exact parenthesizedArrow_formula hl hv hd hsite (.inl hends) hcolon
  · rw [htoken, Lexeme.token_start, Opening.gap_lexeme]

theorem readsValue_of_operators (hl : t.isLegible = true) (hv : 2 ≤ t.strength)
    (h : ReadsOperators source style t) : ReadsValue source style t := by
  intro d y ctx b stop gap level rest hd hsite hends hcolon
  obtain ⟨d, rfl⟩ : ∃ k, d = k + 1 := ⟨d - 1, by omega⟩
  have hheight := height_pos t
  have hlevel := hends.levelOf_eq
  obtain ⟨p, hp, hspan, hsays⟩ := h.finish (L := 0) (b := b) (d := d) hl (by omega) (by omega)
    hsite hends.stopsLinks
    ⟨by omega, by omega⟩ (.inl (by omega)) (.inr (.inl hlevel))
  rw [settle_of_false (hends.is_false (by decide) b _)] at hp
  refine ⟨p, ?_, hspan, hsays⟩
  change assignment (grammar d) y ctx _ = _
  obtain ⟨hyield, hparen, hasync, -⟩ :=
    assignment_opens (b := b) (y := y) (d := d) hl (by omega) (by omega) hsite hends hcolon
  have hno (w : String) (hw : w ∉ closers) : (stand b p.span.stop rest).token.is w = false :=
    hends.is_false hw b _
  have hassign : (stand b p.span.stop rest).token.isAny assignmentOperators = false := by
    have hall : ∀ w ∈ assignmentOperators, w ∉ closers := by decide
    simp only [Token.isAny, List.any_eq_false]
    intro w hw
    rw [hno w (hall w hw)]
    simp
  have harrow := hno "=>" (by decide)
  have hquestion := hno "?" (by decide)
  simp only [assignment, bind_run, read_run, Option.bind_some, isAt_run, hyield, Bool.and_false,
    Bool.false_eq_true, if_false, hparen, hasync, here_run, hp, token_run, harrow, hassign,
    hquestion, pure_run]

theorem readsValue_conditional {test yes no : Located}
    (hl : (node l (.conditional test yes no)).isLegible = true)
    (h : ReadsOperators source style test) (hyes : ReadsValue source style yes)
    (hno : ReadsValue source style no) :
    ReadsValue source style (node l (.conditional test yes no)) := by
  intro d y ctx b stop gap level rest hd hsite hends hcolon
  obtain ⟨d, rfl⟩ : ∃ k, d = k + 1 := ⟨d - 1, by omega⟩
  obtain ⟨hn, hkids⟩ := isLegible_node.1 hl
  simp only [fairNode, Bool.and_eq_true, decide_eq_true_eq, Bool.not_eq_true'] at hn
  obtain ⟨⟨⟨htestv, hyesv⟩, hnov⟩, hparams⟩ := hn
  have hheight : ∀ c ∈ [test, yes, no], c.height < (node l (.conditional test yes no)).height :=
    fun c hc => height_lt_of_mem hc
  have htestHeight := hheight test (by simp)
  have hyesHeight := hheight yes (by simp)
  have hnoHeight := hheight no (by simp)
  have hposition := height_pos test
  have hyesStrength : 1 ≤ yes.strength := by simpa [isValue] using hyesv
  have hnoStrength : 1 ≤ no.strength := by simpa [isValue] using hnov
  have hopens := assignment_opens (b := b) (y := y) (d := d) hl (show 1 ≤ 1 from le_rfl)
    (by omega) hsite hends hcolon
  obtain ⟨hctx, hrest, hs⟩ := hsite
  have hwritten : (node l (.conditional test yes no)).written style gap level ++ rest =
      test.written style gap level ++ .sign [' '] "?" :: (yes.written style [' '] level ++
        .sign [' '] ":" :: (no.written style [' '] level ++ rest)) := by
    simp [written_node, Node.map, writeNode]
  rw [hwritten] at hs hopens
  obtain ⟨hyield, hparen, hasync, hstart⟩ := hopens
  have htestSite : Site source ctx stop (test.written style gap level) _ :=
    ⟨hctx, ⟨hs.append.linked, rfl⟩, hs⟩
  obtain ⟨p, hp, hpspan, hpsays⟩ := h.finish (L := 0) (b := b) (d := d)
    (hkids test (by simp [Node.children]))
    (by omega) (by omega) htestSite rfl
    ⟨show 0 + 1 ≤ _ by omega, fun h => by cases h.1⟩ (.inl (by omega)) (.inr (.inl rfl))
  rw [settle_of_false rfl] at hp
  have hyesSpells := (htestSite.next hpspan).tail
  have hyesReady := ready_written (hkids yes (by simp [Node.children])) (.inl hyesStrength)
    hyesSpells.linked
  have hyesSite : Site source { ctx with allowIn := true } _ (yes.written style [' '] level) _ :=
    ⟨⟨hctx.bound, rfl, hctx.decorating⟩, ⟨hyesSpells.append.linked, rfl⟩, hyesSpells⟩
  obtain ⟨q, hq, hqspan, hqsays⟩ := hyes (b := b) (d := d) (y := false) (by omega) hyesSite
    (.inr ⟨[' '], ":", _, rfl, by simp [closers]⟩) (by simp [hparams])
  have hnoSpells := (hyesSite.next hqspan).tail
  have hnoReady := ready_written (hkids no (by simp [Node.children])) (.inl hnoStrength)
    hnoSpells.linked
  obtain ⟨r, hr, hrspan, hrsays⟩ := hno (b := b) (d := d) (y := y) (by omega)
    ⟨hctx, hrest, hnoSpells⟩ hends
    (fun hends => hcolon (by rw [endsInParams_conditional]; exact hends))
  have hend : r.span.stop = stop + widthOf ((node l (.conditional test yes no)).written style
    gap level) := by
    rw [hrspan, hqspan, hpspan]
    simp [written_node, Node.map, writeNode]
    omega
  refine ⟨⟨⟨stop + gap.length, r.span.stop⟩, .conditional, [p, q, r]⟩, ?_, by rw [hend], ?_⟩
  · change assignment (grammar d) y ctx _ = _
    rw [hwritten]
    simp only [assignment, bind_run, read_run, Option.bind_some, isAt_run, hyield, Bool.and_false,
      Bool.false_eq_true, if_false, hparen, hasync, here_run, hstart]
    simp [hp, assignmentOperators, Token.isAny, advance_stand, hyesReady, hq,
      expect_stand, hnoReady,
      hr]
  · refine ⟨?_, rfl, rfl, by simp, by simp, fun h => ?_⟩
    · exact .of_node (.conditional p q r) (fun _ => rfl) rfl
        (.cons hpsays.builds (.cons hqsays.builds (.cons hrsays.builds .nil)))
    · rw [isReceiver, fold_node] at h
      cases h

theorem readsItem_value (hl : t.isLegible = true) (hv : 1 ≤ t.strength)
    (h : ReadsValue source style t) : ReadsItem source style t := by
  intro d ctx b stop gap level rest hd hsite hends hcolon
  obtain ⟨p, hp, hfacts⟩ := oneExpression_written (b := b) h hd hsite hends hcolon
  refine ⟨p, ?_, hfacts⟩
  have hdots : (stand b stop (t.written style gap level ++ rest)).token.is "..." = false :=
    is_written hl (.inl hv) (by decide)
  simp [spreadable, eat_of_false _ _ hdots, hp]

theorem readsItem_spread {inner : Located} (hl : (node l (.spread inner)).isLegible = true)
    (h : ReadsValue source style inner) : ReadsItem source style (node l (.spread inner)) := by
  intro d ctx b stop gap level rest hd ⟨hctx, hrest, hs⟩ hends hcolon
  obtain ⟨hn, hkids⟩ := isLegible_node.1 hl
  have hv : 1 ≤ inner.strength := by simpa [fairNode, isValue] using hn
  have hheight : inner.height < (node l (.spread inner)).height :=
    height_lt_of_mem (by simp [Node.children])
  have hwritten : (node l (.spread inner)).written style gap level =
      .sign gap "..." :: inner.written style [] level := by
    rw [written_node]
    rfl
  rw [hwritten, List.cons_append] at hs
  have hready := ready_written (hkids inner (by simp [Node.children])) (.inl hv) hs.tail.linked
  obtain ⟨q, hq, hspan, hsays⟩ := oneExpression_written (b := b) (d := d) h (by omega)
    ⟨hctx, hrest, hs.tail⟩ hends hcolon
  refine ⟨⟨⟨stop + gap.length, q.span.stop⟩, .spread, [q]⟩, ?_, ?_, ?_⟩
  · rw [hwritten, List.cons_append]
    simp [spreadable, eat_stand, hready, hq]
  · simp [hspan, hwritten]
    omega
  · refine ⟨?_, rfl, rfl, by simp, by simp, fun h => ?_⟩
    · exact .of_node (.spread q) (fun _ => rfl) rfl (.cons hsays.builds .nil)
    · rw [isReceiver, fold_node] at h
      cases h

end

end JsxLoops.Tree
