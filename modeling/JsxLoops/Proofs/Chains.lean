import JsxLoops.Proofs.Objects

/-!
Chains. An operand is what members and calls have been followed to their end for, with a sign in
front of it or without. A call of an optional member is one chain, and nothing may follow it.
-/

namespace JsxLoops.Surface

open Parse

theorem access_run (g : Grammar) (ctx : Context) (s : State) :
    access g ctx s = (linked g s.token.span.start ctx s).map fun r =>
      (if r.1.2 then ⟨r.1.1.span, .chain, [r.1.1]⟩ else r.1.1, r.2) := by
  simp only [access, linked, bind_run, here_run, Option.bind_some]
  cases primary g ctx s with
  | none => rfl
  | some r =>
    simp
    cases links g s.token.span.start true ctx.bound r.1 false ctx r.2 <;> rfl

end JsxLoops.Surface

namespace JsxLoops.Tree

open Located JsxLoops.Surface Parse

section

variable {source : List Char} {style : Style} {t : Located} {b : Bool} {stop level d : Nat}
    {gap : List Char}
  {rest : List Lexeme} {ctx : Context} {l : Loc}

theorem not_update_of_stopsLinks (h : StopsLinks rest) : (stand b stop rest).token.isAny
    ["++", "--"] = false := by
  cases rest with
  | nil => rfl
  | cons x rest =>
    have hx : x.stopsLinks = true := h
    obtain ⟨place, gap, kind, spelling, tail⟩ := x
    cases kind <;> simp [Lexeme.stopsLinks] at hx <;>
      simp [Lexeme.token, Token.is, Token.isAny, hx]

theorem operand_of_tight (hl : t.isLegible = true) (hv : 1 ≤ t.strength ∨ t.isOptional = true)
    (hc : t.isChain = true)
    (hstop : StopsLinks rest) {p : Phrase}
    (h : access (grammar d) ctx (stand b stop (t.written style gap level ++ rest)) =
      some (p, stand b p.span.stop rest)) :
    operand (grammar d) ctx (stand b stop (t.written style gap level ++ rest)) =
    some (p, stand b p.span.stop rest) := by
  obtain ⟨hfair, htight⟩ := opening_fair hl hv
  have hno : ∀ w ∈ noTightOpenings, (stand b stop (t.written style gap level ++ rest)).token.is
    w = false := by
    intro w hw
    rw [token_written hl hv]
    exact Opening.is_of_isTight hfair (htight hc) hw gap stop
  simp [noTightOpenings, unaryOperators] at hno
  have hupdate : (stand b p.span.stop rest).token.isAny ["++", "--"] = false :=
    not_update_of_stopsLinks hstop
  simp only [Token.isAny, List.any_cons, List.any_nil, Bool.or_false,
    Bool.or_eq_false_iff] at hupdate
  simp [operand, unaryOperators, Token.isAny, atAwait, update, hno, h, hupdate]

theorem readsOperand_of_linked (hl : t.isLegible = true) (hv : t.strength = 15)
    (h : ReadsLinked source style t) : ReadsOperand source style t := by
  intro d ctx b stop gap level rest hd hsite hstop
  obtain ⟨p, k, hk, hp, hspan, hsays⟩ := h (b := b) hd hsite
  refine ⟨p, ?_, hspan, hsays⟩
  have hvalue : 1 ≤ t.strength ∨ t.isOptional = true := .inl (by omega)
  apply operand_of_tight hl hvalue (isChain_of_strength hv) hstop
  have hstart : (stand b stop (t.written style gap level ++ rest)).token.span.start =
    stop + gap.length := by
    rw [token_written hl hvalue, Lexeme.token_start, Opening.gap_lexeme]
  rw [access_run, hstart, hp, links_of_stopsLinks hstop (by rw [hsite.fuel hk]; omega)]
  rfl

theorem readsOperand_chain {k : Loc} {object callee : Located} {property : String}
    {args : List Located} (hmember : callee = node k (.member object property true))
    (hl : (node l (.call callee args)).isLegible = true) (h : ReadsOptional source style callee)
    (hargs : ∀ c ∈ args, ReadsItem source style c) :
    ReadsOperand source style (node l (.call callee args)) := by
  intro d ctx b stop gap level rest hd hsite hstop
  obtain ⟨hctx, hrest, hs⟩ := hsite
  have hwritten := written_call style l callee args gap level
  rw [hwritten, List.append_assoc] at hs
  have hcallee : Site source ctx stop (callee.written style gap level) _ :=
    ⟨hctx, ⟨hs.append.linked, rfl⟩, hs⟩
  have hcalleeHeight : callee.height < (node l (.call callee args)).height :=
    height_lt_of_mem List.mem_cons_self
  obtain ⟨q, n, hn, hq, hbuilds, hreceiver⟩ := h hmember (d := d) (b := b) (by omega) hcallee
  have hnext := hs.append
  generalize hc : stop + widthOf (callee.written style gap level) = mid at hq hnext
  obtain ⟨ps, hps, hall⟩ := arguments_written (d := d) (b := b) hl hargs hd ⟨hctx, hrest, hnext⟩
  have hend : mid + widthOf (writeBetween [] "(" ")" (args.map (written style)) level) =
      stop + widthOf ((node l (.call callee args)).written style gap level) := by
    rw [hwritten, widthOf_append, ← hc, Nat.add_assoc]
  let call : Phrase :=
    ⟨⟨stop + gap.length, stop + widthOf ((node l (.call callee args)).written style gap level)⟩,
      .call false, ⟨⟨stop + gap.length, mid⟩, .member property true, [q]⟩ :: ps⟩
  refine ⟨⟨call.span, .chain, [call]⟩, ?_, rfl, ?_⟩
  · have hv : 1 ≤ (node l (.call callee args)).strength := by
      simp [hmember, strength, isOptional]
    apply operand_of_tight hl (.inl hv) (by simp [hmember, isChain]) hstop
    have htoken : (stand b mid (writeBetween [] "(" ")" (args.map (written style))
      level ++ rest)).token =
        (Lexeme.sign [] "(").token mid := rfl
    rw [access_run, token_written hl (.inl hv), Lexeme.token_start, Opening.gap_lexeme, hwritten,
      List.append_assoc, hq,
      hcallee.fuel hn]
    have hfuel : 0 < ctx.bound - (n + 1) := by
      have hone : (Lexeme.sign [] "(").width = 1 := rfl
      have hle := hs.width_le
      have hbound := hctx.bound
      simp [writeBetween] at hle
      omega
    have hlast : links (grammar d) (stop + gap.length) true (ctx.bound - (n + 1)) call true ctx
        (stand b call.span.stop rest) = some ((call, true), stand b call.span.stop rest) :=
      links_of_stopsLinks hstop hfuel
    simp [links, link, htoken, callLink, hps, hend, Token.isAny]
    exact ⟨call, .inr ⟨hlast, rfl, rfl⟩⟩
  · refine ⟨?_, rfl, rfl, by simp, by simp, fun h => ?_⟩
    · have hopens := opensArguments_written hnext
      rw [hend] at hopens
      subst hmember
      exact .chain hreceiver hopens hbuilds (forall₂_builds hall)
    · rw [isReceiver, fold_node] at h
      cases h

theorem unaryLexeme_token {op : String} (h : op ∈ unaryOperators) (gap : List Char) (stop : Nat) :
    (unaryLexeme gap op).tail = [] ∧ ((unaryLexeme gap op).token stop).isAny unaryOperators = true ∧
      ((unaryLexeme gap op).token stop).text = op ∧ (unaryLexeme gap op).gap = gap := by
  rw [unaryLexeme]
  split
  · simpa [Token.isAny] using h
  · simpa [Token.isAny] using h

theorem readsOperand_unary {op : String} {argument : Located}
    (hl : (node l (.unary op argument)).isLegible = true)
    (h : ReadsOperand source style argument) : ReadsOperand source style
    (node l (.unary op argument)) := by
  intro d ctx b stop gap level rest hd ⟨hctx, hrest, hs⟩ hstop
  obtain ⟨hn, hkids⟩ := isLegible_node.1 hl
  have hheight : argument.height < (node l (.unary op argument)).height :=
    height_lt_of_mem (by simp [Node.children])
  obtain ⟨d, rfl⟩ : ∃ k, d = k + 1 := ⟨d - 1, by omega⟩
  simp only [fairNode, Bool.and_eq_true, decide_eq_true_eq, List.contains_eq_mem] at hn
  obtain ⟨⟨hop, hv⟩, -⟩ := hn
  obtain ⟨htail, hany, htext, hgap⟩ := unaryLexeme_token hop gap stop
  have hwritten : (node l (.unary op argument)).written style gap level =
      unaryLexeme gap op :: argument.written style (if op.toList.all Char.isAlpha then [' ']
        else []) level := by
    rw [written_node]
    rfl
  generalize (if op.toList.all Char.isAlpha then [' '] else []) = inner at hwritten
  rw [hwritten, List.cons_append] at hs
  have hready := ready_written (hkids argument (by simp [Node.children])) (.inl (by omega))
    hs.tail.linked
  obtain ⟨q, hq, hspan, hsays⟩ := h (d := d) (b := b) (by omega) ⟨hctx, hrest, hs.tail⟩ hstop
  refine ⟨⟨⟨stop + gap.length, q.span.stop⟩, .unary op, [q]⟩, ?_, ?_, ?_⟩
  · change grammar (d + 1) .operand ctx _ = _ at hq
    rw [hwritten, List.cons_append]
    simp [operand, hany, htext, hgap, advance_stand, htail, hready, hq]
  · simp [hspan, hwritten]
    omega
  · refine ⟨?_, rfl, rfl, by simp, by simp, fun h => ?_⟩
    · exact .of_node (.unary op q) (fun _ => rfl) rfl (.cons hsays.builds .nil)
    · rw [isReceiver, fold_node] at h
      cases h

end

end JsxLoops.Tree
