import JsxLoops.Proofs.Rules

/-!
Operands. What is written for a name, a literal, parentheses, an array, a member, an element of an
index or a call is read as it, provided that its parts are. Each lemma is one case of the induction
over the tree, and members, indices and calls go through what may follow an operand.
-/

namespace JsxLoops.Tree

open Located JsxLoops.Surface Parse

section
variable {source : List Char} {style : Style} {t : Located} {b : Bool} {stop level d : Nat}
    {gap : List Char}
  {rest : List Lexeme} {ctx : Context} {closing : String}

theorem token_written (hl : t.isLegible = true) (hv : 1 ≤ t.strength ∨ t.isOptional = true) :
    (stand b stop (t.written style gap level ++ rest)).token =
    (t.opening.lexeme gap).token stop := by
  obtain ⟨xs, hxs⟩ := written_eq_cons style hl hv gap level
  rw [hxs]
  rfl

theorem ready_written (hl : t.isLegible = true) (hv : 1 ≤ t.strength ∨ t.isOptional = true)
    (hs : Linked (t.written style gap level ++ rest)) :
    Ready (t.written style gap level ++ rest) := by
  obtain ⟨xs, hxs⟩ := written_eq_cons style hl hv gap level
  refine ⟨hs, ?_⟩
  rw [hxs]
  exact Opening.place_lexeme _ _

theorem is_written (hl : t.isLegible = true)
    (hv : 1 ≤ t.strength ∨ t.isOptional = true) {w : String}
    (hw : w ∈ noOpenings) :
    (stand b stop (t.written style gap level ++ rest)).token.is w = false := by
  rw [token_written hl hv]
  exact Opening.is_of_isFair (opening_fair hl hv).1 hw gap stop

theorem Delimits.ends (h : Delimits closing rest) (hclosing : closing ∈ [")", "]", "\x7d"]) :
    Ends rest ∧ ¬Colon rest := by
  obtain ⟨gap, text, xs, rfl, htext⟩ := h
  have hcases : text ∈ [",", ")", "]", "\x7d"] := by
    rcases htext with rfl | rfl
    · simp
    · exact List.mem_cons_of_mem _ hclosing
  refine ⟨.inr ⟨gap, text, xs, rfl, ?_⟩, ?_⟩
  · have hall : ∀ text ∈ [",", ")", "]", "\x7d"], text ∈ closers := by decide
    exact hall text hcases
  · rintro ⟨gap', xs', h⟩
    obtain rfl : text = ":" := by
      have := congrArg (fun ys => ys.head?.map Lexeme.spelling) h
      simpa [Lexeme.sign] using this
    simp at hcases

theorem item_opens (style : Style) (hl : t.isLegible = true) (hv : t.isItem = true)
    (gap : List Char) (level : Nat) :
    ∃ x xs, t.written style gap level = x :: xs ∧ x.place = .code ∧ x.kind ≠ .eof ∧
      ∀ w ∈ [")", "]", "\x7d", ","], ∀ stop, (x.token stop).is w = false := by
  have hno : ∀ w ∈ [")", "]", "\x7d", ","], w ∈ noOpenings ∧ "..." ≠ w := by decide
  by_cases hvalue : t.isValue = true
  · have hstrength : 1 ≤ t.strength ∨ t.isOptional = true := .inl (by simpa [isValue] using hvalue)
    obtain ⟨xs, hxs⟩ := written_eq_cons style hl hstrength gap level
    have hkind : (t.opening.lexeme gap).kind ≠ .eof := by
      intro h
      have := t.opening.kind_lexeme gap
      simp [h] at this
    refine ⟨_, _, hxs, Opening.place_lexeme _ _, hkind, fun w hw stop => ?_⟩
    exact Opening.is_of_isFair (opening_fair hl hstrength).1 (hno w hw).1 gap stop
  · obtain ⟨l, n⟩ := t
    rw [written_node]
    cases n with
    | spread inner =>
      exact ⟨_, _, rfl, rfl, by simp, fun w hw stop => beq_false_of_ne (hno w hw).2⟩
    | _ => simp [isItem, hvalue] at hv

theorem takes_of_yields {item : Parse Phrase} (hl : t.isLegible = true) (hv : t.isItem = true)
    (hctx : Suits source ctx) (hclosing : closing ∈ [")", "]", "\x7d"])
    (h : ∀ b stop gap rest, Site source ctx stop (t.written style gap level) rest → Ends rest →
      ¬Colon rest → Yields source style t item ctx b stop gap level rest) :
    Takes source ctx item closing (t.written style · level) (Says source t) where
  opens gap := by
    obtain ⟨x, xs, hx, hplace, hkind, hno⟩ := item_opens style hl hv gap level
    have hmem : ∀ w ∈ [")", "]", "\x7d"], w ∈ [")", "]", "\x7d", ","] := by decide
    exact ⟨x, xs, hx, hplace, hkind, hno closing (hmem closing hclosing)⟩
  reads b stop gap rest hrest hdelimits hs := by
    obtain ⟨hends, hcolon⟩ := hdelimits.ends hclosing
    obtain ⟨p, hp, hspan, hsays⟩ := h b stop gap rest ⟨hctx, hrest, hs⟩ hends hcolon
    exact ⟨p, hp, by rw [hspan], hsays⟩

theorem takes_item (h : ReadsItem source style t) (hl : t.isLegible = true)
    (hv : t.isItem = true) (hd : 4 * t.height + 1 ≤ d) (hctx : Suits source ctx)
    (hclosing : closing ∈ [")", "]", "\x7d"]) :
    Takes source ctx (spreadable (grammar d)) closing (t.written style · level) (Says source t) :=
  takes_of_yields hl hv hctx hclosing fun _ _ _ _ hsite hends hcolon => h hd hsite hends hcolon

theorem listed_one {item : Parse Phrase} {w : List Char → List Lexeme} {Q : Phrase → Prop}
    {g : List Char} (h : Takes source ctx item closing w Q) (hbound : ctx.bound = source.length + 1)
    (hs : Spells source stop (w gap ++ .sign g closing :: rest)) :
    ∃ p, listed closing item ctx (stand b stop (w gap ++ .sign g closing :: rest)) =
        some (([p], false), stand b p.span.stop (.sign g closing :: rest)) ∧
      p.span.stop = stop + widthOf (w gap) ∧ Q p := by
  obtain ⟨p, hp, hstop, hq⟩ := h.reads b stop gap (.sign g closing :: rest)
    ⟨hs.append.linked, rfl⟩ ⟨g, closing, rest, rfl, .inr rfl⟩ hs
  obtain ⟨x, xs, hx, -, hkind, hno⟩ := h.opens gap
  have hopen : (stand b stop (w gap ++ .sign g closing :: rest)).token = x.token stop := by
    rw [hx]
    rfl
  refine ⟨p, ?_, hstop, hq⟩
  simp [listed, listedMore, hopen, hno, hkind, hp, hbound]

def noNames : List String :=
  reservedWords ++ ["let", "async", ")", "]", "\x7d", ",", ";", ":", ".", "...", "?", "?.",
  "=", "=>", "++",
    "--", "*", "/", "@", ">", "<", "<<", "(", "[", "\x7b", "+", "-", "~", "!"]

theorem not_mem_noNames {text : String} (h : isNameText text = true) : text ∉ noNames := by
  have hno : ∀ w ∈ noNames, isNameText w = false := by decide +kernel
  exact fun hmem => ne_of_isNameText h (hno text hmem) rfl

theorem isPlainName_word {text : String} (h : isNameText text = true) (gap : List Char)
    (stop : Nat) :
    ((Lexeme.word gap text).token stop).isPlainName = true := by
  have hne := not_mem_noNames h
  simp only [noNames, List.mem_append, not_or] at hne
  simp [Token.isPlainName, Token.isReserved, hne.1]

section
variable {l : Loc}

theorem readsLinked_name {text : String} (hl : (node l (.name text)).isLegible = true) :
    ReadsLinked source style (node l (.name text)) := by
  intro d ctx b stop gap level rest hd ⟨hctx, hrest, hs⟩
  have hname : isNameText text = true := (isLegible_node.1 hl).1
  rw [written_node] at hs ⊢
  refine ⟨⟨⟨stop + gap.length, stop + (Lexeme.word gap text).width⟩, .use text, []⟩, 0,
    Nat.zero_le _, ?_, rfl, ?_⟩
  · have hne := not_mem_noNames hname
    simp [noNames, reservedWords] at hne
    simp [linked, primary, Node.map, writeNode, wordOperand, atFunction, hne, Token.isAny, used,
      Token.isUsable, isPlainName_word hname, checkName, flawIf, step_stand, hrest, Phrase.leaf]
  · refine ⟨?_, rfl, rfl, by simp, by simp, fun _ => rfl⟩
    exact .of_node (.name text) (fun _ => rfl) rfl .nil

theorem sliceText_lexeme {x : Lexeme} (hx : x.tail = []) (hs : Spells source stop (x :: rest)) :
    sliceText source ⟨stop + x.gap.length, stop + x.width⟩ = x.spelling := by
  have hslice := (show Spells source stop ([x] ++ rest) from hs).slice (k := x.gap.length)
    (by simp [Lexeme.width])
  rw [sliceText, show x.width = widthOf [x] by simp, hslice]
  simp [Lexeme.chars, hx]

theorem readsLinked_literal {text : String} (hl : (node l (.literal text)).isLegible = true) :
    ReadsLinked source style (node l (.literal text)) := by
  intro d ctx b stop gap level rest hd ⟨hctx, hrest, hs⟩
  have htext : isLiteralText text = true := (isLegible_node.1 hl).1
  have hwritten : (node l (.literal text)).written style gap level = [literalLexeme gap text] := by
    rw [written_node]
    rfl
  rw [hwritten] at hs ⊢
  have hslice : sliceText source ⟨stop + gap.length, stop + (literalLexeme gap text).width⟩ =
    text :=
    sliceText_lexeme rfl hs
  have hspan : ((literalLexeme gap text).token stop).span =
      ⟨stop + gap.length, stop + (literalLexeme gap text).width⟩ := Lexeme.token_span stop rfl
  have hstep : step ctx (stand b stop (literalLexeme gap text :: rest)) = _ :=
    step_stand ⟨rfl, hrest⟩
  refine ⟨⟨⟨stop + gap.length, stop + (literalLexeme gap text).width⟩,
    .literal (isQuotedText text), []⟩, 0, Nat.zero_le _, ?_, by simp, ?_⟩
  · by_cases hquoted : isQuotedText text = true
    · have hkind : (literalLexeme gap text).kind = .quoted := by simp [literalLexeme, hquoted]
      simp [linked, primary, hkind, hstep, hspan, Phrase.leaf, hquoted]
    by_cases hnumber : isNumberText text = true
    · have hkind : (literalLexeme gap text).kind = .number := by
        simp [literalLexeme, hquoted, hnumber]
      simp [linked, primary, hkind, hstep, hspan, Phrase.leaf, hquoted]
    · have hword : text ∈ ["null", "true", "false"] := by
        simpa [isLiteralText, hquoted, hnumber] using htext
      have hlexeme : literalLexeme gap text = .word gap text := by
        simp [literalLexeme, hquoted, hnumber, Lexeme.word]
      simp only [List.mem_cons, List.not_mem_nil, or_false] at hword
      rw [hlexeme, Bool.eq_false_of_not_eq_true hquoted]
      rcases hword with rfl | rfl | rfl <;>
        simp [linked, primary, wordOperand, atFunction, Token.isAny,
          advance_stand, hrest, Phrase.leaf]
  · refine ⟨?_, rfl, rfl, by simp [isString], by simp, fun h => ?_⟩
    · refine .of_node (.literal text) (fun inside => ?_) rfl .nil
      change Edit.add (.literal (sliceText source ⟨_, _⟩)) = _
      rw [hslice]
      rfl
    · rw [isReceiver, fold_node] at h
      cases h

theorem readsLinked_this :
    ReadsLinked source style (node l (.verbatim thisCode)) := by
  intro d ctx b stop gap level rest hd ⟨hctx, hrest, hs⟩
  have hwritten : (node l (.verbatim thisCode)).written style gap level = [.word gap "this"] := by
    simp [written_node, Node.map, writeNode, thisCode, Verbatim.text, Piece.spelling, String.join]
  rw [hwritten] at hs ⊢
  have hslice : sliceText source ⟨stop + gap.length, stop + (Lexeme.word gap "this").width⟩ =
    "this" :=
    sliceText_lexeme rfl hs
  refine ⟨⟨⟨stop + gap.length, stop + (Lexeme.word gap "this").width⟩, .this, []⟩, 0,
    Nat.zero_le _, ?_, by simp, ?_⟩
  · simp [linked, primary, wordOperand, atFunction, advance_stand, hrest, Phrase.leaf]
  · refine ⟨?_, rfl, rfl, by simp, by simp, fun _ => rfl⟩
    refine .of_node (.verbatim thisCode) (fun inside => ?_) rfl .nil
    change Edit.add (.verbatim (verbatimCode source ⟨_, _⟩ [])) = _
    have hwidth : gap.length < (Lexeme.word gap "this").width := by
      simp [Lexeme.width, Lexeme.word]
      decide
    rw [show verbatimCode source ⟨stop + gap.length, stop + (Lexeme.word gap "this").width⟩ [] =
      thisCode by simp [verbatimCode, sortUses, cutPieces, textPiece, hslice, thisCode, hwidth]]
    rfl

end

theorem readsLinked_paren {l : Loc} {inner : Located}
    (hl : (node l (.paren inner)).isLegible = true)
    (h : ReadsValue source style inner) : ReadsLinked source style (node l (.paren inner)) := by
  intro d ctx b stop gap level rest hd ⟨hctx, hrest, hs⟩
  obtain ⟨hn, hkids⟩ := isLegible_node.1 hl
  have hinner : inner.isLegible = true := hkids inner (by simp [Node.children])
  have hheight : inner.height < (node l (.paren inner)).height :=
    height_lt_of_mem (by simp [Node.children])
  have hv : inner.isValue = true := by
    simp [fairNode] at hn
    exact hn.1.1
  have hwritten : (node l (.paren inner)).written style gap level =
      .sign gap "(" :: (inner.written style [] level ++ [Lexeme.sign [] ")"]) := by
    simp [written_node, Node.map, writeNode]
  rw [hwritten, List.cons_append, List.append_assoc, List.singleton_append] at hs ⊢
  have htakes : Takes source { ctx with allowIn := true, decorating := false }
      (grammar d (.assignment true)) ")" (inner.written style · level) (Says source inner) :=
    takes_of_yields hinner (by simp [isItem, hv]) ⟨hctx.bound, rfl, rfl⟩ (by simp)
      fun _ _ _ _ hsite hends hcolon => h (by omega) hsite hends fun _ => hcolon
  obtain ⟨q, hq, hstop, hsays⟩ := listed_one (b := b) htakes hctx.bound hs.tail
  have hready := htakes.ready hs.tail
  refine ⟨⟨⟨stop + gap.length, _⟩, .paren, [q]⟩, 0, Nat.zero_le _, ?_, rfl, ?_⟩
  · simp [linked, primary, parenthesized, expect_stand, hready, hq, hrest, hstop, Nat.add_assoc]
  · refine ⟨?_, rfl, rfl, by simp, by simp, fun h => ?_⟩
    · exact .of_node (.paren q) (fun _ => rfl) rfl (.cons hsays.builds .nil)
    · rw [isReceiver, fold_node] at h
      cases h

theorem forall₂_mem_right {α β : Type} {R : α → β → Prop} {as : List α} {bs : List β}
    (h : List.Forall₂ R as bs) {b : β} (hb : b ∈ bs) : ∃ a ∈ as, R a b := by
  induction h with
  | nil => cases hb
  | cons hr _ ih =>
    rcases List.mem_cons.1 hb with rfl | hb
    · exact ⟨_, List.mem_cons_self, hr⟩
    · obtain ⟨a, ha, hab⟩ := ih hb
      exact ⟨a, List.mem_cons_of_mem _ ha, hab⟩

theorem forall₂_builds {ts : List Located} {ps : List Phrase}
    (h : List.Forall₂ (Says source) ts ps) :
    List.Forall₂ (Builds source) ps ts := by
  induction h with
  | nil => exact .nil
  | cons hp _ ih => exact .cons hp.builds ih

/-- An item of an array literal, which may be missing. -/
def arrayItem (g : Grammar) : Parse Phrase := do
  if ← isAt "," then return .leaf ⟨← Parse.here, ← Parse.here⟩ .hole
  spreadable g

theorem arrayLiteral_eq (g : Grammar) : arrayLiteral g = (do
    let start ← Parse.here
    expect "["
    let (items, trailing) ← listed "]" (arrayItem g)
    expect "]"
    close start (.array trailing) items) := rfl

theorem Takes.arrayItem (h : Takes source ctx (spreadable (grammar d)) "]" (t.written style · level)
    (Says source t)) (hcomma : ∀ gap, ∃ x xs, t.written style gap level = x :: xs ∧
    ∀ stop, (x.token stop).is "," = false) :
    Takes source ctx (arrayItem (grammar d)) "]" (t.written style · level) (Says source t) where
  opens := h.opens
  reads b stop gap rest hrest hdelimits hs := by
    obtain ⟨p, hp, hrest⟩ := h.reads b stop gap rest hrest hdelimits hs
    refine ⟨p, ?_, hrest⟩
    obtain ⟨x, xs, hx, hno⟩ := hcomma gap
    have htoken : (stand b stop (t.written style gap level ++ rest)).token.is "," = false := by
      rw [hx]
      exact hno stop
    simp [Tree.arrayItem, htoken, hp]

theorem readsLinked_array {l : Loc} {items : List Located}
    (hl : (node l (.array items)).isLegible = true)
    (h : ∀ c ∈ items, ReadsItem source style c) : ReadsLinked source style
    (node l (.array items)) := by
  intro d ctx b stop gap level rest hd ⟨hctx, hrest, hs⟩
  obtain ⟨hn, hkids⟩ := isLegible_node.1 hl
  have hwritten : (node l (.array items)).written style gap level =
      .sign gap "[" :: (writeListed [] [' '] (items.map (written style))
        level ++ [Lexeme.sign [] "]"]) := by
    simp [written_node, Node.map, writeNode, writeBetween]
  have hitem : ∀ c ∈ items, Takes source ctx (arrayItem (grammar d)) "]" (c.written style · level)
    (Says source c) := by
    intro c hc
    have hitem : c.isItem = true := by
      simp only [fairNode, List.all_eq_true] at hn
      exact hn c hc
    have hheight : c.height < (node l (.array items)).height := height_lt_of_mem hc
    refine (takes_item (h c hc) (hkids c hc) hitem (by omega) hctx (by simp)).arrayItem fun gap =>
      ?_
    obtain ⟨x, xs, hx, -, -, hno⟩ := item_opens style (hkids c hc) hitem gap level
    exact ⟨x, xs, hx, hno "," (by simp)⟩
  rw [hwritten, List.cons_append, List.append_assoc, List.singleton_append] at hs ⊢
  obtain ⟨ps, e, hps, he, hall⟩ := listed_written (b := b) hitem hctx.bound (by simp) hs.tail
  have hready := Takes.ready_listed hitem hs.tail
  refine ⟨⟨⟨stop + gap.length, _⟩, .array false, ps⟩, 0, Nat.zero_le _, ?_, rfl, ?_⟩
  · simp [linked, primary, arrayLiteral_eq, expect_stand, hready, hps, hrest, he, Nat.add_assoc]
  · have hholes : ps.any (·.shape == .hole) = false := by
      simp only [List.any_eq_false, beq_iff_eq]
      intro p hp
      obtain ⟨c, -, hc⟩ := forall₂_mem_right hall hp
      exact hc.plain.1
    refine ⟨?_, rfl, rfl, by simp, by simp, fun h => ?_⟩
    · refine .of_node (.array ps) (fun inside => ?_) ?_ (forall₂_builds hall)
      · simp [buildNode, hholes, Node.mapM]
      · simp [Node.shape, Node.map, hall.length_eq]
    · rw [isReceiver, fold_node] at h
      cases h

section
variable {l : Loc} {object : Located} {property : String}

theorem linked_member {optional : Bool} (ht : t = node l (.member object property optional))
    (h : ReadsLinked source style object) (hd : 4 * t.height ≤ d)
    (hsite : Site source ctx stop (t.written style gap level) rest) :
    ∃ q k, k ≤ widthOf (t.written style gap level) ∧
      linked (grammar d) (stop + gap.length)
      ctx (stand b stop (t.written style gap level ++ rest)) =
        links (grammar d) (stop + gap.length) true (ctx.bound - k)
          ⟨⟨stop + gap.length, stop + widthOf (t.written style gap level)⟩,
            .member property optional, [q]⟩
          optional ctx (stand b (stop + widthOf (t.written style gap level)) rest) ∧
      Says source object q := by
  obtain ⟨hctx, hrest, hs⟩ := hsite
  have hheight : object.height < t.height := ht ▸ height_lt_of_mem (by simp [Node.children])
  have hwritten : t.written style gap level =
      object.written style gap level ++ [Lexeme.sign [] (if optional then "?." else "."), .word []
        property] := by
    simp [ht, written_node, Node.map, writeNode]
  rw [hwritten, List.append_assoc, List.cons_append, List.singleton_append] at hs ⊢
  have hword : Ready (.word [] property :: rest) := ⟨hs.append.tail.linked, rfl⟩
  have hsite : Site source ctx stop (object.written style gap level) _ :=
    ⟨hctx, ⟨hs.append.linked, rfl⟩, hs⟩
  obtain ⟨q, k, hk, hq, hspan, hsays⟩ := h (d := d) (b := b) (by omega) hsite
  refine ⟨q, k + 1, ?_, ?_, hsays⟩
  · have hone : 1 ≤ (Lexeme.sign [] (if optional then "?." else ".")).width := by
      cases optional <;> decide
    simp
    omega
  · rw [hq, hsite.fuel hk]
    cases optional <;> simp [links, link, advance_stand, hword, optionalLink, memberLink,
      propertyWord, step_stand,
      hrest, hspan, Token.isAny, Nat.add_assoc]

theorem readsLinked_member (h : ReadsLinked source style object) :
    ReadsLinked source style (node l (.member object property false)) := by
  intro d ctx b stop gap level rest hd hsite
  obtain ⟨q, k, hk, hq, hsays⟩ := linked_member (b := b) rfl h hd hsite
  refine ⟨_, k, hk, hq, rfl, ?_, rfl, rfl, by simp, by simp, fun h => ?_⟩
  · exact .of_node (.member q property false) (fun _ => rfl) rfl (.cons hsays.builds .nil)
  · rw [isReceiver_member] at h
    simp [isPlainReceiver, hsays.receiver (by simpa using h)]

theorem readsOptional_member (hreceiver : object.isReceiver = true)
    (h : ReadsLinked source style object) :
    ReadsOptional source style (node l (.member object property true)) := by
  intro _ _ _ heq d ctx b stop gap level rest hd hsite
  obtain ⟨rfl, rfl, rfl, -⟩ := by simpa using heq
  obtain ⟨q, k, hk, hq, hsays⟩ := linked_member (b := b) rfl h hd hsite
  exact ⟨q, k, hk, hq, hsays.builds, hsays.receiver hreceiver⟩

theorem ReadsValue.expression (h : ReadsValue source style t) (hd : 4 * t.height + 2 ≤ d)
    (hsite : Site source ctx stop (t.written style gap level) rest) (hends : Ends rest)
    (hcolon : ¬Colon rest) (hcomma : ∀ stop, (stand b stop rest).token.is "," = false) :
    Yields source style t (grammar d .expression) ctx b stop gap level rest := by
  obtain ⟨d, rfl⟩ : ∃ k, d = k + 1 := ⟨d - 1, by omega⟩
  obtain ⟨hctx, hrest, hs⟩ := hsite
  have hsuits : Suits source { ctx with decorating := false } := ⟨hctx.bound, hctx.allowIn, rfl⟩
  obtain ⟨p, hp, hspan, hsays⟩ :=
    h (d := d) (b := b) (y := true) (by omega) ⟨hsuits, hrest, hs⟩ hends fun _ => hcolon
  refine ⟨p, ?_, hspan, hsays⟩
  change expression (grammar d) _ _ = _
  simp only [expression, within_run, bind_run, here_run, Option.bind_some, hp]
  simp [many, hctx.bound, rounds, eat_of_false, hcomma]

theorem readsLinked_index {index : Located} (hl : (node l (.index object index)).isLegible = true)
    (h : ReadsLinked source style object) (hindex : ReadsValue source style index) :
    ReadsLinked source style (node l (.index object index)) := by
  intro d ctx b stop gap level rest hd ⟨hctx, hrest, hs⟩
  obtain ⟨hn, hkids⟩ := isLegible_node.1 hl
  have hobject : object.height < (node l (.index object index)).height :=
    height_lt_of_mem (by simp [Node.children])
  have hheight : index.height < (node l (.index object index)).height :=
    height_lt_of_mem (by simp [Node.children])
  have hv : 1 ≤ index.strength := by
    simp [fairNode, isValue] at hn
    exact hn.2
  have hwritten : (node l (.index object index)).written style gap level ++ rest =
      object.written style gap level ++ .sign [] "[" ::
        (index.written style [] level ++ .sign [] "]" :: rest) := by
    simp [written_node, Node.map, writeNode]
  rw [hwritten] at hs ⊢
  have hsite : Site source ctx stop (object.written style gap level) _ :=
    ⟨hctx, ⟨hs.append.linked, rfl⟩, hs⟩
  obtain ⟨q, k, hk, hq, hspan, hsays⟩ := h (d := d) (b := b) (by omega) hsite
  have hinside := (hsite.next hspan).tail
  have hready := ready_written (hkids index (by simp [Node.children])) (.inl hv) hinside.linked
  have hclose : Ready (.sign [] "]" :: rest) := ⟨hinside.append.linked, rfl⟩
  have hsuits : Suits source { ctx with allowIn := true } := ⟨hctx.bound, rfl, hctx.decorating⟩
  obtain ⟨r, hr, hrspan, hrsays⟩ := hindex.expression (d := d) (b := b) (by omega)
    ⟨hsuits, hclose, hinside⟩ (.inr ⟨[], "]", rest, rfl, by simp [closers]⟩)
    (by simp [Colon, Lexeme.sign]) (by simp)
  have hend : r.span.stop + (Lexeme.sign [] "]").width =
      stop + widthOf ((node l (.index object index)).written style gap level) := by
    simp [hrspan, hspan, written_node, Node.map, writeNode, Nat.add_assoc]
  refine ⟨⟨⟨stop + gap.length, _⟩, .index false, [q, r]⟩, k + 1, ?_, ?_, rfl, ?_⟩
  · have hone : (Lexeme.sign [] "[").width = 1 := rfl
    simp [written_node, Node.map, writeNode]
    omega
  · rw [hq, hsite.fuel hk]
    simp [links, link_bracket hctx.decorating, expect_stand, hready, indexLink, hr, hrest, hend]
  · refine ⟨?_, rfl, rfl, by simp, by simp, fun h => ?_⟩
    · exact .of_node (.index q r) (fun _ => rfl) rfl (.cons hsays.builds (.cons hrsays.builds .nil))
    · rw [isReceiver_index] at h
      simp [isPlainReceiver, hsays.receiver h]

section
variable {callee : Located} {args : List Located}

theorem written_call (style : Style) (l : Loc) (callee : Located) (args : List Located)
    (gap : List Char) (level : Nat) : (node l (.call callee args)).written style gap level =
      callee.written style gap level ++ writeBetween []
      "(" ")" (args.map (written style)) level := by
  rw [written_node]
  rfl

theorem arguments_written (hl : (node l (.call callee args)).isLegible = true)
    (hargs : ∀ c ∈ args, ReadsItem source style c)
    (hd : 4 * (node l (.call callee args)).height ≤ d)
    (hsite : Site source ctx stop (writeBetween [] "(" ")" (args.map (written style)) level) rest) :
    ∃ ps, arguments (grammar d)
    ctx (stand b stop (writeBetween [] "(" ")" (args.map (written style)) level ++ rest)) =
      some (ps, stand b (stop + widthOf (writeBetween [] "(" ")" (args.map (written style)) level))
        rest) ∧
      List.Forall₂ (Says source) args ps := by
  obtain ⟨hctx, hrest, hs⟩ := hsite
  obtain ⟨hn, hkids⟩ := isLegible_node.1 hl
  simp only [fairNode, Bool.and_eq_true, List.all_eq_true] at hn
  have hitem : ∀ c ∈ args, Takes source { ctx with decorating := false } (spreadable (grammar d))
      ")" (c.written style · level) (Says source c) := fun c hc => by
    have hmem : c ∈ (Node.call callee args).children := List.mem_cons_of_mem callee hc
    have hheight := height_lt_of_mem (l := l) hmem
    exact takes_item (hargs c hc) (hkids c hmem) (hn.2 c hc) (by omega)
      ⟨hctx.bound, hctx.allowIn, rfl⟩ (by simp)
  have hwritten : writeBetween [] "(" ")" (args.map (written style)) level ++ rest =
      .sign [] "(" :: (writeListed [] [' '] (args.map (written style)) level ++ .sign [] ")"
        :: rest) := by
    simp [writeBetween]
  rw [hwritten] at hs ⊢
  obtain ⟨ps, e, hps, he, hall⟩ := listed_written (b := b) hitem hctx.bound (by simp) hs.tail
  have hready := Takes.ready_listed hitem hs.tail
  have hend : e + (Lexeme.sign [] ")").width =
    stop + widthOf (writeBetween [] "(" ")" (args.map (written style)) level) := by
    simp [he, writeBetween]
    omega
  exact ⟨ps, by simp [arguments, expect_stand, hready, hps, hrest, hend], hall⟩

theorem opensArguments_written {args : List Writing}
    (hs : Spells source stop (writeBetween [] "(" ")" args level ++ rest)) :
    opensArguments source stop (stop + widthOf (writeBetween [] "(" ")" args level)) = true := by
  have hslice := hs.slice (k := 0) (Nat.zero_le _)
  rw [Nat.add_zero, List.drop_zero] at hslice
  rw [opensArguments, hslice]
  rfl

theorem readsLinked_call (hl : (node l (.call callee args)).isLegible = true)
    (h : ReadsLinked source style callee) (hargs : ∀ c ∈ args, ReadsItem source style c) :
    ReadsLinked source style (node l (.call callee args)) := by
  intro d ctx b stop gap level rest hd ⟨hctx, hrest, hs⟩
  have hcallee : callee.height < (node l (.call callee args)).height :=
    height_lt_of_mem List.mem_cons_self
  rw [written_call, List.append_assoc] at hs ⊢
  have hsite : Site source ctx stop (callee.written style gap level) _ :=
    ⟨hctx, ⟨hs.append.linked, rfl⟩, hs⟩
  obtain ⟨q, k, hk, hq, hspan, hsays⟩ := h (d := d) (b := b) (by omega) hsite
  have hnext := hsite.next hspan
  obtain ⟨ps, hps, hall⟩ := arguments_written (d := d) (b := b) hl hargs hd ⟨hctx, hrest, hnext⟩
  have hend : q.span.stop + widthOf (writeBetween [] "(" ")" (args.map (written style)) level) =
      stop + widthOf (callee.written style gap level ++ writeBetween []
        "(" ")" (args.map (written style)) level) := by
    rw [hspan, widthOf_append, Nat.add_assoc]
  refine ⟨⟨⟨stop + gap.length, _⟩, .call false, q :: ps⟩, k + 1, ?_, ?_, rfl, ?_⟩
  · have hone : (Lexeme.sign [] "(").width = 1 := rfl
    simp [writeBetween]
    omega
  · have htoken : (stand b q.span.stop (writeBetween [] "(" ")" (args.map (written style))
      level ++ rest)).token = (Lexeme.sign [] "(").token q.span.stop := rfl
    rw [hq, hsite.fuel hk]
    simp [links, link, htoken, callLink, hps, hend, Token.isAny, hsays.plain]
  · have hopens := opensArguments_written hnext
    rw [hend] at hopens
    refine ⟨?_, rfl, rfl, by simp, by simp, fun h => ?_⟩
    · refine .of_node (.call q ps) (fun inside => ?_) ?_ (.cons hsays.builds (forall₂_builds hall))
      · simp only [buildNode, hopens, if_true]
        simp [Node.mapM]
      · simp [Node.shape, Node.map, hall.length_eq]
    · rw [isReceiver, fold_node] at h
      cases h

end

end

end
end JsxLoops.Tree
