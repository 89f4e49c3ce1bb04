import JsxLoops.Proofs.Building
import JsxLoops.Proofs.Scopes
import JsxLoops.Proofs.Values

/-!
Printing and parsing. What is printed for a legible formula is parsed as the same formula, in both
styles of printing. Where two signs of one number follow each other, they run together, and the text
is parsed as something else.
-/

namespace JsxLoops.Tree

open Located JsxLoops.Surface Parse

/-! ### Reading -/

theorem two_le_strength_of_fairOperands {op : String} {left right : Located}
    (hpos : 0 < operatorLevel op) (h : fairOperands op left right = true) :
    2 ≤ left.strength ∧ 2 ≤ right.strength := by
  rw [fairOperands] at h
  split at h <;> simp at h <;> omega

theorem strength_of_fairEntry {e : Entry Located} (he : fairEntry e = true) {c : Located}
    (hc : c ∈ e.children) : 1 ≤ c.strength := by
  cases e with
  | spread value =>
    obtain rfl : c = value := by simpa using hc
    simpa [fairEntry, isValue] using he
  | pair key value short =>
    simp only [fairEntry, Bool.and_eq_true] at he
    cases key with
    | computed key =>
      have hboth : c = key ∨ c = value := by simpa using hc
      rcases hboth with rfl | rfl
      · simpa [fairKey, isValue] using he.1.1
      · simpa [isValue] using he.1.2
    | _ =>
      obtain rfl : c = value := by simpa using hc
      simpa [isValue] using he.1.2

/-- The tree is read by every rule that its place may ask for. -/
structure Reads (source : List Char) (style : Style) (t : Located) : Prop where
  linked : t.strength = 15 → ReadsLinked source style t
  operators : 2 ≤ t.strength → ReadsOperators source style t
  operand : 14 ≤ t.strength → ReadsOperand source style t
  value : 1 ≤ t.strength → ReadsValue source style t
  optional : t.isOptional = true → ReadsOptional source style t
  item : t.isItem = true → ReadsItem source style t

namespace Reads

variable {source : List Char} {style : Style} {t : Located}

theorem strength_of_isOptional (h : t.isOptional = true) : t.strength = 0 := by
  obtain ⟨l, n⟩ := t
  cases n with
  | member object property optional =>
    obtain rfl : optional = true := h
    rfl
  | _ => cases h

theorem of_value (hl : t.isLegible = true) (hv : t.strength = 1) (h : ReadsValue source style t) :
    Reads source style t where
  linked h := by omega
  operators h := by omega
  operand h := by omega
  value _ := h
  optional h := by
    have := strength_of_isOptional h
    omega
  item _ := readsItem_value hl (by omega) h

theorem of_operators (hl : t.isLegible = true) (hv : 2 ≤ t.strength)
    (hlow : t.strength ≤ 13) (h : ReadsOperators source style t) : Reads source style t where
  linked h := by omega
  operators _ := h
  operand h := by omega
  value _ := readsValue_of_operators hl hv h
  optional h := by
    have := strength_of_isOptional h
    omega
  item _ := readsItem_value hl (by omega) (readsValue_of_operators hl hv h)

theorem of_operand (hl : t.isLegible = true) (hv : t.strength = 14)
    (h : ReadsOperand source style t) : Reads source style t where
  linked h := by omega
  operators _ := h.operators
  operand _ := h
  value _ := readsValue_of_operators hl (by omega) h.operators
  optional h := by
    have := strength_of_isOptional h
    omega
  item _ := readsItem_value hl (by omega) (readsValue_of_operators hl (by omega) h.operators)

theorem of_linked (hl : t.isLegible = true) (hv : t.strength = 15)
    (h : ReadsLinked source style t) : Reads source style t :=
  have hoperand := readsOperand_of_linked hl hv h
  { linked := fun _ => h
    operators := fun _ => hoperand.operators
    operand := fun _ => hoperand
    value := fun _ => readsValue_of_operators hl (by omega) hoperand.operators
    optional := fun h => by
      have := strength_of_isOptional h
      omega
    item := fun _ =>
      readsItem_value hl (by omega) (readsValue_of_operators hl (by omega) hoperand.operators) }

theorem of_no_value (hv : t.strength = 0)
    (hoptional : t.isOptional = true → ReadsOptional source style t)
    (hitem : t.isItem = true → ReadsItem source style t) : Reads source style t where
  linked h := by omega
  operators h := by omega
  operand h := by omega
  value h := by omega
  optional := hoptional
  item := hitem

end Reads

/-! ### Legible formulas -/

/-- The nodes of legible formulas, with what each kind asks of its children. -/
inductive Formed : Node Located → Prop
  | name {text : String} (hn : fairNode (.name text) = true) : Formed (.name text)
  | literal {text : String} (hn : fairNode (.literal text) = true) : Formed (.literal text)
  | this : Formed (.verbatim thisCode)
  | member {object : Located} {property : String} {optional : Bool}
      (hn : fairNode (.member object property optional) = true) (hobject : object.strength = 15) :
      Formed (.member object property optional)
  | index {object index : Located} (hobject : object.strength = 15) (hindex : 1 ≤ index.strength) :
      Formed (.index object index)
  | call {callee : Located} {args : List Located}
      (hcallee : callee.strength = 15 ∨ callee.isOptional = true)
      (hargs : ∀ c ∈ args, c.isItem = true) : Formed (.call callee args)
  | object {entries : List (Entry Located)} (hn : ∀ e ∈ entries, fairEntry e = true) :
      Formed (.object entries)
  | array {items : List Located} (hitems : ∀ c ∈ items, c.isItem = true) : Formed (.array items)
  | paren {inner : Located} (hinner : 1 ≤ inner.strength) : Formed (.paren inner)
  | spread {inner : Located} (hinner : 1 ≤ inner.strength) : Formed (.spread inner)
  | unary {op : String} {argument : Located} (hn : fairNode (.unary op argument) = true)
      (hop : op ∈ unaryOperators) (hargument : 14 ≤ argument.strength) : Formed (.unary op argument)
  | operation {n : Node Located} {op : String} {left right : Located}
      (hn : n = .binary op left right ∨ n = .logical op left right) (hop : op ∈ operatorSigns)
      (hoperands : fairOperands op left right = true) : Formed n
  | conditional {test yes no : Located} (htest : 2 ≤ test.strength) (hyes : 1 ≤ yes.strength)
      (hno : 1 ≤ no.strength) : Formed (.conditional test yes no)

theorem isItem_of_strength {c : Located} (h : 1 ≤ c.strength) : c.isItem = true := by
  simp [isItem, isValue, h]

theorem Formed.of_fair {n : Node Located} (hn : fairNode n = true) : Formed n := by
  cases n with
  | name text => exact .name hn
  | literal text => exact .literal hn
  | verbatim code =>
    obtain rfl : code = thisCode := by simpa [fairNode] using hn
    exact .this
  | member object property optional =>
    refine .member hn ?_
    simp [fairNode] at hn
    exact hn.1.1.1
  | index object index =>
    simp only [fairNode, Bool.and_eq_true, beq_iff_eq, isValue, decide_eq_true_eq] at hn
    exact .index hn.1 hn.2
  | call callee args =>
    simp only [fairNode, Bool.and_eq_true, Bool.or_eq_true, beq_iff_eq, List.all_eq_true] at hn
    exact .call hn.1 hn.2
  | object entries => exact .object (by simpa [fairNode] using hn)
  | array items => exact .array (by simpa [fairNode] using hn)
  | paren inner =>
    simp only [fairNode, Bool.and_eq_true, isValue, decide_eq_true_eq] at hn
    exact .paren hn.1.1
  | spread inner => exact .spread (by simpa [fairNode, isValue] using hn)
  | unary op argument =>
    have hparts := hn
    simp [fairNode] at hparts
    exact .unary hn hparts.1.1 hparts.1.2
  | binary op left right =>
    simp only [fairNode, Bool.and_eq_true, List.contains_eq_mem, decide_eq_true_eq] at hn
    exact .operation (.inl rfl) (List.mem_append_right _ hn.1) hn.2
  | logical op left right =>
    simp only [fairNode, Bool.and_eq_true, List.contains_eq_mem, decide_eq_true_eq] at hn
    exact .operation (.inr rfl) (List.mem_append_left _ hn.1.1) hn.1.2
  | conditional test yes no =>
    simp only [fairNode, Bool.and_eq_true, decide_eq_true_eq, isValue] at hn
    exact .conditional hn.1.1.1 hn.1.1.2 hn.1.2
  | _ => cases hn

theorem induct_formula {P : Located → Prop} {t : Located} (hl : t.isLegible = true)
    (step : ∀ l n, (node l n).isLegible = true → Formed n → (∀ c ∈ n.children, P c) →
      P (node l n)) : P t := by
  induction t using induct with
  | node l n ih =>
    obtain ⟨hn, hkids⟩ := isLegible_node.1 hl
    exact step l n hl (.of_fair hn) fun c hc => ih c hc (hkids c hc)

theorem reads_formula {t : Located} (source : List Char) (style : Style) (hl : t.isLegible = true) :
    Reads source style t := by
  refine induct_formula hl fun l n hl hformed hread => ?_
  cases hformed with
  | name => exact .of_linked hl rfl (readsLinked_name hl)
  | literal => exact .of_linked hl rfl (readsLinked_literal hl)
  | this => exact .of_linked hl rfl readsLinked_this
  | @member object property optional hn hobject =>
    have hlinked := (hread object (.head _)).linked hobject
    cases optional with
    | false => exact .of_linked hl rfl (readsLinked_member hlinked)
    | true =>
      have hreceiver : object.isReceiver = true := by
        simp [fairNode] at hn
        exact hn.2
      exact .of_no_value rfl (fun _ => readsOptional_member hreceiver hlinked) (fun h => by cases h)
  | @index object index hobject hindex =>
    exact .of_linked hl rfl (readsLinked_index hl ((hread object (.head _)).linked hobject)
      ((hread index (.tail _ (.head _))).value hindex))
  | @call callee args hcallee hargs =>
    have hitems : ∀ c ∈ args, ReadsItem source style c := fun c hc =>
      (hread c (.tail _ hc)).item (hargs c hc)
    have hreads := hread callee (.head _)
    by_cases hoptional : callee.isOptional = true
    · obtain ⟨k, m⟩ := callee
      cases m with
      | member object property optional =>
        obtain rfl : optional = true := hoptional
        exact .of_operand hl rfl (readsOperand_chain rfl hl (hreads.optional rfl) hitems)
      | _ => cases hoptional
    · refine .of_linked hl (by simp [strength, hoptional]) ?_
      exact readsLinked_call hl (hreads.linked (hcallee.resolve_right hoptional)) hitems
  | object =>
    refine .of_linked hl rfl (readsLinked_object hl fun c hc hv => ?_)
    exact (hread c hc).value (by simpa [isValue] using hv)
  | array hitems =>
    exact .of_linked hl rfl (readsLinked_array hl fun c hc => (hread c hc).item (hitems c hc))
  | @paren inner hinner =>
    exact .of_linked hl rfl (readsLinked_paren hl ((hread inner (.head _)).value hinner))
  | @spread inner hinner =>
    exact .of_no_value rfl (fun h => by cases h) fun _ =>
      readsItem_spread hl ((hread inner (.head _)).value hinner)
  | @unary op argument _ _ hargument =>
    exact .of_operand hl rfl
      (readsOperand_unary hl ((hread argument (.head _)).operand hargument))
  | @operation _ op left right hn hop hoperands =>
    obtain ⟨-, hpos, -⟩ := operatorToken_facts hop 0
    have hle := operatorLevel_le op
    have hsides := two_le_strength_of_fairOperands hpos hoperands
    have hstrength : (node l n).strength = operatorLevel op + 1 := by
      rcases hn with rfl | rfl <;> rfl
    have hchildren : n.children = [left, right] := by rcases hn with rfl | rfl <;> rfl
    rw [hchildren] at hread
    refine .of_operators hl (by omega) (by omega) ?_
    exact readsOperators_operation hn hl hop hoperands
      ((hread left (.head _)).operators hsides.1)
      ((hread right (.tail _ (.head _))).operators hsides.2)
  | @conditional test yes no htest hyes hno =>
    exact .of_value hl rfl (readsValue_conditional hl ((hread test (.head _)).operators htest)
      ((hread yes (.tail _ (.head _))).value hyes)
      ((hread no (.tail _ (.tail _ (.head _)))).value hno))

/-! ### Scanning -/

theorem links_formula {t : Located} (style : Style) (hl : t.isLegible = true) :
    Links style t := by
  refine induct_formula hl fun l n hl hformed hlink => ?_
  have hkids := (isLegible_node.1 hl).2
  cases hformed with
  | name hn => exact links_name hn
  | literal hn => exact links_literal hn
  | this => exact links_this
  | member hn => exact links_member hn (hlink _ (.head _))
  | index => exact links_index (hlink _ (.head _)) (hlink _ (.tail _ (.head _)))
  | call => exact links_call (hlink _ (.head _)) fun c hc => hlink c (.tail _ hc)
  | object hn => exact links_object (List.all_eq_true.2 hn) hlink
  | array => exact links_array hlink
  | paren => exact links_paren (hlink _ (.head _))
  | spread => exact links_spread (hlink _ (.head _))
  | unary hn => exact links_unary hn (hkids _ (.head _)) (hlink _ (.head _))
  | @operation _ op left right hn hop hoperands =>
    have hchildren : n.children = [left, right] := by rcases hn with rfl | rfl <;> rfl
    rw [hchildren] at hlink hkids
    exact links_operation hn hop (hkids right (.tail _ (.head _)))
      (one_le_strength_of_fairOperands hoperands).2 (hlink left (.head _))
      (hlink right (.tail _ (.head _)))
  | conditional _ hyes =>
    exact links_conditional (hkids _ (.tail _ (.head _))) hyes (hlink _ (.head _))
      (hlink _ (.tail _ (.head _))) (hlink _ (.tail _ (.tail _ (.head _))))

/-! ### Printing -/

def Prints (style : Style) (t : Located) : Prop :=
  ∀ gap level, charsOf (t.written style gap level) = gap ++ ((t.shown style).text level).toList

theorem text_node (style : Style) (l : Loc) (n : Node Located) (level : Nat) :
    ((node l n).shown style).text level = printNode style (n.map (shown style)) level := by
  rw [shown, fold_node]
  rfl

theorem charsOf_listed {α : Type} {w : α → Writing} {p : α → String} {level : Nat}
    (first others : List Char) {items : List α} (hne : items ≠ [])
    (h : ∀ a ∈ items, ∀ gap, charsOf (w a gap level) = gap ++ (p a).toList) :
    charsOf (writeListed first others (items.map w) level) =
      first ++ List.intercalate (',' :: others) (items.map fun a => (p a).toList) := by
  cases items with
  | nil => exact absurd rfl hne
  | cons a items =>
    have hcomma : (Lexeme.sign [] ",").chars = [','] := rfl
    rw [List.map_cons, writeListed, charsOf_append, h a List.mem_cons_self, List.append_assoc]
    congr 1
    have hmore : ∀ (items : List α) (a : α), (∀ b ∈ items, ∀ gap, charsOf (w b gap level) =
      gap ++ (p b).toList) →
        (p a).toList ++ charsOf ((items.map w).flatMap fun v => .sign [] "," :: v others level) =
          List.intercalate (',' :: others) ((a :: items).map fun a => (p a).toList) := by
      intro items
      induction items with
      | nil =>
        intro a _
        simp
      | cons b items ih =>
        intro a hb
        have htail := ih b fun c hc => hb c (List.mem_cons_of_mem b hc)
        simp only [List.map_cons] at htail ⊢
        rw [List.intercalate_cons_cons, ← htail, List.flatMap_cons, charsOf_append,
          charsOf_cons, hcomma,
          hb b List.mem_cons_self]
        simp
    exact hmore items a fun b hb => h b (List.mem_cons_of_mem a hb)

theorem charsOf_items {style : Style} {items : List Located} (h : ∀ c ∈ items, Prints style c)
    (level : Nat) :
    charsOf (writeListed [] [' '] (items.map (written style)) level) =
      (", ".intercalate ((items.map (shown style)).map (·.text level))).toList := by
  cases items with
  | nil => rfl
  | cons c items =>
    have hprints (c' : Located) (hc : c' ∈ c :: items) (gap : List Char) := h c' hc gap level
    rw [charsOf_listed [] [' '] (by simp) hprints, String.toList_intercalate]
    simp [Function.comp_def]

theorem toList_braced (style : Style) {lines : List Printed} (hne : lines ≠ []) (level : Nat) :
    (style.braced "," lines level).toList =
      '\x7b' :: (style.gap (style.inner level) ++
        (List.intercalate (',' :: style.gap (style.inner level))
          (lines.map fun p => (p (style.inner level)).toList) ++
          (style.gap level ++ ['\x7d']))) := by
  cases lines with
  | nil => exact absurd rfl hne
  | cons p ps =>
    cases style <;>
      simp [Style.braced, Style.gap, Style.inner, Style.lineBreak, String.toList_intercalate,
        Function.comp_def]

theorem prints_entry {style : Style} {e : Entry Located} (he : fairEntry e = true)
    (h : ∀ c ∈ e.children, Prints style c) (gap : List Char) (level : Nat) :
    charsOf (writeEntry (e.map (written style)) gap level) =
      gap ++ (printEntry (e.map (shown style)) level).toList := by
  cases e with
  | spread value =>
    have hvalue := h value (by simp) [] level
    simp [Entry.map, writeEntry, printEntry, hvalue, Lexeme.chars, Lexeme.sign]
  | pair key value short =>
    have hvalue := h value (by simp) [' '] level
    simp only [fairEntry, Bool.and_eq_true] at he
    cases short with
    | true =>
      obtain ⟨l, n⟩ := value
      cases key with
      | name name =>
        cases n with
        | name used =>
          obtain ⟨-, rfl⟩ : isNameText name = true ∧ used = name := by simpa using he.2
          have hname : ((node l (.name used)).shown style).name? = some used := by
            rw [shown, fold_node]
            rfl
          simp [Entry.map, Key.map, writeEntry, writeKey, printEntry, hname,
            Lexeme.chars, Lexeme.word]
        | _ => simp at he
      | _ => simp at he
    | false =>
      cases key with
      | name name =>
        simp [Entry.map, Key.map, writeEntry, writeKey, printEntry, printKey, hvalue, Lexeme.chars,
          Lexeme.word, Lexeme.sign]
      | literal text =>
        simp [Entry.map, Key.map, writeEntry, writeKey, printEntry, printKey, hvalue, Lexeme.chars,
          literalLexeme, Lexeme.sign]
      | computed key =>
        have hkey := h key (by simp) [] level
        simp [Entry.map, Key.map, writeEntry, writeKey, printEntry, printKey, hvalue, hkey,
          Lexeme.chars, Lexeme.sign]

theorem chars_operatorLexeme (op : String) : (operatorLexeme op).chars = ' ' :: op.toList := by
  unfold operatorLexeme
  split
  case h_1 tail heq =>
    have hone : ">".toList = ['>'] := rfl
    simp [Lexeme.chars, heq, hone]
  case h_2 => split <;> simp [Lexeme.chars, Lexeme.word, Lexeme.sign]

theorem prints_formula {t : Located} (style : Style) (hl : t.isLegible = true) :
    Prints style t := by
  refine induct_formula hl fun l n _ hformed hprint gap level => ?_
  rw [written_node, text_node]
  cases hformed with
  | name | this => simp [Node.map, writeNode, printNode, Lexeme.chars, Lexeme.word]
  | literal => simp [Node.map, writeNode, printNode, Lexeme.chars, literalLexeme]
  | @member object property optional =>
    have hobject := hprint object (.head _) gap level
    cases optional <;>
      simp [Node.map, writeNode, printNode, hobject, Lexeme.chars, Lexeme.sign, Lexeme.word]
  | @index object index =>
    have hobject := hprint object (.head _) gap level
    have hindex := hprint index (.tail _ (.head _)) [] level
    simp [Node.map, writeNode, printNode, hobject, hindex, Lexeme.chars, Lexeme.sign]
  | @call callee args =>
    have hcallee := hprint callee (.head _) gap level
    have hargs := charsOf_items (fun c hc => hprint c (.tail _ hc)) level
    simp [Node.map, writeNode, printNode, writeBetween, hcallee, hargs, Lexeme.chars, Lexeme.sign]
  | @object entries hn =>
    cases entries with
    | nil =>
      cases style <;>
        simp [Node.map, writeNode, writeObject, printNode, Style.braced, Lexeme.chars, Lexeme.sign]
    | cons e es =>
      have hlisted : charsOf (writeListed (style.gap (style.inner level))
          (style.gap (style.inner level))
          (((e :: es).map (Entry.map (written style))).map writeEntry)
          (style.inner level)) = style.gap (style.inner level) ++
          List.intercalate (',' :: style.gap (style.inner level)) ((e :: es).map fun e' =>
            (printEntry (e'.map (shown style)) (style.inner level)).toList) := by
        rw [List.map_map]
        exact charsOf_listed _ _ (by simp) fun e' he' gap => prints_entry (hn e' he')
          (fun c hc => hprint c (List.mem_flatMap.2 ⟨e', he', hc⟩)) gap _
      have hbraced : (style.braced "," (((e :: es).map (Entry.map (shown style))).map printEntry)
          level).toList = _ := toList_braced style (by simp) level
      change charsOf (.sign gap "\x7b" :: writeListed (style.gap (style.inner level))
        (style.gap (style.inner level)) (((e :: es).map (Entry.map (written style))).map writeEntry)
        (style.inner level) ++ [Lexeme.sign (style.gap level) "\x7d"]) =
        gap ++ (style.braced "," (((e :: es).map (Entry.map (shown style))).map
          printEntry) level).toList
      rw [hbraced, charsOf_append, charsOf_cons, hlisted]
      simp [Lexeme.chars, Lexeme.sign, Function.comp_def]
  | @array items =>
    have hitems := charsOf_items (fun c (hc : c ∈ items) => hprint c hc) level
    simp [Node.map, writeNode, printNode, writeBetween, hitems, Lexeme.chars, Lexeme.sign]
  | @paren inner | @spread inner =>
    have hinner := hprint inner (.head _) [] level
    simp [Node.map, writeNode, printNode, hinner, Lexeme.chars, Lexeme.sign]
  | @unary op argument =>
    have hargument := hprint argument (.head _)
    by_cases hword : op.toList.all Char.isAlpha = true
    · simp [Node.map, writeNode, printNode, unaryLexeme, hword, hargument [' '] level, Lexeme.chars,
        Lexeme.word]
    · simp [Node.map, writeNode, printNode, unaryLexeme, hword, hargument [] level, Lexeme.chars,
        Lexeme.sign]
  | @operation _ op left right hn =>
    rcases hn with rfl | rfl
    all_goals
      have hleft := hprint left (.head _) gap level
      have hright := hprint right (.tail _ (.head _)) [' '] level
      simp [Node.map, writeNode, printNode, hleft, hright, chars_operatorLexeme]
  | @conditional test yes no =>
    have htest := hprint test (.head _) gap level
    have hyes := hprint yes (.tail _ (.head _)) [' '] level
    have hno := hprint no (.tail _ (.tail _ (.head _))) [' '] level
    simp [Node.map, writeNode, printNode, htest, hyes, hno, Lexeme.chars, Lexeme.sign]

/-! ### Depth -/

theorem width_le_listed (first others : List Char) (level : Nat) {w : Writing} {ws : List Writing}
    (h : w ∈ ws) : ∃ gap, widthOf (w gap level) ≤ widthOf (writeListed first others ws level) := by
  cases ws with
  | nil => cases h
  | cons v ws =>
    rw [writeListed, widthOf_append]
    rcases List.mem_cons.1 h with rfl | h
    · exact ⟨first, by omega⟩
    · refine ⟨others, ?_⟩
      obtain ⟨as, bs, rfl⟩ := List.append_of_mem h
      simp
      omega

theorem width_sign (gap : List Char) (s : String) : (Lexeme.sign gap s).width =
    gap.length + s.length := by
  simp [Lexeme.width, Lexeme.sign]

theorem length_pos_of_ne {text : String} (h : text ≠ "") : 1 ≤ text.length := by
  by_contra hlength
  have hnil : text.toList = [] := by
    rw [← List.length_eq_zero_iff, String.length_toList]
    omega
  exact h (String.toList_inj.1 (by simpa using hnil))

theorem width_le_entry (style : Style) {e : Entry Located} (he : fairEntry e = true) {c : Located}
    (hc : c ∈ e.children) (g : List Char) (level : Nat) : ∃ gap,
    widthOf (c.written style gap level) ≤ widthOf (writeEntry (e.map (written style)) g level) := by
  cases e with
  | spread value =>
    obtain rfl : c = value := by simpa using hc
    exact ⟨[], by simp [Entry.map, writeEntry]⟩
  | pair key value short =>
    simp only [fairEntry, Bool.and_eq_true] at he
    cases short with
    | true =>
      obtain ⟨l, n⟩ := value
      cases key with
      | name name =>
        cases n with
        | name used =>
          obtain ⟨-, rfl⟩ : isNameText name = true ∧ used = name := by simpa using he.2
          obtain rfl : c = node l (.name used) := by simpa using hc
          exact ⟨g, by rw [written_node]; exact le_rfl⟩
        | _ => simp at he
      | _ => simp at he
    | false =>
      cases key with
      | computed key =>
        have hboth : c = key ∨ c = value := by simpa using hc
        rcases hboth with rfl | rfl
        · exact ⟨[], by simp [Entry.map, Key.map, writeEntry, writeKey]; omega⟩
        · exact ⟨[' '], by simp [Entry.map, writeEntry]; omega⟩
      | _ =>
        obtain rfl : c = value := by simpa using hc
        exact ⟨[' '], by simp [Entry.map, writeEntry]; omega⟩

theorem height_le_width {t : Located} (style : Style) (hl : t.isLegible = true) :
    ∀ gap level, t.height ≤ widthOf (t.written style gap level) + 1 := by
  refine induct_formula (P := fun t => ∀ gap level, t.height ≤ widthOf
    (t.written style gap level) + 1)
    hl fun l n _ hformed hheight gap level => ?_
  rw [height_le_succ_iff, written_node]
  have hone : "(".length = 1 ∧ ")".length = 1 ∧ "[".length = 1 ∧ "]".length = 1 ∧ ".".length = 1 ∧
    "?.".length = 2 ∧ "...".length = 3 ∧ "?".length = 1 ∧ ":".length = 1 ∧ "\x7b".length = 1 :=
    ⟨rfl, rfl, rfl, rfl, rfl, rfl, rfl, rfl, rfl, rfl⟩
  have hlisted {items : List Located} {c : Located} (hc : c ∈ items) (hitem : c ∈ n.children) :
      c.height ≤ widthOf (writeListed [] [' '] (items.map (written style)) level) + 1 := by
    obtain ⟨g, hg⟩ := width_le_listed [] [' '] level (List.mem_map_of_mem (f := written style) hc)
    have := hheight c hitem g level
    omega
  cases hformed with
  | name | literal | this => simp [Node.children]
  | @member object property optional =>
    have hobject := hheight object (.head _) gap level
    cases optional <;> simp [Node.map, writeNode, Node.children, width_sign, hone] <;> omega
  | @index object index =>
    have hobject := hheight object (.head _) gap level
    have hindex := hheight index (.tail _ (.head _)) [] level
    simp [Node.map, writeNode, Node.children, width_sign, hone]
    omega
  | @call callee args =>
    have hcallee := hheight callee (.head _) gap level
    simp only [Node.map, writeNode, Node.children, writeBetween, List.forall_mem_cons,
      widthOf_append,
      widthOf_cons, width_sign, hone]
    refine ⟨by omega, fun c hc => ?_⟩
    have := hlisted hc (.tail _ hc)
    omega
  | @object entries hn =>
    intro c hc
    obtain ⟨e, he, hce⟩ := List.mem_flatMap.1 hc
    obtain ⟨g, hg⟩ := width_le_listed (style.gap (style.inner level))
      (style.gap (style.inner level)) (style.inner level)
      (List.mem_map_of_mem (f := writeEntry)
        (List.mem_map_of_mem (f := Entry.map (written style)) he))
    obtain ⟨g', hg'⟩ := width_le_entry style (hn e he) hce g (style.inner level)
    have := hheight c hc g' (style.inner level)
    cases entries with
    | nil => cases he
    | cons e es =>
      change _ ≤ widthOf (.sign gap "\x7b" :: writeListed _ _ (((e :: es).map _).map writeEntry)
        _ ++ _)
      rw [widthOf_append, widthOf_cons, width_sign, hone.2.2.2.2.2.2.2.2.2]
      omega
  | @array items =>
    intro c hc
    have := hlisted (show c ∈ items from hc) hc
    simp only [Node.map, writeNode, writeBetween, widthOf_append, widthOf_cons, width_sign, hone]
    omega
  | @paren inner | @spread inner =>
    have hinner := hheight inner (.head _) [] level
    simp [Node.map, writeNode, Node.children, width_sign, hone]
    omega
  | @unary op argument _ hop =>
    have : 1 ≤ op.length := length_pos_of_ne (by rintro rfl; exact absurd hop (by decide))
    have hargument := hheight argument (.head _)
      (if op.toList.all Char.isAlpha then [' '] else []) level
    have hwidth : (unaryLexeme gap op).width = gap.length + op.length := by
      unfold unaryLexeme
      split <;> simp [Lexeme.width, Lexeme.word, Lexeme.sign]
    simp only [Node.map, writeNode, Node.children, widthOf_cons, hwidth, List.forall_mem_singleton]
    omega
  | @operation _ op left right hn =>
    rcases hn with rfl | rfl
    all_goals
      have hleft := hheight left (.head _) gap level
      have hright := hheight right (.tail _ (.head _)) [' '] level
      simp [Node.map, writeNode, Node.children, width_operatorLexeme]
      omega
  | @conditional test yes no =>
    have htest := hheight test (.head _) gap level
    have hyes := hheight yes (.tail _ (.head _)) [' '] level
    have hno := hheight no (.tail _ (.tail _ (.head _))) [' '] level
    simp [Node.map, writeNode, Node.children, width_sign, hone]
    omega

/-! ### Parsing what is printed -/

theorem startState_eq {xs : List Lexeme} (h : Ready xs) : startState 0 (charsOf xs) =
    stand true 0 xs := by
  have hscan : scan 0 (charsOf xs) = ⟨(stand true 0 xs).token, (stand true 0 xs).rest, true⟩ :=
    scan_charsOf h.linked h.starts
  simp only [startState, hscan]
  rfl

theorem readExpression_print {t : Located} (style : Style) (hl : t.isLegible = true)
    (hv : 1 ≤ t.strength) :
    ∃ p, readExpression ((t.shown style).text 0).toList = some p ∧
      Builds ((t.shown style).text 0).toList p t ∧
      t.height ≤ depthFor ((t.shown style).text 0).toList := by
  have hchars : charsOf (t.written style [] 0) = ((t.shown style).text 0).toList := by
    simpa using prints_formula style hl [] 0
  have hlinked : Linked (t.written style [] 0 ++ []) :=
    links_formula style hl rfl trivial (.of_edge (by simp [EndsNumber]))
  have hwidth := height_le_width style hl [] 0
  have hlength : ((t.shown style).text 0).toList.length = widthOf (t.written style [] 0) := by
    rw [← hchars, length_charsOf]
  generalize hsource : ((t.shown style).text 0).toList = source at hchars hlength ⊢
  have hspells : Spells source 0 (t.written style [] 0 ++ []) :=
    ⟨by rw [List.drop_zero, List.append_nil, hchars], hlinked⟩
  have hsite : Site source (topContext source) 0 (t.written style [] 0) [] :=
    ⟨⟨rfl, rfl, rfl⟩, ⟨trivial, trivial⟩, hspells⟩
  have hdepth : 4 * t.height + 2 ≤ depthFor source := by
    rw [depthFor, hlength]
    omega
  have hvalue := (reads_formula source style hl).value hv
  obtain ⟨p, hp, -, hsays⟩ := hvalue.expression (b := true) hdepth hsite (.inl rfl)
    (by rintro ⟨g, xs, h⟩; cases h) (fun _ => rfl)
  have hready : Ready (t.written style [] 0 ++ []) := ready_written hl (.inl hv) hspells.linked
  refine ⟨p, ?_, hsays.builds, by omega⟩
  have hstart : startState 0 source = stand true 0 (t.written style [] 0 ++ []) := by
    rw [← startState_eq hready, List.append_nil, hchars]
  simp only [readExpression, run, hstart, hp]
  rfl

/-- The store of `a.b(c) + -1 ? [d] : { k: (e) }`. -/
def chosenEntry : Store :=
  ⟨#[.name "a", .member ⟨0⟩ "b" false, .name "c", .call ⟨1⟩ [⟨2⟩], .literal "1", .unary "-" ⟨4⟩,
    .binary "+" ⟨3⟩ ⟨5⟩, .name "d", .array [⟨7⟩], .name "e", .paren ⟨9⟩,
    .object [.pair (.name "k") ⟨10⟩ false], .conditional ⟨6⟩ ⟨8⟩ ⟨11⟩]⟩

end JsxLoops.Tree
