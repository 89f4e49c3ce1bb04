import JsxLoops.Proofs.Chains
import JsxLoops.Proofs.Spacing

/-!
Operators between operands. A tree built of operators is read from its first operand on: each
operator takes what stands before it and reads its right operand up to the first operator that binds
less tightly.
-/

namespace JsxLoops.Surface

open Parse

/-- The state with a closing angle joined to the signs that directly follow it. -/
def settle (s : State) : State :=
  if s.token.is ">" then
    { s with token := (scanAngles s.token s.rest).1, rest := (scanAngles s.token s.rest).2 }
  else s

theorem joinAngles_run (ctx : Context) (s : State) : joinAngles ctx s = some ((), settle s) := rfl

theorem settle_of_false {s : State} (h : s.token.is ">" = false) : settle s = s := by
  simp [settle, h]

@[simp] theorem settle_lastStop (s : State) : (settle s).lastStop = s.lastStop := by
  unfold settle
  split <;> rfl

theorem settle_settle (s : State) : settle (settle s) = settle s := by
  by_cases h : s.token.is ">" = true
  · obtain ⟨⟨kind, text, span, newline, escaped⟩, rest, lastStop, loose, sound⟩ := s
    have hkind : kind = .word ∨ kind = .sign := by
      cases kind <;> simp [Token.is] at h <;> simp
    simp only [settle, h, if_true]
    unfold scanAngles
    split <;> rcases hkind with rfl | rfl <;> simp_all [Token.is]
  · rw [Bool.not_eq_true] at h
    rw [settle_of_false h, settle_of_false h]

/-- How tightly the operator binds that the lexemes start with. -/
def levelOf (rest : List Lexeme) : Nat := bindingLevel (settle (stand true 0 rest)).token

theorem bindingLevel_settle (b : Bool) (stop : Nat) (rest : List Lexeme) :
    bindingLevel (settle (stand b stop rest)).token = levelOf rest := by
  cases rest with
  | nil => rfl
  | cons x xs =>
    have hsame : (stand b stop (x :: xs)).token.is ">" =
      (stand true 0 (x :: xs)).token.is ">" := rfl
    unfold levelOf settle
    rw [hsame]
    split
    · unfold scanAngles
      simp only [stand_rest_cons]
      split <;> rfl
    · rfl

section

variable {g : Grammar} {start level n stop : Nat} {p : Phrase} {ctx : Context}
    {s : State} {b : Bool}
  {rest : List Lexeme}

theorem operatorsAfter_settle (hn : 0 < n) :
    operatorsAfter g start level n p ctx (settle s) = operatorsAfter g start level n p ctx s := by
  obtain ⟨n, rfl⟩ : ∃ k, n = k + 1 := ⟨n - 1, by omega⟩
  simp [operatorsAfter, joinAngles_run, settle_settle]

theorem operatorsAfter_stop (hn : 0 < n)
    (h : levelOf rest < level ∨ levelOf rest = 0 ∨ (levelOf rest = level ∧ level ≠ 12)) :
    operatorsAfter g start level n p ctx (stand b stop rest) =
      some (p, settle (stand b stop rest)) := by
  obtain ⟨n, rfl⟩ : ∃ k, n = k + 1 := ⟨n - 1, by omega⟩
  have hstop : (levelOf rest == 0 || decide (levelOf rest < level) ||
      (levelOf rest == level && levelOf rest != 12)) = true := by
    rcases h with h | h | ⟨h, h'⟩
    · simp [h]
    · simp [h]
    · simp [h, h']
  simp only [operatorsAfter, bind_run, joinAngles_run, Option.bind_some, token_run,
    bindingLevel_settle, hstop, if_true, pure_run]

def operatorsFrom (g : Grammar) (start level : Nat) : Parse Phrase := do
  let left ← operand g
  operatorsAfter g start level (← read).bound left

theorem operators_run (h : (stand b stop rest).token.kind ≠ .privateName) :
    operators g level ctx (stand b stop rest) =
      operatorsFrom g (stand b stop rest).token.span.start level ctx (stand b stop rest) := by
  simp [operators, operatorsFrom, h]

end

end JsxLoops.Surface

namespace JsxLoops.Tree

open Located JsxLoops.Surface Parse

def operatorSigns : List String := logicalOperators ++ binaryOperators

def operatorToken (op : String) (stop : Nat) : Token where
  kind := if op.toList.all Char.isAlpha then .word else .sign
  text := op
  span := ⟨stop + 1, stop + 1 + op.length⟩
  newline := false
  escaped := false

section

variable {source : List Char} {style : Style} {t : Located} {b : Bool} {stop level d n L : Nat}
  {gap : List Char} {rest xs : List Lexeme} {ctx : Context} {l : Loc} {op : String}

theorem settle_operator (hop : op ∈ operatorSigns) {r : List Char} (hxs : charsOf xs = ' ' :: r)
    (b : Bool) (stop : Nat) :
    settle (stand b stop (operatorLexeme op :: xs)) =
      ⟨operatorToken op stop, ' ' :: r, stop, [], b⟩ := by
  simp only [operatorSigns, logicalOperators, binaryOperators, List.cons_append, List.nil_append,
    List.mem_cons, List.not_mem_nil, or_false] at hop
  unfold settle stand
  simp only [hxs]
  rcases hop with rfl | rfl | rfl | rfl | rfl | rfl | rfl | rfl | rfl | rfl | rfl | rfl | rfl | rfl |
    rfl | rfl | rfl | rfl | rfl | rfl | rfl | rfl | rfl <;> rfl

theorem operatorToken_facts (hop : op ∈ operatorSigns) (stop : Nat) :
    bindingLevel (operatorToken op stop) = operatorLevel op ∧ 0 < operatorLevel op ∧
      (operatorToken op stop).isAny ["as", "satisfies"] = false ∧
      (operatorLevel op = 12 ↔ op = "**") := by
  simp only [operatorSigns, logicalOperators, binaryOperators, List.cons_append, List.nil_append,
    List.mem_cons, List.not_mem_nil, or_false] at hop
  rcases hop with rfl | rfl | rfl | rfl | rfl | rfl | rfl | rfl | rfl | rfl | rfl | rfl | rfl | rfl |
    rfl | rfl | rfl | rfl | rfl | rfl | rfl | rfl | rfl <;>
    exact ⟨rfl, by decide, rfl, by decide⟩

theorem width_operatorLexeme (op : String) : (operatorLexeme op).width = 1 + op.length := by
  unfold operatorLexeme
  split
  case h_1 tail heq =>
    have hlength : op.length = tail.length + 1 := by
      rw [← String.length_toList, heq, List.length_cons]
    have hone : ">".length = 1 := rfl
    simp [Lexeme.width, hlength, hone]
    omega
  case h_2 => split <;> simp [Lexeme.width, Lexeme.word, Lexeme.sign]

theorem levelOf_operator (hop : op ∈ operatorSigns) {r : List Char} (hxs : charsOf xs = ' ' :: r) :
    levelOf (operatorLexeme op :: xs) = operatorLevel op := by
  rw [levelOf, settle_operator hop hxs]
  exact (operatorToken_facts hop 0).1

theorem operatorsAfter_operator {g : Grammar} {start : Nat} {p : Phrase} (hop : op ∈ operatorSigns)
    {r : List Char} (hxs : charsOf xs = ' ' :: r) (hctx : ctx.allowIn = true) (hready : Ready xs)
    (hlevel : L < operatorLevel op ∨ (op = "**" ∧ L = 12)) :
    operatorsAfter g start L (n + 1) p ctx (stand b stop (operatorLexeme op :: xs)) =
      (g (.operators (operatorLevel op)) ctx
        (stand b (stop + (operatorLexeme op).width) xs)).bind fun q =>
      (joined start op p q.1 ctx q.2).bind fun q => operatorsAfter g start L n q.1 ctx q.2 := by
  obtain ⟨hown, hpos, has, hpower⟩ := operatorToken_facts hop stop
  have hgo : (operatorLevel op == 0 || decide (operatorLevel op < L) ||
      (operatorLevel op == L && operatorLevel op != 12)) = false := by
    rcases hlevel with hlevel | ⟨hpow, rfl⟩
    · simp
      omega
    · have := hpower.2 hpow
      simp [this]
  have hscan : scan (stop + 1 + op.length) (' ' :: r) = ⟨(stand b (stop + 1 + op.length) xs).token,
      (stand b (stop + 1 + op.length) xs).rest, true⟩ := by
    rw [← hxs]
    exact scan_charsOf hready.linked hready.starts
  have hwidth : stop + (operatorLexeme op).width = stop + 1 + op.length := by
    rw [width_operatorLexeme, Nat.add_assoc]
  have htext : (operatorToken op stop).text = op := rfl
  have hescaped : (operatorToken op stop).escaped = false := rfl
  have hspan : (operatorToken op stop).span.stop = stop + 1 + op.length := rfl
  simp only [operatorsAfter, bind_run, joinAngles_run, Option.bind_some, token_run,
    settle_operator hop hxs, hown, hgo, Bool.false_eq_true, if_false, read_run, hctx, has, advance,
    hescaped, Bool.false_and, flawIf_false_run, Bool.not_true, Bool.and_false, Bool.and_true, step,
    modify_run, put, hspan, hscan, htext, hwidth]
  rfl

/-- The tree holds together where only operators that bind tighter than `L` are read. Only `**` is
read at its own level. -/
def Located.Holds (L : Nat) (t : Located) : Prop := L + 2 ≤ t.strength ∨ (L = 12 ∧ t.strength = 13)

/-- The operator that follows takes the whole tree as its operand. -/
def Located.Closes (t : Located) (rest : List Lexeme) : Prop :=
  levelOf rest + 1 ≤ t.strength ∧ ¬(levelOf rest = 12 ∧ t.strength = 13)

variable (source style t) in
/-- The tree is read among operators. Reading goes on with the operators that follow. -/
def ReadsOperators : Prop :=
  ∀ ⦃d : Nat⦄ ⦃ctx : Context⦄ ⦃b : Bool⦄ ⦃stop : Nat⦄ ⦃gap : List Char⦄ ⦃level : Nat⦄
    ⦃rest : List Lexeme⦄ ⦃L : Nat⦄, 4 * t.height ≤ d →
    Site source ctx stop (t.written style gap level) rest → StopsLinks rest → t.Closes rest →
    t.Holds L →
    ∃ p k, k ≤ widthOf (t.written style gap level) ∧
      operatorsFrom (grammar d) (stop + gap.length) L ctx
          (stand b stop (t.written style gap level ++ rest)) =
        operatorsAfter (grammar d) (stop + gap.length) L (ctx.bound - k) p ctx
          (stand b p.span.stop rest) ∧
      p.span = ⟨stop + gap.length, stop + widthOf (t.written style gap level)⟩ ∧ Says source t p

theorem ReadsOperand.operators (h : ReadsOperand source style t) : ReadsOperators
    source style t := by
  intro d ctx b stop gap level rest L hd hsite hstop _ _
  obtain ⟨p, hp, hspan, hsays⟩ := h (b := b) hd hsite hstop
  exact ⟨p, 0, Nat.zero_le _, by simp [operatorsFrom, hp], hspan, hsays⟩

theorem ReadsOperators.finish (h : ReadsOperators source style t) (hl : t.isLegible = true)
    (hv : 1 ≤ t.strength) (hd : 4 * t.height ≤ d)
    (hsite : Site source ctx stop (t.written style gap level) rest) (hstop : StopsLinks rest)
    (hcloses : t.Closes rest) (hholds : t.Holds L)
    (hrest : levelOf rest < L ∨ levelOf rest = 0 ∨ (levelOf rest = L ∧ L ≠ 12)) :
    ∃ p, operators (grammar d) L ctx (stand b stop (t.written style gap level ++ rest)) =
        some (p, settle (stand b p.span.stop rest)) ∧
      p.span = ⟨stop + gap.length, stop + widthOf (t.written style gap level)⟩ ∧
      Says source t p := by
  obtain ⟨p, k, hk, hp, hspan, hsays⟩ := h (b := b) hd hsite hstop hcloses hholds
  refine ⟨p, ?_, hspan, hsays⟩
  have htoken : (stand b stop (t.written style gap level ++ rest)).token =
      (t.opening.lexeme gap).token stop := token_written hl (.inl hv)
  have hkind : (stand b stop (t.written style gap level ++ rest)).token.kind ≠ .privateName := by
    rw [htoken, Lexeme.token_kind]
    intro h
    have := t.opening.kind_lexeme gap
    simp [h] at this
  rw [operators_run hkind, htoken, Lexeme.token_start, Opening.gap_lexeme, hp]
  exact operatorsAfter_stop (by rw [hsite.fuel hk]; omega) hrest

theorem stopsLinks_operator (hop : op ∈ operatorSigns) (xs : List Lexeme) :
    StopsLinks (operatorLexeme op :: xs) := by
  have hall : ∀ op ∈ operatorSigns, (operatorLexeme op).stopsLinks = true := by decide
  exact hall op hop

theorem place_operatorLexeme (op : String) : (operatorLexeme op).place = .code := by
  unfold operatorLexeme
  split
  · rfl
  · split <;> rfl

theorem joined_run {start : Nat} {p q : Phrase} {s : State} {n : Node Located}
    {left right : Located}
    (hn : n = .binary op left right ∨ n = .logical op left right) (hfair : fairNode n = true)
    (hp : Says source left p) (hq : Says source right q) :
    ∃ r : Phrase, joined start op p q ctx s = some (r, s) ∧ r.span = ⟨start, s.lastStop⟩ ∧
      Says source (node l n) r := by
  have hreceiver (h : (node l n).isReceiver = true) : False := by
    rw [isReceiver, fold_node] at h
    rcases hn with rfl | rfl <;> cases h
  rcases hn with rfl | rfl
  · simp only [fairNode, Bool.and_eq_true, List.contains_eq_mem, decide_eq_true_eq] at hfair
    obtain ⟨hop, hoperands⟩ := hfair
    have hno : ∀ op ∈ binaryOperators, (op == "??") = false ∧
      (op == "&&" || op == "||") = false := by
      decide
    obtain ⟨hcoalesce, hlogical⟩ := hno op hop
    have hpower : (op == "**" && refusesPower p) = false := by
      rw [hp.power]
      by_cases hpow : op = "**"
      · subst hpow
        simp [fairOperands] at hoperands
        simp [hoperands.1.2]
      · simp [hpow]
    refine ⟨⟨⟨start, s.lastStop⟩, .binary op, [p, q]⟩, ?_, rfl, ?_⟩
    · simp [joined, hcoalesce, hlogical, hpower]
    · refine ⟨?_, rfl, rfl, by simp, by simp, fun h => (hreceiver h).elim⟩
      exact .of_node (.binary op p q) (fun _ => rfl) rfl (.cons hp.builds (.cons hq.builds .nil))
  · simp only [fairNode, Bool.and_eq_true, List.contains_eq_mem, decide_eq_true_eq] at hfair
    obtain ⟨⟨hop, hoperands⟩, hmixed⟩ := hfair
    have hsays : Says source (node l (.logical op left right))
        ⟨⟨start, s.lastStop⟩, .logical op, [p, q]⟩ := by
      refine ⟨?_, ?_, rfl, by simp, by simp, fun h => (hreceiver h).elim⟩
      · exact .of_node (.logical op p q) (fun _ => rfl) rfl (.cons hp.builds (.cons hq.builds .nil))
      · rw [Bool.eq_iff_iff]
        simp [refusesCoalescing, isLogical]
    refine ⟨_, ?_, rfl, hsays⟩
    by_cases hcoalesce : op = "??"
    · subst hcoalesce
      have hflaw : (refusesCoalescing p || refusesCoalescing q) = false := by
        rw [hp.coalescing, hq.coalescing]
        simpa using hmixed
      simp [joined, hflaw]
    · have hone : op = "&&" ∨ op = "||" := by
        simp [logicalOperators, hcoalesce] at hop
        tauto
      simp [joined, hcoalesce, hone]

theorem readsOperators_operation {n : Node Located} {left right : Located}
    (hn : n = .binary op left right ∨ n = .logical op left right)
    (hl : (node l n).isLegible = true) (hop : op ∈ operatorSigns)
    (hoperands : fairOperands op left right = true)
    (hleft : ReadsOperators source style left) (hright : ReadsOperators source style right) :
    ReadsOperators source style (node l n) := by
  intro d ctx b stop gap level rest L hd hsite hstop hcloses hholds
  obtain ⟨hfair, hkids⟩ := isLegible_node.1 hl
  obtain ⟨hctx, hrest, hs⟩ := hsite
  have hwritten : (node l n).written style gap level =
      left.written style gap level ++ operatorLexeme op :: right.written style [' '] level := by
    rw [written_node]
    rcases hn with rfl | rfl <;> rfl
  have hmem : left ∈ n.children ∧ right ∈ n.children := by
    rcases hn with rfl | rfl <;> simp [Node.children]
  have hleftHeight := height_lt_of_mem (l := l) hmem.1
  have hrightHeight := height_lt_of_mem (l := l) hmem.2
  have hstrength : (node l n).strength = operatorLevel op + 1 := by rcases hn with rfl | rfl <;> rfl
  obtain ⟨-, hpos, -, hpower⟩ := operatorToken_facts hop 0
  have hle := operatorLevel_le op
  obtain ⟨hleftValue, hrightValue⟩ := one_le_strength_of_fairOperands hoperands
  -- the level of the operator, and how tightly its operands bind
  have hlevel : L < operatorLevel op ∨ (op = "**" ∧ L = 12) := by
    rcases hholds with h | ⟨rfl, h⟩
    · exact .inl (by omega)
    · exact .inr ⟨hpower.1 (by omega), rfl⟩
  have hbind : (op ≠ "**" ∧ operatorLevel op + 1 ≤ left.strength ∧
    operatorLevel op + 2 ≤ right.strength) ∨
      (op = "**" ∧ 14 ≤ left.strength ∧ 13 ≤ right.strength) := by
    by_cases hpow : op = "**"
    · subst hpow
      simp [fairOperands] at hoperands
      exact .inr ⟨rfl, hoperands.1.1, hoperands.2⟩
    · simp [fairOperands, hpow] at hoperands
      exact .inl ⟨hpow, hoperands⟩
  rw [hwritten, List.append_assoc, List.cons_append] at hs ⊢
  have hrightReady := ready_written (hkids right hmem.2) (.inl hrightValue) hs.append.tail.linked
  obtain ⟨r, hr⟩ := charsOf_blank style (hkids right hmem.2) hrightValue level rest
  have hleftSite : Site source ctx stop (left.written style gap level) _ :=
    ⟨hctx, ⟨hs.append.linked, place_operatorLexeme op⟩, hs⟩
  have hleftCloses : left.Closes (operatorLexeme op :: (right.written style [' ']
    level ++ rest)) := by
    rw [Located.Closes, levelOf_operator hop hr]
    have hpow : operatorLevel op = 12 → op = "**" := hpower.1
    rcases hbind with ⟨hne, h, -⟩ | ⟨rfl, h, -⟩
    · exact ⟨h, fun h' => hne (hpow h'.1)⟩
    · exact ⟨by omega, by omega⟩
  have hleftHolds : left.Holds L := by
    rcases hlevel with h | ⟨hpow, rfl⟩
    · rcases hbind with ⟨-, h', -⟩ | ⟨-, h', -⟩
      · exact .inl (by omega)
      · exact .inl (by omega)
    · rcases hbind with ⟨hne, -⟩ | ⟨-, h', -⟩
      · exact absurd hpow hne
      · exact .inl (by omega)
  obtain ⟨p, k, hk, hp, hspan, hsays⟩ := hleft (d := d) (b := b) (by omega) hleftSite
    (stopsLinks_operator hop _) hleftCloses hleftHolds
  -- the right operand is read one rule deeper
  obtain ⟨d, rfl⟩ : ∃ k, d = k + 1 := ⟨d - 1, by omega⟩
  have hnext := (hleftSite.next hspan).tail
  have hrightSite : Site source ctx _ (right.written style [' '] level) rest := ⟨hctx, hrest, hnext⟩
  rw [Located.Closes, hstrength] at hcloses
  have hrightCloses : right.Closes rest := by
    rw [Located.Closes]
    rcases hbind with ⟨-, -, h⟩ | ⟨rfl, -, h⟩
    · exact ⟨by omega, by omega⟩
    · have : operatorLevel "**" = 12 := rfl
      exact ⟨by omega, by omega⟩
  have hrightHolds : right.Holds (operatorLevel op) := by
    rcases hbind with ⟨-, -, h⟩ | ⟨rfl, -, h⟩
    · exact .inl h
    · have : operatorLevel "**" = 12 := rfl
      rcases Nat.lt_or_ge right.strength 14 with h' | h'
      · exact .inr ⟨this, by omega⟩
      · exact .inl (by omega)
  have hrightStop : levelOf rest < operatorLevel op ∨ levelOf rest = 0 ∨
      (levelOf rest = operatorLevel op ∧ operatorLevel op ≠ 12) := by omega
  obtain ⟨q, hq, hqspan, hqsays⟩ := hright.finish (d := d) (b := b) (hkids right hmem.2) hrightValue
    (by omega) hrightSite hstop hrightCloses hrightHolds hrightStop
  obtain ⟨u, hu, huspan, husays⟩ : ∃ u : Phrase, joined (stop + gap.length) op p q ctx
      (settle (stand b q.span.stop rest)) = some (u, settle (stand b q.span.stop rest)) ∧ _ :=
    joined_run (l := l) hn hfair hsays hqsays
  have hend : q.span.stop = stop + widthOf ((node l n).written style gap level) := by
    rw [hqspan, hspan, hwritten]
    simp
    omega
  have hwidth := width_operatorLexeme op
  rw [settle_lastStop, stand_lastStop] at huspan
  refine ⟨u, k + 1, ?_, ?_, by rw [huspan, hend, hwritten], husays⟩
  · simp [hwidth]
    omega
  · rw [hp, hleftSite.fuel hk, operatorsAfter_operator hop hr hctx.allowIn hrightReady hlevel]
    change (operators (grammar d) (operatorLevel op) ctx _).bind _ = _
    have hfuel : 0 < ctx.bound - (k + 1) := by
      have hle := hs.width_le
      have hbound := hctx.bound
      simp [hwidth] at hle
      omega
    rw [hq]
    simp only [Option.bind_some, hu, operatorsAfter_settle hfuel, huspan]

end

end JsxLoops.Tree
