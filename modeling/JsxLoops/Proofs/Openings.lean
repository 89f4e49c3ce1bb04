import JsxLoops.Proofs.Written

/-!
How what is written for an expression starts. The first lexeme of a legible expression is one of a
few kinds, and where a name is the first, what comes next is a sign that joins it to the rest.
-/

namespace JsxLoops.Tree

open JsxLoops.Surface JsxLoops.Text

theorem operatorLevel_le (op : String) : operatorLevel op ≤ 12 := by
  have either {c : Prop} [Decidable c] {a b : Nat} (ha : a ≤ 12) (hb : b ≤ 12) :
      (if c then a else b) ≤ 12 := by split <;> assumption
  unfold operatorLevel bindingLevel
  repeat' refine either (by decide) ?_
  decide

namespace Located

def Opening.lexeme (gap : List Char) : Opening → Lexeme
  | .name text | .keyword text => .word gap text
  | .literal text => literalLexeme gap text
  | .sign text => .sign gap text

theorem Opening.place_lexeme (o : Opening) (gap : List Char) : (o.lexeme gap).place = .code := by
  cases o <;> rfl

theorem Opening.gap_lexeme (o : Opening) (gap : List Char) : (o.lexeme gap).gap = gap := by
  cases o <;> rfl

theorem Opening.tail_lexeme (o : Opening) (gap : List Char) : (o.lexeme gap).tail = [] := by
  cases o <;> rfl

theorem Opening.kind_lexeme (o : Opening) (gap : List Char) :
    (o.lexeme gap).kind ∈ [.word, .sign, .quoted, .number] := by
  cases o with
  | literal text =>
    simp only [Opening.lexeme, literalLexeme]
    split
    · simp
    · split <;> simp
  | _ => simp [Opening.lexeme]

/-- The openings that a legible expression may have. -/
def Opening.isFair : Opening → Bool
  | .name text => isNameText text
  | .keyword text =>
    ["this", "null", "true", "false", "typeof", "void", "delete"].contains text
  | .literal text => isQuotedText text || isNumberText text
  | .sign text => ["(", "[", "\x7b", "+", "-", "~", "!"].contains text

/-- The openings of what members and calls may follow. -/
def Opening.isTight : Opening → Bool
  | .keyword text => ["this", "null", "true", "false"].contains text
  | .sign text => ["(", "[", "\x7b"].contains text
  | _ => true

def isChain (t : Located) : Bool :=
  t.strength == 15 || t.isOptional || match t.here with
    | .call _ _ => true
    | _ => false

theorem isChain_of_strength {t : Located} (h : t.strength = 15) : t.isChain = true := by
  simp [isChain, h]

theorem isChain_of_isOptional {t : Located} (h : t.isOptional = true) : t.isChain = true := by
  simp [isChain, h]

theorem one_le_strength_of_fairOperands {op : String} {left right : Located}
    (h : fairOperands op left right = true) : 1 ≤ left.strength ∧ 1 ≤ right.strength := by
  rw [fairOperands] at h
  split at h <;> simp at h <;> omega

def first? : Node Located → Option Located
  | .member t _ _ | .index t _ | .call t _ | .binary _ t _ | .logical _ t _ | .conditional t _ _ =>
    some t
  | _ => none

variable {l : Loc} {n : Node Located} {c : Located}

theorem mem_of_first? (h : first? n = some c) : c ∈ n.children := by
  cases n <;> simp_all [first?, Node.children]

theorem opening_of_first? (h : first? n = some c) : (node l n).opening = c.opening := by
  rw [opening_node]
  cases n <;> simp_all [first?, Node.map, Opening.ofNode]

theorem fair_of_first? (hn : fairNode n = true) (h : first? n = some c) :
    (1 ≤ c.strength ∨ c.isOptional = true) ∧ ((node l n).isChain = true → c.isChain = true) := by
  cases n with
  | member object property optional =>
    obtain rfl : object = c := by simpa [first?] using h
    have ho : object.strength = 15 := by
      simp [fairNode] at hn
      exact hn.1.1.1
    exact ⟨.inl (by omega), fun _ => isChain_of_strength ho⟩
  | index object index =>
    obtain rfl : object = c := by simpa [first?] using h
    have ho : object.strength = 15 := by
      simp [fairNode] at hn
      exact hn.1
    exact ⟨.inl (by omega), fun _ => isChain_of_strength ho⟩
  | call callee args =>
    obtain rfl : callee = c := by simpa [first?] using h
    have ho : callee.strength = 15 ∨ callee.isOptional = true := by
      simp [fairNode] at hn
      exact hn.1
    exact ⟨ho.imp_left (by omega), fun _ => ho.elim isChain_of_strength isChain_of_isOptional⟩
  | binary op left right =>
    obtain rfl : left = c := by simpa [first?] using h
    have ho : fairOperands op left right = true := by
      simp [fairNode] at hn
      exact hn.2
    have := operatorLevel_le op
    exact ⟨.inl (one_le_strength_of_fairOperands ho).1, by
      simp [isChain, strength, isOptional]; omega⟩
  | logical op left right =>
    obtain rfl : left = c := by simpa [first?] using h
    have ho : fairOperands op left right = true := by
      simp [fairNode] at hn
      exact hn.1.2
    have := operatorLevel_le op
    exact ⟨.inl (one_le_strength_of_fairOperands ho).1, by
      simp [isChain, strength, isOptional]; omega⟩
  | conditional test yes no =>
    obtain rfl : test = c := by simpa [first?] using h
    have ho : 2 ≤ test.strength := by
      simp [fairNode] at hn
      exact hn.1.1.1
    exact ⟨.inl (by omega), by simp [isChain, strength, isOptional]⟩
  | _ => simp [first?] at h

theorem mem_unaryOperators {op : String} {argument : Located}
    (h : fairNode (.unary op argument) = true) : op ∈ unaryOperators := by
  simp [fairNode] at h
  exact h.1.1

theorem opening_fair {t : Located} (hl : t.isLegible = true)
    (hv : 1 ≤ t.strength ∨ t.isOptional = true) :
    t.opening.isFair = true ∧ (t.isChain = true → t.opening.isTight = true) := by
  induction t using induct with
  | node l n ih =>
    obtain ⟨hn, hkids⟩ := isLegible_node.1 hl
    cases hfirst : first? n with
    | some c =>
      have hc := mem_of_first? hfirst
      obtain ⟨hcv, hchain⟩ := fair_of_first? (l := l) hn hfirst
      obtain ⟨hfair, htight⟩ := ih c hc (hkids c hc) hcv
      rw [opening_of_first? hfirst]
      exact ⟨hfair, fun h => htight (hchain h)⟩
    | none =>
      rw [opening_node]
      cases n with
      | name text => exact ⟨hn, fun _ => rfl⟩
      | literal text =>
        simp only [Node.map, Opening.ofNode]
        split
        case isTrue h =>
          simp only [List.contains_eq_mem, List.mem_cons, List.not_mem_nil, or_false,
            decide_eq_true_eq] at h
          rcases h with rfl | rfl | rfl <;> exact ⟨rfl, fun _ => rfl⟩
        case isFalse h =>
          refine ⟨?_, fun _ => rfl⟩
          simp_all [fairNode, isLiteralText, Opening.isFair]
      | verbatim code =>
        obtain rfl : code = thisCode := by simpa [fairNode] using hn
        exact ⟨rfl, fun _ => rfl⟩
      | object _ | array _ | paren _ => exact ⟨rfl, fun _ => rfl⟩
      | unary op argument =>
        have hop := mem_unaryOperators hn
        simp only [unaryOperators, List.mem_cons, List.not_mem_nil, or_false] at hop
        refine ⟨?_, by simp [isChain, strength, isOptional]⟩
        rcases hop with rfl | rfl | rfl | rfl | rfl | rfl | rfl <;> rfl
      | member _ _ _ | index _ _ | call _ _ | binary _ _ _ | logical _ _ _ | conditional _ _ _ =>
        simp [first?] at hfirst
      | _ => simp [strength, isOptional] at hv

theorem written_eq_cons {t : Located} (style : Style) (hl : t.isLegible = true)
    (hv : 1 ≤ t.strength ∨ t.isOptional = true) (gap : List Char) (level : Nat) :
    ∃ xs, t.written style gap level = t.opening.lexeme gap :: xs := by
  induction t using induct with
  | node l n ih =>
    obtain ⟨hn, hkids⟩ := isLegible_node.1 hl
    cases hfirst : first? n with
    | some c =>
      have hc := mem_of_first? hfirst
      obtain ⟨xs, hxs⟩ := ih c hc (hkids c hc) (fair_of_first? (l := l) hn hfirst).1
      rw [opening_of_first? hfirst, written_node]
      cases n with
      | member | index | call | binary | logical | conditional =>
        obtain rfl : _ = c := by simpa [first?] using hfirst
        simp [Node.map, writeNode, hxs]
      | _ => cases hfirst
    | none =>
      rw [opening_node, written_node]
      cases n with
      | literal text =>
        simp only [Node.map, Opening.ofNode, writeNode]
        split
        case isTrue h =>
          simp only [List.contains_eq_mem, List.mem_cons, List.not_mem_nil, or_false,
            decide_eq_true_eq] at h
          rcases h with rfl | rfl | rfl <;> exact ⟨[], rfl⟩
        case isFalse h => exact ⟨[], rfl⟩
      | unary op argument =>
        simp only [Node.map, Opening.ofNode, writeNode, unaryLexeme]
        split <;> exact ⟨_, rfl⟩
      | object entries => cases entries <;> exact ⟨_, rfl⟩
      | name _ | verbatim _ | array _ | paren _ => exact ⟨_, rfl⟩
      | member _ _ _ | index _ _ | call _ _ | binary _ _ _ | logical _ _ _ | conditional _ _ _ =>
        simp [first?] at hfirst
      | _ => simp [strength, isOptional] at hv

/-- Words and signs that no legible expression starts with. -/
def noOpenings : List String :=
  [")", "]", "\x7d", ",", ";", ":", ".", "...", "?", "?.", "=", "=>", "++", "--", "*", "/",
  "/=", "@", ">",
   "<<", "yield", "await", "class", "new", "super", "import", "export", "if", "return", "var",
   "const", "let", "for", "while", "with", "do", "break", "continue", "switch", "throw", "try",
   "debugger", "enum", "in", "instanceof", "else"]

theorem ne_of_isNameText {x w : String} (h : isNameText x = true) (hw : isNameText w = false) :
    x ≠ w := by
  rintro rfl
  rw [h] at hw
  cases hw

theorem is_literalLexeme {text : String} (h : isQuotedText text = true ∨ isNumberText text = true)
    (gap : List Char) (stop : Nat) (w : String) :
    ((literalLexeme gap text).token stop).is w = false := by
  have hkind : (literalLexeme gap text).kind = .quoted ∨
    (literalLexeme gap text).kind = .number := by
    by_cases hq : isQuotedText text = true <;> simp_all [literalLexeme]
  rcases hkind with hkind | hkind <;> simp [Token.is, hkind]

theorem Opening.is_of_ne {o : Opening} (h : o.isFair = true) {w : String}
    (hname : isNameText w = false)
    (hkeyword : o ≠ .keyword w) (hsign : o ≠ .sign w)
    (gap : List Char) (stop : Nat) : ((o.lexeme gap).token stop).is w = false := by
  cases o with
  | name text => exact beq_false_of_ne (ne_of_isNameText h hname)
  | keyword text => exact beq_false_of_ne fun he => hkeyword (congrArg _ he)
  | literal text => exact is_literalLexeme (by simpa [isFair] using h) gap stop w
  | sign text => exact beq_false_of_ne fun he => hsign (congrArg _ he)

theorem Opening.is_of_isFair {o : Opening} (h : o.isFair = true) {w : String}
    (hw : w ∈ noOpenings) (gap : List Char) (stop : Nat) :
    ((o.lexeme gap).token stop).is w = false := by
  have hall : ∀ w ∈ noOpenings, isNameText w = false ∧ ¬ isFair (.keyword w) ∧ ¬ isFair (.sign w) := by
    decide +kernel
  obtain ⟨hname, hkeyword, hsign⟩ := hall w hw
  exact is_of_ne h hname (fun he => hkeyword (he ▸ h)) (fun he => hsign (he ▸ h)) gap stop

/-- Words and signs in front of an operand, which no chain of members and calls starts with. -/
def noTightOpenings : List String := unaryOperators ++ ["await", "++", "--", "<"]

theorem Opening.is_of_isTight {o : Opening} (h : o.isFair = true) (htight : o.isTight = true)
    {w : String} (hw : w ∈ noTightOpenings) (gap : List Char) (stop : Nat) :
    ((o.lexeme gap).token stop).is w = false := by
  have hall : ∀ w ∈ noTightOpenings, isNameText w = false ∧ ¬ isTight (.keyword w) ∧
      ¬ isTight (.sign w) := by decide +kernel
  obtain ⟨hname, hkeyword, hsign⟩ := hall w hw
  exact is_of_ne h hname (fun he => hkeyword (he ▸ htight)) (fun he => hsign (he ▸ htight)) gap stop

/-- Signs and words that stand between the first operand of an expression and what follows it. -/
def isJoint (x : Lexeme) : Bool :=
  x.place == .code && (x.spelling != "?" || x.tail.isEmpty) && match x.kind with
  | .sign =>
    [".", "?.", "[", "(", "?", "??", "||", "&&", "|", "^", "&", "==", "!=", "===", "!==", ">", "<=",
     "+", "-", "*", "/", "%", "**"].contains x.spelling
  | .word => ["in", "instanceof"].contains x.spelling
  | _ => false

theorem isJoint_operatorLexeme {op : String} (h : op ∈ logicalOperators ++ binaryOperators) :
    isJoint (operatorLexeme op) = true ∧ (operatorLexeme op).spelling ≠ "?" := by
  revert op
  decide

def Opening.couldBind : Opening → Bool
  | .name _ => true
  | .keyword text => text == "this"
  | _ => false

/-- What is written for an expression goes on with a joint after the expression it starts with. A
question mark is followed by another expression. -/
theorem written_of_first? (style : Style) (hl : (node l n).isLegible = true) (h : first? n = some c)
    (level : Nat) :
    ∃ y ys, (∀ gap, (node l n).written style gap level = c.written style gap level ++ y :: ys) ∧
      isJoint y = true ∧
      (y.spelling = "?" → ∃ o zs, ys = Opening.lexeme [' '] o :: zs ∧ o.isFair = true) := by
  obtain ⟨hn, hkids⟩ := isLegible_node.1 hl
  rw [written_node]
  cases n with
  | member object property optional =>
    obtain rfl : object = c := by simpa [first?] using h
    refine ⟨_, _, fun gap => rfl, ?_, ?_⟩ <;> cases optional <;> simp [isJoint, Lexeme.sign]
  | index object index =>
    obtain rfl : object = c := by simpa [first?] using h
    refine ⟨.sign [] "[", index.written style [] level ++ [Lexeme.sign [] "]"],
      fun gap => ?_, rfl, ?_⟩
    · simp [Node.map, writeNode]
    · simp [Lexeme.sign]
  | call callee args =>
    obtain rfl : callee = c := by simpa [first?] using h
    exact ⟨_, _, fun gap => rfl, rfl, by simp [Lexeme.sign]⟩
  | binary op left right | logical op left right =>
    obtain rfl : left = c := by simpa [first?] using h
    have hop : op ∈ logicalOperators ++ binaryOperators := by simp_all [fairNode]
    obtain ⟨hjoint, hne⟩ := isJoint_operatorLexeme hop
    exact ⟨_, _, fun gap => rfl, hjoint, fun h => absurd h hne⟩
  | conditional test yes no =>
    obtain rfl : test = c := by simpa [first?] using h
    have hyes : yes.isLegible = true := hkids yes (by simp [Node.children])
    have hv : 1 ≤ yes.strength := by simp_all [fairNode, isValue]
    obtain ⟨xs, hxs⟩ := written_eq_cons style hyes (.inl hv) [' '] level
    refine ⟨.sign [' '] "?", yes.written style [' '] level ++
      .sign [' '] ":" :: no.written style [' '] level, fun gap => ?_, rfl, fun _ => ?_⟩
    · simp [Node.map, writeNode]
    · exact ⟨yes.opening, _, by rw [hxs]; rfl, (opening_fair hyes (.inl hv)).1⟩
  | _ => simp [first?] at h

theorem written_second {t : Located} (style : Style) (hl : t.isLegible = true)
    (hv : 1 ≤ t.strength ∨ t.isOptional = true) (ho : t.opening.couldBind = true) (level : Nat) :
    (t.isSimple = true ∧ ∀ gap, t.written style gap level = [t.opening.lexeme gap]) ∨
      ∃ y ys, (∀ gap, t.written style gap level = t.opening.lexeme gap :: y :: ys) ∧
        isJoint y = true ∧
        (y.spelling = "?" → ∃ o zs, ys = Opening.lexeme [' '] o :: zs ∧ o.isFair = true) := by
  induction t using induct with
  | node l n ih =>
    obtain ⟨hn, hkids⟩ := isLegible_node.1 hl
    cases hfirst : first? n with
    | some c =>
      have hc := mem_of_first? hfirst
      rw [opening_of_first? hfirst] at ho ⊢
      obtain ⟨y, ys, hwritten, hjoint, hnext⟩ := written_of_first? style hl hfirst level
      refine .inr ?_
      rcases ih c hc (hkids c hc) (fair_of_first? (l := l) hn hfirst).1 ho with
        ⟨-, hone⟩ | ⟨z, zs, hmore, hz, hznext⟩
      · exact ⟨y, ys, fun gap => by rw [hwritten, hone]; rfl, hjoint, hnext⟩
      · refine ⟨z, zs ++ y :: ys, fun gap => by rw [hwritten, hmore]; rfl, hz, fun h => ?_⟩
        obtain ⟨o, zs, rfl, hfair⟩ := hznext h
        exact ⟨o, _, rfl, hfair⟩
    | none =>
      rw [opening_node] at ho ⊢
      rw [written_node]
      cases n with
      | name text => exact .inl ⟨rfl, fun _ => rfl⟩
      | verbatim code => exact .inl ⟨rfl, fun _ => rfl⟩
      | literal text =>
        simp only [Node.map, Opening.ofNode] at ho
        split at ho
        case isTrue h =>
          simp only [List.contains_eq_mem, List.mem_cons, List.not_mem_nil, or_false,
            decide_eq_true_eq] at h
          rcases h with rfl | rfl | rfl <;> cases ho
        case isFalse h => cases ho
      | unary op argument =>
        have hop := mem_unaryOperators hn
        simp only [unaryOperators, List.mem_cons, List.not_mem_nil, or_false] at hop
        rcases hop with rfl | rfl | rfl | rfl | rfl | rfl | rfl <;> cases ho
      | object _ | array _ | paren _ => cases ho
      | member _ _ _ | index _ _ | call _ _ | binary _ _ _ | logical _ _ _ | conditional _ _ _ =>
        simp [first?] at hfirst
      | _ => simp [strength, isOptional] at hv

end Located

end JsxLoops.Tree
