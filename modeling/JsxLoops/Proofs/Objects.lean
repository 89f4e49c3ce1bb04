import JsxLoops.Proofs.Operands

/-!
Objects. An entry is read by what its key looks like: a word in front of a colon, a word alone, a
literal, a computed key, or the dots of a spread. The entries of an object are then a list of items.
-/

namespace JsxLoops.Tree

open Located JsxLoops.Surface Parse

def SaysEntry (source : List Char) (e : Entry Located) (p : Phrase) : Prop :=
  ∃ e' : Entry Phrase, isPlainEntry p = true ∧
    (∀ inside, buildEntry source inside p = e'.mapM inside) ∧
    e'.map (fun _ => ()) = e.map (fun _ => ()) ∧
    List.Forall₂ (Builds source) e'.children e.children

def noWords : List String := ["...", "*", "\x7d", "[", "(", "<", "<<", ":", "=", ","]

theorem not_mem_noWords {text : String} (h : isWordText text = true) : text ∉ noWords := by
  have hno : ∀ w ∈ noWords, isWordText w = false := by decide
  intro hmem
  rw [hno text hmem] at h
  cases h

section

variable {source : List Char} {style : Style} {t value : Located} {b : Bool} {stop level d : Nat}
    {gap : List Char}
  {rest : List Lexeme} {ctx : Context}

theorem oneExpression_written (h : ReadsValue source style t) (hd : 4 * t.height + 1 ≤ d)
    (hsite : Site source ctx stop (t.written style gap level) rest) (hends : Ends rest)
    (hcolon : ¬Colon rest) :
    Yields source style t (oneExpression (grammar d)) ctx b stop gap level rest :=
  h (y := true) hd ⟨⟨hsite.suits.bound, rfl, hsite.suits.decorating⟩, hsite.ready, hsite.spells⟩
  hends fun _ => hcolon

def YieldsEntry (source : List Char) (e : Entry Located) (d : Nat) (ctx : Context) (b : Bool)
    (stop : Nat) (xs rest : List Lexeme) : Prop :=
  ∃ p, objectEntry (grammar d) ctx (stand b stop (xs ++ rest)) =
  some (p, stand b p.span.stop rest) ∧
    p.span.stop = stop + widthOf xs ∧ SaysEntry source e p

/-- A value that can be read with the depth that is left. -/
structure Readable (source : List Char) (style : Style) (d : Nat) (value : Located) : Prop where
  reads : ReadsValue source style value
  legible : value.isLegible = true
  strength : 1 ≤ value.strength
  depth : 4 * value.height + 1 ≤ d

theorem Readable.yields (h : Readable source style d value) (hctx : Suits source ctx)
    (hrest : Ready rest)
    (hdelimits : Delimits "\x7d" rest)
    (hs : Spells source stop (value.written style gap level ++ rest)) :
    Ready (value.written style gap level ++ rest) ∧
      Yields source style value (oneExpression (grammar d)) ctx b stop gap level rest := by
  obtain ⟨hends, hcolon⟩ := hdelimits.ends (by simp)
  exact ⟨ready_written h.legible (.inl h.strength) hs.linked,
    oneExpression_written h.reads h.depth ⟨hctx, hrest, hs⟩ hends hcolon⟩

/-- A key, a colon and a value are an entry, unless the key is one of the words that may stand in
front of a key. -/
theorem objectEntry_pair {x : Lexeme} {xs ys : List Lexeme} {q : Phrase} {mid : Nat}
    (form : KeyForm) (key : List Phrase)
    (hx : x.tail = [] ∧ Ready xs) (hys : Ready ys)
    (hsigns : (x.token stop).is "..." = false ∧ (x.token stop).is "*" = false)
    (hwords : xs = .sign [] ":" :: ys ∨ (x.token stop).isAny ["get", "set", "async"] = false)
    (hkey : propertyKey (grammar d) ctx (stand b stop (x :: xs)) =
      some ((form, key), stand b mid (.sign [] ":" :: ys)))
    (hq : oneExpression (grammar d) ctx (stand b (mid + (Lexeme.sign [] ":").width) ys) =
      some (q, stand b q.span.stop rest)) :
    objectEntry (grammar d) ctx (stand b stop (x :: xs)) =
    some (⟨⟨(x.token stop).span.start, q.span.stop⟩,
      .entry form false, key ++ [q]⟩, stand b q.span.stop rest) := by
  rcases hwords with rfl | hwords
  · simp [objectEntry, nextToken_stand hx, hsigns, Token.isPropertyName, eat, hkey, Token.isAny,
      expect_stand, hys, hq]
  · simp [Token.isAny] at hwords
    simp [objectEntry, nextToken_stand hx, hsigns, hwords, eat, hkey, Token.isAny,
      expect_stand, hys, hq]

theorem objectEntry_named {name : String} (hname : isWordText name = true)
    (h : Readable source style d value)
    (hsite : Site source ctx stop (.word gap name :: .sign [] ":" :: value.written style
      [' '] level) rest)
    (hdelimits : Delimits "\x7d" rest) :
    YieldsEntry source (.pair (.name name) value false) d ctx b stop
      (.word gap name :: .sign [] ":" :: value.written style [' '] level) rest := by
  obtain ⟨hctx, hrest, hs⟩ := hsite
  have hsign : Ready (.sign [] ":" :: (value.written style [' '] level ++ rest)) :=
    ⟨hs.tail.linked, rfl⟩
  obtain ⟨hready, q, hq, hspan, hsays⟩ := h.yields (b := b) hctx hrest hdelimits hs.tail.tail
  have hne := not_mem_noWords hname
  simp [noWords] at hne
  refine ⟨_, objectEntry_pair (.named name) [] ⟨rfl, hsign⟩ hready (by simp [hne]) (.inl rfl)
    (by simp [propertyKey, step_stand, hsign]) hq, ?_, ?_⟩
  · simp [hspan]
    omega
  · exact ⟨.pair (.name name) q false, rfl, fun _ => rfl, rfl, .cons hsays.builds .nil⟩

theorem objectEntry_short {name : String} {l : Loc} (hname : isNameText name = true)
    (hsite : Site source ctx stop [.word gap name] rest) (hdelimits : Delimits "\x7d" rest) :
    YieldsEntry source (.pair (.name name) (node l (.name name)) true)
    d ctx b stop [.word gap name] rest := by
  obtain ⟨hctx, hrest, hs⟩ := hsite
  have hne := not_mem_noNames hname
  simp [noNames, reservedWords] at hne
  let q : Phrase := ⟨⟨stop + gap.length, stop + (Lexeme.word gap name).width⟩, .use name, []⟩
  have hq : Builds source q (node l (.name name)) := .of_node (.name name) (fun _ => rfl) rfl .nil
  refine ⟨⟨⟨stop + gap.length, stop + (Lexeme.word gap name).width⟩,
    .entry (.named name) true, [q]⟩, ?_, by simp, ?_⟩
  · obtain ⟨g, text, xs, rfl, htext⟩ := hdelimits
    have hno : text ∉ ["[", "*", "(", "<", "<<", ":", "="] := by
      rcases htext with rfl | rfl <;> decide
    simp at hno
    simp [objectEntry, nextToken_stand, Token.isAny, Token.isPropertyName, eat, hne, hno,
      propertyKey, step_stand,
      hrest, Token.isUsable, isPlainName_word hname, checkName, flawIf, Phrase.leaf, q]
  · exact ⟨.pair (.name name) q true, rfl, fun _ => rfl, rfl, .cons hq .nil⟩

theorem objectEntry_literal {text : String} (hkey : fairKey (.literal text) = true)
    (h : Readable source style d value)
    (hsite : Site source ctx stop (literalLexeme gap text :: .sign [] ":" :: value.written style
      [' '] level) rest)
    (hdelimits : Delimits "\x7d" rest) :
    YieldsEntry source (.pair (.literal text) value false) d ctx b stop
      (literalLexeme gap text :: .sign [] ":" :: value.written style [' '] level) rest := by
  obtain ⟨hctx, hrest, hs⟩ := hsite
  have hsign : Ready (.sign [] ":" :: (value.written style [' '] level ++ rest)) :=
    ⟨hs.tail.linked, rfl⟩
  obtain ⟨hready, q, hq, hspan, hsays⟩ := h.yields (b := b) hctx hrest hdelimits hs.tail.tail
  have hslice : sliceText source ⟨stop + gap.length, stop + (literalLexeme gap text).width⟩ =
    text :=
    sliceText_lexeme rfl hs
  have htoken : ((literalLexeme gap text).token stop).span =
      ⟨stop + gap.length, stop + (literalLexeme gap text).width⟩ := Lexeme.token_span stop rfl
  have hstep : step ctx (stand b stop (literalLexeme gap text :: _)) = _ := step_stand ⟨rfl, hsign⟩
  simp only [fairKey, Bool.and_eq_true, Bool.or_eq_true, bne_iff_ne] at hkey
  have hkind : (literalLexeme gap text).kind = .quoted ∨ (literalLexeme gap text).kind = .number ∧
      ((literalLexeme gap text).token stop).text = "" := by
    by_cases hquoted : isQuotedText text = true
    · exact .inl (by simp [literalLexeme, hquoted])
    · have hnumber : isNumberText text = true := by simpa [hquoted] using hkey.1
      exact .inr (by simp [literalLexeme, hquoted, hnumber, Lexeme.token, hkey.2])
  have his (w : String) : ((literalLexeme gap text).token stop).is w = false := by
    rcases hkind with hkind | ⟨hkind, -⟩ <;> simp [Token.is, hkind]
  refine ⟨_, objectEntry_pair (.quoted ⟨stop + gap.length, stop + (literalLexeme gap text).width⟩)
    [] ⟨rfl, hsign⟩
    hready ⟨his _, his _⟩ (.inl rfl) ?_ hq, ?_, ?_⟩
  · rcases hkind with hkind | ⟨hkind, htext⟩
    · simp [propertyKey, hkind, hstep, htoken]
    · simp [propertyKey, hkind, hstep, htoken, htext]
  · simp [hspan]
    omega
  · refine ⟨.pair (.literal text) q false, rfl, fun inside => ?_, rfl, .cons hsays.builds .nil⟩
    simp [buildEntry, hslice, Entry.mapM, Key.mapM]

theorem objectEntry_computed {key : Located} (hk : Readable source style d key)
    (h : Readable source style d value)
    (hsite : Site source ctx stop (.sign gap "[" :: (key.written style [] level ++ .sign [] "]" ::
      .sign [] ":" :: value.written style [' '] level)) rest)
    (hdelimits : Delimits "\x7d" rest) :
    YieldsEntry source (.pair (.computed key) value false) d ctx b stop (.sign gap "[" ::
      (key.written style [] level ++ .sign [] "]" :: .sign [] ":" :: value.written style
      [' '] level)) rest := by
  obtain ⟨hctx, hrest, hs⟩ := hsite
  simp only [YieldsEntry, List.cons_append, List.append_assoc] at hs ⊢
  have hkeyReady := ready_written hk.legible (.inl hk.strength) hs.tail.linked
  have hclose : Ready (.sign [] "]" :: .sign [] ":" :: (value.written style [' '] level ++ rest)) :=
    ⟨hs.tail.append.linked, rfl⟩
  have hsign : Ready (.sign [] ":" :: (value.written style [' '] level ++ rest)) :=
    ⟨hs.tail.append.tail.linked, rfl⟩
  have hkeySite : Site source ctx _ (key.written style [] level) _ := ⟨hctx, hclose, hs.tail⟩
  obtain ⟨r, hr, hrspan, hrsays⟩ := oneExpression_written (b := b) hk.reads hk.depth hkeySite
    (.inr ⟨[], "]", _, rfl, by simp [closers]⟩) (by simp [Colon, Lexeme.sign])
  obtain ⟨hready, q, hq, hspan, hsays⟩ :=
    h.yields (b := b) hctx hrest hdelimits (hkeySite.next hrspan).tail.tail
  refine ⟨_, objectEntry_pair .computed [r] ⟨rfl, hkeyReady⟩ hready (by simp)
    (.inr (by simp [Token.isAny])) ?_ hq,
    ?_, ?_⟩
  · simp only [oneExpression, within_run] at hr
    simp [propertyKey, expect_stand, hkeyReady, hr, hsign]
  · simp [hspan, hrspan]
    omega
  · exact ⟨.pair (.computed r) q false, rfl, fun _ => rfl, rfl,
      .cons hrsays.builds (.cons hsays.builds .nil)⟩

theorem objectEntry_spread (h : Readable source style d value)
    (hsite : Site source ctx stop (.sign gap "..." :: value.written style [] level) rest)
    (hdelimits : Delimits "\x7d" rest) :
    YieldsEntry source (.spread value) d ctx b stop (.sign gap "..." :: value.written style
      [] level) rest := by
  obtain ⟨hctx, hrest, hs⟩ := hsite
  obtain ⟨hready, q, hq, hspan, hsays⟩ := h.yields (b := b) hctx hrest hdelimits hs.tail
  refine ⟨⟨⟨stop + gap.length, q.span.stop⟩, .spread, [q]⟩, ?_, ?_, ?_⟩
  · simp [objectEntry, spreadable, eat_stand, hready, hq]
  · simp [hspan]
    omega
  · exact ⟨.spread q, rfl, fun _ => rfl, rfl, .cons hsays.builds .nil⟩

theorem entry_opens {e : Entry Located} (h : fairEntry e = true) (gap : List Char) (level : Nat) :
    ∃ x xs, writeEntry (e.map (written style)) gap level = x :: xs ∧ x.place = .code ∧
    x.kind ≠ .eof ∧
      ∀ stop, (x.token stop).is "\x7d" = false := by
  cases e with
  | spread value => exact ⟨_, _, rfl, rfl, by simp, by simp⟩
  | pair key value short =>
    have hkey : fairKey key = true := by
      simp only [fairEntry, Bool.and_eq_true] at h
      exact h.1.1
    have hopens : ∃ x xs, writeKey (key.map (written style)) gap level = x :: xs ∧ x.place = .code ∧
        x.kind ≠ .eof ∧ ∀ stop, (x.token stop).is "\x7d" = false := by
      cases key with
      | name name =>
        have hne := not_mem_noWords (show isWordText name = true from hkey)
        refine ⟨_, _, rfl, rfl, by simp, fun stop => beq_false_of_ne ?_⟩
        rintro rfl
        exact hne (by decide)
      | literal text =>
        have hkind : (literalLexeme gap text).kind = .quoted ∨
          (literalLexeme gap text).kind = .number := by
          simp only [fairKey, Bool.and_eq_true, Bool.or_eq_true] at hkey
          by_cases hq : isQuotedText text = true <;> simp_all [literalLexeme]
        refine ⟨_, _, rfl, rfl, ?_, fun stop => ?_⟩ <;> rcases hkind with hkind | hkind <;>
          simp [hkind, Token.is]
      | computed key => exact ⟨_, _, rfl, rfl, by simp, by simp⟩
    obtain ⟨x, xs, hx, hfacts⟩ := hopens
    cases short with
    | true => exact ⟨x, xs, by simp [Entry.map, writeEntry, hx], hfacts⟩
    | false =>
      exact ⟨x, xs ++ .sign [] ":" :: value.written style [' '] level,
        by simp [Entry.map, writeEntry, hx], hfacts⟩

theorem takes_entry {e : Entry Located} (he : fairEntry e = true)
    (hlegible : ∀ c ∈ e.children, c.isLegible = true)
    (hreads : ∀ c ∈ e.children, c.isValue = true → ReadsValue source style c)
    (hd : ∀ c ∈ e.children, 4 * c.height + 1 ≤ d) (hctx : Suits source ctx) :
    Takes source ctx (objectEntry (grammar d)) "\x7d" (writeEntry (e.map (written style)) · level)
    (SaysEntry source e) where
  opens gap := entry_opens he gap level
  reads b stop gap rest hrest hdelimits hs := by
    have hreadable (c : Located) (hc : c ∈ e.children) (hv : c.isValue = true) : Readable
      source style d c :=
      ⟨hreads c hc hv, hlegible c hc, by simpa [isValue] using hv, hd c hc⟩
    cases e with
    | spread value =>
      exact objectEntry_spread (hreadable value (by simp) he) ⟨hctx, hrest, hs⟩ hdelimits
    | pair key value short =>
      simp only [fairEntry, Bool.and_eq_true] at he
      obtain ⟨⟨hkey, hv⟩, hshort⟩ := he
      have hvalue := hreadable value (by simp) hv
      cases short with
      | true =>
        obtain ⟨l, n⟩ := value
        cases key with
        | name name =>
          cases n with
          | name used =>
            simp at hshort
            obtain ⟨hname, rfl⟩ := hshort
            exact objectEntry_short hname ⟨hctx, hrest, hs⟩ hdelimits
          | _ => simp at hshort
        | _ => simp at hshort
      | false =>
        cases key with
        | name name => exact objectEntry_named hkey hvalue ⟨hctx, hrest, hs⟩ hdelimits
        | literal text => exact objectEntry_literal hkey hvalue ⟨hctx, hrest, hs⟩ hdelimits
        | computed key =>
          have hwritten : writeEntry ((Entry.pair (.computed key) value false).map (written style))
            gap level =
              .sign gap "[" :: (key.written style [] level ++ .sign [] "]" :: .sign [] ":" ::
                value.written style [' '] level) := by
            simp [Entry.map, Key.map, writeEntry, writeKey]
          rw [hwritten] at hs ⊢
          exact objectEntry_computed (hreadable key (by simp) hkey)
            hvalue ⟨hctx, hrest, hs⟩ hdelimits

theorem entries_of_forall₂ {es : List (Entry Located)} {ps : List Phrase}
    (h : List.Forall₂ (SaysEntry source) es ps) :
    ∃ qs : List (Entry Phrase), ps.all isPlainEntry = true ∧
      (∀ inside, ps.mapM (buildEntry source inside) = qs.mapM (Entry.mapM inside)) ∧
      qs.map (Entry.map fun _ => ()) = es.map (Entry.map fun _ => ()) ∧
      List.Forall₂ (Builds source) (qs.flatMap Entry.children) (es.flatMap Entry.children) := by
  induction h with
  | nil => exact ⟨[], rfl, fun _ => rfl, rfl, .nil⟩
  | cons hp _ ih =>
    obtain ⟨q, hplain, hmade, hshape, hbuilds⟩ := hp
    obtain ⟨qs, hplains, hmades, hshapes, hall⟩ := ih
    refine ⟨q :: qs, ?_, fun inside => ?_, ?_, ?_⟩
    · rw [List.all_cons, hplain, hplains]
      rfl
    · rw [List.mapM_cons, List.mapM_cons, hmade, hmades]
    · rw [List.map_cons, List.map_cons, hshape, hshapes]
    · exact List.rel_append hbuilds hall

theorem readsLinked_object {l : Loc} {entries : List (Entry Located)}
    (hl : (node l (.object entries)).isLegible = true)
    (h : ∀ c ∈ entries.flatMap Entry.children, c.isValue = true → ReadsValue source style c) :
    ReadsLinked source style (node l (.object entries)) := by
  intro d ctx b stop gap level rest hd ⟨hctx, hrest, hs⟩
  obtain ⟨hn, hkids⟩ := isLegible_node.1 hl
  have hwritten : ∃ inside g, (node l (.object entries)).written style gap level =
      .sign gap "\x7b" :: (writeListed inside inside (entries.map fun e =>
        writeEntry (e.map (written style))) (style.inner level) ++ [Lexeme.sign g "\x7d"]) := by
    rw [written_node]
    cases entries with
    | nil => exact ⟨[], [], rfl⟩
    | cons e entries => exact ⟨style.gap (style.inner level), style.gap level, by
      simp [Node.map, writeNode, writeObject]; rfl⟩
  obtain ⟨inside, g, hwritten⟩ := hwritten
  have hmem : ∀ e ∈ entries, ∀ c ∈ e.children, c ∈ (Node.object entries).children :=
    fun e he c hc =>
    List.mem_flatMap.2 ⟨e, he, hc⟩
  have hitem : ∀ e ∈ entries, Takes source ctx (objectEntry (grammar d)) "\x7d"
      (writeEntry (e.map (written style)) · (style.inner level)) (SaysEntry source e) := by
    intro e he
    refine takes_entry ?_ (fun c hc => hkids c (hmem e he c hc)) (fun c hc => h c (hmem e he c hc))
      (fun c hc => ?_) hctx
    · simp only [fairNode, List.all_eq_true] at hn
      exact hn e he
    · have := height_lt_of_mem (l := l) (hmem e he c hc)
      omega
  rw [hwritten, List.cons_append, List.append_assoc, List.singleton_append] at hs ⊢
  obtain ⟨ps, e, hps, he, hall⟩ := listed_written (b := b) hitem hctx.bound (by simp) hs.tail
  have hready := Takes.ready_listed hitem hs.tail
  have hend : e + (Lexeme.sign g "\x7d").width =
      stop + widthOf ((node l (.object entries)).written style gap level) := by
    simp [hwritten, he]
    omega
  obtain ⟨qs, hplain, hmade, hshape, hbuilds⟩ := entries_of_forall₂ hall
  refine ⟨⟨⟨stop + gap.length, stop + widthOf ((node l (.object entries)).written style gap level)⟩,
    .object false, ps⟩, 0, Nat.zero_le _, ?_, by rw [hwritten], ?_⟩
  · simp [linked, primary, objectLiteral, expect_stand, hready, hps, hrest, hend]
  · refine ⟨?_, rfl, rfl, by simp, by simp, fun h => ?_⟩
    · refine .of_node (.object qs) (fun inside => ?_) (congrArg Node.object hshape) hbuilds
      simp only [buildNode, hplain, if_true, hmade]
      simp [Node.mapM]
    · rw [isReceiver, fold_node] at h
      cases h

end

end JsxLoops.Tree
