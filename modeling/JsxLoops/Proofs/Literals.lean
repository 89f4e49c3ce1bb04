import JsxLoops.Tree.Build
import JsxLoops.Proofs.Rewriting
import Mathlib

/-!
Renames in template literals. A template literal is kept as verbatim code: one list of the names
that its holes mention, and one list of the names that they declare. What a hole mentions is found
hole by hole, but a name that any hole declares is taken for a name of the whole literal, and is
renamed in none.
-/

namespace JsxLoops.Surface

def Mark.shift (d : Nat) : Mark → Mark
  | .use span name => .use ⟨span.start + d, span.stop + d⟩ name
  | .bind span name => .bind ⟨span.start + d, span.stop + d⟩ name
  | m => m

def Mark.Within (start stop : Nat) : Mark → Prop
  | .use span _ | .bind span _ =>
    start ≤ span.start ∧ span.start ≤ span.stop ∧ span.stop ≤ stop
  | _ => True

theorem Mark.Within.mono {start stop start' stop' : Nat} {m : Mark} (h : m.Within start stop)
    (hstart : start' ≤ start) (hstop : stop ≤ stop') : m.Within start' stop' := by
  cases m with
  | use | bind => exact ⟨hstart.trans h.1, h.2.1, h.2.2.trans hstop⟩
  | markup | returns => trivial

theorem Mark.Within.shift {start stop : Nat} {m : Mark} (h : m.Within start stop) (d : Nat) :
    (m.shift d).Within (start + d) (stop + d) := by
  cases m with
  | use | bind =>
    exact ⟨Nat.add_le_add_right h.1 d, Nat.add_le_add_right h.2.1 d, Nat.add_le_add_right h.2.2 d⟩
  | markup | returns => trivial

namespace Span

variable {source front back : List Char} {span : Span}

theorem slice_eq (source : List Char) (span : Span) :
    span.slice source = (source.take span.stop).drop span.start := by
  rw [slice, List.drop_take]

theorem slice_append (h : span.stop ≤ front.length) : span.slice (front ++ back) =
    span.slice front := by
  rw [slice_eq, slice_eq, List.take_append_of_le_length h]

theorem slice_insert (front inserted back : List Char) (h : front.length ≤ span.start) :
    Span.slice (front ++ (inserted ++ back))
      ⟨span.start + inserted.length, span.stop + inserted.length⟩ =
      span.slice (front ++ back) := by
  have hdrop : (front ++ (inserted ++ back)).drop (span.start + inserted.length) =
      (front ++ back).drop span.start := by
    have hfront : front.drop span.start = [] := List.drop_eq_nil_of_le h
    have hfront' : front.drop (span.start + inserted.length) = [] :=
      List.drop_eq_nil_of_le (h.trans (Nat.le_add_right _ _))
    have hinserted : inserted.drop (span.start + inserted.length - front.length) = [] :=
      List.drop_eq_nil_of_le (by omega)
    have hback : span.start + inserted.length - front.length - inserted.length =
        span.start - front.length := by omega
    rw [List.drop_append, hfront', List.drop_append, hinserted, List.drop_append, hfront, hback,
      List.nil_append]
  rw [slice, slice, hdrop, Nat.add_sub_add_right]

end Span

end JsxLoops.Surface

namespace JsxLoops.Tree

open JsxLoops.Surface

/-! ### Cutting code at the names it mentions -/

section Cut

variable {source : List Char} {cursor bound stop : Nat} {us vs : List (Span × String)}

def cutUses (source : List Char) : Nat → List (Span × String) → List (Span × String)
  | _, [] => []
  | cursor, (span, name) :: rest =>
    if span.start < cursor || sliceText source span != name then cutUses source cursor rest
    else (span, name) :: cutUses source span.stop rest

def cutNames (source : List Char) (cursor : Nat) (us : List (Span × String)) : List String :=
  (cutUses source cursor us).map Prod.snd

theorem cutNames_cons (span : Span) (name : String) : cutNames source cursor ((span, name) :: us) =
    if span.start < cursor || sliceText source span != name then cutNames source cursor us
    else name :: cutNames source span.stop us := by
  rw [cutNames, cutUses]
  split <;> rfl

theorem mentions_textPiece (source : List Char) (start stop : Nat) :
    (textPiece source start stop).filterMap Piece.mentioned? = [] := by
  rw [textPiece]
  split <;> rfl

theorem mentions_cutPieces (source : List Char) (stop cursor : Nat) (us : List (Span × String)) :
    (cutPieces source stop cursor us).filterMap Piece.mentioned? = cutNames source cursor us := by
  induction us generalizing cursor with
  | nil => exact mentions_textPiece source cursor stop
  | cons u us ih =>
    obtain ⟨span, name⟩ := u
    rw [cutPieces, cutNames_cons]
    split
    · exact ih cursor
    · rw [List.filterMap_append, mentions_textPiece, List.nil_append, List.filterMap_cons, ih]
      rfl

theorem cutNames_of_le (hcursor : ∀ u ∈ us, cursor ≤ u.1.start)
    (hbound : ∀ u ∈ us, bound ≤ u.1.start) :
    cutNames source cursor us = cutNames source bound us := by
  induction us with
  | nil => rfl
  | cons u us ih =>
    obtain ⟨span, name⟩ := u
    have hfirst := List.forall_mem_cons.1 hcursor
    have hfirst' := List.forall_mem_cons.1 hbound
    rw [cutNames_cons, cutNames_cons, decide_eq_false (not_lt.2 hfirst.1), decide_eq_false
      (not_lt.2 hfirst'.1), ih hfirst.2 hfirst'.2]

theorem cutNames_append (bound : Nat) (hcursor : cursor ≤ bound) (hus : ∀ u ∈ us, u.1.stop ≤ bound)
    (hvs : ∀ v ∈ vs, bound ≤ v.1.start) :
    cutNames source cursor (us ++ vs) = cutNames source cursor us ++ cutNames source bound vs := by
  induction us generalizing cursor with
  | nil => exact cutNames_of_le (fun v hv => hcursor.trans (hvs v hv)) hvs
  | cons u us ih =>
    obtain ⟨span, name⟩ := u
    obtain ⟨hspan, hus⟩ := List.forall_mem_cons.1 hus
    rw [List.cons_append, cutNames_cons, cutNames_cons]
    split
    · exact ih hcursor hus
    · rw [ih hspan hus, List.cons_append]

def shiftUse (d : Nat) (u : Span × String) : Span × String := (⟨u.1.start + d, u.1.stop + d⟩, u.2)

theorem cutNames_shift {source' : List Char} {d : Nat}
    (h : ∀ u ∈ us, sliceText source' (shiftUse d u).1 = sliceText source u.1) :
    cutNames source' (cursor + d) (us.map (shiftUse d)) = cutNames source cursor us := by
  induction us generalizing cursor with
  | nil => rfl
  | cons u us ih =>
    obtain ⟨span, name⟩ := u
    obtain ⟨hspan, hus⟩ := List.forall_mem_cons.1 h
    rw [List.map_cons, shiftUse, cutNames_cons, cutNames_cons, ← hspan, shiftUse, ih hus, ih hus]
    simp only [Nat.add_lt_add_iff_right]

/-! ### Sorting the names -/

theorem mem_insertUse {u v : Span × String} : v ∈ insertUse u us ↔ v = u ∨ v ∈ us := by
  induction us with
  | nil => simp [insertUse]
  | cons w us ih =>
    rw [insertUse]
    split
    · simp
    · simp [ih, or_left_comm]

theorem mem_sortUses {v : Span × String} : v ∈ sortUses us ↔ v ∈ us := by
  rw [sortUses]
  induction us with
  | nil => rfl
  | cons u us ih => rw [List.foldr_cons, mem_insertUse, ih, List.mem_cons]

theorem insertUse_append {u : Span × String} (h : ∀ v ∈ vs, u.1.start ≤ v.1.start) :
    insertUse u (us ++ vs) = insertUse u us ++ vs := by
  induction us with
  | nil =>
    cases vs with
    | nil => rfl
    | cons v vs => exact if_pos (h v List.mem_cons_self)
  | cons w us ih =>
    rw [List.cons_append, insertUse, insertUse]
    split
    · rfl
    · rw [ih, List.cons_append]

theorem sortUses_append (h : ∀ u ∈ us, ∀ v ∈ vs, u.1.start ≤ v.1.start) :
    sortUses (us ++ vs) = sortUses us ++ sortUses vs := by
  induction us with
  | nil => rfl
  | cons u us ih =>
    obtain ⟨hu, hus⟩ := List.forall_mem_cons.1 h
    have htail : sortUses (us ++ vs) = sortUses us ++ sortUses vs := ih hus
    show insertUse u (sortUses (us ++ vs)) = insertUse u (sortUses us) ++ sortUses vs
    rw [htail, insertUse_append fun v hv => hu v (mem_sortUses.1 hv)]

theorem sortUses_shift (d : Nat) : sortUses (us.map (shiftUse d)) =
    (sortUses us).map (shiftUse d) := by
  have hinsert (u : Span × String) (ws : List (Span × String)) :
      insertUse (shiftUse d u) (ws.map (shiftUse d)) = (insertUse u ws).map (shiftUse d) := by
    induction ws with
    | nil => rfl
    | cons w ws ih =>
      rw [List.map_cons, insertUse, insertUse]
      simp only [shiftUse, Nat.add_le_add_iff_right] at ih ⊢
      split
      · rfl
      · rw [ih, List.map_cons]
        rfl
  induction us with
  | nil => rfl
  | cons u us ih =>
    show insertUse (shiftUse d u) (sortUses (us.map (shiftUse d))) =
      (insertUse u (sortUses us)).map _
    rw [ih, hinsert]

end Cut

/-! ### Verbatim code -/

theorem Verbatim.openCount_eq (v : Verbatim) (name : String) :
    v.openCount name = if name ∈ v.declares then 0 else v.mentions.count name := by
  rw [openCount, openMentions]
  split
  next h =>
    refine List.count_eq_zero.2 fun hmem => ?_
    have hopen := (List.mem_filter.1 hmem).2
    rw [List.contains_eq_mem, decide_eq_true h] at hopen
    cases hopen
  next h =>
    refine List.count_filter ?_
    rw [List.contains_eq_mem, decide_eq_false h, Bool.not_false]

/-- The names that marks declare. -/
def boundNames (marks : List Mark) : List String := (marks.filterMap Mark.bind?).map Prod.snd

theorem within_of_mem_use? {start stop : Nat} {marks : List Mark}
    (h : ∀ m ∈ marks, m.Within start stop) {u : Span × String}
    (hu : u ∈ marks.filterMap Mark.use?) : (Mark.use u.1 u.2).Within start stop := by
  obtain ⟨m, hm, hu⟩ := List.mem_filterMap.1 hu
  cases m <;> cases hu
  exact h _ hm

theorem openCount_verbatimCode {source : List Char} {span : Span} {marks : List Mark}
    (h : ∀ m ∈ marks, m.Within span.start span.stop) (name : String) :
    (verbatimCode source span marks).openCount name =
      if name ∈ boundNames marks then 0
      else (cutNames source span.start (sortUses (marks.filterMap Mark.use?))).count name := by
  have hheld {u : Span × String} (hu : (Mark.use u.1 u.2).Within span.start span.stop) :
      span.holds u.1 = true := by
    rw [Span.holds, Bool.and_eq_true, decide_eq_true_eq, decide_eq_true_eq]
    exact ⟨hu.1, hu.2.2⟩
  have huses : (marks.filterMap Mark.use?).filter (fun u => span.holds u.1) =
      marks.filterMap Mark.use? :=
    List.filter_eq_self.2 fun u hu => hheld (within_of_mem_use? h hu)
  have hbinds : (marks.filterMap Mark.bind?).filter (fun b => span.holds b.1) =
      marks.filterMap Mark.bind? := by
    refine List.filter_eq_self.2 fun u hu => hheld ?_
    obtain ⟨m, hm, hu⟩ := List.mem_filterMap.1 hu
    cases m <;> cases hu
    exact h (.bind _ _) hm
  rw [Verbatim.openCount_eq, Verbatim.mentions, verbatimCode]
  simp only [huses, hbinds, mentions_cutPieces, List.mem_eraseDups]
  rfl

/-! ### Template literals -/

def holeText (hole : List Char) : List Char := '$' :: '\x7b' :: (hole ++ ['\x7d'])

/-- The text of a template literal that consists of holes. -/
def literalText (holes : List (List Char)) : List Char :=
  '\x60' :: (holes.flatMap holeText ++ ['\x60'])

theorem length_holeText (A : List Char) : (holeText A).length = A.length + 3 := by
  simp [holeText]

theorem literalText_one (A : List Char) : literalText [A] =
    ['\x60'] ++ (holeText A ++ ['\x60']) := by
  simp [literalText]

theorem literalText_two (A B : List Char) :
    literalText [A, B] = ['\x60'] ++ (holeText A ++ (holeText B ++ ['\x60'])) := by
  simp [literalText]

theorem length_literalText_one (A : List Char) : (literalText [A]).length = A.length + 5 := by
  simp [literalText_one, length_holeText]

theorem length_literalText_two (A B : List Char) :
    (literalText [A, B]).length = A.length + B.length + 8 := by
  simp [literalText_two, length_holeText]
  omega

theorem sliceText_first {A B : List Char} {span : Span} (h : span.stop ≤ 3 + A.length) :
    sliceText (literalText [A, B]) span = sliceText (literalText [A]) span := by
  have hfront (back : List Char) : span.slice (['\x60'] ++ (holeText A ++ back)) =
      span.slice (['\x60'] ++ holeText A) := by
    rw [← List.append_assoc]
    refine Span.slice_append ?_
    rw [List.length_append, length_holeText, List.length_singleton]
    omega
  rw [sliceText, sliceText, literalText_two, literalText_one, hfront, hfront]

theorem sliceText_second {A B : List Char} {span : Span} (h : 1 ≤ span.start) :
    sliceText (literalText [A, B]) ⟨span.start + (A.length + 3), span.stop + (A.length + 3)⟩ =
      sliceText (literalText [B]) span := by
  have hinsert := Span.slice_insert ['\x60'] (holeText A) (holeText B ++ ['\x60']) h
  rw [sliceText, sliceText, literalText_two, literalText_one, ← hinsert, length_holeText]

/-- A text is read as one construct without a node of its own, with parts that leave these marks. -/
def ReadsHoles (source : List Char) (holes : List (List Mark)) : Prop :=
  (readExpression source).map (fun p => (p.span, p.shape, p.parts.map Phrase.marks)) =
    some (⟨0, source.length⟩, .other, holes)

instance (source : List Char) (holes : List (List Mark)) : Decidable (ReadsHoles source holes) :=
  inferInstanceAs (Decidable (_ = _))

/-- The literals of two texts are read hole by hole: both holes of one literal leave the marks that
they leave alone, up to where they stand, and the marks lie in the holes. -/
structure HoleByHole (A B : List Char) (a b : List Mark) : Prop where
  first : ReadsHoles (literalText [A]) [a]
  second : ReadsHoles (literalText [B]) [b]
  both : ReadsHoles (literalText [A, B]) [a, b.map (Mark.shift (A.length + 3))]
  inFirst : ∀ m ∈ a, m.Within 3 (3 + A.length)
  inSecond : ∀ m ∈ b, m.Within 3 (3 + B.length)

theorem marksOf_eq_flatten (ps : List Phrase) : marksOf ps = (ps.map Phrase.marks).flatten := by
  induction ps with
  | nil => rfl
  | cons p ps ih => rw [marksOf, ih, List.map_cons, List.flatten_cons]

theorem ReadsHoles.parse {source : List Char} {holes : List (List Mark)}
    (h : ReadsHoles source holes) :
    Template.parse source =
      some ⟨⟨#[.verbatim (verbatimCode source ⟨0, source.length⟩ holes.flatten)]⟩, ⟨0⟩⟩ := by
  obtain ⟨⟨span, shape, parts⟩, hp, hshape⟩ := Option.map_eq_some_iff.1 h
  obtain ⟨rfl, rfl, rfl⟩ : span = ⟨0, source.length⟩ ∧ shape = .other ∧
      parts.map Phrase.marks = holes := by simpa using hshape
  have hmarks : (⟨⟨0, source.length⟩, .other, parts⟩ : Phrase).marks =
      (parts.map Phrase.marks).flatten := by
    rw [Phrase.marks, ← marksOf_eq_flatten]
    exact List.filter_eq_self.2 fun _ _ => rfl
  -- a construct of this shape is kept as code, however deep the rest may be built
  have hbuild (depth : Nat) : buildTo source depth ⟨⟨0, source.length⟩, .other, parts⟩ =
      keepVerbatim source ⟨⟨0, source.length⟩, .other, parts⟩ := by
    cases depth <;> rfl
  rw [Template.parse, hp, Option.map_some, hbuild, keepVerbatim, hmarks]
  rfl

theorem rename_verbatim (v : Verbatim) {source target : String} (h : source ≠ target) :
    ((⟨#[.verbatim v]⟩ : Store).rename [⟨0⟩] source target).1 = v.openCount source := by
  have htargets : (⟨#[.verbatim v]⟩ : Store).targets source ⟨0⟩ =
      if v.refersTo source then [.code ⟨0⟩] else [] := rfl
  rw [Store.rename, if_neg h, List.flatMap_singleton, htargets]
  split
  · exact Nat.zero_add _
  case isFalse hr => exact (Verbatim.openCount_of_not_refersTo hr).symm

/-! ### Two holes -/

theorem filterMap_use?_shift (d : Nat) (marks : List Mark) :
    (marks.map (Mark.shift d)).filterMap Mark.use? =
      (marks.filterMap Mark.use?).map (shiftUse d) := by
  have hmark : ∀ m : Mark, (m.shift d).use? = m.use?.map (shiftUse d) := by rintro (_ | _) <;> rfl
  rw [List.filterMap_map, List.map_filterMap]
  exact List.filterMap_congr fun m _ => hmark m

theorem boundNames_shift (d : Nat) (marks : List Mark) :
    boundNames (marks.map (Mark.shift d)) = boundNames marks := by
  have hmark : ∀ m : Mark, (m.shift d).bind?.map Prod.snd = m.bind?.map Prod.snd := by
    rintro (_ | _) <;> rfl
  rw [boundNames, boundNames, List.filterMap_map, List.map_filterMap, List.map_filterMap]
  exact List.filterMap_congr fun m _ => hmark m

theorem boundNames_append (a b : List Mark) : boundNames (a ++ b) =
    boundNames a ++ boundNames b := by
  rw [boundNames, List.filterMap_append, List.map_append]
  rfl

theorem HoleByHole.cutNames_both {A B : List Char} {a b : List Mark} (h : HoleByHole A B a b) :
    cutNames (literalText [A, B]) 0
        (sortUses ((a ++ b.map (Mark.shift (A.length + 3))).filterMap Mark.use?)) =
      cutNames (literalText [A]) 0 (sortUses (a.filterMap Mark.use?)) ++
        cutNames (literalText [B]) 0 (sortUses (b.filterMap Mark.use?)) := by
  have hfirst {u : Span × String} (hu : u ∈ a.filterMap Mark.use?) :=
    within_of_mem_use? h.inFirst hu
  have hsecond {u : Span × String} (hu : u ∈ b.filterMap Mark.use?) :=
    within_of_mem_use? h.inSecond hu
  have hstay : cutNames (literalText [A, B]) 0 (sortUses (a.filterMap Mark.use?)) =
      cutNames (literalText [A]) 0 (sortUses (a.filterMap Mark.use?)) := by
    have hshift : cutNames (literalText [A, B]) (0 + 0)
          ((sortUses (a.filterMap Mark.use?)).map (shiftUse 0)) =
        cutNames (literalText [A]) 0 (sortUses (a.filterMap Mark.use?)) :=
      cutNames_shift fun u hu => sliceText_first (hfirst (mem_sortUses.1 hu)).2.2
    rwa [show shiftUse 0 = id from rfl, List.map_id] at hshift
  have hmove : cutNames (literalText [A, B]) (0 + (A.length + 3))
        ((sortUses (b.filterMap Mark.use?)).map (shiftUse (A.length + 3))) =
      cutNames (literalText [B]) 0 (sortUses (b.filterMap Mark.use?)) :=
    cutNames_shift fun u hu => sliceText_second
      (by have := (hsecond (mem_sortUses.1 hu)).1; omega)
  -- the first hole ends before the second one starts, so sorting and cutting keep them apart
  rw [List.filterMap_append, filterMap_use?_shift, sortUses_append, sortUses_shift,
    cutNames_append (A.length + 3) (Nat.zero_le _), hstay, ← hmove, Nat.zero_add]
  · intro u hu
    have := (hfirst (mem_sortUses.1 hu)).2.2
    omega
  · intro v hv
    obtain ⟨u, -, rfl⟩ := List.mem_map.1 hv
    exact Nat.le_add_left _ _
  · intro u hu v hv
    obtain ⟨w, hw, rfl⟩ := List.mem_map.1 hv
    have hu := hfirst hu
    have hw := (hsecond hw).1
    show u.1.start ≤ w.1.start + (A.length + 3)
    have := hu.2.1.trans hu.2.2
    omega

/-- How many occurrences a rename in a template changes. -/
def Template.renames (t : Template) (source target : String) : Nat :=
  (t.store.rename [t.root] source target).1

theorem ReadsHoles.renames {text : List Char} {holes : List (List Mark)}
    (h : ReadsHoles text holes) (hin : ∀ m ∈ holes.flatten, m.Within 0 text.length)
    {source target : String} (hne : source ≠ target) :
    ∃ t, Template.parse text = some t ∧ t.renames source target =
      if source ∈ boundNames holes.flatten then 0
      else (cutNames text 0 (sortUses (holes.flatten.filterMap Mark.use?))).count source :=
  ⟨_, h.parse, (rename_verbatim _ hne).trans (openCount_verbatimCode hin source)⟩

/-- Renames in a template literal reach its holes together. As long as no hole declares the name,
a literal with two holes has as many occurrences renamed as the two holes alone. Once one of them
declares it, none is renamed in either, so the count is the sum exactly if the other hole does not
use the name: what is renamed in one hole depends on what the other one binds. -/
theorem rename_literalText {A B : List Char} {a b : List Mark} (h : HoleByHole A B a b)
    {source target : String} (hne : source ≠ target) :
    ∃ first second both, Template.parse (literalText [A]) = some first ∧
      Template.parse (literalText [B]) = some second ∧
      Template.parse (literalText [A, B]) = some both ∧
      both.renames source target =
        (if source ∈ boundNames a ∨ source ∈ boundNames b then 0
          else first.renames source target + second.renames source target) ∧
      (both.renames source target =
          first.renames source target + second.renames source target ↔
        (source ∈ boundNames a → second.renames source target = 0) ∧
          (source ∈ boundNames b → first.renames source target = 0)) := by
  have hfirst : ∀ m ∈ [a].flatten, m.Within 0 (literalText [A]).length := fun m hm => by
    rw [length_literalText_one]
    exact (h.inFirst m (by simpa using hm)).mono (by omega) (by omega)
  have hsecond : ∀ m ∈ [b].flatten, m.Within 0 (literalText [B]).length := fun m hm => by
    rw [length_literalText_one]
    exact (h.inSecond m (by simpa using hm)).mono (by omega) (by omega)
  have hboth : ∀ m ∈ [a, b.map (Mark.shift (A.length + 3))].flatten,
      m.Within 0 (literalText [A, B]).length := fun m hm => by
    rw [length_literalText_two]
    rw [List.flatten_cons, List.flatten_singleton, List.mem_append] at hm
    rcases hm with hm | hm
    · exact (h.inFirst m hm).mono (by omega) (by omega)
    · obtain ⟨m', hm', rfl⟩ := List.mem_map.1 hm
      exact ((h.inSecond m' hm').shift _).mono (by omega) (by omega)
  obtain ⟨first, hparse₁, hcount₁⟩ := h.first.renames hfirst hne
  obtain ⟨second, hparse₂, hcount₂⟩ := h.second.renames hsecond hne
  obtain ⟨both, hparse, hcount⟩ := h.both.renames hboth hne
  simp only [List.flatten_cons, List.flatten_nil, List.append_nil] at hcount₁ hcount₂ hcount
  rw [h.cutNames_both, List.count_append, boundNames_append, boundNames_shift] at hcount
  -- three of the four cases leave nothing of the hole that declares the name
  refine ⟨first, second, both, hparse₁, hparse₂, hparse, ?_⟩
  rw [hcount, hcount₁, hcount₂]
  by_cases ha : source ∈ boundNames a <;> by_cases hb : source ∈ boundNames b <;>
    simp [ha, hb, @eq_comm _ 0]

/-- The marks of `x => x` and of `a + x`, each in a literal of its own. -/
def lambdaMarks : List Mark := [.bind ⟨3, 4⟩ "x", .use ⟨8, 9⟩ "x"]

def sumMarks : List Mark := [.use ⟨3, 4⟩ "a", .use ⟨7, 8⟩ "x"]

theorem lambdaSum_holeByHole :
    HoleByHole "x => x".toList "a + x".toList lambdaMarks sumMarks where
  first := by decide +kernel
  second := by decide +kernel
  both := by decide +kernel
  inFirst := by simp [lambdaMarks, Mark.Within]
  inSecond := by simp [sumMarks, Mark.Within]

/-- A name that no hole declares is renamed wherever it is used. -/
theorem lambdaSum_renames :
    HoleByHole "x => x".toList "a + x".toList lambdaMarks sumMarks ∧
      ∃ first second both, Template.parse (literalText ["x => x".toList]) = some first ∧
        Template.parse (literalText ["a + x".toList]) = some second ∧
        Template.parse (literalText ["x => x".toList, "a + x".toList]) = some both ∧
        both.renames "a" "b" = first.renames "a" "b" + second.renames "a" "b" := by
  have hne : "a" ≠ "b" := by decide
  obtain ⟨first, second, both, hfirst, hsecond, hboth, -, hsum⟩ :=
    rename_literalText lambdaSum_holeByHole hne
  refine ⟨lambdaSum_holeByHole, first, second, both, hfirst, hsecond, hboth, hsum.2 ⟨?_, ?_⟩⟩ <;>
  · intro hbound
    simp [boundNames, lambdaMarks, sumMarks, Mark.bind?] at hbound

/-- The first hole declares `x`, so the `x` of the second one is left behind. -/
theorem lambdaSum_left :
    ∃ first second both, Template.parse (literalText ["x => x".toList]) = some first ∧
      Template.parse (literalText ["a + x".toList]) = some second ∧
      Template.parse (literalText ["x => x".toList, "a + x".toList]) = some both ∧
      first.renames "x" "y" = 0 ∧ second.renames "x" "y" = 1 ∧ both.renames "x" "y" = 0 := by
  have hne : "x" ≠ "y" := by decide
  obtain ⟨first, hfirst, hcount₁⟩ := lambdaSum_holeByHole.first.renames
    (by simp [lambdaMarks, Mark.Within, literalText, holeText]) hne
  obtain ⟨second, hsecond, hcount₂⟩ := lambdaSum_holeByHole.second.renames
    (by simp [sumMarks, Mark.Within, literalText, holeText]) hne
  obtain ⟨both, hboth, hcount⟩ := lambdaSum_holeByHole.both.renames
    (by simp [lambdaMarks, sumMarks, Mark.Within, Mark.shift, literalText, holeText]) hne
  refine ⟨first, second, both, hfirst, hsecond, hboth, ?_, ?_, ?_⟩
  · rw [hcount₁]
    decide +kernel
  · rw [hcount₂]
    decide +kernel
  · rw [hcount]
    decide +kernel

end JsxLoops.Tree
