import JsxLoops.Proofs.Literals
import Mathlib

/-!
Verbatim code and the source it is cut from. The pieces of verbatim code spell the source of its
span, nothing lost and nothing repeated, whatever names were collected: in any order, twice, inside
each other, or called other than they are spelled. Where a piece mentions a name, the name was
collected at that very place, and a collected name is passed over only for one that overlaps it.
-/

namespace JsxLoops.Surface

theorem Span.holds_iff {outer inner : Span} :
    outer.holds inner = true ↔ outer.start ≤ inner.start ∧ inner.stop ≤ outer.stop := by
  rw [Span.holds, Bool.and_eq_true, decide_eq_true_eq, decide_eq_true_eq]

theorem Span.slice_touching (source : List Char) {a b c : Nat} (hab : a ≤ b) (hbc : b ≤ c) :
    Span.slice source ⟨a, b⟩ ++ Span.slice source ⟨b, c⟩ = Span.slice source ⟨a, c⟩ := by
  have hdrop : source.drop b = (source.drop a).drop (b - a) := by
    rw [List.drop_drop, Nat.add_sub_cancel' hab]
  have hlength : c - a = (b - a) + (c - b) := by omega
  rw [slice, slice, slice, hdrop, hlength, List.take_add]

theorem Span.slice_eq_nil (source : List Char) {a b : Nat} (h : b ≤ a) :
    Span.slice source ⟨a, b⟩ = [] := by
  rw [slice, Nat.sub_eq_zero_of_le h, List.take_zero]

theorem Span.length_slice {source : List Char} {span : Span} (h : span.stop ≤ source.length) :
    (span.slice source).length = span.stop - span.start := by
  rw [slice, List.length_take, List.length_drop]
  omega

theorem Mark.mem_filterMap_use? {marks : List Mark} {u : Span × String} :
    u ∈ marks.filterMap Mark.use? ↔ Mark.use u.1 u.2 ∈ marks := by
  rw [List.mem_filterMap]
  constructor
  · rintro ⟨m, hm, hu⟩
    cases m <;> cases hu
    exact hm
  · exact fun h => ⟨_, h, rfl⟩

end JsxLoops.Surface

namespace JsxLoops.Tree

open JsxLoops.Surface

/-! ### Where the mentions of verbatim code stand -/

/-- The mentioned names with the ranges that they take up, if the first piece begins at `start`. -/
def placesFrom : Nat → List Piece → List (Span × String)
  | _, [] => []
  | start, .text s :: rest => placesFrom (start + s.length) rest
  | start, .mention name :: rest =>
    (⟨start, start + name.length⟩, name) :: placesFrom (start + name.length) rest

/-- The mentioned names with their ranges in the source, for code that begins at `start`. -/
def Verbatim.spansFrom (v : Verbatim) (start : Nat) : List (Span × String) :=
    placesFrom start v.pieces

theorem map_snd_placesFrom (start : Nat) (pieces : List Piece) :
    (placesFrom start pieces).map Prod.snd = pieces.filterMap Piece.mentioned? := by
  induction pieces generalizing start with
  | nil => rfl
  | cons p pieces ih =>
    cases p with
    | text s => exact ih _
    | mention name =>
      rw [placesFrom, List.map_cons, ih]
      rfl

/-! ### Plain text -/

section

variable {source : List Char} {a b c : Nat}

theorem sliceText_touching (hab : a ≤ b) (hbc : b ≤ c) :
    sliceText source ⟨a, b⟩ ++ sliceText source ⟨b, c⟩ = sliceText source ⟨a, c⟩ := by
  rw [sliceText, sliceText, sliceText, ← String.ofList_append, Span.slice_touching source hab hbc]

theorem length_sliceText {span : Span} (h : span.stop ≤ source.length) :
    (sliceText source span).length = span.stop - span.start := by
  rw [sliceText, String.length_ofList, Span.length_slice h]

theorem join_textPiece (source : List Char) (a b : Nat) :
    String.join ((textPiece source a b).map Piece.spelling) = sliceText source ⟨a, b⟩ := by
  rw [textPiece]
  split
  · rfl
  · rw [sliceText, Span.slice_eq_nil source (by omega)]
    rfl

theorem placesFrom_textPiece (hab : a ≤ b) (hb : b ≤ source.length) (rest : List Piece) :
    placesFrom a (textPiece source a b ++ rest) = placesFrom b rest := by
  rw [textPiece]
  split
  · rw [List.singleton_append, placesFrom, length_sliceText hb, Nat.add_sub_cancel' hab]
  · rw [List.nil_append, show a = b by omega]

end

/-! ### The cut -/

section Cut

variable {source : List Char} {cursor stop : Nat} {us : List (Span × String)}

theorem cutUses_cases (source : List Char) (cursor : Nat) (u : Span × String)
    (us : List (Span × String)) :
    ((u.1.start < cursor ∨ sliceText source u.1 ≠ u.2) ∧
        cutUses source cursor (u :: us) = cutUses source cursor us ∧
        ∀ stop, cutPieces source stop cursor (u :: us) = cutPieces source stop cursor us) ∨
      (cursor ≤ u.1.start ∧ sliceText source u.1 = u.2 ∧
        cutUses source cursor (u :: us) = u :: cutUses source u.1.stop us ∧
        ∀ stop, cutPieces source stop cursor (u :: us) =
          textPiece source cursor u.1.start ++
            .mention u.2 :: cutPieces source stop u.1.stop us) := by
  obtain ⟨span, name⟩ := u
  by_cases h : (span.start < cursor || sliceText source span != name) = true
  · refine .inl ⟨?_, by rw [cutUses, if_pos h], fun stop => by rw [cutPieces, if_pos h]⟩
    simpa using h
  · refine .inr ⟨?_, ?_, by rw [cutUses, if_neg h], fun stop => by rw [cutPieces, if_neg h]⟩
    · simp only [Bool.or_eq_true, decide_eq_true_eq, not_or, not_lt] at h
      exact h.1
    · simp only [Bool.or_eq_true, bne_iff_ne, not_or, not_not] at h
      exact h.2

theorem join_cutPieces (hcursor : cursor ≤ stop)
    (hus : ∀ u ∈ us, u.1.start ≤ u.1.stop ∧ u.1.stop ≤ stop) :
    String.join ((cutPieces source stop cursor us).map Piece.spelling) =
      sliceText source ⟨cursor, stop⟩ := by
  induction us generalizing cursor with
  | nil => exact join_textPiece source cursor stop
  | cons u us ih =>
    obtain ⟨⟨hproper, hstop⟩, hus⟩ := List.forall_mem_cons.1 hus
    rcases cutUses_cases source cursor u us with ⟨-, -, hpieces⟩ | ⟨hstart, hname, -, hpieces⟩
    · rw [hpieces, ih hcursor hus]
    · have hspelled : Piece.spelling (.mention u.2) = sliceText source ⟨u.1.start, u.1.stop⟩ :=
        hname.symm
      rw [hpieces, List.map_append, String.join_append, join_textPiece, List.map_cons,
        String.join_cons, ih hstop hus, hspelled, sliceText_touching hproper hstop,
        sliceText_touching hstart (hproper.trans hstop)]

theorem placesFrom_cutPieces (hsource : stop ≤ source.length) (hcursor : cursor ≤ stop)
    (hus : ∀ u ∈ us, u.1.start ≤ u.1.stop ∧ u.1.stop ≤ stop) :
    placesFrom cursor (cutPieces source stop cursor us) = cutUses source cursor us := by
  induction us generalizing cursor with
  | nil =>
    have h := placesFrom_textPiece hcursor hsource []
    rwa [List.append_nil] at h
  | cons u us ih =>
    obtain ⟨⟨hproper, hstop⟩, hus⟩ := List.forall_mem_cons.1 hus
    rcases cutUses_cases source cursor u us with ⟨-, huses, hpieces⟩
      | ⟨hstart, hname, huses, hpieces⟩
    · rw [hpieces, huses, ih hcursor hus]
    · have hlength : u.1.start + u.2.length = u.1.stop := by
        rw [← hname, length_sliceText (hstop.trans hsource), Nat.add_sub_cancel' hproper]
      rw [hpieces, huses, placesFrom_textPiece hstart (hproper.trans (hstop.trans hsource)),
        placesFrom, hlength, ih hstop hus]

theorem cutUses_sublist (source : List Char) (cursor : Nat) (us : List (Span × String)) :
    (cutUses source cursor us).Sublist us := by
  induction us generalizing cursor with
  | nil => exact List.Sublist.slnil
  | cons u us ih =>
    rcases cutUses_cases source cursor u us with ⟨-, huses, -⟩ | ⟨-, -, huses, -⟩
    · rw [huses]
      exact (ih cursor).cons u
    · rw [huses]
      exact (ih u.1.stop).cons_cons u

theorem of_mem_cutUses (hus : ∀ u ∈ us, u.1.start ≤ u.1.stop) {u : Span × String}
    (h : u ∈ cutUses source cursor us) : cursor ≤ u.1.start ∧ sliceText source u.1 = u.2 := by
  induction us generalizing cursor with
  | nil => cases h
  | cons v us ih =>
    obtain ⟨hproper, hus⟩ := List.forall_mem_cons.1 hus
    rcases cutUses_cases source cursor v us with ⟨-, huses, -⟩ | ⟨hstart, hname, huses, -⟩
    · exact ih hus (huses ▸ h)
    · rw [huses, List.mem_cons] at h
      rcases h with rfl | h
      · exact ⟨hstart, hname⟩
      · obtain ⟨hcursor, hspelled⟩ := ih hus h
        exact ⟨hstart.trans (hproper.trans hcursor), hspelled⟩

theorem pairwise_cutUses (hus : ∀ u ∈ us, u.1.start ≤ u.1.stop) :
    (cutUses source cursor us).Pairwise fun u v => u.1.stop ≤ v.1.start := by
  induction us generalizing cursor with
  | nil => exact List.Pairwise.nil
  | cons u us ih =>
    have htail := (List.forall_mem_cons.1 hus).2
    rcases cutUses_cases source cursor u us with ⟨-, huses, -⟩ | ⟨-, -, huses, -⟩
    · rw [huses]
      exact ih htail
    · rw [huses]
      exact List.pairwise_cons.2 ⟨fun v hv => (of_mem_cutUses htail hv).1, ih htail⟩

/-- Among names in order, one that is spelled as it is called is passed over only if it starts
before the cursor or inside a name that was cut out. -/
theorem mem_cutUses_or_overlapped (cursor : Nat)
    (hsorted : us.Pairwise fun u v => u.1.start ≤ v.1.start) {u : Span × String} (hu : u ∈ us)
    (hname : sliceText source u.1 = u.2) :
    u ∈ cutUses source cursor us ∨ u.1.start < cursor ∨
      ∃ v ∈ cutUses source cursor us, v.1.start ≤ u.1.start ∧ u.1.start < v.1.stop := by
  induction us generalizing cursor with
  | nil => cases hu
  | cons w us ih =>
    obtain ⟨hw, hsorted⟩ := List.pairwise_cons.1 hsorted
    rcases cutUses_cases source cursor w us with ⟨hpassed, huses, -⟩ | ⟨-, -, huses, -⟩
    · rw [huses]
      rcases List.mem_cons.1 hu with rfl | hu
      · exact .inr (.inl (hpassed.resolve_right (not_not.2 hname)))
      · exact ih cursor hsorted hu
    · rw [huses]
      rcases List.mem_cons.1 hu with rfl | hu
      · exact .inl List.mem_cons_self
      · rcases ih w.1.stop hsorted hu with hcut | hbefore | ⟨v, hv, hinside⟩
        · exact .inl (List.mem_cons_of_mem w hcut)
        · exact .inr (.inr ⟨w, List.mem_cons_self, hw u hu, hbefore⟩)
        · exact .inr (.inr ⟨v, List.mem_cons_of_mem w hv, hinside⟩)

end Cut

/-! ### The order of used names -/

theorem sortUses_eq_insertionSort (us : List (Span × String)) :
    sortUses us = us.insertionSort fun u v => u.1.start ≤ v.1.start := by
  have insert (u : Span × String) (vs : List (Span × String)) :
      insertUse u vs = vs.orderedInsert (fun u v => u.1.start ≤ v.1.start) u := by
    induction vs with
    | nil => rfl
    | cons v vs ih => rw [insertUse, List.orderedInsert_cons, ih]
  induction us with
  | nil => rfl
  | cons u us ih => rw [List.insertionSort_cons, ← ih, ← insert, sortUses,
    List.foldr_cons, sortUses]

theorem pairwise_sortUses (us : List (Span × String)) :
    (sortUses us).Pairwise fun u v => u.1.start ≤ v.1.start := by
  have : Std.Total fun u v : Span × String => u.1.start ≤ v.1.start :=
    ⟨fun u v => Nat.le_total u.1.start v.1.start⟩
  have : IsTrans (Span × String) fun u v => u.1.start ≤ v.1.start := ⟨fun _ _ _ => Nat.le_trans⟩
  rw [sortUses_eq_insertionSort]
  exact List.pairwise_insertionSort _ us

/-! ### Renaming -/

theorem map_rename_eq_self {pieces : List Piece} {source : String}
    (h : source ∉ pieces.filterMap Piece.mentioned?) (target : String) :
    pieces.map (Piece.rename source target) = pieces := by
  refine (List.map_congr_left ?_).trans (List.map_id pieces)
  rintro (s | name) hp
  · rfl
  · have hname : name ≠ source := fun he =>
      h (List.mem_filterMap.2 ⟨.mention name, hp, congrArg some he⟩)
    rw [Piece.rename, beq_false_of_ne hname, if_neg Bool.false_ne_true, id]

/-- Verbatim code is the source of its span. The names it mentions are collected ones inside the
span, spelled as they are called, each at its own place and none over another; a collected name
that is spelled as it is called is mentioned too, unless it starts inside one that is. A rename of
a name that is not mentioned changes nothing. -/
theorem verbatimCode_spells (source : List Char) (span : Span) (marks : List Mark)
    (hspan : span.start ≤ span.stop) (hsource : span.stop ≤ source.length)
    (hmarks : ∀ s name, Mark.use s name ∈ marks → s.start ≤ s.stop) :
    let code := verbatimCode source span marks
    let places := code.spansFrom span.start
    code.text = sliceText source span ∧ places.map Prod.snd = code.mentions ∧
    (∀ u ∈ places, Mark.use u.1 u.2 ∈ marks ∧ span.holds u.1 = true ∧ sliceText source u.1 = u.2) ∧
    places.Pairwise (fun u v => u.1.stop ≤ v.1.start) ∧
    (∀ s name, Mark.use s name ∈ marks → span.holds s = true → sliceText source s = name →
      (s, name) ∈ places ∨ ∃ u ∈ places, u.1.start ≤ s.start ∧ s.start < u.1.stop) ∧
    ∀ old new, old ∉ code.mentions →
      code.pieces.map (Piece.rename old new) = code.pieces ∧ (code.rename old new).text =
      code.text := by
  intro code places
  let uses := sortUses ((marks.filterMap Mark.use?).filter fun u => span.holds u.1)
  have huses {u : Span × String} :
      u ∈ uses ↔ Mark.use u.1 u.2 ∈ marks ∧ span.holds u.1 = true := by
    rw [mem_sortUses, List.mem_filter, Mark.mem_filterMap_use?]
  have hproper : ∀ u ∈ uses, u.1.start ≤ u.1.stop := fun u hu => hmarks _ _ (huses.1 hu).1
  have hinside : ∀ u ∈ uses, u.1.start ≤ u.1.stop ∧ u.1.stop ≤ span.stop := fun u hu =>
    ⟨hproper u hu, (Span.holds_iff.1 (huses.1 hu).2).2⟩
  have hplaces : places = cutUses source span.start uses :=
    placesFrom_cutPieces hsource hspan hinside
  rw [hplaces]
  refine ⟨join_cutPieces hspan hinside, ?_, fun u hu => ?_, pairwise_cutUses hproper,
    fun s name hs hheld hname => ?_, fun old new hold => ?_⟩
  · rw [← hplaces]
    exact map_snd_placesFrom _ _
  · obtain ⟨hmark, hheld⟩ := huses.1 ((cutUses_sublist source span.start uses).subset hu)
    exact ⟨hmark, hheld, (of_mem_cutUses hproper hu).2⟩
  · have hu : (s, name) ∈ uses := huses.2 ⟨hs, hheld⟩
    rcases mem_cutUses_or_overlapped span.start (pairwise_sortUses _) hu hname with
      hcut | hbefore | hover
    · exact .inl hcut
    · exact absurd (Span.holds_iff.1 hheld).1 (not_le.2 hbefore)
    · exact .inr hover
  · have hpieces := map_rename_eq_self hold new
    refine ⟨hpieces, ?_⟩
    rw [Verbatim.rename]
    split
    · rfl
    · rw [hpieces]

/-- Names collected out of order, twice, over each other, and under a name that is not in the
source. -/
def tangledMarks : List Mark :=
  [.use ⟨4, 5⟩ "x", .use ⟨0, 1⟩ "x", .use ⟨0, 3⟩ "x.y", .use ⟨0, 1⟩ "x", .use ⟨2, 3⟩ "z"]

theorem tangledMarks_spelled :
    (∀ s name, Mark.use s name ∈ tangledMarks → s.start ≤ s.stop) ∧
    (verbatimCode "x.y(x)".toList ⟨0, 6⟩ tangledMarks).text = "x.y(x)" ∧
    (verbatimCode "x.y(x)".toList ⟨0, 6⟩ tangledMarks).mentions = ["x", "x"] ∧
    ((verbatimCode "x.y(x)".toList ⟨0, 6⟩ tangledMarks).rename "y" "w").text = "x.y(x)" := by
  have hmarks : ∀ s name, Mark.use s name ∈ tangledMarks → s.start ≤ s.stop := by
    intro s name h
    simp only [tangledMarks, List.mem_cons, Mark.use.injEq, List.not_mem_nil, or_false] at h
    rcases h with ⟨rfl, -⟩ | ⟨rfl, -⟩ | ⟨rfl, -⟩ | ⟨rfl, -⟩ | ⟨rfl, -⟩ <;> decide
  have hmentions : (verbatimCode "x.y(x)".toList ⟨0, 6⟩ tangledMarks).mentions = ["x", "x"] := by
    decide +kernel
  obtain ⟨htext, -, -, -, -, hrename⟩ := verbatimCode_spells "x.y(x)".toList ⟨0, 6⟩ tangledMarks
    (by decide) (by decide) hmarks
  have hslice : sliceText "x.y(x)".toList ⟨0, 6⟩ = "x.y(x)" := by decide +kernel
  have hkept := (hrename "y" "w" (by rw [hmentions]; decide)).2
  exact ⟨hmarks, htext.trans hslice, hmentions, hkept.trans (htext.trans hslice)⟩

end JsxLoops.Tree
