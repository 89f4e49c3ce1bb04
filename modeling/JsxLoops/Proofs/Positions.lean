import JsxLoops.Text.Position
import Mathlib

/-!
Places in a text as numbers. A place is found by one scan that moves a line and a column along;
here it is told by two counts of the text before it, the line feeds and the characters after the
last of them. Places grow with their offsets, lines first, so no two offsets share one.
-/

namespace JsxLoops.Text

/-! ### What stands before a place -/

/-- The characters of a text after its last line feed. -/
def lastLine (text : List Char) : List Char := (text.reverse.takeWhile (· != '\n')).reverse

theorem lastLine_concat_newline (text : List Char) : lastLine (text ++ ['\n']) = [] := by
  simp [lastLine]

theorem lastLine_concat {c : Char} (text : List Char) (hc : c ≠ '\n') :
    lastLine (text ++ [c]) = lastLine text ++ [c] := by
  simp [lastLine, hc]

namespace Position

/-- Places are ordered by line and then by column. -/
def key (p : Position) : ℕ ×ₗ ℕ := toLex (p.line, p.column)

theorem behind_concat (text : List Char) (c : Char) :
    behind (text ++ [c]) = (behind text).advance c := by
  rw [behind, List.foldl_append]
  rfl

theorem behind_eq (text : List Char) :
    behind text = ⟨text.count '\n' + 1, (lastLine text).length + 1⟩ := by
  induction text using List.reverseRecOn with
  | nil => rfl
  | append_singleton text c ih =>
    rw [behind_concat, ih, advance]
    split
    · subst c
      rw [lastLine_concat_newline, List.count_append]
      rfl
    · rename_i hc
      rw [lastLine_concat text hc, List.count_append, List.count_singleton, List.length_append]
      simp [hc]

theorem key_lt_advance (p : Position) (c : Char) : p.key < (p.advance c).key := by
  rw [key, key, Prod.Lex.toLex_lt_toLex, advance]
  split
  · exact .inl (Nat.lt_succ_self p.line)
  · exact .inr ⟨rfl, Nat.lt_succ_self p.column⟩

theorem key_lt_foldl (p : Position) (c : Char) (text : List Char) :
    p.key < ((c :: text).foldl advance p).key := by
  induction text generalizing p c with
  | nil => exact key_lt_advance p c
  | cons d text ih => exact (key_lt_advance p c).trans (ih (p.advance c) d)

theorem key_behind_lt (before : List Char) (c : Char) (more : List Char) :
    (behind before).key < (behind (before ++ c :: more)).key := by
  rw [behind, behind, List.foldl_append]
  exact key_lt_foldl _ c more

end Position

/-! ### Offsets -/

theorem byteLength_append (front back : List Char) :
    byteLength (front ++ back) = byteLength front + byteLength back := by
  induction front with
  | nil => rw [List.nil_append, byteLength, Nat.zero_add]
  | cons c front ih => rw [List.cons_append, byteLength, byteLength, ih, Nat.add_assoc]

/-- The offset falls between two characters of the source, or on one of its ends. -/
def OnBoundary (source : List Char) (offset : Nat) : Prop :=
  ∃ before, before <+: source ∧ byteLength before = offset

theorem takeBytes_byteLength (before after : List Char) :
    takeBytes (byteLength before) (before ++ after) = some before := by
  induction before with
  | nil => cases after <;> rfl
  | cons c before ih =>
    have hc := c.utf8Size_pos
    rw [List.cons_append, byteLength, takeBytes, if_neg (by omega), if_neg (by omega),
      Nat.add_sub_cancel_left, ih, Option.map_some]

theorem takeBytes_of_le {source : List Char} {offset : Nat} (h : byteLength source ≤ offset) :
    takeBytes offset source = some source := by
  induction source generalizing offset with
  | nil => rfl
  | cons c source ih =>
    rw [byteLength] at h
    have hc := c.utf8Size_pos
    rw [takeBytes, if_neg (by omega), if_neg (by omega), ih (by omega), Option.map_some]

theorem positionAt?_prefixed {source before : List Char} (h : before <+: source) :
    positionAt? source (byteLength before) = some (Position.behind before) := by
  obtain ⟨after, rfl⟩ := h
  rw [positionAt?, takeBytes_byteLength, Option.map_some]

theorem exists_between {source before before' : List Char} (h : before <+: source)
    (h' : before' <+: source) (hlt : byteLength before < byteLength before') :
    ∃ c more, before' = before ++ c :: more := by
  rcases List.prefix_or_prefix_of_prefix h h' with ⟨_ | ⟨c, more⟩, rfl⟩ | ⟨more, rfl⟩
  · rw [List.append_nil] at hlt
    exact absurd hlt (Nat.lt_irrefl _)
  · exact ⟨c, more, rfl⟩
  · rw [byteLength_append] at hlt
    omega

theorem key_lt_of_offset_lt {source before before' : List Char} (h : before <+: source)
    (h' : before' <+: source) (hlt : byteLength before < byteLength before') :
    (Position.behind before).key < (Position.behind before').key := by
  obtain ⟨c, more, rfl⟩ := exists_between h h' hlt
  exact Position.key_behind_lt before c more

/-- Offsets have different places in the order of the offsets. A place counts the line feeds
before it and the characters after the last of these, and all offsets past the end have the place
of the end. -/
theorem positionAt?_identifies (source : List Char) :
    (∀ a b, a < b → OnBoundary source a → OnBoundary source b →
      ∃ p q, positionAt? source a = some p ∧ positionAt? source b = some q ∧ p.key < q.key) ∧
    (∀ a b, OnBoundary source a → OnBoundary source b →
      positionAt? source a = positionAt? source b → a = b) ∧
    (∀ before after, source = before ++ after → positionAt? source (byteLength before) =
      some ⟨before.count '\n' + 1, (lastLine before).length + 1⟩) ∧
    ∀ offset, byteLength source ≤ offset →
      positionAt? source offset = positionAt? source (byteLength source) := by
  have ordered {a b : Nat} (hab : a < b) (ha : OnBoundary source a) (hb : OnBoundary source b) :
      ∃ p q, positionAt? source a = some p ∧ positionAt? source b = some q ∧ p.key < q.key := by
    obtain ⟨before, hbefore, rfl⟩ := ha
    obtain ⟨before', hbefore', rfl⟩ := hb
    exact ⟨_, _, positionAt?_prefixed hbefore, positionAt?_prefixed hbefore',
      key_lt_of_offset_lt hbefore hbefore' hab⟩
  have apart {a b : Nat} (hab : a < b) (ha : OnBoundary source a) (hb : OnBoundary source b) :
      positionAt? source a ≠ positionAt? source b := by
    obtain ⟨p, q, hp, hq, hlt⟩ := ordered hab ha hb
    rintro he
    obtain rfl : p = q := Option.some.inj (hp.symm.trans (he.trans hq))
    exact lt_irrefl _ hlt
  refine ⟨fun a b => ordered, fun a b ha hb he => ?_, ?_, fun offset hoffset => ?_⟩
  · rcases Nat.lt_trichotomy a b with hab | hab | hab
    · exact absurd he (apart hab ha hb)
    · exact hab
    · exact absurd he.symm (apart hab hb ha)
  · rintro before after rfl
    rw [positionAt?_prefixed (List.prefix_append before after), Position.behind_eq]
  · rw [positionAt?, positionAt?, takeBytes_of_le hoffset, takeBytes_of_le le_rfl]

/-- In `é`, a line feed and `ab`, the offsets 2 and 3 stand on both sides of the line feed, and 9
is past the end. -/
theorem brokenLine_identified :
    (∃ p q, positionAt? ['é', '\n', 'a', 'b'] 2 = some p ∧
      positionAt? ['é', '\n', 'a', 'b'] 3 = some q ∧ p.key < q.key) ∧
    positionAt? ['é', '\n', 'a', 'b'] 4 = some ⟨2, 2⟩ ∧
    positionAt? ['é', '\n', 'a', 'b'] 9 = positionAt? ['é', '\n', 'a', 'b'] 5 := by
  obtain ⟨ordered, -, counted, past⟩ := positionAt?_identifies ['é', '\n', 'a', 'b']
  refine ⟨ordered 2 3 (by decide) ⟨['é'], by decide, by decide⟩ ⟨['é', '\n'], by decide, by decide⟩,
    counted ['é', '\n', 'a'] ['b'] rfl, past 9 (by decide)⟩

end JsxLoops.Text
