import JsxLoops.Options
import JsxLoops.Proofs.JsonText
import Mathlib

/-!
Options as text. Options are read back from what is written for them, with any adapter. The members
of an object of options may stand in any order and among others: what counts is the member that is
given under each of the known names.
-/

namespace JsxLoops

open JsxLoops.Json JsxLoops.Loop

/-! ### Reading back -/

theorem digitsValue_toDigits (n : Nat) : digitsValue (Nat.toDigits 10 n) = n :=
  Nat.ofDigitChars_toDigits (by decide) (by decide)

theorem decodeWord_ofNat (n : UInt32) : decodeWord (.number (.ofNat n.toNat)) = some n := by
  have hnatural : (Value.number (.ofNat n.toNat)).natural? = some n.toNat := by
    simp [Value.natural?, Numeral.natural?, Numeral.ofNat, digitsValue_toDigits]
  rw [decodeWord, hnatural]
  simpa using n.toNat_lt

theorem decodeStyle_styleName (style : Tree.Style) :
    decodeStyle (.ofText (styleName style)) = some style := by
  cases style <;> rfl

theorem sound_texts (texts : List String) : Value.soundItems (texts.map .ofText) = true := by
  induction texts with
  | nil => rfl
  | cons s texts ih => rw [List.map_cons, Value.soundItems, ih]; rfl

theorem depth_texts (texts : List String) : Value.depthOfItems (texts.map .ofText) = 0 := by
  induction texts with
  | nil => rfl
  | cons s texts ih => rw [List.map_cons, Value.depthOfItems, ih]; rfl

theorem texts?_ofTexts (texts : List String) :
    (Value.array (texts.map .ofText)).texts? = some texts := by
  rw [Value.texts?]
  induction texts with
  | nil => rfl
  | cons s texts ih => rw [List.map_cons, List.mapM_cons, ih]; rfl

theorem decodeAdapter_encodeAdapter (choice : AdapterChoice) :
    decodeAdapter (encodeAdapter choice) = some choice := by
  cases choice with
  | preset name => rfl
  | custom a =>
    have hsound : (encodeAdapter (.custom a)).isSound = true := by
      simp [encodeAdapter, Value.ofFields, Value.isSound, Value.soundMembers, sound_texts,
        show ∀ s, (Value.ofText s).isSound = true from fun _ => rfl]
    have hdepth : (encodeAdapter (.custom a)).depth ≤ adapterDepth := by
      simp [encodeAdapter, Value.ofFields, Value.depth, Value.depthOfMembers, depth_texts,
        show ∀ s, (Value.ofText s).depth = 0 from fun _ => rfl, adapterDepth]
    have hfields : (Fields.ofValue adapterNames (encodeAdapter (.custom a))).bind
        Adapter.ofFields = some a := by
      simp [encodeAdapter, Value.ofFields, Fields.ofValue, adapterNames, Adapter.ofFields,
        Fields.required, Fields.optional, texts?_ofTexts,
        show ∀ s, (Value.ofText s).text? = some s from fun _ => rfl]
    rw [decodeAdapter, if_pos (by rw [hsound, decide_eq_true hdepth]; rfl), hfields,
      Option.map_some]
    intro text htext
    cases htext

namespace Options

theorem plain_toValue (o : Options) : Plain o.toValue := by
  have hadapter : Plain (encodeAdapter o.adapter) := by
    cases o.adapter with
    | preset name => exact .text name
    | custom a =>
      have hstyles : Plain (.array (a.styleAttributes.map .ofText)) := .array fun v hv => by
        obtain ⟨s, -, rfl⟩ := List.mem_map.1 hv
        exact .text s
      refine .object ?_
      simp [Plain.text, hstyles]
  refine .object ?_
  simp [Plain.text, Plain.natural, Plain.bool, hadapter]

theorem ofFields_toValue (o : Options) :
    (Fields.ofValue optionNames o.toValue).bind ofFields = some o := by
  simp [toValue, Value.ofFields, Fields.ofValue, optionNames, ofFields, Fields.optional,
    decodeAdapter_encodeAdapter, decodeWord_ofNat, decodeStyle_styleName, Value.bool?,
    show ∀ s, (Value.ofText s).text? = some s from fun _ => rfl]

theorem readValue_of_blank {text : List Char} (h : ∀ c ∈ text, Text.isBlank c = true)
    (depth : Nat) : readValue depth text = none := by
  cases depth with
  | zero => rfl
  | succ depth =>
    have hblank : ∀ c ∈ skipGap text, Text.isBlank c = true := fun c hc =>
      h c ((List.dropWhile_sublist isGap).subset hc)
    rw [readValue]
    cases hskip : skipGap text with
    | nil => rfl
    | cons c rest =>
      have hc : Text.isBlank c = true := hblank c (hskip ▸ List.mem_cons_self)
      have hother (d : Char) (hd : Text.isBlank d = false) : c ≠ d := by
        rintro rfl
        exact Bool.noConfusion (hd.symm.trans hc)
      have hdigit : c.isDigit = false := by
        by_contra hne
        have hrange : 48 ≤ c.toNat ∧ c.toNat ≤ 57 :=
          Char.isDigit_iff_toNat.1 (Bool.eq_true_of_not_eq_false hne)
        simp [Text.isBlank] at hc
        omega
      have hnumeral : readNumeral (c :: rest) = none := by
        simp [readNumeral, readWhole, splitDigits, hdigit, hother '-' rfl, hother '0' rfl]
      simp [hnumeral, hother 'n' rfl, hother 't' rfl, hother 'f' rfl, hother '\x22' rfl,
        hother '[' rfl, hother '\x7b' rfl]

theorem isBlank_of_trim_isEmpty {text : List Char} (h : (Text.trim text).isEmpty = true) :
    ∀ c ∈ text, Text.isBlank c = true := by
  rw [List.isEmpty_iff, Text.trim, Text.trimRight, Text.dropRight, List.reverse_eq_nil_iff,
    List.dropWhile_eq_nil_iff] at h
  intro c hc
  rw [← List.takeWhile_append_dropWhile (p := Text.isBlank) (l := text), List.mem_append] at hc
  rcases hc with hc | hc
  · exact List.mem_takeWhile_imp hc
  · exact h c (List.mem_reverse.2 hc)

theorem parse_of_json {text : String} {v : Value} (h : Json.parse text.toList = some v) :
    Options.parse text = (Fields.ofValue optionNames v).bind ofFields := by
  have hblank : ¬ (Text.trim text.toList).isEmpty = true := fun hempty => by
    rw [Json.parse, readValue_of_blank (isBlank_of_trim_isEmpty hempty)] at h
    cases h
  rw [Options.parse, if_neg hblank, h, Option.bind_some]

/-! ### Members in any order -/

/-- A member under a name that no option has. -/
def IsForeign (m : Option String × Value) : Prop := ∃ key, m.1 = some key ∧ key ∉ optionNames

theorem ofFields_congr {f g : Fields} (h : ∀ name ∈ optionNames, f name = g name) :
    ofFields f = ofFields g := by
  simp only [optionNames, List.forall_mem_cons] at h
  simp only [ofFields, Fields.optional, h]

theorem find?_eq_of_perm {α : Type} {p : α → Bool} {xs ys : List α} (h : xs.Perm ys)
    (hone : xs.countP p ≤ 1) : xs.find? p = ys.find? p := by
  rw [List.countP_eq_length_filter] at hone
  rw [← List.head?_filter, ← List.head?_filter]
  have hfilter := h.filter p
  cases hxs : xs.filter p with
  | nil =>
    rw [hxs] at hfilter
    rw [List.nil_perm.1 hfilter]
  | cons x rest =>
    rw [hxs] at hfilter hone
    obtain rfl : rest = [] := List.length_eq_zero_iff.1 (by simpa using hone)
    rw [List.singleton_perm.1 hfilter]

theorem ofFields_perm {members extras members' : List (Option String × Value)}
    (hextras : ∀ m ∈ extras, IsForeign m) (h : members'.Perm (members ++ extras)) :
    (Fields.ofValue optionNames (.object members')).bind ofFields =
      (Fields.ofValue optionNames (.object members)).bind ofFields := by
  have hforeign {name : String} (hname : name ∈ optionNames) :
      ∀ m ∈ extras, (m.1 == some name) = false := fun m hm => by
    obtain ⟨key, hkey, hnot⟩ := hextras m hm
    rw [hkey]
    exact beq_false_of_ne fun he => hnot (Option.some.inj he ▸ hname)
  have hcount {name : String} (hname : name ∈ optionNames) :
      members'.countP (fun m => m.1 == some name) = members.countP fun m => m.1 == some name := by
    have hnone : extras.countP (fun m => m.1 == some name) = 0 :=
      List.countP_eq_zero.2 fun m hm => by rw [hforeign hname m hm]; exact Bool.false_ne_true
    rw [h.countP_eq, List.countP_append, hnone, Nat.add_zero]
  have hkeys : members'.all (·.1.isSome) = members.all (·.1.isSome) := by
    have hall : extras.all (·.1.isSome) = true := List.all_eq_true.2 fun m hm => by
      obtain ⟨key, hkey, -⟩ := hextras m hm
      rw [hkey, Option.isSome_some]
    rw [h.all_eq, List.all_append, hall, Bool.and_true]
  have hcounts : (optionNames.all fun name => members'.countP (fun m => m.1 == some name) ≤ 1) =
      optionNames.all fun name => members.countP (fun m => m.1 == some name) ≤ 1 := by
    refine Bool.eq_iff_iff.2 ?_
    simp only [List.all_eq_true, decide_eq_true_eq]
    exact forall₂_congr fun name hname => by rw [hcount hname]
  rw [Fields.ofValue, Fields.ofValue, hkeys, hcounts]
  split
  · rename_i hvalid
    rw [Option.bind_some, Option.bind_some]
    refine ofFields_congr fun name hname => congrArg (Option.map Prod.snd) ?_
    have hone : members.countP (fun m => m.1 == some name) ≤ 1 := by
      rw [Bool.and_eq_true] at hvalid
      exact of_decide_eq_true (List.all_eq_true.1 hvalid.2 name hname)
    have hnone : extras.find? (fun m => m.1 == some name) = none :=
      List.find?_eq_none.2 fun m hm => by rw [hforeign hname m hm]; exact Bool.false_ne_true
    rw [find?_eq_of_perm h (hcount hname ▸ hone), List.find?_append, hnone, Option.or_none]
  · rfl

/-- Options are read back from what is written for them. Two texts of objects give the same options
if the members of the one are those of the other in any order, with more of them under other
names. -/
theorem parse_render_members :
    (∀ o : Options, Options.parse o.render = some o) ∧
    ∀ (text text' : String) (members extras members' : List (Option String × Value)),
      Json.parse text.toList = some (.object members) →
      Json.parse text'.toList = some (.object members') →
      (∀ m ∈ extras, IsForeign m) → members'.Perm (members ++ extras) →
      Options.parse text' = Options.parse text := by
  refine ⟨fun o => ?_, fun text text' members extras members' h h' hextras hperm => ?_⟩
  · have hwritten : Json.parse o.render.toList = some o.toValue := by
      rw [render, String.toList_ofList]
      exact o.plain_toValue.parse_write
    rw [parse_of_json hwritten, ofFields_toValue]
  · rw [parse_of_json h, parse_of_json h', ofFields_perm hextras hperm]

/-- An adapter whose texts need every kind of escape. -/
def escapedAdapter : Adapter :=
  ⟨"\"\\\n", "a\tb", "é/😀", "\x01\x1f", "", "\x7b", ["style", "\r\x08\x0c"]⟩

/-- Two texts of one object, the second with its members turned round and one more. -/
theorem reorderedOptions_parse :
    Options.parse (render { adapter := .custom escapedAdapter, startId := 4294967295 }) =
      some { adapter := .custom escapedAdapter, startId := 4294967295 } ∧
    Options.parse "\x7b\"extra\":[1],\"verify\":false ,\"style\":\"concise\"\x7d" =
      Options.parse " \x7b \"style\":\"concise\", \"verify\":false\x7d" := by
  have hread : Json.parse " \x7b \"style\":\"concise\", \"verify\":false\x7d".toList =
      some (.object [(some "style", .ofText "concise"), (some "verify", .bool false)]) := by
    cbv
  have hread' : Json.parse "\x7b\"extra\":[1],\"verify\":false ,\"style\":\"concise\"\x7d".toList =
      some (.object [(some "extra", .array [.number (.ofNat 1)]), (some "verify", .bool false),
        (some "style", .ofText "concise")]) := by
    cbv
  refine ⟨parse_render_members.1 _, parse_render_members.2 _ _ _
    [(some "extra", .array [.number (.ofNat 1)])] _ hread hread' ?_ ?_⟩
  · exact List.forall_mem_singleton.2 ⟨"extra", rfl, by decide⟩
  · exact (List.reverse_perm _).symm

end Options

end JsxLoops
