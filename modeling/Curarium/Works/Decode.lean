import Curarium.Json.Numbers
import Curarium.Works.Items

/-!
# The values of a treemap

A list that `parsed` holds is stored as its `inspect` text, and the treemap statement decodes this
text by substitutions. `treemap_rows_iff` says for which works its rows are the values of the lists.

* Nothing may be escaped in a string, and no bracket may be in it: the statement keeps the
  backslashes and drops the brackets. Neither is made up for by another value, since there are never
  more backslashes in the values than in the texts, and never a bracket.
* A list of such strings and of numbers has to be `kept`, and a list with the empty string only is
  taken for an empty one.

What `lower` does to a letter depends on the locale, so it is a parameter: it maps the characters one
by one, leaves the characters that the statement looks for alone, and leaves no capital S.
-/

namespace Curarium
namespace Treemap

open WorksIndex Sql

/-- A number or a string. -/
inductive Scalar where
  | int (z : Int)
  | float (f : Flt)
  | str (s : String)
deriving DecidableEq

def Scalar.json : Scalar → Json
  | .int z => .int z
  | .float f => .float f
  | .str s => .str s

/-- The characters that the statement looks for, and the backslash. -/
def marked : List Char := ['"', '[', ']', '\\', ',', ' ']

/-- What is relied on of `lower`. -/
structure Lowers (low : Char → Char) : Prop where
  fixes : ∀ c d, d ∈ marked → (low c = d ↔ c = d)
  capital : ∀ c, low c ≠ 'S'

/-- What may stand in the text of a number. -/
def isNumeral (c : Char) : Bool := c.isAlphanum || c == '-' || c == '+' || c == '.'

section Stored

variable (printable : Char → Bool)

/-- The text that is stored for a list. -/
def storedList (xs : List Scalar) : String :=
  String.ofList ((Json.arr (xs.map Scalar.json)).inspect printable)

/-- The values as they should come out: trimmed and in lower case. -/
def listed (low : Char → Char) (xs : List Scalar) : List Text :=
  xs.map fun x => trim ((x.json.toS printable).map low)

/-- How a value is written. -/
def Scalar.item : Scalar → Item
  | .int z => .bare (Ruby.toS z)
  | .float f => .bare f.toS
  | .str s => .quoted (inspectBody printable s.toList)

/-- A string that is written as it is, and has no bracket. -/
def Scalar.Plain : Scalar → Prop
  | .str s => inspectBody printable s.toList = s.toList ∧ '[' ∉ s.toList ∧ ']' ∉ s.toList
  | _ => True

instance : DecidablePred (Scalar.Plain printable)
  | .int _ => .isTrue trivial
  | .float _ => .isTrue trivial
  | .str _ => inferInstanceAs (Decidable (_ ∧ _ ∧ _))

/-- The lists that the statement decodes. -/
structure Readable (xs : List Scalar) : Prop where
  plain : ∀ x ∈ xs, x.Plain printable
  kept : kept (xs.map (Scalar.item printable)) = true
  nonempty : xs ≠ [.str ""]

instance (xs : List Scalar) : Decidable (Readable printable xs) :=
  decidable_of_iff ((∀ x ∈ xs, x.Plain printable) ∧ kept (xs.map (Scalar.item printable)) = true ∧
    xs ≠ [.str ""]) ⟨fun h => ⟨h.1, h.2.1, h.2.2⟩, fun h => ⟨h.plain, h.kept, h.nonempty⟩⟩

theorem text_item (x : Scalar) : (x.item printable).text = x.json.inspect printable := by
  cases x with
  | int z => rw [Scalar.item, Scalar.json, Json.inspect, Item.text]
  | float f => rw [Scalar.item, Scalar.json, Json.inspect, Item.text]
  | str s => rw [Scalar.item, Scalar.json, Json.inspect, Item.text, inspectStr]

theorem tailText_items (xs : List Scalar) :
    tailText (xs.map (Scalar.item printable)) = inspectElems printable (xs.map Scalar.json) := by
  induction xs with
  | nil => rw [List.map_nil, List.map_nil, tailText, inspectElems]
  | cons x xs ih => rw [List.map_cons, List.map_cons, tailText, inspectElems, ih, text_item]

/-- **The stored text** is the text of the values with the quotes of the strings. -/
theorem toList_storedList (xs : List Scalar) :
    (storedList printable xs).toList = listText (xs.map (Scalar.item printable)) := by
  rw [storedList, String.toList_ofList]
  cases xs with
  | nil => rw [List.map_nil, List.map_nil, Json.inspect, listText]
  | cons x xs => rw [List.map_cons, List.map_cons, Json.inspect, listText, tailText_items, text_item]

end Stored

/-! ### Numbers -/

theorem isNumeral_of_isDigit {c : Char} (h : c.isDigit = true) : isNumeral c = true := by
  rw [isNumeral, Char.isAlphanum, h, Bool.or_true]
  rfl

theorem isNumeral_toDigits {n : Nat} {c : Char} (hc : c ∈ Nat.toDigits 10 n) : isNumeral c = true :=
  isNumeral_of_isDigit (Ruby.isDigit_toDigits hc)

theorem isNumeral_toS {z : Int} {c : Char} (hc : c ∈ Ruby.toS z) : isNumeral c = true := by
  rw [Ruby.toS] at hc
  split at hc
  · rcases List.mem_cons.mp hc with rfl | hc
    · decide
    · exact isNumeral_toDigits hc
  · exact isNumeral_toDigits hc

theorem isNumeral_exponentText {e : Int} {c : Char} (hc : c ∈ exponentText e) : isNumeral c = true := by
  rw [exponentText] at hc
  rcases List.mem_cons.mp hc with rfl | hc
  · decide
  rcases List.mem_cons.mp hc with rfl | hc
  · split
    · decide
    · decide
  split at hc
  · rcases List.mem_cons.mp hc with rfl | hc
    · decide
    · exact isNumeral_toDigits hc
  · exact isNumeral_toDigits hc

theorem isNumeral_magnitudeText {d : Decimal} {c : Char} (hc : c ∈ d.magnitudeText) :
    isNumeral c = true := by
  obtain ⟨ints, fracs, tail, e, htext, hints, -, hfracs, htail, -⟩ := d.spelledBy_magnitudeText
  rw [htext, List.mem_append, List.mem_cons, List.mem_append] at hc
  rcases hc with hc | rfl | hc | hc
  · rcases hints with rfl | ⟨-, hall, -⟩
    · rw [List.mem_singleton.mp hc]
      decide
    · exact isNumeral_of_isDigit (hall c hc)
  · decide
  · exact isNumeral_of_isDigit (hfracs c hc)
  · rcases htail with ⟨rfl, -⟩ | rfl
    · exact absurd hc List.not_mem_nil
    · exact isNumeral_exponentText hc

theorem isNumeral_float {f : Flt} {c : Char} (hc : c ∈ f.toS) : isNumeral c = true := by
  cases f with
  | finite d =>
    rw [Flt.toS, Decimal.toS] at hc
    split at hc
    · rcases List.mem_cons.mp hc with rfl | hc
      · decide
      · exact isNumeral_magnitudeText hc
    · exact isNumeral_magnitudeText hc
  | infinite neg =>
    have hall : ∀ c ∈ Flt.toS (.infinite neg), isNumeral c = true := by
      cases neg <;> exact List.all_eq_true.mp rfl
    exact hall c hc

theorem float_toS_ne_nil (f : Flt) : f.toS ≠ [] := by
  cases f with
  | finite d =>
    obtain ⟨ints, fracs, tail, e, htext, -⟩ := d.spelledBy_magnitudeText
    rw [Flt.toS, Decimal.toS, htext]
    split
    · exact List.cons_ne_nil _ _
    · exact List.append_ne_nil_of_right_ne_nil _ (List.cons_ne_nil _ _)
  | infinite neg =>
    have hall : ∀ neg : Bool, Flt.toS (.infinite neg) ≠ [] := by decide
    exact hall neg

/-- **The text of a number**: letters, digits, signs and a point. -/
theorem bare_item {printable : Char → Bool} {x : Scalar} {t : Text} (h : x.item printable = .bare t) :
    t ≠ [] ∧ ∀ c ∈ t, isNumeral c = true := by
  cases x with
  | int z =>
    obtain rfl := Item.bare.inj h
    refine ⟨fun hnil => ?_, fun c hc => isNumeral_toS hc⟩
    rw [Ruby.toS] at hnil
    split at hnil
    · cases hnil
    · exact Nat.toDigits_ne_nil hnil
  | float f =>
    obtain rfl := Item.bare.inj h
    exact ⟨float_toS_ne_nil f, fun c hc => isNumeral_float hc⟩
  | str s => cases h

/-! ### Lower case -/

theorem isNumeral_notMem {c : Char} (h : isNumeral c = true) : c ∉ marked := by
  intro hmem
  have hall : ∀ d ∈ marked, isNumeral d = false := List.all_iff_forall_prop.mp rfl
  rw [hall c hmem] at h
  cases h

section Lower

variable {low : Char → Char} (hlow : Lowers low)

include hlow

theorem Lowers.low_eq {d : Char} (hd : d ∈ marked) : low d = d := (hlow.fixes d d hd).mpr rfl

theorem Lowers.mem_map {d : Char} (hd : d ∈ marked) {t : Text} : d ∈ t.map low ↔ d ∈ t := by
  rw [List.mem_map]
  constructor
  · rintro ⟨c, hc, heq⟩
    exact (hlow.fixes c d hd).mp heq ▸ hc
  · exact fun h => ⟨d, h, hlow.low_eq hd⟩

theorem Lowers.count_map {d : Char} (hd : d ∈ marked) (t : Text) : (t.map low).count d = t.count d := by
  rw [List.count_eq_countP, List.countP_map, List.count_eq_countP]
  refine List.countP_congr fun c _ => ?_
  rw [Function.comp_apply, beq_iff_eq, beq_iff_eq]
  exact hlow.fixes c d hd

theorem Lowers.map_eq_iff {w : Text} (hw : ∀ d ∈ w, d ∈ marked) {t : Text} : t.map low = w ↔ t = w := by
  induction w generalizing t with
  | nil => exact List.map_eq_nil_iff
  | cons d w ih =>
    obtain ⟨hd, hw⟩ := List.forall_mem_cons.mp hw
    cases t with
    | nil => exact Iff.rfl
    | cons c t => rw [List.map_cons, List.cons.injEq, List.cons.injEq, hlow.fixes c d hd, ih hw]

theorem Lowers.isSpaces_map (t : Text) : isSpaces (t.map low) = isSpaces t := by
  rw [isSpaces, isSpaces, List.all_map, Bool.eq_iff_iff, List.all_eq_true, List.all_eq_true]
  refine forall₂_congr fun c _ => ?_
  rw [Function.comp_apply, beq_iff_eq, beq_iff_eq]
  exact hlow.fixes c ' ' (by decide)

/-- A value in lower case. -/
def Item.lower (low : Char → Char) : Item → Item
  | .bare t => .bare (t.map low)
  | .quoted t => .quoted (t.map low)

omit hlow in
theorem Item.value_lower (x : Item) : (x.lower low).value = x.value.map low := by
  cases x with
  | bare t => rfl
  | quoted t => rfl

omit hlow in
theorem all_isQuoted_lower (xs : List Item) :
    (xs.map (Item.lower low)).all Item.isQuoted = xs.all Item.isQuoted := by
  rw [List.all_map]
  refine congrArg xs.all (funext fun x => ?_)
  cases x with
  | bare t => rfl
  | quoted t => rfl

theorem Item.text_lower (x : Item) : (x.lower low).text = x.text.map low := by
  cases x with
  | bare t => rfl
  | quoted t =>
    rw [Item.lower, Item.text, Item.text, List.map_cons, List.map_append, List.map_singleton,
      hlow.low_eq (by decide)]

theorem tailText_lower (xs : List Item) : (tailText xs).map low = tailText (xs.map (Item.lower low)) := by
  induction xs with
  | nil => rw [List.map_nil, tailText, List.map_singleton, hlow.low_eq (by decide)]
  | cons x xs ih =>
    rw [List.map_cons, tailText, tailText, List.map_cons, List.map_cons, List.map_append, ih,
      ← Item.text_lower hlow, hlow.low_eq (by decide), hlow.low_eq (by decide)]

theorem listText_lower (xs : List Item) : (listText xs).map low = listText (xs.map (Item.lower low)) := by
  cases xs with
  | nil =>
    rw [List.map_nil, listText, List.map_cons, List.map_singleton, hlow.low_eq (by decide),
      hlow.low_eq (by decide)]
  | cons x xs =>
    rw [List.map_cons, listText, listText, List.map_cons, List.map_append, tailText_lower hlow,
      ← Item.text_lower hlow, hlow.low_eq (by decide)]

theorem comma_lower (t : Text) : t.map low = comma ↔ t = comma :=
  hlow.map_eq_iff (List.all_iff_forall_prop.mp rfl)

theorem refilled_lower (xs : List Item) : refilled (xs.map (Item.lower low)) = refilled xs := by
  induction xs with
  | nil => rfl
  | cons x xs ih =>
    cases x with
    | bare t => rfl
    | quoted t =>
      simp only [List.map_cons, Item.lower, refilled, comma_lower hlow, ih, hlow.isSpaces_map,
        all_isQuoted_lower]

theorem kept_lower (xs : List Item) : kept (xs.map (Item.lower low)) = kept xs := by
  cases xs with
  | nil => rfl
  | cons x xs =>
    cases x with
    | bare t =>
      simp only [List.map_cons, Item.lower, kept, List.isEmpty_map]
    | quoted t =>
      simp only [List.map_cons, Item.lower, kept, comma_lower hlow, refilled_lower hlow, all_isQuoted_lower]

end Lower

/-! ### One stored text -/

/-- **What the statement makes of a text** that `lower` has changed. -/
theorem elements_eq {lower : Text → Text} {stored : Text} (hcapital : 'S' ∉ lower stored) :
    elements lower stored
      = (if (pieces separator (lower stored)).map (regexpRemove removed) = [[]] then []
        else (pieces separator (lower stored)).map (regexpRemove removed)).map trim := by
  have hmark : 'S' ∈ "%SPLIT%".toList := by decide
  have hkeeps : ∀ c ∈ removed, c ∉ "%SPLIT%".toList := List.all_iff_forall_prop.mp rfl
  rw [← stringToArray_marked separator_ne_nil hmark hcapital hkeeps]
  rfl

/-- No value has one of the characters that are removed. -/
theorem removed_notMem_elements {lower : Text → Text} {stored v : Text} (hcapital : 'S' ∉ lower stored)
    (hv : v ∈ elements lower stored) {c : Char} (hc : c ∈ removed) : c ∉ v := by
  rw [elements_eq hcapital] at hv
  obtain ⟨p, hp, rfl⟩ := List.mem_map.mp hv
  split at hp
  · exact absurd hp List.not_mem_nil
  · obtain ⟨q, -, rfl⟩ := List.mem_map.mp hp
    intro hmem
    exact absurd hc (of_decide_eq_true (List.mem_filter.mp (mem_of_mem_trim hmem)).2)

/-- A character that is neither cut away nor removed nor trimmed is as often in the values as in the
text. -/
theorem weight_count_elements {lower : Text → Text} {stored : Text} (hcapital : 'S' ∉ lower stored)
    {c : Char} (hseparator : c ∉ separator) (hremoved : c ∉ removed) (hspace : c ≠ ' ') :
    weight (List.count c) (elements lower stored) = (lower stored).count c := by
  have hempty : ∀ ps : List Text,
      weight (List.count c) (if ps = [[]] then [] else ps) = weight (List.count c) ps := by
    intro ps
    split
    · next h => rw [h]; rfl
    · rfl
  have hremove : ∀ t : Text, (regexpRemove removed t).count c = t.count c :=
    fun t => List.count_filter (decide_eq_true hremoved)
  rw [elements_eq hcapital, weight_map, weight_congr fun t _ => count_trim hspace t, hempty, weight_map,
    weight_congr fun t _ => hremove t, ← count_intercalate hseparator,
    intercalate_pieces separator_ne_nil]

/-! ### What is escaped -/

theorem inspectChar_cases (printable : Char → Bool) (c : Char) (rest : Text) :
    (inspectChar printable c rest = [c] ∧ c ≠ '"') ∨
      [c].count '\\' < (inspectChar printable c rest).count '\\' := by
  rw [inspectChar]
  split
  case isTrue h =>
    right
    rw [List.count_cons_self]
    exact Nat.lt_succ_self _
  case isFalse h =>
    rw [not_or, not_or] at h
    -- the character itself is no backslash, but what it may be escaped to begins with one
    have hzero : [c].count '\\' = 0 := List.count_eq_zero.mpr fun hmem => h.2.1 (List.mem_singleton.mp hmem).symm
    cases controlEscape c with
    | some l =>
      right
      rw [hzero, List.count_cons_self]
      exact Nat.succ_pos _
    | none =>
      simp only
      split
      case isTrue => exact .inl ⟨rfl, h.1⟩
      case isFalse =>
        right
        rw [hzero, unicodeEscape]
        split
        · rw [List.count_cons_self]
          exact Nat.succ_pos _
        · rw [List.count_cons_self]
          exact Nat.succ_pos _

/-- **A string is written as it is**, or there are more backslashes. -/
theorem inspectBody_cases (printable : Char → Bool) (s : Text) :
    (inspectBody printable s = s ∧ '"' ∉ s) ∨ s.count '\\' < (inspectBody printable s).count '\\' := by
  induction s with
  | nil => exact .inl ⟨rfl, List.not_mem_nil⟩
  | cons c s ih =>
    have hcons : ([c] ++ s).count '\\' = [c].count '\\' + s.count '\\' := List.count_append
    rw [List.singleton_append] at hcons
    rw [inspectBody, List.count_append, hcons]
    rcases inspectChar_cases printable c s with ⟨hc, hquote⟩ | hlt
    · rw [hc]
      rcases ih with ⟨hs, hnot⟩ | hlt
      · rw [hs]
        exact .inl ⟨rfl, List.not_mem_cons_of_ne_of_not_mem (Ne.symm hquote) hnot⟩
      · exact .inr (by omega)
    · -- the rest has no fewer than before
      have hle : s.count '\\' ≤ (inspectBody printable s).count '\\' := by
        rcases ih with ⟨hs, -⟩ | hlt
        · rw [hs]
        · exact Nat.le_of_lt hlt
      exact .inr (by omega)

theorem item_cases (printable : Char → Bool) (x : Scalar) :
    (x.item printable).value = x.json.toS printable ∨
      (x.json.toS printable).count '\\' < (x.item printable).value.count '\\' := by
  cases x with
  | int z =>
    have htext : (Json.int z).toS printable = (Json.int z).inspect printable := rfl
    exact .inl (by rw [Scalar.json, htext, Json.inspect, Scalar.item, Item.value])
  | float f =>
    have htext : (Json.float f).toS printable = (Json.float f).inspect printable := rfl
    exact .inl (by rw [Scalar.json, htext, Json.inspect, Scalar.item, Item.value])
  | str s =>
    have hcases := inspectBody_cases printable s.toList
    rw [Scalar.json, Json.toS, Scalar.item, Item.value]
    exact hcases.imp_left And.left

theorem count_listText (xs : List Item) :
    (listText xs).count '\\' = weight (fun x => x.value.count '\\') xs := by
  have htext : ∀ x : Item, x.text.count '\\' = x.value.count '\\' := by
    intro x
    cases x with
    | bare t => rfl
    | quoted t =>
      rw [Item.text, List.count_cons_of_ne (by decide), List.count_append, Item.value]
      rfl
  -- neither the quotes nor the commas between the values are backslashes
  have htail : ∀ xs : List Item, (tailText xs).count '\\' = weight (fun x => x.value.count '\\') xs := by
    intro xs
    induction xs with
    | nil => rfl
    | cons x xs ih =>
      rw [tailText, List.count_cons_of_ne (by decide), List.count_cons_of_ne (by decide), List.count_append,
        htext, ih, weight_cons]
  cases xs with
  | nil => rfl
  | cons x xs => rw [listText, List.count_cons_of_ne (by decide), List.count_append, htext, htail, weight_cons]

/-! ### The result -/

section Result

variable {low : Char → Char} (hlow : Lowers low) {printable : Char → Bool}

/-- A list of numbers and plain strings. -/
def Plain (printable : Char → Bool) (xs : List Scalar) : Prop := ∀ x ∈ xs, x.Plain printable

/-- The values of a list as they are written, in lower case. -/
def lowered (printable : Char → Bool) (low : Char → Char) (xs : List Scalar) : List Item :=
  (xs.map (Scalar.item printable)).map (Item.lower low)

theorem Plain.value_item {xs : List Scalar} (h : Plain printable xs) {x : Scalar} (hx : x ∈ xs) :
    (x.item printable).value = x.json.toS printable := by
  rcases item_cases printable x with heq | hlt
  · exact heq
  · cases x with
    | int z => exact absurd hlt (Nat.lt_irrefl _)
    | float f => exact absurd hlt (Nat.lt_irrefl _)
    | str s =>
      rw [Scalar.json, Json.toS, Scalar.item, Item.value, (h _ hx).1] at hlt
      exact absurd hlt (Nat.lt_irrefl _)

theorem mem_marked_of_mem_removed : ∀ c ∈ removed, c ∈ marked := List.all_iff_forall_prop.mp rfl

include hlow in
/-- A numeral has neither marks nor separators. -/
theorem clean_bare {t : Text} (h : t ≠ [] ∧ ∀ c ∈ t, isNumeral c = true) :
    ((Item.bare t).lower low).Clean := by
  obtain ⟨hne, hnumeral⟩ := h
  refine ⟨fun c hc hmem => ?_, ?_⟩
  · have hct := (hlow.mem_map (mem_marked_of_mem_removed c hc)).mp hmem
    exact isNumeral_notMem (hnumeral c hct) (mem_marked_of_mem_removed c hc)
  · rintro value hvalue
    obtain rfl := Item.bare.inj hvalue
    obtain ⟨c, hc⟩ := List.exists_mem_of_ne_nil t hne
    have hcm := isNumeral_notMem (hnumeral c hc)
    refine ⟨low c, List.mem_map_of_mem hc, fun heq => ?_, fun heq => ?_⟩
    · exact hcm ((hlow.fixes c ' ' (by decide)).mp heq ▸ by decide)
    · exact hcm ((hlow.fixes c ',' (by decide)).mp heq ▸ by decide)

include hlow in
theorem clean_quoted {t : Text} (h : ∀ c ∈ removed, c ∉ t) : ((Item.quoted t).lower low).Clean := by
  refine ⟨fun c hc hmem => ?_, fun value hvalue => by cases hvalue⟩
  exact h c hc ((hlow.mem_map (mem_marked_of_mem_removed c hc)).mp hmem)

include hlow in
theorem Plain.clean {xs : List Scalar} (h : Plain printable xs) :
    ∀ x ∈ lowered printable low xs, x.Clean := by
  intro y hy
  obtain ⟨i, hi, rfl⟩ := List.mem_map.mp hy
  obtain ⟨x, hx, rfl⟩ := List.mem_map.mp hi
  cases hitem : x.item printable with
  | bare t => exact clean_bare hlow (bare_item hitem)
  | quoted t =>
    cases x with
    | int z => cases hitem
    | float f => cases hitem
    | str s =>
      obtain ⟨hplain, hopen, hclose⟩ := h _ hx
      obtain rfl : s.toList = t := by
        rw [← Item.quoted.inj hitem, hplain]
      -- a quote would have been escaped
      have hquote : '"' ∉ s.toList := by
        rcases inspectBody_cases printable s.toList with ⟨-, hquote⟩ | hlt
        · exact hquote
        · rw [hplain] at hlt
          exact absurd hlt (Nat.lt_irrefl _)
      exact clean_quoted hlow (List.forall_mem_cons.mpr
        ⟨hopen, List.forall_mem_cons.mpr ⟨hclose, List.forall_mem_singleton.mpr hquote⟩⟩)

include hlow in
/-- The stored text in lower case. -/
theorem map_storedList (xs : List Scalar) :
    (storedList printable xs).toList.map low = listText (lowered printable low xs) := by
  rw [toList_storedList, listText_lower hlow]
  rfl

include hlow in
theorem capital_notMem (t : Text) : 'S' ∉ t.map low := by
  intro h
  obtain ⟨c, -, hc⟩ := List.mem_map.mp h
  exact hlow.capital c hc

include hlow in
/-- **One list of plain strings and numbers.** -/
theorem Plain.elements_eq {xs : List Scalar} (h : Plain printable xs) :
    elements (List.map low) (storedList printable xs).toList = decoded (lowered printable low xs) ∧
      listed printable low xs = trimmed (lowered printable low xs) := by
  constructor
  · have hpieces := pieces_listText (h.clean hlow)
    rw [Treemap.elements_eq (capital_notMem hlow _), map_storedList hlow, hpieces, decoded]
    split
    · rfl
    · rfl
  · rw [listed, trimmed, lowered, List.map_map, List.map_map]
    refine List.map_congr_left fun x hx => ?_
    rw [Function.comp_apply, Function.comp_apply, Item.value_lower, h.value_item hx]

include hlow in
theorem readable_iff {xs : List Scalar} (h : Plain printable xs) : Readable printable xs ↔
    kept (lowered printable low xs) = true ∧ lowered printable low xs ≠ [.quoted []] := by
  have hkept : kept (lowered printable low xs) = kept (xs.map (Scalar.item printable)) := kept_lower hlow _
  have hempty : lowered printable low xs = [.quoted []] ↔ xs = [.str ""] := by
    constructor
    · intro heq
      have hlen : xs.length = 1 := by
        have hlen := congrArg List.length heq
        rwa [lowered, List.length_map, List.length_map] at hlen
      obtain ⟨x, rfl⟩ := List.length_eq_one_iff.mp hlen
      have hx : (x.item printable).lower low = .quoted [] := (List.cons.inj heq).1
      -- lower case has as many characters, so nothing is quoted
      have hvalue : (x.json.toS printable).map low = [] := by
        rw [← h.value_item List.mem_cons_self, ← Item.value_lower, hx]
        rfl
      cases x with
      | int z => cases hx
      | float f => cases hx
      | str s =>
        have hs : s.toList = [] := List.map_eq_nil_iff.mp hvalue
        rw [String.toList_eq_nil_iff.mp hs]
    · rintro rfl
      rfl
  rw [hkept, Ne, hempty]
  exact ⟨fun hread => ⟨hread.kept, hread.nonempty⟩, fun hboth => ⟨h, hboth.1, hboth.2⟩⟩

include hlow in
/-- No value that the statement finds makes up for a bracket or an escape. -/
theorem plain_of_perm {lists : List (List Scalar)}
    (hperm : (lists.flatMap fun xs => elements (List.map low) (storedList printable xs).toList).Perm
      (lists.flatMap (listed printable low))) : ∀ xs ∈ lists, Plain printable xs := by
  -- brackets are in no value
  have hremoved : ∀ xs ∈ lists, ∀ x ∈ xs, ∀ c ∈ removed, c ∉ x.json.toS printable := by
    intro xs hxs x hx c hc hmem
    have hmarked : c ∈ marked ∧ c ≠ ' ' := by
      have hall : ∀ c ∈ removed, c ∈ marked ∧ c ≠ ' ' := List.all_iff_forall_prop.mp rfl
      exact hall c hc
    have hvalue : trim ((x.json.toS printable).map low) ∈ lists.flatMap (listed printable low) :=
      List.mem_flatMap.mpr ⟨xs, hxs, List.mem_map_of_mem hx⟩
    obtain ⟨ys, -, hys⟩ := List.mem_flatMap.mp (hperm.mem_iff.mpr hvalue)
    exact removed_notMem_elements (capital_notMem hlow _) hys hc
      (mem_trim ((hlow.mem_map hmarked.1).mpr hmem) hmarked.2)
  -- and the backslashes are those of the texts
  have hfound : ∀ xs, weight (List.count '\\') (elements (List.map low) (storedList printable xs).toList)
      = weight (fun x => (x.item printable).value.count '\\') xs := by
    intro xs
    rw [weight_count_elements (capital_notMem hlow _) (by decide) (by decide) (by decide),
      hlow.count_map (by decide), toList_storedList, count_listText, weight_map]
  have hlisted : ∀ xs, weight (List.count '\\') (listed printable low xs)
      = weight (fun x => (x.json.toS printable).count '\\') xs := by
    intro xs
    rw [listed, weight_map]
    refine weight_congr fun x _ => ?_
    rw [count_trim (by decide), hlow.count_map (by decide)]
  have htotal := weight_perm (m := List.count '\\') hperm
  rw [weight_flatMap, weight_flatMap, weight_congr fun xs _ => hfound xs,
    weight_congr fun xs _ => hlisted xs] at htotal
  have hle : ∀ x : Scalar, (x.json.toS printable).count '\\' ≤ (x.item printable).value.count '\\' := by
    intro x
    rcases item_cases printable x with heq | hlt
    · rw [heq]
    · exact Nat.le_of_lt hlt
  intro xs hxs x hx
  have hlist := eq_of_weight_le (fun xs _ => weight_le fun x _ => hle x) htotal.le xs hxs
  have heq := eq_of_weight_le (fun x _ => hle x) hlist.ge x hx
  have hnot := hremoved xs hxs x hx
  cases x with
  | int z => trivial
  | float f => trivial
  | str s =>
    refine ⟨?_, hnot '[' (by decide), hnot ']' (by decide)⟩
    rcases inspectBody_cases printable s.toList with ⟨hplain, -⟩ | hlt
    · exact hplain
    · exact absurd (heq ▸ hlt) (Nat.lt_irrefl _)

include hlow in
/-- **The values that are found are those of the lists** exactly if each of them can be read. -/
theorem elements_perm_iff (lists : List (List Scalar)) :
    (lists.flatMap fun xs => elements (List.map low) (storedList printable xs).toList).Perm
      (lists.flatMap (listed printable low)) ↔ ∀ xs ∈ lists, Readable printable xs := by
  have hplain_iff : ∀ hplain : ∀ xs ∈ lists, Plain printable xs,
      (lists.flatMap fun xs => elements (List.map low) (storedList printable xs).toList).Perm
        (lists.flatMap (listed printable low)) ↔ ∀ xs ∈ lists, Readable printable xs := by
    intro hplain
    have hclean : ∀ ys ∈ lists.map (lowered printable low), ∀ y ∈ ys, y.Clean :=
      List.forall_mem_map.mpr fun xs hxs => (hplain xs hxs).clean hlow
    have hdecoded := decoded_perm_iff hclean
    rw [List.flatMap_map, List.flatMap_map, List.forall_mem_map] at hdecoded
    rw [List.flatMap_congr fun xs hxs => ((hplain xs hxs).elements_eq hlow).1,
      List.flatMap_congr fun xs hxs => ((hplain xs hxs).elements_eq hlow).2, hdecoded]
    exact forall₂_congr fun xs hxs => (readable_iff hlow (hplain xs hxs)).symm
  constructor
  · exact fun hperm => (hplain_iff (plain_of_perm hlow hperm)).mp hperm
  · exact fun hread => (hplain_iff fun xs hxs => (hread xs hxs).plain).mpr hread

include hlow in
/-- **The values of a list that can be read** stand in its text. -/
theorem infix_of_readable {xs : List Scalar} (hread : Readable printable xs) {v : Text}
    (hv : v ∈ elements (List.map low) (storedList printable xs).toList) :
    v <:+: (storedList printable xs).toList.map low := by
  have hperm := (elements_perm_iff hlow [xs]).mpr (List.forall_mem_singleton.mpr hread)
  rw [List.flatMap_singleton, List.flatMap_singleton] at hperm
  have hplain : Plain printable xs := hread.plain
  have hlisted := hperm.mem_iff.mp hv
  rw [(hplain.elements_eq hlow).2] at hlisted
  obtain ⟨x, hx, rfl⟩ := List.mem_map.mp hlisted
  rw [map_storedList hlow]
  exact ((infix_trim _).trans (value_infix_text x)).trans (text_infix_listText hx)

end Result

/-- One row for each of the texts, with the number of its occurrences, and no other row. -/
def RowsOf (rows : List Block) (ts : List Text) : Prop :=
  (rows.map Block.parsed).Nodup ∧ ∀ b, b ∈ rows ↔ b.parsed ∈ ts ∧ b.id = ts.count b.parsed

/-- The rows of a grouping are those of the same texts in any order. -/
theorem rowsOf_iff {rows : List Block} {vs ts : List Text} (hrows : rows.Perm (groupValues vs)) :
    RowsOf rows ts ↔ vs.Perm ts := by
  have hnodup : (rows.map Block.parsed).Nodup :=
    (hrows.map Block.parsed).nodup_iff.mpr (nodup_groupValues vs)
  have hmem : ∀ b, b ∈ rows ↔ b.parsed ∈ vs ∧ b.id = vs.count b.parsed :=
    fun b => hrows.mem_iff.trans mem_groupValues
  constructor
  · rintro ⟨-, h⟩
    rw [List.perm_iff_count]
    intro t
    by_cases ht : t ∈ vs
    · -- the row of a value has its count
      exact ((h ⟨t, vs.count t⟩).mp ((hmem _).mpr ⟨ht, rfl⟩)).2
    · have hts : t ∉ ts := fun hts => ht ((hmem _).mp ((h ⟨t, ts.count t⟩).mpr ⟨hts, rfl⟩)).1
      rw [List.count_eq_zero.mpr ht, List.count_eq_zero.mpr hts]
  · intro hperm
    refine ⟨hnodup, fun b => ?_⟩
    rw [hmem, hperm.mem_iff, hperm.count_eq]

/-- The property of a work holds a list. -/
def Stored (printable : Char → Bool) (property : Text) (w : Row) (xs : List Scalar) : Prop :=
  w.property property = some (storedList printable xs)

theorem flatMap_values {lower : Text → Text} {printable : Char → Bool} {property : Text} {works : List Row}
    {lists : List (List Scalar)} (h : List.Forall₂ (Stored printable property) works lists) :
    works.flatMap (values lower property)
      = lists.flatMap fun xs => elements lower (storedList printable xs).toList := by
  induction h with
  | nil => rfl
  | cons hw _ ih => rw [List.flatMap_cons, List.flatMap_cons, ih, values, hw, Option.elim_some]

/-- **The rows of the treemap are the stored values**, in lower case and trimmed, exactly if each of the
lists can be read. -/
theorem treemap_rows_iff {low : Char → Char} (hlow : Lowers low) {printable : Char → Bool}
    {order : List Block → List Block} (horder : ∀ all, (order all).Perm all) {property where_clause : Text}
    {works found : List Row} (hfound : select (List.map low) Row.columns where_clause works = some found)
    {lists : List (List Scalar)} (hstored : List.Forall₂ (Stored printable property) found lists) :
    ∃ vs, foundValues (List.map low) property where_clause works = some vs ∧
      (RowsOf (order (groupValues vs)) (lists.flatMap (listed printable low)) ↔
        ∀ xs ∈ lists, Readable printable xs) := by
  refine ⟨found.flatMap (values (List.map low) property), by rw [foundValues, hfound, Option.map_some], ?_⟩
  rw [rowsOf_iff (horder _), flatMap_values hstored]
  exact elements_perm_iff hlow lists

/-- ASCII letters in lower case. -/
theorem lowers_toLower : Lowers Char.toLower where
  fixes c d hd := by
    unfold Char.toLower
    split
    case isFalse => exact Iff.rfl
    case isTrue h =>
      -- neither a capital nor its small letter is one of the characters
      have hletter : 65 ≤ c.val.toNat ∧ c.val.toNat ≤ 90 :=
        ⟨UInt32.le_iff_toNat_le.mp h.1, UInt32.le_iff_toNat_le.mp h.2⟩
      have hval : (c.val + ('a'.val - 'A'.val)).toNat = (c.val.toNat + 32) % 2 ^ 32 := UInt32.toNat_add _ _
      have hmarked : ∀ e ∈ marked, e.val.toNat < 65 ∨ (90 < e.val.toNat ∧ e.val.toNat < 97) :=
        List.all_iff_forall_prop.mp rfl
      have hdval := hmarked d hd
      refine iff_of_false ?_ ?_
      · rintro rfl
        simp only at hdval
        omega
      · rintro rfl
        omega
  capital c := by
    intro h
    have hupper := Ruby.isUpper_toLower c
    rw [h] at hupper
    exact absurd hupper (by decide)

/-- Two works with topics, one of them with a comma in it, and a work with a year. -/
def threeLists : List (List Scalar) :=
  [[.str "Women", .str "Joseph, Saint"], [.str "women "], [.int 1889]]

/-- The works of a collection with these topics. -/
def topicWorks (lists : List (List Scalar)) : List Row :=
  lists.map fun xs => ⟨some 1, [("topics", some (storedList (fun _ => true) xs))], none⟩

theorem stored_topicWorks (lists : List (List Scalar)) :
    List.Forall₂ (Stored (fun _ => true) "topics".toList) (topicWorks lists) lists := by
  induction lists with
  | nil => exact .nil
  | cons xs lists ih =>
    refine .cons ?_ ih
    rw [Stored, Row.property, String.ofList_toList, List.lookup_cons_self]
    rfl

theorem treemap_rows_three : ∃ vs,
    foundValues (List.map Char.toLower) "topics".toList " collection_id = 1".toList (topicWorks threeLists)
        = some vs ∧
      RowsOf (groupValues vs) (threeLists.flatMap (listed (fun _ => true) Char.toLower)) := by
  have hfound : select (List.map Char.toLower) Row.columns " collection_id = 1".toList
      (topicWorks threeLists) = some (topicWorks threeLists) := by decide +kernel
  obtain ⟨vs, hvs, hiff⟩ := treemap_rows_iff lowers_toLower (fun all => List.Perm.refl all) hfound
    (stored_topicWorks threeLists)
  exact ⟨vs, hvs, hiff.mpr (by decide +kernel)⟩

/-- **A title in brackets** loses them. -/
theorem not_rows_brackets : ∃ vs,
    foundValues (List.map Char.toLower) "topics".toList " collection_id = 1".toList
        (topicWorks [[.str "[Untitled]"]]) = some vs ∧
      ¬ RowsOf (groupValues vs) (listed (fun _ => true) Char.toLower [.str "[Untitled]"]) := by
  have hfound : foundValues (List.map Char.toLower) "topics".toList " collection_id = 1".toList
      (topicWorks [[.str "[Untitled]"]]) = some ["untitled".toList] := by decide +kernel
  refine ⟨_, hfound, fun h => ?_⟩
  obtain ⟨hvalue, -⟩ := (h.2 ⟨"untitled".toList, 1⟩).mp (by decide)
  exact absurd hvalue (by decide +kernel)

end Treemap
end Curarium
