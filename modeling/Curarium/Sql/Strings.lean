import Curarium.Library.Pieces
import Curarium.Library.Weights
import Mathlib.Data.List.DropRight

/-!
# String functions

The functions of PostgreSQL that the application calls on texts, for the arguments that it gives
them: patterns that stand for themselves or for one character of a class, always with the flag
`g`, and a delimiter that is not empty.

A text that is marked at the occurrences of a pattern and split at the marks is cut at these
occurrences, if the text does not look like a mark itself (`stringToArray_marked`).
-/

namespace Curarium
namespace Sql

/-- `regexp_replace` of a pattern that stands for itself. -/
def regexpReplace (pattern replacement text : List Char) : List Char :=
  replacement.intercalate (pieces pattern text)

/-- `regexp_replace` of the characters of a class by nothing. -/
def regexpRemove (chars text : List Char) : List Char := text.filter fun c => decide (c ∉ chars)

/-- `string_to_array`. Of the empty text it makes an empty array. -/
def stringToArray (delimiter text : List Char) : List (List Char) :=
  if text = [] then [] else pieces delimiter text

/-- `trim( both from … )`, which takes spaces away. -/
def trim (text : List Char) : List Char :=
  (text.dropWhile fun c => c == ' ').rdropWhile fun c => c == ' '

theorem regexpRemove_eq_self {chars text : List Char} (h : ∀ c ∈ chars, c ∉ text) :
    regexpRemove chars text = text :=
  List.filter_eq_self.mpr fun c hc => decide_eq_true fun hmem => h c hmem hc

theorem regexpRemove_append (chars s t : List Char) :
    regexpRemove chars (s ++ t) = regexpRemove chars s ++ regexpRemove chars t :=
  List.filter_append s t

theorem regexpRemove_intercalate {chars mark : List Char} (hmark : ∀ c ∈ chars, c ∉ mark)
    (ps : List (List Char)) :
    regexpRemove chars (mark.intercalate ps) = mark.intercalate (ps.map (regexpRemove chars)) := by
  induction ps with
  | nil => rfl
  | cons p ps ih =>
    cases ps with
    | nil => rw [List.intercalate_singleton, List.map_singleton, List.intercalate_singleton]
    | cons q qs =>
      rw [List.map_cons, List.map_cons, List.intercalate_cons_cons, List.intercalate_cons_cons,
        regexpRemove_append, regexpRemove_append, ih, regexpRemove_eq_self hmark, List.map_cons]

theorem intercalate_eq_nil_iff {mark : List Char} (hmark : mark ≠ []) {ps : List (List Char)}
    (hps : ps ≠ []) : mark.intercalate ps = [] ↔ ps = [[]] := by
  cases ps with
  | nil => exact absurd rfl hps
  | cons p ps =>
    cases ps with
    | nil => rw [List.intercalate_singleton, List.cons.injEq, and_iff_left rfl]
    | cons q qs =>
      rw [List.intercalate_cons_cons, List.append_eq_nil_iff, List.append_eq_nil_iff]
      exact iff_of_false (fun h => hmark h.1.2) fun h => by cases h

theorem count_intercalate {c : Char} {mark : List Char} (hc : c ∉ mark) (ps : List (List Char)) :
    (mark.intercalate ps).count c = weight (List.count c) ps := by
  induction ps with
  | nil => rfl
  | cons p ps ih =>
    cases ps with
    | nil => rw [List.intercalate_singleton, weight_cons, weight_nil, Nat.add_zero]
    | cons q qs =>
      rw [List.intercalate_cons_cons, List.count_append, List.count_append, List.count_eq_zero.mpr hc, ih,
        Nat.add_zero, weight_cons _ p]

/-- **Splitting at marks** that were put at the occurrences of a pattern, with the characters of a
class removed in between. -/
theorem stringToArray_marked {pattern mark chars text : List Char} {x : Char} (hpattern : pattern ≠ [])
    (hx : x ∈ mark) (htext : x ∉ text) (hmark : ∀ c ∈ chars, c ∉ mark) :
    stringToArray mark (regexpRemove chars (regexpReplace pattern mark text))
      = if (pieces pattern text).map (regexpRemove chars) = [[]] then []
        else (pieces pattern text).map (regexpRemove chars) := by
  have hne : (pieces pattern text).map (regexpRemove chars) ≠ [] := by
    rw [Ne, List.map_eq_nil_iff]
    exact pieces_ne_nil pattern text
  have hnot : ∀ p ∈ (pieces pattern text).map (regexpRemove chars), x ∉ p := by
    intro p hp hxp
    obtain ⟨q, hq, rfl⟩ := List.mem_map.mp hp
    exact htext ((infix_of_mem_pieces hpattern hq).subset (List.mem_filter.mp hxp).1)
  simp only [stringToArray, regexpReplace, regexpRemove_intercalate hmark,
    intercalate_eq_nil_iff (List.ne_nil_of_mem hx) hne, pieces_intercalate hx hne hnot]

/-! ### Trimming -/

/-- What is taken away at the ends are spaces. -/
theorem trim_eq (text : List Char) : ∃ pre post, text = pre ++ (trim text ++ post) ∧
    (∀ c ∈ pre, c = ' ') ∧ ∀ c ∈ post, c = ' ' := by
  refine ⟨text.takeWhile fun c => c == ' ', (text.dropWhile fun c => c == ' ').rtakeWhile fun c => c == ' ',
    ?_, ?_, ?_⟩
  · rw [trim, List.rdropWhile_append_rtakeWhile, List.takeWhile_append_dropWhile]
  · intro c hc
    have hspace := List.mem_takeWhile_imp hc
    exact beq_iff_eq.mp hspace
  · intro c hc
    have hspace := List.mem_rtakeWhile_imp hc
    exact beq_iff_eq.mp hspace

/-- Spaces behind a text that does not begin with one. -/
theorem trim_cons_append {c : Char} (hc : c ≠ ' ') {spaces : List Char} (h : ∀ d ∈ spaces, d = ' ') :
    trim (c :: spaces) = [c] := by
  have hfront : (c == ' ') = false := beq_eq_false_iff_ne.mpr hc
  have hback : (spaces.reverse ++ [c]).dropWhile (fun d => d == ' ') = [c] := by
    rw [List.dropWhile_append_of_pos fun d hd => by
      rw [h d (List.mem_reverse.mp hd)]
      rfl]
    rw [List.dropWhile_cons_of_neg (by rw [hfront]; decide)]
  rw [trim, List.dropWhile_cons_of_neg (by rw [hfront]; decide), List.rdropWhile, List.reverse_cons, hback]
  rfl

theorem count_trim {c : Char} (hc : c ≠ ' ') (text : List Char) : (trim text).count c = text.count c := by
  obtain ⟨pre, post, htext, hpre, hpost⟩ := trim_eq text
  have hzero : ∀ l : List Char, (∀ d ∈ l, d = ' ') → l.count c = 0 :=
    fun l hl => List.count_eq_zero.mpr fun hmem => hc (hl c hmem)
  conv_rhs => rw [htext, List.count_append, List.count_append, hzero _ hpre, hzero _ hpost]
  omega

theorem mem_trim {c : Char} {text : List Char} (h : c ∈ text) (hc : c ≠ ' ') : c ∈ trim text := by
  have hpos := List.count_pos_iff.mpr h
  rw [← count_trim hc] at hpos
  exact List.count_pos_iff.mp hpos

theorem mem_of_mem_trim {c : Char} {text : List Char} (h : c ∈ trim text) : c ∈ text :=
  (List.dropWhile_sublist _).subset ((List.rdropWhile_prefix _ _).subset h)

theorem infix_trim (text : List Char) : trim text <:+: text := by
  obtain ⟨pre, post, htext, -, -⟩ := trim_eq text
  exact ⟨pre, post, by rw [List.append_assoc, ← htext]⟩

end Sql
end Curarium
