import Curarium.Works.Tokens

/-!
# Plain requests

Terms with letters and digits only are filled into the clause as they are (`fill_plain`): they
split at their colon, and neither `sanitize_sql_array` nor the lexer sees anything in them. A text
that `quote_string` has gone over stands for itself whatever is in it (`enclosed_quoteString`).
-/

namespace Curarium
namespace WorksIndex

open Sql Transducer

/-- Letters and digits, at least one. -/
def Alphanumeric (t : Text) : Prop := t ≠ [] ∧ ∀ c ∈ t, c.isAlphanum = true

theorem Alphanumeric.of_all {t : Text} (h : t ≠ []) (hall : t.all Char.isAlphanum = true) :
    Alphanumeric t := ⟨h, List.all_eq_true.mp hall⟩

/-- A term with an alphanumeric name and value. -/
def PlainTerm (p : Text) : Prop :=
  ∃ name value, p = name ++ ':' :: value ∧ Alphanumeric name ∧ Alphanumeric value

/-- A request with alphanumeric texts only, and digits for the collection. -/
structure Plain (q : Query) : Prop where
  collectionId : ∀ t ∈ q.collectionId, t ≠ [] ∧ ∀ c ∈ t, c.isDigit = true
  includes : ∀ p ∈ q.includes, PlainTerm p
  excludes : ∀ p ∈ q.excludes, PlainTerm p
  colorfilter : ∀ t ∈ q.colorfilter, Alphanumeric t
  property : ∀ t ∈ q.property, Alphanumeric t

/-- **Doubled quotes stay inside a literal** and stand for the text itself. -/
theorem enclosed_quoteString (v : Text) : Enclosed (Rails.quoteString v) v := by
  induction v with
  | nil => exact .nil
  | cons c v ih =>
    rw [Rails.quoteString, List.flatMap_cons]
    by_cases hc : c = '\''
    · subst hc
      exact .doubled ih
    · rw [if_neg hc]
      exact .char hc ih

theorem isAlphanum_ne {c d : Char} (hc : c.isAlphanum = true) (hd : d.isAlphanum = false) :
    c ≠ d := by
  rintro rfl
  rw [hc] at hd
  cases hd

theorem Alphanumeric.notMem {t : Text} (h : Alphanumeric t) {d : Char} (hd : d.isAlphanum = false) :
    d ∉ t := fun hmem => isAlphanum_ne (h.2 d hmem) hd rfl

theorem split_plainTerm {name value : Text} (hname : Alphanumeric name)
    (hvalue : Alphanumeric value) :
    Ruby.split ':' (name ++ ':' :: value) = [name, value] := by
  have hv : value.isEmpty = false := by simpa using hvalue.1
  rw [Ruby.split, List.splitOn_append_cons_self, List.splitOn_eq_singleton (hname.notMem (by decide)),
    List.splitOn_eq_singleton (hvalue.notMem (by decide))]
  simp [List.rdropWhile, hv]

/-- A format without directives. -/
theorem unescape_of_notMem {name : Text} (h : '%' ∉ name) : Ruby.unescape name = some name := by
  have hfeed : feed Ruby.formatStep (.text []) name = (.text [], name) := by
    induction name with
    | nil => rfl
    | cons c cs ih =>
      rw [List.mem_cons, not_or] at h
      rw [feed_cons, Ruby.formatStep, if_neg (Ne.symm h.1), ih h.2]
      rfl
  simp only [Ruby.unescape, hfeed]

theorem unescape_alphanumeric {name : Text} (h : Alphanumeric name) :
    Ruby.unescape name = some name := unescape_of_notMem (h.notMem (by decide))

/-- The name of a plain term stays as it is. -/
theorem term_plainTerm {p : Text} {t : Text × Text} (hp : PlainTerm p) (ht : term p = some t) :
    Alphanumeric t.1 := by
  obtain ⟨name, value, rfl, hname, hvalue⟩ := hp
  rw [term, split_plainTerm hname hvalue] at ht
  cases ht
  exact hname

theorem terms_plain {skip : Text → Bool} {ps : List Text} {ts : List (Text × Text)}
    (hps : ∀ p ∈ ps, PlainTerm p) (h : terms skip ps = some ts) : ∀ t ∈ ts, Alphanumeric t.1 := by
  induction ps generalizing ts with
  | nil =>
    cases h
    exact fun _ ht => nomatch ht
  | cons p ps ih =>
    rw [List.forall_mem_cons] at hps
    rw [terms] at h
    split at h
    · exact ih hps.2 h
    · simp only [Option.bind_eq_some_iff, Option.map_eq_some_iff] at h
      obtain ⟨t, ht, us, hus, rfl⟩ := h
      rw [List.forall_mem_cons]
      exact ⟨term_plainTerm hps.1 ht, ih hps.2 hus⟩

theorem marks_plain {ts : List (Text × Text)} (h : ∀ t ∈ ts, Alphanumeric t.1) : marks ts = 0 := by
  induction ts with
  | nil => rfl
  | cons t ts ih =>
    rw [List.forall_mem_cons] at h
    rw [marks, List.map_cons, List.sum_cons, List.count_eq_zero.mpr (h.1.notMem (by decide)),
      Nat.zero_add]
    exact ih h.2

/-- Plain terms are filled in as they are. -/
theorem fill_plain {ts : List (Text × Text)} (h : ∀ t ∈ ts, Alphanumeric t.1) :
    fill ts = some (ts.map fun t => (t.1, Rails.quoteString (pattern t.2))) := by
  rw [fill, if_pos (marks_plain h)]
  induction ts with
  | nil => rfl
  | cons t ts ih =>
    rw [List.forall_mem_cons] at h
    rw [formatTerms, unescape_alphanumeric h.1, ih h.2]
    rfl

theorem isSpace_of_isDigit {c : Char} (hc : c.isDigit = true) : Ruby.isSpace c = false := by
  have hall : ∀ m < 58, 48 ≤ m → Ruby.isSpace (Char.ofNat m) = false := by decide
  simp only [Char.isDigit, Bool.and_eq_true, decide_eq_true_eq, UInt32.le_iff_toNat_le, ge_iff_le] at hc
  have hspace := hall c.toNat (Nat.lt_succ_of_le hc.2) hc.1
  rwa [Char.ofNat_toNat] at hspace

/-- Digits are present. -/
theorem present_digits {t : Text} (hne : t ≠ []) (hdigits : ∀ c ∈ t, c.isDigit = true) :
    present (some t) = some t := by
  obtain ⟨c, cs, rfl⟩ := List.exists_cons_of_ne_nil hne
  have hblank : Ruby.blank (c :: cs) = false := by
    rw [Ruby.blank, List.all_cons, isSpace_of_isDigit (hdigits c List.mem_cons_self), Bool.false_and]
  rw [present, Option.filter_some_pos (by rw [hblank]; rfl)]

theorem quoteString_of_notMem {v : Text} (h : '\'' ∉ v) : Rails.quoteString v = v := by
  induction v with
  | nil => rfl
  | cons c v ih =>
    rw [List.mem_cons, not_or] at h
    rw [Rails.quoteString, List.flatMap_cons, if_neg (Ne.symm h.1)]
    exact congrArg (c :: ·) (ih h.2)

end WorksIndex
end Curarium
