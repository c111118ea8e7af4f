import Curarium.Works.Index
import Mathlib.Algebra.Order.Ring.Nat
import Mathlib.Data.Bool.AllAny

/-!
# The places of a clause

`clause` reads a request into the texts that end up in the `where` clause of the works index, one
for each place that is filled from the request, and `whereClause_eq` says that the clause is its
template with these texts in their places.

* The loops join the terms with their separator (`eachWithIndex_includeStep`,
  `eachWithIndex_excludeStep`); the terms with the value `Other` are left out, and two of them
  before the first other term leave a separator before it (`leads`).
* A value goes to the place of its own term or, when there are question marks in the names, into
  the names (`sanitizeSqlArray_statement`). Directives in the names leave too few arguments for
  the values, so the format raises.
-/

namespace Curarium
namespace WorksIndex

/-! ### The terms of a request -/

/-- Is the value of the term `Other`? -/
def isOther (p : Text) : Bool := (Ruby.split ':' p)[1]? == some "Other".toList

theorem isOther_iff {p : Text} : isOther p = true ↔ (Ruby.split ':' p)[1]? = some "Other".toList := by
  rw [isOther, beq_iff_eq]

/-- The name and the value of a term; `none` if it has no value. -/
def term (p : Text) : Option (Text × Text) :=
  (Ruby.split ':' p)[1]?.map fun value => ((Ruby.split ':' p).headD [], value)

/-- The terms of a list but for those that are skipped; `none` if one has no value. -/
def terms (skip : Text → Bool) : List Text → Option (List (Text × Text))
  | [] => some []
  | p :: ps =>
    if skip p then terms skip ps
    else (term p).bind fun t => (terms skip ps).map fun ts => t :: ts

/-- Conditions with a separator between them, and maybe one before them. -/
def joinTerms (sep : Text) (lead : Bool) : List (Text × Text) → Text
  | [] => []
  | t :: ts =>
    (if lead then sep else []) ++ termText t.1 t.2 ++ ts.flatMap fun u => sep ++ termText u.1 u.2

/-- The statement of a list of terms, before it is filled in. -/
def statement (sep : Text) (lead : Bool) (ts : List (Text × Text)) : Text :=
  joinTerms sep lead (ts.map fun t => (t.1, "%s".toList))

theorem statement_cons (sep : Text) (lead : Bool) (t : Text × Text) (ts : List (Text × Text)) :
    statement sep lead (t :: ts)
      = (if lead then sep else []) ++ termText t.1 "%s".toList
        ++ ts.flatMap fun u => sep ++ termText u.1 "%s".toList := by
  rw [statement, List.map_cons, joinTerms, List.flatMap_map]

/-- Two values `Other` before the first other term make the loop put a separator before it. -/
def leads (includes : List Text) : Bool := decide (2 ≤ includes.findIdx fun p => !isOther p)

theorem add_eq (acc : WhereValues) (sep : Text) (joined : Bool) (p : Text) :
    acc.add sep joined (Ruby.split ':' p)
      = (term p).map fun t =>
          { acc with
            statement :=
              acc.statement ++ (if joined then sep else []) ++ termText t.1 "%s".toList
            values := acc.values ++ [pattern t.2] } := by
  rw [WhereValues.add, term, Option.map_map]
  rfl

/-- Once the index has passed the first term, every term is appended with its separator. -/
theorem eachWithIndex_joined {step : WhereValues → Nat → Text → Option WhereValues}
    {skip : Text → Bool} {sep : Text}
    (hstep : ∀ acc i p, (if acc.hasOther then 1 else 0) < i →
      step acc i p = if skip p then some { acc with hasOther := true }
        else acc.add sep true (Ruby.split ':' p))
    (ps : List Text) (acc : WhereValues) (i : Nat) (hi : (if acc.hasOther then 1 else 0) < i) :
    eachWithIndex step acc i ps
      = (terms skip ps).map fun ts =>
          ⟨acc.statement ++ ts.flatMap fun t => sep ++ termText t.1 "%s".toList,
            acc.values ++ ts.map fun t => pattern t.2, acc.hasOther || ps.any skip⟩ := by
  induction ps generalizing acc i with
  | nil => simp [eachWithIndex, terms]
  | cons p ps ih =>
    rw [eachWithIndex, hstep acc i p hi, terms]
    by_cases hp : skip p
    · -- a skipped term sets the flag, and the index grows with the bound
      have hi' : 1 < i + 1 := by split at hi <;> omega
      rw [if_pos hp, if_pos hp, Option.bind_some, ih _ _ hi']
      simp only [List.any_cons, hp, Bool.true_or, Bool.or_true]
    · rw [if_neg hp, if_neg hp, add_eq]
      cases term p with
      | none => rfl
      | some t =>
        have hi' : (if acc.hasOther then 1 else 0) < i + 1 := Nat.lt_succ_of_lt hi
        rw [Option.map_some, Option.bind_some, Option.bind_some, ih _ _ (by exact hi'),
          Option.map_map]
        simp only [if_true, List.append_assoc, List.nil_append, List.cons_append, List.any_cons, hp,
          Bool.false_or, Function.comp_def, List.flatMap_cons, List.map_cons]

theorem includeStep_joined (acc : WhereValues) (i : Nat) (p : Text)
    (hi : (if acc.hasOther then 1 else 0) < i) :
    includeStep acc i p = if isOther p then some { acc with hasOther := true }
      else acc.add " AND ".toList true (Ruby.split ':' p) := by
  simp only [includeStep, isOther_iff, gt_iff_lt, hi, decide_true]

theorem excludeStep_joined (acc : WhereValues) (i : Nat) (p : Text)
    (hi : (if acc.hasOther then 1 else 0) < i) :
    excludeStep acc i p = if (fun _ : Text => false) p then some { acc with hasOther := true }
      else acc.add " OR ".toList true (Ruby.split ':' p) := by
  have hi' : i > 0 := Nat.zero_lt_of_lt hi
  simp [excludeStep, hi']

/-- **The loop over the includes.** -/
theorem eachWithIndex_includeStep (ps : List Text) (i : Nat) :
    eachWithIndex includeStep ⟨[], [], decide (0 < i)⟩ i ps
      = (terms isOther ps).map fun ts =>
          ⟨statement " AND ".toList (decide (2 ≤ i + ps.findIdx fun p => !isOther p)) ts,
            ts.map fun t => pattern t.2, decide (0 < i) || ps.any isOther⟩ := by
  induction ps generalizing i with
  | nil =>
    simp only [eachWithIndex, terms, statement, joinTerms, List.map_nil, Option.map_some, List.any_nil,
      Bool.or_false]
  | cons p ps ih =>
    rw [eachWithIndex, includeStep, terms, List.findIdx_cons]
    by_cases hp : isOther p
    · -- nothing was appended yet, and the index moves on
      have hother : (Ruby.split ':' p)[1]? = some "Other".toList := isOther_iff.mp hp
      have hi : decide (0 < i + 1) = true := by simp
      rw [if_pos hother, if_pos hp, Option.bind_some, ← hi, ih]
      simp only [Nat.add_assoc, Nat.add_comm 1, Nat.zero_lt_succ, decide_true, Bool.true_or, hp,
        Bool.not_true, cond_false, List.any_cons, Bool.or_true]
    · have hother : (Ruby.split ':' p)[1]? ≠ some "Other".toList := fun h => hp (isOther_iff.mpr h)
      rw [if_neg hother, if_neg hp, add_eq]
      cases term p with
      | none => rfl
      | some t =>
        -- the first term to be appended: the loop has only met `Other` before it
        have hi : (if decide (0 < i) = true then 1 else 0) < i + 1 := by
          simp only [decide_eq_true_eq]
          split <;> omega
        have hlead : (if 0 < i then 1 else 0) < i ↔ 2 ≤ i := by split <;> omega
        rw [Option.map_some, Option.bind_some, Option.bind_some,
          eachWithIndex_joined includeStep_joined _ _ _ hi, Option.map_map]
        simp only [gt_iff_lt, decide_eq_true_eq, hlead, List.nil_append, List.cons_append, List.append_assoc,
          statement, joinTerms, hp, Bool.not_false, cond_true, Nat.add_zero, List.any_cons, Bool.false_or,
          Function.comp_def, List.map_cons, List.flatMap_map]

/-- **The loop over the excludes.** -/
theorem eachWithIndex_excludeStep (ps : List Text) :
    eachWithIndex excludeStep ⟨[], [], false⟩ 0 ps
      = (terms (fun _ => false) ps).map fun ts =>
          ⟨statement " OR ".toList false ts, ts.map fun t => pattern t.2, false⟩ := by
  cases ps with
  | nil => rfl
  | cons p ps =>
    rw [eachWithIndex, excludeStep, terms, if_neg (by decide), add_eq]
    cases term p with
    | none => rfl
    | some t =>
      -- from the second term on each has its separator
      rw [Option.map_some, Option.bind_some, Option.bind_some,
        eachWithIndex_joined excludeStep_joined _ _ _ Nat.one_pos, Option.map_map]
      have hany : (ps.any fun _ => false) = false := List.any_eq_false.mpr fun _ _ => by decide
      simp only [gt_iff_lt, Nat.lt_irrefl, decide_false, Bool.false_eq_true, if_false, List.append_nil,
        List.nil_append, List.cons_append, hany, Bool.or_self, statement, joinTerms, Function.comp_def,
        List.map_cons, List.flatMap_map]

/-! ### Filling in the values -/

/-- The question marks in the names. -/
def marks (ts : List (Text × Text)) : Nat := (ts.map fun t => t.1.count '?').sum

/-- The terms of a format: a name stands for itself but for its doubled percent signs. -/
def formatTerms : List (Text × Text) → Option (List (Text × Text))
  | [] => some []
  | t :: ts =>
    (Ruby.unescape t.1).bind fun name =>
      (formatTerms ts).map fun us => (name, Rails.quoteString (pattern t.2)) :: us

/-- The terms of a statement with question marks: the marks of the names take the values, and
`%s` stays. -/
def bindTerms : List Text → List (Text × Text) → List (Text × Text)
  | _, [] => []
  | bound, t :: ts =>
    ((Transducer.feed Rails.bindStep bound t.1).2, "%s".toList)
      :: bindTerms (Transducer.feed Rails.bindStep bound t.1).1 ts

/-- The texts in the places of a list of terms; `none` where `sanitize_sql_array` raises. -/
def fill (ts : List (Text × Text)) : Option (List (Text × Text)) :=
  if marks ts = 0 then formatTerms ts
  else if marks ts = ts.length then some (bindTerms (ts.map fun t => pattern t.2) ts)
  else none

section Filling

variable {sep : Text} (hsep : ∀ c ∈ sep, c ≠ '%' ∧ c ≠ '?')

theorem count_termText (name : Text) :
    List.count '?' (termText name "%s".toList) = List.count '?' name := by
  have hhead : List.count '?' "lower(parsed->'".toList = 0 := rfl
  have hmid : List.count '?' "') like '".toList = 0 := rfl
  have hvalue : List.count '?' "%s".toList = 0 := rfl
  have htail : List.count '?' "'".toList = 0 := rfl
  unfold termText
  simp only [List.count_append]
  omega

theorem count_sep (hsep : ∀ c ∈ sep, c ≠ '%' ∧ c ≠ '?') : List.count '?' sep = 0 :=
  List.count_eq_zero.mpr fun h => (hsep _ h).2 rfl

include hsep in
theorem count_statement (lead : Bool) (ts : List (Text × Text)) :
    List.count '?' (statement sep lead ts) = marks ts := by
  have hlead : List.count '?' (if lead then sep else []) = 0 := by
    cases lead with
    | true => exact count_sep hsep
    | false => rfl
  cases ts with
  | nil => rfl
  | cons t ts =>
    simp only [statement, List.map_cons, joinTerms, List.count_append, count_termText, hlead,
      marks, List.sum_cons, List.count_flatMap, List.map_map, Function.comp_def, count_sep hsep,
      Nat.zero_add]

theorem statement_not_blank (lead : Bool) {ts : List (Text × Text)} (hts : ts ≠ []) :
    Ruby.blank (statement sep lead ts) = false := by
  obtain ⟨t, us, rfl⟩ := List.exists_cons_of_ne_nil hts
  have hl : 'l' ∈ "lower(parsed->'".toList := by decide
  refine List.all_eq_false.mpr ⟨'l', ?_, by decide⟩
  simp only [statement, List.map_cons, joinTerms]
  unfold termText
  simp only [List.mem_append, hl, true_or, or_true]

/-! #### As a format -/

theorem feed_format_sep (hsep : ∀ c ∈ sep, c ≠ '%' ∧ c ≠ '?') (args : List Text) :
    Transducer.feed Ruby.formatStep (.text args) sep = (.text args, sep) := by
  induction sep with
  | nil => rfl
  | cons c cs ih =>
    rw [Transducer.feed_cons, Ruby.formatStep, if_neg (hsep c (by simp)).1,
      ih fun d hd => hsep d (by simp [hd])]
    rfl

/-- A term takes an argument for its value. -/
theorem feed_format_term (hsep : ∀ c ∈ sep, c ≠ '%' ∧ c ≠ '?') {name out : Text}
    (h : Ruby.unescape name = some out) (a : Text) (args : List Text) :
    Transducer.feed Ruby.formatStep (.text (a :: args)) (sep ++ termText name "%s".toList)
      = (.text args, sep ++ termText out a) := by
  -- the fixed parts of the term, the name between them, and the one directive
  have hhead : Transducer.feed Ruby.formatStep (.text (a :: args)) "lower(parsed->'".toList
      = (.text (a :: args), "lower(parsed->'".toList) := rfl
  have hname := Ruby.feed_of_unescape h (a :: args)
  have htail : Transducer.feed Ruby.formatStep (.text (a :: args)) ("') like '%s'".toList)
      = (.text args, "') like '".toList ++ (a ++ "'".toList)) := rfl
  have hterm := Transducer.feed_append_of_eq _ (Transducer.feed_append_of_eq _ hhead hname) htail
  have hall := Transducer.feed_append_of_eq _ (feed_format_sep hsep (a :: args)) hterm
  unfold termText
  simp only [List.append_assoc] at hall ⊢
  exact hall

/-- After the name the format has to be in text, with an argument left. -/
theorem feed_format_tail (s : Ruby.FormatState) :
    (Transducer.feed Ruby.formatStep s "') like '%s'".toList).1 = .failed ∨
      ∃ a rest, s = .text (a :: rest) ∧
        (Transducer.feed Ruby.formatStep s "') like '%s'".toList).1 = .text rest := by
  cases s with
  | failed => exact .inl rfl
  | directive args => exact .inl rfl
  | text args =>
    cases args with
    | nil => exact .inl rfl
    | cons a rest => exact .inr ⟨a, rest, rfl, rfl⟩

/-- A term takes an argument for its value, and one more if there is a directive in its name. -/
theorem feed_format_term_args (hsep : ∀ c ∈ sep, c ≠ '%' ∧ c ≠ '?') (name : Text)
    (args : List Text) :
    (Transducer.feed Ruby.formatStep (.text args) (sep ++ termText name "%s".toList)).1 = .failed ∨
      ∃ rest, (Transducer.feed Ruby.formatStep (.text args) (sep ++ termText name "%s".toList)).1
          = .text rest ∧
        rest.length < args.length ∧
        (Ruby.unescape name = none → rest.length + 1 < args.length) := by
  have hhead : Transducer.feed Ruby.formatStep (.text args) "lower(parsed->'".toList
      = (.text args, "lower(parsed->'".toList) := rfl
  have hall := Transducer.feed_append_of_eq _ (feed_format_sep hsep args) hhead
  have hsplit : sep ++ termText name "%s".toList
      = sep ++ "lower(parsed->'".toList ++ name ++ "') like '%s'".toList := by
    unfold termText
    simp only [List.append_assoc]
    rfl
  rw [hsplit, Transducer.feed_append, Transducer.feed_append, hall]
  obtain hfail | ⟨a, rest, hs, hrest⟩ :=
    feed_format_tail (Transducer.feed Ruby.formatStep (.text args) name).1
  · exact .inl hfail
  · refine .inr ⟨rest, hrest, ?_⟩
    -- the directive of the value takes one argument, and the name may take more before it
    have hlen : (Transducer.feed Ruby.formatStep (.text args) name).1.args.length = rest.length + 1 := by
      rw [hs]; rfl
    constructor
    · obtain ⟨hlt, -⟩ | ⟨heq, -⟩ := Ruby.feed_args (.text args) name
      · rw [hlen] at hlt
        exact Nat.lt_of_succ_lt hlt
      · rw [heq] at hlen
        exact hlen ▸ Nat.lt_succ_self _
    · intro hnone
      obtain hlt | hne := Ruby.feed_of_unescape_none hnone args
      · rwa [hlen] at hlt
      · exact absurd hs (hne _)

/-- Too few arguments. -/
theorem feed_format_short (hsep : ∀ c ∈ sep, c ≠ '%' ∧ c ≠ '?') (ts : List (Text × Text))
    (args : List Text) (h : args.length < ts.length) :
    (Transducer.feed Ruby.formatStep (.text args)
      (ts.flatMap fun t => sep ++ termText t.1 "%s".toList)).1 = .failed := by
  induction ts generalizing args with
  | nil => cases h
  | cons t ts ih =>
    rw [List.flatMap_cons, Transducer.feed_append]
    obtain hfail | ⟨rest, hrest, hlt, -⟩ := feed_format_term_args hsep t.1 args
    · rw [hfail, Ruby.feed_failed]
    · rw [hrest, ih rest (by simp only [List.length_cons] at h; omega)]

/-- **A format with an argument for each term.** It fails exactly if a name has a directive. -/
theorem feed_format_terms {pre : Text} (hpre : ∀ c ∈ pre, c ≠ '%' ∧ c ≠ '?')
    (hsep : ∀ c ∈ sep, c ≠ '%' ∧ c ≠ '?') (t : Text × Text) (ts : List (Text × Text)) :
    (∃ n us, Ruby.unescape t.1 = some n ∧ formatTerms ts = some us ∧
      Transducer.feed Ruby.formatStep
          (.text ((t :: ts).map fun t => Rails.quoteString (pattern t.2)))
          (pre ++ termText t.1 "%s".toList ++ ts.flatMap fun t => sep ++ termText t.1 "%s".toList)
        = (.text [], pre ++ termText n (Rails.quoteString (pattern t.2))
            ++ us.flatMap fun u => sep ++ termText u.1 u.2)) ∨
    (formatTerms (t :: ts) = none ∧
      (Transducer.feed Ruby.formatStep
        (.text ((t :: ts).map fun t => Rails.quoteString (pattern t.2)))
        (pre ++ termText t.1 "%s".toList ++ ts.flatMap fun t => sep ++ termText t.1 "%s".toList)).1
        = .failed) := by
  induction ts generalizing pre t with
  | nil =>
    cases hn : Ruby.unescape t.1 with
    | some n =>
      refine .inl ⟨n, [], rfl, rfl, ?_⟩
      simpa only [List.map_cons, List.map_nil, List.flatMap_nil, List.append_nil] using
        feed_format_term hpre hn (Rails.quoteString (pattern t.2)) []
    | none =>
      refine .inr ⟨by simp [formatTerms, hn], ?_⟩
      obtain hfail | ⟨rest, -, -, hlt⟩ :=
        feed_format_term_args hpre t.1 [Rails.quoteString (pattern t.2)]
      · simpa only [List.map_cons, List.map_nil, List.flatMap_nil, List.append_nil] using hfail
      · have hlt' := hlt hn
        simp at hlt'
  | cons u ts ih =>
    rw [List.flatMap_cons, Transducer.feed_append]
    cases hn : Ruby.unescape t.1 with
    | some n =>
      rw [List.map_cons, feed_format_term hpre hn]
      obtain ⟨m, us, hm, hus, hfeed⟩ | ⟨hnone, hfail⟩ := ih hsep u
      · refine .inl ⟨n, (m, Rails.quoteString (pattern u.2)) :: us, rfl, ?_, ?_⟩
        · simp [formatTerms, hm, hus]
        · simp only [hfeed, List.flatMap_cons]
      · exact .inr ⟨by rw [formatTerms, hn, hnone]; rfl, hfail⟩
    | none =>
      -- the name takes an argument away from the terms after it
      refine .inr ⟨by simp [formatTerms, hn], ?_⟩
      obtain hfail | ⟨rest, hrest, -, hlt⟩ := feed_format_term_args hpre t.1
        ((t :: u :: ts).map fun t => Rails.quoteString (pattern t.2))
      · rw [hfail, Ruby.feed_failed]
      · have hshort : rest.length < (u :: ts).length := by
          have := hlt hn
          simp only [List.length_map, List.length_cons] at this ⊢
          omega
        have hfail := feed_format_short hsep (u :: ts) rest hshort
        rw [List.flatMap_cons] at hfail
        rw [hrest]
        exact hfail

/-! #### With question marks -/

theorem feed_bind_term (hsep : ∀ c ∈ sep, c ≠ '%' ∧ c ≠ '?') (name : Text) (bound : List Text) :
    Transducer.feed Rails.bindStep bound (sep ++ termText name "%s".toList)
      = ((Transducer.feed Rails.bindStep bound name).1,
          sep ++ termText (Transducer.feed Rails.bindStep bound name).2 "%s".toList) := by
  have hpre := Rails.feed_bindStep_of_notMem (fun h => (hsep _ h).2 rfl) bound
  -- only the name may have a question mark
  have hhead : Transducer.feed Rails.bindStep bound "lower(parsed->'".toList
      = (bound, "lower(parsed->'".toList) := rfl
  have htail : ∀ rest, Transducer.feed Rails.bindStep rest "') like '%s'".toList
      = (rest, "') like '%s'".toList) := fun _ => rfl
  have hterm := Transducer.feed_append_of_eq _
    (Transducer.feed_append_of_eq _ hhead (Prod.eta (Transducer.feed _ bound name)).symm) (htail _)
  have hall := Transducer.feed_append_of_eq _ hpre hterm
  unfold termText
  simp only [List.append_assoc] at hall ⊢
  exact hall

theorem feed_bind_terms (hsep : ∀ c ∈ sep, c ≠ '%' ∧ c ≠ '?') (ts : List (Text × Text))
    (bound : List Text) :
    (Transducer.feed Rails.bindStep bound
        (ts.flatMap fun t => sep ++ termText t.1 "%s".toList)).2
      = (bindTerms bound ts).flatMap fun u => sep ++ termText u.1 u.2 := by
  induction ts generalizing bound with
  | nil => rfl
  | cons t ts ih =>
    rw [List.flatMap_cons, Transducer.feed_append, feed_bind_term hsep, bindTerms,
      List.flatMap_cons, ← ih]

end Filling

theorem plain_lead {sep : Text} (hsep : ∀ c ∈ sep, c ≠ '%' ∧ c ≠ '?') (lead : Bool) :
    ∀ c ∈ (if lead then sep else []), c ≠ '%' ∧ c ≠ '?' := by
  cases lead with
  | true => exact hsep
  | false => exact fun _ h => nomatch h

/-- **What `sanitize_sql_array` makes of the statement of a list of terms.** -/
theorem sanitizeSqlArray_statement {sep : Text} (hsep : ∀ c ∈ sep, c ≠ '%' ∧ c ≠ '?') (lead : Bool)
    {ts : List (Text × Text)} (hts : ts ≠ []) :
    Rails.sanitizeSqlArray (statement sep lead ts) (ts.map fun t => pattern t.2)
      = (fill ts).map (joinTerms sep lead) := by
  have hcount := count_statement hsep lead ts
  have hmem : '?' ∈ statement sep lead ts ↔ marks ts ≠ 0 := by
    rw [← List.count_pos_iff, hcount, Nat.pos_iff_ne_zero]
  rw [Rails.sanitizeSqlArray, fill]
  by_cases hm : marks ts = 0
  · -- no question mark: the values go where the directives are
    rw [if_neg (by simpa [hmem] using hm), if_neg (by simp [statement_not_blank lead hts]), if_pos hm]
    obtain ⟨t, us, rfl⟩ := List.exists_cons_of_ne_nil hts
    rw [statement_cons, Ruby.format, List.map_map]
    obtain ⟨n, us', hn, hus, hfeed⟩ | ⟨hnone, hfail⟩ :=
      feed_format_terms (plain_lead hsep lead) hsep t us
    · have hform : formatTerms (t :: us) = some ((n, Rails.quoteString (pattern t.2)) :: us') := by
        simp [formatTerms, hn, hus]
      rw [hform]
      simp only [Function.comp_def, hfeed]
      rfl
    · rw [hnone]
      simp only [Function.comp_def]
      split
      · next h => rw [h] at hfail; cases hfail
      · next h => rw [h] at hfail; cases hfail
      · rfl
  · -- question marks: there must be as many as values
    rw [if_pos (hmem.mpr hm), if_neg hm, Rails.replaceBindVariables, hcount, List.length_map]
    by_cases hl : marks ts = ts.length
    · rw [if_pos hl, if_pos hl]
      obtain ⟨t, us, rfl⟩ := List.exists_cons_of_ne_nil hts
      rw [statement_cons, Transducer.feed_append, feed_bind_term (plain_lead hsep lead),
        feed_bind_terms hsep]
      rfl
    · rw [if_neg hl, if_neg hl]
      rfl

/-! ### The clause as a whole -/

/-- The texts in the places of a clause: a name and a pattern for each condition. A list without a
condition has no clause. -/
structure Clause where
  collection : Option Text
  lead : Bool
  includes : List (Text × Text)
  excludes : List (Text × Text)
  color : Option Text
deriving DecidableEq

/-- The conditions of one list, in brackets. -/
def groupText (opening sep : Text) (lead : Bool) (ts : List (Text × Text)) : Text :=
  if ts = [] then [] else opening ++ joinTerms sep lead ts ++ " )".toList

def Clause.text (c : Clause) : Text :=
  (c.collection.elim [] fun cid => " collection_id = ".toList ++ cid)
    ++ groupText " AND ( ".toList " AND ".toList c.lead c.includes
    ++ groupText " AND NOT ( ".toList " OR ".toList false c.excludes
    ++ (c.color.elim [] fun color =>
        " AND top_colors::text like '%".toList ++ color ++ "%'".toList)

/-- The text of `collection_id` in the clause; `none` if there is no such collection. -/
def collectionSlot (ids : List Int) (collectionId : Option Text) : Option (Option Text) :=
  match present collectionId with
  | none => some none
  | some cid => if Ruby.toI cid ∈ ids then some (some (Rails.quoteString cid)) else none

/-- The text of `colorfilter` in the clause. -/
def colorSlot (colorfilter : Option Text) : Option Text :=
  (present colorfilter).map fun color =>
    Rails.quoteString (Ruby.upcase (color.filter (· ≠ '#')))

/-- What a request puts into the places of the clause; `none` where the action raises. -/
def clause (ids : List Int) (q : Query) : Option Clause :=
  (collectionSlot ids q.collectionId).bind fun collection =>
    ((terms isOther q.includes).bind fill).bind fun includes =>
      ((terms (fun _ => false) q.excludes).bind fill).map fun excludes =>
        ⟨collection, leads q.includes, includes, excludes, colorSlot q.colorfilter⟩

/-- What `clause` does: it fills in the terms, if the collection is found. -/
theorem clause_eq_some {ids : List Int} {q : Query} {c : Clause} (h : clause ids q = some c) :
    collectionSlot ids q.collectionId = some c.collection ∧ c.lead = leads q.includes ∧
      (∃ ts, terms isOther q.includes = some ts ∧ fill ts = some c.includes) ∧
      (∃ ts, terms (fun _ => false) q.excludes = some ts ∧ fill ts = some c.excludes) ∧
      c.color = colorSlot q.colorfilter := by
  simp only [clause, Option.bind_eq_some_iff, Option.map_eq_some_iff] at h
  obtain ⟨collection, hcollection, is, ⟨ts, hts, his⟩, es, ⟨us, hus, hes⟩, rfl⟩ := h
  exact ⟨hcollection, rfl, ⟨ts, hts, his⟩, ⟨us, hus, hes⟩, rfl⟩

theorem length_formatTerms {ts us : List (Text × Text)} (h : formatTerms ts = some us) :
    us.length = ts.length := by
  induction ts generalizing us with
  | nil => cases h; rfl
  | cons t ts ih =>
    simp only [formatTerms, Option.bind_eq_some_iff, Option.map_eq_some_iff] at h
    obtain ⟨n, -, vs, hvs, rfl⟩ := h
    rw [List.length_cons, ih hvs, List.length_cons]

theorem length_bindTerms (bound : List Text) (ts : List (Text × Text)) :
    (bindTerms bound ts).length = ts.length := by
  induction ts generalizing bound with
  | nil => rfl
  | cons t ts ih => rw [bindTerms, List.length_cons, ih, List.length_cons]

theorem length_fill {ts us : List (Text × Text)} (h : fill ts = some us) :
    us.length = ts.length := by
  unfold fill at h
  split at h
  · exact length_formatTerms h
  · split at h
    · cases h; exact length_bindTerms _ ts
    · cases h

theorem fill_nil : fill [] = some [] := rfl

/-- The text of a list of conditions, from the statement and the values of its loop. -/
theorem groupText_fill {opening sep : Text} (hsep : ∀ c ∈ sep, c ≠ '%' ∧ c ≠ '?') (lead : Bool)
    {ts : List (Text × Text)} (hts : ts ≠ []) :
    ((Rails.sanitizeSqlArray (statement sep lead ts) (ts.map fun t => pattern t.2)).map
        fun sql => opening ++ sql ++ " )".toList)
      = (fill ts).map (groupText opening sep lead) := by
  rw [sanitizeSqlArray_statement hsep lead hts, Option.map_map]
  cases h : fill ts with
  | none => rfl
  | some us =>
    -- there are as many terms as before, so the brackets are not empty
    have hus : us ≠ [] := by
      intro hus
      have hlen := length_fill h
      rw [hus] at hlen
      exact hts (List.length_eq_zero_iff.mp hlen.symm)
    simp only [Option.map_some, Function.comp, groupText, if_neg hus]

theorem includeClause_eq (includes : List Text) :
    includeClause includes = ((terms isOther includes).bind fill).map
      (groupText " AND ( ".toList " AND ".toList (leads includes)) := by
  unfold includeClause
  split
  · next h => subst h; rfl
  · have hloop := eachWithIndex_includeStep includes 0
    rw [decide_eq_false (Nat.lt_irrefl 0), Nat.zero_add] at hloop
    rw [hloop, Option.bind_map]
    cases terms isOther includes with
    | none => rfl
    | some ts =>
      simp only [Option.bind_some, Function.comp, List.map_eq_nil_iff]
      -- with nothing but `Other` there are no values, and no clause
      by_cases hts : ts = []
      · rw [if_pos hts, hts, fill_nil]
        rfl
      · rw [if_neg hts]
        exact groupText_fill (List.all_iff_forall_prop.mp rfl) _ hts

theorem excludeClause_eq (excludes : List Text) :
    excludeClause excludes = ((terms (fun _ => false) excludes).bind fill).map
      (groupText " AND NOT ( ".toList " OR ".toList false) := by
  unfold excludeClause
  split
  · next h => subst h; rfl
  · next hne =>
    rw [eachWithIndex_excludeStep, Option.bind_map]
    cases hts : terms (fun _ => false) excludes with
    | none => rfl
    | some ts =>
      -- there is a term for each text, so the list of terms is not empty
      have hts' : ts ≠ [] := by
        rintro rfl
        obtain ⟨p, ps, rfl⟩ := List.exists_cons_of_ne_nil hne
        rw [terms, if_neg (by decide), Option.bind_eq_some_iff] at hts
        obtain ⟨t, -, ht⟩ := hts
        rw [Option.map_eq_some_iff] at ht
        obtain ⟨us, -, hus⟩ := ht
        cases hus
      simp only [Option.bind_some, Function.comp]
      exact groupText_fill (List.all_iff_forall_prop.mp rfl) _ hts'

theorem collectionClause_eq (ids : List Int) (collectionId : Option Text) :
    collectionClause ids collectionId = (collectionSlot ids collectionId).map fun collection =>
      collection.elim [] fun cid => " collection_id = ".toList ++ cid := by
  unfold collectionClause collectionSlot
  cases present collectionId with
  | none => rfl
  | some cid =>
    have hsql : Rails.sanitizeSqlArray " collection_id = %s".toList [cid]
        = some (" collection_id = ".toList ++ (Rails.quoteString cid ++ [])) := rfl
    simp only [hsql, List.append_nil, Option.bind_some]
    split
    · rfl
    · rfl

theorem colorClause_eq (colorfilter : Option Text) :
    colorClause colorfilter = some ((colorSlot colorfilter).elim [] fun color =>
      " AND top_colors::text like '%".toList ++ color ++ "%'".toList) := by
  unfold colorClause colorSlot
  cases present colorfilter with
  | none => rfl
  | some color => simp only [Rails.sanitizeSqlArray_single, Option.map_some, Option.elim_some]

/-- **The `where` clause is its template with the texts of the request in their places.** -/
theorem whereClause_eq (ids : List Int) (q : Query) :
    whereClause ids q = (clause ids q).map Clause.text := by
  rw [whereClause, collectionClause_eq, includeClause_eq, excludeClause_eq, colorClause_eq, clause]
  cases collectionSlot ids q.collectionId with
  | none => rfl
  | some collection =>
    cases (terms isOther q.includes).bind fill with
    | none => rfl
    | some includes =>
      cases (terms (fun _ => false) q.excludes).bind fill with
      | none => rfl
      | some excludes => rfl

/-- The same for the statement of the treemap. -/
theorem treemapSql_eq (ids : List Int) (q : Query) :
    treemapSql ids q = (clause ids q).map fun c =>
      treemapHead ++ Rails.quoteString (q.property.getD []) ++ treemapBody ++ c.text
        ++ treemapTail := by
  rw [treemapSql, whereClause_eq, Rails.sanitizeSqlArray_single, Option.bind_map]
  cases clause ids q with
  | none => rfl
  | some c => rfl

end WorksIndex
end Curarium
