import Curarium.Sql.Condition
import Curarium.Works.Plain

/-!
# What the works index selects

The meaning of the `where` clause for plain terms. The clause is lexed and read back as a condition
(`parseCondition_tokens`), and the condition is evaluated on the row of each work.

* A condition on a property is unknown for a work that lacks the property, so a conjunction of
  includes selects what it should, but the negated disjunction of excludes also drops the works
  where one of its members is unknown.
* `selected_eq_wanted_iff` says when the selection is the intended one: no work that should be
  selected lacks an excluded property.
-/

namespace Curarium
namespace WorksIndex

open Sql Transducer

/-! ### The clause as a condition -/

/-- The condition on one property. -/
def termExpr (t : Text × Text) : Expr :=
  .binary "like"
    (.call "lower" (.binary "->" (.column "parsed") (.str (String.ofList t.1))))
    (.str (String.ofList t.2))

def collectionExpr (ds : Text) : Expr :=
  .binary "=" (.column "collection_id") (.int (String.ofList ds))

def colorExpr (color : Text) : Expr :=
  .binary "like" (.cast (.column "top_colors") "text")
    (.str (String.ofList ('%' :: color ++ ['%'])))

theorem readsAs_term (t : Text × Text) : ReadsAs 13 (termTokens t) (termExpr t) := by
  intro r hr n hn
  obtain ⟨k, rfl⟩ := Nat.exists_eq_add_of_le' hn
  cases hr with
  | nil => rfl
  | and r => rfl
  | or r => rfl
  | close r => rfl

theorem readsAs_collection (ds : Text) :
    ReadsAs 5 [.word "collection_id", .op "=", numberToken .integer ds] (collectionExpr ds) := by
  intro r hr n hn
  obtain ⟨k, rfl⟩ := Nat.exists_eq_add_of_le' hn
  cases hr with
  | nil => rfl
  | and r => rfl
  | or r => rfl
  | close r => rfl

theorem readsAs_color (color : Text) :
    ReadsAs 5 [.word "top_colors", .op "::", .word "text", .word "like",
      strToken .standard ('%' :: color ++ ['%'])] (colorExpr color) := by
  intro r hr n hn
  obtain ⟨k, rfl⟩ := Nat.exists_eq_add_of_le' hn
  cases hr with
  | nil => rfl
  | and r => rfl
  | or r => rfl
  | close r => rfl

/-- A term with the tokens that it is read from. -/
def termReading (t : Text × Text) : List Token × Expr := (termTokens t, termExpr t)

theorem readsAs_termReading (ts : List (Text × Text)) :
    ∀ x ∈ ts.map termReading, ReadsAs 13 x.1 x.2 := by
  intro x hx
  obtain ⟨t, -, rfl⟩ := List.mem_map.mp hx
  exact readsAs_term t

theorem joinTokens_eq (tok : Token) (t : Text × Text) (ts : List (Text × Text)) :
    joinTokens tok false (t :: ts)
      = (termReading t).1 ++ (ts.map termReading).flatMap fun x => tok :: x.1 := by
  rw [List.flatMap_map]
  rfl

theorem snd_termReading (ts : List (Text × Text)) :
    (ts.map termReading).map Prod.snd = ts.map termExpr := by
  rw [List.map_map]
  rfl

theorem readsAs_includes (t : Text × Text) (ts : List (Text × Text)) :
    ReadsAs (20 + ts.length) (.punct '(' :: joinTokens (.word "and") false (t :: ts) ++ [.punct ')'])
      (conjunction (termExpr t) (ts.map termExpr)) := by
  -- inside the brackets: a disjunction of one conjunction
  have hor : ∀ r n, 15 + ts.length ≤ n →
      parse n .or (joinTokens (.word "and") false (t :: ts) ++ .punct ')' :: r)
        = some (conjunction (termExpr t) (ts.map termExpr), .punct ')' :: r) := by
    intro r n hn
    obtain ⟨m, rfl⟩ : ∃ m, n = m + 1 := ⟨n - 1, by omega⟩
    have hand := parse_conjunction (termReading t) (ts.map termReading)
      (readsAs_termReading (t :: ts)) (.close r) (n := m) (by rw [List.length_map]; omega)
    rw [snd_termReading] at hand
    rw [joinTokens_eq]
    show (parse m .and _).bind _ = _
    rw [hand]
    rfl
  exact (readsAs_brackets hor).mono (by omega)

theorem readsAs_excludes (t : Text × Text) (ts : List (Text × Text)) :
    ReadsAs (21 + ts.length)
      (.word "not" :: .punct '(' :: joinTokens (.word "or") false (t :: ts) ++ [.punct ')'])
      (.not (disjunction (termExpr t) (ts.map termExpr))) := by
  -- inside the brackets
  have hor : ∀ r n, 15 + ts.length ≤ n →
      parse n .or (joinTokens (.word "or") false (t :: ts) ++ .punct ')' :: r)
        = some (disjunction (termExpr t) (ts.map termExpr), .punct ')' :: r) := by
    intro r n hn
    have hdisj := parse_disjunction (termReading t) (ts.map termReading)
      (readsAs_termReading (t :: ts)) (.close r) (n := n) (by rw [List.length_map]; omega)
    rw [snd_termReading] at hdisj
    rw [joinTokens_eq]
    exact hdisj
  exact (readsAs_brackets hor).not.mono (by omega)

/-- The conditions of a clause after that on the collection, with their tokens. -/
def Clause.readings (d : Clause) : List (List Token × Expr) :=
  (match d.includes with
    | [] => []
    | t :: ts =>
      [(.punct '(' :: joinTokens (.word "and") false (t :: ts) ++ [.punct ')'],
        conjunction (termExpr t) (ts.map termExpr))])
  ++ (match d.excludes with
    | [] => []
    | t :: ts =>
      [(.word "not" :: .punct '(' :: joinTokens (.word "or") false (t :: ts) ++ [.punct ')'],
        .not (disjunction (termExpr t) (ts.map termExpr)))])
  ++ (match d.color with
    | none => []
    | some color =>
      [([.word "top_colors", .op "::", .word "text", .word "like",
        strToken .standard ('%' :: color ++ ['%'])], colorExpr color)])

theorem readsAs_readings (d : Clause) :
    ∀ x ∈ d.readings, ReadsAs (21 + (d.includes.length + d.excludes.length)) x.1 x.2 := by
  intro x hx
  rw [Clause.readings, List.mem_append, List.mem_append] at hx
  obtain (hx | hx) | hx := hx
  -- each list is one reading, in brackets
  · cases hi : d.includes with
    | nil => simp [hi] at hx
    | cons t ts =>
      simp only [hi, List.mem_singleton] at hx
      subst hx
      exact (readsAs_includes t ts).mono (by rw [List.length_cons]; omega)
  · cases he : d.excludes with
    | nil => simp [he] at hx
    | cons t ts =>
      simp only [he, List.mem_singleton] at hx
      subst hx
      exact (readsAs_excludes t ts).mono (by rw [List.length_cons]; omega)
  · cases hc : d.color with
    | none => simp [hc] at hx
    | some color =>
      simp only [hc, List.mem_singleton] at hx
      subst hx
      exact (readsAs_color color).mono (by omega)

theorem length_le_joinTokens (tok : Token) (lead : Bool) (ts : List (Text × Text)) :
    ts.length ≤ (joinTokens tok lead ts).length := by
  cases ts with
  | nil => exact Nat.le_refl _
  | cons t ts =>
    have hrest : ts.length ≤ (ts.flatMap fun u => tok :: termTokens u).length := by
      induction ts with
      | nil => exact Nat.le_refl _
      | cons u ts ih =>
        rw [List.flatMap_cons, List.length_append, List.length_cons, List.length_cons]
        omega
    -- every term has some tokens
    have hterm : (termTokens t).length = 8 := rfl
    rw [joinTokens, List.length_append, List.length_append, hterm, List.length_cons]
    omega

/-- The tokens of a clause with a collection and without a separator before its terms. -/
theorem tokens_eq {d : Clause} {ds : Text} (hcollection : d.collection = some ds)
    (hlead : d.lead = false) :
    d.tokens = [.word "collection_id", .op "=", numberToken .integer ds]
      ++ d.readings.flatMap fun x => .word "and" :: x.1 := by
  obtain ⟨collection, lead, includes, excludes, color⟩ := d
  cases hcollection
  cases hlead
  rw [Clause.tokens, Clause.readings, List.flatMap_append, List.flatMap_append]
  cases includes <;> cases excludes <;> cases color <;>
    simp [groupTokens, List.append_assoc]

theorem length_le_groupTokens (toks : List Token) (tok : Token) (lead : Bool)
    (ts : List (Text × Text)) : ts.length ≤ (groupTokens toks tok lead ts).length := by
  have hjoin := length_le_joinTokens tok lead ts
  unfold groupTokens
  split
  · next h => rw [h]; exact Nat.le_refl _
  · rw [List.length_append, List.length_append]
    omega

theorem length_readings (d : Clause) : d.readings.length ≤ 3 := by
  rw [Clause.readings]
  cases d.includes <;> cases d.excludes <;> cases d.color <;> simp

/-- There is fuel for every condition of a clause. -/
theorem fuel_tokens {d : Clause} {ds : Text} (hcollection : d.collection = some ds) :
    21 + (d.includes.length + d.excludes.length) + 1 + d.readings.length + 1
      ≤ 8 * (d.tokens.length + 1) := by
  have hincludes := length_le_groupTokens [.word "and", .punct '('] (.word "and") d.lead d.includes
  have hexcludes := length_le_groupTokens [.word "and", .word "not", .punct '('] (.word "or") false
    d.excludes
  have hreadings := length_readings d
  have hthree : ([.word "collection_id", .op "=", numberToken .integer ds] : List Token).length = 3 :=
    rfl
  rw [Clause.tokens, List.length_append, List.length_append, List.length_append, hcollection,
    Option.elim_some, hthree]
  omega

/-- **The clause read back.** With a collection and no separator before its terms it is the
conjunction of its conditions, on its own or in brackets. -/
theorem parse_tokens {d : Clause} {ds : Text} (hcollection : d.collection = some ds)
    (hlead : d.lead = false) {r : List Token} (hr : Ends r) {n : Nat}
    (hn : 8 * (d.tokens.length + 1) ≤ n) :
    parse n .or (d.tokens ++ r)
      = some (conjunction (collectionExpr ds) (d.readings.map Prod.snd), r) := by
  have hfuel := Nat.le_trans (fuel_tokens hcollection) hn
  obtain ⟨m, rfl⟩ : ∃ m, n = m + 1 := ⟨n - 1, by omega⟩
  -- each condition can be read with the fuel of the longest
  have hall : ∀ x ∈ ([.word "collection_id", .op "=", numberToken .integer ds], collectionExpr ds)
      :: d.readings, ReadsAs (21 + (d.includes.length + d.excludes.length)) x.1 x.2 := by
    rw [List.forall_mem_cons]
    exact ⟨(readsAs_collection ds).mono (by omega), readsAs_readings d⟩
  have hand := parse_conjunction _ _ hall hr (n := m) (by omega)
  rw [tokens_eq hcollection hlead]
  show (parse m .and _).bind _ = _
  rw [hand]
  cases hr with
  | nil => rfl
  | close r => rfl

theorem parseCondition_tokens {d : Clause} {ds : Text} (hcollection : d.collection = some ds)
    (hlead : d.lead = false) :
    parseCondition d.tokens = some (conjunction (collectionExpr ds) (d.readings.map Prod.snd)) := by
  have hparse := parse_tokens hcollection hlead .nil (Nat.le_refl _)
  rw [List.append_nil] at hparse
  rw [parseCondition, hparse]
  rfl

/-! ### The intended selection -/

/-- What the clause reads of a work. -/
structure Row where
  collectionId : Option Int
  parsed : List (String × Option String)
  topColors : Option String
deriving DecidableEq

def Row.columns (w : Row) (name : String) : Option Value :=
  if name = "collection_id" then some (.ofOption .int w.collectionId)
  else if name = "parsed" then some (.hstore w.parsed)
  else if name = "top_colors" then some (.ofOption (fun s => .json s.toList) w.topColors)
  else none

/-- `Work.where( where_clause )`: an empty clause is no condition. -/
def matching {ρ : Type*} (lower : List Char → List Char) (row : ρ → Row) (clause : Text)
    (works : List ρ) : Option (List ρ) :=
  if Ruby.blank clause then some works else select lower (fun w => (row w).columns) clause works

theorem matching_sublist {ρ : Type*} {lower : List Char → List Char} {row : ρ → Row} {clause : Text}
    {works found : List ρ} (h : matching lower row clause works = some found) :
    found.Sublist works := by
  rw [matching] at h
  split at h
  · rw [Option.some.inj h]
  · obtain ⟨e, -, h⟩ := Option.bind_eq_some_iff.mp h
    split at h
    · rw [← Option.some.inj h]
      exact List.filter_sublist
    · exact absurd h (by simp)

/-- The stored text of a property, if the work has it. -/
def Row.property (w : Row) (name : Text) : Option String :=
  (w.parsed.lookup (String.ofList name)).join

/-- A plain term, not one with the value `Other`. -/
structure FilterTerm where
  name : Text
  value : Text
  name_plain : Alphanumeric name
  value_plain : Alphanumeric value
  value_ne : value ≠ "Other".toList

/-- The text of a term in the request. -/
def FilterTerm.text (t : FilterTerm) : Text := t.name ++ ':' :: t.value

/-- The request for the works of a collection with these includes and excludes. -/
def filterQuery (cid : Nat) (includes excludes : List FilterTerm) : Query where
  collectionId := some (Nat.toDigits 10 cid)
  includes := includes.map FilterTerm.text
  excludes := excludes.map FilterTerm.text
  colorfilter := none
  property := none

section Meaning

variable (lower : List Char → List Char)

/-- A term matches a work that has the property, with the value somewhere in it but for case. -/
def FilterTerm.Matches (t : FilterTerm) (w : Row) : Prop :=
  ∃ s, w.property t.name = some s ∧ Ruby.downcase t.value <:+: lower s.toList

instance (t : FilterTerm) (w : Row) : Decidable (t.Matches lower w) :=
  decidable_of_iff ((w.property t.name).any fun s =>
    decide (Ruby.downcase t.value <:+: lower s.toList)) (by simp [FilterTerm.Matches, Option.any_eq_true])

/-- The works to select: those of the collection that match every include and no exclude. -/
def Wanted (cid : Nat) (includes excludes : List FilterTerm) (w : Row) : Prop :=
  w.collectionId = some (cid : Int) ∧ (∀ t ∈ includes, t.Matches lower w) ∧
    ∀ t ∈ excludes, ¬ t.Matches lower w

instance (cid : Nat) (includes excludes : List FilterTerm) (w : Row) :
    Decidable (Wanted lower cid includes excludes w) :=
  inferInstanceAs (Decidable (_ ∧ _ ∧ _))

end Meaning

/-! ### The clause of plain terms -/

theorem term_filterTerm (t : FilterTerm) : term t.text = some (t.name, t.value) := by
  rw [term, FilterTerm.text, split_plainTerm t.name_plain t.value_plain]
  rfl

theorem isOther_filterTerm (t : FilterTerm) : isOther t.text = false := by
  rw [isOther, FilterTerm.text, split_plainTerm t.name_plain t.value_plain]
  simpa using t.value_ne

theorem terms_filterTerms {skip : Text → Bool} (hskip : ∀ t : FilterTerm, skip t.text = false)
    (ts : List FilterTerm) :
    terms skip (ts.map FilterTerm.text) = some (ts.map fun t => (t.name, t.value)) := by
  induction ts with
  | nil => rfl
  | cons t ts ih =>
    rw [List.map_cons, terms, if_neg (by rw [hskip]; decide), term_filterTerm, ih]
    rfl

theorem leads_filterTerms (ts : List FilterTerm) : leads (ts.map FilterTerm.text) = false := by
  cases ts with
  | nil => rfl
  | cons t ts => simp [leads, List.findIdx_cons, isOther_filterTerm]

theorem fill_filterTerms (ts : List FilterTerm) :
    fill (ts.map fun t => (t.name, t.value))
      = some (ts.map fun t => (t.name, Rails.quoteString (pattern t.value))) := by
  have hplain : ∀ u ∈ ts.map fun t => (t.name, t.value), Alphanumeric u.1 := by
    intro u hu
    obtain ⟨t, -, rfl⟩ := List.mem_map.mp hu
    exact t.name_plain
  rw [fill_plain hplain, List.map_map]
  rfl

/-- What a request of plain terms puts into the clause. -/
theorem clause_filterQuery {ids : List Int} {cid : Nat} (hcid : (cid : Int) ∈ ids)
    (includes excludes : List FilterTerm) :
    clause ids (filterQuery cid includes excludes)
      = some ⟨some (Nat.toDigits 10 cid), false,
          includes.map fun t => (t.name, Rails.quoteString (pattern t.value)),
          excludes.map fun t => (t.name, Rails.quoteString (pattern t.value)), none⟩ := by
  have hpresent : present (some (Nat.toDigits 10 cid)) = some (Nat.toDigits 10 cid) :=
    present_digits Nat.toDigits_ne_nil fun c hc => Ruby.isDigit_toDigits hc
  -- digits are present, and have no quotes to double
  have hquote : '\'' ∉ Nat.toDigits 10 cid := fun h => absurd (Ruby.isDigit_toDigits h) (by decide)
  have hcollection : collectionSlot ids (some (Nat.toDigits 10 cid))
      = some (some (Nat.toDigits 10 cid)) := by
    simp only [collectionSlot, hpresent, Ruby.toI_toDigits, if_pos hcid,
      quoteString_of_notMem hquote]
  have hexcludes : terms (fun _ => false) (excludes.map FilterTerm.text)
      = some (excludes.map fun t => (t.name, t.value)) := terms_filterTerms (fun _ => rfl) excludes
  simp only [clause, filterQuery, hcollection, terms_filterTerms isOther_filterTerm, hexcludes,
    Option.bind_some, fill_filterTerms, Option.map_some, leads_filterTerms]
  rfl

/-- The contents of its literals. -/
def filterContents (cid : Nat) (includes excludes : List FilterTerm) : Clause :=
  ⟨some (Nat.toDigits 10 cid), false, includes.map fun t => (t.name, pattern t.value),
    excludes.map fun t => (t.name, pattern t.value), none⟩

theorem lex_filterQuery {ids : List Int} {cid : Nat} (hcid : (cid : Int) ∈ ids)
    (includes excludes : List FilterTerm) :
    ∃ sql, whereClause ids (filterQuery cid includes excludes) = some sql ∧
      lex sql = (filterContents cid includes excludes).tokens := by
  refine ⟨_, by rw [whereClause_eq, clause_filterQuery hcid, Option.map_some], lex_clause ?_⟩
  -- names have no quotes, and the quotes of values are doubled
  have hterms : ∀ ts : List FilterTerm, List.Forall₂ StandsFor
      (ts.map fun t => (t.name, Rails.quoteString (pattern t.value)))
      (ts.map fun t => (t.name, pattern t.value)) := by
    intro ts
    induction ts with
    | nil => exact .nil
    | cons t ts ih =>
      exact .cons ⟨.of_notMem (t.name_plain.notMem (by decide)), enclosed_quoteString _⟩ ih
  exact ⟨.some (intLiteral_digits Nat.toDigits_ne_nil fun c hc => Ruby.isDigit_toDigits hc), rfl,
    hterms includes, hterms excludes, .none⟩

/-! ### Its meaning -/

section Meaning

variable {lower : List Char → List Char}

/-- The truth value of the condition on a property: unknown if the work lacks it. -/
def conditionTruth (lower : List Char → List Char) (w : Row) (t : Text × Text) : Option Bool :=
  (w.property t.1).map fun s => like t.2 (lower s.toList)

def collectionTruth (w : Row) (ds : Text) : Option Bool :=
  w.collectionId.map fun z => decide (z = (Nat.ofDigitChars 10 ds 0 : Int))

def colorTruth (w : Row) (color : Text) : Option Bool :=
  w.topColors.map fun s => like ('%' :: color ++ ['%']) s.toList

/-- The truth value of a list of terms as a whole; a list without terms is no condition. -/
def groupTruth (combine : Option Bool → List (Option Bool) → Option Bool) :
    List (Option Bool) → List (Option Bool)
  | [] => []
  | a :: as => [combine a as]

/-- A list of includes is true if each of them is. -/
theorem groupTruth_all (as : List (Option Bool)) :
    (∀ a ∈ groupTruth Kleene.all as, a = some true) ↔ ∀ a ∈ as, a = some true := by
  cases as with
  | nil => exact Iff.rfl
  | cons a as => rw [groupTruth, List.forall_mem_singleton, Kleene.all_eq_true]

/-- The truth values of the conditions of a clause after that on the collection. -/
def Clause.truths (lower : List Char → List Char) (d : Clause) (w : Row) : List (Option Bool) :=
  groupTruth Kleene.all (d.includes.map (conditionTruth lower w))
    ++ groupTruth (fun a as => Kleene.not (Kleene.any a as)) (d.excludes.map (conditionTruth lower w))
    ++ (d.color.map (colorTruth w)).toList

theorem truth_condition (w : Row) (t : Text × Text) :
    truth lower w.columns (termExpr t) = some (conditionTruth lower w t) := by
  have hcolumn : w.columns "parsed" = some (.hstore w.parsed) := rfl
  simp only [truth, termExpr, eval, hcolumn, Option.bind_some, evalBinary, if_true,
    String.toList_ofList, conditionTruth, Row.property]
  cases (w.parsed.lookup (String.ofList t.1)).join with
  | none => rfl
  | some s => simp [Value.ofOption, evalCall, Value.truth]

theorem truth_collection (w : Row) (ds : Text) :
    truth lower w.columns (collectionExpr ds) = some (collectionTruth w ds) := by
  have hcolumn : w.columns "collection_id" = some (.ofOption .int w.collectionId) := rfl
  simp only [truth, collectionExpr, eval, hcolumn, Option.bind_some, String.toList_ofList,
    collectionTruth]
  cases w.collectionId with
  | none => rfl
  | some z => simp [Value.ofOption, evalBinary, Value.truth]

theorem truth_color (w : Row) (color : Text) :
    truth lower w.columns (colorExpr color) = some (colorTruth w color) := by
  have hcolumn : w.columns "top_colors" = some (.ofOption (fun s => .json s.toList) w.topColors) := rfl
  simp only [truth, colorExpr, eval, hcolumn, Option.bind_some, String.toList_ofList, colorTruth]
  cases w.topColors with
  | none => rfl
  | some s => simp [Value.ofOption, evalCast, evalBinary, Value.truth]

theorem forall₂_truth_conditions (w : Row) (ts : List (Text × Text)) :
    List.Forall₂ (fun e a => truth lower w.columns e = some a) (ts.map termExpr)
      (ts.map (conditionTruth lower w)) := by
  induction ts with
  | nil => exact .nil
  | cons t ts ih => exact .cons (truth_condition w t) ih

/-- **The truth values of the conditions** that are read back. -/
theorem forall₂_truth_readings (d : Clause) (w : Row) :
    List.Forall₂ (fun e a => truth lower w.columns e = some a) (d.readings.map Prod.snd)
      (d.truths lower w) := by
  rw [Clause.readings, Clause.truths, List.map_append, List.map_append]
  -- a group is there only if it has a term
  refine List.rel_append (List.rel_append ?_ ?_) ?_
  · cases d.includes with
    | nil => exact .nil
    | cons i is =>
      exact .cons (truth_conjunction (truth_condition w i) (forall₂_truth_conditions w is)) .nil
  · cases d.excludes with
    | nil => exact .nil
    | cons e es =>
      exact .cons (truth_not (truth_disjunction (truth_condition w e) (forall₂_truth_conditions w es)))
        .nil
  · cases d.color with
    | none => exact .nil
    | some color => exact .cons (truth_color w color) .nil

/-- The same for a plain term. -/
def termTruth (lower : List Char → List Char) (w : Row) (t : FilterTerm) : Option Bool :=
  (w.property t.name).map fun s => like (pattern t.value) (lower s.toList)

/-- A letter or a digit has no meaning in a pattern. -/
theorem isPatternChar_toLower {c : Char} (h : c.isAlphanum = true) :
    isPatternChar c.toLower = false := by
  have hall : ∀ n < 128, (Char.ofNat n).isAlphanum = true →
      isPatternChar (Char.ofNat n).toLower = false := by decide
  have hlt : c.toNat < 128 := by
    -- a capital, a small letter or a digit: each is below its last one
    obtain hletter | hdigit := Bool.or_eq_true_iff.mp h
    · obtain hupper | hlower := Bool.or_eq_true_iff.mp hletter
      · have hle : c.val ≤ 'Z'.val := (of_decide_eq_true hupper).2
        exact Nat.lt_of_le_of_lt hle (by decide)
      · have hle : c.val ≤ 'z'.val := of_decide_eq_true (Bool.and_eq_true_iff.mp hlower).2
        exact Nat.lt_of_le_of_lt hle (by decide)
    · have hle : c.toNat ≤ '9'.toNat := (Char.isDigit_iff_toNat.mp hdigit).2
      exact Nat.lt_of_le_of_lt hle (by decide)
  have hc := hall c.toNat hlt
  rw [Char.ofNat_toNat] at hc
  exact hc h

/-- **When a condition on a property is true.** -/
theorem termTruth_eq_true (w : Row) (t : FilterTerm) :
    termTruth lower w t = some true ↔ t.Matches lower w := by
  have hvalue : ∀ c ∈ Ruby.downcase t.value, isPatternChar c = false := by
    intro c hc
    obtain ⟨b, hb, rfl⟩ := List.mem_map.mp hc
    exact isPatternChar_toLower (t.value_plain.2 b hb)
  simp only [termTruth, Option.map_eq_some_iff, FilterTerm.Matches, pattern, like_contains hvalue]

theorem termTruth_eq_false (w : Row) (t : FilterTerm) :
    termTruth lower w t = some false ↔ ¬ t.Matches lower w ∧ (w.property t.name).isSome := by
  rw [← termTruth_eq_true, termTruth]
  cases w.property t.name with
  | none => simp
  | some s => simp

/-- The truth value of the clause. -/
def clauseTruth (lower : List Char → List Char) (cid : Nat) (includes excludes : List FilterTerm)
    (w : Row) : Option Bool :=
  Kleene.all (w.collectionId.map fun z => decide (z = (cid : Int)))
    (groupTruth Kleene.all (includes.map (termTruth lower w))
      ++ groupTruth (fun a as => Kleene.not (Kleene.any a as)) (excludes.map (termTruth lower w)))

theorem truth_clause (cid : Nat) (includes excludes : List FilterTerm) (w : Row) :
    truth lower w.columns (conjunction (collectionExpr (Nat.toDigits 10 cid))
        ((filterContents cid includes excludes).readings.map Prod.snd))
      = some (clauseTruth lower cid includes excludes w) := by
  have htruths : (filterContents cid includes excludes).truths lower w
      = groupTruth Kleene.all (includes.map (termTruth lower w))
        ++ groupTruth (fun a as => Kleene.not (Kleene.any a as)) (excludes.map (termTruth lower w)) := by
    have hterms : ∀ ts : List FilterTerm,
        (ts.map fun t => (t.name, pattern t.value)).map (conditionTruth lower w)
          = ts.map (termTruth lower w) := fun ts => List.map_map
    rw [Clause.truths, filterContents, hterms, hterms]
    exact List.append_nil _
  have hcollection : collectionTruth w (Nat.toDigits 10 cid)
      = w.collectionId.map fun z => decide (z = (cid : Int)) := by
    rw [collectionTruth, Nat.ofDigitChars_ten_toDigits]
  rw [clauseTruth, ← htruths, ← hcollection]
  exact truth_conjunction (truth_collection w _) (forall₂_truth_readings _ w)

/-- **Which works the clause selects**: those of the collection that match every include, and have
every excluded property without matching. -/
theorem clauseTruth_eq_true (cid : Nat) (includes excludes : List FilterTerm) (w : Row) :
    clauseTruth lower cid includes excludes w = some true ↔
      Wanted lower cid includes excludes w ∧ ∀ t ∈ excludes, (w.property t.name).isSome := by
  have hcollection : (w.collectionId.map fun z => decide (z = (cid : Int))) = some true ↔
      w.collectionId = some (cid : Int) := by simp
  have hincludes : (∀ a ∈ groupTruth Kleene.all (includes.map (termTruth lower w)), a = some true) ↔
      ∀ t ∈ includes, t.Matches lower w := by
    rw [groupTruth_all, List.forall_mem_map]
    simp only [termTruth_eq_true]
  -- the negation is true only if every term is false, so none of them may be unknown
  have hexcludes : (∀ a ∈ groupTruth (fun a as => Kleene.not (Kleene.any a as))
        (excludes.map (termTruth lower w)), a = some true) ↔
      ∀ t ∈ excludes, ¬ t.Matches lower w ∧ (w.property t.name).isSome := by
    cases excludes with
    | nil => simp [groupTruth]
    | cons e es =>
      rw [List.map_cons, groupTruth, List.forall_mem_singleton, Kleene.not_any_eq_true,
        ← List.map_cons, List.forall_mem_map]
      simp only [termTruth_eq_false]
  rw [clauseTruth, Kleene.all_eq_true, List.forall_mem_cons, List.forall_mem_append, hcollection,
    hincludes, hexcludes, Wanted]
  constructor
  · rintro ⟨hc, hi, he⟩
    exact ⟨⟨hc, hi, fun t ht => (he t ht).1⟩, fun t ht => (he t ht).2⟩
  · rintro ⟨⟨hc, hi, he⟩, hs⟩
    exact ⟨hc, hi, fun t ht => ⟨he t ht, hs t ht⟩⟩

end Meaning

/-! ### The result -/

/-- The works that a request selects; `none` if it raises or the database refuses the clause. -/
def selected (lower : List Char → List Char) (ids : List Int) (q : Query) (works : List Row) :
    Option (List Row) :=
  (whereClause ids q).bind fun sql => select lower Row.columns sql works

theorem selected_eq (lower : List Char → List Char) {ids : List Int} {cid : Nat}
    (hcid : (cid : Int) ∈ ids) (includes excludes : List FilterTerm) (works : List Row) :
    selected lower ids (filterQuery cid includes excludes) works
      = some (works.filter fun w => clauseTruth lower cid includes excludes w == some true) := by
  obtain ⟨sql, hsql, hlex⟩ := lex_filterQuery hcid includes excludes
  have hparse : parseCondition (lex sql) = some (conjunction (collectionExpr (Nat.toDigits 10 cid))
      ((filterContents cid includes excludes).readings.map Prod.snd)) := by
    rw [hlex]
    exact parseCondition_tokens rfl rfl
  rw [selected, hsql, Option.bind_some]
  exact select_eq hparse (truth_clause cid includes excludes) works

/-- **The selection is the intended one** exactly if every work to be selected has all the
properties that the excludes name. -/
theorem selected_eq_wanted_iff (lower : List Char → List Char) {ids : List Int} {cid : Nat}
    (hcid : (cid : Int) ∈ ids) (includes excludes : List FilterTerm) (works : List Row) :
    selected lower ids (filterQuery cid includes excludes) works
        = some (works.filter fun w => decide (Wanted lower cid includes excludes w)) ↔
      ∀ w ∈ works, Wanted lower cid includes excludes w →
        ∀ t ∈ excludes, (w.property t.name).isSome := by
  have hbool : ∀ w, (clauseTruth lower cid includes excludes w == some true) = true ↔
      Wanted lower cid includes excludes w ∧ ∀ t ∈ excludes, (w.property t.name).isSome := by
    intro w
    rw [beq_iff_eq, clauseTruth_eq_true]
  rw [selected_eq lower hcid, Option.some.injEq]
  constructor
  · intro h w hw hwanted
    -- a work that should be selected is, so the clause is true of it
    have hmem : w ∈ works.filter fun w => decide (Wanted lower cid includes excludes w) :=
      List.mem_filter.mpr ⟨hw, decide_eq_true hwanted⟩
    rw [← h] at hmem
    exact ((hbool w).mp (List.mem_filter.mp hmem).2).2
  · intro h
    refine List.filter_congr fun w hw => ?_
    rw [Bool.eq_iff_iff, hbool, decide_eq_true_iff]
    exact ⟨fun hw' => hw'.1, fun hw' => ⟨hw', h w hw hw'⟩⟩

/-- A plain term on the title. -/
def titleTerm : FilterTerm where
  name := "title".toList
  value := "mona".toList
  name_plain := .of_all (by decide) rfl
  value_plain := .of_all (by decide) rfl
  value_ne := by decide

/-- Two works of a collection with a title, and a request without one of them. -/
theorem selected_eq_wanted_titles :
    selected Ruby.downcase [1] (filterQuery 1 [] [titleTerm])
        [⟨some 1, [("title", some "[\"Mona Lisa\"]")], none⟩,
          ⟨some 1, [("title", some "[\"Starry Night\"]")], none⟩]
      = some [⟨some 1, [("title", some "[\"Starry Night\"]")], none⟩] := by
  refine ((selected_eq_wanted_iff Ruby.downcase (by decide) [] [titleTerm]
    [⟨some 1, [("title", some "[\"Mona Lisa\"]")], none⟩,
      ⟨some 1, [("title", some "[\"Starry Night\"]")], none⟩]).mpr ?_).trans ?_
  · decide +kernel
  · decide +kernel

/-- **A work without a title is dropped** by an exclude on the title, though it does not match. -/
theorem selected_ne_wanted_untitled :
    ¬ selected Ruby.downcase [1] (filterQuery 1 [] [titleTerm])
        [⟨some 1, [("topics", some "[\"women\"]")], none⟩]
      = some ([⟨some 1, [("topics", some "[\"women\"]")], none⟩].filter
          fun w => decide (Wanted Ruby.downcase 1 [] [titleTerm] w)) := by
  decide +kernel

end WorksIndex
end Curarium
