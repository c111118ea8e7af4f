import Curarium.Sql.Select
import Curarium.Works.Filter
import Curarium.Works.Treemap

/-!
# Is the SQL of the works index well formed?

The conditions of the clause are each appended with a connective before them, as if a condition on
the collection came first, and the treemap statement has the clause after `WHERE` whether there is
one or not.

* `exists_clause` — the clause of a request with terms of letters and digits, and its contents.
* `parseStatement_treemap` — the treemap statement is read exactly when its clause is.
* `wellFormed_iff` — clause and statement are well formed exactly when the request names a
  collection, and at most one of its terms before the first one to look for is `Other`.
-/

namespace Curarium
namespace WorksIndex

open Sql Transducer

/-! ### The requests -/

/-- Terms of letters and digits, and a collection that is there. The color and the property may be
any text. -/
structure FilterRequest (ids : List Int) (q : Query) : Prop where
  collectionId : ∀ t ∈ present q.collectionId, (∀ c ∈ t, c.isDigit = true) ∧ Ruby.toI t ∈ ids
  includes : ∀ p ∈ q.includes, PlainTerm p
  excludes : ∀ p ∈ q.excludes, PlainTerm p

/-- The name and the pattern of a term. -/
def termContents (p : Text) : Text × Text :=
  ((Ruby.split ':' p).headD [], pattern ((Ruby.split ':' p)[1]?.getD []))

/-- What a request puts into the literals of the clause. -/
def contents (q : Query) : Clause where
  collection := present q.collectionId
  lead := leads q.includes
  includes := (q.includes.filter fun p => !isOther p).map termContents
  excludes := q.excludes.map termContents
  color := (present q.colorfilter).map fun color => Ruby.upcase (color.filter (· ≠ '#'))

/-- The conditions that the clause is to be the conjunction of. -/
def wanted (q : Query) : List Expr :=
  ((present q.collectionId).map collectionExpr).toList ++ (contents q).includes.map termExpr ++
    (match (contents q).excludes with
      | [] => []
      | t :: ts => [.not (disjunction (termExpr t) (ts.map termExpr))]) ++
    ((contents q).color.map colorExpr).toList

/-- The members of a conjunction. -/
def conjuncts : Expr → List Expr
  | .and l r => conjuncts l ++ conjuncts r
  | e => [e]

/-- **The SQL of a request is well formed**: the clause is empty, or a condition with the members
it should have, and the treemap statement can be read. -/
structure WellFormed (ids : List Int) (q : Query) : Prop where
  clause : ∃ sql, whereClause ids q = some sql ∧ (sql = [] ∧ wanted q = [] ∨
    ∃ e, parseCondition (lex sql) = some e ∧ conjuncts e = wanted q)
  treemap : ∃ sql, treemapSql ids q = some sql ∧ (parseStatement (lex sql)).isSome = true

/-! ### The tokens of the clause -/

/-- The terms of a list of plain terms. -/
theorem terms_contents (skip : Text → Bool) {ps : List Text} (h : ∀ p ∈ ps, PlainTerm p) :
    ∃ ts, terms skip ps = some ts ∧ (∀ t ∈ ts, Alphanumeric t.1) ∧
      (ts.map fun t => (t.1, pattern t.2)) = (ps.filter fun p => !skip p).map termContents := by
  induction ps with
  | nil => exact ⟨[], rfl, fun t ht => absurd ht List.not_mem_nil, rfl⟩
  | cons p ps ih =>
    rw [List.forall_mem_cons] at h
    obtain ⟨ts, hts, hnames, hcontents⟩ := ih h.2
    by_cases hskip : skip p = true
    · refine ⟨ts, ?_, hnames, ?_⟩
      · rw [terms, if_pos hskip, hts]
      · rw [hcontents, List.filter_cons_of_neg (by simp [hskip])]
    · obtain ⟨name, value, rfl, hname, hvalue⟩ := h.1
      -- a plain term splits at its colon, and is taken as it is
      have hsplit := split_plainTerm hname hvalue
      refine ⟨(name, value) :: ts, ?_, ?_, ?_⟩
      · rw [terms, if_neg hskip, term, hsplit, hts]
        rfl
      · exact List.forall_mem_cons.mpr ⟨hname, hnames⟩
      · rw [List.filter_cons_of_pos (by simpa using hskip), List.map_cons, List.map_cons, hcontents,
          termContents, hsplit]
        rfl

/-- A parameter that is present is not empty. -/
theorem ne_nil_of_present {param : Option Text} {t : Text} (h : present param = some t) : t ≠ [] := by
  rintro rfl
  exact absurd (Option.filter_eq_some_iff.mp h).2 (by decide)

/-- A pattern stands for itself once its quotes are doubled. -/
theorem standsFor_terms {ts : List (Text × Text)} (h : ∀ t ∈ ts, Alphanumeric t.1) :
    List.Forall₂ StandsFor (ts.map fun t => (t.1, Rails.quoteString (pattern t.2)))
      (ts.map fun t => (t.1, pattern t.2)) := by
  rw [List.forall₂_map_left_iff, List.forall₂_map_right_iff, List.forall₂_same]
  intro t ht
  exact ⟨.of_notMem ((h t ht).notMem (by decide)), enclosed_quoteString _⟩

/-- **The clause of a request** stands for the contents of the request. -/
theorem exists_clause {ids : List Int} {q : Query} (h : FilterRequest ids q) :
    ∃ c, clause ids q = some c ∧ c.StandsFor (contents q) := by
  obtain ⟨is, his, hinames, hincludes⟩ := terms_contents isOther h.includes
  obtain ⟨es, hes, henames, hexcludes⟩ := terms_contents (fun _ => false) h.excludes
  have hcollection : ∃ cid, collectionSlot ids q.collectionId = some cid ∧
      Option.Rel IntLiteral cid (present q.collectionId) := by
    rw [collectionSlot]
    cases hcid : present q.collectionId with
    | none => exact ⟨none, rfl, .none⟩
    | some t =>
      -- digits have no quotes to double
      obtain ⟨hdigits, hid⟩ := h.collectionId t hcid
      have hquote : '\'' ∉ t := fun hmem => absurd (hdigits _ hmem) (by decide)
      refine ⟨some t, ?_, .some (intLiteral_digits (ne_nil_of_present hcid) hdigits)⟩
      simp only [if_pos hid, quoteString_of_notMem hquote]
  obtain ⟨cid, hcid, hrel⟩ := hcollection
  refine ⟨⟨cid, leads q.includes, is.map fun t => (t.1, Rails.quoteString (pattern t.2)),
    es.map fun t => (t.1, Rails.quoteString (pattern t.2)), colorSlot q.colorfilter⟩, ?_, hrel, rfl, ?_, ?_, ?_⟩
  · rw [clause, hcid, his, hes, Option.bind_some, Option.bind_some, Option.bind_some, fill_plain hinames,
      fill_plain henames]
    rfl
  · change List.Forall₂ StandsFor _ ((q.includes.filter fun p => !isOther p).map termContents)
    rw [← hincludes]
    exact standsFor_terms hinames
  · change List.Forall₂ StandsFor _ (q.excludes.map termContents)
    -- no exclude is left out
    have hall : (q.excludes.filter fun p => !false) = q.excludes := List.filter_true _
    rw [← hall, ← hexcludes]
    exact standsFor_terms henames
  · change Option.Rel Enclosed (colorSlot q.colorfilter) ((present q.colorfilter).map _)
    rw [colorSlot]
    cases present q.colorfilter with
    | none => exact .none
    | some color => exact .some (enclosed_quoteString _)

/-! ### Reading the clause -/

theorem conjuncts_conjunction (e : Expr) (es : List Expr) :
    conjuncts (conjunction e es) = conjuncts e ++ es.flatMap conjuncts := by
  induction es generalizing e with
  | nil => rw [conjunction, List.flatMap_nil, List.append_nil]
  | cons f fs ih => rw [conjunction, conjuncts, ih, List.flatMap_cons]

theorem flatMap_conjuncts_terms (ts : List (Text × Text)) :
    (ts.map termExpr).flatMap conjuncts = ts.map termExpr := by
  induction ts with
  | nil => rfl
  | cons t ts ih =>
    rw [List.map_cons, List.flatMap_cons, ih]
    rfl

/-- The members of the clause that is read back. -/
theorem conjuncts_readings (q : Query) {ds : Text} (h : present q.collectionId = some ds) :
    conjuncts (conjunction (collectionExpr ds) ((contents q).readings.map Prod.snd)) = wanted q := by
  rw [conjuncts_conjunction, Clause.readings, wanted, h, List.map_append, List.map_append,
    List.flatMap_append, List.flatMap_append, ← List.append_assoc, ← List.append_assoc]
  congr 1
  · congr 1
    · congr 1
      -- the includes are in brackets, a conjunction of their own
      cases (contents q).includes with
      | nil => rfl
      | cons t ts =>
        change conjuncts (conjunction _ _) ++ [] = _
        rw [conjuncts_conjunction, flatMap_conjuncts_terms, List.append_nil]
        rfl
    · cases (contents q).excludes with
      | nil => rfl
      | cons t ts => rfl
  · cases (contents q).color with
    | none => rfl
    | some color => rfl

/-- Without a term the connective before the terms is not there either. -/
theorem tokens_without_includes {d : Clause} (h : d.includes = []) :
    d.tokens = { d with lead := false }.tokens := by
  rw [Clause.tokens, Clause.tokens, h]
  rfl

/-- Without a collection the clause is empty or starts with a connective. -/
theorem parseCondition_without_collection {d : Clause} (h : d.collection = none) :
    parseCondition d.tokens = none := by
  have hnone : ∀ n l, parse n l d.tokens = none := by
    rw [Clause.tokens, h, Option.elim_none, List.nil_append]
    obtain ⟨collection, lead, includes, excludes, color⟩ := d
    -- the first condition that is there brings its connective
    cases includes with
    | cons t ts => exact fun n l => parse_reserved (w := "and") rfl (by decide) n l _
    | nil =>
      cases excludes with
      | cons t ts => exact fun n l => parse_reserved (w := "and") rfl (by decide) n l _
      | nil =>
        cases color with
        | some color => exact fun n l => parse_reserved (w := "and") rfl (by decide) n l _
        | none =>
          refine parse_eq_none (fun n => ?_) (fun rest heq => absurd heq (by simp [groupTokens]))
          cases n with
          | zero => rfl
          | succ n => rfl
  rw [parseCondition, hnone]
  rfl

/-- A connective before the first term cannot be read. -/
theorem parseCondition_lead {d : Clause} {ds : Text} (hcollection : d.collection = some ds)
    (hlead : d.lead = true) (hincludes : d.includes ≠ []) : parseCondition d.tokens = none := by
  obtain ⟨collection, lead, includes, excludes, color⟩ := d
  obtain rfl : collection = some ds := hcollection
  obtain rfl : lead = true := hlead
  obtain ⟨t, ts, rfl⟩ := List.exists_cons_of_ne_nil hincludes
  have htokens : ∃ rest, (⟨some ds, true, t :: ts, excludes, color⟩ : Clause).tokens =
      [.word "collection_id", .op "=", numberToken .integer ds] ++
        .word "and" :: .punct '(' :: .word "and" :: rest := ⟨_, rfl⟩
  obtain ⟨rest, hrest⟩ := htokens
  -- a connective after a bracket is no condition
  have hopen : ∀ n, parse n .and (.punct '(' :: .word "and" :: rest) = none := fun n =>
    parse_open (fun n => parse_reserved rfl (by decide) n .or rest) n .and
  rw [parseCondition, hrest, parse_and_none (readsAs_collection ds) hopen]
  · rfl
  · rw [List.length_append, List.length_cons]
    omega

/-! ### Reading the treemap statement -/

/-- The values of the property in a work, as the treemap takes them apart. -/
def treemapValues (property : String) : Expr :=
  .call "trim" (.call "unnest" (.call "string_to_array" (.comma
    (.call "regexp_replace" (.comma
      (.call "regexp_replace" (.comma
        (.call "lower" (.binary "->" (.column "parsed") (.str property)))
        (.comma (.str "\", \"") (.comma (.str "%SPLIT%") (.str "g")))))
      (.comma (.str "[\\[\\]\"]") (.comma (.str "") (.str "g")))))
    (.str "%SPLIT%"))))

/-- The treemap statement with a condition. -/
def treemapSelect (property : String) (condition : Expr) : Select :=
  .mk [(.column "values", some "parsed"), (.call "count" (.column "values"), some "id")]
    (.derived (.mk [(treemapValues property, some "values")] (.table "works") (some condition) none)
      "subquery")
    none (some (.column "values"))

/-- The tokens of the treemap statement. -/
def treemapTokens (p : Text) (ts : List Token) : List Token :=
  treemapBefore ++ strToken .standard p :: treemapBetween ++ ts ++ treemapAfter

theorem length_treemapTokens (p : Text) (ts : List Token) :
    (treemapTokens p ts).length = 62 + ts.length := by
  rw [treemapTokens, List.length_append, List.length_append, List.length_append]
  have hbefore : treemapBefore.length = 30 := rfl
  have hbetween : (strToken .standard p :: treemapBetween).length = 26 := rfl
  have hafter : treemapAfter.length = 6 := rfl
  omega

theorem parseSelect_treemap {k n : Nat} (p : Text) {ts : List Token} {e : Expr}
    (h : parse (k + 90) .or ts = some (e, treemapAfter)) :
    parseSelect (k + 90) (n + 2) (treemapBefore ++ strToken .standard p :: treemapBetween ++ ts)
      = some (treemapSelect (String.ofList p) e, []) := by
  -- the fixed tokens are read by computation, up to the clause
  show ((((parse (k + 90) .or ts).map _).bind _).bind _).bind _ = _
  rw [h]
  rfl

theorem parseSelect_treemap_none {k n : Nat} (p : Text) {ts : List Token}
    (h : parse (k + 90) .or ts = none) :
    parseSelect (k + 90) (n + 2) (treemapBefore ++ strToken .standard p :: treemapBetween ++ ts)
      = none := by
  show ((((parse (k + 90) .or ts).map _).bind _).bind _).bind _ = _
  rw [h]
  rfl

/-- The statement is read with fuel for the fixed tokens. -/
theorem parseStatement_eq (p : Text) (ts : List Token) :
    ∃ k n, 8 * ((treemapTokens p ts).length + 1) = k + 90 ∧
      parseStatement (treemapTokens p ts) = (parseSelect (k + 90) (n + 2)
        (treemapBefore ++ strToken .standard p :: treemapBetween ++ (ts ++ treemapAfter))).bind
          fun s => if s.2 = [] then some s.1 else none := by
  have hlength := length_treemapTokens p ts
  obtain ⟨k, hk⟩ : ∃ k, 8 * ((treemapTokens p ts).length + 1) = k + 90 :=
    ⟨8 * ((treemapTokens p ts).length + 1) - 90, by omega⟩
  obtain ⟨n, hn⟩ : ∃ n, (treemapTokens p ts).length = n + 2 :=
    ⟨(treemapTokens p ts).length - 2, by omega⟩
  refine ⟨k, n, hk, ?_⟩
  rw [parseStatement, hk, hn, treemapTokens, List.append_assoc]

/-- **The treemap statement is read** when its clause is. -/
theorem parseStatement_treemap (p : Text) {d : Clause} {ds : Text} (hcollection : d.collection = some ds)
    (hlead : d.lead = false) : (parseStatement (treemapTokens p d.tokens)).isSome = true := by
  obtain ⟨k, n, hk, hstatement⟩ := parseStatement_eq p d.tokens
  have hlength := length_treemapTokens p d.tokens
  have hclause : parse (k + 90) .or (d.tokens ++ treemapAfter)
      = some (conjunction (collectionExpr ds) (d.readings.map Prod.snd), treemapAfter) :=
    parse_tokens hcollection hlead (.close treemapAfter.tail) (by omega)
  rw [hstatement, parseSelect_treemap p hclause]
  rfl

/-- Without a condition the treemap statement cannot be read. -/
theorem parseStatement_treemap_nil (p : Text) : parseStatement (treemapTokens p []) = none := by
  obtain ⟨k, n, -, hstatement⟩ := parseStatement_eq p []
  have hclause : parse (k + 90) .or ([] ++ treemapAfter) = none := parse_close (k + 90) .or _
  rw [hstatement, parseSelect_treemap_none p hclause]
  rfl

/-! ### The result -/

/-- Where the clause of a request has a connective before its first term. -/
theorem leads_iff (includes : List Text) :
    (includes.all isOther = true ∨ includes.findIdx (fun p => !isOther p) < 2) ↔
      (includes.filter fun p => !isOther p) = [] ∨ leads includes = false := by
  refine or_congr ?_ ?_
  · simp [List.filter_eq_nil_iff]
  · rw [leads, decide_eq_false_iff_not, Nat.not_le]

/-- **When the SQL of a request is well formed**: it names a collection, and at most one of its
includes before the first one to look for is `Other`. -/
theorem wellFormed_iff {ids : List Int} {q : Query} (h : FilterRequest ids q) :
    WellFormed ids q ↔ (present q.collectionId).isSome = true ∧
      (q.includes.all isOther = true ∨ q.includes.findIdx (fun p => !isOther p) < 2) := by
  obtain ⟨c, hc, hstands⟩ := exists_clause h
  have hwhere : whereClause ids q = some c.text := by rw [whereClause_eq, hc, Option.map_some]
  have hlex : lex c.text = (contents q).tokens := lex_clause hstands
  have htreemap : ∃ sql, treemapSql ids q = some sql ∧
      lex sql = treemapTokens (q.property.getD []) (contents q).tokens := by
    refine ⟨_, by rw [treemapSql_eq, hc, Option.map_some], ?_⟩
    exact treemapFrame.lex_eq hstands _
  obtain ⟨sql, hsql, hlexsql⟩ := htreemap
  rw [leads_iff]
  constructor
  · rintro ⟨⟨text, htext, hclause⟩, ⟨text', htext', hstatement⟩⟩
    obtain rfl := Option.some.inj (hwhere.symm.trans htext)
    obtain rfl := Option.some.inj (hsql.symm.trans htext')
    -- an empty clause makes an empty condition of the treemap statement
    have hnonempty : c.text ≠ [] := by
      intro hempty
      have htokens : (contents q).tokens = [] := by
        rw [← hlex, hempty]
        rfl
      rw [hlexsql, htokens, parseStatement_treemap_nil] at hstatement
      exact absurd hstatement (by simp)
    obtain ⟨e, he, -⟩ := hclause.resolve_left fun hempty => hnonempty hempty.1
    rw [hlex] at he
    cases hcollection : present q.collectionId with
    | none => exact absurd he (by rw [parseCondition_without_collection hcollection]; simp)
    | some ds =>
      refine ⟨rfl, ?_⟩
      by_contra hnot
      rw [not_or, Bool.not_eq_false] at hnot
      have hincludes : (contents q).includes ≠ [] := fun hnil => hnot.1 (List.map_eq_nil_iff.mp hnil)
      rw [parseCondition_lead hcollection hnot.2 hincludes] at he
      exact absurd he (by simp)
  · rintro ⟨hcollection, hlead⟩
    obtain ⟨ds, hds⟩ := Option.isSome_iff_exists.mp hcollection
    -- with no term the connective does not matter
    have htokens : ∃ d : Clause, (contents q).tokens = d.tokens ∧ d.collection = some ds ∧
        d.lead = false ∧ d.readings = (contents q).readings := by
      rcases hlead with hnil | hfalse
      · have hincludes : (contents q).includes = [] := List.map_eq_nil_iff.mpr hnil
        exact ⟨_, tokens_without_includes hincludes, hds, rfl, rfl⟩
      · exact ⟨contents q, rfl, hds, hfalse, rfl⟩
    obtain ⟨d, hd, hdcollection, hdlead, hreadings⟩ := htokens
    refine ⟨⟨c.text, hwhere, Or.inr ⟨_, ?_, conjuncts_readings q hds⟩⟩, sql, hsql, ?_⟩
    · rw [hlex, hd, parseCondition_tokens hdcollection hdlead, hreadings]
    · rw [hlexsql, hd]
      exact parseStatement_treemap _ hdcollection hdlead

/-- A request with two terms, one of them `Other`. -/
def oneOther : Query where
  collectionId := some "12".toList
  includes := ["topics:Other".toList, "title:mona".toList]
  excludes := ["title:lisa".toList]
  colorfilter := none
  property := some "title".toList

/-- The same with `Other` twice. -/
def twoOthers : Query := { oneOther with includes := "topics:Other".toList :: oneOther.includes }

theorem filterRequest_twoOthers : FilterRequest [12] twoOthers where
  collectionId := by
    intro t ht
    obtain rfl := Option.some.inj ht
    exact ⟨List.all_eq_true.mp rfl, by decide⟩
  includes := by
    have hother : PlainTerm "topics:Other".toList :=
      ⟨"topics".toList, "Other".toList, rfl, .of_all (by decide) rfl, .of_all (by decide) rfl⟩
    have htitle : PlainTerm "title:mona".toList :=
      ⟨"title".toList, "mona".toList, rfl, .of_all (by decide) rfl, .of_all (by decide) rfl⟩
    exact List.forall_mem_cons.mpr ⟨hother, List.forall_mem_cons.mpr ⟨hother,
      List.forall_mem_singleton.mpr htitle⟩⟩
  excludes := List.forall_mem_singleton.mpr
    ⟨"title".toList, "lisa".toList, rfl, .of_all (by decide) rfl, .of_all (by decide) rfl⟩

theorem filterRequest_oneOther : FilterRequest [12] oneOther where
  collectionId := filterRequest_twoOthers.collectionId
  includes p hp := filterRequest_twoOthers.includes p (List.mem_cons_of_mem _ hp)
  excludes := filterRequest_twoOthers.excludes

/-- One `Other` is left out. -/
theorem wellFormed_oneOther : WellFormed [12] oneOther :=
  (wellFormed_iff filterRequest_oneOther).mpr (by decide)

/-- With two of them the clause is `( AND …`. -/
theorem not_wellFormed_twoOthers : FilterRequest [12] twoOthers ∧ ¬ WellFormed [12] twoOthers := by
  refine ⟨filterRequest_twoOthers, fun hwf => ?_⟩
  obtain ⟨sql, hsql, ⟨rfl, -⟩ | ⟨e, he, -⟩⟩ := hwf.clause
  · revert hsql
    decide +kernel
  · have hnone : ((whereClause [12] twoOthers).bind fun sql => parseCondition (lex sql)) = none := by
      decide +kernel
    rw [hsql, Option.bind_some, he] at hnone
    exact absurd hnone (by simp)

end WorksIndex
end Curarium
