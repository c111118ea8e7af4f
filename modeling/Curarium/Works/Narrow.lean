import Curarium.Works.Decode
import Curarium.Works.Drilldown
import Curarium.Works.Injection
import Curarium.Works.Resubmit
import Curarium.Works.WellFormed

/-!
# A click on a block

The page adds the label of a block to the includes, as a term of the property that is selected in the
page, and the request with this term is to select the works that the block counts.

* `Page` is the page of a treemap, and `click` what is asked for after a click on one of its blocks. The
  script takes the property from the select `#property`, which `init` has set from the address. The terms
  that the request already has are taken to be sent again as they were.
* The clause of the second request is that of the first with one condition more (`clause_narrow`), so
  it selects the works of the first that meet the condition (`contributing_sublist_iff`).
* `selects_iff` — where the request writes no SQL and the property no HTML of its own, the works of the
  block are selected exactly if the term is there already or, as it is sent and read back, has the name of
  a property that each of them has, and its value as a pattern is found in the stored text.

A value from which brackets were removed is no part of the text that is stored, so nothing is found. Nor
is anything found for a property with a blank in its name that comes from the form: its blanks are plus
signs in the address, `init` does not decode them, and no option is selected.
-/

namespace Curarium
namespace Treemap

open WorksIndex VisControls Sql

/-! ### The click -/

/-- The page of a treemap, as a click finds it. -/
structure Page where
  query : Query
  /-- The query of its address, decoded by `init`; empty where it cannot be decoded. -/
  search : Text
  /-- `@properties` -/
  properties : List Text

/-- `sel`: the property that is selected. Where there is none it is `null`. -/
def Page.sel (P : Page) : Text :=
  (propertyVal (P.properties.map optionValue) P.search).getD "null".toList

/-- The inputs of the terms, which `init` has written. -/
def Page.inputs (P : Page) (B : Browser) : List (Text × Text) := ((init P.search).map B.inputs).getD []

/-- `sel+":"+val` -/
def Page.value (P : Page) (v : Text) : Text := P.sel ++ ':' :: v

/-- The term of a block as the form sends it. -/
def blockTerm (B : Browser) (P : Page) (v : Text) : Text := formNewlines (hiddenInput B (P.value v))

/-- What is asked for after a click on the block of a value: nothing new, if the value is empty or its term
is in the page, and otherwise the same with the inputs that the click writes. It is `none` where the script
raises. -/
def click (B : Browser) (P : Page) (v : Text) : Option Query :=
  if v = [] then some P.query
  else
    match B.find (P.inputs B) (P.value v) with
    | none => none
    | some 0 =>
      let written := (B.inputs [propHtml .inc (P.value v) P.sel v]).map fun i => (i.1, formNewlines i.2)
      some { P.query with
        includes := P.query.includes ++ params written .inc
        excludes := P.query.excludes ++ params written .exc }
    | some (_ + 1) => some P.query

/-- The request with the term of the block. -/
def narrowed (B : Browser) (P : Page) (v : Text) : Query :=
  { P.query with includes := P.query.includes ++ [blockTerm B P v] }

/-- `works`, of which the page of a request is made. -/
def requestWorks (lower : Text → Text) (ids : List Int) (q : Query) (works : List Row) :
    Option (List Row) :=
  (whereClause ids q).bind fun where_clause => matching lower id where_clause works

/-- The works that the block of a value counts. -/
def contributing (lower : Text → Text) (property v : Text) (found : List Row) : List Row :=
  found.filter fun w => (values lower property w).contains v

/-- **The click finds the works of the block**: they are among those of the request after it, and there
is one. -/
def Selects (lower : Text → Text) (B : Browser) (ids : List Int) (P : Page) (v : Text) (works : List Row) :
    Prop :=
  ∃ q found found', requestWorks lower ids P.query works = some found ∧ click B P v = some q ∧
    requestWorks lower ids q works = some found' ∧
    (contributing lower (P.query.property.getD []) v found).Sublist found' ∧
    contributing lower (P.query.property.getD []) v found ≠ []

/-- A work meets a condition. -/
def Meets (lower : Text → Text) (t : Text × Text) (w : Row) : Prop :=
  ∃ s, w.property t.1 = some s ∧ like t.2 (lower s.toList) = true

/-- **What the term has to be**: one that is left out, or a name and a value, of which the name is that
of a property of each of the works and the value a text in it. The name goes through a format and into
a literal. -/
def Finds (lower : Text → Text) (B : Browser) (P : Page) (v : Text) (found : List Row) : Prop :=
  isOther (blockTerm B P v) = true ∨
    ∃ t name key, term (blockTerm B P v) = some t ∧ Ruby.unescape t.1 = some name ∧
      Enclosed name key ∧ leads (P.query.includes ++ [blockTerm B P v]) = false ∧
      ∀ w ∈ contributing lower (P.query.property.getD []) v found, Meets lower (key, pattern t.2) w

/-- The request writes no SQL of its own: its texts stay in their literals, and no name has a place for
a value. -/
structure Quiet (ids : List Int) (q : Query) : Prop where
  closed : ∀ c, clause ids q = some c → c.Closed
  marks : ∀ ts, terms isOther q.includes = some ts → marks ts = 0

/-- Plain requests are quiet. -/
theorem quiet_of_plain {ids : List Int} {q : Query} (h : WorksIndex.Plain q) : Quiet ids q where
  closed _ hc := closed_of_plain h hc
  marks _ hts := marks_plain (terms_plain h.includes hts)

/-! ### The terms of the second request -/

theorem terms_concat {p : Text} (hp : isOther p = false) (ps : List Text) :
    terms isOther (ps ++ [p])
      = (terms isOther ps).bind fun ts => (term p).map fun t => ts ++ [t] := by
  induction ps with
  | nil =>
    rw [List.nil_append, terms, Option.bind_some, terms, hp, if_neg Bool.false_ne_true]
    cases term p <;> rfl
  | cons t ts ih =>
    rw [List.cons_append, terms, terms, ih]
    split
    · rfl
    · -- a term that fails fails before the last one, and after it
      cases term t with
      | none => rfl
      | some u =>
        cases terms isOther ts with
        | none => rfl
        | some us => cases term p <;> rfl

theorem marks_concat (ts : List (Text × Text)) (t : Text × Text) :
    marks (ts ++ [t]) = marks ts + t.1.count '?' := by
  rw [marks, marks, List.map_append, List.sum_append, List.map_singleton, List.sum_singleton]

theorem formatTerms_concat (ts : List (Text × Text)) (t : Text × Text) :
    formatTerms (ts ++ [t]) = (formatTerms ts).bind fun us =>
      (Ruby.unescape t.1).map fun name => us ++ [(name, Rails.quoteString (pattern t.2))] := by
  induction ts with
  | nil =>
    rw [List.nil_append, formatTerms, formatTerms, Option.bind_some, Option.map_eq_bind]
    rfl
  | cons u ts ih =>
    -- whichever name cannot be decoded, there is no clause
    rw [List.cons_append, formatTerms, formatTerms, ih]
    cases Ruby.unescape u.1 with
    | none => rfl
    | some n =>
      cases formatTerms ts with
      | none => rfl
      | some us => cases Ruby.unescape t.1 <;> rfl

/-- A clause with one condition more. -/
def narrow (c : Clause) (lead : Bool) (t : Text × Text) : Clause :=
  { c with lead := lead, includes := c.includes ++ [t] }

/-- **The clause of the second request** has the term at its end. -/
theorem clause_narrow {ids : List Int} {q : Query} {c : Clause} (hc : clause ids q = some c) {p : Text}
    (hp : isOther p = false) (hmarks : ∀ ts, terms isOther (q.includes ++ [p]) = some ts → marks ts = 0) :
    clause ids { q with includes := q.includes ++ [p] } = (term p).bind fun t =>
      (Ruby.unescape t.1).map fun name =>
        narrow c (leads (q.includes ++ [p])) (name, Rails.quoteString (pattern t.2)) := by
  obtain ⟨hcollection, -, ⟨ts, hts, his⟩, ⟨us, hus, hes⟩, hcolor⟩ := clause_eq_some hc
  rw [clause, hcollection, Option.bind_some, hus, Option.bind_some, hes]
  simp only [terms_concat hp, hts, Option.bind_some] at hmarks ⊢
  cases ht : term p with
  | none => rfl
  | some t =>
    have hall : marks (ts ++ [t]) = 0 := hmarks _ (by rw [ht, Option.map_some])
    have hbefore : marks ts = 0 := by
      rw [marks_concat] at hall
      exact Nat.eq_zero_of_add_eq_zero_right hall
    -- without question marks each value is where its term is
    rw [fill, if_pos hbefore] at his
    rw [Option.map_some, Option.bind_some, fill, if_pos hall, formatTerms_concat, his, Option.bind_some,
      Option.bind_some]
    cases Ruby.unescape t.1 with
    | none => rfl
    | some name =>
      rw [Option.map_some, Option.bind_some, Option.map_some, Option.map_some, narrow, ← hcolor]

/-! ### One condition more -/

/-- What a clause says of a work. -/
def clauseHolds (lower : Text → Text) (ds : Text) (d : Clause) (w : Row) : Bool :=
  Kleene.all (collectionTruth w ds) (d.truths lower w) == some true

theorem select_clause {lower : Text → Text} {c d : Clause} (h : c.StandsFor d) {ds : Text}
    (hcollection : d.collection = some ds) (hlead : d.lead = true → d.includes = [])
    (works : List Row) :
    select lower Row.columns c.text works = some (works.filter (clauseHolds lower ds d)) := by
  -- the leading connective is only there before a condition
  have htokens : d.tokens = { d with lead := false }.tokens := by
    cases hfalse : d.lead with
    | false => rw [← hfalse]
    | true => exact tokens_without_includes (hlead hfalse)
  have hparse : parseCondition (lex c.text)
      = some (conjunction (collectionExpr ds) (d.readings.map Prod.snd)) := by
    rw [lex_clause h, htokens]
    exact parseCondition_tokens hcollection rfl
  exact select_eq hparse (fun w => truth_conjunction (truth_collection w ds) (forall₂_truth_readings d w))
    works

/-- A clause that can be read starts with the collection, and no connective stands before its first
term. -/
theorem select_clause_inv {lower : Text → Text} {c d : Clause} (h : c.StandsFor d) {works found : List Row}
    (hselect : select lower Row.columns c.text works = some found) :
    ∃ ds, d.collection = some ds ∧ (d.lead = true → d.includes = []) ∧
      found = works.filter (clauseHolds lower ds d) := by
  obtain ⟨e, he, -⟩ := Option.bind_eq_some_iff.mp hselect
  rw [lex_clause h] at he
  cases hcollection : d.collection with
  | none =>
    rw [parseCondition_without_collection hcollection] at he
    cases he
  | some ds =>
    have hlead : d.lead = true → d.includes = [] := by
      -- a connective at the beginning of a group is no condition
      intro hlead
      by_contra hne
      rw [parseCondition_lead hcollection hlead hne] at he
      cases he
    rw [select_clause h hcollection hlead] at hselect
    exact ⟨ds, rfl, hlead, (Option.some.inj hselect).symm⟩

theorem conditionTruth_eq_true {lower : Text → Text} {w : Row} {t : Text × Text} :
    conditionTruth lower w t = some true ↔ Meets lower t w := by
  rw [conditionTruth, Option.map_eq_some_iff, Meets]

/-- **One condition more** is met besides the others. -/
theorem clauseHolds_narrow (lower : Text → Text) (ds : Text) (d : Clause) (lead : Bool) (t : Text × Text)
    (w : Row) : clauseHolds lower ds (narrow d lead t) w = true ↔
      clauseHolds lower ds d w = true ∧ Meets lower t w := by
  -- a group of conditions joined by `AND` is true if all of them are
  have hincludes : (∀ a ∈ groupTruth Kleene.all ((d.includes ++ [t]).map (conditionTruth lower w)),
        a = some true) ↔
      (∀ a ∈ groupTruth Kleene.all (d.includes.map (conditionTruth lower w)), a = some true) ∧
        Meets lower t w := by
    rw [groupTruth_all, groupTruth_all, List.map_append, List.forall_mem_append, List.map_singleton,
      List.forall_mem_singleton, conditionTruth_eq_true]
  rw [clauseHolds, clauseHolds, beq_iff_eq, beq_iff_eq, Kleene.all_eq_true, Kleene.all_eq_true,
    Clause.truths, Clause.truths, narrow]
  simp only [List.forall_mem_cons, List.forall_mem_append, hincludes]
  constructor
  · rintro ⟨hcollection, ⟨⟨hi, ht⟩, he⟩, hcolor⟩
    exact ⟨⟨hcollection, ⟨hi, he⟩, hcolor⟩, ht⟩
  · rintro ⟨⟨hcollection, ⟨hi, he⟩, hcolor⟩, ht⟩
    exact ⟨hcollection, ⟨⟨hi, ht⟩, he⟩, hcolor⟩

/-! ### The works of a request -/

/-- Each part of a clause has one of these characters. -/
def partMarks : Text := "=(:".toList

theorem mem_groupText {opening sep : Text} (hopening : '(' ∈ opening) (lead : Bool)
    {ts : List (Text × Text)} (hts : ts ≠ []) : '(' ∈ groupText opening sep lead ts := by
  rw [groupText, if_neg hts, List.append_assoc]
  exact List.mem_append_left _ hopening

/-- A clause with a part is not blank. -/
theorem blank_text {c : Clause} (h : c.text ≠ []) : Ruby.blank c.text = false := by
  -- the first part that is there has a character that is not blank
  have hmem : ∃ x ∈ partMarks, x ∈ c.text := by
    rw [Clause.text] at h ⊢
    simp only [List.mem_append]
    cases hcollection : c.collection with
    | some cid =>
      exact ⟨'=', by decide, .inl (.inl (.inl (List.mem_append_left _ (by decide))))⟩
    | none =>
      by_cases hincludes : c.includes = []
      · by_cases hexcludes : c.excludes = []
        · cases hcolor : c.color with
          | none =>
            rw [hcollection, hincludes, hexcludes, hcolor] at h
            exact absurd rfl h
          | some color =>
            exact ⟨':', by decide,
              .inr (List.mem_append_left _ (List.mem_append_left _ (by decide)))⟩
        · exact ⟨'(', by decide, .inl (.inr (mem_groupText (by decide) _ hexcludes))⟩
      · exact ⟨'(', by decide, .inl (.inl (.inr (mem_groupText (by decide) _ hincludes)))⟩
  obtain ⟨x, hx, hmem⟩ := hmem
  have hmarks : ∀ x ∈ partMarks, Ruby.blank [x] = false := List.all_iff_forall_prop.mp rfl
  refine List.all_eq_false.mpr ⟨x, hmem, ?_⟩
  have hx' := hmarks x hx
  rw [Ruby.blank, List.all_cons, List.all_nil, Bool.and_true] at hx'
  rw [hx']
  exact Bool.false_ne_true

theorem requestWorks_eq {lower : Text → Text} {ids : List Int} {q : Query} {c : Clause}
    (hc : clause ids q = some c) {works : List Row} (htext : c.text ≠ []) :
    requestWorks lower ids q works = select lower Row.columns c.text works := by
  rw [requestWorks, whereClause_eq, hc, Option.map_some, Option.bind_some, matching, blank_text htext]
  rfl

/-- An empty clause cannot be read. -/
theorem text_ne_nil {lower : Text → Text} {c : Clause} {works found : List Row}
    (h : select lower Row.columns c.text works = some found) : c.text ≠ [] := by
  intro hnil
  have hparse : parseCondition (lex []) = none := rfl
  rw [select, hnil, hparse] at h
  cases h

/-! ### The result -/

/-- The works that are counted are those that the request selects. -/
theorem exists_found {lower : Text → Text} {order : List Block → List Block}
    (horder : ∀ all, (order all).Perm all) {ids : List Int} {q : Query} {works : List Row}
    {shown : List Block} (hindex : treemapIndex lower order ids q works = some (.treemap shown)) {b : Block}
    (hb : b ∈ shown) (hother : b.parsed ≠ "Other".toList) :
    ∃ c found, clause ids q = some c ∧ select lower Row.columns c.text works = some found ∧
      b.id = (found.flatMap (values lower (q.property.getD []))).count b.parsed ∧
      contributing lower (q.property.getD []) b.parsed found ≠ [] := by
  obtain ⟨vs, hvs, rfl⟩ := treemapIndex_eq_treemap hindex
  rw [requestValues, whereClause_eq, Option.bind_map] at hvs
  obtain ⟨c, hc, hvs⟩ := Option.bind_eq_some_iff.mp hvs
  obtain ⟨found, hfound, rfl⟩ := Option.map_eq_some_iff.mp hvs
  -- a block is one of the values or the one for the group
  have hvalue : b ∈ groupValues (found.flatMap (values lower (q.property.getD []))) := by
    refine (horder _).mem_iff.mp ?_
    rw [blocks] at hb
    split at hb
    · exact (List.mem_filter.mp hb).1
    · rcases List.mem_append.mp hb with hb | hb
      · exact (List.mem_filter.mp hb).1
      · split at hb
        · exact (List.mem_filter.mp hb).1
        · rw [List.mem_singleton.mp hb] at hother
          exact absurd rfl hother
  obtain ⟨hmem, hid⟩ := mem_groupValues.mp hvalue
  obtain ⟨w, hw, hvw⟩ := List.mem_flatMap.mp hmem
  refine ⟨c, found, hc, hfound, hid, List.ne_nil_of_mem (a := w) ?_⟩
  exact List.mem_filter.mpr ⟨hw, List.contains_iff_mem.mpr hvw⟩

/-- The works of the second request, where its texts stay in their literals. -/
theorem requestWorks_narrow {lower : Text → Text} {ids : List Int} {q : Query} {c d : Clause}
    {lead : Bool} {t u : Text × Text} (hc : clause ids q = some (narrow c lead t)) (hd : c.StandsFor d)
    (ht : WorksIndex.StandsFor t u) {ds : Text} (hcollection : d.collection = some ds)
    (works : List Row) :
    requestWorks lower ids q works
      = if lead = true then none
        else some (works.filter (clauseHolds lower ds (narrow d lead u))) := by
  have hstands : (narrow c lead t).StandsFor (narrow d lead u) :=
    { hd with
      lead := rfl
      includes := List.rel_append hd.includes (.cons ht .nil) }
  have hincludes : (narrow c lead t).includes ≠ [] :=
    List.append_ne_nil_of_right_ne_nil _ (List.cons_ne_nil _ _)
  have htext : (narrow c lead t).text ≠ [] := by
    refine List.ne_nil_of_mem (a := '(') ?_
    rw [Clause.text, List.mem_append, List.mem_append, List.mem_append]
    exact .inl (.inl (.inr (mem_groupText (by decide) _ hincludes)))
  rw [requestWorks_eq hc htext]
  cases lead with
  | false => exact select_clause hstands hcollection (fun h => absurd h Bool.false_ne_true) works
  | true =>
    -- the first term begins with a connective, which the database refuses
    have hparse : parseCondition (narrow d true u).tokens = none :=
      parseCondition_lead (d := narrow d true u) hcollection rfl
        (List.append_ne_nil_of_right_ne_nil _ (List.cons_ne_nil _ _))
    rw [select, lex_clause hstands, hparse]
    rfl

/-- The works of the block are selected if each of them meets the condition. -/
theorem contributing_sublist_iff {lower : Text → Text} {property v : Text} {works : List Row}
    {holds holds' : Row → Bool} {t : Text × Text}
    (hholds : ∀ w, holds' w = true ↔ holds w = true ∧ Meets lower t w) :
    (contributing lower property v (works.filter holds)).Sublist (works.filter holds') ↔
      ∀ w ∈ contributing lower property v (works.filter holds), Meets lower t w := by
  constructor
  · intro h w hw
    exact ((hholds w).mp (List.mem_filter.mp (h.subset hw)).2).2
  · intro h
    -- the condition takes none of the works of the block away
    have hsame : contributing lower property v (works.filter holds)
        = contributing lower property v (works.filter holds') := by
      rw [contributing, contributing, List.filter_filter, List.filter_filter]
      refine List.filter_congr fun w hw => ?_
      rw [Bool.eq_iff_iff, Bool.and_eq_true, Bool.and_eq_true, hholds]
      refine and_congr_right fun hv => ⟨fun hw' => ⟨hw', h w ?_⟩, And.left⟩
      exact List.mem_filter.mpr ⟨List.mem_filter.mpr ⟨hw, hw'⟩, hv⟩
    rw [hsame]
    exact List.filter_sublist

/-- Where the texts stay in their literals, the request finds the works that meet the condition. -/
theorem sublist_narrow_iff {lower : Text → Text} {ids : List Int} {q : Query} {property v : Text}
    {works : List Row} {c d : Clause} {lead : Bool} {t u : Text × Text}
    (hclause : clause ids q = some (narrow c lead t)) (hd : c.StandsFor d)
    (ht : WorksIndex.StandsFor t u) {ds : Text} (hcollection : d.collection = some ds) {found : List Row}
    (hfound : found = works.filter (clauseHolds lower ds d)) :
    (∃ found', requestWorks lower ids q works = some found' ∧
        (contributing lower property v found).Sublist found') ↔
      lead = false ∧ ∀ w ∈ contributing lower property v found, Meets lower u w := by
  have hclick : requestWorks lower ids q works = _ := requestWorks_narrow hclause hd ht hcollection works
  have hsublist : (contributing lower property v found).Sublist
      (works.filter (clauseHolds lower ds (narrow d lead u))) ↔
        ∀ w ∈ contributing lower property v found, Meets lower u w := by
    rw [hfound]
    exact contributing_sublist_iff (clauseHolds_narrow lower ds d lead u)
  cases lead with
  | true =>
    -- the connective before the only term cannot be read
    refine iff_of_false ?_ fun h => absurd h.1.symm Bool.false_ne_true
    rintro ⟨found', hfound', -⟩
    rw [hclick] at hfound'
    cases hfound'
  | false =>
    rw [if_neg Bool.false_ne_true] at hclick
    rw [and_iff_right rfl, ← hsublist, hclick]
    constructor
    · rintro ⟨found', hfound', hsub⟩
      obtain rfl := Option.some.inj hfound'
      exact hsub
    · exact fun hsub => ⟨_, rfl, hsub⟩

/-- A request that raises selects nothing. -/
theorem not_sublist {lower : Text → Text} {ids : List Int} {q : Query} {works rows : List Row}
    (hclause : clause ids q = none) :
    ¬ ∃ found', requestWorks lower ids q works = some found' ∧ rows.Sublist found' := by
  rintro ⟨found', hfound', -⟩
  rw [requestWorks, whereClause_eq, hclause] at hfound'
  cases hfound'

/-- **The request with the term** has the works of the block exactly if the term is left out, or read back
as the name of a property and a part of its text in each of them. -/
theorem sublist_narrowed_iff {lower : Text → Text} {B : Browser} {ids : List Int} {P : Page} {v : Text}
    {works found : List Row} {c : Clause} (hc : clause ids P.query = some c)
    (hselect : select lower Row.columns c.text works = some found) (hquiet : Quiet ids (narrowed B P v)) :
    (∃ found', requestWorks lower ids (narrowed B P v) works = some found' ∧
        (contributing lower (P.query.property.getD []) v found).Sublist found') ↔
      Finds lower B P v found := by
  by_cases hother : isOther (blockTerm B P v) = true
  · -- the same works as before
    refine iff_of_true ⟨found, ?_, List.filter_sublist⟩ (.inl hother)
    rw [requestWorks, narrowed, whereClause_append_other ids P.query hother]
    exact (requestWorks_eq hc (text_ne_nil hselect)).trans hselect
  have hclause : clause ids (narrowed B P v) = _ :=
    clause_narrow hc (Bool.eq_false_iff.mpr hother) hquiet.marks
  rw [Finds, or_iff_right hother]
  cases ht : term (blockTerm B P v) with
  | none =>
    refine iff_of_false (not_sublist (by rw [hclause, ht, Option.bind_none])) ?_
    rintro ⟨t, name, key, h, -⟩
    cases h
  | some t =>
    rw [ht, Option.bind_some] at hclause
    cases hn : Ruby.unescape t.1 with
    | none =>
      refine iff_of_false (not_sublist (by rw [hclause, hn, Option.map_none])) ?_
      rintro ⟨t', name, key, h, hname, -⟩
      cases h
      rw [hn] at hname
      cases hname
    | some name =>
      rw [hn, Option.map_some] at hclause
      have hclosed := hquiet.closed _ hclause
      have hbefore : c.Closed :=
        ⟨hclosed.collection, fun t ht => hclosed.includes t (List.mem_append_left _ ht), hclosed.excludes⟩
      obtain ⟨d, hd⟩ := (standsFor_iff_closed hc).mpr hbefore
      obtain ⟨ds, hcollection, -, hfound⟩ := select_clause_inv hd hselect
      have hiff : ∀ key, Enclosed name key →
          ((∃ found', requestWorks lower ids (narrowed B P v) works = some found' ∧
            (contributing lower (P.query.property.getD []) v found).Sublist found') ↔
          leads (P.query.includes ++ [blockTerm B P v]) = false ∧
            ∀ w ∈ contributing lower (P.query.property.getD []) v found, Meets lower (key, pattern t.2) w) :=
        fun key hkey =>
          sublist_narrow_iff hclause hd ⟨hkey, enclosed_quoteString _⟩ hcollection hfound
      constructor
      · intro h
        obtain ⟨key, hkey⟩ := hclosed.includes _ (List.mem_append_right _ List.mem_cons_self)
        obtain ⟨hlead, hmeets⟩ := (hiff key hkey).mp h
        exact ⟨t, name, key, rfl, hn, hkey, hlead, hmeets⟩
      · rintro ⟨t', name', key, ht', hn', hkey, hlead, hmeets⟩
        cases ht'
        obtain rfl := Option.some.inj (hn.symm.trans hn')
        exact (hiff key hkey).mpr ⟨hlead, hmeets⟩

/-- A property without markup writes one input, that of the term. -/
theorem click_of_absent {B : Browser} {P : Page} {v : Text} (hv : v ≠ [])
    (hinert : Html.inert P.sel = true) (hfind : B.find (P.inputs B) (P.value v) = some 0) :
    click B P v = some (narrowed B P v) := by
  have hinputs : B.inputs [propHtml .inc (P.value v) P.sel v]
      = [(Kind.inc.inputName, hiddenInput B (P.value v))] :=
    B.inputs_of_inert _ (List.forall_mem_singleton.mpr hinert)
  have hexc : Kind.inc.inputName ≠ Kind.exc.inputName := by decide
  rw [click, if_neg hv, hfind]
  dsimp only
  rw [hinputs, List.map_singleton, params_cons_of_eq rfl, params_cons_of_ne hexc, params_nil, params_nil,
    List.append_nil, narrowed, blockTerm]

/-- **A click on a block finds its works**, where the request writes no SQL and the property no HTML of its
own, exactly if the term is looked for among those of the page and is there, or is left out, or read back
as the name of a property and a part of its text in each of them. -/
theorem selects_iff {lower : Text → Text} {order : List Block → List Block}
    (horder : ∀ all, (order all).Perm all) (B : Browser) {ids : List Int} {P : Page} {works : List Row}
    {shown : List Block} (hindex : treemapIndex lower order ids P.query works = some (.treemap shown))
    {b : Block} (hb : b ∈ shown) (hvalue : b.parsed ≠ []) (hlabel : b.parsed ≠ "Other".toList)
    (hquiet : Quiet ids (narrowed B P b.parsed)) (hinert : Html.inert P.sel = true) :
    ∃ found, requestWorks lower ids P.query works = some found ∧
      b.id = (found.flatMap (values lower (P.query.property.getD []))).count b.parsed ∧
      (Selects lower B ids P b.parsed works ↔ ∃ n, B.find (P.inputs B) (P.value b.parsed) = some n ∧
        (0 < n ∨ Finds lower B P b.parsed found)) := by
  obtain ⟨c, found, hc, hselect, hid, hne⟩ := exists_found horder hindex hb hlabel
  generalize b.parsed = v at *
  have hbase : requestWorks lower ids P.query works = some found :=
    (requestWorks_eq hc (text_ne_nil hselect)).trans hselect
  refine ⟨found, hbase, hid, ?_⟩
  -- whichever request comes after the click, its works are to contain those of the block
  have hselects : Selects lower B ids P v works ↔ ∃ q, click B P v = some q ∧
      ∃ found', requestWorks lower ids q works = some found' ∧
        (contributing lower (P.query.property.getD []) v found).Sublist found' := by
    constructor
    · rintro ⟨q, found₁, found', hfound₁, hclick, hfound', hsub, -⟩
      obtain rfl := Option.some.inj (hbase.symm.trans hfound₁)
      exact ⟨q, hclick, found', hfound', hsub⟩
    · rintro ⟨q, hclick, found', hfound', hsub⟩
      exact ⟨q, found, found', hbase, hclick, hfound', hsub, hne⟩
  rw [hselects]
  cases hfind : B.find (P.inputs B) (P.value v) with
  | none =>
    have hclick : click B P v = none := by rw [click, if_neg hvalue, hfind]
    rw [hclick]
    exact iff_of_false (by simp) (by simp)
  | some n =>
    cases n with
    | zero =>
      rw [click_of_absent hvalue hinert hfind]
      simp only [Option.some.injEq, exists_eq_left', Nat.lt_irrefl, false_or]
      exact sublist_narrowed_iff hc hselect hquiet
    | succ n =>
      -- the page stays
      have hclick : click B P v = some P.query := by rw [click, if_neg hvalue, hfind]
      refine iff_of_true ⟨P.query, hclick, found, hbase, List.filter_sublist⟩ ?_
      exact ⟨n + 1, rfl, .inl n.succ_pos⟩

/-! ### Plain terms -/

/-- The form selects the property that it was submitted with, if there is neither a blank nor a delimiter in
it. -/
theorem sel_of_form {P : Page} {before after : List (Text × Text)} {property : Text}
    (hsearch : P.search = decodedSearch (before ++ ("property".toList, property) :: after))
    (hbefore : ∀ e ∈ before, Control e) (hafter : initProperties (after.flatMap entryParts) = [])
    (hplain : ∀ c ∈ property, c ∉ [' ', '&', '=', ':'])
    (hoption : property ∈ P.properties.map optionValue) : P.sel = property := by
  have hnot : ∀ c ∈ [' ', '&', '=', ':'], c ∉ property := fun c hc hmem => hplain c hmem hc
  have hset : setTo property = property := by
    rw [setTo_eq (hnot '=' (by decide)) (hnot ':' (by decide)), plus_eq_of_notMem (hnot ' ' (by decide))]
  rw [Page.sel, hsearch, propertyVal_form hbefore hafter (hnot '&' (by decide)), hset,
    if_pos (List.contains_iff_mem.mpr hoption)]
  rfl

/-- A plain term of a value that stands in the stored texts is what it has to be. -/
theorem finds_of_infix {lower : Text → Text} {B : Browser} {P : Page} {found : List Row} {t : Term}
    (ht : t.Plain) (hproperty : P.query.property.getD [] = t.name) (hsel : P.sel = t.name)
    (hname : '%' ∉ t.name ∧ '\'' ∉ t.name) (hdown : Ruby.downcase t.value = t.value) (hescape : '\\' ∉ t.value)
    (hlead : leads (P.query.includes ++ [t.text]) = false)
    (hstored : ∀ w ∈ contributing lower t.name t.value found,
      ∃ s, w.property t.name = some s ∧ t.value <:+: lower s.toList) :
    Finds lower B P t.value found := by
  have hsent : blockTerm B P t.value = t.text := by
    rw [blockTerm, Page.value, hsel]
    exact ht.sent_eq B
  rw [Finds, hsent, hproperty]
  refine .inr ⟨(t.name, t.value), t.name, t.name, ?_, unescape_of_notMem hname.1, .of_notMem hname.2, hlead,
    fun w hw => ?_⟩
  · rw [← ht.sent_eq B]
    exact ht.term_sent B
  · obtain ⟨s, hs, hpart⟩ := hstored w hw
    refine ⟨s, hs, ?_⟩
    rw [pattern, hdown]
    exact like_of_infix hescape hpart

/-- **What the treemap reads, the click finds**: for lists that can be read and a plain term. -/
theorem finds_of_readable {low : Char → Char} (hlow : Lowers low) {printable : Char → Bool} {B : Browser}
    {P : Page} {found : List Row} {t : Term} (ht : t.Plain) (hproperty : P.query.property.getD [] = t.name)
    (hsel : P.sel = t.name) (hname : '%' ∉ t.name ∧ '\'' ∉ t.name) (hdown : Ruby.downcase t.value = t.value)
    (hescape : '\\' ∉ t.value) (hlead : leads (P.query.includes ++ [t.text]) = false)
    {lists : List (List Scalar)} (hstored : List.Forall₂ (Stored printable t.name) found lists)
    (hread : ∀ xs ∈ lists, Readable printable xs) :
    Finds (List.map low) B P t.value found := by
  refine finds_of_infix ht hproperty hsel hname hdown hescape hlead fun w hw => ?_
  obtain ⟨hfound, hv⟩ := List.mem_filter.mp hw
  obtain ⟨xs, hxs, hs⟩ := Lists.exists_of_forall₂ hstored hfound
  have hv' : t.value ∈ values (List.map low) t.name w := List.contains_iff_mem.mp (hproperty ▸ hv)
  rw [values, hs, Option.elim_some] at hv'
  exact ⟨_, hs, infix_of_readable hlow (hread xs hxs) hv'⟩

/-- The treemap of the topics, requested by the form. -/
def topicsPage : Page where
  query := topicsQuery "topics"
  search := decodedSearch [("vis".toList, "treemap".toList), ("property".toList, "topics".toList)]
  properties := ["title".toList, "topics".toList]

theorem sel_topicsPage : topicsPage.sel = "topics".toList := by
  refine @sel_of_form topicsPage [("vis".toList, "treemap".toList)] [] "topics".toList rfl ?_ rfl ?_ ?_
  · exact List.forall_mem_singleton.mpr ⟨fun k => by cases k <;> decide, by decide, by decide⟩
  · exact List.all_iff_forall_prop.mp rfl
  · decide

/-- The term of two women. -/
def womenTerm : Term where
  kind := .inc
  name := "topics".toList
  value := "women".toList
  name_ne := by decide
  name_colon := by decide
  value_ne := by decide

theorem selects_women :
    Selects (List.map Char.toLower) .simple [1] topicsPage "women".toList (topicWorks threeLists) := by
  have hindex : treemapIndex (List.map Char.toLower) id [1] topicsPage.query (topicWorks threeLists)
      = some (.treemap [⟨"women".toList, 2⟩, ⟨"joseph, saint".toList, 1⟩, ⟨"1889".toList, 1⟩]) := by
    decide +kernel
  have hquiet : Quiet [1] (narrowed .simple topicsPage "women".toList) := quiet_of_plain {
    collectionId := fun t ht => by
      obtain rfl := Option.some.inj ht
      exact ⟨by decide, List.all_eq_true.mp rfl⟩
    includes := by
      have hsent : narrowed .simple topicsPage "women".toList
          = { topicsQuery "topics" with includes := [womenTerm.text] } := by decide +kernel
      rw [hsent]
      exact List.forall_mem_singleton.mpr
        ⟨"topics".toList, "women".toList, rfl, .of_all (by decide) rfl, .of_all (by decide) rfl⟩
    excludes := List.forall_mem_nil _
    colorfilter := fun t ht => by cases ht
    property := fun t ht => by
      obtain rfl := Option.some.inj ht
      exact .of_all (by decide) rfl }
  have hinert : Html.inert topicsPage.sel = true := by
    rw [sel_topicsPage]
    decide
  obtain ⟨found, hfound, -, hiff⟩ := selects_iff (P := topicsPage) (fun all => List.Perm.refl all) .simple
    hindex List.mem_cons_self (by decide) (by decide) hquiet hinert
  have hall : requestWorks (List.map Char.toLower) [1] topicsPage.query (topicWorks threeLists)
      = some (topicWorks threeLists) := by decide +kernel
  obtain rfl := Option.some.inj (hall.symm.trans hfound)
  -- the term is not in the page, and it finds the two works
  have habsent : Browser.simple.find (topicsPage.inputs .simple) (topicsPage.value "women".toList) = some 0 := by
    decide +kernel
  refine hiff.mpr ⟨0, habsent, .inr ?_⟩
  refine finds_of_readable (t := womenTerm) lowers_toLower ?_ rfl sel_topicsPage ?_ ?_ ?_ ?_
    (stored_topicWorks threeLists) ?_
  · exact ⟨by decide, by decide, by decide, by decide, by decide, by decide +kernel⟩
  · decide
  · decide
  · decide
  · decide +kernel
  · decide +kernel

/-- Two works with a topic, one of them with brackets in it. -/
def brackets : List (List Scalar) := [[.str "St. Mary [fresco]"], [.str "Women"]]

/-- **A value in which there were brackets** is not found again. -/
theorem not_selects_brackets :
    treemapIndex (List.map Char.toLower) id [1] topicsPage.query (topicWorks brackets)
        = some (.treemap [⟨"st. mary fresco".toList, 1⟩, ⟨"women".toList, 1⟩]) ∧
      ¬ Selects (List.map Char.toLower) .simple [1] topicsPage "st. mary fresco".toList
        (topicWorks brackets) := by
  refine ⟨by decide +kernel, ?_⟩
  rintro ⟨q, found, found', -, hclick, hfound', hsub, hne⟩
  have hq : click .simple topicsPage "st. mary fresco".toList
      = some (narrowed .simple topicsPage "st. mary fresco".toList) := by decide +kernel
  obtain rfl := Option.some.inj (hq.symm.trans hclick)
  have hnone : requestWorks (List.map Char.toLower) [1]
      (narrowed .simple topicsPage "st. mary fresco".toList) (topicWorks brackets) = some [] := by
    decide +kernel
  obtain rfl := Option.some.inj (hnone.symm.trans hfound')
  exact hne (List.sublist_nil.mp hsub)

end Treemap
end Curarium
