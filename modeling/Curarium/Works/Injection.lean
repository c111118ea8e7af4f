import Curarium.Works.Treemap

/-!
# Who writes the SQL of the works index

A request should only write the contents of literals. The index splices five of its parameters
into SQL: patterns, colors and the property of the treemap go through `quote_string` into a string
literal, but the name of a property is spliced into the format itself, and `collection_id` stands
outside of any literal.

* `NoInjection` is the intended property of a request: the statements lex as those of a plain
  request of the same shape, and every text of the request stays in its place.
* `noInjection_iff` says for which requests it holds: `collection_id` has to be an integer literal
  by itself, and the quotes in every name have to come in pairs, or the action has to raise.
* `noInjection_orTitle` is a request for which it does not.
-/

namespace Curarium
namespace WorksIndex

open Sql Transducer

/-! ### The intended property -/

/-- The parts of the `where` clause and of the treemap statement. -/
def whereParts (ids : List Int) (q : Query) : Option (List Part) := (clause ids q).map Clause.parts

def treemapParts (ids : List Int) (q : Query) : Option (List Part) :=
  (clause ids q).map fun c =>
    [.fixed treemapHead, .literal (Rails.quoteString (q.property.getD [])), .fixed treemapBody]
      ++ c.parts ++ [.fixed treemapTail]

/-- What a request has apart from its texts: which parameters it gives and how many terms, and
which of the includes have the value `Other`. -/
def Query.shape (q : Query) : Bool × List Bool × Nat × Bool :=
  ((present q.collectionId).isSome, q.includes.map isOther, q.excludes.length,
    (present q.colorfilter).isSome)

/-- A statement that the index builds keeps the texts of the request in their places, and lexes as
it does for any plain request of the same shape, but for the contents of literals. -/
def Contained (build : List Int → Query → Option Text)
    (parts : List Int → Query → Option (List Part)) (ids : List Int) (q : Query) : Prop :=
  ∀ sql, build ids q = some sql →
    (∃ ps, parts ids q = some ps ∧ ps.flatMap Part.text = sql ∧ InPlace .idle ps) ∧
    ∀ ids' r sql', Plain r → r.shape = q.shape → build ids' r = some sql' →
      (lex sql).map Token.erase = (lex sql').map Token.erase

/-- The request writes nothing but the contents of literals. -/
def NoInjection (ids : List Int) (q : Query) : Prop :=
  Contained whereClause whereParts ids q ∧ Contained treemapSql treemapParts ids q

/-! ### The texts that `quote_string` has gone over -/

theorem enclosed_formatTerms {ts us : List (Text × Text)} (h : formatTerms ts = some us) :
    ∀ u ∈ us, ∃ v, Enclosed u.2 v := by
  induction ts generalizing us with
  | nil =>
    cases h
    exact fun _ hu => nomatch hu
  | cons t ts ih =>
    simp only [formatTerms, Option.bind_eq_some_iff, Option.map_eq_some_iff] at h
    obtain ⟨n, -, us, hus, rfl⟩ := h
    rw [List.forall_mem_cons]
    exact ⟨⟨_, enclosed_quoteString _⟩, ih hus⟩

theorem enclosed_bindTerms (bound : List Text) (ts : List (Text × Text)) :
    ∀ u ∈ bindTerms bound ts, ∃ v, Enclosed u.2 v := by
  induction ts generalizing bound with
  | nil => exact fun _ hu => nomatch hu
  | cons t ts ih =>
    have hvalue : Enclosed "%s".toList "%s".toList := .of_notMem (by decide)
    rw [bindTerms, List.forall_mem_cons]
    exact ⟨⟨_, hvalue⟩, ih _⟩

theorem enclosed_fill {ts us : List (Text × Text)} (h : fill ts = some us) :
    ∀ u ∈ us, ∃ v, Enclosed u.2 v := by
  unfold fill at h
  split at h
  · exact enclosed_formatTerms h
  · split at h
    · cases h
      exact enclosed_bindTerms _ ts
    · cases h

/-! ### The texts that it has not -/

/-- `collection_id` is an integer literal by itself, and the quotes in the names come in pairs. -/
structure Clause.Closed (c : Clause) : Prop where
  collection : ∀ cid ∈ c.collection, ∃ ds, IntLiteral cid ds
  includes : ∀ t ∈ c.includes, ∃ n, Enclosed t.1 n
  excludes : ∀ t ∈ c.excludes, ∃ n, Enclosed t.1 n

theorem standsFor_of_enclosed {ts : List (Text × Text)} (hvalues : ∀ t ∈ ts, ∃ v, Enclosed t.2 v) :
    (∃ us, List.Forall₂ StandsFor ts us) ↔ ∀ t ∈ ts, ∃ n, Enclosed t.1 n := by
  rw [Lists.exists_forall₂_iff]
  constructor
  · intro h t ht
    obtain ⟨u, hu⟩ := h t ht
    exact ⟨u.1, hu.1⟩
  · intro h t ht
    obtain ⟨n, hn⟩ := h t ht
    obtain ⟨v, hv⟩ := hvalues t ht
    exact ⟨(n, v), hn, hv⟩

/-- The other texts of a clause always stand for contents of their own. -/
theorem standsFor_iff_closed {ids : List Int} {q : Query} {c : Clause}
    (h : clause ids q = some c) : (∃ d, c.StandsFor d) ↔ c.Closed := by
  obtain ⟨-, -, ⟨ts, -, his⟩, ⟨us, -, hes⟩, hcolor⟩ := clause_eq_some h
  constructor
  · rintro ⟨d, hcollection, -, hincludes, hexcludes, -⟩
    refine ⟨?_, ?_, ?_⟩
    · exact Lists.exists_rel_iff.mp ⟨_, hcollection⟩
    · exact (standsFor_of_enclosed (enclosed_fill his)).mp ⟨_, hincludes⟩
    · exact (standsFor_of_enclosed (enclosed_fill hes)).mp ⟨_, hexcludes⟩
  · rintro ⟨hcollection, hincludes, hexcludes⟩
    obtain ⟨is, his⟩ := (standsFor_of_enclosed (enclosed_fill his)).mpr hincludes
    obtain ⟨es, hes⟩ := (standsFor_of_enclosed (enclosed_fill hes)).mpr hexcludes
    obtain ⟨ds, hds⟩ := Lists.exists_rel_iff.mpr hcollection
    -- the color is quoted, so it closes in any case
    obtain ⟨color, hcolor⟩ : ∃ color, Option.Rel Enclosed c.color color := by
      rw [Lists.exists_rel_iff, hcolor]
      intro t ht
      obtain ⟨color, -, rfl⟩ := Option.map_eq_some_iff.mp ht
      exact ⟨_, enclosed_quoteString _⟩
    exact ⟨⟨ds, c.lead, is, es, color⟩, hds, rfl, his, hes, hcolor⟩

/-! ### Plain requests -/

/-- **Plain requests are closed.** -/
theorem closed_of_plain {ids : List Int} {r : Query} {c : Clause} (hr : Plain r)
    (h : clause ids r = some c) : c.Closed := by
  obtain ⟨hcollection, -, ⟨ts, hts, his⟩, ⟨us, hus, hes⟩, -⟩ := clause_eq_some h
  have hname : ∀ {ts us : List (Text × Text)}, (∀ t ∈ ts, Alphanumeric t.1) → fill ts = some us →
      ∀ u ∈ us, ∃ n, Enclosed u.1 n := by
    intro ts us hts hus u hu
    rw [fill_plain hts] at hus
    cases hus
    obtain ⟨t, ht, rfl⟩ := List.mem_map.mp hu
    exact ⟨t.1, .of_notMem ((hts t ht).notMem (by decide))⟩
  -- digits are an integer literal by themselves
  refine ⟨?_, hname (terms_plain hr.includes hts) his, hname (terms_plain hr.excludes hus) hes⟩
  intro cid hcid
  rw [Option.mem_def] at hcid
  rw [hcid] at hcollection
  unfold collectionSlot at hcollection
  split at hcollection
  · cases hcollection
  · next t ht =>
    split at hcollection
    · obtain ⟨ht, -⟩ := Option.filter_eq_some_iff.mp ht
      obtain ⟨hne, hdigit⟩ := hr.collectionId t ht
      cases hcollection
      have hquote : '\'' ∉ t := fun hmem => absurd (hdigit _ hmem) (by decide)
      rw [quoteString_of_notMem hquote]
      exact ⟨t, intLiteral_digits hne hdigit⟩
    · cases hcollection

/-! ### Requests of the same shape -/

/-- What a clause has apart from its texts. -/
def Clause.shape (c : Clause) : Bool × Bool × Nat × Nat × Bool :=
  (c.collection.isSome, c.lead, c.includes.length, c.excludes.length, c.color.isSome)

theorem length_terms {skip : Text → Bool} {ps : List Text} {ts : List (Text × Text)}
    (h : terms skip ps = some ts) : ts.length = (ps.map skip).countP (! ·) := by
  induction ps generalizing ts with
  | nil => cases h; rfl
  | cons p ps ih =>
    rw [terms] at h
    rw [List.map_cons, List.countP_cons]
    by_cases hp : skip p
    · rw [if_pos hp] at h
      simp [hp, ih h]
    · rw [if_neg hp] at h
      simp only [Option.bind_eq_some_iff, Option.map_eq_some_iff] at h
      obtain ⟨t, -, us, hus, rfl⟩ := h
      simp [hp, ih hus]

theorem leads_eq (includes : List Text) :
    leads includes = decide (2 ≤ (includes.map isOther).findIdx (! ·)) := by
  rw [leads, List.findIdx_map]
  rfl

/-- The shape of a clause is that of its request. -/
theorem shape_clause {ids : List Int} {q : Query} {c : Clause} (h : clause ids q = some c) :
    c.shape = (q.shape.1, decide (2 ≤ q.shape.2.1.findIdx (! ·)), q.shape.2.1.countP (! ·),
      q.shape.2.2.1, q.shape.2.2.2) := by
  obtain ⟨hcollection, hlead, ⟨ts, hts, his⟩, ⟨us, hus, hes⟩, hcolor⟩ := clause_eq_some h
  have hsome : c.collection.isSome = (present q.collectionId).isSome := by
    unfold collectionSlot at hcollection
    cases hp : present q.collectionId with
    | none =>
      rw [hp] at hcollection
      rw [← Option.some.inj hcollection]
    | some cid =>
      simp only [hp] at hcollection
      split at hcollection
      · rw [← Option.some.inj hcollection]
        rfl
      · cases hcollection
  -- no exclude is skipped
  have hall : (q.excludes.map fun _ => false).countP (! ·) = q.excludes.length := by
    rw [List.countP_eq_length.mpr, List.length_map]
    intro b hb
    obtain ⟨_, -, rfl⟩ := List.mem_map.mp hb
    rfl
  rw [Clause.shape, Query.shape, hsome, hlead, leads_eq, length_fill his, length_terms hts,
    length_fill hes, length_terms hus, hall, hcolor, colorSlot, Option.isSome_map]

theorem Clause.StandsFor.shape_eq {c d : Clause} (h : c.StandsFor d) : c.shape = d.shape := by
  have hrel : ∀ {r : Text → Text → Prop} {a b : Option Text}, Option.Rel r a b →
      a.isSome = b.isSome := by
    rintro r a b (_ | _)
    · rfl
    · rfl
  rw [Clause.shape, Clause.shape, hrel h.collection, h.lead, h.includes.length_eq,
    h.excludes.length_eq, hrel h.color]

theorem erase_join (tok : Token) (lead : Bool) {ts us : List (Text × Text)}
    (h : ts.length = us.length) :
    (joinTokens tok lead ts).map Token.erase = (joinTokens tok lead us).map Token.erase := by
  cases ts with
  | nil => rw [List.length_eq_zero_iff.mp h.symm]
  | cons t ts =>
    cases us with
    | nil => cases h
    | cons u us =>
      have hrest := Lists.flatMap_eq_of_length_eq
        (f := fun u => (tok :: termTokens u).map Token.erase) (fun _ _ => rfl) (Nat.succ.inj h)
      simp only [joinTokens, List.map_append, List.map_flatMap, hrest]
      rfl

theorem erase_group (toks : List Token) (tok : Token) (lead : Bool) {ts us : List (Text × Text)}
    (h : ts.length = us.length) :
    (groupTokens toks tok lead ts).map Token.erase
      = (groupTokens toks tok lead us).map Token.erase := by
  have hnil : ts = [] ↔ us = [] := by
    rw [← List.length_eq_zero_iff, ← List.length_eq_zero_iff, h]
  unfold groupTokens
  by_cases hts : ts = []
  · rw [if_pos hts, if_pos (hnil.mp hts)]
  · rw [if_neg hts, if_neg fun hus => hts (hnil.mpr hus), List.map_append, List.map_append,
      List.map_append, List.map_append, erase_join tok lead h]

/-- **The tokens of a clause are those of its shape**, but for the contents of its literals. -/
theorem erase_tokens {d d' : Clause} (h : d.shape = d'.shape) :
    d.tokens.map Token.erase = d'.tokens.map Token.erase := by
  simp only [Clause.shape, Prod.mk.injEq] at h
  obtain ⟨hcollection, hlead, hincludes, hexcludes, hcolor⟩ := h
  -- a part that may be missing is there in both clauses or in neither
  have helim : ∀ {f : Text → List Token}, (∀ a b, (f a).map Token.erase = (f b).map Token.erase) →
      ∀ {a b : Option Text}, a.isSome = b.isSome →
      (a.elim [] f).map Token.erase = (b.elim [] f).map Token.erase := by
    rintro f hf (_ | a) (_ | b) hab
    · rfl
    · cases hab
    · cases hab
    · exact hf a b
  simp only [Clause.tokens, List.map_append, hlead, erase_group _ _ _ hincludes,
    erase_group _ _ _ hexcludes]
  rw [helim (fun _ _ => rfl) hcollection, helim (fun _ _ => rfl) hcolor]

/-! ### The result -/

/-- A plain request has contents of the same shape. -/
theorem exists_plain_contents {ids ids' : List Int} {q r : Query} {c c' d : Clause}
    (hc : clause ids q = some c) (hd : c.StandsFor d) (hr : Plain r) (hshape : r.shape = q.shape)
    (hc' : clause ids' r = some c') :
    ∃ d', c'.StandsFor d' ∧ d.tokens.map Token.erase = d'.tokens.map Token.erase := by
  obtain ⟨d', hd'⟩ := (standsFor_iff_closed hc').mpr (closed_of_plain hr hc')
  refine ⟨d', hd', erase_tokens ?_⟩
  rw [← hd.shape_eq, ← hd'.shape_eq, shape_clause hc, shape_clause hc', hshape]

theorem contained_whereClause {ids : List Int} {q : Query} {c d : Clause}
    (hc : clause ids q = some c) (hd : c.StandsFor d) : Contained whereClause whereParts ids q := by
  intro sql hsql
  rw [whereClause_eq, hc] at hsql
  cases hsql
  refine ⟨⟨c.parts, by rw [whereParts, hc]; rfl, text_parts c, (inPlace_parts_iff c).mpr ⟨d, hd⟩⟩, ?_⟩
  intro ids' r sql' hr hshape hsql'
  rw [whereClause_eq, Option.map_eq_some_iff] at hsql'
  obtain ⟨c', hc', rfl⟩ := hsql'
  obtain ⟨d', hd', htokens⟩ := exists_plain_contents hc hd hr hshape hc'
  rw [lex_clause hd, lex_clause hd', htokens]

theorem contained_treemapSql {ids : List Int} {q : Query} {c d : Clause}
    (hc : clause ids q = some c) (hd : c.StandsFor d) :
    Contained treemapSql treemapParts ids q := by
  intro sql hsql
  rw [treemapSql_eq, hc] at hsql
  obtain rfl := Option.some.inj hsql
  refine ⟨⟨_, by rw [treemapParts, hc, Option.map_some], ?_, ?_⟩, ?_⟩
  · simp only [List.flatMap_append, List.flatMap_cons, List.flatMap_nil, Part.text, text_parts,
      List.append_assoc, List.append_nil]
  · exact (treemapFrame.inPlace_iff _ c).mpr ((inPlace_parts_iff c).mpr ⟨d, hd⟩)
  · intro ids' r sql' hr hshape hsql'
    rw [treemapSql_eq, Option.map_eq_some_iff] at hsql'
    obtain ⟨c', hc', rfl⟩ := hsql'
    obtain ⟨d', hd', htokens⟩ := exists_plain_contents hc hd hr hshape hc'
    -- without the contents of literals the two statements are the same
    have herase : ∀ p, (strToken .standard p).erase = .str .standard "" := fun _ => rfl
    simp only [treemapFrame.lex_eq hd, treemapFrame.lex_eq hd', List.map_append, List.map_cons,
      htokens, herase]

/-- **Who writes the SQL.** A request only writes the contents of literals exactly if, where the
action does not raise, its `collection_id` is an integer literal by itself and the quotes in every
name come in pairs. -/
theorem noInjection_iff (ids : List Int) (q : Query) :
    NoInjection ids q ↔ ∀ c, clause ids q = some c → c.Closed := by
  constructor
  · rintro ⟨hwhere, -⟩ c hc
    have hsql : whereClause ids q = some c.text := by rw [whereClause_eq, hc]; rfl
    obtain ⟨⟨ps, hps, -, hplace⟩, -⟩ := hwhere _ hsql
    rw [whereParts, hc] at hps
    cases hps
    exact (standsFor_iff_closed hc).mp ((inPlace_parts_iff c).mp hplace)
  · intro h
    cases hc : clause ids q with
    | none =>
      -- the action raises before it has a statement
      refine ⟨?_, ?_⟩
      · intro sql hsql
        rw [whereClause_eq, hc] at hsql
        cases hsql
      · intro sql hsql
        rw [treemapSql_eq, hc] at hsql
        cases hsql
    | some c =>
      obtain ⟨d, hd⟩ := (standsFor_iff_closed hc).mpr (h c hc)
      exact ⟨contained_whereClause hc hd, contained_treemapSql hc hd⟩

/-- A request whose property name closes its literal and goes on with a condition of its own. -/
def orTitle : Query where
  collectionId := some "1".toList
  includes := ["title') is null or lower(parsed->'title:x".toList]
  excludes := []
  colorfilter := none
  property := none

theorem whereClause_orTitle :
    whereClause [1] orTitle = some (" collection_id = 1 AND ( ".toList
      ++ "lower(parsed->'title') is null or lower(parsed->'title') like '%x%' )".toList) := by
  decide +kernel

/-- **A property name writes SQL.** The clause has a condition `is null` that no plain request with
one include has. -/
theorem noInjection_orTitle : ¬ NoInjection [1] orTitle := by
  rintro ⟨hwhere, -⟩
  obtain ⟨-, hsame⟩ := hwhere _ whereClause_orTitle
  have hplain : Plain { orTitle with includes := ["title:x".toList] } := by
    refine ⟨?_, ?_, fun _ hp => (nomatch hp), fun _ ht => (nomatch ht), fun _ ht => (nomatch ht)⟩
    · intro t ht
      obtain rfl := Option.mem_some_iff.mp ht
      exact ⟨by decide, List.all_eq_true.mp rfl⟩
    · intro p hp
      obtain rfl := List.mem_singleton.mp hp
      exact ⟨"title".toList, "x".toList, rfl, .of_all (by decide) rfl, .of_all (by decide) rfl⟩
  -- a plain request of the same shape has fewer tokens
  have htitle : whereClause [1] { orTitle with includes := ["title:x".toList] }
      = some " collection_id = 1 AND ( lower(parsed->'title') like '%x%' )".toList := by
    decide +kernel
  have heq := hsame [1] _ _ hplain (by decide +kernel) htitle
  exact absurd heq (by decide +kernel)

end WorksIndex
end Curarium
