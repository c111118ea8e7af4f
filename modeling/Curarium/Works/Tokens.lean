import Curarium.Library.Lists
import Curarium.Sql.Literal
import Curarium.Works.Clause

/-!
# The tokens of the clause

How PostgreSQL reads the clause that the works index builds, from how it reads the texts of the
request in their places.

* `Clause.parts` are the parts of the clause, `Clause.tokens` its tokens when the contents of its
  literals are given.
* A clause whose texts stand for contents of their own lexes to these tokens (`reads_clause`), and
  its texts stay in their places exactly if they do (`inPlace_parts_iff`).
-/

namespace Curarium
namespace WorksIndex

open Sql Transducer

/-! ### Parts -/

def termParts (t : Text × Text) : List Part :=
  [.fixed "lower(parsed->'".toList, .literal t.1, .fixed "') like '".toList, .literal t.2,
    .fixed "'".toList]

def joinParts (sep : Text) (lead : Bool) : List (Text × Text) → List Part
  | [] => []
  | t :: ts =>
    (if lead then [.fixed sep] else []) ++ termParts t ++ ts.flatMap fun u =>
      .fixed sep :: termParts u

def groupParts (opening sep : Text) (lead : Bool) (ts : List (Text × Text)) : List Part :=
  if ts = [] then [] else .fixed opening :: joinParts sep lead ts ++ [.fixed " )".toList]

def collectionParts (collection : Option Text) : List Part :=
  collection.elim [] fun cid => [.fixed " collection_id = ".toList, .integer cid]

def colorParts (color : Option Text) : List Part :=
  color.elim [] fun color =>
    [.fixed " AND top_colors::text like '%".toList, .literal color, .fixed "%'".toList]

/-- The parts of the clause. -/
def Clause.parts (c : Clause) : List Part :=
  collectionParts c.collection
    ++ groupParts " AND ( ".toList " AND ".toList c.lead c.includes
    ++ groupParts " AND NOT ( ".toList " OR ".toList false c.excludes
    ++ colorParts c.color

theorem text_termParts (t : Text × Text) : (termParts t).flatMap Part.text = termText t.1 t.2 := by
  simp only [termParts, List.flatMap_cons, Part.text, List.flatMap_nil, List.append_nil]
  unfold termText
  simp only [List.append_assoc]

theorem text_joinParts (sep : Text) (lead : Bool) (ts : List (Text × Text)) :
    (joinParts sep lead ts).flatMap Part.text = joinTerms sep lead ts := by
  cases ts with
  | nil => rfl
  | cons t ts =>
    rw [joinParts, joinTerms, List.flatMap_append, List.flatMap_append, text_termParts,
      List.flatMap_assoc]
    cases lead with
    | true => simp [Part.text, text_termParts]
    | false => simp [Part.text, text_termParts]

theorem text_groupParts (opening sep : Text) (lead : Bool) (ts : List (Text × Text)) :
    (groupParts opening sep lead ts).flatMap Part.text = groupText opening sep lead ts := by
  unfold groupParts groupText
  split
  · rfl
  · rw [List.flatMap_append, List.flatMap_cons, text_joinParts, List.flatMap_singleton]
    rfl

theorem text_collectionParts (collection : Option Text) :
    (collectionParts collection).flatMap Part.text
      = collection.elim [] fun cid => " collection_id = ".toList ++ cid := by
  cases collection with
  | none => rfl
  | some cid =>
    simp only [collectionParts, Option.elim_some, List.flatMap_cons, Part.text, List.flatMap_nil,
      List.append_nil]

theorem text_colorParts (color : Option Text) :
    (colorParts color).flatMap Part.text = color.elim [] fun color =>
      " AND top_colors::text like '%".toList ++ color ++ "%'".toList := by
  cases color with
  | none => rfl
  | some color =>
    simp only [colorParts, Option.elim_some, List.flatMap_cons, Part.text, List.flatMap_nil,
      List.append_nil, List.append_assoc]

theorem text_parts (c : Clause) : c.parts.flatMap Part.text = c.text := by
  rw [Clause.parts, Clause.text, List.flatMap_append, List.flatMap_append, List.flatMap_append,
    text_groupParts, text_groupParts, text_collectionParts, text_colorParts]

/-! ### Tokens -/

def termTokens (t : Text × Text) : List Token :=
  [.word "lower", .punct '(', .word "parsed", .op "->", strToken .standard t.1, .punct ')',
    .word "like", strToken .standard t.2]

def joinTokens (sep : Token) (lead : Bool) : List (Text × Text) → List Token
  | [] => []
  | t :: ts =>
    (if lead then [sep] else []) ++ termTokens t ++ ts.flatMap fun u => sep :: termTokens u

def groupTokens (opening : List Token) (sep : Token) (lead : Bool) (ts : List (Text × Text)) :
    List Token :=
  if ts = [] then [] else opening ++ joinTokens sep lead ts ++ [.punct ')']

/-- The tokens of a clause with these contents: digits in place of `collection_id`, and the
contents of the literals in place of the names, patterns and colors. -/
def Clause.tokens (c : Clause) : List Token :=
  (c.collection.elim [] fun ds => [.word "collection_id", .op "=", numberToken .integer ds])
    ++ groupTokens [.word "and", .punct '('] (.word "and") c.lead c.includes
    ++ groupTokens [.word "and", .word "not", .punct '('] (.word "or") false c.excludes
    ++ (c.color.elim [] fun color =>
        [.word "and", .word "top_colors", .op "::", .word "text", .word "like",
          strToken .standard ('%' :: color ++ ['%'])])

/-! ### Reading the clause -/

/-- The name and the pattern of a condition stand for these contents. -/
def StandsFor (t u : Text × Text) : Prop := Enclosed t.1 u.1 ∧ Enclosed t.2 u.2

/-- The texts of a clause stand for these contents. -/
structure Clause.StandsFor (c d : Clause) : Prop where
  collection : Option.Rel IntLiteral c.collection d.collection
  lead : c.lead = d.lead
  includes : List.Forall₂ WorksIndex.StandsFor c.includes d.includes
  excludes : List.Forall₂ WorksIndex.StandsFor c.excludes d.excludes
  color : Option.Rel Enclosed c.color d.color

/-- Between tokens, at the end of an integer or at the end of a string literal. -/
def Ended (s : Mode) : Prop := Settled s ∨ ∃ acc, s = .quote .standard acc

theorem reads_term {t u : Text × Text} (h : StandsFor t u) :
    Reads step flush .idle (termText t.1 t.2) (.quote .standard u.2) (termTokens u) := by
  have hopen : feed step .idle "lower(parsed->'".toList
      = (.str .standard [], [.word "lower", .punct '(', .word "parsed", .op "->"]) := by decide
  -- the name closes its literal, and the value stays in its own up to the last quote
  have hname := feed_enclosed h.1 []
  have hmid : ∀ n, feed step (.str .standard n) "') like '".toList
      = (.str .standard [], [strToken .standard n, .punct ')', .word "like"]) := fun _ => rfl
  have hvalue := feed_enclosed h.2 []
  have hclose : ∀ v, feed step (.str .standard v) "'".toList = (.quote .standard v, []) :=
    fun _ => rfl
  have hall := feed_append_of_eq _ (feed_append_of_eq _ (feed_append_of_eq _
    (feed_append_of_eq _ hopen hname) (hmid _)) hvalue) (hclose _)
  unfold termText Reads
  rw [hall]
  exact ⟨rfl, rfl⟩

/-- A separator is read as a token after a literal, and between tokens. -/
structure Separates (sep : Text) (tok : Token) : Prop where
  idle : Reads step flush .idle sep .idle [tok]
  quote : ∀ acc, Reads step flush (.quote .standard acc) sep .idle [tok]

theorem separates_and : Separates " AND ".toList (.word "and") :=
  ⟨⟨rfl, rfl⟩, fun _ => ⟨rfl, rfl⟩⟩

theorem separates_or : Separates " OR ".toList (.word "or") :=
  ⟨⟨rfl, rfl⟩, fun _ => ⟨rfl, rfl⟩⟩

theorem reads_terms {sep : Text} {tok : Token} (hsep : Separates sep tok) {ts us : List (Text × Text)}
    (h : List.Forall₂ StandsFor ts us) (acc : Text) :
    ∃ acc', Reads step flush (.quote .standard acc)
      (ts.flatMap fun t => sep ++ termText t.1 t.2) (.quote .standard acc')
      (us.flatMap fun u => tok :: termTokens u) := by
  induction h generalizing acc with
  | nil => exact ⟨acc, Reads.refl _⟩
  | @cons t u ts us htu _ ih =>
    obtain ⟨acc', hrest⟩ := ih u.2
    exact ⟨acc', ((hsep.quote acc).append (reads_term htu)).append hrest⟩

theorem reads_join {sep : Text} {tok : Token} (hsep : Separates sep tok) (lead : Bool)
    {ts us : List (Text × Text)} (h : List.Forall₂ StandsFor ts us) (hts : ts ≠ []) :
    ∃ acc, Reads step flush .idle (joinTerms sep lead ts) (.quote .standard acc)
      (joinTokens tok lead us) := by
  cases h with
  | nil => exact absurd rfl hts
  | @cons t u ts us htu hrest =>
    obtain ⟨acc, hterms⟩ := reads_terms hsep hrest u.2
    refine ⟨acc, ?_⟩
    -- the connective before the first term, if there is one
    have hlead : Reads step flush .idle (if lead then sep else []) .idle
        (if lead then [tok] else []) := by
      cases lead with
      | true => exact hsep.idle
      | false => exact Reads.refl _
    exact (hlead.append (reads_term htu)).append hterms

/-- The text before a list of conditions is read as these tokens. -/
def Opens (opening : Text) (toks : List Token) : Prop :=
  ∀ s, Settled s → Reads step flush s opening .idle toks

theorem opens_and : Opens " AND ( ".toList [.word "and", .punct '('] := by
  rintro s (rfl | ⟨ds, rfl⟩)
  · exact ⟨rfl, rfl⟩
  · exact ⟨rfl, rfl⟩

theorem opens_and_not : Opens " AND NOT ( ".toList [.word "and", .word "not", .punct '('] := by
  rintro s (rfl | ⟨ds, rfl⟩)
  · exact ⟨rfl, rfl⟩
  · exact ⟨rfl, rfl⟩

theorem reads_group {opening sep : Text} {toks : List Token} {tok : Token}
    (hopen : Opens opening toks) (hsep : Separates sep tok) (lead : Bool)
    {ts us : List (Text × Text)} (h : List.Forall₂ StandsFor ts us) {s : Mode} (hs : Settled s) :
    ∃ s', Settled s' ∧ Reads step flush s (groupText opening sep lead ts) s'
      (groupTokens toks tok lead us) := by
  by_cases hts : ts = []
  · subst hts
    cases h
    exact ⟨s, hs, Reads.refl _⟩
  · have hus : us ≠ [] := by
      rintro rfl
      cases h
      exact hts rfl
    obtain ⟨acc, hjoin⟩ := reads_join hsep lead h hts
    have hclose : Reads step flush (.quote .standard acc) " )".toList .idle [.punct ')'] :=
      ⟨rfl, rfl⟩
    rw [groupText, if_neg hts, groupTokens, if_neg hus]
    exact ⟨.idle, .inl rfl, ((hopen s hs).append hjoin).append hclose⟩

theorem reads_color {s : Mode} (hs : Settled s) {t u : Text} (h : Enclosed t u) :
    Reads step flush s (" AND top_colors::text like '%".toList ++ t ++ "%'".toList)
      (.quote .standard ('%' :: u ++ ['%']))
      [.word "and", .word "top_colors", .op "::", .word "text", .word "like",
        strToken .standard ('%' :: u ++ ['%'])] := by
  have hmid := feed_enclosed h ['%']
  have hclose : ∀ v, feed step (.str .standard v) "%'".toList
      = (.quote .standard (v ++ ['%']), []) := fun _ => rfl
  obtain rfl | ⟨ds, rfl⟩ := hs
  -- the space before the connective ends a number that was held
  · have hopen : feed step .idle " AND top_colors::text like '%".toList
        = (.str .standard ['%'], [.word "and", .word "top_colors", .op "::", .word "text",
            .word "like"]) := by decide
    have hall := feed_append_of_eq _ (feed_append_of_eq _ hopen hmid) (hclose _)
    unfold Reads
    rw [hall]
    exact ⟨rfl, rfl⟩
  · have hopen : feed step (.number .integer ds) " AND top_colors::text like '%".toList
        = (.str .standard ['%'], [numberToken .integer ds, .word "and", .word "top_colors", .op "::",
            .word "text", .word "like"]) := rfl
    have hall := feed_append_of_eq _ (feed_append_of_eq _ hopen hmid) (hclose _)
    unfold Reads
    rw [hall]
    exact ⟨rfl, rfl⟩

theorem reads_collection {cid ds : Option Text} (h : Option.Rel IntLiteral cid ds) :
    ∃ s, Settled s ∧ Reads step flush .idle
      (cid.elim [] fun cid => " collection_id = ".toList ++ cid) s
      (ds.elim [] fun ds => [.word "collection_id", .op "=", numberToken .integer ds]) := by
  cases h with
  | none => exact ⟨.idle, .inl rfl, Reads.refl _⟩
  | some hcid =>
    obtain ⟨s, hs, hread⟩ := hcid.reads
    have hopen : Reads step flush .idle " collection_id = ".toList .idle
        [.word "collection_id", .op "="] := ⟨by decide, by decide⟩
    exact ⟨s, hs, hopen.append hread⟩

/-- **The tokens of the clause.** -/
theorem reads_clause {c d : Clause} (h : c.StandsFor d) :
    ∃ s, Ended s ∧ Reads step flush .idle c.text s d.tokens := by
  obtain ⟨cid, lead, includes, excludes, color⟩ := c
  obtain ⟨ds, lead, includes', excludes', color'⟩ := d
  obtain ⟨hcid, rfl, hincludes, hexcludes, hcolor⟩ := h
  obtain ⟨s₁, hs₁, h₁⟩ := reads_collection hcid
  obtain ⟨s₂, hs₂, h₂⟩ := reads_group opens_and separates_and lead hincludes hs₁
  obtain ⟨s₃, hs₃, h₃⟩ := reads_group opens_and_not separates_or false hexcludes hs₂
  have hall := (h₁.append h₂).append h₃
  cases hcolor with
  | none => exact ⟨s₃, .inl hs₃, hall.append (Reads.refl _)⟩
  | some hcolor => exact ⟨_, .inr ⟨_, rfl⟩, hall.append (reads_color hs₃ hcolor)⟩

theorem lex_clause {c d : Clause} (h : c.StandsFor d) : lex c.text = d.tokens := by
  obtain ⟨s, -, hclause⟩ := reads_clause h
  exact hclause.output_eq rfl

/-! ### Texts in their places -/

theorem inPlace_term {t : Text × Text} {ps : List Part} :
    InPlace .idle (termParts t ++ ps) ↔
      ∃ u, StandsFor t u ∧ InPlace (.quote .standard u.2) ps := by
  -- the fixed texts lead into a literal, to the next one and out of it
  show InPlace (.str .standard []) (.literal t.1 :: .fixed "') like '".toList :: .literal t.2
    :: .fixed "'".toList :: ps) ↔ _
  rw [inPlace_literal]
  constructor
  · rintro ⟨n, hn, h⟩
    replace h : InPlace (.str .standard []) (.literal t.2 :: .fixed "'".toList :: ps) := h
    obtain ⟨v, hv, h⟩ := inPlace_literal.mp h
    exact ⟨(n, v), ⟨hn, hv⟩, h⟩
  · rintro ⟨⟨n, v⟩, ⟨hn, hv⟩, h⟩
    refine ⟨n, hn, ?_⟩
    show InPlace (.str .standard []) (.literal t.2 :: .fixed "'".toList :: ps)
    exact inPlace_literal.mpr ⟨v, hv, h⟩

theorem inPlace_terms {sep : Text} {tok : Token} (hsep : Separates sep tok) {ps : List Part}
    {p : Prop} (hps : ∀ acc, InPlace (.quote .standard acc) ps ↔ p) (ts : List (Text × Text))
    (acc : Text) :
    InPlace (.quote .standard acc) ((ts.flatMap fun u => .fixed sep :: termParts u) ++ ps) ↔
      (∀ t ∈ ts, ∃ u, StandsFor t u) ∧ p := by
  induction ts generalizing acc with
  | nil => simpa using hps acc
  | cons t ts ih =>
    rw [List.flatMap_cons, List.append_assoc, List.cons_append, InPlace, (hsep.quote acc).1,
      inPlace_term, List.forall_mem_cons]
    -- a term in its place leaves the next one in its place
    constructor
    · rintro ⟨u, hu, h⟩
      obtain ⟨hts, hp⟩ := (ih u.2).mp h
      exact ⟨⟨⟨u, hu⟩, hts⟩, hp⟩
    · rintro ⟨⟨⟨u, hu⟩, hts⟩, hp⟩
      exact ⟨u, hu, (ih u.2).mpr ⟨hts, hp⟩⟩

theorem inPlace_group {opening sep : Text} {toks : List Token} {tok : Token}
    (hopen : Opens opening toks) (hsep : Separates sep tok) (lead : Bool)
    (ts : List (Text × Text)) {s : Mode} (hs : Settled s) :
    InPlace s (groupParts opening sep lead ts) ↔ ∀ t ∈ ts, ∃ u, StandsFor t u := by
  cases ts with
  | nil => simp [groupParts, InPlace]
  | cons t ts =>
    have hclose : ∀ acc, InPlace (.quote .standard acc) [.fixed " )".toList] ↔ True :=
      fun _ => Iff.rfl
    -- a connective before the first term is read like any other
    have hlead : InPlace .idle (joinParts sep lead (t :: ts) ++ [.fixed " )".toList])
        ↔ InPlace .idle (termParts t
          ++ ((ts.flatMap fun u => .fixed sep :: termParts u) ++ [.fixed " )".toList])) := by
      rw [joinParts, List.append_assoc, List.append_assoc]
      cases lead with
      | true => rw [if_pos rfl, List.singleton_append, InPlace, hsep.idle.1]
      | false => rfl
    rw [groupParts, if_neg (List.cons_ne_nil _ _), List.cons_append, InPlace, (hopen s hs).1, hlead,
      inPlace_term, List.forall_mem_cons]
    constructor
    · rintro ⟨u, hu, h⟩
      obtain ⟨hts, -⟩ := (inPlace_terms hsep hclose ts u.2).mp h
      exact ⟨⟨u, hu⟩, hts⟩
    · rintro ⟨⟨u, hu⟩, hts⟩
      exact ⟨u, hu, (inPlace_terms hsep hclose ts u.2).mpr ⟨hts, trivial⟩⟩

theorem inPlace_collection {cid : Option Text} :
    InPlace .idle (collectionParts cid) ↔ ∃ ds, Option.Rel IntLiteral cid ds := by
  cases cid with
  | none => exact ⟨fun _ => ⟨none, .none⟩, fun _ => trivial⟩
  | some cid =>
    show InPlace .idle [.integer cid] ↔ _
    constructor
    · rintro ⟨⟨-, ds, hds⟩, -⟩
      exact ⟨some ds, .some hds⟩
    · rintro ⟨_, hds⟩
      cases hds with
      | some hds => exact ⟨⟨rfl, _, hds⟩, trivial⟩

theorem inPlace_color {s : Mode} (hs : Settled s) {color : Option Text} :
    InPlace s (colorParts color) ↔ ∃ color', Option.Rel Enclosed color color' := by
  cases color with
  | none => exact ⟨fun _ => ⟨none, .none⟩, fun _ => trivial⟩
  | some color =>
    -- whatever the clause ends in, the color is in a literal of its own
    have hopen : InPlace s (colorParts (some color)) ↔
        InPlace (.str .standard ['%']) [.literal color, .fixed "%'".toList] := by
      obtain rfl | ⟨ds, rfl⟩ := hs
      · rfl
      · rfl
    rw [hopen, inPlace_literal]
    constructor
    · rintro ⟨color', h, -⟩
      exact ⟨some color', .some h⟩
    · rintro ⟨_, h⟩
      cases h with
      | some h => exact ⟨_, h, trivial⟩

/-- **The texts of a clause stay in their places** exactly if each of them stands for contents of
its own. -/
theorem inPlace_parts_iff (c : Clause) : InPlace .idle c.parts ↔ ∃ d, c.StandsFor d := by
  simp only [Clause.parts, inPlace_append, List.flatMap_append, text_collectionParts,
    text_groupParts]
  constructor
  · rintro ⟨⟨⟨hcollection, hincludes⟩, hexcludes⟩, hcolor⟩
    -- part by part: what a part stands for says where the lexer is at the next one
    obtain ⟨ds, hds⟩ := inPlace_collection.mp hcollection
    obtain ⟨s₁, hs₁, h₁⟩ := reads_collection hds
    rw [h₁.1, inPlace_group opens_and separates_and _ _ hs₁, ← Lists.exists_forall₂_iff]
      at hincludes
    obtain ⟨is, his⟩ := hincludes
    obtain ⟨s₂, hs₂, h₂⟩ := reads_group opens_and separates_and c.lead his hs₁
    rw [(h₁.append h₂).1, inPlace_group opens_and_not separates_or _ _ hs₂,
      ← Lists.exists_forall₂_iff] at hexcludes
    obtain ⟨es, hes⟩ := hexcludes
    obtain ⟨s₃, hs₃, h₃⟩ := reads_group opens_and_not separates_or false hes hs₂
    rw [((h₁.append h₂).append h₃).1, inPlace_color hs₃] at hcolor
    obtain ⟨color, hcolor⟩ := hcolor
    exact ⟨⟨ds, c.lead, is, es, color⟩, hds, rfl, his, hes, hcolor⟩
  · rintro ⟨⟨ds, lead, is, es, color⟩, hds, -, his, hes, hcolor⟩
    obtain ⟨s₁, hs₁, h₁⟩ := reads_collection hds
    obtain ⟨s₂, hs₂, h₂⟩ := reads_group opens_and separates_and c.lead his hs₁
    obtain ⟨s₃, hs₃, h₃⟩ := reads_group opens_and_not separates_or false hes hs₂
    refine ⟨⟨⟨inPlace_collection.mpr ⟨ds, hds⟩, ?_⟩, ?_⟩, ?_⟩
    · rw [h₁.1, inPlace_group opens_and separates_and _ _ hs₁, ← Lists.exists_forall₂_iff]
      exact ⟨is, his⟩
    · rw [(h₁.append h₂).1, inPlace_group opens_and_not separates_or _ _ hs₂,
        ← Lists.exists_forall₂_iff]
      exact ⟨es, hes⟩
    · rw [((h₁.append h₂).append h₃).1, inPlace_color hs₃]
      exact ⟨color, hcolor⟩

end WorksIndex
end Curarium
