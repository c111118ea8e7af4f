import Curarium.Library.Delimited
import Curarium.Works.Blocks

/-!
# The group of other values

A treemap with many rare values shows them as one block `Other`. A click on this block adds the
term `Other` of the property to the includes, and the request with this term is to show the values
that were folded.

* The loop over the includes leaves a term out if its second piece between colons is `Other`, and
  it sets the flag for the other branch; nothing of the clause changes (`whereClause_append_other`).
* `drillsDown_iff` — the two requests are complementary exactly if there is no block `Other` or the
  term of its click is recognized. It is not if the name of the property has a colon, as `dc:title`
  has: the pieces of `dc:title:Other` are three, and the works are searched for `title` in `dc`.
-/

namespace Curarium
namespace Treemap

open WorksIndex Sql

/-! ### What a group is for -/

/-- The term of the block `Other`. -/
def otherTerm (q : Query) : Text := q.property.getD [] ++ ":Other".toList

/-- The request with that term. -/
def drill (q : Query) : Query := { q with includes := q.includes ++ [otherTerm q] }

/-- The values of the works that a request selects. -/
def requestValues (lower : Text → Text) (ids : List Int) (q : Query) (works : List Row) :
    Option (List Text) :=
  (whereClause ids q).bind fun where_clause =>
    foundValues lower (q.property.getD []) where_clause works

/-- Is there a block `Other`? -/
def OtherShown (shown : List Block) : Prop := ∃ w ∈ shown, w.parsed = "Other".toList

/-- The values without a block of their own. -/
def folded (vs : List Text) (shown : List Block) : List Block :=
  (groupValues vs).filter fun b => decide (b ∉ shown)

/-- How many values have a count of two or less. -/
def rareValues (vs : List Text) : Nat := (groupValues vs).countP fun b => decide (b.id ≤ 2)

/-- The blocks of a request and the response to the request that drills down, for the values that
the works have. -/
structure DrillsDown (vs : List Text) (shown : List Block) (drilled : Option Response) : Prop where
  /-- The label is no value. -/
  label : "Other".toList ∉ vs
  /-- Each value has its own block or is counted in the one for the group. -/
  partition : shown.Perm (((groupValues vs).filter fun b => decide (b ∈ shown)) ++
    if folded vs shown = [] then [] else [⟨"Other".toList, (folded vs shown).length⟩])
  threshold : OtherShown shown ↔ 10 ≤ rareValues vs
  /-- Behind the block are the values that it counts. -/
  drilled : OtherShown shown →
    ∃ works, drilled = some (.treemap works) ∧ works.Perm (folded vs shown)

/-! ### The clause of the second request -/

theorem terms_append_other {p : Text} (hp : isOther p = true) (ps : List Text) :
    terms isOther (ps ++ [p]) = terms isOther ps := by
  induction ps with
  | nil => rw [List.nil_append, terms, terms, if_pos hp, terms]
  | cons t ts ih => rw [List.cons_append, terms, terms, ih]

/-- A term that is left out does not change the clause. -/
theorem includeClause_append_other {p : Text} (hp : isOther p = true) (ps : List Text) :
    includeClause (ps ++ [p]) = includeClause ps := by
  rw [includeClause_eq, includeClause_eq, terms_append_other hp]
  by_cases hall : ∀ t ∈ ps, isOther t = true
  · -- there is no condition, with or without it
    have hnil : terms isOther ps = some [] := by
      induction ps with
      | nil => rfl
      | cons t ts ih =>
        rw [List.forall_mem_cons] at hall
        rw [terms, if_pos hall.1, ih hall.2]
    rw [hnil]
    rfl
  · -- the first term to look for is one of those before it
    push Not at hall
    obtain ⟨t, ht, hother⟩ := hall
    have hlt : ps.findIdx (fun p => !isOther p) < ps.length :=
      List.findIdx_lt_length_of_exists ⟨t, ht, by simpa using hother⟩
    have hleads : leads (ps ++ [p]) = leads ps := by
      rw [leads, leads, List.findIdx_append, if_pos hlt]
    rw [hleads]

/-- **The same works**: the term is not one of the clause. -/
theorem whereClause_append_other (ids : List Int) (q : Query) {p : Text} (hp : isOther p = true) :
    whereClause ids { q with includes := q.includes ++ [p] } = whereClause ids q := by
  rw [whereClause, whereClause, includeClause_append_other hp]

theorem hasOther_eq (includes : List Text) :
    hasOther includes = ((terms isOther includes).isSome && includes.any isOther) := by
  have hloop := eachWithIndex_includeStep includes 0
  rw [decide_eq_false (Nat.lt_irrefl 0)] at hloop
  rw [hasOther, hloop]
  cases terms isOther includes with
  | none => rfl
  | some ts => simp only [Option.map_some, Option.any_some, Bool.false_or, Option.isSome_some, Bool.true_and]

theorem hasOther_eq_false {includes : List Text} (h : ∀ t ∈ includes, isOther t = false) :
    hasOther includes = false := by
  have hany : includes.any isOther = false := List.any_eq_false.mpr fun t ht => by
    rw [h t ht]
    exact Bool.false_ne_true
  rw [hasOther_eq, hany, Bool.and_false]

/-- The term is recognized if the name of the property has no colon, or `Other` behind its first. -/
theorem isOther_otherTerm_iff (q : Query) : isOther (otherTerm q) = true ↔
    ':' ∉ q.property.getD [] ∨ ((q.property.getD []).splitOn ':')[1]? = some "Other".toList := by
  generalize hp : q.property.getD [] = p
  have hcolon : ':' ∉ "Other".toList := by decide
  have hsplit : Ruby.split ':' (otherTerm q) = p.splitOn ':' ++ ["Other".toList] := by
    have hall : (p ++ ':' :: "Other".toList).splitOn ':' = p.splitOn ':' ++ ["Other".toList] := by
      rw [List.splitOn_append_cons_self, List.splitOn_eq_singleton hcolon]
    rw [otherTerm, hp, Ruby.split]
    show ((p ++ ':' :: "Other".toList).splitOn ':').rdropWhile List.isEmpty = _
    rw [hall, List.rdropWhile_concat, if_neg (by decide)]
  rw [isOther_iff, hsplit]
  by_cases hmem : ':' ∈ p
  · obtain ⟨a, b, rfl, ha⟩ := List.eq_append_cons_of_mem hmem
    obtain ⟨v, vs, hb⟩ := Delimited.exists_splitOn_cons (x := ':') b
    -- what is appended is not the second piece
    rw [List.splitOn_append_cons_self, List.splitOn_eq_singleton ha, hb, or_iff_right (not_not.mpr hmem)]
    rfl
  · rw [List.splitOn_eq_singleton hmem]
    exact iff_of_true rfl (.inl hmem)

/-! ### The two branches -/

/-- A value is not called `Other`, and a block of the group is. -/
theorem not_otherShown {vs : List Text} (hlabel : "Other".toList ∉ vs) {shown : List Block}
    (hshown : ∀ b ∈ shown, b ∈ groupValues vs) : ¬ OtherShown shown := by
  rintro ⟨b, hb, hparsed⟩
  exact hlabel (hparsed ▸ (mem_groupValues.mp (hshown b hb)).1)

theorem blocks_true (all : List Block) : blocks true all = all.filter Block.isOther := rfl

theorem blocks_few {all : List Block} (h : (all.filter Block.isOther).length < 10) :
    (blocks false all).Perm all := by
  have hblocks : blocks false all
      = (all.filter fun w => !w.isOther) ++ all.filter Block.isOther :=
    congrArg (fun group => (all.filter fun w => !w.isOther) ++ group) (if_pos h)
  rw [hblocks]
  exact List.perm_append_comm.trans (List.filter_append_perm Block.isOther all)

theorem blocks_many {all : List Block} (h : ¬ (all.filter Block.isOther).length < 10) :
    blocks false all = (all.filter fun w => !w.isOther) ++
      [⟨"Other".toList, (all.filter Block.isOther).length⟩] :=
  congrArg (fun group => (all.filter fun w => !w.isOther) ++ group) (if_neg h)

/-- The other values of one execution are those of any other. -/
theorem rareValues_eq {vs : List Text} {all : List Block} (hall : all.Perm (groupValues vs)) :
    (all.filter Block.isOther).length = rareValues vs := by
  rw [(hall.filter _).length_eq, rareValues, List.countP_eq_length_filter]
  rfl

/-- **Few rare values**: all have their own block. -/
theorem drillsDown_few {vs : List Text} (hlabel : "Other".toList ∉ vs) {all : List Block}
    (hall : all.Perm (groupValues vs)) (hfew : rareValues vs < 10) (drilled : Option Response) :
    DrillsDown vs (blocks false all) drilled := by
  have hshown : (blocks false all).Perm (groupValues vs) :=
    (blocks_few (by rwa [rareValues_eq hall])).trans hall
  have hnot := not_otherShown hlabel fun b hb => hshown.mem_iff.mp hb
  -- every value is shown, so none is folded
  have hfolded : folded vs (blocks false all) = [] :=
    List.filter_eq_nil_iff.mpr fun b hb => by
      rw [decide_eq_true_iff, not_not]
      exact hshown.mem_iff.mpr hb
  have hown : ((groupValues vs).filter fun b => decide (b ∈ blocks false all)) = groupValues vs :=
    List.filter_eq_self.mpr fun b hb => decide_eq_true (hshown.mem_iff.mpr hb)
  exact {
    label := hlabel
    partition := by rwa [hown, if_pos hfolded, List.append_nil]
    threshold := iff_of_false hnot (Nat.not_le.mpr hfew)
    drilled := fun h => absurd h hnot }

/-- **Many rare values** are folded into one block. -/
theorem folded_many {vs : List Text} (hlabel : "Other".toList ∉ vs) {all : List Block}
    (hall : all.Perm (groupValues vs)) (hmany : ¬ rareValues vs < 10) :
    folded vs (blocks false all) = (groupValues vs).filter Block.isOther ∧
      ((groupValues vs).filter fun b => decide (b ∈ blocks false all))
        = (groupValues vs).filter fun b => !b.isOther := by
  have hmem : ∀ b ∈ groupValues vs, b ∈ blocks false all ↔ b.isOther = false := by
    intro b hb
    rw [blocks_many (by rwa [rareValues_eq hall]), List.mem_append, List.mem_filter,
      List.mem_singleton, Bool.not_eq_true', and_iff_right (hall.mem_iff.mpr hb)]
    refine or_iff_left ?_
    -- the block of the group is no value
    rintro rfl
    exact hlabel (mem_groupValues.mp hb).1
  constructor
  · refine List.filter_congr fun b hb => ?_
    rw [Bool.eq_iff_iff, decide_eq_true_iff, hmem b hb, Bool.not_eq_false]
  · refine List.filter_congr fun b hb => ?_
    rw [Bool.eq_iff_iff, decide_eq_true_iff, hmem b hb, Bool.not_eq_true']

theorem drillsDown_many_iff {vs : List Text} (hlabel : "Other".toList ∉ vs) {all : List Block}
    (hall : all.Perm (groupValues vs)) (hmany : ¬ rareValues vs < 10) (drilled : Option Response) :
    DrillsDown vs (blocks false all) drilled ↔
      ∃ works, drilled = some (.treemap works) ∧
        works.Perm ((groupValues vs).filter Block.isOther) := by
  obtain ⟨hfolded, hown⟩ := folded_many hlabel hall hmany
  have hblocks : blocks false all = _ := blocks_many (by rwa [rareValues_eq hall])
  -- there is a block for the group, and what it folds is not empty
  have hother : OtherShown (blocks false all) :=
    ⟨_, by rw [hblocks]; exact List.mem_append_right _ List.mem_cons_self, rfl⟩
  have hlength : ((groupValues vs).filter Block.isOther).length = rareValues vs :=
    rareValues_eq (List.Perm.refl _)
  have hne : (groupValues vs).filter Block.isOther ≠ [] := by
    intro hnil
    rw [hnil, List.length_nil] at hlength
    omega
  constructor
  · intro h
    rw [← hfolded]
    exact h.drilled hother
  · intro h
    exact {
      label := hlabel
      partition := by
        rw [hown, hfolded, if_neg hne, hlength, hblocks, rareValues_eq hall]
        exact (hall.filter _).append_right _
      threshold := iff_of_true hother (Nat.not_lt.mp hmany)
      drilled := fun _ => by rwa [hfolded] }

/-- The first branch never shows ten rare values and nothing else. -/
theorem not_perm_rare {vs : List Text} (hlabel : "Other".toList ∉ vs) {all : List Block}
    (hmany : ¬ rareValues vs < 10) :
    ¬ (blocks false all).Perm ((groupValues vs).filter Block.isOther) := by
  intro hperm
  have hlength : ((groupValues vs).filter Block.isOther).length = rareValues vs :=
    rareValues_eq (List.Perm.refl _)
  by_cases hfew : (all.filter Block.isOther).length < 10
  · -- all of its blocks would be rare, and of these there are too few
    have hall := (blocks_few hfew).symm.trans hperm
    have hself : all.filter Block.isOther = all :=
      List.filter_eq_self.mpr fun b hb => (List.mem_filter.mp (hall.mem_iff.mp hb)).2
    rw [hself, hall.length_eq, hlength] at hfew
    exact hmany hfew
  · -- or there would be a value with the label
    have hmem : (⟨"Other".toList, (all.filter Block.isOther).length⟩ : Block) ∈ blocks false all := by
      rw [blocks_many hfew]
      exact List.mem_append_right _ List.mem_cons_self
    exact hlabel (mem_groupValues.mp (List.mem_filter.mp (hperm.mem_iff.mp hmem)).1).1

/-! ### The result -/

theorem treemapIndex_eq_treemap {lower : Text → Text} {order : List Block → List Block} {ids : List Int}
    {q : Query} {works : List Row} {shown : List Block}
    (h : treemapIndex lower order ids q works = some (.treemap shown)) :
    ∃ vs, requestValues lower ids q works = some vs ∧
      shown = blocks (hasOther q.includes) (order (groupValues vs)) := by
  obtain ⟨where_clause, hclause, h⟩ := Option.bind_eq_some_iff.mp h
  obtain ⟨found, -, h⟩ := Option.bind_eq_some_iff.mp h
  split at h
  · cases h
  · obtain ⟨vs, hvs, h⟩ := Option.map_eq_some_iff.mp h
    refine ⟨vs, ?_, ?_⟩
    · rw [requestValues, hclause, Option.bind_some, hvs]
    · cases h
      rfl

/-- The second request, when its term is recognized: the same works, and the other branch. -/
theorem treemapIndex_drill {lower : Text → Text} {order order' : List Block → List Block} {ids : List Int}
    {q : Query} {works : List Row} (hterm : isOther (otherTerm q) = true) {shown : List Block}
    (hindex : treemapIndex lower order ids q works = some (.treemap shown)) {vs : List Text}
    (hvs : requestValues lower ids q works = some vs) :
    treemapIndex lower order' ids (drill q) works
      = some (.treemap ((order' (groupValues vs)).filter Block.isOther)) := by
  obtain ⟨where_clause, hclause, hindex⟩ := Option.bind_eq_some_iff.mp hindex
  obtain ⟨found, hfound, hindex⟩ := Option.bind_eq_some_iff.mp hindex
  rw [requestValues, hclause, Option.bind_some] at hvs
  -- the term is recognized, and adds no condition to the clause
  have hflag : hasOther (drill q).includes = true := by
    have hterms : (terms isOther q.includes).isSome = true := by
      obtain ⟨c, hc, -⟩ := Option.map_eq_some_iff.mp ((whereClause_eq ids q).symm.trans hclause)
      obtain ⟨-, -, ⟨ts, hts, -⟩, -⟩ := clause_eq_some hc
      rw [hts, Option.isSome_some]
    rw [hasOther_eq, drill, terms_append_other hterm, hterms, Bool.true_and, List.any_append,
      List.any_cons, hterm, Bool.true_or, Bool.or_true]
  have hsame : whereClause ids (drill q) = some where_clause := by
    rw [drill, whereClause_append_other ids q hterm, hclause]
  rw [treemapIndex, hsame, Option.bind_some, hfound, Option.bind_some]
  split at hindex
  · cases hindex
  · rw [hflag, drill, hvs, Option.map_some, blocks_true]

/-- **The block `Other` drills down to what it folds**, in every request that shows blocks, exactly
if there are few rare values or the term for them is recognized. -/
theorem drillsDown_iff {lower : Text → Text} (hlower : ∀ t, 'O' ∉ lower t)
    {order order' : List Block → List Block} (horder : ∀ all, (order all).Perm all)
    (horder' : ∀ all, (order' all).Perm all) {ids : List Int} {q : Query} {works : List Row}
    (hincludes : ∀ t ∈ q.includes, isOther t = false) {shown : List Block}
    (hindex : treemapIndex lower order ids q works = some (.treemap shown)) :
    ∃ vs, requestValues lower ids q works = some vs ∧
      (DrillsDown vs shown (treemapIndex lower order' ids (drill q) works) ↔
        rareValues vs < 10 ∨ ':' ∉ q.property.getD [] ∨
          ((q.property.getD []).splitOn ':')[1]? = some "Other".toList) := by
  obtain ⟨vs, hvs, hshown⟩ := treemapIndex_eq_treemap hindex
  refine ⟨vs, hvs, ?_⟩
  have hlabel : "Other".toList ∉ vs := by
    obtain ⟨where_clause, -, hfound⟩ := Option.bind_eq_some_iff.mp hvs
    exact other_notMem_foundValues hlower hfound
  rw [hasOther_eq_false hincludes] at hshown
  rw [hshown, ← isOther_otherTerm_iff]
  by_cases hfew : rareValues vs < 10
  · exact iff_of_true (drillsDown_few hlabel (horder _) hfew _) (.inl hfew)
  rw [drillsDown_many_iff hlabel (horder _) hfew, or_iff_right hfew]
  constructor
  · rintro ⟨blocks', hdrill, hperm⟩
    by_contra hterm
    -- then the second request is answered by the same branch as the first
    obtain ⟨vs', -, rfl⟩ := treemapIndex_eq_treemap hdrill
    have hincludes' : ∀ t ∈ (drill q).includes, isOther t = false := by
      intro t ht
      rcases List.mem_append.mp ht with ht | ht
      · exact hincludes t ht
      · rw [List.mem_singleton.mp ht]
        exact Bool.eq_false_iff.mpr hterm
    rw [hasOther_eq_false hincludes'] at hperm
    exact not_perm_rare hlabel hfew hperm
  · intro hterm
    refine ⟨(order' (groupValues vs)).filter Block.isOther, ?_, (horder' _).filter _⟩
    exact treemapIndex_drill hterm hindex hvs

/-- A treemap of a property in the first collection. -/
def topicsQuery (property : String) : Query where
  collectionId := some "1".toList
  includes := []
  excludes := []
  colorfilter := none
  property := some property.toList

/-- Two works with eleven values between them. -/
def elevenTopics (property : String) : List Row :=
  [⟨some 1, [(property, some ("[\"a\", \"b\", \"c\", \"d\", \"e\", \"f\", \"g\", \"h\", \"i\", \"j\"]"))], none⟩,
    ⟨some 1, [(property, some "[\"k\"]")], none⟩]

/-- Eleven topics are folded, and shown. -/
theorem drillsDown_eleven : ∃ vs,
    requestValues Ruby.downcase [1] (topicsQuery "topics") (elevenTopics "topics") = some vs ∧
      DrillsDown vs [⟨"Other".toList, 11⟩] (treemapIndex Ruby.downcase List.reverse [1]
        (drill (topicsQuery "topics")) (elevenTopics "topics")) := by
  have hindex : treemapIndex Ruby.downcase id [1] (topicsQuery "topics") (elevenTopics "topics")
      = some (.treemap [⟨"Other".toList, 11⟩]) := by decide +kernel
  have hincludes : ∀ t ∈ (topicsQuery "topics").includes, isOther t = false := List.forall_mem_nil _
  obtain ⟨vs, hvs, hiff⟩ := drillsDown_iff (Ruby.notMem_downcase (by decide)) (fun all => List.Perm.refl all)
    List.reverse_perm hincludes hindex
  exact ⟨vs, hvs, hiff.mpr (.inr (.inl (by decide)))⟩

/-- **The group of a property with a colon in its name** shows nothing. -/
theorem not_drillsDown_colon :
    treemapIndex Ruby.downcase id [1] (topicsQuery "dc:title") (elevenTopics "dc:title")
        = some (.treemap [⟨"Other".toList, 11⟩]) ∧
      (∀ t ∈ (topicsQuery "dc:title").includes, isOther t = false) ∧
      ∀ vs, requestValues Ruby.downcase [1] (topicsQuery "dc:title") (elevenTopics "dc:title") = some vs →
        ¬ DrillsDown vs [⟨"Other".toList, 11⟩] (treemapIndex Ruby.downcase id [1]
          (drill (topicsQuery "dc:title")) (elevenTopics "dc:title")) := by
  refine ⟨by decide +kernel, List.forall_mem_nil _, fun vs _ h => ?_⟩
  have hother : OtherShown [⟨"Other".toList, 11⟩] := ⟨_, List.mem_cons_self, rfl⟩
  obtain ⟨works, hworks, hperm⟩ := h.drilled hother
  have hnone : treemapIndex Ruby.downcase id [1] (drill (topicsQuery "dc:title"))
      (elevenTopics "dc:title") = some (.treemap []) := by decide +kernel
  obtain rfl : [] = works := by
    rw [hnone] at hworks
    exact Response.treemap.inj (Option.some.inj hworks)
  -- ten values at least should have been folded, and so be shown
  have hfolded := List.nil_perm.mp hperm
  have hpartition := h.partition
  rw [if_pos hfolded, List.append_nil] at hpartition
  obtain ⟨hvalue, -⟩ := List.mem_filter.mp (hpartition.mem_iff.mp List.mem_cons_self)
  exact h.label (mem_groupValues.mp hvalue).1

end Treemap
end Curarium
