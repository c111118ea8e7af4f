import Curarium.Library.Lists
import Curarium.Sql.Strings
import Curarium.Works.Filter

/-!
# The blocks of the treemap

With `vis=treemap` the works index cuts the stored texts of one property into values, counts these
over the works of its clause and shows a block for each value.

* `elements` is what the statement does with one stored text, and `groupValues` its grouping. The
  statement names no order, so the order of its rows is a parameter, that of one execution.
* `blocks` puts the rare values into one block if there are many of them, or shows the rare values
  only.
* `treemapIndex` is the action; it is `none` where it raises and where the database refuses the
  clause or the statement.
-/

namespace Curarium
namespace Treemap

open WorksIndex Sql

/-- A row of the result of the statement, and a block on the page. -/
structure Block where
  parsed : Text
  id : Nat
deriving DecidableEq

/-! ### The statement -/

/-- What the statement makes of one stored text. -/
def elements (lower : Text → Text) (stored : Text) : List Text :=
  (stringToArray "%SPLIT%".toList
    (regexpRemove "[]\"".toList
      (regexpReplace "\", \"".toList "%SPLIT%".toList (lower stored)))).map trim

/-- The values of a work. From `NULL` there is nothing to unnest. -/
def values (lower : Text → Text) (property : Text) (w : Row) : List Text :=
  (w.property property).elim [] fun stored => elements lower stored.toList

/-- `group by values`, with their count. -/
def groupValues (vs : List Text) : List Block := vs.eraseDups.map fun v => ⟨v, vs.count v⟩

/-- The values of the works for which the clause of the statement is true. An empty clause is an
error here. -/
def foundValues (lower : Text → Text) (property where_clause : Text) (works : List Row) :
    Option (List Text) :=
  (select lower Row.columns where_clause works).map fun found => found.flatMap (values lower property)

/-! ### The action -/

/-- `has_other`, after the loop over the includes. -/
def hasOther (includes : List Text) : Bool :=
  (eachWithIndex includeStep ⟨[], [], false⟩ 0 includes).any fun acc => acc.hasOther

def other_group_threashold : Nat := 2

def other_explode_threashold : Nat := 10

/-- A block for the group of other works. -/
def Block.isOther (w : Block) : Bool := decide (w.id ≤ other_group_threashold)

/-- `@works`, from all rows. -/
def blocks (has_other : Bool) (all : List Block) : List Block :=
  if has_other then all.filter Block.isOther
  else
    let other_works := all.filter Block.isOther
    (all.filter fun w => !w.isOther) ++
      if other_works.length < other_explode_threashold then other_works
      else [⟨"Other".toList, other_works.length⟩]

inductive Response where
  | redirect (work : Row)
  | treemap (works : List Block)
deriving DecidableEq

/-- `index` with `vis=treemap`. -/
def treemapIndex (lower : Text → Text) (order : List Block → List Block) (ids : List Int) (q : Query)
    (works : List Row) : Option Response :=
  (whereClause ids q).bind fun where_clause =>
    (matching lower id where_clause works).bind fun found =>
      match found with
      | [work] => some (.redirect work)
      | _ =>
        (foundValues lower (q.property.getD []) where_clause works).map fun vs =>
          .treemap (blocks (hasOther q.includes) (order (groupValues vs)))

/-! ### Grouping -/

theorem mem_groupValues {b : Block} {vs : List Text} :
    b ∈ groupValues vs ↔ b.parsed ∈ vs ∧ b.id = vs.count b.parsed := by
  rw [groupValues, List.mem_map]
  constructor
  · rintro ⟨v, hv, rfl⟩
    exact ⟨List.mem_eraseDups.mp hv, rfl⟩
  · rintro ⟨hv, hid⟩
    exact ⟨b.parsed, List.mem_eraseDups.mpr hv, by rw [← hid]⟩

theorem nodup_groupValues (vs : List Text) : ((groupValues vs).map Block.parsed).Nodup := by
  rw [groupValues, List.map_map]
  exact (List.map_id _).symm ▸ Lists.nodup_eraseDups vs

/-! ### The label of the group -/

/-- A value has the characters of the stored text and of the mark. -/
theorem mem_elements {lower : Text → Text} {stored v : Text} {c : Char} (hv : v ∈ elements lower stored)
    (hc : c ∈ v) : c ∈ lower stored ∨ c ∈ "%SPLIT%".toList := by
  obtain ⟨p, hp, rfl⟩ := List.mem_map.mp hv
  rw [stringToArray] at hp
  split at hp
  · exact absurd hp List.not_mem_nil
  · have hfilter := (infix_of_mem_pieces (by decide) hp).subset (mem_of_mem_trim hc)
    rw [regexpRemove, List.mem_filter, regexpReplace] at hfilter
    rcases mem_intercalate hfilter.1 with hmark | ⟨q, hq, hcq⟩
    · exact .inr hmark
    · exact .inl ((infix_of_mem_pieces (by decide) hq).subset hcq)

/-- **No value is called `Other`**: the database leaves no capital of it. -/
theorem other_notMem_values {lower : Text → Text} (hlower : ∀ t, 'O' ∉ lower t) (property : Text)
    (w : Row) : "Other".toList ∉ values lower property w := by
  intro h
  rw [values] at h
  cases hs : w.property property with
  | none =>
    rw [hs] at h
    exact absurd h List.not_mem_nil
  | some stored =>
    rw [hs] at h
    have hO : 'O' ∈ "Other".toList := by decide
    rcases mem_elements h hO with hmem | hmem
    · exact hlower _ hmem
    · exact absurd hmem (by decide)

theorem other_notMem_foundValues {lower : Text → Text} (hlower : ∀ t, 'O' ∉ lower t)
    {property where_clause : Text} {works : List Row} {vs : List Text}
    (h : foundValues lower property where_clause works = some vs) : "Other".toList ∉ vs := by
  obtain ⟨found, -, rfl⟩ := Option.map_eq_some_iff.mp h
  intro hmem
  obtain ⟨w, -, hw⟩ := List.mem_flatMap.mp hmem
  exact other_notMem_values hlower property w hw

end Treemap
end Curarium
