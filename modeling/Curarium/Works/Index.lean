import Curarium.Rails.Sanitize

/-!
# The SQL of the works index

`WorksController#index` builds a `where` clause as text from the parameters of the request, and
for the treemap a whole statement around it.

* The loops over the terms append to a statement and to a list of values (`WhereValues`), which
  `sanitize_sql_array` then puts together.
* `whereClause` and `treemapSql` are `none` where the action raises.

The ids of the collections in the database are a parameter. The action also lists the keys of
their configurations for the page, which is left out.
-/

namespace Curarium
namespace WorksIndex

/-- A text of the request or of a statement. -/
abbrev Text := List Char

/-- The parameters that reach the SQL. A list that is not given is empty. -/
structure Query where
  collectionId : Option Text
  includes : List Text
  excludes : List Text
  colorfilter : Option Text
  property : Option Text
deriving DecidableEq

/-! ### The clauses -/

/-- `present?` on a parameter. -/
def present (param : Option Text) : Option Text := param.filter fun t => !Ruby.blank t

/-- `Collection.find`, which reads an id with `to_i`, and the clause before it. -/
def collectionClause (ids : List Int) (collectionId : Option Text) : Option Text :=
  match present collectionId with
  | none => some []
  | some cid =>
    (Rails.sanitizeSqlArray " collection_id = %s".toList [cid]).bind fun sql =>
      if Ruby.toI cid ∈ ids then some sql else none

/-- One condition on a property. -/
def termText (name value : Text) : Text :=
  "lower(parsed->'".toList ++ name ++ "') like '".toList ++ value ++ "'".toList

/-- The pattern that a value is looked for with. -/
def pattern (value : Text) : Text := '%' :: Ruby.downcase value ++ ['%']

/-- `where_values` (its statement apart from its values) and `has_other`. -/
structure WhereValues where
  statement : Text
  values : List Text
  hasOther : Bool
deriving DecidableEq

/-- A term, split at its colons, is appended with a separator before it or without; `nil` has no
`downcase`. -/
def WhereValues.add (acc : WhereValues) (sep : Text) (joined : Bool) (values : List Text) :
    Option WhereValues :=
  values[1]?.map fun value =>
    { acc with
      statement :=
        acc.statement ++ (if joined then sep else []) ++ termText (values.headD []) "%s".toList
      values := acc.values ++ [pattern value] }

/-- One pass of the loop over the includes. The value `Other` is not a value to look for. -/
def includeStep (acc : WhereValues) (i : Nat) (p : Text) : Option WhereValues :=
  let values := Ruby.split ':' p
  if values[1]? = some "Other".toList then some { acc with hasOther := true }
  else acc.add " AND ".toList (decide (i > if acc.hasOther then 1 else 0)) values

/-- One pass of the loop over the excludes. -/
def excludeStep (acc : WhereValues) (i : Nat) (p : Text) : Option WhereValues :=
  acc.add " OR ".toList (decide (i > 0)) (Ruby.split ':' p)

/-- `each_with_index`, from an index on. -/
def eachWithIndex (step : WhereValues → Nat → Text → Option WhereValues) :
    WhereValues → Nat → List Text → Option WhereValues
  | acc, _, [] => some acc
  | acc, i, p :: ps => (step acc i p).bind fun acc => eachWithIndex step acc (i + 1) ps

def includeClause (includes : List Text) : Option Text :=
  if includes = [] then some []
  else
    (eachWithIndex includeStep ⟨[], [], false⟩ 0 includes).bind fun acc =>
      if acc.values = [] then some []
      else
        (Rails.sanitizeSqlArray acc.statement acc.values).map fun sql =>
          " AND ( ".toList ++ sql ++ " )".toList

def excludeClause (excludes : List Text) : Option Text :=
  if excludes = [] then some []
  else
    (eachWithIndex excludeStep ⟨[], [], false⟩ 0 excludes).bind fun acc =>
      (Rails.sanitizeSqlArray acc.statement acc.values).map fun sql =>
        " AND NOT ( ".toList ++ sql ++ " )".toList

def colorClause (colorfilter : Option Text) : Option Text :=
  match present colorfilter with
  | none => some []
  | some color =>
    (Rails.sanitizeSqlArray "%s".toList [Ruby.upcase (color.filter (· ≠ '#'))]).map fun sql =>
      " AND top_colors::text like '%".toList ++ sql ++ "%'".toList

/-- `where_clause`, when the action has come to the first query. -/
def whereClause (ids : List Int) (q : Query) : Option Text :=
  (collectionClause ids q.collectionId).bind fun collection =>
    (includeClause q.includes).bind fun includes =>
      (excludeClause q.excludes).bind fun excludes =>
        (colorClause q.colorfilter).map fun color => collection ++ includes ++ excludes ++ color

/-- The treemap statement before, between and after its two places, line by line. -/
def treemapHead : Text :=
  "select values as parsed, count(values) as id from (\n".toList ++
    "          SELECT  trim(\n".toList ++
    "            both from unnest(\n".toList ++
    "              string_to_array(\n".toList ++
    "                regexp_replace(\n".toList ++
    "                  regexp_replace(\n".toList ++
    "                    lower(parsed->'".toList

def treemapBody : Text :=
  "'), '\", \"', '%SPLIT%', 'g'\n".toList ++
    "                  ), '[\\[\\]\"]', '', 'g'\n".toList ++
    "                ), '%SPLIT%'\n".toList ++
    "              )\n".toList ++
    "            )\n".toList ++
    "          ) as values\n".toList ++
    "          FROM \"works\"\n".toList ++
    "          WHERE ".toList

def treemapTail : Text :=
  "\n        ) as subquery\n".toList ++
    "        group by values".toList

/-- The statement of the treemap. A property that is not given is `nil.to_s`. -/
def treemapSql (ids : List Int) (q : Query) : Option Text :=
  (whereClause ids q).bind fun where_clause =>
    (Rails.sanitizeSqlArray "%s".toList [q.property.getD []]).map fun property =>
      treemapHead ++ property ++ treemapBody ++ where_clause ++ treemapTail

end WorksIndex
end Curarium
