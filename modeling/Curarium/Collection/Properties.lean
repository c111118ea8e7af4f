import Curarium.Json.Parse
import Curarium.Library.Tallies
import Curarium.Ruby.Text
import Curarium.Sql.Condition
import Mathlib.Data.List.Sort

/-!
# `Collection#sort_properties`

The values of a property are counted over the works that `query_works` selects. With a minimum, the rare
values are deleted from the counts, and their sum is put in for all of them under a key of its own, `OTHER,
less than …`. That key is a text like the values are, and a value may be called so.

* `countWorks_eq` — the loop over the works makes the tally of the listed values.
* `collect_tally` — the loop over the tally leaves the values that are not rare.
* `conserves_iff` — the counts add up exactly if no value that is kept has the name of the new key.
-/

namespace Curarium
namespace Properties

open Sql (like)

/-- A row of `works`. -/
structure Work where
  id : Nat
  collectionId : Option Nat
  parsed : Option (List (String × Option String))
deriving DecidableEq

/-! ### `query_works` -/

/-- The two texts that a term fills in, the name of the field and the pattern for its value. Without a
second parameter the pattern raises. -/
def parameters (term : List Char) : Option (Option (List Char) × List Char) :=
  (Ruby.split ':' term)[1]?.map fun value =>
    ((Ruby.split ':' term).head?, "%\\\"".toList ++ value ++ "\\\"%".toList)

/-- `parsed->:field LIKE :tag`, which is `NULL` where the field is. -/
def matchesTag (w : Work) (filled : Option (List Char) × List Char) : Option Bool :=
  filled.1.bind fun field => w.parsed.bind fun entries =>
    ((entries.lookup (String.ofList field)).join).map fun text => like filled.2 text.toList

/-- One `where`, or one `where.not`, for each term. -/
def filterTerms (truth : Bool) (works : List Work) : Option (List (List Char)) → Option (List Work)
  | none => some works
  | some terms => terms.foldlM (fun works term =>
      (parameters term).map fun filled => works.filter fun w => matchesTag w filled = some truth) works

/-- `Collection#query_works` -/
def queryWorks (works : List Work) (collection : Nat) (includes excludes : Option (List (List Char))) :
    Option (List Work) :=
  (filterTerms true (works.filter fun w => w.collectionId = some collection) includes).bind fun works =>
    filterTerms false works excludes

/-! ### `sort_properties` -/

/-- `work.parsed[property]`, of a work that has `parsed`. -/
def stored (property : String) (w : Work) : Option String :=
  w.parsed.bind fun entries => (entries.lookup property).join

/-- What `fields.each` goes over: the elements of an array, the pairs of a hash. -/
def elements : Json → Option (List Json)
  | .arr xs => some xs
  | .obj ms => some (ms.map fun m => .arr [.str m.1, m.2])
  | _ => none

/-- One turn of the loop over the works. Without `parsed` there is no `[]`, and a text that is no
document raises; a work that does not have the property is skipped. -/
def countWork (property : String) (properties : List (Json × Nat)) (w : Work) : Option (List (Json × Nat)) :=
  w.parsed.bind fun _ =>
    match stored property w with
    | none => some properties
    | some parsed =>
      ((Json.parse parsed).bind elements).map fun fields => fields.foldl Tally.countOne properties

/-- `query.find_each`: the works by their ids. -/
def findEach (query : List Work) : List Work := query.insertionSort fun v w => v.id ≤ w.id

/-- The key of the rare values. -/
def otherName (minimum : Int) : String := "OTHER, less than " ++ String.ofList (Ruby.toS minimum)

/-- The end of the method: the rare values are deleted, and counted together. -/
def collect (minimum : Int) (properties : List (Json × Nat)) : List (Json × Nat) :=
  if minimum > 1 then
    let pruned := Tally.prune (fun value => value < minimum) properties
    Tally.put (.str (otherName minimum)) pruned.1 pruned.2
  else properties

/-- `{length: query.length, properties: properties}` -/
structure Answer where
  length : Nat
  properties : List (Json × Nat)
deriving DecidableEq

/-- `Collection#sort_properties` -/
def sortProperties (works : List Work) (collection : Nat) (includes excludes : Option (List (List Char)))
    (property : String) (minimum : Int) : Option Answer :=
  (queryWorks works collection includes excludes).bind fun query =>
    ((findEach query).foldlM (countWork property) []).map fun properties =>
      { length := query.length, properties := collect minimum properties }

/-! ### What it should count -/

/-- The stored values are lists of texts. -/
def Listed (property : String) (query : List Work) : Prop :=
  ∀ w ∈ query, ∀ text, stored property w = some text →
    ∃ values : List String, Json.parse text = some (.arr (values.map .str))

def textOf : Json → Option String
  | .str s => some s
  | _ => none

/-- The texts of a list. -/
def texts : Json → List String
  | .arr xs => xs.filterMap textOf
  | _ => []

/-- The values that a work lists. -/
def valuesOf (property : String) (w : Work) : List String :=
  ((stored property w).bind Json.parse).elim [] texts

/-- All listed values. -/
def values (property : String) (query : List Work) : List String := query.flatMap (valuesOf property)

/-- **The counts are conserved.** -/
structure Conserves (listed : List String) (minimum : Int) (properties : List (Json × Nat)) : Prop where
  total : weight Prod.snd properties = listed.length
  /-- A value that is not rare has its count. -/
  kept : ∀ v ∈ listed, minimum ≤ listed.count v → properties.lookup (.str v) = some (listed.count v)
  /-- A rare value has no entry, but for the one of the rare values. -/
  rare : ∀ v ∈ listed, listed.count v < minimum → v ≠ otherName minimum → properties.lookup (.str v) = none
  /-- The entry of the rare values has all of them. -/
  others : 1 < minimum →
    properties.lookup (.str (otherName minimum)) = some (listed.countP fun v => listed.count v < minimum)

/-! ### The loop over the works -/

variable {property : String} {minimum : Int}

theorem texts_map_str (vs : List String) : texts (.arr (vs.map .str)) = vs := by
  rw [texts, List.filterMap_map]
  exact List.filterMap_some

theorem countWork_eq {w : Work} (hparsed : w.parsed ≠ none) (hlisted : Listed property [w])
    (properties : List (Json × Nat)) : countWork property properties w =
      some (((valuesOf property w).map Json.str).foldl Tally.countOne properties) := by
  obtain ⟨entries, hentries⟩ := Option.ne_none_iff_exists'.mp hparsed
  rw [countWork, hentries, Option.bind_some, valuesOf]
  cases hstored : stored property w with
  | none => rfl
  | some text =>
    obtain ⟨vs, hparse⟩ := hlisted w List.mem_cons_self text hstored
    change ((Json.parse text).bind elements).map _ = _
    rw [Option.bind_some, hparse, Option.bind_some, elements, Option.map_some, Option.elim_some, texts_map_str]

/-- **The loop over the works** counts the listed values, unless a work has no `parsed`. -/
theorem countWorks_eq {query : List Work} (hparsed : ∀ w ∈ query, w.parsed ≠ none) (hlisted : Listed property query)
    (properties : List (Json × Nat)) : query.foldlM (countWork property) properties =
      some (((values property query).map Json.str).foldl Tally.countOne properties) := by
  induction query generalizing properties with
  | nil => rfl
  | cons w query ih =>
    have hw : Listed property [w] := by
      intro v hv
      obtain rfl := List.mem_singleton.mp hv
      exact hlisted v List.mem_cons_self
    rw [List.foldlM_cons, countWork_eq (hparsed w List.mem_cons_self) hw]
    change query.foldlM (countWork property) _ = _
    -- the next works are counted onto what there is
    rw [ih (fun v hv => hparsed v (List.mem_cons_of_mem _ hv)) fun v hv => hlisted v (List.mem_cons_of_mem _ hv),
      values, values, List.flatMap_cons, List.map_append, List.foldl_append]

theorem parsed_of_countWorks {query : List Work} {properties counted : List (Json × Nat)}
    (h : query.foldlM (countWork property) properties = some counted) : ∀ w ∈ query, w.parsed ≠ none := by
  induction query generalizing properties with
  | nil => exact fun w hw => absurd hw List.not_mem_nil
  | cons w query ih =>
    rw [List.foldlM_cons] at h
    obtain ⟨next, hnext, hrest⟩ := Option.bind_eq_some_iff.mp h
    refine List.forall_mem_cons.mpr ⟨fun hnone => ?_, ih hrest⟩
    -- `nil` has no `[]`
    rw [countWork, hnone] at hnext
    cases hnext

/-! ### The rare values -/

section Collect

variable (listed : List String) (minimum : Int)

theorem count_map_str (v : String) : (listed.map Json.str).count (.str v) = listed.count v :=
  List.count_map_of_injective listed Json.str (fun _ _ h => Json.str.inj h) v

theorem lookup_tally_str (v : String) : (Tally.tally (listed.map Json.str)).lookup (.str v) =
    if v ∈ listed then some (listed.count v) else none := by
  rw [Tally.lookup_tally, count_map_str]
  have hmem : Json.str v ∈ listed.map Json.str ↔ v ∈ listed := by
    rw [List.mem_map]
    exact ⟨fun ⟨u, hu, h⟩ => Json.str.inj h ▸ hu, fun h => ⟨v, h, rfl⟩⟩
  by_cases hv : v ∈ listed
  · rw [if_pos hv, if_pos (hmem.mpr hv)]
  · rw [if_neg hv, if_neg fun h => hv (hmem.mp h)]

/-- The tally without the rare values. -/
def keptOf : List (Json × Nat) :=
  (Tally.tally (listed.map Json.str)).filter fun e => !decide ((e.2 : Int) < minimum)

theorem lookup_keptOf (v : String) : (keptOf listed minimum).lookup (.str v) =
    if v ∈ listed ∧ minimum ≤ listed.count v then some (listed.count v) else none := by
  have hlookup := Tally.lookup_filter (k := Json.str v) (p := fun n => !decide ((n : Int) < minimum))
    (Tally.nodup_tally (listed.map Json.str))
  rw [keptOf, hlookup, lookup_tally_str]
  by_cases hv : v ∈ listed
  · by_cases hcount : minimum ≤ listed.count v
    · rw [if_pos hv, if_pos ⟨hv, hcount⟩, Option.filter_some, if_pos (by simpa using hcount)]
    · rw [if_pos hv, if_neg fun h => hcount h.2, Option.filter_some, if_neg (by simpa using hcount)]
  · rw [if_neg hv, if_neg fun h => hv h.1, Option.filter_none]

/-- The number of occurrences of rare values. -/
def rareCount : Nat := listed.countP fun v => listed.count v < minimum

theorem weight_rare : weight Prod.snd ((Tally.tally (listed.map Json.str)).filter fun e =>
    decide ((e.2 : Int) < minimum)) = rareCount listed minimum := by
  rw [Tally.weight_filter_tally (fun n => decide ((n : Int) < minimum)), List.countP_map, rareCount]
  refine List.countP_congr fun v _ => ?_
  rw [Function.comp_apply, count_map_str]

/-- **The loop over the tally** deletes the rare values, and counts them together. -/
theorem collect_tally (hminimum : 1 < minimum) : collect minimum (Tally.tally (listed.map Json.str)) =
    Tally.put (.str (otherName minimum)) (rareCount listed minimum) (keptOf listed minimum) := by
  rw [collect, if_pos hminimum]
  change Tally.put _ (Tally.prune (fun n => decide ((n : Int) < minimum)) _).1
    (Tally.prune (fun n => decide ((n : Int) < minimum)) _).2 = _
  rw [Tally.prune_eq (Tally.nodup_tally _), weight_rare, keptOf]

/-- Together with the rare values, those that are kept make up for all. -/
theorem weight_keptOf : rareCount listed minimum + weight Prod.snd (keptOf listed minimum) = listed.length := by
  rw [← weight_rare, keptOf, weight_filter_add, Tally.weight_tally, List.length_map]

/-- **The counts add up** unless a value that is kept has the name of the new entry. -/
theorem weight_collect_iff (hminimum : 1 < minimum) :
    weight Prod.snd (collect minimum (Tally.tally (listed.map Json.str))) = listed.length ↔
      listed.count (otherName minimum) < minimum := by
  have hput : weight Prod.snd (Tally.put (Json.str (otherName minimum)) (rareCount listed minimum)
      (keptOf listed minimum)) + ((keptOf listed minimum).lookup (Json.str (otherName minimum))).getD 0 =
        weight Prod.snd (keptOf listed minimum) + rareCount listed minimum := Tally.weight_put_add
  have htotal := weight_keptOf listed minimum
  rw [lookup_keptOf] at hput
  rw [collect_tally listed minimum hminimum]
  by_cases hcount : minimum ≤ listed.count (otherName minimum)
  · -- the entry that was there had a count, and it is gone
    have hmem : otherName minimum ∈ listed := List.count_pos_iff.mp (by omega)
    rw [if_pos ⟨hmem, hcount⟩, Option.getD_some] at hput
    exact iff_of_false (by omega) (by omega)
  · rw [if_neg fun h => hcount h.2, Option.getD_none] at hput
    exact iff_of_true (by omega) (by omega)

theorem conserves_collect_iff : Conserves listed minimum (collect minimum (Tally.tally (listed.map Json.str))) ↔
    (1 < minimum → listed.count (otherName minimum) < minimum) := by
  by_cases hminimum : 1 < minimum
  · rw [← weight_collect_iff listed minimum hminimum]
    refine ⟨fun h _ => h.total, fun h => ?_⟩
    have hname := (weight_collect_iff listed minimum hminimum).mp (h hminimum)
    refine ⟨h hminimum, fun v hv hcount => ?_, fun v hv hcount hne => ?_, fun _ => ?_⟩
    · -- the new entry is none that is kept
      have hne : Json.str v ≠ .str (otherName minimum) := by
        intro heq
        rw [Json.str.inj heq] at hcount
        omega
      rw [collect_tally listed minimum hminimum, Tally.lookup_put, if_neg hne, lookup_keptOf,
        if_pos ⟨hv, hcount⟩]
    · rw [collect_tally listed minimum hminimum, Tally.lookup_put, if_neg fun heq => hne (Json.str.inj heq),
        lookup_keptOf, if_neg (by omega)]
    · rw [collect_tally listed minimum hminimum, Tally.lookup_put, if_pos rfl]
      rfl
  · refine iff_of_true ?_ fun h => absurd h hminimum
    -- nothing is deleted, and nothing is rare
    rw [collect, if_neg hminimum]
    refine ⟨?_, fun v hv _ => ?_, fun v hv hcount => ?_, fun h => absurd h hminimum⟩
    · rw [Tally.weight_tally, List.length_map]
    · rw [lookup_tally_str, if_pos hv]
    · have hpos := List.count_pos_iff.mpr hv
      omega

end Collect

/-! ### The method -/

theorem values_perm {query query' : List Work} (h : query.Perm query') :
    (values property query).Perm (values property query') := h.flatMap_right _

/-- What is conserved does not depend on the order of the works. -/
theorem Conserves.perm {listed listed' : List String} {properties : List (Json × Nat)}
    (h : Conserves listed minimum properties) (hperm : listed.Perm listed') :
    Conserves listed' minimum properties where
  total := h.total.trans hperm.length_eq
  kept v hv hcount := by
    rw [← hperm.count_eq] at hcount ⊢
    exact h.kept v (hperm.mem_iff.mpr hv) hcount
  rare v hv hcount := by
    rw [← hperm.count_eq] at hcount
    exact h.rare v (hperm.mem_iff.mpr hv) hcount
  others hminimum := by
    rw [h.others hminimum, hperm.countP_eq]
    congr 1
    exact List.countP_congr fun v _ => by rw [hperm.count_eq]

/-- **When the counts are conserved**: every work that is selected has `parsed`, and with a minimum no
value that is not rare has the name of the entry for the rare ones. -/
theorem conserves_iff (works : List Work) (collection : Nat) (includes excludes : Option (List (List Char)))
    (property : String) (minimum : Int) (query : List Work)
    (hquery : queryWorks works collection includes excludes = some query) (hlisted : Listed property query) :
    (∃ answer, sortProperties works collection includes excludes property minimum = some answer ∧
        answer.length = query.length ∧ Conserves (values property query) minimum answer.properties) ↔
      (∀ w ∈ query, w.parsed ≠ none) ∧
        (1 < minimum → (values property query).count (otherName minimum) < minimum) := by
  have hperm : (findEach query).Perm query := List.perm_insertionSort _ _
  have hvalues : (values property (findEach query)).Perm (values property query) := values_perm hperm
  have hlisted' : Listed property (findEach query) := fun w hw => hlisted w (hperm.mem_iff.mp hw)
  rw [sortProperties, hquery, Option.bind_some]
  constructor
  · rintro ⟨answer, hanswer, -, hconserves⟩
    obtain ⟨properties, hcounted, rfl⟩ := Option.map_eq_some_iff.mp hanswer
    have hparsed := parsed_of_countWorks hcounted
    rw [countWorks_eq hparsed hlisted'] at hcounted
    obtain rfl := Option.some.inj hcounted
    -- the works are counted by their ids, which makes no difference to the counts
    have hname := (conserves_collect_iff _ minimum).mp (hconserves.perm hvalues.symm)
    rw [hvalues.count_eq] at hname
    exact ⟨fun w hw => hparsed w (hperm.mem_iff.mpr hw), hname⟩
  · rintro ⟨hparsed, hname⟩
    rw [countWorks_eq (fun w hw => hparsed w (hperm.mem_iff.mp hw)) hlisted', Option.map_some]
    refine ⟨_, rfl, rfl, Conserves.perm ?_ hvalues⟩
    rw [← hvalues.count_eq] at hname
    exact (conserves_collect_iff _ minimum).mpr hname

/-- The works of a collection with these texts for their topics. -/
def topicWorks (topics : List String) : List Work :=
  topics.zipIdx.map fun t => { id := t.2, collectionId := some 1, parsed := some [("topics", some t.1)] }

theorem listed_topicWorks {topics : List String}
    (h : ∀ text ∈ topics, ∃ vs : List String, Json.parse text = some (.arr (vs.map .str))) :
    Listed "topics" (topicWorks topics) := by
  intro w hw text htext
  obtain ⟨⟨topic, i⟩, hmem, rfl⟩ := List.mem_map.mp hw
  obtain rfl := Option.some.inj htext
  exact h topic (List.fst_mem_of_mem_zipIdx hmem)

def starTopics : List String := ["[\"stars\", \"night\"]", "[\"stars\"]", "[\"churches\"]"]

/-- The stars are kept, and the other two topics are counted together. -/
theorem conserves_stars : ∃ answer, sortProperties (topicWorks starTopics) 1 none none "topics" 2 = some answer ∧
    answer.length = 3 ∧ Conserves (values "topics" (topicWorks starTopics)) 2 answer.properties := by
  have hlisted : Listed "topics" (topicWorks starTopics) :=
    listed_topicWorks (List.forall_mem_cons.mpr ⟨⟨["stars", "night"], by decide +kernel⟩,
      List.forall_mem_cons.mpr ⟨⟨["stars"], by decide +kernel⟩,
        List.forall_mem_singleton.mpr ⟨["churches"], by decide +kernel⟩⟩⟩)
  have hquery : queryWorks (topicWorks starTopics) 1 none none = some (topicWorks starTopics) := by decide +kernel
  have hparsed : ∀ w ∈ topicWorks starTopics, w.parsed ≠ none := by decide +kernel
  have hname : (values "topics" (topicWorks starTopics)).count (otherName 2) = 0 := by decide +kernel
  refine (conserves_iff (topicWorks starTopics) 1 none none "topics" 2 _ hquery hlisted).mpr
    ⟨hparsed, fun _ => ?_⟩
  rw [hname]
  decide

/-- A topic of two works that is called like the new entry. -/
def otherTopics : List String :=
  ["[\"OTHER, less than 2\", \"night\"]", "[\"OTHER, less than 2\"]", "[\"churches\"]"]

/-- Its count is gone. -/
theorem not_conserves_other : ¬ ∀ (works : List Work) (collection : Nat)
    (includes excludes : Option (List (List Char))) (property : String) (minimum : Int) (query : List Work),
    queryWorks works collection includes excludes = some query → Listed property query →
      ∃ answer, sortProperties works collection includes excludes property minimum = some answer ∧
        answer.length = query.length ∧ Conserves (values property query) minimum answer.properties := by
  intro hall
  have hlisted : Listed "topics" (topicWorks otherTopics) :=
    listed_topicWorks (List.forall_mem_cons.mpr ⟨⟨["OTHER, less than 2", "night"], by decide +kernel⟩,
      List.forall_mem_cons.mpr ⟨⟨["OTHER, less than 2"], by decide +kernel⟩,
        List.forall_mem_singleton.mpr ⟨["churches"], by decide +kernel⟩⟩⟩)
  obtain ⟨answer, hanswer, -, hconserves⟩ :=
    hall (topicWorks otherTopics) 1 none none "topics" 2 (topicWorks otherTopics) (by decide +kernel) hlisted
  -- two of the four are left
  have hleft : sortProperties (topicWorks otherTopics) 1 none none "topics" 2 =
      some { length := 3, properties := [(.str "OTHER, less than 2", 2)] } := by decide +kernel
  have hfour : (values "topics" (topicWorks otherTopics)).length = 4 := by decide +kernel
  obtain rfl := Option.some.inj (hanswer.symm.trans hleft)
  exact absurd (hconserves.total.trans hfour) (by decide)

end Properties
end Curarium
