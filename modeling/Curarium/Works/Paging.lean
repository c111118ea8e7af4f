import Curarium.Collections.Listing
import Curarium.Library.Pages

/-!
# The pages of the works index

The list, the thumbnails and the color filter of the works index show one page of the works at a
time. The action counts the works in one place, by the name of the visualization, and lists them in
another.

* `index` is the action for these visualizations; it is `none` where it raises, where the database
  refuses the clause, and for the other visualizations.
* `result` is what the pages are pages of: the works of the clause, in the order of their ids.
* `index_partitions` — the pages are the result, each work on one page.

The quotient of the page count is exact. Which limits and offsets the database takes is a parameter: they
have to be in the range of its integers.
-/

namespace Curarium
namespace Paging

open Tables WorksIndex Listing Pages

/-! ### The action -/

/-- A request to the works index. -/
structure Request where
  vis : Option String
  page : Option Text
  perPage : Option Text
  query : Query

/-- The visualizations that require paging. -/
def pagedVis : List String := ["thumbnails", "list", "colorfilter"]

/-- What the view of a paged visualization is given. -/
structure Paged where
  properties : List String
  num : Nat
  perpage : Nat
  page : Nat
  works : List Listing.Work

/-- `@perpage` -/
def perpage (param : Option Text) : Nat := if toI param ≤ 0 then 200 else (toI param).toNat

/-- `@page` -/
def pageOf (param : Option Text) (num perpage : Nat) : Nat :=
  if toI param ≤ 0 ∨ (num ⌈/⌉ perpage : Nat) < toI param then 1 else (toI param).toNat

section Action

variable (lower : List Char → List Char) (accepts : Nat → Nat → Bool) (db : Database)

/-- `@properties`: those of the collection, or of all collections. -/
def propertiesOf (q : Query) : Option (List String) :=
  match present q.collectionId with
  | none => properties db.collections []
  | some cid =>
    (db.collections.find? fun c => (c.id : Int) = Ruby.toI cid).bind fun c =>
      c.configuration.map fun keys => keys.filter (· ∉ excludeProps)

/-- `Work.with_thumb.where( where_clause )`, or without `with_thumb`. -/
def works (thumb : Bool) (clause : Text) : Option (List Listing.Work) :=
  (matching lower Listing.Work.row clause db.works).map fun ws =>
    if thumb then ws.filter (withThumb db) else ws

/-- `WorksController#index`. `accepts` is whether the database takes a limit and an offset. -/
def index (r : Request) : Option Paged :=
  let vis := r.vis.getD "objectmap"
  let reqThumb := decide (vis ∈ ["thumbnails", "objectmap", "colorfilter"])
  (propertiesOf db r.query).bind fun properties =>
    (whereClause (db.collections.map fun c => (c.id : Int)) r.query).bind fun clause =>
      (works lower db reqThumb clause).bind fun counted =>
        if vis ∈ pagedVis then
          let perpage := perpage r.perPage
          let page := pageOf r.page counted.length perpage
          if accepts perpage ((page - 1) * perpage) then
            (works lower db (vis != "list") clause).map fun ws =>
              { properties, num := counted.length, perpage, page
                works := ((orderById ws).drop ((page - 1) * perpage)).take perpage }
          else none
        else none

/-! ### What is paged -/

/-- The works that the pages are to show, in order: those of the clause, in the list even without a
thumbnail. -/
def result (r : Request) : Option (List Listing.Work) :=
  (propertiesOf db r.query).bind fun _ =>
    (whereClause (db.collections.map fun c => (c.id : Int)) r.query).bind fun clause =>
      (works lower db (r.vis != some "list") clause).map orderById

/-- The works on a page. -/
def listing (r : Request) (param : Text) : List Listing.Work :=
  ((index lower accepts db { r with page := some param }).map Paged.works).getD []

end Action

section Partition

variable {lower : List Char → List Char} {accepts : Nat → Nat → Bool} {db : Database}

theorem perpage_pos (param : Option Text) : 0 < perpage param := by
  unfold perpage
  split <;> omega

/-- **The chosen page is there**, or it is the first one. -/
theorem pageOf_mem (param : Option Text) (num perpage : Nat) :
    1 ≤ pageOf param num perpage ∧ pageOf param num perpage ≤ max 1 (num ⌈/⌉ perpage) := by
  unfold pageOf
  split <;> omega

theorem pageOf_of_le {param : Option Text} {num perpage i : Nat} (hparam : toI param = i)
    (hi : 1 ≤ i) (hle : i ≤ num ⌈/⌉ perpage) : pageOf param num perpage = i := by
  rw [pageOf, hparam, if_neg (by omega), Int.toNat_natCast]

/-- The chosen page does not begin after the works. -/
theorem offset_pageOf_le (param : Option Text) (num : Nat) {perpage : Nat} (hpos : 0 < perpage) :
    (pageOf param num perpage - 1) * perpage ≤ num := by
  have hpage := pageOf_mem param num perpage
  by_cases hone : pageOf param num perpage = 1
  · rw [hone, Nat.sub_self, Nat.zero_mul]
    exact Nat.zero_le num
  · exact Nat.le_of_lt (offset_lt hpos (by omega))

/-- **Both branches select the same works**: a paged visualization counts those with a thumbnail
exactly when it is not the list. -/
theorem reqThumb_eq {vis : String} (h : vis ∈ pagedVis) :
    decide (vis ∈ ["thumbnails", "objectmap", "colorfilter"]) = (some vis != some "list") := by
  simp only [pagedVis, List.mem_cons, List.not_mem_nil, or_false] at h
  rcases h with rfl | rfl | rfl <;> decide

/-- **What the action gives its view**, in terms of the result. -/
theorem index_eq {r : Request} {vis : String} {rows : List Listing.Work} (hvis : r.vis = some vis)
    (hpaged : vis ∈ pagedVis) (h : result lower db r = some rows)
    (haccepts : ∀ offset ≤ rows.length, accepts (perpage r.perPage) offset = true) (param : Option Text) :
    ∃ properties, index lower accepts db { r with page := param } = some
      { properties
        num := rows.length
        perpage := perpage r.perPage
        page := pageOf param rows.length (perpage r.perPage)
        works := window (perpage r.perPage)
          (pageOf param rows.length (perpage r.perPage) - 1) rows } := by
  obtain ⟨properties, hproperties, h⟩ := Option.bind_eq_some_iff.mp h
  obtain ⟨clause, hclause, h⟩ := Option.bind_eq_some_iff.mp h
  obtain ⟨ws, hws, rfl⟩ := Option.map_eq_some_iff.mp h
  have hlen : (orderById ws).length = ws.length := List.length_insertionSort _ _
  rw [hvis] at hws
  have hne : (vis != "list") = (some vis != some "list") := rfl
  have htaken : accepts (perpage r.perPage)
      ((pageOf param ws.length (perpage r.perPage) - 1) * perpage r.perPage) = true := by
    refine haccepts _ ?_
    rw [hlen]
    exact offset_pageOf_le param ws.length (perpage_pos r.perPage)
  refine ⟨properties, ?_⟩
  simp only [index, hvis, Option.getD_some, reqThumb_eq hpaged, hpaged, hproperties, hclause,
    Option.bind_some, hne, hws, htaken, if_true, Option.map_some, hlen, window]

/-- The result is in the order of the ids, with no work twice. -/
theorem result_ascending {r : Request} {rows : List Listing.Work} (h : result lower db r = some rows) :
    (rows.map Listing.Work.id).SortedLT := by
  obtain ⟨_, _, h⟩ := Option.bind_eq_some_iff.mp h
  obtain ⟨clause, _, h⟩ := Option.bind_eq_some_iff.mp h
  obtain ⟨ws, hws, rfl⟩ := Option.map_eq_some_iff.mp h
  obtain ⟨found, hfound, rfl⟩ := Option.map_eq_some_iff.mp hws
  refine sortedLT_insertionSort (db.workIds.sublist ?_)
  have hsub := (matching_sublist hfound).map Listing.Work.id
  split
  · exact (List.filter_sublist.map _).trans hsub
  · exact hsub

theorem listing_eq {r : Request} {vis : String} {rows : List Listing.Work} (hvis : r.vis = some vis)
    (hpaged : vis ∈ pagedVis) (h : result lower db r = some rows)
    (haccepts : ∀ offset ≤ rows.length, accepts (perpage r.perPage) offset = true) {param : Text} {i : Nat}
    (hparam : Ruby.toI param = (i + 1 : Nat)) (hi : i < rows.length ⌈/⌉ perpage r.perPage) :
    listing lower accepts db r param = window (perpage r.perPage) i rows := by
  obtain ⟨properties, hindex⟩ := index_eq hvis hpaged h haccepts (some param)
  have hpage : pageOf (some param) rows.length (perpage r.perPage) = i + 1 :=
    pageOf_of_le hparam (Nat.le_add_left 1 i) hi
  rw [listing, hindex, hpage]
  rfl

/-- **Paging partitions the result.** For every request of a paged visualization whose clause selects
works, and whose limit the database takes with the offsets of these works, the count is the number of
these works and the chosen page is one of them; the pages from the first to the last, by any texts that
are read as their numbers, are together the result, and all before the last are full. -/
theorem index_partitions (r : Request) (vis : String) (rows : List Listing.Work) (hvis : r.vis = some vis)
    (hpaged : vis ∈ pagedVis) (h : result lower db r = some rows)
    (haccepts : ∀ offset ≤ rows.length, accepts (perpage r.perPage) offset = true) :
    (∃ p, index lower accepts db r = some p ∧ p.num = rows.length ∧ p.perpage = perpage r.perPage ∧
      1 ≤ p.page ∧ p.page ≤ max 1 (p.num ⌈/⌉ p.perpage) ∧
      (p.num ≠ 0 → (p.page - 1) * p.perpage < p.num) ∧
      p.works = (rows.drop ((p.page - 1) * p.perpage)).take p.perpage) ∧
    (rows.map Listing.Work.id).SortedLT ∧
    ∀ text : Nat → Text, (∀ i, Ruby.toI (text i) = i) →
      ((List.range' 1 (rows.length ⌈/⌉ perpage r.perPage)).flatMap fun i =>
        listing lower accepts db r (text i)) = rows ∧
      ∀ i, 1 ≤ i → i < rows.length ⌈/⌉ perpage r.perPage →
        (listing lower accepts db r (text i)).length = perpage r.perPage := by
  have hpos := perpage_pos r.perPage
  refine ⟨?_, result_ascending h, fun text htext => ⟨?_, fun i hi hlt => ?_⟩⟩
  · obtain ⟨properties, hindex⟩ := index_eq hvis hpaged h haccepts r.page
    have hpage := pageOf_mem r.page rows.length (perpage r.perPage)
    refine ⟨_, hindex, rfl, rfl, hpage.1, hpage.2, fun hne => ?_, rfl⟩
    -- there is at least one page, so the chosen one is not after the last
    have hone : 0 < rows.length ⌈/⌉ perpage r.perPage := by
      by_contra hzero
      have hle := (ceilDiv_le_iff_le_mul hpos).mp (Nat.le_of_not_lt hzero)
      exact hne (Nat.le_zero.mp (by simpa using hle))
    refine offset_lt hpos ?_
    show pageOf _ _ _ - 1 < rows.length ⌈/⌉ perpage r.perPage
    omega
  · calc ((List.range' 1 (rows.length ⌈/⌉ perpage r.perPage)).flatMap fun i =>
          listing lower accepts db r (text i))
        = (List.range (rows.length ⌈/⌉ perpage r.perPage)).flatMap fun i =>
            listing lower accepts db r (text (i + 1)) := by
          rw [List.range'_eq_map_range, List.flatMap_map]
          simp only [Nat.add_comm]
      _ = (List.range (rows.length ⌈/⌉ perpage r.perPage)).flatMap fun i =>
            window (perpage r.perPage) i rows := by
          refine List.flatMap_congr fun i hi => ?_
          exact listing_eq hvis hpaged h haccepts (htext (i + 1)) (List.mem_range.mp hi)
      _ = rows := flatMap_window_ceilDiv rows hpos
  · obtain ⟨j, rfl⟩ : ∃ j, i = j + 1 := ⟨i - 1, by omega⟩
    rw [listing_eq hvis hpaged h haccepts (htext (j + 1)) (by omega)]
    exact length_window rows hpos hlt

/-! ### Without a collection -/

theorem whereClause_of_absent {q : Query} (h : present q.collectionId = none) (ids ids' : List Int) :
    whereClause ids q = whereClause ids' q := by
  rw [whereClause, whereClause, collectionClause, collectionClause, h]

/-- **The index that lists collections and works together** is this one, without a collection and for
the limits that the database takes; its list raises on a work that it cannot show. -/
theorem worksIndex_eq (execute : Sql.Select → Database → List (Option String × Nat))
    (r : WorksRequest) {vis : String} (hvis : r.vis = some vis) (hpaged : vis ∈ pagedVis)
    (render : Body → Response) :
    worksIndex lower execute db r render =
      ((index lower (fun limit _ => decide (limit < limitBound)) db
        ⟨r.vis, r.page, r.perPage, r.query⟩).map fun p =>
          if vis = "list" ∧ p.works.any (metadataRaises db) = true then .serverError
          else render (.works p.properties p.num p.works)).getD .serverError := by
  have hproperties : propertiesOf db r.query = properties db.collections [] := by
    rw [propertiesOf, r.absent]
  have hclause := whereClause_of_absent r.absent (db.collections.map fun c => (c.id : Int)) []
  -- the same page: the first one if there are not so many
  have hpage : ∀ num, Listing.page r num = pageOf r.page num (Listing.perPage r) := by
    intro num
    unfold Listing.page pageOf
    refine if_congr (or_congr_right ?_) rfl rfl
    show (num ⌈/⌉ Listing.perPage r : Nat) < (toI r.page).toNat ↔ _
    exact Int.lt_toNat
  have hperpage : perpage r.perPage = Listing.perPage r := rfl
  simp only [worksIndex, index, hvis, Option.getD_some, hproperties, hclause, hperpage]
  -- what makes the one fail makes the other fail
  cases properties db.collections [] with
  | none => rfl
  | some properties =>
    cases whereClause [] r.query with
    | none => rfl
    | some clause =>
      cases hfound : matching lower Listing.Work.row clause db.works with
      | none =>
        simp only [works, hfound, Option.bind_some, Option.map_none, Option.bind_none]
        rfl
      | some ws =>
        have hall : works lower db false clause = some ws := by rw [works, hfound]; rfl
        have hthumb : works lower db true clause = some (ws.filter (withThumb db)) := by
          rw [works, hfound]; rfl
        -- each of the three kinds of pages, with a limit that is taken or not
        simp only [pagedVis, List.mem_cons, List.not_mem_nil, or_false] at hpaged
        by_cases hlimit : limitBound ≤ Listing.perPage r
        · rcases hpaged with rfl | rfl | rfl
          all_goals simp [hfound, hlimit, Nat.not_lt.mpr hlimit, pagedVis]
        · rcases hpaged with rfl | rfl | rfl
          all_goals simp [hpage, hfound, hall, hthumb, hlimit, Nat.lt_of_not_le hlimit, pagedVis, rows]

end Partition

/-! ### Three works, two to a page -/

/-- Three works of no collection, not in the order of their ids. -/
def threeWorks : Database where
  collections := []
  works := [⟨3, none, none, none, none⟩, ⟨1, none, none, none, none⟩, ⟨2, none, none, none, none⟩]
  images := []
  collectionIds := List.nodup_nil
  workIds := by decide

/-- The limits and offsets of a database with integers of 64 bits. -/
def bigints (limit offset : Nat) : Bool := decide (limit < limitBound ∧ offset < limitBound)

theorem index_partitions_three :
    ((List.range' 1 2).flatMap fun i => (listing id bigints threeWorks
      ⟨some "list", none, some "2".toList, ⟨none, [], [], none, none⟩⟩ (Ruby.toS i)).map Listing.Work.id)
      = [1, 2, 3] := by
  have haccepts : ∀ offset ≤ 3, bigints (perpage (some "2".toList)) offset = true := by decide
  have h := @index_partitions id bigints threeWorks
    ⟨some "list", none, some "2".toList, ⟨none, [], [], none, none⟩⟩ "list"
    [⟨1, none, none, none, none⟩, ⟨2, none, none, none, none⟩, ⟨3, none, none, none, none⟩] rfl (by decide) rfl
    haccepts
  have hpages := (h.2.2 (fun i => Ruby.toS i) fun i => Ruby.toI_toS i).1
  have hids := congrArg (List.map Listing.Work.id) hpages
  rw [List.map_flatMap] at hids
  exact hids

end Paging
end Curarium
