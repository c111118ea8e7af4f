import Curarium.Workers.Images
import Curarium.Library.Pairing

/-!
# Images and their thumbnails

A configuration that reads images and thumbnails off the elements of one array has the paths
`pre ++ ['*'] ++ a` and `pre ++ ['*'] ++ b`. `follow_json` drops the elements that lack a value, from
each list on its own, and `create_images` joins the two lists by position.

* `sources` — what the wildcard selects: the elements of the array, or the one member of that
  name where the path leads to an object.
* `followJson_sources` — a list that `follow_json` returns holds the values of the sources that
  have one.
* `rowsWithSource` — the rows that `create_images` makes, every value with the source it is from.
* `rows_paired_iff` — every row has its two values from one source exactly when the sources with
  an image and those with a thumbnail are aligned.
-/

namespace Curarium
namespace Images

open Json (Step)
open Collection (star walk followSteps followJson)
open Work

/-! ### What the wildcard selects -/

/-- The values that the wildcard after `pre` ranges over, by number: each as the function that reads
the rest of a path off it. -/
def sources (d : Json) (pre : List Step) : List (Nat × (List Step → Option Json)) :=
  match pre, walk d pre with
  | _ :: _, some (.arr xs) =>
    (List.range xs.length).map fun i : Nat => (i, fun rest => walk (.arr xs) (.int i :: rest))
  | _, _ => [(0, fun rest => walk d (pre ++ star :: rest))]

theorem sources_cases (d : Json) (pre : List Step) :
    (∃ xs, pre ≠ [] ∧ walk d pre = some (.arr xs) ∧ sources d pre
      = (List.range xs.length).map fun i : Nat => (i, fun rest => walk (.arr xs) (.int i :: rest))) ∨
    ((∀ xs, pre ≠ [] → walk d pre ≠ some (.arr xs)) ∧
      sources d pre = [(0, fun rest => walk d (pre ++ star :: rest))]) := by
  unfold sources
  split
  · next xs hwalk => exact Or.inl ⟨xs, by simp, hwalk, rfl⟩
  · next hother =>
    refine Or.inr ⟨fun xs hne hwalk => ?_, rfl⟩
    obtain ⟨k, p, rfl⟩ := List.exists_cons_of_ne_nil hne
    exact hother k p xs rfl hwalk

theorem nodup_sources (d : Json) (pre : List Step) : ((sources d pre).map Prod.fst).Nodup := by
  rcases sources_cases d pre with ⟨xs, -, -, hs⟩ | ⟨-, hs⟩
  · rw [hs, List.map_map]
    simpa [Function.comp_def] using List.nodup_range
  · rw [hs]
    simp

/-- Where the only wildcard of a path stands. -/
theorem eq_of_append_star {pre a q r : List Step} (hpre : star ∉ pre) (ha : star ∉ a)
    (h : pre ++ star :: a = q ++ star :: r) : q = pre := by
  rcases List.append_eq_append_iff.mp h with ⟨as, rfl, htail⟩ | ⟨bs, rfl, htail⟩
  · cases as with
    | nil => exact List.append_nil pre
    | cons k as =>
      obtain ⟨-, rfl⟩ := List.cons.inj htail
      exact absurd (List.mem_append_right as List.mem_cons_self) ha
  · cases bs with
    | nil => exact (List.append_nil q).symm
    | cons k bs =>
      obtain ⟨rfl, -⟩ := List.cons.inj htail
      exact absurd (List.mem_append_right q List.mem_cons_self) hpre

/-- Without a wildcard in the rest of the path, an element contributes the value the rest leads
to. -/
theorem followSteps_element (xs : List Json) (i : Nat) {a : List Step} (ha : star ∉ a) :
    (followSteps (.arr xs) (.int i :: a)).bind List.head? = walk (.arr xs) (.int i :: a) := by
  have hno : ∀ q r ys, q ≠ [] → Step.int i :: a = q ++ star :: r → walk (.arr xs) q ≠ some (.arr ys) := by
    intro q r ys hq heq
    obtain ⟨k, q, rfl⟩ := List.exists_cons_of_ne_nil hq
    obtain ⟨-, rfl⟩ := List.cons.inj heq
    exact absurd (List.mem_append_right q List.mem_cons_self) ha
  rw [Collection.followSteps_eq_walk (by simp) hno]
  cases walk (.arr xs) (.int i :: a) <;> rfl

/-- The loop goes one past the end, where there is nothing. -/
theorem walk_past_end (xs : List Json) (a : List Step) :
    walk (.arr xs) (.int xs.length :: a) = none := by
  rw [Collection.walk_cons, Collection.descend_arr_nat, List.getElem?_eq_none (le_refl _)]
  rfl

/-- **What `follow_json` returns**: the values of the sources that have one, in order. -/
theorem followJson_sources (d : Json) {pre a : List Step} (hpre : star ∉ pre) (ha : star ∉ a) :
    (followJson d (.steps (pre ++ star :: a))).getD []
      = (sources d pre).filterMap fun s => s.2 a := by
  change (followSteps d (pre ++ star :: a)).getD [] = _
  rcases sources_cases d pre with ⟨xs, hne, hwalk, hs⟩ | ⟨hother, hs⟩
  · -- the wildcard opens on an array
    rw [hs, Collection.followSteps_append hne (by simp) hwalk, Collection.advance_star,
      Option.getD_some, Collection.expand, List.filterMap_map]
    simp only [followSteps_element xs _ ha]
    rw [List.range_succ, List.filterMap_append, List.filterMap_cons, walk_past_end]
    simp
  · -- the wildcard is read as a member name
    have hno : ∀ q r xs, q ≠ [] → pre ++ star :: a = q ++ star :: r → walk d q ≠ some (.arr xs) := by
      intro q r xs hq heq
      rw [eq_of_append_star hpre ha heq] at hq ⊢
      exact hother xs hq
    rw [hs, Collection.followSteps_eq_walk (by simp) hno]
    cases hw : walk d (pre ++ star :: a) <;> simp [hw]

/-! ### Rows with their sources -/

/-- What each source has for the two paths. -/
def entries (d : Json) (pre a b : List Step) : List (Pairing.Entry Nat Json Json) :=
  (sources d pre).map fun s => { key := s.1, fst := s.2 a, snd := s.2 b }

/-- The rows of `create_images`, every value with the source it was read from. -/
def rowsWithSource (d : Json) (pre a b : List Step) : List ((Nat × Json) × Option (Nat × Json)) :=
  Pairing.join (Pairing.firsts (entries d pre a b)) (Pairing.seconds (entries d pre a b))

/-- A row without the sources. -/
def withoutSource (r : (Nat × Json) × Option (Nat × Json)) : Json × Option Json :=
  (r.1.2, r.2.map Prod.snd)

theorem map_firsts_entries (d : Json) (pre a b : List Step) :
    (Pairing.firsts (entries d pre a b)).map Prod.snd
      = (sources d pre).filterMap fun s => s.2 a := by
  rw [Pairing.firsts, entries, List.filterMap_map, List.map_filterMap]
  refine List.filterMap_congr fun s _ => ?_
  simp [Function.comp_def]

theorem map_seconds_entries (d : Json) (pre a b : List Step) :
    (Pairing.seconds (entries d pre a b)).map Prod.snd
      = (sources d pre).filterMap fun s => s.2 b := by
  rw [Pairing.seconds, entries, List.filterMap_map, List.map_filterMap]
  refine List.filterMap_congr fun s _ => ?_
  simp [Function.comp_def]

/-- Without the sources, these are the two lists of `follow_json` joined by position. -/
theorem map_withoutSource (d : Json) {pre a b : List Step} (hpre : star ∉ pre) (ha : star ∉ a)
    (hb : star ∉ b) :
    (rowsWithSource d pre a b).map withoutSource
      = Pairing.join ((followJson d (.steps (pre ++ star :: a))).getD [])
          ((followJson d (.steps (pre ++ star :: b))).getD []) := by
  rw [followJson_sources d hpre ha, followJson_sources d hpre hb, ← map_firsts_entries d pre a b,
    ← map_seconds_entries d pre a b]
  exact Pairing.map_join Prod.snd Prod.snd _ _

/-! ### The rows of a save -/

variable {D : Type} (A : Adapter D)

/-- An accessor holds a list: as an array, or as `nil` if it is empty. -/
def HoldsList (us : Option Json) (L : List Json) : Prop := us = none ∧ L = [] ∨ us = some (.arr L)

/-- The rows of `create_images` from two accessors that hold lists. -/
theorem imageRows_eq_join {iurls turls : Option Json} {L T : List Json} (hi : HoldsList iurls L)
    (ht : HoldsList turls T) : imageRows A iurls turls = (Pairing.join L T).mapM (imageRow A) := by
  have hturl : ∀ k : Nat, turlAt turls k = T[k]? := by
    intro k
    rcases ht with ⟨rfl, rfl⟩ | rfl
    · rfl
    · exact Json.arrayAt_nat T k
  have hjoin : joinUrls L (turlAt turls) = Pairing.join L T := by
    rw [joinUrls, funext hturl, Pairing.zipIdx_map_eq_join L T 0, List.drop_zero]
  rcases hi with ⟨rfl, rfl⟩ | rfl
  · rfl
  · rw [imageRows, ← hjoin]
    rfl

/-- The list of a configured field, as `extract_attributes` gets it. -/
theorem holdsList_of_urls {c : Configuration} {d : Json} {k : String} {path : Collection.PathArg}
    {us : Option Json} (hfield : (k, path) ∈ c.fields)
    (hread : ReadsBack A ((followJson d path).getD []))
    (h : urls (Work.get ((c.parse d).map (assignedField A)) k) = some us) :
    HoldsList us ((followJson d path).getD []) := by
  have hlookup : (c.parse d).lookup k = some (followJson d path) := by
    refine Lists.lookup_of_mem ?_ (List.mem_map_of_mem hfield)
    rw [Configuration.parse, List.map_map]
    exact c.nodup
  rw [get_assigned, hlookup, Option.bind_some] at h
  obtain ⟨read, hr, hus⟩ := urls_assigned A h
  obtain rfl := Option.some.inj (((readUrls_iff A _).mpr hread).symm.trans hr)
  exact hus

/-- **Images and thumbnails in pairs.** The rows that a save creates are the rows with their
sources, and each of them has image and thumbnail from one source exactly when the sources with an
image and those with a thumbnail are aligned: no source with a thumbnail only comes before one
with an image, and none with an image only before one with a thumbnail. -/
theorem rows_paired_iff (c : Configuration) (d : Json) (pre a b : List Step) (y : Yield D)
    (hpre : star ∉ pre) (ha : star ∉ a) (hb : star ∉ b)
    (himage : ("image", .steps (pre ++ star :: a)) ∈ c.fields)
    (hthumb : ("thumbnail", .steps (pre ++ star :: b)) ∈ c.fields)
    (hreadI : ReadsBack A ((followJson d (.steps (pre ++ star :: a))).getD []))
    (hreadT : ReadsBack A ((followJson d (.steps (pre ++ star :: b))).getD []))
    (hy : yieldOf A (c.parse d) = some y) :
    ((rowsWithSource d pre a b).map withoutSource).mapM (imageRow A) = some y.rows ∧
      ((∀ r ∈ rowsWithSource d pre a b, Pairing.FromOneEntry (entries d pre a b) r) ↔
        Pairing.Aligned (entries d pre a b)) := by
  constructor
  · -- the rows of the job are the two lists, joined by their numbers
    obtain ⟨hiurls, hturls, -⟩ := yieldOf_spec A hy
    rw [map_withoutSource d hpre ha hb, ← imageRows_of_yield A hy]
    exact (imageRows_eq_join A (holdsList_of_urls A himage hreadI hiurls)
      (holdsList_of_urls A hthumb hreadT hturls)).symm
  · -- and these are paired as they should be if they are aligned
    refine Pairing.paired_iff ?_
    rw [entries, List.map_map]
    exact nodup_sources d pre

/-- A configuration for images and thumbnails of the elements of `files`. -/
def filesConfiguration : Configuration where
  fields := [("image", .steps ([Step.str "files"] ++ Collection.star :: [.str "image"])),
    ("thumbnail", .steps ([Step.str "files"] ++ Collection.star :: [.str "thumb"]))]
  nodup := by decide

/-- Files with both values. -/
def completeFiles : Json :=
  .obj [("files", .arr [.obj [("image", .str "1.jpg"), ("thumb", .str "1t.jpg")],
    .obj [("image", .str "2.jpg"), ("thumb", .str "2t.jpg")]])]

/-- Both rows have the values of one file. -/
theorem rows_paired_complete :
    rowsWithSource completeFiles [.str "files"] [.str "image"] [.str "thumb"]
        = [((0, .str "1.jpg"), some (0, .str "1t.jpg")), ((1, .str "2.jpg"), some (1, .str "2t.jpg"))] ∧
      ∀ r ∈ rowsWithSource completeFiles [.str "files"] [.str "image"] [.str "thumb"],
        Pairing.FromOneEntry
          (entries completeFiles [.str "files"] [.str "image"] [.str "thumb"]) r := by
  refine ⟨by decide +kernel, ?_⟩
  have hsome : (yieldOf (.plain true) (filesConfiguration.parse completeFiles)).isSome = true := by
    decide +kernel
  obtain ⟨y, hy⟩ := Option.isSome_iff_exists.mp hsome
  refine (rows_paired_iff (.plain true) filesConfiguration completeFiles [.str "files"]
    [.str "image"] [.str "thumb"] y (by decide) (by decide) (by decide) List.mem_cons_self
    (List.mem_cons_of_mem _ List.mem_cons_self) (fun _ => by decide +kernel)
    (fun _ => by decide +kernel) hy).2.mpr ?_
  have hentries : entries completeFiles [.str "files"] [.str "image"] [.str "thumb"]
      = [⟨0, some (.str "1.jpg"), some (.str "1t.jpg")⟩,
        ⟨1, some (.str "2.jpg"), some (.str "2t.jpg")⟩] := by
    decide +kernel
  rw [hentries]
  simp [Pairing.Aligned]

/-- Files of which the first has no thumbnail. -/
def incompleteFiles : Json :=
  .obj [("files", .arr [.obj [("image", .str "1.jpg")],
    .obj [("image", .str "2.jpg"), ("thumb", .str "2t.jpg")]])]

/-- The first image gets the thumbnail of the second file. -/
theorem rows_paired_shifted :
    (yieldOf (.plain true) (filesConfiguration.parse incompleteFiles)).map Yield.rows
        = some [⟨some "1.jpg", some "2t.jpg"⟩, ⟨some "2.jpg", none⟩] ∧
      rowsWithSource incompleteFiles [.str "files"] [.str "image"] [.str "thumb"]
        = [((0, .str "1.jpg"), some (1, .str "2t.jpg")), ((1, .str "2.jpg"), none)] ∧
      ¬ ∀ r ∈ rowsWithSource incompleteFiles [.str "files"] [.str "image"] [.str "thumb"],
        Pairing.FromOneEntry
          (entries incompleteFiles [.str "files"] [.str "image"] [.str "thumb"]) r := by
  have hrows : rowsWithSource incompleteFiles [.str "files"] [.str "image"] [.str "thumb"]
      = [((0, .str "1.jpg"), some (1, .str "2t.jpg")), ((1, .str "2.jpg"), none)] := by
    decide +kernel
  refine ⟨by decide +kernel, hrows, fun h => ?_⟩
  have hentries : entries incompleteFiles [.str "files"] [.str "image"] [.str "thumb"]
      = [⟨0, some (.str "1.jpg"), none⟩, ⟨1, some (.str "2.jpg"), some (.str "2t.jpg")⟩] := by
    decide +kernel
  rw [hrows, hentries] at h
  exact absurd (h _ List.mem_cons_self _ List.mem_cons_self rfl) (by simp)

end Images
end Curarium
