import Curarium.Collection.Stray
import Curarium.Workers.Images

/-!
# What `follow_json` returns is present

`follow_json` compacts its list and throws the result away. There is nothing to compact: a value only
gets into a list as the value of a last step, which is present, or as the first value of an element of
an array, for which the same was said before.

* `followSteps_present` — every value in the list is present.
* `followSteps_singleton_of_notMem` — a path without wildcards leads to one value.
* `relied` — what a work extracts from the lists: the first value of one that is there, and an image for
  every value, with its URL.
-/

namespace Curarium
namespace Collection

open Json (Step)

/-- **Every value in the list is present.** -/
theorem followSteps_present {s : Json} {path : List Step} {vs : List Json}
    (h : followSteps s path = some vs) : ∀ v ∈ vs, v.present = true := by
  -- the expansion of a wildcard replaces the part of the path that led to the array by a number
  induction hn : path.length using Nat.strongRecOn generalizing s path vs with
  | ind n ih =>
    subst hn
    intro v hv
    rcases followSteps_cases s path with ⟨q, rest, xs, hq, rfl, -, hexpand⟩ | ⟨-, hwalk⟩
    · obtain rfl := Option.some.inj (h.symm.trans hexpand)
      obtain ⟨i, -, hi⟩ := List.mem_filterMap.mp hv
      obtain ⟨us, hus, hhead⟩ := Option.bind_eq_some_iff.mp hi
      have hshorter : (Step.int i :: rest).length < (q ++ star :: rest).length := by
        have hpos := List.length_pos_iff.mpr hq
        simp only [List.length_append, List.length_cons]
        omega
      exact ih _ hshorter hus rfl v (List.mem_of_mem_head? hhead)
    · have hpath : path ≠ [] := by
        rintro rfl
        exact absurd h (by simp)
      rw [hwalk hpath] at h
      obtain ⟨u, hu, rfl⟩ := Option.map_eq_some_iff.mp h
      obtain rfl := List.mem_singleton.mp hv
      exact walk_present hpath hu

/-- **A path without wildcards** leads to one value. -/
theorem followSteps_singleton_of_notMem {s : Json} {path : List Step} {vs : List Json}
    (hstar : star ∉ path) (h : followSteps s path = some vs) : ∃ v, vs = [v] := by
  have hpath : path ≠ [] := by
    rintro rfl
    exact absurd h (by simp)
  have hnone : ∀ q r xs, q ≠ [] → path = q ++ star :: r → walk s q ≠ some (.arr xs) := by
    rintro q r xs - rfl
    exact absurd (List.mem_append_right q List.mem_cons_self) hstar
  rw [followSteps_eq_walk hpath hnone] at h
  obtain ⟨v, -, rfl⟩ := Option.map_eq_some_iff.mp h
  exact ⟨v, rfl⟩

/-- Only a path that is a list leads anywhere. -/
theorem followJson_eq_some {s : Json} {path : PathArg} {vs : List Json} (h : followJson s path = some vs) :
    ∃ steps, path = .steps steps ∧ followSteps s steps = some vs := by
  cases path with
  | steps steps => exact ⟨steps, rfl, h⟩
  | text t => exact absurd h (by simp [followJson])
  | nil => exact absurd h (by simp [followJson])

/-! ### The lists of a work -/

variable {D : Type}

/-- What the callbacks of a work rely on: a list that is there has a first value, and for every value
there is an image with a URL. -/
structure Relied (A : Adapter D) (vs : List Json) : Prop where
  first : Field.present (some (.list vs)) = true →
    ∃ v, Work.firstValue (.list vs) = some (some v) ∧ v.present = true
  every : ∀ turls rows, Work.imageRows A (some (.arr vs)) turls = some rows →
    ∀ row ∈ rows, row.imageUrl.isSome = true

/-- A value that is present does not become `NULL` in a column. -/
theorem isSome_of_column {A : Adapter D} {c : Column} {v : Json} {t : Option String} (hv : v.present = true)
    (h : Work.column A c (some v) = some t) : t.isSome = true := by
  unfold Work.column at h
  split at h
  case h_1 heq => exact absurd heq (by simp)
  case h_2 heq =>
    rw [Option.some.inj heq] at hv
    exact absurd hv (by decide)
  case h_3 =>
    obtain ⟨text, -, rfl⟩ := Option.map_eq_some_iff.mp h
    rfl

theorem relied (A : Adapter D) {vs : List Json} (h : ∀ v ∈ vs, v.present = true) : Relied A vs where
  first := by
    intro hpresent
    cases vs with
    | nil => exact absurd hpresent (by decide)
    | cons v vs => exact ⟨v, rfl, h v List.mem_cons_self⟩
  every := by
    intro turls rows hrows row hrow
    have heach := Images.oneRowEach_of_mapM A hrows
    rw [Images.map_fst_joinUrls] at heach
    -- the row is that of one of the values
    obtain ⟨v, hv, hcolumn⟩ := Lists.exists_of_forall₂ heach.flip hrow
    exact isSome_of_column (h v hv) hcolumn

/-- **What `follow_json` returns**, for every structure and every path. -/
theorem followJson_present (A : Adapter D) (s : Json) (path : PathArg) (vs : List Json)
    (h : followJson s path = some vs) :
    (∀ v ∈ vs, v.present = true) ∧ ((∀ steps, path = .steps steps → star ∉ steps) → ∃ v, vs = [v]) ∧
      Relied A vs := by
  obtain ⟨steps, rfl, hfollow⟩ := followJson_eq_some h
  have hpresent := followSteps_present hfollow
  exact ⟨hpresent, fun hstar => followSteps_singleton_of_notMem (hstar steps rfl) hfollow,
    relied A hpresent⟩

/-- A record with a blank name between two names. -/
def blankName : Json :=
  .str "\x7b\"name\": [\"Vincent\", \" \", null, [], \"Paul\"]\x7d"

/-- The wildcard leaves out what is blank. -/
theorem followJson_present_names : (∀ v ∈ [Json.str "Vincent", .str "Paul"], v.present = true) ∧
    ((∀ steps, PathArg.steps [.str "name", star] = .steps steps → star ∉ steps) →
      ∃ v, [Json.str "Vincent", .str "Paul"] = [v]) ∧
    Relied (.plain true) [Json.str "Vincent", .str "Paul"] :=
  followJson_present (.plain true) blankName (.steps [.str "name", star]) _ (by decide +kernel)

end Collection
end Curarium
