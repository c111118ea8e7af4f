import Curarium.Collection.FollowJson

/-!
# The standard reading of a path

What a path without wildcards means is a matter of the document alone: a step selects the member
of an object with that name, or the element of an array at that index. `lookup` says so. The code
reads paths differently in three ways: a member name that is a numeral is taken for an index, an
index may count from the end or pick a bit of a number, and a string is opened as a document.

* `navigate` is the reading of the code, before it asks whether a value is present.
* Where both readings find a value they find the same one (`walk_eq_lookup`).
* A present value that the standard reading finds is what `followJson` returns exactly when no
  member name on the way is a numeral (`followSteps_lookup_iff`).
-/

namespace Curarium

open Json (Step)

namespace Collection

/-! ### Two readings -/

/-- The standard reading of a step: a member by its name, an element by a base 10 index in
range. -/
def lookupStep : Json → Step → Option Json
  | .obj ms, .str k => ms.lookup k
  | .arr xs, .str s =>
    if isI s = true ∧ 0 ≤ Ruby.toI s.toList then xs[(Ruby.toI s.toList).toNat]? else none
  | .arr xs, .int i => if 0 ≤ i then xs[i.toNat]? else none
  | _, _ => none

/-- The standard reading of a path without wildcards. -/
def lookup : Json → List Step → Option Json
  | s, [] => some s
  | s, k :: rest => (lookupStep s k).bind fun current => lookup current rest

/-- The reading of the code, present or not. -/
def navigate : Json → List Step → Option Json
  | s, [] => some s
  | s, k :: rest => (read s k).bind fun current => navigate current rest

/-- Where both readings of a step find a value, it is the same one. -/
theorem descend_eq_lookupStep {s v w : Json} {k : Step} (hv : descend s k = some v)
    (hw : lookupStep s k = some w) : v = w := by
  -- both read the same place, once the step is read as the import reads it
  have hread := (read_of_descend hv).1
  cases s with
  | obj ms =>
    cases k with
    | str t =>
      rw [read_obj, cpath] at hread
      by_cases ht : isI t = true
      · -- a hash holds no integer keys
        rw [if_pos ht] at hread
        exact absurd hread (by simp [Json.index])
      · rw [if_neg ht, Json.index] at hread
        exact Option.some.inj (hread.symm.trans hw)
    | int i => exact absurd hw (by simp [lookupStep])
  | arr xs =>
    cases k with
    | str t =>
      rw [lookupStep] at hw
      split at hw
      · next ht =>
        rw [read_arr, cpath, if_pos ht.1, Json.index, Json.arrayAt, if_pos ht.2] at hread
        exact Option.some.inj (hread.symm.trans hw)
      · exact absurd hw (by simp)
    | int i =>
      rw [lookupStep] at hw
      split at hw
      · next hi =>
        rw [read_arr, cpath, Json.index, Json.arrayAt, if_pos hi] at hread
        exact Option.some.inj (hread.symm.trans hw)
      · exact absurd hw (by simp)
  | null => cases k <;> exact absurd hw (by simp [lookupStep])
  | bool b => cases k <;> exact absurd hw (by simp [lookupStep])
  | int z => cases k <;> exact absurd hw (by simp [lookupStep])
  | float f => cases k <;> exact absurd hw (by simp [lookupStep])
  | str t => cases k <;> exact absurd hw (by simp [lookupStep])

theorem walk_eq_lookup {s v w : Json} {p : List Step} (hv : walk s p = some v)
    (hw : lookup s p = some w) : v = w := by
  induction p generalizing s with
  | nil => exact (Option.some.inj hv).symm.trans (Option.some.inj hw)
  | cons k p ih =>
    obtain ⟨a, ha, hav⟩ := Option.bind_eq_some_iff.mp hv
    obtain ⟨b, hb, hbw⟩ := Option.bind_eq_some_iff.mp hw
    obtain rfl := descend_eq_lookupStep ha hb
    exact ih hav hbw

theorem navigate_of_walk {s v : Json} {p : List Step} (h : walk s p = some v) :
    navigate s p = some v := by
  induction p generalizing s with
  | nil => exact h
  | cons k p ih =>
    obtain ⟨a, ha, hav⟩ := Option.bind_eq_some_iff.mp h
    exact Option.bind_eq_some_iff.mpr ⟨a, (read_of_descend ha).1, ih hav⟩

/-! ### When the two readings agree -/

/-- No member name along the path is a numeral. -/
def NamesPlain (d : Json) (p : List Step) : Prop :=
  ∀ q k r ms, p = q ++ .str k :: r → lookup d q = some (.obj ms) → isI k = false

theorem lookup_append (s : Json) (p q : List Step) :
    lookup s (p ++ q) = (lookup s p).bind fun current => lookup current q := by
  induction p generalizing s with
  | nil => rfl
  | cons k p ih =>
    change (lookupStep s k).bind _ = ((lookupStep s k).bind _).bind _
    rw [Option.bind_assoc]
    congr 1
    funext current
    exact ih current

/-- Only a container with something in it has a value to select. -/
theorem present_of_lookupStep {s w : Json} {k : Step} (h : lookupStep s k = some w) :
    s.present = true := by
  -- nothing is found in what is empty
  cases s with
  | obj ms =>
    cases ms with
    | nil => cases k <;> exact absurd h (by simp [lookupStep])
    | cons m ms => rfl
  | arr xs =>
    cases xs with
    | nil =>
      exfalso
      cases k <;> simp [lookupStep] at h
    | cons x xs => rfl
  | null => cases k <;> exact absurd h (by simp [lookupStep])
  | bool b => cases k <;> exact absurd h (by simp [lookupStep])
  | int z => rfl
  | float f => rfl
  | str t => cases k <;> exact absurd h (by simp [lookupStep])

/-- The code selects the same value, unless a member name is a numeral. -/
theorem descend_of_lookupStep {s w : Json} {k : Step} (h : lookupStep s k = some w)
    (hw : w.present = true) (hname : ∀ t ms, k = .str t → s = .obj ms → isI t = false) :
    descend s k = some w := by
  have hp := present_of_lookupStep h
  -- a member name that is no numeral, or an index that is
  have hread : load s = some s ∧ s.index (cpath k) = some w := by
    cases s with
    | obj ms =>
      cases k with
      | str t =>
        refine ⟨rfl, ?_⟩
        rw [cpath, if_neg (by simp [hname t ms rfl rfl]), Json.index]
        exact h
      | int i => exact absurd h (by simp [lookupStep])
    | arr xs =>
      cases k with
      | str t =>
        rw [lookupStep] at h
        split at h
        · next ht => exact ⟨rfl, by rw [cpath, if_pos ht.1, Json.index, Json.arrayAt, if_pos ht.2, h]⟩
        · exact absurd h (by simp)
      | int i =>
        rw [lookupStep] at h
        split at h
        · next hi => exact ⟨rfl, by rw [cpath, Json.index, Json.arrayAt, if_pos hi, h]⟩
        · exact absurd h (by simp)
    | null => cases k <;> exact absurd h (by simp [lookupStep])
    | bool b => cases k <;> exact absurd h (by simp [lookupStep])
    | int z => cases k <;> exact absurd h (by simp [lookupStep])
    | float f => cases k <;> exact absurd h (by simp [lookupStep])
    | str t => cases k <;> exact absurd h (by simp [lookupStep])
  rw [descend, hread.1, Option.bind_some, if_pos hp, hread.2, Option.filter_some, if_pos hw]

/-- The head of a path with plain names, and its tail. -/
theorem NamesPlain.tail {s w : Json} {k : Step} {p : List Step} (h : NamesPlain s (k :: p))
    (hw : lookupStep s k = some w) : NamesPlain w p := by
  intro q l r ms hp hq
  refine h (k :: q) l r ms (by rw [hp, List.cons_append]) ?_
  change (lookupStep s k).bind _ = _
  rw [hw, Option.bind_some, hq]

/-- **With plain names the code walks the standard path.** -/
theorem walk_of_lookup {s v : Json} {p : List Step} (h : lookup s p = some v)
    (hv : v.present = true) (hnames : NamesPlain s p) : walk s p = some v := by
  induction p generalizing s with
  | nil => exact h
  | cons k p ih =>
    obtain ⟨w, hw, hrest⟩ := Option.bind_eq_some_iff.mp h
    -- what is passed on the way is present: something is found in it
    have hwp : w.present = true := by
      cases p with
      | nil =>
        obtain rfl : w = v := Option.some.inj hrest
        exact hv
      | cons l p =>
        obtain ⟨u, hu, -⟩ := Option.bind_eq_some_iff.mp hrest
        exact present_of_lookupStep hu
    have hd : descend s k = some w := by
      refine descend_of_lookupStep hw hwp ?_
      rintro t ms rfl rfl
      exact hnames [] t p ms rfl rfl
    rw [walk_cons, hd, Option.bind_some]
    exact ih hrest (hnames.tail hw)

/-- A walk never passes a numeral as a member name. -/
theorem namesPlain_of_walk {s v : Json} {p : List Step} (hwalk : walk s p = some v) :
    NamesPlain s p := by
  intro q k r ms hp hq
  rw [hp, walk_append] at hwalk
  obtain ⟨u, hu, hrest⟩ := Option.bind_eq_some_iff.mp hwalk
  obtain rfl := walk_eq_lookup hu hq
  rw [walk_cons] at hrest
  obtain ⟨t, ht, -⟩ := Option.bind_eq_some_iff.mp hrest
  by_contra hnum
  have hread := (read_of_descend ht).1
  rw [read_obj, cpath, if_pos (by simpa using hnum)] at hread
  exact absurd hread (by simp [Json.index])

/-- **What the standard reading finds.** A present value that a path leads to is what
`followJson` returns for the path exactly when no member name on the way is a numeral. -/
theorem followSteps_lookup_iff {s v : Json} {p : List Step} (hp : p ≠ [])
    (h : lookup s p = some v) (hv : v.present = true) :
    followSteps s p = some [v] ↔ NamesPlain s p := by
  constructor
  · intro hfollow
    -- a wildcard is no index, so none opens along a path of the standard reading
    have hno : ∀ q r xs, q ≠ [] → p = q ++ star :: r → walk s q ≠ some (.arr xs) := by
      intro q r xs _ hpq hq
      rw [hpq, lookup_append] at h
      obtain ⟨u, hu, hrest⟩ := Option.bind_eq_some_iff.mp h
      obtain rfl := walk_eq_lookup hq hu
      obtain ⟨t, ht, -⟩ := Option.bind_eq_some_iff.mp hrest
      rw [lookupStep, if_neg (by simp [isI_star])] at ht
      exact absurd ht (by simp)
    rw [followSteps_eq_walk hp hno] at hfollow
    obtain ⟨w, hw, -⟩ := Option.map_eq_some_iff.mp hfollow
    exact namesPlain_of_walk hw
  · exact fun hnames => followSteps_of_walk hp (walk_of_lookup h hv hnames)

end Collection
end Curarium
