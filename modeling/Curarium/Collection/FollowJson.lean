import Curarium.Json.Parse

/-!
# `Collection.follow_json`

A configuration maps each field to a path, and `followJson` collects the values the path leads to
in a document. One recursion does everything: it parses a string it has to look into, guesses
from the text of a step whether it is an index, drops what is not present, expands `'*'` when the
value before it is an array, and turns every exception into `nil`.

* `descend` is one step of it: the present value at `structure[cpath]`, if any.
* `followSteps` is the recursion, over a path that is a list. It runs on the length of the path,
  which every call shortens by one (the expansion of a wildcard replaces the head, it does not
  drop it).
* `followJson` takes whatever a configuration may hold as a path. An empty string and `nil`, the
  defaults of an unconfigured field, raise and are answered with `nil`.

`walk` is the part of the recursion that meets no wildcard. Its two lemmas carry the results of
the modules above: a path that can be walked yields the one value it leads to
(`followSteps_of_walk`), and a longer path continues from there (`followSteps_append`).
-/

namespace Curarium

open Json (Step)

namespace Collection

/-! ### One step -/

/-- `Collection.is_i?`: the text is the base 10 numeral of an integer. -/
def isI (s : String) : Bool := decide (Ruby.toS (Ruby.toI s.toList) = s.toList)

/-- `cpath`: a numeral is taken for an index, whatever it is applied to. -/
def cpath : Step → Step
  | .str s => if isI s then .int (Ruby.toI s.toList) else .str s
  | .int i => .int i

/-- A string is taken for the text of a document. -/
def load : Json → Option Json
  | .str s => Json.parse s
  | j => some j

/-- `structure[cpath]`, after loading a string. -/
def read (s : Json) (k : Step) : Option Json := (load s).bind fun j => j.index (cpath k)

/-- The value one step leads to, if both the structure and the value are present. -/
def descend (s : Json) (k : Step) : Option Json :=
  (load s).bind fun j => if j.present then (j.index (cpath k)).filter Json.present else none

@[simp] theorem load_arr (xs : List Json) : load (.arr xs) = some (.arr xs) := rfl

@[simp] theorem load_obj (ms : List (String × Json)) : load (.obj ms) = some (.obj ms) := rfl

theorem read_arr (xs : List Json) (k : Step) : read (.arr xs) k = (Json.arr xs).index (cpath k) := rfl

theorem read_obj (ms : List (String × Json)) (k : Step) :
    read (.obj ms) k = (Json.obj ms).index (cpath k) := rfl

/-- The wildcard. -/
abbrev star : Step := .str "*"

/-! ### The recursion -/

/-- `follow_json` on a path of at most `n` steps. -/
def followAux : Nat → Json → List Step → Option (List Json)
  | 0, _, _ => none
  | _ + 1, _, [] => none
  | n + 1, s, k :: rest =>
    (descend s k).bind fun current =>
      match current, rest with
      | current, [] => some [current]
      -- `for c in 0..limit`: the bound is inclusive, so one index too many is tried
      | .arr xs, .str "*" :: rest =>
        some ((List.range (xs.length + 1)).filterMap fun c : Nat =>
          (followAux n (.arr xs) (.int c :: rest)).bind List.head?)
      | current, rest => followAux n current rest

/-- `Collection.follow_json` on a path that is a list. -/
def followSteps (s : Json) (path : List Step) : Option (List Json) := followAux path.length s path

/-- What a configuration may hold as the path of a field. -/
inductive PathArg where
  | steps (path : List Step)
  | text (s : String)
  | nil
deriving DecidableEq

/-- `Collection.follow_json`. `path.count` without an argument raises on a string, `path[0]` on
`nil`, and both end in the `rescue`. -/
def followJson (s : Json) : PathArg → Option (List Json)
  | .steps path => followSteps s path
  | .text _ => none
  | .nil => none

/-- `Collection.follow_json_single`. -/
def followJsonSingle (s : Json) (path : PathArg) : Option Json := (followJson s path).bind List.head?

/-! ### Unfolding the recursion -/

/-- What an expanded wildcard collects: the first value each element contributes. -/
def expand (xs : List Json) (rest : List Step) : List Json :=
  (List.range (xs.length + 1)).filterMap fun c : Nat =>
    (followSteps (.arr xs) (.int c :: rest)).bind List.head?

/-- The recursion after a step that led to `current`, with at least one step to go. -/
def advance (current : Json) (rest : List Step) : Option (List Json) :=
  match current, rest with
  | .arr xs, .str "*" :: rest => some (expand xs rest)
  | current, rest => followSteps current rest

@[simp] theorem followSteps_nil (s : Json) : followSteps s [] = none := rfl

theorem followSteps_singleton (s : Json) (k : Step) :
    followSteps s [k] = (descend s k).map fun v => [v] := by
  rw [followSteps, List.length_singleton, followAux]
  cases descend s k <;> rfl

theorem followSteps_cons (s : Json) (k l : Step) (rest : List Step) :
    followSteps s (k :: l :: rest) = (descend s k).bind fun current => advance current (l :: rest) := by
  unfold followSteps
  rw [List.length_cons, followAux]
  congr 1
  funext current
  -- the three ways on: the path ends, a wildcard meets an array, or one more step
  unfold advance expand followSteps
  split
  · next heq => exact absurd heq (by simp)
  · next heq =>
    obtain ⟨rfl, rfl⟩ := List.cons.inj heq
    rfl
  · next hno =>
    split
    · next heq => exact absurd heq (hno _ _ rfl)
    · rfl

/-- A path whose first step leads nowhere. -/
theorem followSteps_of_descend_none {s : Json} {k : Step} (h : descend s k = none)
    (rest : List Step) : followSteps s (k :: rest) = none := by
  cases rest with
  | nil => rw [followSteps_singleton, h, Option.map_none]
  | cons l rest => rw [followSteps_cons, h, Option.bind_none]

theorem advance_star (xs : List Json) (rest : List Step) :
    advance (.arr xs) (star :: rest) = some (expand xs rest) := rfl

/-- The recursion expands a wildcard after an array, and goes on as before otherwise. -/
theorem advance_cases (current : Json) (k : Step) (rest : List Step) :
    (∃ xs, current = .arr xs ∧ k = star ∧ advance current (k :: rest) = some (expand xs rest)) ∨
      advance current (k :: rest) = followSteps current (k :: rest) := by
  unfold advance
  split
  · next xs _ heq =>
    obtain ⟨rfl, rfl⟩ := List.cons.inj heq
    exact Or.inl ⟨xs, rfl, rfl, rfl⟩
  · exact Or.inr rfl

theorem advance_of_ne_star {k : Step} (h : k ≠ star) (current : Json) (rest : List Step) :
    advance current (k :: rest) = followSteps current (k :: rest) := by
  rcases advance_cases current k rest with ⟨_, -, hk, -⟩ | heq
  · exact absurd hk h
  · exact heq

/-! ### Arrays and the wildcard as a name -/

/-- `descend` keeps only what `read` finds. -/
theorem read_of_descend {s v : Json} {k : Step} (h : descend s k = some v) :
    read s k = some v ∧ v.present = true := by
  unfold descend at h
  obtain ⟨j, hj, hidx⟩ := Option.bind_eq_some_iff.mp h
  split at hidx
  · obtain ⟨hv, hp⟩ := Option.filter_eq_some_iff.mp hidx
    exact ⟨Option.bind_eq_some_iff.mpr ⟨j, hj, hv⟩, hp⟩
  · exact absurd hidx (by simp)

theorem isI_star : isI "*" = false := by decide

/-- The wildcard is no index, so it selects nothing from an array. -/
theorem descend_arr_star (xs : List Json) : descend (.arr xs) star = none := by
  have hidx : (Json.arr xs).index (cpath star) = none := by
    simp [cpath, isI_star, Json.index]
  simp [descend, hidx]

/-- An element of an array, by its number. -/
theorem descend_arr_nat (xs : List Json) (i : Nat) :
    descend (.arr xs) (.int i) = xs[i]?.filter Json.present := by
  have hidx : (Json.arr xs).index (cpath (.int i)) = xs[i]? := by
    simp [cpath, Json.index, Json.arrayAt_nat]
  unfold descend
  rw [load_arr, Option.bind_some, hidx]
  by_cases hp : (Json.arr xs).present = true
  · rw [if_pos hp]
  · have hnil : xs = [] := by simpa [Json.present] using hp
    subst hnil
    simp

/-! ### Walking without wildcards -/

/-- Follow the steps one by one, `'*'` being a member name like any other. -/
def walk : Json → List Step → Option Json
  | s, [] => some s
  | s, k :: rest => (descend s k).bind fun current => walk current rest

@[simp] theorem walk_nil (s : Json) : walk s [] = some s := rfl

theorem walk_cons (s : Json) (k : Step) (rest : List Step) :
    walk s (k :: rest) = (descend s k).bind fun current => walk current rest := rfl

theorem walk_append (s : Json) (p q : List Step) :
    walk s (p ++ q) = (walk s p).bind fun current => walk current q := by
  induction p generalizing s with
  | nil => rfl
  | cons k p ih =>
    rw [List.cons_append, walk_cons, walk_cons, Option.bind_assoc]
    congr 1
    funext current
    exact ih current

/-- A walk through an array takes an index next, never the wildcard. -/
theorem advance_of_walk {current v : Json} {k : Step} {rest : List Step}
    (h : walk current (k :: rest) = some v) (q : List Step) :
    advance current (k :: q) = followSteps current (k :: q) := by
  rcases advance_cases current k q with ⟨xs, rfl, rfl, -⟩ | heq
  · rw [walk_cons, descend_arr_star] at h
    exact absurd h (by simp)
  · exact heq

/-- **A longer path continues where a walk ends.** -/
theorem followSteps_append {s v : Json} {p q : List Step} (hp : p ≠ []) (hq : q ≠ [])
    (h : walk s p = some v) : followSteps s (p ++ q) = advance v q := by
  induction p generalizing s with
  | nil => exact absurd rfl hp
  | cons k p ih =>
    rw [walk_cons] at h
    obtain ⟨current, hcur, hwalk⟩ := Option.bind_eq_some_iff.mp h
    -- the wildcard, if the second part starts with one, is met at the end of the first
    obtain ⟨l, q', rfl⟩ := List.exists_cons_of_ne_nil hq
    cases p with
    | nil =>
      obtain rfl : current = v := Option.some.inj hwalk
      rw [List.singleton_append, followSteps_cons, hcur, Option.bind_some]
    | cons m p =>
      -- inside the first part a wildcard meets no array: the walk goes on past it
      rw [List.cons_append, List.cons_append, followSteps_cons, hcur, Option.bind_some,
        advance_of_walk hwalk]
      exact ih (by simp) hwalk

/-- **A path that can be walked yields the one value it leads to.** -/
theorem followSteps_of_walk {s v : Json} {p : List Step} (hp : p ≠ []) (h : walk s p = some v) :
    followSteps s p = some [v] := by
  induction p generalizing s with
  | nil => exact absurd rfl hp
  | cons k p ih =>
    rw [walk_cons] at h
    obtain ⟨current, hcur, hwalk⟩ := Option.bind_eq_some_iff.mp h
    cases p with
    | nil =>
      obtain rfl : current = v := Option.some.inj hwalk
      rw [followSteps_singleton, hcur, Option.map_some]
    | cons l p =>
      -- where the walk goes on, a wildcard is a name like any other
      rw [followSteps_cons, hcur, Option.bind_some, advance_of_walk hwalk]
      exact ih (by simp) hwalk

/-- **Where the recursion goes.** Either a wildcard meets an array, at a place that can be walked
to, or the whole path is walked as it stands. -/
theorem followSteps_cases (s : Json) (p : List Step) :
    (∃ q r xs, q ≠ [] ∧ p = q ++ star :: r ∧ walk s q = some (.arr xs) ∧
      followSteps s p = some (expand xs r)) ∨
    ((∀ q r xs, q ≠ [] → p = q ++ star :: r → walk s q ≠ some (.arr xs)) ∧
      (p ≠ [] → followSteps s p = (walk s p).map fun v => [v])) := by
  by_cases hsplit : ∃ q r xs, q ≠ [] ∧ p = q ++ star :: r ∧ walk s q = some (.arr xs)
  · obtain ⟨q, r, xs, hq, rfl, hwalk⟩ := hsplit
    refine Or.inl ⟨q, r, xs, hq, rfl, hwalk, ?_⟩
    rw [followSteps_append hq (by simp) hwalk, advance_star]
  · refine Or.inr ⟨fun q r xs hq hp hw => hsplit ⟨q, r, xs, hq, hp, hw⟩, ?_⟩
    -- no wildcard meets an array: the recursion is the walk, step by step
    induction p generalizing s with
    | nil => intro h; exact absurd rfl h
    | cons k p ih =>
      intro _
      cases p with
      | nil =>
        rw [followSteps_singleton, walk_cons]
        cases descend s k <;> rfl
      | cons l p =>
        rw [followSteps_cons, walk_cons]
        cases hcur : descend s k with
        | none => rfl
        | some current =>
          rw [Option.bind_some, Option.bind_some]
          have hwalk1 : walk s [k] = some current := by rw [walk_cons, hcur]; rfl
          have hadv : advance current (l :: p) = followSteps current (l :: p) := by
            rcases advance_cases current l p with ⟨xs, rfl, rfl, -⟩ | heq
            · exact absurd ⟨[k], p, xs, by simp, rfl, hwalk1⟩ hsplit
            · exact heq
          rw [hadv]
          refine ih current ?_ (by simp)
          rintro ⟨q, r, xs, hq, hp, hw⟩
          refine hsplit ⟨k :: q, r, xs, by simp, by rw [hp, List.cons_append], ?_⟩
          rw [walk_cons, hcur, Option.bind_some, hw]

/-- A path that meets no wildcard yields one value at most. -/
theorem followSteps_eq_walk {s : Json} {p : List Step} (hp : p ≠ [])
    (h : ∀ q r xs, q ≠ [] → p = q ++ star :: r → walk s q ≠ some (.arr xs)) :
    followSteps s p = (walk s p).map fun v => [v] := by
  rcases followSteps_cases s p with ⟨q, r, xs, hq, hp', hw, -⟩ | ⟨-, heq⟩
  · exact absurd hw (h q r xs hq hp')
  · exact heq hp

end Collection
end Curarium
