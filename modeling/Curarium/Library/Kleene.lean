import Mathlib.Data.List.Basic

/-!
# Three truth values

Truth values with an unknown one (`none`), and the strong Kleene connectives. Where rows are
selected by a condition being true, a conjunction selects what all its members do (`all_eq_true`),
but the negation of a disjunction only selects where every member is false, and not where it is
unknown (`not_any_eq_true`). Comparisons of values that may be missing are `eq` and `mem`.
-/

namespace Curarium
namespace Kleene

def not (a : Option Bool) : Option Bool := a.map (! ·)

def and : Option Bool → Option Bool → Option Bool
  | some false, _ => some false
  | _, some false => some false
  | some true, b => b
  | none, _ => none

def or (a b : Option Bool) : Option Bool := not (and (not a) (not b))

/-- The conjunction of a list with a first member. -/
def all (a : Option Bool) : List (Option Bool) → Option Bool
  | [] => a
  | b :: bs => and a (all b bs)

/-- The disjunction of a list with a first member. -/
def any (a : Option Bool) : List (Option Bool) → Option Bool
  | [] => a
  | b :: bs => or a (any b bs)

/-- The comparison of two values, unknown where one is missing. -/
def eq {α : Type*} [DecidableEq α] (a b : Option α) : Option Bool :=
  a.bind fun x => b.map fun y => decide (x = y)

/-- The search for a value among others, some of which may be missing. -/
def mem {α : Type*} [DecidableEq α] (a : Option α) (bs : List (Option α)) : Option Bool :=
  bs.foldr (fun b found => or (eq a b) found) (some false)

theorem not_not (a : Option Bool) : not (not a) = a := by
  rcases a with _ | _ | _
  · rfl
  · rfl
  · rfl

theorem not_eq_true {a : Option Bool} : not a = some true ↔ a = some false := by
  rcases a with _ | _ | _ <;> simp [not]

theorem and_eq_true {a b : Option Bool} : and a b = some true ↔ a = some true ∧ b = some true := by
  rcases a with _ | _ | _ <;> rcases b with _ | _ | _ <;> simp [and]

theorem or_eq_true {a b : Option Bool} : or a b = some true ↔ a = some true ∨ b = some true := by
  rcases a with _ | _ | _ <;> rcases b with _ | _ | _ <;> simp [or, and, not]

theorem eq_eq_true {α : Type*} [DecidableEq α] {a b : Option α} :
    eq a b = some true ↔ ∃ x, a = some x ∧ b = some x := by
  rcases a with _ | x <;> rcases b with _ | y <;> simp [eq, eq_comm]

/-- **A value is found** where one of the others is it; a missing one among them changes nothing. -/
theorem mem_eq_true {α : Type*} [DecidableEq α] {a : Option α} {bs : List (Option α)} :
    mem a bs = some true ↔ ∃ x, a = some x ∧ some x ∈ bs := by
  induction bs with
  | nil => simp [mem]
  | cons b bs ih =>
    rw [mem, List.foldr_cons, or_eq_true, eq_eq_true]
    change _ ∨ mem a bs = some true ↔ _
    rw [ih, ← exists_or]
    refine exists_congr fun x => ?_
    rw [← and_or_left, List.mem_cons, @eq_comm _ (some x) b]

theorem not_or_eq_true {a b : Option Bool} :
    not (or a b) = some true ↔ a = some false ∧ b = some false := by
  rw [or, not_not, and_eq_true, not_eq_true, not_eq_true]

/-- **A conjunction is true** where all its members are. -/
theorem all_eq_true {a : Option Bool} {bs : List (Option Bool)} :
    all a bs = some true ↔ ∀ b ∈ a :: bs, b = some true := by
  induction bs generalizing a with
  | nil => rw [all, List.forall_mem_singleton]
  | cons b bs ih =>
    rw [all, and_eq_true, ih]
    exact (List.forall_mem_cons (p := (· = some true))).symm

/-- **The negation of a disjunction is true** where all its members are false. -/
theorem not_any_eq_true {a : Option Bool} {bs : List (Option Bool)} :
    not (any a bs) = some true ↔ ∀ b ∈ a :: bs, b = some false := by
  induction bs generalizing a with
  | nil => rw [any, not_eq_true, List.forall_mem_singleton]
  | cons b bs ih =>
    rw [any, not_or_eq_true, ← not_eq_true (a := any b bs), ih]
    exact (List.forall_mem_cons (p := (· = some false))).symm

end Kleene
end Curarium
