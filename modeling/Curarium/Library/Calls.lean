import Mathlib.Data.Sum.Basic

/-!
# Tail calls

A recursion that ends each call with a result or with another call. `calls n` is what it returns within
`n` calls, and `none` if that is not enough. Where every call lowers a measure, one call more than the
measure of the arguments is enough (`calls_eq_some`), and the result is that of any function with the
same equations.
-/

namespace Curarium

variable {S R : Type*} (next : S → R ⊕ S)

/-- The result within so many calls. -/
def calls : Nat → S → Option R
  | 0, _ => none
  | n + 1, s =>
    match next s with
    | .inl r => some r
    | .inr t => calls n t

variable {next}

theorem calls_done {s : S} {r : R} (h : next s = .inl r) (n : Nat) : calls next (n + 1) s = some r := by
  rw [calls, h]

theorem calls_again {s t : S} (h : next s = .inr t) (n : Nat) : calls next (n + 1) s = calls next n t := by
  rw [calls, h]

/-- A result does not change with more calls. -/
theorem calls_mono {n m : Nat} {s : S} {r : R} (h : calls next n s = some r) (hle : n ≤ m) :
    calls next m s = some r := by
  induction n generalizing m s with
  | zero => exact absurd h (by simp [calls])
  | succ n ih =>
    obtain ⟨m, rfl⟩ : ∃ k, m = k + 1 := ⟨m - 1, by omega⟩
    -- both bounds allow the first call
    cases hs : next s with
    | inl r' =>
      rw [calls_done hs] at h ⊢
      exact h
    | inr t =>
      rw [calls_again hs] at h ⊢
      exact ih h (Nat.le_of_succ_le_succ hle)

/-- **Where every call lowers a measure**, the recursion ends, with the result of a function that has
its equations. -/
theorem calls_eq_some {measure : S → Nat} {f : S → R} (hdone : ∀ s r, next s = .inl r → f s = r)
    (hagain : ∀ s t, next s = .inr t → f s = f t ∧ measure t < measure s) {n : Nat} {s : S}
    (hn : measure s < n) : calls next n s = some (f s) := by
  induction n generalizing s with
  | zero => exact absurd hn (Nat.not_lt_zero _)
  | succ n ih =>
    cases hs : next s with
    | inl r => rw [calls_done hs, hdone s r hs]
    | inr t =>
      obtain ⟨hf, hlower⟩ := hagain s t hs
      rw [calls_again hs, hf, ih (by omega)]

/-- What it returns within any number of calls is what it returns. -/
theorem exists_calls_iff {measure : S → Nat} {f : S → R} (hdone : ∀ s r, next s = .inl r → f s = r)
    (hagain : ∀ s t, next s = .inr t → f s = f t ∧ measure t < measure s) {s : S} {r : R} :
    (∃ n, calls next n s = some r) ↔ f s = r := by
  have henough := calls_eq_some hdone hagain (Nat.lt_succ_self (measure s))
  constructor
  · rintro ⟨n, hn⟩
    -- with enough calls for both, both are the result
    have hboth := calls_mono hn (Nat.le_max_left n (measure s + 1))
    rw [calls_mono henough (Nat.le_max_right n (measure s + 1))] at hboth
    exact Option.some.inj hboth
  · rintro rfl
    exact ⟨_, henough⟩

end Curarium
