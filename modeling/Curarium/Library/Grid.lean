import Mathlib.Algebra.Order.Floor.Ring
import Mathlib.Algebra.Order.Archimedean.Basic
import Mathlib.Analysis.Real.Sqrt
import Mathlib.Tactic.Ring

/-!
# Square grids

Items laid out row by row on a square grid with as few columns as it can have.

* `ceilSqrt` — the number of columns; it is the ceiling of the square root (`ceilSqrt_eq_ceil`), and
  the grid has a cell for every item (`le_ceilSqrt_mul_self`).
* `index_eq_iff` — the item of a cell, and the cell of an item.
* `exists_cell` — a point on the grid is in one of its cells.
-/

namespace Curarium
namespace Grid

/-- The side of the smallest square with at least `n` cells. -/
def ceilSqrt (n : ℕ) : ℕ := if n.sqrt * n.sqrt = n then n.sqrt else n.sqrt + 1

theorem ceilSqrt_le_iff {n e : ℕ} : ceilSqrt n ≤ e ↔ n ≤ e * e := by
  unfold ceilSqrt
  split
  case isTrue h =>
    calc n.sqrt ≤ e
        ↔ n.sqrt * n.sqrt ≤ e * e := Nat.mul_self_le_mul_self_iff.symm
      _ ↔ n ≤ e * e := by rw [h]
  case isFalse h =>
    have hne : n ≠ e * e := by
      rintro rfl
      exact h (by rw [Nat.sqrt_eq])
    calc n.sqrt + 1 ≤ e
        ↔ n < e * e := Nat.sqrt_lt
      _ ↔ n ≤ e * e := ⟨le_of_lt, fun hle => lt_of_le_of_ne hle hne⟩

theorem le_ceilSqrt_mul_self (n : ℕ) : n ≤ ceilSqrt n * ceilSqrt n := ceilSqrt_le_iff.mp le_rfl

theorem ceilSqrt_eq_ceil (n : ℕ) : ceilSqrt n = ⌈√(n : ℝ)⌉₊ := by
  refine eq_of_forall_ge_iff fun e => ?_
  rw [ceilSqrt_le_iff, Nat.ceil_le, Real.sqrt_le_left (Nat.cast_nonneg e), sq]
  exact_mod_cast Iff.rfl

theorem ceilSqrt_pos {n : ℕ} (hn : 0 < n) : 0 < ceilSqrt n := by
  rw [Nat.pos_iff_ne_zero]
  intro h
  exact hn.not_ge (ceilSqrt_le_iff.mp h.le)

/-- **The item of a cell**, counted row by row, and the cell of an item. -/
theorem index_eq_iff {d row column k : ℕ} (hcolumn : column < d) :
    row * d + column = k ↔ row = k / d ∧ column = k % d := by
  have hd : 0 < d := Nat.zero_lt_of_lt hcolumn
  constructor
  · rintro rfl
    obtain ⟨hdiv, hmod⟩ := (Nat.div_mod_unique hd).mpr ⟨(by ring : column + d * row = row * d + column), hcolumn⟩
    exact ⟨hdiv.symm, hmod.symm⟩
  · rintro ⟨rfl, rfl⟩
    exact Nat.div_add_mod' k d

section Points

/-- The coordinates of a point are of a field. -/
abbrev Coordinates (K : Type*) := Field K

variable {K : Type*} [Coordinates K] [LinearOrder K] [IsStrictOrderedRing K] [FloorRing K]

/-- A point on a line of `d` cells of a size is in one of the cells. -/
theorem exists_cell {size x : K} {d : ℕ} (hsize : 0 < size) (hx : 0 ≤ x) (hd : x < size * d) :
    ∃ c : ℕ, c < d ∧ ⌊x / size⌋ = c := by
  have hnonneg : 0 ≤ ⌊x / size⌋ := Int.floor_nonneg.mpr (div_nonneg hx hsize.le)
  obtain ⟨c, hc⟩ := Int.eq_ofNat_of_zero_le hnonneg
  refine ⟨c, ?_, hc⟩
  have hlt : ⌊x / size⌋ < (d : ℤ) := by
    rw [Int.floor_lt, div_lt_iff₀ hsize, mul_comm]
    exact_mod_cast hd
  rw [hc] at hlt
  exact_mod_cast hlt

/-- The corner of a cell is in the cell. -/
theorem floor_corner {size : K} (hsize : 0 < size) (c : ℕ) : ⌊size * c / size⌋ = c := by
  rw [mul_div_cancel_left₀ _ hsize.ne']
  exact Int.floor_natCast c

end Points

end Grid
end Curarium
