import Mathlib.Data.List.Basic
import Mathlib.Algebra.Order.Floor.Div
import Mathlib.Tactic.Common

/-!
# Pages of a list

A list read in windows of `k` entries. The first windows together are the beginning of the list
(`flatMap_window`), and the `n ⌈/⌉ k` windows that a list of `n` entries has are the whole of it
(`flatMap_window_ceilDiv`).

Where the entries have ascending numbers, a window tells numbers from positions: what is among the next
numbers is among the next entries (`mem_window`), and the other way round if no number is left out
(`key_lt_of_mem_take`).
-/

namespace Curarium
namespace Pages

variable {α : Type*} {k n i : Nat}

/-- The entries after `i` full windows, one window of them. -/
def window (k i : Nat) (l : List α) : List α := (l.drop (i * k)).take k

theorem offset_lt (hk : 0 < k) (h : i < n ⌈/⌉ k) : i * k < n := by
  by_contra hle
  have hmul : n ≤ k * i := by rw [Nat.mul_comm]; exact Nat.le_of_not_lt hle
  have hceil : n ⌈/⌉ k ≤ i := (ceilDiv_le_iff_le_mul hk).mpr hmul
  exact absurd h (Nat.not_lt.mpr hceil)

theorem flatMap_window (l : List α) (k m : Nat) :
    (List.range m).flatMap (fun i => window k i l) = l.take (m * k) := by
  induction m with
  | zero => simp
  | succ m ih =>
    rw [List.range_succ, List.flatMap_append, ih, List.flatMap_singleton, window, Nat.succ_mul,
      List.take_add]

/-- **All the windows of a list** are the list. -/
theorem flatMap_window_ceilDiv (l : List α) (hk : 0 < k) :
    (List.range (l.length ⌈/⌉ k)).flatMap (fun i => window k i l) = l := by
  rw [flatMap_window]
  refine List.take_of_length_le ?_
  rw [Nat.mul_comm]
  exact (ceilDiv_le_iff_le_mul hk).mp le_rfl

/-- Every window before the last is full. -/
theorem length_window (l : List α) (hk : 0 < k) (h : i + 1 < l.length ⌈/⌉ k) :
    (window k i l).length = k := by
  have hnext : (i + 1) * k < l.length := offset_lt hk h
  rw [window, List.length_take, List.length_drop]
  rw [Nat.succ_mul] at hnext
  omega

/-! ### Ascending numbers -/

section Ascending

variable {key : α → Nat} {l : List α} {a : Nat} {x : α}

/-- Ascending numbers are at least their positions. -/
theorem le_key_getElem (hl : l.Pairwise fun x y => key x < key y) (h : i < l.length) : i ≤ key l[i] := by
  induction i with
  | zero => exact Nat.zero_le _
  | succ i ih =>
    have hlt : key l[i] < key l[i + 1] := List.pairwise_iff_getElem.mp hl i (i + 1) _ h (Nat.lt_succ_self i)
    exact Nat.lt_of_le_of_lt (ih (Nat.lt_of_succ_lt h)) hlt

/-- The entries before a number come first, and the others after them. -/
theorem mem_drop_countP (hl : l.Pairwise fun x y => key x < key y) :
    x ∈ l.drop (l.countP fun y => key y < a) ↔ x ∈ l ∧ a ≤ key x := by
  induction l with
  | nil => simp
  | cons y l ih =>
    obtain ⟨hy, hl⟩ := List.pairwise_cons.mp hl
    by_cases hlt : key y < a
    · have hcount : (y :: l).countP (fun z => key z < a) = l.countP (fun z => key z < a) + 1 :=
        List.countP_cons_of_pos (by simpa using hlt)
      rw [hcount, List.drop_succ_cons, ih hl, List.mem_cons]
      refine and_congr_left fun hle => (or_iff_right ?_).symm
      rintro rfl
      exact absurd hle (Nat.not_le.mpr hlt)
    · -- all the entries are left
      have hall : ∀ z ∈ y :: l, a ≤ key z := by
        rw [List.forall_mem_cons]
        exact ⟨Nat.le_of_not_lt hlt, fun z hz => Nat.le_trans (Nat.le_of_not_lt hlt) (Nat.le_of_lt (hy z hz))⟩
      have hzero : (y :: l).countP (fun z => key z < a) = 0 := by
        rw [List.countP_eq_zero]
        intro z hz hza
        exact absurd (of_decide_eq_true hza) (Nat.not_lt.mpr (hall z hz))
      rw [hzero, List.drop_zero]
      exact ⟨fun hx => ⟨hx, hall x hx⟩, And.left⟩

theorem countP_getElem (hl : l.Pairwise fun x y => key x < key y) (h : i < l.length) :
    l.countP (fun y => key y < key l[i]) = i := by
  induction l generalizing i with
  | nil => exact absurd h (Nat.not_lt_zero i)
  | cons y l ih =>
    obtain ⟨hy, hl⟩ := List.pairwise_cons.mp hl
    cases i with
    | zero =>
      rw [List.countP_eq_zero, List.getElem_cons_zero, List.forall_mem_cons]
      refine ⟨by simp, fun z hz hlt => ?_⟩
      exact absurd (of_decide_eq_true hlt) (Nat.lt_asymm (hy z hz))
    | succ i =>
      rw [List.length_cons, Nat.succ_lt_succ_iff] at h
      have hlt : key y < key l[i] := hy _ (List.getElem_mem h)
      have hcount : (y :: l).countP (fun z => key z < key l[i]) = l.countP (fun z => key z < key l[i]) + 1 :=
        List.countP_cons_of_pos (by simpa using hlt)
      rw [List.getElem_cons_succ, hcount, ih hl h]

/-- What is among the next numbers is among the next entries. -/
theorem mem_take_of_key_lt (hl : l.Pairwise fun x y => key x < key y) (ha : ∀ y ∈ l, a ≤ key y) (hx : x ∈ l)
    (hlt : key x < a + n) : x ∈ l.take n := by
  induction n generalizing a l with
  | zero => exact absurd (ha x hx) (Nat.not_le.mpr hlt)
  | succ n ih =>
    cases l with
    | nil => exact absurd hx List.not_mem_nil
    | cons y l =>
      obtain ⟨hy, hl⟩ := List.pairwise_cons.mp hl
      rw [List.take_succ_cons, List.mem_cons]
      refine (List.mem_cons.mp hx).imp_right fun hx => ih (a := a + 1) hl (fun z hz => ?_) hx ?_
      · exact Nat.lt_of_le_of_lt (ha y List.mem_cons_self) (hy z hz)
      · omega

/-- **What is among the next numbers** after an entry is among the next entries. -/
theorem mem_window (hl : l.Pairwise fun x y => key x < key y) (h : i < l.length) (hx : x ∈ l)
    (hle : key l[i] ≤ key x) (hlt : key x < key l[i] + n) : x ∈ (l.drop i).take n := by
  have hdrop : ∀ y, y ∈ l.drop i ↔ y ∈ l ∧ key l[i] ≤ key y := by
    intro y
    have hmem := mem_drop_countP (x := y) (a := key l[i]) hl
    rwa [countP_getElem hl h] at hmem
  refine mem_take_of_key_lt (hl.sublist (List.drop_sublist i l)) (fun y hy => ?_) ((hdrop x).mpr ⟨hx, hle⟩) hlt
  exact ((hdrop y).mp hy).2

/-- **Where no number is left out**, the next entries have the next numbers. -/
theorem key_lt_of_mem_take (hl : l.Pairwise fun x y => key x < key y) (ha : ∀ y ∈ l, a ≤ key y)
    (hall : ∀ m, a ≤ m → m < a + n → ∃ y ∈ l, key y = m) (hx : x ∈ l.take n) : key x < a + n := by
  induction n generalizing a l with
  | zero => exact absurd hx (by simp)
  | succ n ih =>
    cases l with
    | nil => exact absurd hx (by simp)
    | cons y l =>
      obtain ⟨hy, hl⟩ := List.pairwise_cons.mp hl
      -- the first of the numbers is that of the first entry
      have hfirst : key y = a := by
        obtain ⟨z, hz, hza⟩ := hall a (Nat.le_refl a) (by omega)
        have hle := ha y List.mem_cons_self
        rcases List.mem_cons.mp hz with rfl | hz
        · exact hza
        · exact absurd (hy z hz) (by omega)
      rw [List.take_succ_cons, List.mem_cons] at hx
      rcases hx with rfl | hx
      · omega
      · have hlt := ih (a := a + 1) hl (fun z hz => hfirst ▸ hy z hz) (fun m hm hlt => ?_) hx
        · omega
        · obtain ⟨z, hz, hzm⟩ := hall m (Nat.le_of_succ_le hm) (by omega)
          rcases List.mem_cons.mp hz with rfl | hz
          · omega
          · exact ⟨z, hz, hzm⟩

end Ascending

end Pages
end Curarium
