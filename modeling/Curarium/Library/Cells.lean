import Mathlib.Data.List.Induction

/-!
# Cells with optional writes

A cell holds a value; a write replaces it or leaves it as it is (`none`). After any number of
writes the cell holds the last value written (`run_eq`), so a further write hides what came
before it exactly when it writes, or when the value it finds is the initial one anyway
(`put_run_eq_iff`).
-/

namespace Curarium
namespace Cells

variable {α : Type*}

/-- A cell after one write. -/
def put (c : α) (w : Option α) : α := w.getD c

/-- A cell after several writes, the first one first. -/
def run (c : α) (ws : List (Option α)) : α := ws.foldl put c

/-- The value that was written last. -/
def last (ws : List (Option α)) : Option α := (ws.filterMap id).getLast?

@[simp] theorem run_nil (c : α) : run c [] = c := rfl

theorem run_append (c : α) (ws vs : List (Option α)) : run c (ws ++ vs) = run (run c ws) vs :=
  List.foldl_append

/-- **A cell holds the value written last**, or its initial one. -/
theorem run_eq (c : α) (ws : List (Option α)) : run c ws = (last ws).getD c := by
  induction ws using List.reverseRecOn with
  | nil => rfl
  | append_singleton ws w ih =>
    rw [run_append, ih, last, last, List.filterMap_append]
    cases w with
    | none => simp [run, put]
    | some v => simp [run, put]

/-- **What a write hides.** After it the cell is as if nothing had come before exactly when it
writes, or when the last value before it was the initial one. -/
theorem put_run_eq_iff (c : α) (ws : List (Option α)) (w : Option α) :
    put (run c ws) w = put c w ↔ w.isSome = true ∨ ∀ v ∈ last ws, v = c := by
  cases w with
  | some v => simp [put]
  | none =>
    rw [run_eq]
    cases h : last ws with
    | none => simp [put]
    | some u => simp [put]

end Cells
end Curarium
