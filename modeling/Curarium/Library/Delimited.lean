import Mathlib.Data.List.Basic

/-!
# Delimited texts

Splitting a list at a delimiter, over an arbitrary type:

* `splitOn_intercalate_flatMap` — a joined list splits into the pieces of what was joined;
* `notMem_of_mem_splitOn`, `mem_of_mem_splitOn` — a piece is free of the delimiter, and has nothing that
  the whole has not;
* `splitOn_map` — a renaming that respects the delimiter renames the pieces.
-/

namespace Curarium
namespace Delimited

variable {α : Type*} [DecidableEq α] {x : α}

theorem splitOn_cons_self (xs : List α) : (x :: xs).splitOn x = [] :: xs.splitOn x := by
  rw [List.splitOn_cons_eq_if_modifyHead, if_pos (beq_self_eq_true x)]

theorem splitOn_cons_ne {c : α} (hc : c ≠ x) (xs : List α) :
    (c :: xs).splitOn x = (xs.splitOn x).modifyHead (c :: ·) := by
  rw [List.splitOn_cons_eq_if_modifyHead, if_neg (by simpa using hc)]

/-- There is a first piece. -/
theorem exists_splitOn_cons (xs : List α) : ∃ w ws, xs.splitOn x = w :: ws :=
  List.exists_cons_of_ne_nil (List.splitOn_ne_nil x xs)

/-- Nothing of the whole is in a piece but what is in the whole, and the delimiter is in none. -/
theorem ne_and_mem_of_mem_splitOn {xs w : List α} (hw : w ∈ xs.splitOn x) {c : α} (hc : c ∈ w) :
    c ≠ x ∧ c ∈ xs := by
  induction xs generalizing w with
  | nil =>
    rw [List.splitOn_nil, List.mem_singleton] at hw
    exact absurd (hw ▸ hc) List.not_mem_nil
  | cons d xs ih =>
    by_cases hd : d = x
    · rw [hd, splitOn_cons_self] at hw
      rcases List.mem_cons.mp hw with rfl | hw
      · exact absurd hc List.not_mem_nil
      · exact ⟨(ih hw hc).1, List.mem_cons_of_mem _ (ih hw hc).2⟩
    · obtain ⟨v, vs, hsplit⟩ := exists_splitOn_cons (x := x) xs
      rw [splitOn_cons_ne hd, hsplit, List.modifyHead_cons, List.mem_cons] at hw
      rcases hw with rfl | hw
      · rcases List.mem_cons.mp hc with rfl | hc
        · exact ⟨hd, List.mem_cons_self⟩
        · obtain ⟨hne, hmem⟩ := ih (hsplit ▸ List.mem_cons_self) hc
          exact ⟨hne, List.mem_cons_of_mem _ hmem⟩
      · obtain ⟨hne, hmem⟩ := ih (hsplit ▸ List.mem_cons_of_mem _ hw) hc
        exact ⟨hne, List.mem_cons_of_mem _ hmem⟩

theorem notMem_of_mem_splitOn {xs w : List α} (hw : w ∈ xs.splitOn x) : x ∉ w :=
  fun hx => (ne_and_mem_of_mem_splitOn hw hx).1 rfl

theorem mem_of_mem_splitOn {xs w : List α} (hw : w ∈ xs.splitOn x) {c : α} (hc : c ∈ w) : c ∈ xs :=
  (ne_and_mem_of_mem_splitOn hw hc).2

theorem splitOn_append_of_notMem {n : List α} (hn : x ∉ n) (t : List α) :
    (n ++ t).splitOn x = (t.splitOn x).modifyHead (n ++ ·) := by
  induction n with
  | nil => exact (congrFun List.modifyHead_id (t.splitOn x)).symm
  | cons c n ih =>
    rw [List.mem_cons, not_or] at hn
    rw [List.cons_append, splitOn_cons_ne (Ne.symm hn.1), ih hn.2, List.modifyHead_modifyHead]
    rfl

/-- **A joined list splits** into the pieces of what was joined. -/
theorem splitOn_intercalate_flatMap {ls : List (List α)} (hls : ls ≠ []) :
    ([x].intercalate ls).splitOn x = ls.flatMap (List.splitOn x) := by
  induction ls with
  | nil => exact absurd rfl hls
  | cons l ls ih =>
    cases ls with
    | nil => rw [List.intercalate_singleton, List.flatMap_singleton]
    | cons l' ls =>
      rw [List.intercalate_cons_cons, List.flatMap_cons, ← ih (List.cons_ne_nil _ _), List.append_assoc,
        List.singleton_append, List.splitOn_append_cons_self]

/-- A renaming that leaves the delimiter alone, and makes nothing else into it. -/
theorem splitOn_map {f : α → α} (hf : ∀ c, f c = x ↔ c = x) (xs : List α) :
    (xs.map f).splitOn x = (xs.splitOn x).map (List.map f) := by
  induction xs with
  | nil => rfl
  | cons c xs ih =>
    rw [List.map_cons]
    by_cases hc : c = x
    · rw [(hf c).mpr hc, hc, splitOn_cons_self, splitOn_cons_self, ih, List.map_cons, List.map_nil]
    · obtain ⟨w, ws, hsplit⟩ := exists_splitOn_cons (x := x) xs
      rw [splitOn_cons_ne (mt (hf c).mp hc), splitOn_cons_ne hc, ih, hsplit]
      rfl

end Delimited
end Curarium
