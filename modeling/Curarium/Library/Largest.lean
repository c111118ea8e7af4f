import Curarium.Library.Weights
import Mathlib.Order.Defs.PartialOrder

/-!
# The largest entries of a list

The last entries of a list in ascending order are its largest ones. In descending order, the first of
them is a largest entry of the whole list (`Largest.le_head`), and if the list has no more entries than
were asked for, nothing is missing (`Largest.weight_eq`).
-/

namespace Curarium

variable {α β : Type*} [Preorder β]

/-- The `k` largest entries of a list, in descending order. -/
structure Largest (key : α → β) (k : Nat) (l kept : List α) : Prop where
  length : kept.length = min k l.length
  descending : kept.Pairwise fun a b => key b ≤ key a
  /-- What is left out is no larger than what is kept. -/
  omitted : ∃ rest, l.Perm (rest ++ kept) ∧ ∀ a ∈ rest, ∀ b ∈ kept, key a ≤ key b

variable {key : α → β} {k : Nat} {l kept : List α}

/-- **The end of the list in ascending order.** -/
theorem largest_of_ascending {sorted : List α} (hperm : sorted.Perm l)
    (hsorted : sorted.Pairwise fun a b => key a ≤ key b) :
    Largest key k l (sorted.drop (sorted.length - k)).reverse where
  length := by
    rw [List.length_reverse, List.length_drop, hperm.length_eq]
    omega
  descending := by
    rw [List.pairwise_reverse]
    exact hsorted.drop
  omitted := by
    have hsplit := List.take_append_drop (sorted.length - k) sorted
    have hparts := hsorted
    rw [← hsplit, List.pairwise_append] at hparts
    refine ⟨sorted.take (sorted.length - k), ?_, fun a ha b hb => ?_⟩
    · -- the list is the two parts of the sorted one, with the second turned round
      have hall : l.Perm (sorted.take (sorted.length - k) ++ sorted.drop (sorted.length - k)) := by
        rw [hsplit]
        exact hperm.symm
      exact hall.trans (List.Perm.append_left _ (List.reverse_perm _).symm)
    · exact hparts.2.2 a ha b (List.mem_reverse.mp hb)

namespace Largest

/-- **The first one** is a largest entry of the whole list. -/
theorem le_head {b : α} (h : Largest key k l kept) (hb : kept.head? = some b) :
    b ∈ l ∧ ∀ a ∈ l, key a ≤ key b := by
  obtain ⟨rest, hperm, hrest⟩ := h.omitted
  obtain ⟨tail, rfl⟩ := List.head?_eq_some_iff.mp hb
  refine ⟨hperm.mem_iff.mpr (List.mem_append_right _ List.mem_cons_self), fun a ha => ?_⟩
  rcases List.mem_append.mp (hperm.mem_iff.mp ha) with hleft | hkept
  · exact hrest a hleft b List.mem_cons_self
  · rcases List.mem_cons.mp hkept with rfl | htail
    · exact le_refl _
    · exact List.rel_of_pairwise_cons h.descending htail

theorem weight_le (h : Largest key k l kept) (m : α → Nat) : weight m kept ≤ weight m l := by
  obtain ⟨rest, hperm, -⟩ := h.omitted
  rw [weight_perm hperm, weight_append]
  exact Nat.le_add_left _ _

/-- **Nothing is missing** of a list with no more entries than were asked for. -/
theorem weight_eq (h : Largest key k l kept) (hk : l.length ≤ k) (m : α → Nat) :
    weight m kept = weight m l := by
  obtain ⟨rest, hperm, -⟩ := h.omitted
  have hrest : rest = [] := by
    have hlength := hperm.length_eq
    rw [List.length_append, h.length] at hlength
    exact List.length_eq_zero_iff.mp (by omega)
  rw [weight_perm hperm, hrest, List.nil_append]

end Largest
end Curarium
