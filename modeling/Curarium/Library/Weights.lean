import Mathlib.Algebra.Ring.Nat
import Mathlib.Data.List.Perm.Basic

/-!
# Weights of lists

The sum of a weight over the elements of a list. Two lists that are permutations of each other
have the same total for any weight; so if two weights have the same total over a list and one is
never above the other, they are the same for each element (`eq_of_weight_le`). This is how a loss at
one element is shown not to be made up for at another.
-/

namespace Curarium

variable {α β : Type*}

/-- The sum of a weight over a list. -/
def weight (m : α → Nat) : List α → Nat
  | [] => 0
  | a :: l => m a + weight m l

variable (m m' : α → Nat)

@[simp] theorem weight_nil : weight m [] = 0 := rfl

@[simp] theorem weight_cons (a : α) (l : List α) : weight m (a :: l) = m a + weight m l := rfl

@[simp] theorem weight_append (l l' : List α) : weight m (l ++ l') = weight m l + weight m l' := by
  induction l with
  | nil => rw [List.nil_append, weight_nil, Nat.zero_add]
  | cons a l ih => rw [List.cons_append, weight_cons, weight_cons, ih, Nat.add_assoc]

theorem weight_map (f : β → α) (l : List β) : weight m (l.map f) = weight (fun b => m (f b)) l := by
  induction l with
  | nil => rfl
  | cons b l ih => rw [List.map_cons, weight_cons, weight_cons, ih]

theorem weight_flatMap (f : β → List α) (l : List β) :
    weight m (l.flatMap f) = weight (fun b => weight m (f b)) l := by
  induction l with
  | nil => rfl
  | cons b l ih => rw [List.flatMap_cons, weight_append, weight_cons, ih]

theorem weight_filter_add (p : α → Bool) (l : List α) :
    weight m (l.filter p) + weight m (l.filter fun a => !p a) = weight m l := by
  induction l with
  | nil => rfl
  | cons a l ih =>
    cases hp : p a with
    | true =>
      rw [List.filter_cons_of_pos hp, List.filter_cons_of_neg (by simp [hp]), weight_cons, weight_cons,
        Nat.add_assoc, ih]
    | false =>
      rw [List.filter_cons_of_neg (by simp [hp]), List.filter_cons_of_pos (by simp [hp]), weight_cons,
        weight_cons, Nat.add_left_comm, ih]

theorem weight_add (l : List α) : weight (fun a => m a + m' a) l = weight m l + weight m' l := by
  induction l with
  | nil => rfl
  | cons a l ih =>
    rw [weight_cons, weight_cons, weight_cons, ih]
    omega

theorem weight_eq_sum (l : List α) : weight m l = (l.map m).sum := by
  induction l with
  | nil => rfl
  | cons a l ih => rw [weight_cons, ih, List.map_cons, List.sum_cons]

variable {m m'}

theorem weight_congr {l : List α} (h : ∀ a ∈ l, m a = m' a) : weight m l = weight m' l := by
  induction l with
  | nil => rfl
  | cons a l ih =>
    rw [weight_cons, weight_cons, h a List.mem_cons_self, ih fun b hb => h b (List.mem_cons_of_mem _ hb)]

theorem weight_perm {l l' : List α} (h : l.Perm l') : weight m l = weight m l' := by
  induction h with
  | nil => rfl
  | cons a _ ih => rw [weight_cons, weight_cons, ih]
  | swap a b l =>
    simp only [weight_cons]
    omega
  | trans _ _ ih ih' => exact ih.trans ih'

theorem weight_sublist {l l' : List α} (h : l.Sublist l') : weight m l ≤ weight m l' := by
  induction h with
  | slnil => exact le_refl 0
  | cons a _ ih => exact Nat.le_trans ih (Nat.le_add_left _ _)
  | cons_cons a _ ih => exact Nat.add_le_add_left ih _

theorem weight_subperm {l l' : List α} (h : l.Subperm l') : weight m l ≤ weight m l' := by
  obtain ⟨k, hperm, hsub⟩ := h
  rw [← weight_perm hperm]
  exact weight_sublist hsub

theorem weight_le {l : List α} (h : ∀ a ∈ l, m a ≤ m' a) : weight m l ≤ weight m' l := by
  induction l with
  | nil => exact Nat.le_refl 0
  | cons a l ih =>
    have hl := ih fun b hb => h b (List.mem_cons_of_mem _ hb)
    exact Nat.add_le_add (h a List.mem_cons_self) hl

/-- **No element makes up for another**: with equal totals, weights of which one is never above the
other are equal. -/
theorem eq_of_weight_le {l : List α} (h : ∀ a ∈ l, m a ≤ m' a) (htotal : weight m' l ≤ weight m l) :
    ∀ a ∈ l, m a = m' a := by
  induction l with
  | nil => exact List.forall_mem_nil _
  | cons a l ih =>
    have hl : ∀ b ∈ l, m b ≤ m' b := fun b hb => h b (List.mem_cons_of_mem _ hb)
    have ha := h a List.mem_cons_self
    have hle := weight_le hl
    rw [weight_cons, weight_cons] at htotal
    refine List.forall_mem_cons.mpr ⟨?_, ih hl ?_⟩
    · omega
    · omega

end Curarium
