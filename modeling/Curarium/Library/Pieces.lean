import Mathlib.Data.List.Basic
import Mathlib.Data.List.Infix

/-!
# Cutting a list at a separator

`pieces sep l` are the parts of a list between the occurrences of a separator of any length. The
occurrences are looked for from left to right and do not overlap, so one that begins within
another is not found.

The pieces with the separator between them are the list again (`intercalate_pieces`), and they are
the only such parts if the separator has an element that the parts do not have
(`pieces_intercalate`).
-/

namespace Curarium

variable {α : Type*} {sep : List α}

/-! ### Lists with a separator between them -/

theorem infix_intercalate {p : List α} {ps : List (List α)} (h : p ∈ ps) : p <:+: sep.intercalate ps := by
  induction ps with
  | nil => exact absurd h List.not_mem_nil
  | cons q qs ih =>
    cases qs with
    | nil =>
      obtain rfl := List.mem_singleton.mp h
      rw [List.intercalate_singleton]
    | cons r rs =>
      rw [List.intercalate_cons_cons]
      rcases List.mem_cons.mp h with rfl | h
      · exact ⟨[], sep ++ sep.intercalate (r :: rs), by rw [List.nil_append, List.append_assoc]⟩
      · exact (ih h).trans (List.suffix_append _ _).isInfix

theorem mem_intercalate {a : α} {ps : List (List α)} (h : a ∈ sep.intercalate ps) :
    a ∈ sep ∨ ∃ p ∈ ps, a ∈ p := by
  induction ps with
  | nil => exact absurd h List.not_mem_nil
  | cons q qs ih =>
    cases qs with
    | nil =>
      rw [List.intercalate_singleton] at h
      exact .inr ⟨q, List.mem_cons_self, h⟩
    | cons r rs =>
      rw [List.intercalate_cons_cons, List.mem_append, List.mem_append] at h
      rcases h with (h | h) | h
      · exact .inr ⟨q, List.mem_cons_self, h⟩
      · exact .inl h
      · exact (ih h).imp_right fun ⟨p, hp, hap⟩ => ⟨p, List.mem_cons_of_mem _ hp, hap⟩

variable [DecidableEq α]

/-! ### The pieces -/

/-- The pieces of a list whose first elements, as many as are given, belong to an occurrence. -/
def piecesFrom (sep : List α) : Nat → List α → List (List α)
  | _, [] => [[]]
  | n + 1, _ :: as => piecesFrom sep n as
  | 0, a :: as =>
    if sep <+: a :: as then [] :: piecesFrom sep (sep.length - 1) as
    else (piecesFrom sep 0 as).modifyHead (a :: ·)

/-- The parts of a list between the occurrences of a separator. -/
def pieces (sep l : List α) : List (List α) := piecesFrom sep 0 l

/-! ### One step -/

@[simp] theorem pieces_nil : pieces sep [] = [[]] := rfl

theorem piecesFrom_append (xs as : List α) : piecesFrom sep xs.length (xs ++ as) = pieces sep as := by
  induction xs with
  | nil => rfl
  | cons x xs ih => rw [List.length_cons, List.cons_append, piecesFrom, ih]

theorem pieces_cons_of_not {a : α} {as : List α} (h : ¬ sep <+: a :: as) :
    pieces sep (a :: as) = (pieces sep as).modifyHead (a :: ·) := by
  rw [pieces, piecesFrom, if_neg h]
  rfl

/-- An occurrence at the front ends the first piece. -/
theorem pieces_sep_append (hsep : sep ≠ []) (as : List α) :
    pieces sep (sep ++ as) = [] :: pieces sep as := by
  obtain ⟨x, xs, rfl⟩ := List.exists_cons_of_ne_nil hsep
  have hfront : x :: xs <+: x :: (xs ++ as) := ⟨as, rfl⟩
  rw [List.cons_append, pieces, piecesFrom, if_pos hfront, List.length_cons, Nat.add_sub_cancel,
    piecesFrom_append]

theorem pieces_ne_nil (sep l : List α) : pieces sep l ≠ [] := by
  have hfrom : ∀ (l : List α) (n : Nat), piecesFrom sep n l ≠ [] := by
    intro l
    induction l with
    | nil => exact fun n => by cases n <;> exact List.cons_ne_nil _ _
    | cons a as ih =>
      intro n
      cases n with
      | succ n => exact ih n
      | zero =>
        rw [piecesFrom]
        split
        · exact List.cons_ne_nil _ _
        · obtain ⟨p, ps, hps⟩ := List.exists_cons_of_ne_nil (ih 0)
          rw [hps]
          exact List.cons_ne_nil _ _
  exact hfrom l 0

/-- **A part in which no occurrence begins** stands at the front of the first piece. -/
theorem pieces_append {p rest : List α} (h : ∀ q, q <:+ p → q ≠ [] → ¬ sep <+: q ++ rest) :
    pieces sep (p ++ rest) = (pieces sep rest).modifyHead (p ++ ·) := by
  obtain ⟨r, rs, hr⟩ := List.exists_cons_of_ne_nil (pieces_ne_nil sep rest)
  induction p with
  | nil => rw [hr, List.nil_append, hr, List.modifyHead_cons, List.nil_append]
  | cons a p ih =>
    have ha : ¬ sep <+: a :: (p ++ rest) := h (a :: p) (List.suffix_refl _) (List.cons_ne_nil _ _)
    rw [List.cons_append, pieces_cons_of_not ha,
      ih fun q hq => h q (hq.trans (List.suffix_cons a p)), hr]
    rfl

/-- A part without the first element of the separator. -/
theorem pieces_append_of_notMem {a : α} {as p : List α} (h : a ∉ p) (rest : List α) :
    pieces (a :: as) (p ++ rest) = (pieces (a :: as) rest).modifyHead (p ++ ·) := by
  refine pieces_append fun q hq hne hpre => ?_
  obtain ⟨b, q, rfl⟩ := List.exists_cons_of_ne_nil hne
  rw [List.cons_append, List.cons_prefix_cons] at hpre
  exact h (hq.subset (hpre.1 ▸ List.mem_cons_self))

/-! ### The pieces and the list -/

/-- **The pieces put together again.** -/
theorem intercalate_pieces (hsep : sep ≠ []) (l : List α) : sep.intercalate (pieces sep l) = l := by
  induction hl : l.length using Nat.strong_induction_on generalizing l with
  | _ n ih =>
    cases l with
    | nil => rfl
    | cons a as =>
      by_cases hpre : sep <+: a :: as
      · -- behind the occurrence the list is shorter
        obtain ⟨rest, hrest⟩ := hpre
        have hlt : rest.length < n := by
          have hlen := congrArg List.length hrest
          have hpos := List.length_pos_of_ne_nil hsep
          rw [List.length_append, hl] at hlen
          omega
        rw [← hrest, pieces_sep_append hsep,
          List.intercalate_cons_of_ne_nil (pieces_ne_nil sep rest), ih _ hlt rest rfl, List.nil_append]
      · have hlt : as.length < n := by rw [← hl]; exact Nat.lt_succ_self _
        have htail := ih _ hlt as rfl
        obtain ⟨p, ps, hps⟩ := List.exists_cons_of_ne_nil (pieces_ne_nil sep as)
        rw [pieces_cons_of_not hpre, hps, List.modifyHead_cons]
        rw [hps] at htail
        cases ps with
        | nil => rw [List.intercalate_singleton] at htail ⊢; rw [htail]
        | cons q qs =>
          rw [List.intercalate_cons_cons] at htail ⊢
          rw [List.cons_append, List.cons_append, htail]

theorem infix_of_mem_pieces (hsep : sep ≠ []) {p l : List α} (h : p ∈ pieces sep l) : p <:+: l := by
  rw [← intercalate_pieces hsep l]
  exact infix_intercalate h

/-- **Parts without one of the separator's elements** are the pieces of what they are joined to. -/
theorem pieces_intercalate {x : α} (hx : x ∈ sep) {ps : List (List α)} (hps : ps ≠ [])
    (h : ∀ p ∈ ps, x ∉ p) : pieces sep (sep.intercalate ps) = ps := by
  have hsep : sep ≠ [] := List.ne_nil_of_mem hx
  induction ps with
  | nil => exact absurd rfl hps
  | cons p ps ih =>
    have hp : x ∉ p := h p List.mem_cons_self
    cases ps with
    | nil =>
      have hnone : ∀ q, q <:+ p → q ≠ [] → ¬ sep <+: q ++ [] := by
        intro q hq _ hpre
        rw [List.append_nil] at hpre
        exact hp (hq.subset (hpre.subset hx))
      have hall := pieces_append hnone
      rw [List.append_nil, pieces_nil, List.modifyHead_cons, List.append_nil] at hall
      rw [List.intercalate_singleton, hall]
    | cons q qs =>
      -- an occurrence begins where the element is first met, which is in the separator
      have hnone : ∀ r, r <:+ p → r ≠ [] →
          ¬ sep <+: r ++ (sep ++ sep.intercalate (q :: qs)) := by
        rintro r hr hne ⟨t, ht⟩
        have hidx := congrArg (List.idxOf x) ht
        rw [List.idxOf_append_of_mem hx, List.idxOf_append_of_notMem fun hxr => hp (hr.subset hxr),
          List.idxOf_append_of_mem hx] at hidx
        have hpos := List.length_pos_of_ne_nil hne
        omega
      rw [List.intercalate_cons_cons, List.append_assoc, pieces_append hnone,
        pieces_sep_append hsep, ih (List.cons_ne_nil _ _) fun r hr => h r (List.mem_cons_of_mem _ hr),
        List.modifyHead_cons, List.append_nil]

end Curarium
