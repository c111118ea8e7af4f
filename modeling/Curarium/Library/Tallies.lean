import Curarium.Library.Lists
import Curarium.Library.Weights
import Mathlib.Algebra.BigOperators.Group.List.Lemmas
import Mathlib.Data.List.Count
import Mathlib.Data.List.Nodup

/-!
# Tallies

Counting with an association list, whose keys keep the order in which they came first. `put` gives a key
a value, in place if the key is there, and `countOne` adds one to the value of a key.

* `lookup_tally`, `weight_tally` — a tally of a list has the number of times each entry comes, and these
  add up to the length of the list.
* `prune_eq` — deleting rare entries while going over them takes their sum and leaves the others.
* `weight_put_add` — what a key had before is lost when it is given a value, so the values add up to what
  they did only for a new key.
-/

namespace Curarium
namespace Tally

variable {α : Type*} [DecidableEq α]

/-- The list with this value for the key. -/
def put (k : α) (n : Nat) : List (α × Nat) → List (α × Nat)
  | [] => [(k, n)]
  | (l, m) :: es => if l = k then (l, n) :: es else (l, m) :: put k n es

/-- The list without the key. -/
def delete (k : α) (es : List (α × Nat)) : List (α × Nat) := es.filter fun e => e.1 ≠ k

/-- One more of the key. -/
def countOne (es : List (α × Nat)) (k : α) : List (α × Nat) :=
  match es.lookup k with
  | none => put k 1 es
  | some n => put k (n + 1) es

/-- The tally of a list. -/
def tally (ks : List α) : List (α × Nat) := ks.foldl countOne []

/-- Going over the entries, those with a value like this are deleted and added up. -/
def prune (p : Nat → Bool) (es : List (α × Nat)) : Nat × List (α × Nat) :=
  es.foldl (fun acc e => if p e.2 then (acc.1 + e.2, delete e.1 acc.2) else acc) (0, es)

variable {es : List (α × Nat)} {k l : α} {n : Nat} {p : Nat → Bool}

/-! ### One key -/

theorem lookup_cons_of_ne {m : Nat} (h : l ≠ k) : ((k, m) :: es).lookup l = es.lookup l := by
  rw [List.lookup_cons, beq_eq_false_iff_ne.mpr h]

theorem lookup_put : (put k n es).lookup l = if l = k then some n else es.lookup l := by
  induction es with
  | nil =>
    rw [put]
    by_cases hl : l = k
    · rw [if_pos hl, hl, List.lookup_cons_self]
    · rw [if_neg hl, lookup_cons_of_ne hl]
  | cons e es ih =>
    obtain ⟨j, m⟩ := e
    rw [put]
    by_cases hj : j = k
    · subst hj
      by_cases hl : l = j
      · rw [if_pos rfl, if_pos hl, hl, List.lookup_cons_self]
      · rw [if_pos rfl, if_neg hl, lookup_cons_of_ne hl, lookup_cons_of_ne hl]
    · rw [if_neg hj]
      by_cases hl : l = j
      · -- the entry in front has another key
        rw [if_neg (hl ▸ hj), hl, List.lookup_cons_self, List.lookup_cons_self]
      · rw [lookup_cons_of_ne hl, ih, lookup_cons_of_ne hl]

theorem lookup_eq_none_iff : es.lookup k = none ↔ k ∉ es.map Prod.fst := by
  rw [List.lookup_eq_none_iff, List.mem_map]
  constructor
  · rintro h ⟨e, he, rfl⟩
    simpa using h e he
  · intro h e he
    by_contra hk
    exact h ⟨e, he, by simpa using (Eq.comm.mp (by simpa using hk))⟩

/-- **What a key had before is lost.** -/
theorem weight_put_add : weight Prod.snd (put k n es) + (es.lookup k).getD 0 = weight Prod.snd es + n := by
  induction es with
  | nil => simp [put]
  | cons e es ih =>
    obtain ⟨j, m⟩ := e
    rw [put]
    by_cases hj : j = k
    · rw [if_pos hj, hj, List.lookup_cons_self, weight_cons, weight_cons, Option.getD_some]
      omega
    · rw [if_neg hj, lookup_cons_of_ne (Ne.symm hj), weight_cons, weight_cons]
      omega

theorem map_fst_put : (put k n es).map Prod.fst =
    if k ∈ es.map Prod.fst then es.map Prod.fst else es.map Prod.fst ++ [k] := by
  induction es with
  | nil => rfl
  | cons e es ih =>
    obtain ⟨j, m⟩ := e
    rw [put]
    by_cases hj : j = k
    · simp [hj]
    · rw [if_neg hj, List.map_cons, ih, List.map_cons]
      by_cases hk : k ∈ es.map Prod.fst
      · rw [if_pos hk, if_pos (List.mem_cons_of_mem _ hk)]
      · rw [if_neg hk, if_neg (List.not_mem_cons_of_ne_of_not_mem (Ne.symm hj) hk), List.cons_append]

theorem nodup_put (h : (es.map Prod.fst).Nodup) : ((put k n es).map Prod.fst).Nodup := by
  rw [map_fst_put]
  split
  case isTrue => exact h
  case isFalse hk =>
    rw [← List.concat_eq_append]
    exact h.concat hk

/-! ### Counting -/

theorem countOne_eq : countOne es k = put k ((es.lookup k).getD 0 + 1) es := by
  rw [countOne]
  cases es.lookup k <;> rfl

theorem lookup_foldl_countOne (ks : List α) : (ks.foldl countOne es).lookup l =
    if l ∈ ks then some ((es.lookup l).getD 0 + ks.count l) else es.lookup l := by
  induction ks generalizing es with
  | nil => simp
  | cons k ks ih =>
    rw [List.foldl_cons, ih, countOne_eq, lookup_put]
    by_cases hk : l = k
    · -- counted here, and perhaps again later
      subst hk
      by_cases hl : l ∈ ks
      · simp only [if_pos hl, if_true, List.mem_cons_self, Option.getD_some, List.count_cons_self]
        congr 1
        omega
      · simp [hl, List.count_eq_zero.mpr hl]
    · rw [if_neg hk, List.count_cons_of_ne (Ne.symm hk)]
      by_cases hl : l ∈ ks
      · rw [if_pos hl, if_pos (List.mem_cons_of_mem _ hl)]
      · rw [if_neg hl, if_neg (List.not_mem_cons_of_ne_of_not_mem hk hl)]

/-- **The tally has the number of times** each entry comes. -/
theorem lookup_tally (ks : List α) : (tally ks).lookup l = if l ∈ ks then some (ks.count l) else none := by
  rw [tally, lookup_foldl_countOne]
  simp

/-- **The counts add up.** -/
theorem weight_tally (ks : List α) : weight Prod.snd (tally ks) = ks.length := by
  have hfoldl : ∀ es : List (α × Nat), weight Prod.snd (ks.foldl countOne es) = weight Prod.snd es + ks.length := by
    induction ks with
    | nil => exact fun es => rfl
    | cons k ks ih =>
      intro es
      have hput : weight Prod.snd (put k ((es.lookup k).getD 0 + 1) es) + (es.lookup k).getD 0 =
          weight Prod.snd es + ((es.lookup k).getD 0 + 1) := weight_put_add
      rw [List.foldl_cons, ih, countOne_eq, List.length_cons]
      omega
  rw [tally, hfoldl, weight_nil, Nat.zero_add]

theorem nodup_tally (ks : List α) : ((tally ks).map Prod.fst).Nodup := by
  have hfoldl : ∀ es : List (α × Nat), (es.map Prod.fst).Nodup → ((ks.foldl countOne es).map Prod.fst).Nodup := by
    induction ks with
    | nil => exact fun es h => h
    | cons k ks ih =>
      intro es h
      rw [List.foldl_cons, countOne_eq]
      exact ih _ (nodup_put h)
  exact hfoldl [] List.nodup_nil

theorem eq_count_of_mem {ks : List α} (h : (k, n) ∈ tally ks) : n = ks.count k := by
  have hlookup := Lists.lookup_of_mem (nodup_tally ks) h
  rw [lookup_tally] at hlookup
  exact (Option.some.inj (Option.ite_none_right_eq_some.mp hlookup).2).symm

/-- The keys of the tally are the entries, each once. -/
theorem perm_dedup (ks : List α) : ((tally ks).map Prod.fst).Perm ks.dedup := by
  rw [List.perm_ext_iff_of_nodup (nodup_tally ks) ks.nodup_dedup]
  intro k
  rw [List.mem_dedup, ← not_iff_not, ← lookup_eq_none_iff, lookup_tally]
  split
  case isTrue hk => exact iff_of_false (by simp) (not_not_intro hk)
  case isFalse hk => exact iff_of_true rfl hk

/-- **The counts of some of the keys** add up to the number of entries with these keys. -/
theorem weight_filter_tally (p : Nat → Bool) (ks : List α) :
    weight Prod.snd ((tally ks).filter fun e => p e.2) = ks.countP fun k => p (ks.count k) := by
  -- every value is the count of its key, so it is the keys that are filtered and counted
  have hfilter : (tally ks).filter (fun e => p e.2) = (tally ks).filter fun e => p (ks.count e.1) :=
    List.filter_congr fun e he => by rw [eq_count_of_mem he]
  have hweight : weight Prod.snd ((tally ks).filter fun e => p (ks.count e.1)) =
      weight (fun e => ks.count e.1) ((tally ks).filter fun e => p (ks.count e.1)) :=
    weight_congr fun e he => eq_count_of_mem (List.mem_of_mem_filter he)
  have hkeys : ((tally ks).filter fun e => p (ks.count e.1)).map Prod.fst =
      ((tally ks).map Prod.fst).filter fun k => p (ks.count k) := by
    rw [List.filter_map]
    rfl
  have hmap := weight_map ks.count Prod.fst ((tally ks).filter fun e => p (ks.count e.1))
  rw [hfilter, hweight, ← hmap, hkeys, weight_perm ((perm_dedup ks).filter _), weight_eq_sum]
  exact List.sum_map_count_dedup_filter_eq_countP _ ks

/-! ### Deleting while going over the entries -/

/-- Of distinct keys one is deleted. -/
theorem delete_append_cons {before after : List (α × Nat)}
    (h : ((before ++ (k, n) :: after).map Prod.fst).Nodup) :
    delete k (before ++ (k, n) :: after) = before ++ after := by
  rw [List.map_append, List.map_cons, List.nodup_middle, List.nodup_cons, ← List.map_append] at h
  have hother : ∀ e ∈ before ++ after, decide (e.1 ≠ k) = true :=
    fun e he => decide_eq_true fun heq => h.1 (List.mem_map.mpr ⟨e, he, heq⟩)
  rw [delete, List.filter_append, List.filter_cons_of_neg (by simp), ← List.filter_append,
    List.filter_eq_self.mpr hother]

/-- The entries gone over so far are kept, the others are all there yet. -/
theorem foldl_prune {before after : List (α × Nat)} (h : ((before ++ after).map Prod.fst).Nodup) (s : Nat) :
    after.foldl (fun acc e => if p e.2 then (acc.1 + e.2, delete e.1 acc.2) else acc) (s, before ++ after) =
      (s + weight Prod.snd (after.filter fun e => p e.2), before ++ after.filter fun e => !p e.2) := by
  induction after generalizing before s with
  | nil => rfl
  | cons e after ih =>
    obtain ⟨k, n⟩ := e
    rw [List.foldl_cons]
    cases hp : p n with
    | true =>
      -- the entry goes into the sum
      have hrest : ((before ++ after).map Prod.fst).Nodup :=
        h.sublist ((List.Sublist.append_left (List.sublist_cons_self _ _) _).map _)
      rw [if_pos rfl, delete_append_cons h, ih hrest, List.filter_cons, if_pos hp, weight_cons,
        List.filter_cons, if_neg (by simp [hp]), Nat.add_assoc]
    | false =>
      -- the entry is one of those before the next
      have hstep : before ++ (k, n) :: after = before ++ [(k, n)] ++ after := by simp
      rw [if_neg Bool.false_ne_true, hstep, ih (hstep ▸ h), List.filter_cons, if_neg (by simp [hp]),
        List.filter_cons, if_pos (by simp [hp]), List.append_assoc, List.singleton_append]

/-- **The sum of the rare entries and the list of the others.** -/
theorem prune_eq (h : (es.map Prod.fst).Nodup) :
    prune p es = (weight Prod.snd (es.filter fun e => p e.2), es.filter fun e => !p e.2) := by
  -- at the start all the entries are still ahead
  have hfoldl : es.foldl (fun acc e => if p e.2 then (acc.1 + e.2, delete e.1 acc.2) else acc) (0, [] ++ es) =
      (0 + weight Prod.snd (es.filter fun e => p e.2), [] ++ es.filter fun e => !p e.2) := foldl_prune h 0
  rwa [Nat.zero_add] at hfoldl

/-- Of distinct keys those are found whose values are kept. -/
theorem lookup_filter (h : (es.map Prod.fst).Nodup) :
    (es.filter fun e => p e.2).lookup k = (es.lookup k).filter p := by
  induction es with
  | nil => rfl
  | cons e es ih =>
    obtain ⟨j, m⟩ := e
    rw [List.map_cons, List.nodup_cons] at h
    by_cases hk : k = j
    · subst hk
      rw [List.lookup_cons_self, Option.filter_some]
      cases hp : p m with
      | true => rw [List.filter_cons, if_pos hp, List.lookup_cons_self, if_pos rfl]
      | false =>
        -- the key does not come again
        rw [List.filter_cons, if_neg (by simp [hp]), ih h.2, lookup_eq_none_iff.mpr h.1]
        simp
    · rw [lookup_cons_of_ne hk]
      cases hp : p m with
      | true => rw [List.filter_cons, if_pos hp, lookup_cons_of_ne hk, ih h.2]
      | false => rw [List.filter_cons, if_neg (by simp [hp]), ih h.2]

end Tally
end Curarium
