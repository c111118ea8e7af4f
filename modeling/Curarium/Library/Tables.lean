import Mathlib.Data.List.Basic
import Mathlib.Data.List.Nodup
import Mathlib.Data.List.Sort
import Mathlib.Tactic.Common

/-!
# Tables of rows with a key

A table is a list of rows, each with a numeric key. Keys are given out in order, so they are
distinct and below the next one (`Keyed`).

* `exists_split` — the row with a key stands at one place, and an update of that key rewrites the
  row there and leaves the rest as it is.
* `sortedLT_insertionSort` — sorted by their keys, rows with distinct keys are in ascending order.
* `Keyed.insert`, `Keyed.update`, `Keyed.filter` — the keys stay distinct under the statements
  that write a table.
* `Resolves` — a reference names a row; `resolves_filter_iff` — it still does after a deletion exactly
  if it names none of the rows that are deleted.
-/

namespace Curarium
namespace Tables

variable {R : Type*} (key : R → Nat)

/-- The row with a key. -/
def find (n : Nat) (rows : List R) : Option R := rows.find? fun r => key r = n

/-- The table after an update of the row with a key. -/
def update (n : Nat) (f : R → R) (rows : List R) : List R :=
  rows.map fun r => if key r = n then f r else r

/-- Keys are distinct and below the next one. -/
structure Keyed (next : Nat) (rows : List R) : Prop where
  distinct : (rows.map key).Nodup
  below : ∀ r ∈ rows, key r < next

variable {key} {n next : Nat} {rows : List R} {r : R}

theorem find_mem (h : find key n rows = some r) : r ∈ rows := List.mem_of_find?_eq_some h

theorem find_key (h : find key n rows = some r) : key r = n := by
  simpa using List.find?_some h

/-- An update of a key that no row has does nothing. -/
theorem update_of_forall_ne (f : R → R) (h : ∀ r ∈ rows, key r ≠ n) : update key n f rows = rows := by
  rw [update, List.map_congr_left (g := id)]
  · exact List.map_id rows
  · intro r hr
    exact if_neg (h r hr)

theorem mem_update {f : R → R} {x : R} :
    x ∈ update key n f rows ↔ ∃ r ∈ rows, x = if key r = n then f r else r := by
  rw [update, List.mem_map]
  exact exists_congr fun r => and_congr_right fun _ => eq_comm

/-- A row after an update of one key is an old one, or the update of an old one. -/
theorem forall_mem_update {f : R → R} {P : R → Prop} (hold : ∀ r ∈ rows, P r) (hnew : ∀ r ∈ rows, P (f r)) :
    ∀ r ∈ update key n f rows, P r := by
  intro r hr
  obtain ⟨r', hr', rfl⟩ := mem_update.mp hr
  split
  · exact hnew r' hr'
  · exact hold r' hr'

/-- A row after an insertion is an old one, or the new one. -/
theorem forall_mem_insert {P : R → Prop} (hold : ∀ x ∈ rows, P x) (hnew : P r) : ∀ x ∈ rows ++ [r], P x :=
  List.forall_mem_append.mpr ⟨hold, List.forall_mem_singleton.mpr hnew⟩

/-- There is a row under the key of a row. -/
theorem exists_find (hr : r ∈ rows) : ∃ r', find key (key r) rows = some r' := by
  rw [← Option.isSome_iff_exists, find, List.find?_isSome]
  exact ⟨r, hr, by simp⟩

/-- A row with another key is found as before. -/
theorem find_update_of_ne {f : R → R} {m : Nat} (hf : ∀ r, key (f r) = key r) (h : m ≠ n) :
    find key m (update key n f rows) = find key m rows := by
  induction rows with
  | nil => rfl
  | cons r rows ih =>
    simp only [find, update, List.map_cons, List.find?_cons] at ih ⊢
    rw [ih]
    by_cases hr : key r = n
    · -- the rewritten row has the key it had, and that is not the one looked for
      have hm : key r ≠ m := fun hm => h (hm.symm.trans hr)
      rw [if_pos hr, hf, decide_eq_false hm]
    · rw [if_neg hr]

theorem find_insert_of_ne {m : Nat} (h : key r ≠ m) : find key m (rows ++ [r]) = find key m rows := by
  rw [find, List.find?_append, List.find?_singleton, decide_eq_false h]
  exact Option.or_none

/-- **One row has the key.** It stands between rows that have other keys, and an update of the key
rewrites it in its place. -/
theorem exists_split (hk : (rows.map key).Nodup) (h : find key n rows = some r) :
    ∃ before after, rows = before ++ r :: after ∧ (∀ x ∈ before ++ after, key x ≠ n) ∧
      ∀ f, update key n f rows = before ++ f r :: after := by
  have hkey := find_key h
  obtain ⟨before, after, rfl⟩ := List.append_of_mem (find_mem h)
  rw [List.map_append, List.map_cons, List.nodup_middle, List.nodup_cons, ← List.map_append] at hk
  -- the keys are distinct, so the row is the only one with its key
  have hother : ∀ x ∈ before ++ after, key x ≠ n := by
    intro x hx hxn
    exact hk.1 (List.mem_map.mpr ⟨x, hx, hxn.trans hkey.symm⟩)
  refine ⟨before, after, rfl, hother, fun f => ?_⟩
  have hbefore := update_of_forall_ne f fun x hx => hother x (List.mem_append_left _ hx)
  have hafter := update_of_forall_ne f fun x hx => hother x (List.mem_append_right _ hx)
  rw [update] at hbefore hafter
  rw [update, List.map_append, List.map_cons, if_pos hkey, hbefore, hafter]

theorem map_key_update {f : R → R} (hf : ∀ r, key (f r) = key r) :
    (update key n f rows).map key = rows.map key := by
  rw [update, List.map_map]
  refine List.map_congr_left fun r _ => ?_
  change key (if key r = n then f r else r) = key r
  split
  · exact hf r
  · rfl

/-- **Rows in the order of their keys**, if no key comes twice. -/
theorem sortedLT_insertionSort (hk : (rows.map key).Nodup) :
    ((rows.insertionSort fun a b => key a ≤ key b).map key).SortedLT := by
  have hsort : (rows.insertionSort fun a b => key a ≤ key b).map key =
      (rows.map key).insertionSort (· ≤ ·) :=
    List.map_insertionSort _ _ key _ fun _ _ _ _ => Iff.rfl
  rw [hsort]
  exact List.sortedLE_insertionSort.sortedLT_of_nodup
    ((List.perm_insertionSort _ _).nodup_iff.mpr hk)

theorem nodup_map_insert (hrows : (rows.map key).Nodup) (hr : key r ∉ rows.map key) :
    ((rows ++ [r]).map key).Nodup := by
  rw [List.map_append, List.map_singleton, ← List.concat_eq_append]
  exact hrows.concat hr

namespace Keyed

theorem nil : Keyed key next ([] : List R) := ⟨List.nodup_nil, fun _ h => absurd h List.not_mem_nil⟩

theorem insert (h : Keyed key next rows) (hr : key r = next) : Keyed key (next + 1) (rows ++ [r]) where
  distinct := by
    refine nodup_map_insert h.distinct fun hmem => ?_
    obtain ⟨x, hx, hkey⟩ := List.mem_map.mp hmem
    exact absurd (hkey.trans hr) (Nat.ne_of_lt (h.below x hx))
  below := forall_mem_insert (fun x hx => Nat.lt_succ_of_lt (h.below x hx)) (hr ▸ Nat.lt_succ_self next)

theorem update (h : Keyed key next rows) {f : R → R} (hf : ∀ r, key (f r) = key r) :
    Keyed key next (Tables.update key n f rows) where
  distinct := by
    rw [map_key_update hf]
    exact h.distinct
  below x hx := by
    obtain ⟨r, hr, rfl⟩ := mem_update.mp hx
    split
    · rw [hf]
      exact h.below r hr
    · exact h.below r hr

/-- A row is found under its key. -/
theorem find_of_mem (h : Keyed key next rows) (hr : r ∈ rows) : find key (key r) rows = some r := by
  obtain ⟨r', hr'⟩ := exists_find hr
  rw [hr', Option.some_inj]
  exact List.inj_on_of_nodup_map h.distinct (find_mem hr') hr (find_key hr')

theorem filter (h : Keyed key next rows) (p : R → Bool) : Keyed key next (rows.filter p) where
  distinct := h.distinct.sublist (List.filter_sublist.map key)
  below r hr := h.below r (List.mem_of_mem_filter hr)

/-- A row that is kept is found as before. -/
theorem find_filter (h : Keyed key next rows) (hr : r ∈ rows) {p : R → Bool} (hp : p r = true) :
    find key (key r) (rows.filter p) = find key (key r) rows := by
  rw [h.find_of_mem hr]
  exact (h.filter p).find_of_mem (List.mem_filter.mpr ⟨hr, hp⟩)

end Keyed

/-! ### References -/

/-- The reference names a row. -/
def Resolves (key : R → Nat) (rows : List R) (ref : Option Nat) : Prop :=
  ∃ r ∈ rows, ref = some (key r)

variable {rows' : List R} {ref : Option Nat}

theorem not_resolves_none : ¬ Resolves key rows none := by
  rintro ⟨r, -, h⟩
  cases h

theorem resolves_iff_mem_map : Resolves key rows (some n) ↔ n ∈ rows.map key := by
  rw [List.mem_map]
  exact exists_congr fun r => and_congr_right fun _ => by rw [Option.some_inj, eq_comm]

theorem Resolves.mono (h : Resolves key rows ref) (hsub : ∀ r ∈ rows, r ∈ rows') :
    Resolves key rows' ref := by
  obtain ⟨r, hr, href⟩ := h
  exact ⟨r, hsub r hr, href⟩

theorem Resolves.update {f : R → R} (h : Resolves key rows ref) (hf : ∀ r, key (f r) = key r) :
    Resolves key (Tables.update key n f rows) ref := by
  obtain ⟨r, hr, rfl⟩ := h
  rw [resolves_iff_mem_map, map_key_update hf]
  exact List.mem_map_of_mem hr

/-- **Where rows are deleted**, a reference still names a row exactly if it names none of them. -/
theorem resolves_filter_iff {p : R → Bool} (hk : (rows.map key).Nodup) (h : Resolves key rows ref) :
    Resolves key (rows.filter p) ref ↔ ∀ r ∈ rows, p r = false → ref ≠ some (key r) := by
  constructor
  · rintro ⟨r, hr, rfl⟩ r' hr' hp heq
    obtain ⟨hrows, hpr⟩ := List.mem_filter.mp hr
    -- one row has the key, and it is not deleted
    have hsame : r = r' := List.inj_on_of_nodup_map hk hrows hr' (Option.some.inj heq)
    rw [hsame, hp] at hpr
    cases hpr
  · intro hall
    obtain ⟨r, hr, href⟩ := h
    refine ⟨r, List.mem_filter.mpr ⟨hr, ?_⟩, href⟩
    by_contra hp
    exact hall r hr (by simpa using hp) href

/-- A row that is named is found. -/
theorem exists_find_of_resolves (h : Resolves key rows ref) :
    ∃ r ∈ rows, (ref.bind fun n => find key n rows) = some r := by
  obtain ⟨r, hr, rfl⟩ := h
  obtain ⟨r', hr'⟩ := exists_find hr
  exact ⟨r', find_mem hr', hr'⟩

theorem mem_of_bind_find (h : (ref.bind fun n => find key n rows) = some r) : r ∈ rows := by
  obtain ⟨n, -, hn⟩ := Option.bind_eq_some_iff.mp h
  exact find_mem hn

end Tables
end Curarium
