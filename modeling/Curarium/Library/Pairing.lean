import Mathlib.Data.List.Nodup

/-!
# Joining two filtered lists by position

Entries that may have a first and a second value are read into two lists, of the first values and
of the second ones, and the two lists are then joined by position. Entries that lack one of the
values shift the rest of one list against the other.

* `join` — every item of a list with what stands at its position of another;
* `paired_iff` — joining puts every first value next to the second one of its own entry, exactly
  when no entry with a second value only comes before one with a first value, and none with a
  first value only before one with a second value (`Aligned`).
-/

namespace Curarium
namespace Pairing

variable {ι α β : Type*}

/-! ### Join by position -/

/-- Every item of the first list with what stands at its position of the second. -/
def join : List α → List β → List (α × Option β)
  | [], _ => []
  | x :: xs, [] => (x, none) :: join xs []
  | x :: xs, y :: ys => (x, some y) :: join xs ys

theorem join_nil (xs : List α) : join xs ([] : List β) = xs.map fun x => (x, none) := by
  induction xs with
  | nil => rfl
  | cons x xs ih => rw [join, ih, List.map_cons]

theorem map_join {α' β' : Type*} (f : α → α') (g : β → β') (xs : List α) (ys : List β) :
    (join xs ys).map (fun r => (f r.1, r.2.map g)) = join (xs.map f) (ys.map g) := by
  induction xs generalizing ys with
  | nil => rfl
  | cons x xs ih =>
    cases ys with
    | nil =>
      rw [join, List.map_cons, ih]
      rfl
    | cons y ys =>
      rw [join, List.map_cons, ih]
      rfl

theorem map_fst_join (xs : List α) (ys : List β) : (join xs ys).map Prod.fst = xs := by
  induction xs generalizing ys with
  | nil => rfl
  | cons x xs ih => cases ys <;> rw [join, List.map_cons, ih]

/-- The same by numbered positions. -/
theorem zipIdx_map_eq_join (xs : List α) (ys : List β) (n : Nat) :
    (xs.zipIdx n).map (fun p => (p.1, ys[p.2]?)) = join xs (ys.drop n) := by
  induction xs generalizing n with
  | nil => rfl
  | cons x xs ih =>
    rw [List.zipIdx_cons, List.map_cons, ih]
    -- either the second list has run out, or its next member is the one at the index
    cases hdrop : ys.drop n with
    | nil =>
      have hlen : ys.length ≤ n := List.drop_eq_nil_iff.mp hdrop
      rw [List.drop_eq_nil_iff.mpr (by omega), List.getElem?_eq_none hlen]
      rfl
    | cons y rest =>
      have hget : ys[n]? = some y := by
        rw [← List.head?_drop, hdrop]
        rfl
      have htail : ys.drop (n + 1) = rest := by
        rw [← List.tail_drop, hdrop]
        rfl
      rw [htail, hget]
      rfl

/-! ### Entries -/

/-- An entry with a key, and the two values it may have. -/
structure Entry (ι α β : Type*) where
  key : ι
  fst : Option α
  snd : Option β
deriving DecidableEq

/-- The first values, with the keys they come from. -/
def firsts (l : List (Entry ι α β)) : List (ι × α) :=
  l.filterMap fun e => e.fst.map (Prod.mk e.key)

/-- The second values, with the keys they come from. -/
def seconds (l : List (Entry ι α β)) : List (ι × β) :=
  l.filterMap fun e => e.snd.map (Prod.mk e.key)

/-- A joined row has the second value of the entry that its first value comes from. -/
def FromOneEntry (l : List (Entry ι α β)) (r : (ι × α) × Option (ι × β)) : Prop :=
  ∀ e ∈ l, e.key = r.1.1 → r.2 = e.snd.map (Prod.mk e.key)

/-- No second value without a first one comes before a first value, and no first value without a
second one before a second value. -/
def Aligned (l : List (Entry ι α β)) : Prop :=
  l.Pairwise fun e f => (e.snd.isSome = true → f.fst.isSome = true → e.fst.isSome = true) ∧
    (e.fst.isSome = true → f.snd.isSome = true → e.snd.isSome = true)

theorem firsts_eq_nil_iff {l : List (Entry ι α β)} : firsts l = [] ↔ ∀ e ∈ l, e.fst = none := by
  rw [firsts, List.filterMap_eq_nil_iff]
  simp

theorem seconds_eq_nil_iff {l : List (Entry ι α β)} :
    seconds l = [] ↔ ∀ e ∈ l, e.snd = none := by
  rw [seconds, List.filterMap_eq_nil_iff]
  simp

theorem fst_mem_of_mem_join {xs : List α} {ys : List β} {r : α × Option β}
    (h : r ∈ join xs ys) : r.1 ∈ xs := by
  have hmap := List.mem_map_of_mem (f := Prod.fst) h
  rwa [map_fst_join] at hmap

/-- Rows of later entries do not notice an entry with another key. -/
theorem fromOneEntry_cons_iff {e : Entry ι α β} {l : List (Entry ι α β)}
    {r : (ι × α) × Option (ι × β)} (hne : e.key ≠ r.1.1) :
    FromOneEntry (e :: l) r ↔ FromOneEntry l r := by
  unfold FromOneEntry
  rw [List.forall_mem_cons]
  exact ⟨fun h => h.2, fun h => ⟨fun heq => absurd heq hne, h⟩⟩

theorem key_ne_of_mem_join {e : Entry ι α β} {l : List (Entry ι α β)} {ys : List (ι × β)}
    {r : (ι × α) × Option (ι × β)} (hnd : e.key ∉ l.map Entry.key)
    (h : r ∈ join (firsts l) ys) : e.key ≠ r.1.1 := by
  obtain ⟨f, hf, hr⟩ := List.mem_filterMap.mp (fst_mem_of_mem_join h)
  obtain ⟨u, -, hu⟩ := Option.map_eq_some_iff.mp hr
  rintro heq
  refine hnd (List.mem_map.mpr ⟨f, hf, ?_⟩)
  rw [heq, ← hu]

/-- A second value on its own: it goes to the first value that comes next, so there must be
none. -/
theorem second_only_iff {k : ι} {t : β} {l : List (Entry ι α β)} (hkey : k ∉ l.map Entry.key) :
    (∀ r ∈ join (firsts l) ((k, t) :: seconds l), FromOneEntry l r) ↔ ∀ f ∈ l, f.fst = none := by
  rw [← firsts_eq_nil_iff]
  constructor
  · intro h
    by_contra hne
    obtain ⟨⟨k', u⟩, rest, hcons⟩ := List.exists_cons_of_ne_nil hne
    have hrow : (((k', u), some (k, t)) : (ι × α) × Option (ι × β))
        ∈ join (firsts l) ((k, t) :: seconds l) := by
      rw [hcons, join]
      exact List.mem_cons_self
    -- that row has its second value from an entry with another key
    have hne : k ≠ k' := key_ne_of_mem_join (e := ⟨k, none, none⟩) hkey hrow
    obtain ⟨f, hfl, hfu⟩ := List.mem_filterMap.mp (fst_mem_of_mem_join hrow)
    obtain ⟨v, -, hv⟩ := Option.map_eq_some_iff.mp hfu
    have hsnd := h _ hrow f hfl (congrArg Prod.fst hv)
    obtain ⟨w, -, hw⟩ := Option.map_eq_some_iff.mp hsnd.symm
    exact hne ((congrArg Prod.fst hw).symm.trans (congrArg Prod.fst hv))
  · intro hnil r hr
    rw [hnil] at hr
    exact absurd hr List.not_mem_nil

/-- A first value on its own: it takes the second value that comes next, so there must be none. -/
theorem first_only_iff {k : ι} {u : α} {l : List (Entry ι α β)} :
    (∀ r ∈ join ((k, u) :: firsts l) (seconds l), FromOneEntry (⟨k, some u, none⟩ :: l) r) ↔
      ∀ f ∈ l, f.snd = none := by
  rw [← seconds_eq_nil_iff]
  constructor
  · intro h
    by_contra hne
    -- the first row would take the second of another entry
    obtain ⟨p, rest, hcons⟩ := List.exists_cons_of_ne_nil hne
    have hrow : ((k, u), some p) ∈ join ((k, u) :: firsts l) (seconds l) := by
      rw [hcons, join]
      exact List.mem_cons_self
    exact absurd (h _ hrow _ List.mem_cons_self rfl) (by simp)
  · intro hnil r hr f hfl _
    have hsnd : f.snd = none := by
      rcases List.mem_cons.mp hfl with rfl | hfl
      · rfl
      · exact seconds_eq_nil_iff.mp hnil f hfl
    rw [hnil, join_nil] at hr
    obtain ⟨x, -, rfl⟩ := List.mem_map.mp hr
    rw [hsnd]
    rfl

/-- The condition after an entry with a second value only. -/
theorem aligned_second_only_iff {k : ι} {t : β} {l : List (Entry ι α β)} :
    Aligned (⟨k, none, some t⟩ :: l) ↔ ∀ f ∈ l, f.fst = none := by
  rw [Aligned, List.pairwise_cons]
  constructor
  · rintro ⟨hhead, -⟩ f hfl
    have h := (hhead f hfl).1 rfl
    cases hfst : f.fst with
    | none => rfl
    | some u => exact absurd (h (by simp [hfst])) (by simp)
  · intro hall
    refine ⟨fun f hfl => by simp [hall f hfl], ?_⟩
    exact List.pairwise_of_forall_mem_list fun f hfl g hgl => by simp [hall f hfl, hall g hgl]

/-- The condition after an entry with a first value only. -/
theorem aligned_first_only_iff {k : ι} {u : α} {l : List (Entry ι α β)} :
    Aligned (⟨k, some u, none⟩ :: l) ↔ ∀ f ∈ l, f.snd = none := by
  rw [Aligned, List.pairwise_cons]
  constructor
  · rintro ⟨hhead, -⟩ f hfl
    have h := (hhead f hfl).2 rfl
    cases hsnd : f.snd with
    | none => rfl
    | some t => exact absurd (h (by simp [hsnd])) (by simp)
  · intro hall
    refine ⟨fun f hfl => by simp [hall f hfl], ?_⟩
    exact List.pairwise_of_forall_mem_list fun f hfl g hgl => by simp [hall f hfl, hall g hgl]

/-- **When positions still correspond.** -/
theorem paired_iff {l : List (Entry ι α β)} (hnd : (l.map Entry.key).Nodup) :
    (∀ r ∈ join (firsts l) (seconds l), FromOneEntry l r) ↔ Aligned l := by
  induction l with
  | nil => simp [firsts, seconds, join, Aligned]
  | cons e l ih =>
    rw [List.map_cons, List.nodup_cons] at hnd
    obtain ⟨hkey, hnd⟩ := hnd
    obtain ⟨k, fst, snd⟩ := e
    -- the rows of the later entries, as the induction knows them
    have hlater : ∀ ys, (∀ r ∈ join (firsts l) ys, FromOneEntry (⟨k, fst, snd⟩ :: l) r) ↔
        ∀ r ∈ join (firsts l) ys, FromOneEntry l r := fun ys =>
      forall₂_congr fun r hr => fromOneEntry_cons_iff (key_ne_of_mem_join hkey hr)
    cases fst with
    | none =>
      have hf : firsts (⟨k, none, snd⟩ :: l) = firsts l := rfl
      cases snd with
      | none =>
        -- the entry is in neither list
        have hs : seconds (⟨k, none, none⟩ :: l) = seconds l := rfl
        rw [hf, hs, hlater, ih hnd, Aligned, Aligned, List.pairwise_cons]
        simp
      | some t =>
        have hs : seconds (⟨k, none, some t⟩ :: l) = (k, t) :: seconds l := rfl
        rw [hf, hs, hlater, second_only_iff hkey, aligned_second_only_iff]
    | some u =>
      have hf : firsts (⟨k, some u, snd⟩ :: l) = (k, u) :: firsts l := rfl
      cases snd with
      | none =>
        have hs : seconds (⟨k, some u, none⟩ :: l) = seconds l := rfl
        rw [hf, hs, first_only_iff, aligned_first_only_iff]
      | some t =>
        -- its values stand next to each other
        have hs : seconds (⟨k, some u, some t⟩ :: l) = (k, t) :: seconds l := rfl
        have hown : FromOneEntry (⟨k, some u, some t⟩ :: l) ((k, u), some (k, t)) := by
          intro f hfl heq
          rcases List.mem_cons.mp hfl with rfl | hfl
          · rfl
          · exact absurd (List.mem_map.mpr ⟨f, hfl, heq⟩) hkey
        rw [hf, hs, join, List.forall_mem_cons, hlater, ih hnd, Aligned, Aligned,
          List.pairwise_cons]
        exact ⟨fun h => ⟨fun f _ => ⟨fun _ _ => rfl, fun _ _ => rfl⟩, h.2⟩, fun h => ⟨hown, h.2⟩⟩

end Pairing
end Curarium
