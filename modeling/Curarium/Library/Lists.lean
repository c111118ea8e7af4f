import Mathlib.Data.List.Forall2
import Mathlib.Data.List.Nodup

/-!
# Collecting from lists

Facts about collecting values from a list, over arbitrary types:

* `flatMap_take_one_iff` — keeping the first entry of every part loses nothing exactly when every
  part has at most one;
* `length_filterMap_le_one_iff` — a selection from distinct items has at most one entry exactly
  when no two items are selected;
* `lookup_of_mem` — in an association list with distinct keys, `lookup` finds every entry;
* `exists_forall₂_iff`, `exists_rel_iff` — every entry has a partner exactly when there is a list
  of partners;
* `flatMap_eq_of_length_eq` — where every entry contributes the same, only their number counts;
* `mapM_eq_some_iff`, `isSome_mapM_iff` — what a function that may fail makes of a list, and when it
  gets through;
* `lookup_map_snd`, `lookup_filter_fst` — `lookup` after the values are mapped, or some keys are taken out;
* `infix_append_cons_iff` — what is in a list without an entry is before or after that entry;
* `map_eq_self_iff` — a map that leaves the list as it is leaves every entry as it is;
* `filterMap_subset` — a selection that another one contains is as long only if they are the same;
* `nodup_eraseDups` — nothing comes twice in a list without its duplicates.
-/

namespace Curarium
namespace Lists

variable {α β : Type*}

/-- Keeping the first entry of each part never makes the whole longer. -/
theorem length_flatMap_take_one_le (f : α → List β) (l : List α) :
    (l.flatMap fun x => (f x).take 1).length ≤ (l.flatMap f).length := by
  induction l with
  | nil => simp
  | cons a l ih =>
    rw [List.flatMap_cons, List.flatMap_cons, List.length_append, List.length_append,
      List.length_take]
    omega

/-- **Keeping the first entry of every part** loses nothing exactly when every part has at most
one entry. -/
theorem flatMap_take_one_iff (f : α → List β) (l : List α) :
    (l.flatMap fun x => (f x).take 1) = l.flatMap f ↔ ∀ x ∈ l, (f x).length ≤ 1 := by
  constructor
  · intro h
    -- the lengths alone tell: nothing gets longer, so nothing may get shorter
    have hlen := congrArg List.length h
    clear h
    induction l with
    | nil => simp
    | cons a l ih =>
      rw [List.flatMap_cons, List.flatMap_cons, List.length_append, List.length_append,
        List.length_take] at hlen
      have hle := length_flatMap_take_one_le f l
      rw [List.forall_mem_cons]
      exact ⟨by omega, ih (by omega)⟩
  · intro h
    induction l with
    | nil => rfl
    | cons a l ih =>
      rw [List.forall_mem_cons] at h
      rw [List.flatMap_cons, List.flatMap_cons, List.take_of_length_le h.1, ih h.2]

/-- **A selection from distinct items** has at most one entry exactly when no two items are
selected. -/
theorem length_filterMap_le_one_iff {f : α → Option β} {l : List α} (hl : l.Nodup) :
    (l.filterMap f).length ≤ 1 ↔
      ∀ a ∈ l, ∀ b ∈ l, (f a).isSome = true → (f b).isSome = true → a = b := by
  induction l with
  | nil => simp
  | cons a l ih =>
    rw [List.nodup_cons] at hl
    have hsel : (l.filterMap f).length = 0 ↔ ∀ b ∈ l, f b = none := by
      rw [List.length_eq_zero_iff, List.filterMap_eq_nil_iff]
    cases ha : f a with
    | none =>
      rw [List.filterMap_cons_none ha, ih hl.2]
      constructor
      · intro h x hx y hy hfx hfy
        -- what is selected is in the rest of the list
        have hne : ∀ z ∈ a :: l, (f z).isSome = true → z ∈ l := by
          intro z hz hfz
          rcases List.mem_cons.mp hz with rfl | hz
          · rw [ha] at hfz; exact absurd hfz (by simp)
          · exact hz
        exact h x (hne x hx hfx) y (hne y hy hfy) hfx hfy
      · exact fun h x hx y hy => h x (by simp [hx]) y (by simp [hy])
    | some v =>
      rw [List.filterMap_cons_some ha, List.length_cons]
      constructor
      · intro h
        have hnone := hsel.mp (by omega)
        -- the first one is selected, so no other is
        have heq : ∀ z ∈ a :: l, (f z).isSome = true → z = a := by
          intro z hz hfz
          rcases List.mem_cons.mp hz with rfl | hz
          · rfl
          · rw [hnone z hz] at hfz; exact absurd hfz (by simp)
        exact fun x hx y hy hfx hfy => (heq x hx hfx).trans (heq y hy hfy).symm
      · intro h
        have hzero : (l.filterMap f).length = 0 := by
          refine hsel.mpr fun b hb => ?_
          by_contra hne
          have hab : a = b := h a (by simp) b (by simp [hb]) (by simp [ha])
            (by rwa [Option.isSome_iff_ne_none])
          exact hl.1 (hab ▸ hb)
        omega

/-- **In an association list with distinct keys**, `lookup` finds every entry. -/
theorem lookup_of_mem [BEq α] [LawfulBEq α] {l : List (α × β)} (hnd : (l.map Prod.fst).Nodup)
    {k : α} {v : β} (hmem : (k, v) ∈ l) : l.lookup k = some v := by
  induction l with
  | nil => exact absurd hmem List.not_mem_nil
  | cons m l ih =>
    obtain ⟨k', w⟩ := m
    rw [List.map_cons, List.nodup_cons] at hnd
    rcases List.mem_cons.mp hmem with heq | htail
    · obtain ⟨rfl, rfl⟩ := Prod.mk.inj heq
      simp
    · -- the keys are distinct, so the pair in front has another one
      have hne : k ≠ k' := by
        rintro rfl
        exact hnd.1 (List.mem_map.mpr ⟨(k, v), htail, rfl⟩)
      rw [List.lookup_cons, beq_eq_false_iff_ne.mpr hne]
      exact ih hnd.2 htail

/-- An element on the left has one on the right. -/
theorem exists_of_forall₂ {r : α → β → Prop} {l : List α} {m : List β} (h : List.Forall₂ r l m) {a : α}
    (ha : a ∈ l) : ∃ b ∈ m, r a b := by
  induction h with
  | nil => exact absurd ha List.not_mem_nil
  | cons hab _ ih =>
    rcases List.mem_cons.mp ha with rfl | ha
    · exact ⟨_, List.mem_cons_self, hab⟩
    · obtain ⟨b, hb, hr⟩ := ih ha
      exact ⟨b, List.mem_cons_of_mem _ hb, hr⟩

theorem exists_forall₂_iff {r : α → β → Prop} {l : List α} :
    (∃ m, List.Forall₂ r l m) ↔ ∀ a ∈ l, ∃ b, r a b := by
  induction l with
  | nil => exact ⟨fun _ _ h => (nomatch h), fun _ => ⟨[], .nil⟩⟩
  | cons a l ih =>
    rw [List.forall_mem_cons, ← ih]
    constructor
    · rintro ⟨_, hm⟩
      cases hm with
      | cons hab hlm => exact ⟨⟨_, hab⟩, _, hlm⟩
    · rintro ⟨⟨b, hab⟩, m, hlm⟩
      exact ⟨b :: m, .cons hab hlm⟩

/-- The same for an option. -/
theorem exists_rel_iff {r : α → β → Prop} {o : Option α} :
    (∃ m, Option.Rel r o m) ↔ ∀ a ∈ o, ∃ b, r a b := by
  cases o with
  | none => exact ⟨fun _ _ h => (nomatch h), fun _ => ⟨none, .none⟩⟩
  | some a =>
    constructor
    · rintro ⟨_, hm⟩ a' ha
      obtain rfl := Option.mem_some_iff.mp ha
      cases hm with
      | some hab => exact ⟨_, hab⟩
    · intro h
      obtain ⟨b, hab⟩ := h a rfl
      exact ⟨some b, .some hab⟩

theorem flatMap_eq_of_length_eq {f : α → List β} (hf : ∀ a a', f a = f a') {l l' : List α}
    (h : l.length = l'.length) : l.flatMap f = l'.flatMap f := by
  induction l generalizing l' with
  | nil => rw [List.length_eq_zero_iff.mp h.symm]
  | cons a l ih =>
    cases l' with
    | nil => cases h
    | cons a' l' =>
      rw [List.flatMap_cons, List.flatMap_cons, hf a a', ih (Nat.succ.inj h)]

/-- A list is mapped to the list of what the function gives, entry by entry. -/
theorem mapM_eq_some_iff {f : α → Option β} {l : List α} {m : List β} :
    l.mapM f = some m ↔ List.Forall₂ (fun a b => f a = some b) l m := by
  induction l generalizing m with
  | nil =>
    rw [List.mapM_nil, List.forall₂_nil_left_iff]
    exact Option.some_inj.trans eq_comm
  | cons a l ih =>
    rw [List.mapM_cons, List.forall₂_cons_left_iff]
    constructor
    · intro h
      obtain ⟨b, hb, h⟩ := Option.bind_eq_some_iff.mp h
      obtain ⟨m', hm', h⟩ := Option.bind_eq_some_iff.mp h
      exact ⟨b, m', hb, ih.mp hm', (Option.some.inj h).symm⟩
    · rintro ⟨b, m', hb, hm', rfl⟩
      rw [hb, ih.mpr hm']
      rfl

/-- A list is mapped to the end exactly if the function fails on none of its entries. -/
theorem isSome_mapM_iff {f : α → Option β} {l : List α} :
    (l.mapM f).isSome = true ↔ ∀ a ∈ l, (f a).isSome = true := by
  simp only [Option.isSome_iff_exists, mapM_eq_some_iff, exists_forall₂_iff]

theorem lookup_map_snd {γ : Type*} [BEq α] (g : β → γ) (l : List (α × β)) (k : α) :
    (l.map fun m => (m.1, g m.2)).lookup k = (l.lookup k).map g := by
  induction l with
  | nil => rfl
  | cons m l ih =>
    rw [List.map_cons, List.lookup_cons, List.lookup_cons, ih]
    cases k == m.1 <;> rfl

theorem lookup_filter_fst [BEq α] [LawfulBEq α] (p : α → Bool) (l : List (α × β)) (k : α) :
    (l.filter fun m => p m.1).lookup k = if p k = true then l.lookup k else none := by
  induction l with
  | nil =>
    split
    · rfl
    · rfl
  | cons m l ih =>
    rw [List.filter_cons, List.lookup_cons]
    by_cases hp : p m.1 = true
    · rw [if_pos hp, List.lookup_cons, ih]
      cases hk : k == m.1 with
      | true =>
        obtain rfl := LawfulBEq.eq_of_beq hk
        exact (if_pos hp).symm
      | false => rfl
    · rw [if_neg hp, ih]
      cases hk : k == m.1 with
      | true =>
        obtain rfl := LawfulBEq.eq_of_beq hk
        rw [if_neg hp, if_neg hp]
      | false => rfl

/-- A part of a list does not reach over an entry that is not in it. -/
theorem infix_append_cons_iff {m : α} {v : List α} (hm : m ∉ v) (a b : List α) :
    v <:+: a ++ m :: b ↔ v <:+: a ∨ v <:+: b := by
  constructor
  · rintro ⟨s, t, h⟩
    rcases List.append_eq_append_iff.mp h with ⟨a', ha, -⟩ | ⟨c, hc, hrest⟩
    · exact .inl ⟨s, a', ha.symm⟩
    · cases c with
      | nil =>
        rw [List.append_nil] at hc
        exact .inl ⟨s, [], by rw [List.append_nil, hc]⟩
      | cons d c =>
        obtain ⟨rfl, rfl⟩ := List.cons.inj hrest
        -- the entry is before the part
        rcases List.append_eq_append_iff.mp hc with ⟨x, -, hv⟩ | ⟨x, -, hx⟩
        · exact absurd (hv ▸ List.mem_append_right x List.mem_cons_self) hm
        · cases x with
          | nil =>
            rw [List.nil_append] at hx
            exact absurd (hx ▸ List.mem_cons_self) hm
          | cons d x =>
            obtain ⟨-, rfl⟩ := List.cons.inj hx
            exact .inr ⟨x, t, rfl⟩
  · rintro (h | h)
    · exact h.trans (List.prefix_append a _).isInfix
    · exact (h.trans (List.suffix_cons m b).isInfix).trans (List.suffix_append a _).isInfix

theorem infix_cons_iff {m : α} {v : List α} (hm : m ∉ v) (b : List α) : v <:+: m :: b ↔ v <:+: b := by
  have h := infix_append_cons_iff hm [] b
  rw [List.nil_append, List.infix_nil] at h
  rw [h, or_iff_right_of_imp]
  rintro rfl
  exact List.nil_infix

/-- A list stays as it is exactly if its entries do. -/
theorem map_eq_self_iff {f : α → α} {l : List α} : l.map f = l ↔ ∀ a ∈ l, f a = a := by
  have h : l.map f = l.map id ↔ ∀ a ∈ l, f a = id a := List.map_inj_left
  rwa [List.map_id] at h

/-- **A selection that another one contains** is as long only if they are the same. -/
theorem filterMap_subset {f g : α → Option β} {l : List α} (h : ∀ a ∈ l, ∀ b, f a = some b → g a = some b) :
    (l.filterMap f).length ≤ (l.filterMap g).length ∧
      ((l.filterMap f).length = (l.filterMap g).length → ∀ a ∈ l, f a = g a) := by
  induction l with
  | nil => exact ⟨Nat.le_refl _, fun _ _ ha => absurd ha List.not_mem_nil⟩
  | cons a l ih =>
    obtain ⟨ha, hl⟩ := List.forall_mem_cons.mp h
    obtain ⟨hle, heq⟩ := ih hl
    rw [List.forall_mem_cons, List.filterMap_cons, List.filterMap_cons]
    cases hf : f a with
    | some b =>
      rw [ha b hf, List.length_cons, List.length_cons]
      exact ⟨Nat.succ_le_succ hle, fun hlen => ⟨rfl, heq (Nat.succ.inj hlen)⟩⟩
    | none =>
      cases g a with
      | none => exact ⟨hle, fun hlen => ⟨rfl, heq hlen⟩⟩
      | some b =>
        rw [List.length_cons]
        exact ⟨Nat.le_succ_of_le hle, fun hlen => absurd hlen (Nat.ne_of_lt (Nat.lt_succ_of_le hle))⟩

/-- What a fold does nothing with can be taken off the front. -/
theorem foldl_dropWhile {σ : Type*} {f : σ → α → σ} {s : σ} {p : α → Bool} (h : ∀ a, p a = true → f s a = s)
    (l : List α) : (l.dropWhile p).foldl f s = l.foldl f s := by
  induction l with
  | nil => rfl
  | cons a l ih =>
    rw [List.dropWhile_cons]
    split
    case isTrue hp => rw [ih, List.foldl_cons, h a hp]
    case isFalse => rfl

theorem nodup_eraseDups [BEq α] [LawfulBEq α] : ∀ l : List α, l.eraseDups.Nodup
  | [] => List.nodup_nil
  | a :: l => by
    rw [List.eraseDups_cons, List.nodup_cons]
    refine ⟨fun h => ?_, nodup_eraseDups (l.filter fun b => !b == a)⟩
    -- what is left of the rest after the first entry does not have it
    rw [List.mem_eraseDups, List.mem_filter] at h
    simp at h
  termination_by l => l.length
  decreasing_by exact Nat.lt_succ_of_le (List.length_filter_le _ _)

end Lists
end Curarium
