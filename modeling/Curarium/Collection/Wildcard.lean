import Curarium.Collection.Lookup
import Curarium.Library.Lists

/-!
# What a wildcard collects

The import help says that a wildcard iterates through all objects of an array. `followJson` does
so, but keeps only the first value of what each element contributes. An element contributes more
than one value only through a further wildcard, so the values of `pre ++ ['*'] ++ suf` are the
values of the paths `pre ++ [i] ++ suf`, put one after the other, exactly when no further
wildcard opens on two elements that both lead to a value (`followJson_wildcard_iff`).

* `LeadsToArray` takes a path in its standard reading or in that of the code.
* `Reaches` is the meaning of a path with wildcards: some choice of elements leads to the value.
* `OneBranch` is the condition.
-/

namespace Curarium

open Json (Step)

namespace Collection

/-! ### Paths that lead to an array -/

/-- The path leads to an array with these elements, in one reading or the other. -/
def LeadsToArray (d : Json) (pre : List Step) (xs : List Json) : Prop :=
  lookup d pre = some (.arr xs) ∨ navigate d pre = some (.arr xs)

/-- A walk along a path that leads to an array ends at that array. -/
theorem LeadsToArray.walk_eq {d v : Json} {pre : List Step} {xs : List Json}
    (h : LeadsToArray d pre xs) (hv : walk d pre = some v) : v = .arr xs := by
  rcases h with hlook | hnav
  · exact walk_eq_lookup hv hlook
  · exact Option.some.inj ((navigate_of_walk hv).symm.trans hnav)

/-- Without wildcards in front, nothing is found past a step that cannot be walked. -/
theorem followSteps_append_none {s : Json} {p : List Step} (hstar : star ∉ p)
    (h : walk s p = none) (q : List Step) : followSteps s (p ++ q) = none := by
  -- on the first part; without a wildcard in it nothing is expanded before it breaks off
  induction p generalizing s with
  | nil => exact absurd h (by simp)
  | cons k p ih =>
    rw [walk_cons] at h
    cases p with
    | nil =>
      have hk : descend s k = none := by
        cases hd : descend s k with
        | none => rfl
        | some c => rw [hd] at h; exact absurd h (by simp)
      exact followSteps_of_descend_none hk q
    | cons l p =>
      rw [List.cons_append, List.cons_append, followSteps_cons]
      cases hd : descend s k with
      | none => rfl
      | some c =>
        rw [hd, Option.bind_some] at h
        have hl : l ≠ star := fun heq => hstar (by simp [heq])
        rw [Option.bind_some, advance_of_ne_star hl]
        exact ih (fun hmem => hstar (by simp [hmem])) h

/-! ### What a path with wildcards reaches -/

/-- Some choice of elements for the wildcards leads from the structure to a present value. -/
inductive Reaches : Json → List Step → Json → Prop where
  | last {s v : Json} {k : Step} : descend s k = some v → Reaches s [k] v
  | step {s current v : Json} {k l : Step} {rest : List Step} :
    descend s k = some current → Reaches current (l :: rest) v → Reaches s (k :: l :: rest) v
  | wild {s v : Json} {k : Step} {rest : List Step} {xs : List Json} {i : Nat} :
    descend s k = some (.arr xs) → Reaches (.arr xs) (.int i :: rest) v →
      Reaches s (k :: star :: rest) v

/-- Is there anything at the end of the path? -/
def Contributes (s : Json) (p : List Step) : Prop := ∃ v, Reaches s p v

/-- An index past the end contributes nothing: the extra iteration of the loop is harmless. -/
theorem followSteps_past_end (xs : List Json) {i : Nat} (h : xs.length ≤ i) (rest : List Step) :
    followSteps (.arr xs) (.int i :: rest) = none := by
  have hd : descend (.arr xs) (.int i) = none := by
    rw [descend_arr_nat, List.getElem?_eq_none h, Option.filter_none]
  exact followSteps_of_descend_none hd rest

theorem mem_expand_of_followSteps {xs : List Json} {i : Nat} {rest : List Step} {v : Json}
    {vs : List Json} (h : followSteps (.arr xs) (.int i :: rest) = some (v :: vs)) :
    v ∈ expand xs rest := by
  have hi : i < xs.length := by
    by_contra hge
    rw [followSteps_past_end xs (by omega)] at h
    exact absurd h (by simp)
  refine List.mem_filterMap.mpr ⟨i, List.mem_range.mpr (by omega), ?_⟩
  rw [h]
  rfl

/-- **`followJson` finds something exactly when the path reaches something.** -/
theorem contributes_iff (s : Json) (p : List Step) :
    Contributes s p ↔ ∃ v vs, followSteps s p = some (v :: vs) := by
  -- strong induction on the length: expanding a wildcard replaces the head of the rest
  induction hn : p.length using Nat.strongRecOn generalizing s p with
  | ind n ih =>
    subst hn
    constructor
    · rintro ⟨v, hv⟩
      cases hv with
      | last hd => exact ⟨v, [], by rw [followSteps_singleton, hd, Option.map_some]⟩
      | @step _ current _ k l rest hd hrest =>
        obtain ⟨w, ws, hw⟩ := (ih _ (by simp) current (l :: rest) rfl).mp ⟨v, hrest⟩
        rcases advance_cases current l rest with ⟨xs, rfl, rfl, -⟩ | hadv
        · -- a wildcard selects nothing from an array by name
          exfalso
          cases hrest with
          | last hs => rw [descend_arr_star] at hs; exact absurd hs (by simp)
          | step hs _ => rw [descend_arr_star] at hs; exact absurd hs (by simp)
          | wild hs _ => rw [descend_arr_star] at hs; exact absurd hs (by simp)
        · exact ⟨w, ws, by rw [followSteps_cons, hd, Option.bind_some, hadv, hw]⟩
      | @wild _ _ k rest xs i hd hrest =>
        obtain ⟨w, ws, hw⟩ := (ih _ (by simp) (.arr xs) (.int i :: rest) rfl).mp ⟨v, hrest⟩
        obtain ⟨u, us, hu⟩ := List.exists_cons_of_ne_nil
          (List.ne_nil_of_mem (mem_expand_of_followSteps hw))
        exact ⟨u, us, by rw [followSteps_cons, hd, Option.bind_some, advance_star, hu]⟩
    · rintro ⟨v, vs, h⟩
      match p, ih, h with
      | [], _, h => exact absurd h (by simp)
      | [k], _, h =>
        rw [followSteps_singleton] at h
        obtain ⟨w, hd, -⟩ := Option.map_eq_some_iff.mp h
        exact ⟨w, .last hd⟩
      | k :: l :: rest, ih, h =>
        rw [followSteps_cons] at h
        obtain ⟨current, hd, hadv⟩ := Option.bind_eq_some_iff.mp h
        rcases advance_cases current l rest with ⟨xs, rfl, rfl, hexp⟩ | hplain
        · rw [hexp] at hadv
          have hmem : v ∈ expand xs rest := by rw [Option.some.inj hadv]; simp
          obtain ⟨c, -, hc⟩ := List.mem_filterMap.mp hmem
          obtain ⟨ws, hws, hhead⟩ := Option.bind_eq_some_iff.mp hc
          obtain ⟨us, rfl⟩ := List.head?_eq_some_iff.mp hhead
          obtain ⟨w, hw⟩ := (ih _ (by simp) (.arr xs) (.int c :: rest) rfl).mpr ⟨v, us, hws⟩
          exact ⟨w, .wild hd hw⟩
        · rw [hplain] at hadv
          obtain ⟨w, hw⟩ := (ih _ (by simp) current (l :: rest) rfl).mpr ⟨v, vs, hadv⟩
          exact ⟨w, .step hd hw⟩

/-! ### How many values an element contributes -/

/-- At most one element of the array contributes along the rest of the path. -/
def OneContributes (ys : List Json) (rest : List Step) : Prop :=
  ∀ i j, i < ys.length → j < ys.length → Contributes (.arr ys) (.int i :: rest) →
    Contributes (.arr ys) (.int j :: rest) → i = j

theorem isSome_head_iff (s : Json) (p : List Step) :
    ((followSteps s p).bind List.head?).isSome = true ↔ Contributes s p := by
  rw [contributes_iff]
  cases followSteps s p with
  | none => simp
  | some l => cases l <;> simp

theorem length_expand_le_one_iff (ys : List Json) (rest : List Step) :
    (expand ys rest).length ≤ 1 ↔ OneContributes ys rest := by
  unfold expand OneContributes
  rw [Lists.length_filterMap_le_one_iff List.nodup_range]
  simp only [isSome_head_iff, List.mem_range]
  constructor
  · exact fun h i j hi hj => h i (by omega) j (by omega)
  · intro h i _ j _ hci hcj
    -- past the end of the array nothing contributes
    have hlt : ∀ c, Contributes (.arr ys) (.int (c : Nat) :: rest) → c < ys.length := by
      intro c hc
      by_contra hge
      obtain ⟨v, vs, hv⟩ := (contributes_iff _ _).mp hc
      rw [followSteps_past_end ys (by omega)] at hv
      exact absurd hv (by simp)
    exact h i j (hlt i hci) (hlt j hcj) hci hcj

/-- A wildcard that opens on an array cannot be walked through as a name. -/
theorem star_split_unique {s : Json} {q q' r r' : List Step} {xs ys : List Json}
    (h : q ++ star :: r = q' ++ star :: r') (hx : walk s q = some (.arr xs))
    (hy : walk s q' = some (.arr ys)) : q = q' ∧ r = r' := by
  -- a walk that stands at an array does not get past a wildcard
  have hblock : ∀ (p t : List Step) (zs ws : List Json), walk s p = some (.arr zs) →
      walk s (p ++ star :: t) ≠ some (.arr ws) := by
    intro p t zs ws hp hpt
    rw [walk_append, hp, Option.bind_some, walk_cons, descend_arr_star] at hpt
    exact absurd hpt (by simp)
  rcases List.append_eq_append_iff.mp h with ⟨t, hq', hr⟩ | ⟨t, hq, hr⟩
  · cases t with
    | nil => simp_all
    | cons a t =>
      obtain ⟨rfl, rfl⟩ := List.cons.inj hr
      rw [hq'] at hy
      exact absurd hy (hblock q t xs ys hx)
  · cases t with
    | nil => simp_all
    | cons a t =>
      obtain ⟨rfl, rfl⟩ := List.cons.inj hr
      rw [hq] at hx
      exact absurd hx (hblock q' t ys xs hy)

/-- **A path yields at most one value** exactly when the wildcard it opens, if any, opens on an
array with at most one element that contributes. -/
theorem length_followSteps_le_one_iff (s : Json) (p : List Step) :
    ((followSteps s p).getD []).length ≤ 1 ↔
      ∀ q r ys, q ≠ [] → p = q ++ star :: r → walk s q = some (.arr ys) → OneContributes ys r := by
  rcases followSteps_cases s p with ⟨q, r, xs, hq, hp, hw, heq⟩ | ⟨hno, heq⟩
  · -- the path is expanded, at one wildcard only
    rw [heq, Option.getD_some, length_expand_le_one_iff]
    constructor
    · intro h q' r' ys _ hp' hw'
      obtain ⟨rfl, rfl⟩ := star_split_unique (hp.symm.trans hp') hw hw'
      obtain rfl : xs = ys := Json.arr.inj (Option.some.inj (hw.symm.trans hw'))
      exact h
    · exact fun h => h q r xs hq hp hw
  · -- it is never expanded, and leads to one value at most
    refine ⟨fun _ q r ys hq hp hw => absurd hw (hno q r ys hq hp), fun _ => ?_⟩
    cases p with
    | nil => simp
    | cons k p =>
      rw [heq (by simp)]
      cases walk s (k :: p) <;> simp

/-! ### The expansion -/

/-- The condition: along `pre ++ [i] ++ suf`, the next wildcard that opens on an array opens on
one with at most one element that contributes. -/
def OneBranch (d : Json) (pre suf : List Step) (n : Nat) : Prop :=
  ∀ i < n, ∀ s₁ s₂ ys, suf = s₁ ++ star :: s₂ → walk d (pre ++ .int i :: s₁) = some (.arr ys) →
    OneContributes ys s₂

/-- The expansion without the extra iteration, one part for each element. -/
theorem expand_eq_flatMap (xs : List Json) (suf : List Step) :
    expand xs suf = (List.range xs.length).flatMap fun i : Nat =>
      ((followSteps (.arr xs) (.int i :: suf)).getD []).take 1 := by
  have hpart : ∀ c : Nat, ((followSteps (.arr xs) (.int c :: suf)).bind List.head?).toList
      = ((followSteps (.arr xs) (.int c :: suf)).getD []).take 1 := by
    intro c
    cases followSteps (.arr xs) (.int c :: suf) with
    | none => rfl
    | some l => cases l <;> rfl
  unfold expand
  -- the loop goes one past the end, where nothing is found
  rw [List.range_succ, List.filterMap_append, List.filterMap_cons,
    followSteps_past_end xs (Nat.le_refl _)]
  simp only [Option.bind_none, List.filterMap_nil, List.append_nil]
  rw [List.filterMap_eq_flatMap_toList]
  exact List.flatMap_congr fun c _ => hpart c

/-- **Wildcard expansion.** The values of a path with a wildcard are those of the paths with an
index in its place, in order, exactly when no further wildcard has two ways to go. -/
theorem followJson_wildcard_iff (d : Json) (pre suf : List Step) (xs : List Json) (hne : pre ≠ [])
    (hstar : star ∉ pre) (hlead : LeadsToArray d pre xs) :
    (followJson d (.steps (pre ++ star :: suf))).getD []
        = (List.range xs.length).flatMap (fun i : Nat =>
            (followJson d (.steps (pre ++ .int i :: suf))).getD [])
      ↔ OneBranch d pre suf xs.length := by
  simp only [followJson]
  cases hw : walk d pre with
  | none =>
    -- the code does not get to the array at all
    have hnone := followSteps_append_none hstar hw
    simp only [hnone, Option.getD_none]
    refine ⟨fun _ i _ s₁ s₂ ys _ hwalk => ?_, fun _ => by simp⟩
    rw [walk_append, hw] at hwalk
    exact absurd hwalk (by simp)
  | some v =>
    obtain rfl := hlead.walk_eq hw
    have hpath : ∀ i : Nat, followSteps d (pre ++ .int i :: suf)
        = followSteps (.arr xs) (.int i :: suf) := fun i => by
      rw [followSteps_append hne (by simp) hw, advance_of_ne_star (by simp)]
    rw [followSteps_append hne (by simp) hw, advance_star, Option.getD_some, expand_eq_flatMap]
    simp only [hpath]
    rw [Lists.flatMap_take_one_iff]
    unfold OneBranch
    simp only [List.mem_range, length_followSteps_le_one_iff]
    refine forall₂_congr fun i _ => ?_
    constructor
    · intro h s₁ s₂ ys hsuf hwalk
      refine h (.int i :: s₁) s₂ ys (by simp) (by rw [hsuf, List.cons_append]) ?_
      rwa [walk_append, hw, Option.bind_some] at hwalk
    · intro h q r ys hq hsuf hwalk
      obtain ⟨k, q, rfl⟩ := List.exists_cons_of_ne_nil hq
      obtain ⟨rfl, htail⟩ := List.cons.inj hsuf
      refine h q r ys htail ?_
      rw [walk_append, hw, Option.bind_some, hwalk]

/-- A record with one wildcard's worth of values. -/
def flatRecord : Json :=
  .obj [("subject", .arr [.obj [("topic", .str "stars")], .null, .obj [("topic", .str "night")]])]

/-- A record in which one element holds two values below a second wildcard. -/
def nestedRecord : Json :=
  .obj [("subject", .arr [.obj [("topic", .arr [.obj [("name", .str "stars")],
    .obj [("name", .str "night")]])]])]

/-- One wildcard, with an element that contributes nothing: the paths by index agree with it. -/
theorem followJson_wildcard_flat :
    (followJson flatRecord (.steps ([.str "subject"] ++ star :: [.str "topic"]))).getD []
      = (List.range 3).flatMap fun i : Nat =>
          (followJson flatRecord (.steps ([.str "subject"] ++ .int i :: [.str "topic"]))).getD [] :=
  (followJson_wildcard_iff flatRecord [.str "subject"] [.str "topic"]
    [.obj [("topic", .str "stars")], .null, .obj [("topic", .str "night")]] (by simp) (by decide)
    (Or.inl (by decide))).mpr fun i _ s₁ s₂ ys h _ => by
      rcases s₁ with _ | ⟨k, _ | ⟨l, s₁⟩⟩ <;> simp at h

/-- Two wildcards: the second value of the one element is lost. -/
theorem followJson_wildcard_nested :
    LeadsToArray nestedRecord [.str "subject"]
        [.obj [("topic", .arr [.obj [("name", .str "stars")], .obj [("name", .str "night")]])]] ∧
      (followJson nestedRecord
          (.steps ([.str "subject"] ++ star :: [.str "topic", star, .str "name"]))).getD []
        ≠ (List.range 1).flatMap fun i : Nat => (followJson nestedRecord
          (.steps ([.str "subject"] ++ .int i :: [.str "topic", star, .str "name"]))).getD [] :=
  ⟨Or.inl (by decide), by decide⟩

end Collection
end Curarium
