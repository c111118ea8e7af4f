import Curarium.Collection.Lookup

/-!
# Where `follow_json` leaves the standard reading

A path without wildcards either follows the standard reading of a document or leaves it. There are
three ways to leave it (`StrayStep`): an index counts from the end of an array, an index picks a bit
of an integer, and a string is opened as a document.

* `Leads` is a path of standard and stray steps, with what is passed on the way present.
  `walk_iff_leads` says that these are the paths that the recursion follows.
* A path that strays is none that the standard reading can follow (`Leads.lookup_eq_none`).
* `followJson_eq_standard_iff` — the values of the code are those of the standard reading exactly
  when no member name is a numeral and the path does not stray.
-/

namespace Curarium

/-! ### A text is parsed to a container -/

theorem parseValue_container {fuel depth : Nat} {c : Char} {cs rest : List Char} {j : Json}
    (hc : startsContainer (c :: cs) = true) (h : parseValue fuel depth (c :: cs) = some (j, rest)) :
    (∃ xs, j = .arr xs) ∨ ∃ ms, j = .obj ms := by
  cases fuel with
  | zero => exact absurd h (by simp [parseValue])
  | succ fuel =>
    -- the first character decides which of the two it is
    rcases (Bool.or_eq_true _ _).mp hc with hc | hc
    · obtain rfl := beq_iff_eq.mp hc
      rw [parseValue] at h
      split at h
      · cases h
      · split at h
        · exact Or.inl ⟨_, (congrArg Prod.fst (Option.some.inj h)).symm⟩
        · obtain ⟨p, -, h⟩ := Option.bind_eq_some_iff.mp h
          obtain ⟨r, -, h⟩ := Option.map_eq_some_iff.mp h
          exact Or.inl ⟨_, (congrArg Prod.fst h).symm⟩
        · cases h
    · obtain rfl := beq_iff_eq.mp hc
      rw [parseValue] at h
      split at h
      · cases h
      · split at h
        · exact Or.inr ⟨_, (congrArg Prod.fst (Option.some.inj h)).symm⟩
        · obtain ⟨p, -, h⟩ := Option.bind_eq_some_iff.mp h
          obtain ⟨r, -, h⟩ := Option.map_eq_some_iff.mp h
          exact Or.inr ⟨_, (congrArg Prod.fst h).symm⟩
        · cases h

/-- **What a text is parsed to** is an array or an object. -/
theorem Json.parse_container {t : String} {j : Json} (h : Json.parse t = some j) :
    (∃ xs, j = .arr xs) ∨ ∃ ms, j = .obj ms := by
  rw [Json.parse, Json.parseText] at h
  -- after the blanks a container begins, it is read, and only blanks are left
  split at h
  · next start _ =>
    split at h
    · next hstart =>
      split at h
      · next k rest hvalue =>
        split at h
        · obtain rfl := Option.some.inj h
          cases start with
          | nil => exact absurd hstart (by decide)
          | cons c cs => exact parseValue_container hstart hvalue
        · cases h
      · cases h
    · cases h
  · cases h

namespace Collection

open Json (Step)

/-! ### Stray steps -/

/-- A step that the code takes and the standard reading does not. -/
inductive StrayStep : Json → Step → Json → Prop
  /-- A negative index, from the end of an array. -/
  | fromEnd {xs k i v} (hk : cpath k = .int i) (hneg : i < 0) (hv : Json.arrayAt xs i = some v) :
      StrayStep (.arr xs) k v
  /-- A bit of an integer. -/
  | bit {z k i} (hk : cpath k = .int i) : StrayStep (.int z) k (.int (Json.bitAt z i))
  /-- A member or an element of the document that a string is the text of. -/
  | opened {t j k v} (hj : Json.parse t = some j) (hv : j.index (cpath k) = some v) :
      StrayStep (.str t) k v

/-- A member name that is a numeral. -/
def NumeralName (s : Json) (k : Step) : Prop := ∃ t ms, k = .str t ∧ s = .obj ms ∧ isI t = true

/-- A path of steps that the code takes, to values that are present: standard ones, which do not have
a numeral for a member name, and stray ones. The flag says whether there is a stray one. -/
inductive Leads : Bool → Json → List Step → Json → Prop
  | done {s} : Leads false s [] s
  | standard {b s k u p v} (hstep : lookupStep s k = some u) (hname : ¬NumeralName s k)
      (hpresent : u.present = true) (hrest : Leads b u p v) : Leads b s (k :: p) v
  | stray {b s k u p v} (hstep : StrayStep s k u) (hpresent : u.present = true)
      (hrest : Leads b u p v) : Leads true s (k :: p) v

/-- Nothing is selected from an empty container. -/
theorem present_of_index {j v : Json} {k : Step} (h : j.index k = some v) : j.present = true := by
  cases j with
  | obj ms =>
    cases ms with
    | nil => cases k <;> exact absurd h (by simp [Json.index])
    | cons m ms => rfl
  | arr xs =>
    cases xs with
    | nil =>
      cases k with
      | str s => exact absurd h (by simp [Json.index])
      | int i =>
        exfalso
        simp only [Json.index, Json.arrayAt, List.getElem?_nil, ite_self] at h
        cases h
    | cons x xs => rfl
  | int z => rfl
  | float f => rfl
  | null => exact absurd h (by simp [Json.index])
  | bool b => exact absurd h (by simp [Json.index])
  | str t => exact absurd h (by simp [Json.index])

theorem descend_iff_read {s v : Json} {k : Step} :
    descend s k = some v ↔ read s k = some v ∧ v.present = true := by
  constructor
  · exact read_of_descend
  · rintro ⟨hread, hv⟩
    obtain ⟨j, hj, hidx⟩ := Option.bind_eq_some_iff.mp hread
    rw [descend, hj, Option.bind_some, if_pos (present_of_index hidx), hidx, Option.filter_some, if_pos hv]

/-- The standard reading of an array, by the step as the code reads it. -/
theorem lookupStep_arr (xs : List Json) (k : Step) :
    lookupStep (.arr xs) k =
      match cpath k with
      | .int i => if 0 ≤ i then xs[i.toNat]? else none
      | .str _ => none := by
  cases k with
  | int i => rfl
  | str t =>
    by_cases ht : isI t = true
    · simp only [lookupStep, cpath, ht, true_and, if_true]
    · simp only [lookupStep, cpath, ht, Bool.false_eq_true, false_and, if_false]

/-- The standard reading does not take a stray step. -/
theorem lookupStep_none_of_stray {s u : Json} {k : Step} (h : StrayStep s k u) :
    lookupStep s k = none := by
  cases h with
  | fromEnd hk hneg hv =>
    rw [lookupStep_arr, hk]
    exact if_neg (Int.not_le.mpr hneg)
  | bit hk => cases k <;> rfl
  | opened hj hv => cases k <;> rfl

theorem numeralName_obj_iff {ms : List (String × Json)} {t : String} :
    NumeralName (.obj ms) (.str t) ↔ isI t = true :=
  ⟨fun ⟨_, _, hk, _, ht⟩ => Step.str.inj hk ▸ ht, fun ht => ⟨t, ms, rfl, rfl, ht⟩⟩

theorem not_numeralName_arr {xs : List Json} {k : Step} : ¬NumeralName (.arr xs) k :=
  fun ⟨_, _, _, hs, _⟩ => Json.noConfusion hs

theorem read_obj_iff {ms : List (String × Json)} {v : Json} {k : Step} :
    read (.obj ms) k = some v ↔
      (lookupStep (.obj ms) k = some v ∧ ¬NumeralName (.obj ms) k) ∨ StrayStep (.obj ms) k v := by
  have hstray : ¬StrayStep (.obj ms) k v := fun h => by cases h
  rw [or_iff_left hstray, read_obj]
  cases k with
  | str t =>
    rw [numeralName_obj_iff, cpath]
    by_cases ht : isI t = true
    · simp [ht, Json.index]
    · simp [ht, Json.index, lookupStep]
  | int i => simp [cpath, Json.index, lookupStep]

theorem read_arr_iff {xs : List Json} {v : Json} {k : Step} :
    read (.arr xs) k = some v ↔
      (lookupStep (.arr xs) k = some v ∧ ¬NumeralName (.arr xs) k) ∨ StrayStep (.arr xs) k v := by
  rw [read_arr, lookupStep_arr]
  constructor
  · intro h
    cases hk : cpath k with
    | str t => rw [hk] at h; cases h
    | int i =>
      rw [hk] at h
      by_cases hi : 0 ≤ i
      · rw [Json.index, Json.arrayAt, if_pos hi] at h
        exact Or.inl ⟨(if_pos hi).trans h, not_numeralName_arr⟩
      · exact Or.inr (.fromEnd hk (Int.not_le.mp hi) h)
  · rintro (⟨h, -⟩ | h)
    · cases hk : cpath k with
      | str t => rw [hk] at h; cases h
      | int i =>
        rw [hk] at h
        -- only an index in range selects something
        by_cases hi : 0 ≤ i
        · rw [Json.index, Json.arrayAt, if_pos hi]
          exact (if_pos hi).symm.trans h
        · exact absurd ((if_neg hi).symm.trans h) (by simp)
    · cases h with
      | fromEnd hk _ hv => rw [hk]; exact hv

/-- An integer has its bits, and all of them are stray. -/
theorem read_int_iff {z : Int} {v : Json} {k : Step} : read (.int z) k = some v ↔ StrayStep (.int z) k v := by
  show (Json.int z).index (cpath k) = some v ↔ _
  constructor
  · intro h
    cases hk : cpath k with
    | str t => rw [hk] at h; cases h
    | int i =>
      rw [hk] at h
      obtain rfl := Option.some.inj h
      exact .bit hk
  · intro h
    cases h with
    | bit hk => rw [hk]; rfl

/-- A string has what its text has, if it is a document. -/
theorem read_str_iff {t : String} {v : Json} {k : Step} : read (.str t) k = some v ↔ StrayStep (.str t) k v := by
  show (Json.parse t).bind _ = some v ↔ _
  rw [Option.bind_eq_some_iff]
  constructor
  · rintro ⟨j, hj, hv⟩
    exact .opened hj hv
  · intro h
    cases h with
    | opened hj hv => exact ⟨_, hj, hv⟩

/-- **What a step of the code is**: a standard step without a numeral for a name, or a stray one. -/
theorem read_iff {s v : Json} {k : Step} :
    read s k = some v ↔ (lookupStep s k = some v ∧ ¬NumeralName s k) ∨ StrayStep s k v := by
  cases s with
  | obj ms => exact read_obj_iff
  | arr xs => exact read_arr_iff
  | int z =>
    rw [read_int_iff]
    exact (or_iff_right fun h => by cases k <;> exact absurd h.1 (by simp [lookupStep])).symm
  | str t =>
    rw [read_str_iff]
    exact (or_iff_right fun h => by cases k <;> exact absurd h.1 (by simp [lookupStep])).symm
  | null => exact iff_of_leaf (by cases cpath k <;> rfl) (by cases k <;> rfl) fun h => by cases h
  | bool b => exact iff_of_leaf (by cases cpath k <;> rfl) (by cases k <;> rfl) fun h => by cases h
  | float f => exact iff_of_leaf (by cases cpath k <;> rfl) (by cases k <;> rfl) fun h => by cases h
where
  /-- Nothing is selected from the other leaves. -/
  iff_of_leaf {s v : Json} {k : Step} (hread : read s k = none) (hlookup : lookupStep s k = none)
      (hstray : ¬StrayStep s k v) :
      read s k = some v ↔ (lookupStep s k = some v ∧ ¬NumeralName s k) ∨ StrayStep s k v := by
    rw [hread, hlookup, or_iff_left hstray]
    simp

theorem walk_iff_leads {s v : Json} {p : List Step} : walk s p = some v ↔ ∃ b, Leads b s p v := by
  induction p generalizing s with
  | nil =>
    constructor
    · intro h
      obtain rfl := Option.some.inj h
      exact ⟨false, .done⟩
    · rintro ⟨b, h⟩
      cases h
      rfl
  | cons k p ih =>
    rw [walk_cons, Option.bind_eq_some_iff]
    constructor
    · -- one step of the code is one of the standard reading, or a stray one
      rintro ⟨u, hu, hwalk⟩
      obtain ⟨b, hrest⟩ := ih.mp hwalk
      obtain ⟨hread, hpresent⟩ := descend_iff_read.mp hu
      rcases read_iff.mp hread with ⟨hstep, hname⟩ | hstep
      · exact ⟨b, .standard hstep hname hpresent hrest⟩
      · exact ⟨true, .stray hstep hpresent hrest⟩
    · rintro ⟨b, h⟩
      cases h with
      | standard hstep hname hpresent hrest =>
        exact ⟨_, descend_iff_read.mpr ⟨read_iff.mpr (Or.inl ⟨hstep, hname⟩), hpresent⟩, ih.mpr ⟨_, hrest⟩⟩
      | stray hstep hpresent hrest =>
        exact ⟨_, descend_iff_read.mpr ⟨read_iff.mpr (Or.inr hstep), hpresent⟩, ih.mpr ⟨_, hrest⟩⟩

/-- **A path that strays** is none that the standard reading can follow. -/
theorem Leads.lookup_eq_none {s v : Json} {p : List Step} (h : Leads true s p v) :
    lookup s p = none := by
  generalize hb : true = b at h
  induction h with
  | done => cases hb
  | standard hstep _ _ _ ih =>
    show (lookupStep _ _).bind _ = none
    rw [hstep, Option.bind_some]
    exact ih hb
  | stray hstep _ _ _ =>
    show (lookupStep _ _).bind _ = none
    rw [lookupStep_none_of_stray hstep, Option.bind_none]

/-- A path that does not stray is one of the standard reading. -/
theorem Leads.lookup_eq {s v : Json} {p : List Step} (h : Leads false s p v) : lookup s p = some v := by
  generalize hb : false = b at h
  induction h with
  | done => rfl
  | standard hstep _ _ _ ih =>
    show (lookupStep _ _).bind _ = _
    rw [hstep, Option.bind_some]
    exact ih hb
  | stray => cases hb

/-! ### The code against the standard reading -/

/-- What the claimed reading of a path returns: the present value of the standard reading, in a
list. -/
def standard (d : Json) (p : List Step) : Option (List Json) :=
  ((lookup d p).filter Json.present).map fun v => [v]

theorem descend_congr {s d : Json} (h : load s = load d) (k : Step) : descend s k = descend d k := by
  rw [descend, descend, h]

/-- A document is read alike from its text. -/
theorem followSteps_of_load {s d : Json} (h : load s = some d) (p : List Step) :
    followSteps s p = followSteps d p := by
  have hload : load s = load d := by
    rw [h]
    cases s with
    | str t =>
      rcases Json.parse_container h with ⟨xs, rfl⟩ | ⟨ms, rfl⟩
      · rfl
      · rfl
    | _ => obtain rfl := Option.some.inj h; rfl
  cases p with
  | nil => rfl
  | cons k p =>
    cases p with
    | nil => rw [followSteps_singleton, followSteps_singleton, descend_congr hload]
    | cons l p => rw [followSteps_cons, followSteps_cons, descend_congr hload]

/-- A walk of at least one step ends at a present value. -/
theorem walk_present {s v : Json} {p : List Step} (hp : p ≠ []) (h : walk s p = some v) :
    v.present = true := by
  induction p generalizing s with
  | nil => exact absurd rfl hp
  | cons k p ih =>
    obtain ⟨u, hu, hwalk⟩ := Option.bind_eq_some_iff.mp h
    cases p with
    | nil =>
      obtain rfl : u = v := Option.some.inj hwalk
      exact (read_of_descend hu).2
    | cons l p => exact ih (by simp) hwalk

/-- The walk of the code finds what the standard reading finds, and nothing else. -/
theorem walk_eq_lookup_iff {d : Json} {p : List Step} (hp : p ≠ []) :
    walk d p = (lookup d p).filter Json.present ↔
      (∀ v, lookup d p = some v → v.present = true → NamesPlain d p) ∧ ∀ v, ¬Leads true d p v := by
  constructor
  · intro h
    constructor
    · intro v hv hpresent
      rw [hv, Option.filter_some, if_pos hpresent] at h
      exact namesPlain_of_walk h
    · intro v hstray
      have hwalk := walk_iff_leads.mpr ⟨true, hstray⟩
      rw [h, hstray.lookup_eq_none] at hwalk
      cases hwalk
  · rintro ⟨hplain, hstray⟩
    cases hfound : (lookup d p).filter Json.present with
    | some v =>
      obtain ⟨hv, hpresent⟩ := Option.filter_eq_some_iff.mp hfound
      exact walk_of_lookup hv hpresent (hplain v hv hpresent)
    | none =>
      -- a walk that does not stray would be one of the standard reading
      by_contra hne
      obtain ⟨v, hv⟩ := Option.ne_none_iff_exists'.mp hne
      obtain ⟨b, hleads⟩ := walk_iff_leads.mp hv
      cases b with
      | true => exact hstray v hleads
      | false =>
        rw [hleads.lookup_eq, Option.filter_some, if_pos (walk_present hp hv)] at hfound
        cases hfound

/-- **Where the code reads a path as the standard reading does.** The document is given as a value
or as a text. Without wildcards the code returns the present value of the standard reading, and
nothing where there is none, exactly when these three hold: a path that is empty is one into a blank
document; a path to a present value passes no numeral as a member name; and no path leads to a present
value by way of a stray step. -/
theorem followJson_eq_standard_iff (s d : Json) (p : List Step) (hs : s = d ∨ load s = some d)
    (hstar : star ∉ p) :
    followJson s (.steps p) = standard d p ↔
      (p = [] → d.present = false) ∧
      (∀ v, lookup d p = some v → v.present = true → NamesPlain d p) ∧
      ∀ v, ¬Leads true d p v := by
  have hfollow : followJson s (.steps p) = followSteps d p := by
    rcases hs with rfl | hload
    · rfl
    · exact followSteps_of_load hload p
  rw [hfollow]
  by_cases hp : p = []
  · -- the code follows no empty path, and the standard reading returns the document
    subst hp
    have hempty : (∀ v, lookup d [] = some v → v.present = true → NamesPlain d []) ∧
        ∀ v, ¬Leads true d [] v :=
      ⟨fun _ _ _ q k r ms hq _ => absurd hq (by simp), fun v h => by cases h⟩
    rw [and_iff_left hempty, followSteps_nil, standard, lookup, Option.filter_some]
    cases d.present <;> simp
  · have hwalk : followSteps d p = (walk d p).map fun v => [v] := by
      refine followSteps_eq_walk hp fun q r xs _ hpq => ?_
      exact absurd (hpq ▸ List.mem_append_right q (List.mem_cons_self ..)) hstar
    -- both put a value in a list, so the values themselves are compared
    have hinj : Function.Injective (Option.map fun v : Json => [v]) :=
      Option.map_injective fun _ _ h => List.singleton_injective h
    rw [hwalk, standard, hinj.eq_iff, walk_eq_lookup_iff hp, and_iff_right fun h => absurd h hp]

/-- An element of a list in a document that is given as a text. -/
theorem followJson_eq_standard_title :
    followJson (.str "\x7b\"title\":[\"a\",\"b\"]\x7d") (.steps [.str "title", .str "1"]) =
        some [.str "b"] ∧
      ¬∃ v, Leads true (.obj [("title", .arr [.str "a", .str "b"])]) [.str "title", .str "1"] v := by
  have hiff := followJson_eq_standard_iff (.str "\x7b\"title\":[\"a\",\"b\"]\x7d")
    (.obj [("title", .arr [.str "a", .str "b"])]) [.str "title", .str "1"] (Or.inr (by decide +kernel))
    (by decide)
  have hfollow : followJson (.str "\x7b\"title\":[\"a\",\"b\"]\x7d") (.steps [.str "title", .str "1"]) =
      some [.str "b"] := by decide +kernel
  exact ⟨hfollow, fun ⟨v, hv⟩ => (hiff.mp (hfollow.trans rfl)).2.2 v hv⟩

theorem followJson_ne_standard :
    ¬∀ (d : Json) (p : List Step), star ∉ p → followJson d (.steps p) = standard d p := by
  intro h
  have hmember := h (.obj [("1", .str "c")]) [.str "1"] (by decide)
  exact absurd hmember (by decide)

end Collection
end Curarium
