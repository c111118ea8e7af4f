import Curarium.Collection.Preview
import Curarium.Json.RoundTrip
import Curarium.Library.Calls

/-!
# Where the script of the configuration page ends

`extractExample` calls itself with a shorter path or with a value further inside, and now and then with
the first element of an array that has none, `undefined`. It has a guard for `null` and none for that.

* `call` is one call of the script, as the source has it; `calls_extractExample` says that there are no
  more of them than steps in the path and levels in the document, and that they end like the recursion
  of `Preview`.
* `Meets` says which step of a path meets which value of the document.
* `extractExample_isSome_iff` — the script returns exactly if no name meets an empty array, or an object
  that hides `hasOwnProperty` (`Smooth`).
* `extractExamples` goes over the fields of the page, and the first one that raises is the last.
-/

namespace Curarium
namespace Preview

open Collection

/-! ### The calls -/

/-- The arguments of a call. `none` is `undefined`. -/
abbrev Arguments := Option JsValue × List String

/-- One call of `extractExample`: it returns, it raises (`none`), or another call takes its place. -/
def call : Arguments → Option JsValue ⊕ Arguments
  | (some (.json .null), _) => .inl (some blank)
  | (_, []) => .inl (some blank)
  | (some (.json (.obj ms)), k :: rest) =>
    if isDigits k then .inr (some (.json (.obj ms)), rest) else take (.json (.obj ms)) k rest
  | (some (.json (.arr xs)), k :: rest) =>
    -- `original[ 0 ]` of an empty array is `undefined`
    if isDigits k then take (.json (.arr xs)) k rest else .inr (xs.head?.map .json, k :: rest)
  | (some original, k :: rest) => take original k rest
  -- `undefined.hasOwnProperty` raises
  | (none, _ :: _) => .inl none
where
  /-- The last four cases. -/
  take (original : JsValue) (k : String) (rest : List String) : Option JsValue ⊕ Arguments :=
    if original.hides then .inl none
    else
      match original.own k with
      | none => .inl (some blank)
      | some v =>
        match rest with
        | [] => .inl (some v)
        | l :: rest => .inr (some v, l :: rest)

/-- How deep containers nest in an argument. -/
def argumentDepth : Option JsValue → Nat
  | some (.json v) => v.depth
  | _ => 0

/-- What the calls have left: steps of the path, and levels of the value. -/
def remaining (s : Arguments) : Nat := s.2.length + argumentDepth s.1

/-- The result of the recursion, for `undefined` as well. -/
def result : Arguments → Option JsValue
  | (some original, path) => extractExample original path
  | (none, []) => some blank
  | (none, _ :: _) => none

theorem depth_le_depthElems {xs : List Json} {x : Json} (h : x ∈ xs) : x.depth ≤ depthElems xs := by
  induction xs with
  | nil => exact absurd h List.not_mem_nil
  | cons y ys ih =>
    rw [depthElems]
    rcases List.mem_cons.mp h with rfl | h
    · exact Nat.le_max_left _ _
    · exact Nat.le_trans (ih h) (Nat.le_max_right _ _)

theorem depth_le_depthMembers {ms : List (String × Json)} {k : String} {v : Json}
    (h : ms.lookup k = some v) : v.depth ≤ depthMembers ms := by
  induction ms with
  | nil => exact absurd h (by simp)
  | cons m ms ih =>
    obtain ⟨l, w⟩ := m
    rw [depthMembers]
    rw [List.lookup_cons] at h
    split at h
    · obtain rfl := Option.some.inj h
      exact Nat.le_max_left _ _
    · exact Nat.le_trans (ih h) (Nat.le_max_right _ _)

/-- Neither an object nor an array. -/
def JsValue.Flat (v : JsValue) : Prop := (∀ ms, v ≠ .json (.obj ms)) ∧ ∀ xs, v ≠ .json (.arr xs)

theorem flat_ofUnit (u : Nat) : (JsValue.ofUnit u).Flat := by
  rw [JsValue.ofUnit]
  split
  · exact ⟨by simp, by simp⟩
  · exact ⟨by simp, by simp⟩

theorem JsValue.Flat.depth {v : JsValue} (hv : v.Flat) : argumentDepth (some v) = 0 := by
  cases v with
  | surrogate u => rfl
  | json j =>
    cases j with
    | obj ms => exact absurd rfl (hv.1 ms)
    | arr xs => exact absurd rfl (hv.2 xs)
    | _ => rfl

/-- **What a property is**: a member, an element, or something flat, as are a length and the units of a
string. -/
theorem own_cases {v w : JsValue} {k : String} (h : v.own k = some w) :
    (∃ ms child, v = .json (.obj ms) ∧ ms.lookup k = some child ∧ w = .json child) ∨
      (∃ xs child, v = .json (.arr xs) ∧ elementAt xs k = some child ∧ w = .json child) ∨ w.Flat := by
  have hlength : ∀ n : Int, (JsValue.json (.int n)).Flat := fun n => ⟨by simp, by simp⟩
  cases v with
  | surrogate u =>
    rw [JsValue.own] at h
    split at h
    · obtain rfl := Option.some.inj h
      exact .inr (.inr (hlength 1))
    · obtain ⟨u', -, rfl⟩ := Option.map_eq_some_iff.mp h
      exact .inr (.inr ⟨by simp, by simp⟩)
  | json j =>
    cases j with
    | obj ms =>
      obtain ⟨child, hchild, rfl⟩ := Option.map_eq_some_iff.mp h
      exact .inl ⟨ms, child, rfl, hchild, rfl⟩
    | arr xs =>
      rw [JsValue.own] at h
      split at h
      · obtain rfl := Option.some.inj h
        exact .inr (.inr (hlength _))
      · obtain ⟨child, hchild, rfl⟩ := Option.map_eq_some_iff.mp h
        exact .inr (.inl ⟨xs, child, rfl, hchild, rfl⟩)
    | str t =>
      rw [JsValue.own] at h
      split at h
      · obtain rfl := Option.some.inj h
        exact .inr (.inr (hlength _))
      · obtain ⟨u, -, rfl⟩ := Option.map_eq_some_iff.mp h
        exact .inr (.inr (flat_ofUnit u))
    -- the other values have no properties
    | null => exact absurd h (by simp [JsValue.own])
    | bool b => exact absurd h (by simp [JsValue.own])
    | int z => exact absurd h (by simp [JsValue.own])
    | float f => exact absurd h (by simp [JsValue.own])

/-- A property is no deeper than the value that has it. -/
theorem depth_own_le {original v : JsValue} {k : String} (h : original.own k = some v) :
    argumentDepth (some v) ≤ argumentDepth (some original) := by
  obtain ⟨ms, child, rfl, hchild, rfl⟩ | ⟨xs, child, rfl, hchild, rfl⟩ | hflat := own_cases h
  · exact Nat.le_succ_of_le (depth_le_depthMembers hchild)
  · obtain ⟨i, -, hi⟩ := elementAt_eq_some hchild
    exact Nat.le_succ_of_le (depth_le_depthElems (List.mem_of_getElem? hi))
  · rw [hflat.depth]
    exact Nat.zero_le _

/-- What a flat value has is flat. -/
theorem JsValue.Flat.own {v w : JsValue} {k : String} (hv : v.Flat) (h : v.own k = some w) : w.Flat := by
  obtain ⟨ms, _, hms, -⟩ | ⟨xs, _, hxs, -⟩ | hflat := own_cases h
  · exact absurd hms (hv.1 ms)
  · exact absurd hxs (hv.2 xs)
  · exact hflat

theorem take_of_done {original : JsValue} {k : String} {rest : List String} {r : Option JsValue}
    (h : call.take original k rest = .inl r) : extractExample.take original k rest = r := by
  rw [call.take.eq_def] at h
  rw [extractExample.take.eq_def]
  by_cases hhides : original.hides = true
  · rw [if_pos hhides] at h ⊢
    exact Sum.inl.inj h
  · rw [if_neg hhides] at h ⊢
    cases hown : original.own k with
    | none =>
      rw [hown] at h
      exact Sum.inl.inj h
    | some v =>
      rw [hown] at h
      -- with a step to go the call would not be the last
      cases rest with
      | nil => exact Sum.inl.inj h
      | cons l rest => cases h

theorem take_of_again {original : JsValue} {k : String} {rest : List String} {t : Arguments}
    (h : call.take original k rest = .inr t) : ∃ v, original.own k = some v ∧ t = (some v, rest) ∧
      extractExample.take original k rest = extractExample v rest := by
  rw [call.take.eq_def] at h
  rw [extractExample.take.eq_def]
  by_cases hhides : original.hides = true
  · rw [if_pos hhides] at h
    cases h
  · rw [if_neg hhides] at h ⊢
    cases hown : original.own k with
    | none =>
      rw [hown] at h
      cases h
    | some v =>
      rw [hown] at h
      cases rest with
      | nil => cases h
      -- the next call is the one that the recursion makes
      | cons l rest => exact ⟨v, rfl, (Sum.inr.inj h).symm, rfl⟩

/-- **One call with a step to go**: `null` ends it, an object skips an index, an array with a name goes
on with its first element, and everything else takes a property. -/
theorem call_cons (v : JsValue) (k : String) (rest : List String) :
    (v = .json .null ∧ call (some v, k :: rest) = .inl (some blank) ∧
        extractExample v (k :: rest) = some blank) ∨
      (∃ ms, v = .json (.obj ms) ∧ isDigits k = true ∧ call (some v, k :: rest) = .inr (some v, rest) ∧
        extractExample v (k :: rest) = extractExample v rest) ∨
      (∃ xs, v = .json (.arr xs) ∧ isDigits k = false ∧
        call (some v, k :: rest) = .inr (xs.head?.map .json, k :: rest) ∧
        extractExample v (k :: rest) = result (xs.head?.map .json, k :: rest)) ∨
      ((∀ ms, v = .json (.obj ms) → isDigits k = false) ∧ (∀ xs, v = .json (.arr xs) → isDigits k = true) ∧
        call (some v, k :: rest) = call.take v k rest ∧
        extractExample v (k :: rest) = extractExample.take v k rest) := by
  -- neither an object nor an array: the condition on the step says nothing
  have hscalar : ∀ {v : JsValue}, (∀ ms, v ≠ .json (.obj ms)) → (∀ xs, v ≠ .json (.arr xs)) →
      (∀ ms, v = .json (.obj ms) → isDigits k = false) ∧ ∀ xs, v = .json (.arr xs) → isDigits k = true :=
    fun hobj harr => ⟨fun ms h => absurd h (hobj ms), fun xs h => absurd h (harr xs)⟩
  cases v with
  | surrogate u =>
    obtain ⟨hobj, harr⟩ := hscalar (v := .surrogate u) (by simp) (by simp)
    exact .inr (.inr (.inr ⟨hobj, harr, rfl, by rw [extractExample.eq_def]⟩))
  | json j =>
    cases j with
    | null => exact .inl ⟨rfl, rfl, by rw [extractExample]⟩
    | obj ms =>
      by_cases hk : isDigits k = true
      · exact .inr (.inl ⟨ms, rfl, hk, if_pos hk, by rw [extractExample, if_pos hk]⟩)
      · refine .inr (.inr (.inr ⟨fun _ _ => by simpa using hk, fun xs h => ?_, if_neg hk,
          by rw [extractExample, if_neg hk]⟩))
        cases h
    | arr xs =>
      by_cases hk : isDigits k = true
      · refine .inr (.inr (.inr ⟨fun ms h => ?_, fun _ _ => hk, if_pos hk, ?_⟩))
        · cases h
        · cases xs with
          | nil => rw [extractExample, if_pos hk]
          | cons x xs => rw [extractExample, if_pos hk]
      · refine .inr (.inr (.inl ⟨xs, rfl, by simpa using hk, if_neg hk, ?_⟩))
        cases xs with
        | nil =>
          rw [extractExample, if_neg hk]
          rfl
        | cons x xs =>
          rw [extractExample, if_neg hk]
          rfl
    | bool b =>
      obtain ⟨hobj, harr⟩ := hscalar (v := .json (.bool b)) (by simp) (by simp)
      exact .inr (.inr (.inr ⟨hobj, harr, rfl, by rw [extractExample.eq_def]⟩))
    | int z =>
      obtain ⟨hobj, harr⟩ := hscalar (v := .json (.int z)) (by simp) (by simp)
      exact .inr (.inr (.inr ⟨hobj, harr, rfl, by rw [extractExample.eq_def]⟩))
    | float f =>
      obtain ⟨hobj, harr⟩ := hscalar (v := .json (.float f)) (by simp) (by simp)
      exact .inr (.inr (.inr ⟨hobj, harr, rfl, by rw [extractExample.eq_def]⟩))
    | str t =>
      obtain ⟨hobj, harr⟩ := hscalar (v := .json (.str t)) (by simp) (by simp)
      exact .inr (.inr (.inr ⟨hobj, harr, rfl, by rw [extractExample.eq_def]⟩))

/-- Without a step to go a call returns the empty sample. -/
theorem call_nil (original : Option JsValue) :
    call (original, []) = .inl (some blank) ∧ result (original, []) = some blank := by
  cases original with
  | none => exact ⟨rfl, rfl⟩
  | some v =>
    refine ⟨?_, extractExample_nil v⟩
    cases v with
    | surrogate u => rfl
    | json j => cases j <;> rfl

/-- A call that returns or raises ends like the recursion. -/
theorem result_of_call_done {s : Arguments} {r : Option JsValue} (h : call s = .inl r) : result s = r := by
  obtain ⟨original, path⟩ := s
  cases path with
  | nil =>
    obtain ⟨hcall, hresult⟩ := call_nil original
    rw [hresult]
    exact Sum.inl.inj (hcall.symm.trans h)
  | cons k rest =>
    cases original with
    | none => exact Sum.inl.inj h
    | some v =>
      change extractExample v (k :: rest) = r
      rcases call_cons v k rest with
        ⟨-, hcall, heq⟩ | ⟨_, -, -, hcall, -⟩ | ⟨_, -, -, hcall, -⟩ | ⟨-, -, hcall, heq⟩
      · rw [heq]
        exact Sum.inl.inj (hcall.symm.trans h)
      -- an index that is skipped and a first element both make another call
      · cases hcall.symm.trans h
      · cases hcall.symm.trans h
      · rw [heq]
        exact take_of_done (hcall.symm.trans h)

/-- A call in place of another ends like it, and has less left to do: a step of the path, or a level of
the value. -/
theorem result_of_call_again {s t : Arguments} (h : call s = .inr t) :
    result s = result t ∧ remaining t < remaining s := by
  obtain ⟨original, path⟩ := s
  cases path with
  | nil => cases (call_nil original).1.symm.trans h
  | cons k rest =>
    cases original with
    | none => cases h
    | some v =>
      change extractExample v (k :: rest) = result t ∧ _
      rcases call_cons v k rest with
        ⟨-, hcall, -⟩ | ⟨_, -, -, hcall, heq⟩ | ⟨xs, rfl, -, hcall, heq⟩ | ⟨-, -, hcall, heq⟩
      · cases hcall.symm.trans h
      · -- the index is skipped
        obtain rfl := Sum.inr.inj (hcall.symm.trans h)
        exact ⟨heq, Nat.add_lt_add_right (Nat.lt_succ_self _) _⟩
      · -- one level further inside
        obtain rfl := Sum.inr.inj (hcall.symm.trans h)
        refine ⟨heq, Nat.add_lt_add_left (Nat.lt_succ_of_le ?_) _⟩
        cases xs with
        | nil => exact Nat.le_refl 0
        | cons x xs => exact depth_le_depthElems List.mem_cons_self
      · obtain ⟨child, hown, rfl, htake⟩ := take_of_again (hcall.symm.trans h)
        exact ⟨heq.trans htake, Nat.add_lt_add_of_lt_of_le (Nat.lt_succ_self _) (depth_own_le hown)⟩

/-- **The calls come to an end**: there are no more of them than steps of the path and levels of the
document, and the one that ends it. -/
theorem calls_extractExample (original : JsValue) (path : List String) :
    calls call (path.length + argumentDepth (some original) + 1) (some original, path) =
      some (extractExample original path) :=
  calls_eq_some (fun _ _ => result_of_call_done) (fun _ _ => result_of_call_again) (Nat.lt_succ_self _)

/-! ### Steps that meet values -/

/-- The value that a step leads to: a member by its name, or an element by its number. -/
inductive Child : Json → String → Json → Prop where
  | member {ms : List (String × Json)} {k : String} {v : Json} :
    isDigits k = false → ms.lookup k = some v → Child (.obj ms) k v
  | element {xs : List Json} {k : String} {v : Json} :
    isDigits k = true → elementAt xs k = some v → Child (.arr xs) k v

/-- On its way through the document the path gets to a value with these steps to go. An object skips an
index, and an array with a name goes on with its first element. -/
inductive Meets : Json → List String → Json → List String → Prop where
  | here {s : Json} {path : List String} : Meets s path s path
  | skip {ms : List (String × Json)} {k : String} {rest left : List String} {t : Json} :
    isDigits k = true → Meets (.obj ms) rest t left → Meets (.obj ms) (k :: rest) t left
  | dive {x t : Json} {xs : List Json} {k : String} {rest left : List String} :
    isDigits k = false → Meets x (k :: rest) t left → Meets (.arr (x :: xs)) (k :: rest) t left
  | child {s v t : Json} {k : String} {rest left : List String} :
    Child s k v → Meets v rest t left → Meets s (k :: rest) t left

/-- **No name meets an empty array**, or an object that has a member called `hasOwnProperty`. -/
def Smooth (d : Json) (path : List String) : Prop :=
  ∀ s k rest, Meets d path s (k :: rest) → isDigits k = false →
    s ≠ .arr [] ∧ (JsValue.json s).hides = false

theorem smooth_nil (d : Json) : Smooth d [] := by
  intro s k rest h
  cases h

theorem smooth_skip_iff {ms : List (String × Json)} {k : String} {rest : List String}
    (hk : isDigits k = true) : Smooth (.obj ms) (k :: rest) ↔ Smooth (.obj ms) rest := by
  constructor
  · exact fun h s l left hmeets => h s l left (.skip hk hmeets)
  · intro h s l left hmeets hl
    cases hmeets with
    | here => exact absurd (hk.symm.trans hl) (by decide)
    | skip _ hmeets => exact h s l left hmeets hl
    | child hchild _ =>
      cases hchild with
      | member hname _ => exact absurd (hk.symm.trans hname) (by decide)

theorem smooth_dive_iff {x : Json} {xs : List Json} {k : String} {rest : List String}
    (hk : isDigits k = false) : Smooth (.arr (x :: xs)) (k :: rest) ↔ Smooth x (k :: rest) := by
  constructor
  · exact fun h s l left hmeets => h s l left (.dive hk hmeets)
  · intro h s l left hmeets hl
    cases hmeets with
    | here => exact ⟨by simp, rfl⟩
    | dive _ hmeets => exact h s l left hmeets hl
    | child hchild _ =>
      cases hchild with
      | element hindex _ => exact absurd (hindex.symm.trans hk) (by decide)

/-- Where a property is taken, the value has to have `hasOwnProperty`, and the rest of the path is
followed from the child. -/
theorem smooth_child_iff {s : Json} {k : String} {rest : List String}
    (hobj : ∀ ms, s = .obj ms → isDigits k = false) (harr : ∀ xs, s = .arr xs → isDigits k = true) :
    Smooth s (k :: rest) ↔ (JsValue.json s).hides = false ∧ ∀ v, Child s k v → Smooth v rest := by
  constructor
  · intro h
    refine ⟨?_, fun v hchild t l left hmeets => h t l left (.child hchild hmeets)⟩
    -- only an object can hide it, and a name meets it
    cases s with
    | obj ms => exact (h _ _ _ .here (hobj ms rfl)).2
    | _ => rfl
  · rintro ⟨hhides, hchild⟩ t l left hmeets hl
    cases hmeets with
    | here =>
      refine ⟨?_, hhides⟩
      -- an array is met by an index here
      rintro rfl
      exact absurd ((harr [] rfl).symm.trans hl) (by decide)
    -- neither is a step skipped, nor does an array go on with its first element
    | @skip ms _ _ _ _ hk _ => exact absurd (hk.symm.trans (hobj ms rfl)) (by decide)
    | @dive x _ xs _ _ _ hk _ => exact absurd ((harr (x :: xs) rfl).symm.trans hk) (by decide)
    | child hc hmeets => exact hchild _ hc t l left hmeets hl

/-! ### When the script returns -/

theorem JsValue.Flat.hides {v : JsValue} (hv : v.Flat) : v.hides = false := by
  cases v with
  | surrogate u => rfl
  | json j =>
    cases j with
    | obj ms => exact absurd rfl (hv.1 ms)
    | _ => rfl

theorem isSome_take_iff {v : JsValue} {k : String} {rest : List String} :
    (extractExample.take v k rest).isSome = true ↔
      v.hides = false ∧ ∀ w, v.own k = some w → (extractExample w rest).isSome = true := by
  rw [extractExample.take.eq_def]
  cases hhides : v.hides with
  | true => simp
  | false =>
    cases hown : v.own k with
    | none => simp
    | some w =>
      cases rest with
      -- without a step to go both return: the child here, and the empty sample there
      | nil => simp [extractExample_nil]
      | cons l rest => simp

/-- Nothing in a flat value makes the script raise. -/
theorem isSome_of_flat {v : JsValue} (hv : v.Flat) (path : List String) :
    (extractExample v path).isSome = true := by
  induction path generalizing v with
  | nil => rw [extractExample_nil]; rfl
  | cons k rest ih =>
    rcases call_cons v k rest with
      ⟨-, -, heq⟩ | ⟨ms, rfl, -⟩ | ⟨xs, rfl, -⟩ | ⟨-, -, -, heq⟩
    · rw [heq]
      rfl
    · exact absurd rfl (hv.1 ms)
    · exact absurd rfl (hv.2 xs)
    · rw [heq, isSome_take_iff]
      exact ⟨hv.hides, fun w hown => ih (hv.own hown)⟩

theorem own_of_child {s v : Json} {k : String} (h : Child s k v) :
    (JsValue.json s).own k = some (.json v) := by
  cases h with
  | member _ hlookup => exact congrArg (Option.map JsValue.json) hlookup
  | element hindex helement =>
    have hlength : k ≠ "length" := by
      rintro rfl
      exact absurd hindex (by decide)
    rw [JsValue.own, if_neg hlength, helement, Option.map_some]

/-- What the script takes is the child, or flat. -/
theorem child_or_flat {s : Json} {k : String} {w : JsValue} (hobj : ∀ ms, s = .obj ms → isDigits k = false)
    (harr : ∀ xs, s = .arr xs → isDigits k = true) (h : (JsValue.json s).own k = some w) :
    (∃ v, Child s k v ∧ w = .json v) ∨ w.Flat := by
  obtain ⟨ms, v, hms, hv, rfl⟩ | ⟨xs, v, hxs, hv, rfl⟩ | hflat := own_cases h
  · cases hms
    exact .inl ⟨v, .member (hobj ms rfl) hv, rfl⟩
  · cases hxs
    exact .inl ⟨v, .element (harr xs rfl) hv, rfl⟩
  · exact .inr hflat

/-- **The script returns** exactly where the path is smooth. -/
theorem extractExample_isSome_iff (d : Json) (path : List String) :
    (extractExample (.json d) path).isSome = true ↔ Smooth d path := by
  -- the measure of the calls: a step of the path or a level of the document
  induction hn : remaining (some (.json d), path) using Nat.strongRecOn generalizing d path with
  | ind n ih =>
    subst hn
    cases path with
    | nil =>
      rw [extractExample_nil]
      exact iff_of_true rfl (smooth_nil d)
    | cons k rest =>
      rcases call_cons (.json d) k rest with
        ⟨hnull, -, heq⟩ | ⟨ms, hms, hk, hcall, heq⟩ | ⟨xs, hxs, hk, hcall, heq⟩ | ⟨hobj, harr, -, heq⟩
      · -- `null` has no children
        obtain rfl := JsValue.json.inj hnull
        rw [heq, smooth_child_iff (by simp) (by simp)]
        refine iff_of_true rfl ⟨rfl, fun v hchild => ?_⟩
        cases hchild
      · cases hms
        rw [heq, smooth_skip_iff hk]
        exact ih _ (result_of_call_again hcall).2 _ _ rfl
      · cases hxs
        cases xs with
        | nil =>
          -- the next call is for `undefined`
          rw [heq]
          exact iff_of_false Bool.false_ne_true fun hsmooth => (hsmooth _ _ _ .here hk).1 rfl
        | cons x xs =>
          rw [heq, smooth_dive_iff hk]
          exact ih _ (result_of_call_again hcall).2 _ _ rfl
      · have hobj' : ∀ ms, d = .obj ms → isDigits k = false := fun ms h => hobj ms (congrArg _ h)
        have harr' : ∀ xs, d = .arr xs → isDigits k = true := fun xs h => harr xs (congrArg _ h)
        rw [heq, isSome_take_iff, smooth_child_iff hobj' harr']
        refine and_congr_right fun _ => ?_
        -- the recursion goes on from a child as the path does
        have hrest : ∀ v, Child d k v → ((extractExample (.json v) rest).isSome = true ↔ Smooth v rest) := by
          intro v hchild
          refine ih _ ?_ v rest rfl
          exact Nat.add_lt_add_of_lt_of_le (Nat.lt_succ_self _) (depth_own_le (own_of_child hchild))
        constructor
        · exact fun h v hchild => (hrest v hchild).mp (h _ (own_of_child hchild))
        · intro h w hown
          rcases child_or_flat hobj' harr' hown with ⟨v, hchild, rfl⟩ | hflat
          · exact (hrest v hchild).mpr (h v hchild)
          · exact isSome_of_flat hflat rest

/-! ### The fields of the page -/

mutual
/-- The script can put the value into a text. An object with a member called `toString` raises, also in
an array. -/
def prints : Json → Bool
  | .obj ms => (ms.lookup "toString").isNone
  | .arr xs => printsElems xs
  | _ => true

def printsElems : List Json → Bool
  | [] => true
  | x :: xs => prints x && printsElems xs
end

def JsValue.prints : JsValue → Bool
  | .json v => Preview.prints v
  | .surrogate _ => true

/-- `extractExamples`: what is shown beside each field, for the record as the page holds it and the paths
in the fields (`none` where a field is empty). The first sample that raises, or does not print, ends the
loop. -/
def extractExamples (d : Json) : List (Option (List String)) → List (Option JsValue)
  | [] => []
  | none :: fields => none :: extractExamples d fields
  | some path :: fields =>
    match (sampleIn d path).filter JsValue.prints with
    | none => none :: fields.map fun _ => none
    | some ex => some ex :: extractExamples d fields

/-- Every field with a path shows a sample. -/
def Filled (fields : List (Option (List String))) (shown : List (Option JsValue)) : Prop :=
  List.Forall₂ (fun path ex => path.isSome = true → ex.isSome = true) fields shown

/-- What the path leads to can be put into a text. -/
def Printable (d : Json) (path : List String) : Prop :=
  ∀ s k v, Meets d path s [k] → Child s k v → prints v = true

theorem JsValue.Flat.prints {v : JsValue} (hv : v.Flat) : v.prints = true := by
  cases v with
  | surrogate u => rfl
  | json j =>
    cases j with
    | obj ms => exact absurd rfl (hv.1 ms)
    | arr xs => exact absurd rfl (hv.2 xs)
    | _ => rfl

/-- What is found in a flat value is flat. -/
theorem flat_of_flat {v w : JsValue} (hv : v.Flat) {path : List String}
    (h : extractExample v path = some w) : w.Flat := by
  have hblank : blank.Flat := ⟨by simp [blank], by simp [blank]⟩
  induction path generalizing v with
  | nil =>
    rw [extractExample_nil] at h
    obtain rfl := Option.some.inj h
    exact hblank
  | cons k rest ih =>
    rcases call_cons v k rest with
      ⟨-, -, heq⟩ | ⟨ms, rfl, -⟩ | ⟨xs, rfl, -⟩ | ⟨-, -, -, heq⟩
    · rw [heq] at h
      obtain rfl := Option.some.inj h
      exact hblank
    · exact absurd rfl (hv.1 ms)
    · exact absurd rfl (hv.2 xs)
    · rw [heq] at h
      -- nothing is there, the last step is taken, or there are more steps to take
      obtain ⟨-, ⟨-, rfl⟩ | ⟨u, hown, ⟨-, rfl⟩ | ⟨-, hrest⟩⟩⟩ := take_eq_some_iff.mp h
      · exact hblank
      · exact hv.own hown
      · exact ih (hv.own hown) hrest

/-- **A sample that does not print** is what the path leads to. -/
theorem prints_or_meets {d : Json} {path : List String} {w : JsValue}
    (h : extractExample (.json d) path = some w) :
    w.prints = true ∨ ∃ s k v, Meets d path s [k] ∧ Child s k v ∧ w = .json v := by
  induction hn : remaining (some (.json d), path) using Nat.strongRecOn generalizing d path with
  | ind n ih =>
    subst hn
    cases path with
    | nil =>
      rw [extractExample_nil] at h
      obtain rfl := Option.some.inj h
      exact .inl rfl
    | cons k rest =>
      rcases call_cons (.json d) k rest with
        ⟨-, -, heq⟩ | ⟨ms, hms, hk, hcall, heq⟩ | ⟨xs, hxs, hk, hcall, heq⟩ | ⟨hobj, harr, -, heq⟩
      · rw [heq] at h
        obtain rfl := Option.some.inj h
        exact .inl rfl
      · cases hms
        rw [heq] at h
        refine (ih _ (result_of_call_again hcall).2 h rfl).imp_right ?_
        exact fun ⟨s, l, v, hmeets, hchild⟩ => ⟨s, l, v, .skip hk hmeets, hchild⟩
      · cases hxs
        rw [heq] at h
        cases xs with
        | nil => cases h
        | cons x xs =>
          refine (ih _ (result_of_call_again hcall).2 h rfl).imp_right ?_
          exact fun ⟨s, l, v, hmeets, hchild⟩ => ⟨s, l, v, .dive hk hmeets, hchild⟩
      · rw [heq] at h
        obtain ⟨-, ⟨-, rfl⟩ | ⟨u, hown, hcase⟩⟩ := take_eq_some_iff.mp h
        · exact .inl rfl
        · rcases child_or_flat (fun ms h => hobj ms (congrArg _ h)) (fun xs h => harr xs (congrArg _ h)) hown
            with ⟨child, hchild, rfl⟩ | hflat
          · rcases hcase with ⟨rfl, rfl⟩ | ⟨-, hrest⟩
            · exact .inr ⟨d, k, child, .here, hchild, rfl⟩
            · -- the rest of the path is followed from the child
              have hless := Nat.add_lt_add_of_lt_of_le (Nat.lt_succ_self rest.length) (depth_own_le hown)
              refine (ih _ hless hrest rfl).imp_right ?_
              exact fun ⟨s, l, v, hmeets, hlast⟩ => ⟨s, l, v, .child hchild hmeets, hlast⟩
          · rcases hcase with ⟨-, rfl⟩ | ⟨-, hrest⟩
            · exact .inl hflat.prints
            · exact .inl (flat_of_flat hflat hrest).prints

/-- A child is taken as a property. -/
theorem extractExample_of_child {s v : Json} {k : String} (h : Child s k v) (rest : List String) :
    extractExample (.json s) (k :: rest) = extractExample.take (.json s) k rest := by
  rcases call_cons (.json s) k rest with
    ⟨hs, -⟩ | ⟨ms, hs, hk, -⟩ | ⟨xs, hs, hk, -⟩ | ⟨-, -, -, heq⟩
  · cases hs
    cases h
  · cases hs
    cases h with
    | member hname _ => exact absurd (hk.symm.trans hname) (by decide)
  · cases hs
    cases h with
    | element hindex _ => exact absurd (hindex.symm.trans hk) (by decide)
  · exact heq

theorem Child.smooth_iff {s v : Json} {k : String} (h : Child s k v) (rest : List String) :
    Smooth s (k :: rest) ↔ (JsValue.json s).hides = false ∧ ∀ u, Child s k u → Smooth u rest := by
  refine smooth_child_iff ?_ ?_
  · rintro ms rfl
    cases h with
    | member hname _ => exact hname
  · rintro xs rfl
    cases h with
    | element hindex _ => exact hindex

/-- **What the path leads to** is the sample, if the script gets there. -/
theorem extractExample_of_meets {d s v : Json} {path : List String} {k : String}
    (hmeets : Meets d path s [k]) (hchild : Child s k v) (h : Smooth d path) :
    extractExample (.json d) path = some (.json v) := by
  generalize hleft : [k] = left at hmeets
  induction hmeets with
  | here =>
    subst hleft
    obtain ⟨hhides, -⟩ := (hchild.smooth_iff []).mp h
    rw [extractExample_of_child hchild, take_eq_some_iff]
    exact ⟨hhides, .inr ⟨_, own_of_child hchild, .inl ⟨rfl, rfl⟩⟩⟩
  | skip hk _ ih =>
    rw [extractExample, if_pos hk]
    exact ih hchild ((smooth_skip_iff hk).mp h) hleft
  | dive hk _ ih =>
    rw [extractExample, if_neg (by rw [hk]; simp)]
    exact ih hchild ((smooth_dive_iff hk).mp h) hleft
  | child hfirst hrest ih =>
    obtain ⟨hhides, hsmooth⟩ := (hfirst.smooth_iff _).mp h
    rw [extractExample_of_child hfirst, take_eq_some_iff]
    refine ⟨hhides, .inr ⟨_, own_of_child hfirst, .inr ⟨?_, ih hchild (hsmooth _ hfirst) hleft⟩⟩⟩
    -- there is a step to go
    rintro rfl
    subst hleft
    cases hrest

/-- **A field is filled** where its path is smooth and leads to nothing that does not print. -/
theorem isSome_shown_iff {d : Json} {path : List String} :
    ((sampleIn d path).filter JsValue.prints).isSome = true ↔
      Smooth d (path.map replaceStars) ∧ Printable d (path.map replaceStars) := by
  rw [← extractExample_isSome_iff, Option.isSome_filter, sampleIn]
  cases hsample : extractExample (.json d) (path.map replaceStars) with
  | none => exact iff_of_false (by simp) fun h => absurd h.1 Bool.false_ne_true
  | some w =>
    have hsmooth : Smooth d (path.map replaceStars) := by
      rw [← extractExample_isSome_iff, hsample]
      rfl
    rw [Option.any_some, Option.isSome_some, and_iff_right rfl]
    constructor
    · intro hw s k v hmeets hchild
      -- what the path leads to is the sample
      rw [extractExample_of_meets hmeets hchild hsmooth] at hsample
      obtain rfl := Option.some.inj hsample
      exact hw
    · intro h
      rcases prints_or_meets hsample with hw | ⟨s, k, v, hmeets, hchild, rfl⟩
      · exact hw
      · exact h s k v hmeets hchild

/-- **All fields are filled** exactly if none of their paths stops the loop. -/
theorem filled_iff (d : Json) (fields : List (Option (List String))) :
    Filled fields (extractExamples d fields) ↔
      ∀ path, some path ∈ fields → Smooth d (path.map replaceStars) ∧ Printable d (path.map replaceStars) := by
  induction fields with
  | nil => exact iff_of_true .nil fun path h => absurd h List.not_mem_nil
  | cons field fields ih =>
    cases field with
    | none =>
      -- nothing is done for an empty field
      rw [extractExamples, Filled, List.forall₂_cons, ← Filled, ih]
      constructor
      · rintro ⟨-, h⟩ path hpath
        rcases List.mem_cons.mp hpath with heq | hpath
        · cases heq
        · exact h path hpath
      · exact fun h => ⟨fun hsome => absurd hsome Bool.false_ne_true,
          fun path hpath => h path (List.mem_cons_of_mem _ hpath)⟩
    | some path =>
      have hfield : ((sampleIn d path).filter JsValue.prints).isSome = true ↔
          Smooth d (path.map replaceStars) ∧ Printable d (path.map replaceStars) := isSome_shown_iff
      have hall : (∀ p, some p ∈ some path :: fields →
          Smooth d (p.map replaceStars) ∧ Printable d (p.map replaceStars)) ↔
            (Smooth d (path.map replaceStars) ∧ Printable d (path.map replaceStars)) ∧
              ∀ p, some p ∈ fields → Smooth d (p.map replaceStars) ∧ Printable d (p.map replaceStars) := by
        constructor
        · exact fun h => ⟨h path List.mem_cons_self, fun p hp => h p (List.mem_cons_of_mem _ hp)⟩
        · rintro ⟨hpath, hfields⟩ p hp
          rcases List.mem_cons.mp hp with heq | hp
          · obtain rfl := Option.some.inj heq
            exact hpath
          · exact hfields p hp
      rw [hall, ← hfield, ← ih, extractExamples]
      cases hshown : (sampleIn d path).filter JsValue.prints with
      | none =>
        -- the field itself stays empty
        refine iff_of_false (fun h => ?_) fun h => absurd h.1 Bool.false_ne_true
        cases h with
        | cons hhead _ => exact absurd (hhead rfl) Bool.false_ne_true
      | some ex =>
        change Filled (some path :: fields) (some ex :: extractExamples d fields) ↔ _
        rw [Filled, List.forall₂_cons, ← Filled]
        exact and_congr_left fun _ => iff_of_true (fun _ => rfl) rfl

/-- **Where the script ends**: it always does, it returns exactly where the path is smooth, and all fields
are filled exactly if their paths are, and lead to nothing that does not print. -/
theorem extractExample_returns_iff (d : Json) (path : List String) (fields : List (Option (List String))) :
    (∃ n out, calls call n (some (.json d), path) = some out) ∧
      ((∃ n w, calls call n (some (.json d), path) = some (some w)) ↔ Smooth d path) ∧
      (Filled fields (extractExamples d fields) ↔
        ∀ p, some p ∈ fields → Smooth d (p.map replaceStars) ∧ Printable d (p.map replaceStars)) := by
  refine ⟨⟨_, _, calls_extractExample (.json d) path⟩, ?_, filled_iff d fields⟩
  rw [← extractExample_isSome_iff, Option.isSome_iff_exists, exists_comm]
  refine exists_congr fun w => ?_
  exact exists_calls_iff (fun _ _ => result_of_call_done) fun _ _ => result_of_call_again

/-- A record with an empty list of titles. -/
def emptyTitle : Document where
  val := .obj [("titleInfo", .arr []), ("date", .str "1889")]
  wf := by decide

/-- The name meets the empty list, and the next call raises. -/
theorem not_returns_empty : ¬ ∀ (d : Document) (path : List String),
    ∃ n w, calls call n (some (.json d.val), path) = some (some w) := by
  intro hall
  obtain ⟨n, w, hn⟩ := hall emptyTitle ["titleInfo", "title"]
  have hraises : calls call 3 (some (.json emptyTitle.val), ["titleInfo", "title"]) = some none := rfl
  have hboth := calls_mono hn (Nat.le_max_left n 3)
  rw [calls_mono hraises (Nat.le_max_right n 3)] at hboth
  cases hboth

end Preview
end Curarium
