import Curarium.Collection.FollowJson
import Curarium.Json.Script

/-!
# The sample values of the configuration page

While a collection is configured, the page shows for each field a sample value from one record. The
script that finds it, `extractExample`, is a second reading of the paths that the import follows with
`follow_json_single`, and a more lenient one: it skips an index that meets an object, looks into the
first element of an array that meets a name, and takes the characters and the length of a string.

* `Literal` says that the script takes a path as it is written, up to a value of the document
  (`reached`). There the sample is that value as the script reads it, with doubles for numbers
  (`sample_eq_some_iff`), and the import extracts the value itself (`extracted_of_reached`).
* `Astray` says where the path leaves the document: the import extracts nothing, so every sample is
  one too many (`extracted_of_astray`).
* `preview_agrees` puts them together.
-/

namespace Curarium
namespace Preview

open Collection
open Json (Step)

/-! ### The script -/

/-- A value of the script. A unit of a string may be half of a character, which no document holds. -/
inductive JsValue where
  | json (v : Json)
  | surrogate (unit : Nat)

/-- The units of a string. -/
def utf16 (cs : List Char) : List Nat :=
  cs.flatMap fun c =>
    if c.toNat < 0x10000 then [c.toNat]
    else [0xD800 + (c.toNat - 0x10000) / 0x400, 0xDC00 + (c.toNat - 0x10000) % 0x400]

/-- A string of one unit. -/
def JsValue.ofUnit (u : Nat) : JsValue :=
  if 0xD800 ≤ u ∧ u ≤ 0xDFFF then .surrogate u else .json (.str (String.singleton (Char.ofNat u)))

/-- The element with this name: the names of the elements are their numbers, without leading
zeros. -/
def elementAt {α : Type} (xs : List α) (k : String) : Option α :=
  ((List.range xs.length).find? fun i => Nat.toDigits 10 i = k.toList).bind fun i => xs[i]?

/-- The own property of a value with this name. -/
def JsValue.own : JsValue → String → Option JsValue
  | .json (.obj ms), k => (ms.lookup k).map .json
  | .json (.arr xs), k => if k = "length" then some (.json (.int xs.length)) else (elementAt xs k).map .json
  | .json (.str s), k =>
    if k = "length" then some (.json (.int (utf16 s.toList).length))
    else (elementAt (utf16 s.toList) k).map .ofUnit
  | .surrogate u, k =>
    if k = "length" then some (.json (.int 1)) else (elementAt [u] k).map .surrogate
  | _, _ => none

/-- A member called `hasOwnProperty` hides the function, and calling it raises. -/
def JsValue.hides : JsValue → Bool
  | .json (.obj ms) => (ms.lookup "hasOwnProperty").isSome
  | _ => false

/-- `/^\d+$/` -/
def isDigits (k : String) : Bool := !k.toList.isEmpty && k.toList.all Char.isDigit

/-- The empty sample. -/
def blank : JsValue := .json (.str "")

/-- `extractExample`; `none` where the script raises. -/
def extractExample : JsValue → List String → Option JsValue
  | .json .null, _ => some blank
  | _, [] => some blank
  | .json (.obj ms), k :: rest =>
    -- array in path, single object in original: ignore the array index
    if isDigits k then extractExample (.json (.obj ms)) rest
    else take (.json (.obj ms)) k rest
  | .json (.arr []), k :: rest => if isDigits k then take (.json (.arr [])) k rest else none
  | .json (.arr (x :: xs)), k :: rest =>
    -- single property in path, an array in original: dive into its first element
    if isDigits k then take (.json (.arr (x :: xs))) k rest
    else extractExample (.json x) (k :: rest)
  | original, k :: rest => take original k rest
termination_by original path => (path.length, sizeOf original + 1)
where
  /-- The own property, and the rest of the path from there. -/
  take (original : JsValue) (k : String) (rest : List String) : Option JsValue :=
    if original.hides then none
    else
      match original.own k with
      | none => some blank
      | some v =>
        match rest with
        | [] => some v
        | l :: rest => extractExample v (l :: rest)
  termination_by (rest.length + 1, 0)

/-- What the page does to a path before it calls the script, `replace( /\*/g, '0' )`. -/
def replaceStars (k : String) : String :=
  String.ofList (k.toList.map fun c => if c = '*' then '0' else c)

/-- The sample of a path in a value that the page holds. -/
def sampleIn (original : Json) (path : List String) : Option JsValue :=
  extractExample (.json original) (path.map replaceStars)

/-- The sample of a path. The page holds the document as `JSON.parse` of the script reads it. -/
def sample (d : Json) (path : List String) : Option JsValue := sampleIn d.script path

/-- What the import extracts. -/
def extracted (d : Json) (path : List String) : Option Json :=
  followJsonSingle d (.steps (path.map Step.str))

/-- `present?`, for a value of the script. -/
def JsValue.present : JsValue → Bool
  | .json v => v.present
  | .surrogate _ => true

/-- **The preview agrees with the import**: a sample that is present is what the import extracts. -/
def Agrees (d : Json) (path : List String) : Prop :=
  ∀ w, sample d path = some w → w.present = true → (extracted d path).map .json = some w

/-! ### Paths that are taken as they are written -/

/-- The script takes the path as it is written, as far as it gets. Where a member is found its name
is neither an index nor changed by the stars; an array meets an index, or a wildcard after the
first step; and nothing of a string is taken. -/
def Literal : (first : Bool) → Json → List String → Prop
  | _, _, [] => True
  | _, .obj ms, k :: rest =>
    isDigits (replaceStars k) = false ∧
      ∀ v, ms.lookup (replaceStars k) = some v →
        replaceStars k = k ∧ isI k = false ∧ Literal false v rest
  | first, .arr xs, k :: rest =>
    isDigits (replaceStars k) = true ∧
      ∀ v, elementAt xs (replaceStars k) = some v →
        (replaceStars k = k ∨ first = false ∧ k = "*") ∧ Literal false v rest
  | _, .str s, k :: _ => (JsValue.json (.str s)).own (replaceStars k) = none
  | _, _, _ :: _ => True

/-- The value that a step leads to as it is written, where the script takes it. -/
def stepTo (s : Json) (k : String) : Option Json :=
  if (JsValue.json s).hides then none
  else
    match s with
    | .obj ms => ms.lookup (replaceStars k)
    | .arr xs => elementAt xs (replaceStars k)
    | _ => none

/-- The value that a path leads to, step by step as it is written. -/
def reached : Json → List String → Option Json
  | _, [] => none
  | s, [k] => stepTo s k
  | s, k :: l :: rest => (stepTo s k).bind fun child => reached child (l :: rest)

theorem ne_star_of_replaceStars {k : String} (h : replaceStars k = k) : k ≠ "*" := by
  rintro rfl
  exact absurd h (by decide)

theorem extractExample_nil (original : JsValue) : extractExample original [] = some blank := by
  unfold extractExample
  split
  · rfl
  · rfl
  all_goals contradiction

/-- A property that the script takes, and what it does after that. -/
theorem take_eq_some_iff {original w : JsValue} {k : String} {rest : List String} :
    extractExample.take original k rest = some w ↔ original.hides = false ∧
      (original.own k = none ∧ w = blank ∨
        ∃ v, original.own k = some v ∧
          (rest = [] ∧ w = v ∨ rest ≠ [] ∧ extractExample v rest = some w)) := by
  rw [extractExample.take.eq_def]
  cases original.hides with
  | true => exact iff_of_false (by simp) fun h => absurd h.1 (by decide)
  | false =>
    rw [if_neg Bool.false_ne_true, and_iff_right rfl]
    cases original.own k with
    | none =>
      -- nothing is there: the empty sample
      constructor
      · exact fun h => .inl ⟨rfl, (Option.some.inj h).symm⟩
      · rintro (⟨-, rfl⟩ | ⟨v, hv, -⟩)
        · rfl
        · cases hv
    | some v =>
      cases rest with
      | nil =>
        -- the last step
        constructor
        · exact fun h => .inr ⟨v, rfl, .inl ⟨rfl, (Option.some.inj h).symm⟩⟩
        · rintro (⟨hv, -⟩ | ⟨u, hu, ⟨-, rfl⟩ | ⟨hne, -⟩⟩)
          · cases hv
          · exact hu
          · exact absurd rfl hne
      | cons l rest =>
        constructor
        · exact fun h => .inr ⟨v, rfl, .inr ⟨by simp, h⟩⟩
        · rintro (⟨hv, -⟩ | ⟨u, hu, ⟨hnil, -⟩ | ⟨-, h⟩⟩)
          · cases hv
          · cases hnil
          · obtain rfl := Option.some.inj hu
            exact h

/-- An element is found by its number. -/
theorem elementAt_eq_some {α : Type} {xs : List α} {k : String} {x : α}
    (h : elementAt xs k = some x) : ∃ i : Nat, k.toList = Nat.toDigits 10 i ∧ xs[i]? = some x := by
  obtain ⟨i, hi, hx⟩ := Option.bind_eq_some_iff.mp h
  have hname := List.find?_some hi
  exact ⟨i, (of_decide_eq_true hname).symm, hx⟩

/-- A number without leading zeros is an index for the import. -/
theorem cpath_index {k : String} {i : Nat} (h : k.toList = Nat.toDigits 10 i) :
    cpath (.str k) = .int i := by
  have hread : Ruby.toI k.toList = i := by rw [h, Ruby.toI_toDigits]
  have hprint : Ruby.toS (i : Int) = Nat.toDigits 10 i := by
    rw [Ruby.toS, if_neg (by omega), Int.natAbs_natCast]
  have hisI : isI k = true := by
    rw [isI, decide_eq_true_iff, hread, hprint, h]
  rw [cpath, if_pos hisI, hread]

theorem descend_member {ms : List (String × Json)} {k : String} {v : Json} (hisI : isI k = false)
    (h : ms.lookup k = some v) (hv : v.present = true) : descend (.obj ms) (.str k) = some v := by
  have hms : (Json.obj ms).present = true := by
    cases ms with
    | nil => exact absurd h (by simp)
    | cons m ms => rfl
  rw [descend, load_obj, Option.bind_some, if_pos hms, cpath, if_neg (by rw [hisI]; simp), Json.index, h]
  exact Option.filter_eq_some_iff.mpr ⟨rfl, hv⟩

theorem descend_element {xs : List Json} {k : String} {v : Json} {i : Nat}
    (hk : cpath (.str k) = .int i) (h : xs[i]? = some v) (hv : v.present = true) :
    descend (.arr xs) (.str k) = some v := by
  have hnat := descend_arr_nat xs i
  rw [descend] at hnat ⊢
  rw [hk]
  rw [cpath] at hnat
  rw [hnat, h]
  exact Option.filter_eq_some_iff.mpr ⟨rfl, hv⟩

/-- The import from a structure on: a wildcard at the start of the path is a name. -/
def follow : (first : Bool) → Json → List Step → Option (List Json)
  | true => followSteps
  | false => advance

theorem follow_of_ne_star {k : String} (hk : k ≠ "*") (first : Bool) (s : Json) (rest : List Step) :
    follow first s (.str k :: rest) = followSteps s (.str k :: rest) := by
  cases first with
  | true => rfl
  | false => exact advance_of_ne_star (fun heq => hk (Step.str.inj heq)) s rest

/-- The value is the first that the import extracts from the structure. -/
def Extracts (first : Bool) (s : Json) (path : List Step) (v : Json) : Prop :=
  ∃ vs, follow first s path = some (v :: vs)

/-- A step of the import to a value that is present, and the rest of the path from there. -/
theorem extracts_step {s child v : Json} {k : Step} {rest : List String}
    (hd : descend s k = some child)
    (h : rest = [] ∧ v = child ∨ rest ≠ [] ∧ Extracts false child (rest.map Step.str) v) :
    Extracts true s (k :: rest.map Step.str) v := by
  rcases h with ⟨rfl, rfl⟩ | ⟨hne, vs, hfollow⟩
  · refine ⟨[], ?_⟩
    show followSteps s [k] = _
    rw [followSteps_singleton, hd]
    rfl
  · -- the rest of the path is followed from the child
    obtain ⟨l, rest, rfl⟩ := List.exists_cons_of_ne_nil hne
    refine ⟨vs, ?_⟩
    show followSteps s (k :: Step.str l :: rest.map Step.str) = _
    rw [followSteps_cons, hd]
    exact hfollow

/-- The first element of an array comes first in what a wildcard collects. -/
theorem extracts_wildcard {xs : List Json} {rest : List Step} {v : Json}
    (h : Extracts true (.arr xs) (.int 0 :: rest) v) : Extracts false (.arr xs) (star :: rest) v := by
  obtain ⟨vs, hfollow⟩ := h
  have hfirst : (followSteps (.arr xs) (.int ((0 : Nat) : Int) :: rest)).bind List.head? = some v := by
    have hfollow' : followSteps (.arr xs) (.int ((0 : Nat) : Int) :: rest) = some (v :: vs) := hfollow
    rw [hfollow']
    rfl
  have hexpand : ∃ ws, expand xs rest = v :: ws := by
    rw [expand, List.range_succ_eq_map]
    exact ⟨_, List.filterMap_cons_some hfirst⟩
  obtain ⟨ws, hws⟩ := hexpand
  exact ⟨ws, (advance_star xs rest).trans (congrArg some hws)⟩

/-- A step that the script takes as it is written: to a member, to an element by its number or, after
the first step, to the first element by a wildcard. -/
inductive Takes : (first : Bool) → Json → String → Json → Prop where
  | member {first : Bool} {ms : List (String × Json)} {k : String} {child : Json} :
    ms.lookup k = some child → replaceStars k = k → isI k = false → Takes first (.obj ms) k child
  | element {first : Bool} {xs : List Json} {k : String} {child : Json} {i : Nat} :
    cpath (.str k) = .int i → xs[i]? = some child → replaceStars k = k →
      Takes first (.arr xs) k child
  | wildcard {xs : List Json} {child : Json} : xs[0]? = some child → Takes false (.arr xs) "*" child

/-- A step to a child is taken as it is written, and so is the rest of the path. -/
theorem takes_of_stepTo {first : Bool} {s child : Json} {k : String} {rest : List String}
    (hliteral : Literal first s (k :: rest)) (h : stepTo s k = some child) :
    Takes first s k child ∧ Literal false child rest := by
  rw [stepTo.eq_def] at h
  split at h
  · cases h
  · cases s with
    | obj ms =>
      obtain ⟨hk, hisI, hrest⟩ := hliteral.2 child h
      have hlookup : ms.lookup (replaceStars k) = some child := h
      rw [hk] at hlookup
      exact ⟨.member hlookup hk hisI, hrest⟩
    | arr xs =>
      obtain ⟨hk, hrest⟩ := hliteral.2 child h
      obtain ⟨i, hi, hx⟩ := elementAt_eq_some h
      refine ⟨?_, hrest⟩
      rcases hk with hk | ⟨rfl, rfl⟩
      · rw [hk] at hi
        exact .element (cpath_index hi) hx hk
      · -- the wildcard became `0`
        have hzero : i = 0 := by
          have hval := congrArg (fun ds => Nat.ofDigitChars 10 ds 0) hi
          simp only [Nat.ofDigitChars_ten_toDigits] at hval
          exact hval.symm
        rw [hzero] at hx
        exact .wildcard hx
    | _ => cases h

/-! ### The script on a path that is taken as it is written -/

theorem elementAt_map {α β : Type} (f : α → β) (xs : List α) (k : String) :
    elementAt (xs.map f) k = (elementAt xs k).map f := by
  rw [elementAt, elementAt, List.length_map, Option.map_bind]
  congr 1
  funext i
  exact List.getElem?_map

/-- A member that hides `hasOwnProperty` does so in the script. -/
theorem hides_script (s : Json) : (JsValue.json s.script).hides = (JsValue.json s).hides := by
  cases s with
  | obj ms =>
    rw [Json.script, JsValue.hides, JsValue.hides, Json.lookup_scriptMembers, Option.isSome_map]
  | int z =>
    rw [Json.script, Json.toNumber]
    split <;> rfl
  | _ => rfl

/-- An index is none of the other properties of an array. -/
theorem ne_length_of_isDigits {k : String} (hk : isDigits k = true) : k ≠ "length" := by
  rintro rfl
  exact absurd hk (by decide)

/-- The property that the script takes is a child of the document's value, as the script reads it. -/
theorem own_script {first : Bool} {s : Json} {k : String} {rest : List String}
    (hliteral : Literal first s (k :: rest)) (hs : (JsValue.json s).hides = false) :
    (JsValue.json s.script).own (replaceStars k) = (stepTo s k).map fun v => .json v.script := by
  rw [stepTo.eq_def, if_neg (by rw [hs]; exact Bool.false_ne_true)]
  cases s with
  | null => rfl
  | bool b => rfl
  | float f => rfl
  | int z =>
    rw [Json.script, Json.toNumber]
    split <;> rfl
  -- the path takes nothing of a string
  | str s => exact hliteral
  | obj ms =>
    rw [Json.script, JsValue.own, Json.lookup_scriptMembers, Option.map_map]
    rfl
  | arr xs =>
    rw [Json.script, JsValue.own, if_neg (ne_length_of_isDigits hliteral.1), Json.scriptElems_eq_map,
      elementAt_map, Option.map_map]
    rfl

/-- Such a step skips nothing and dives into nothing: the script takes a property, unless there is
`null`. -/
theorem extractExample_script {first : Bool} {s : Json} {k : String} {rest : List String}
    (hliteral : Literal first s (k :: rest)) (hs : s ≠ .null) (rest' : List String) :
    extractExample (.json s.script) (replaceStars k :: rest') =
      extractExample.take (.json s.script) (replaceStars k) rest' := by
  cases s with
  | null => exact absurd rfl hs
  | bool b => rw [Json.script, extractExample.eq_def]
  | float f => rw [Json.script, extractExample.eq_def]
  | str s => rw [Json.script, extractExample.eq_def]
  | int z =>
    rw [Json.script, Json.toNumber]
    split <;> rw [extractExample.eq_def]
  | obj ms =>
    have hname : isDigits (replaceStars k) = false := hliteral.1
    rw [Json.script, extractExample, if_neg (by rw [hname]; exact Bool.false_ne_true)]
  | arr xs =>
    have hindex : isDigits (replaceStars k) = true := hliteral.1
    -- an index is taken from the array itself, empty or not
    cases xs with
    | nil => rw [Json.script, Json.scriptElems, extractExample, if_pos hindex]
    | cons x xs => rw [Json.script, Json.scriptElems, extractExample, if_pos hindex]

/-- **One step of the script**: a sample that is present is a child, or comes from one. -/
theorem sample_cons_iff {first : Bool} {s : Json} {k : String} {rest : List String} {w : JsValue}
    (hliteral : Literal first s (k :: rest)) (hw : w.present = true) :
    sample s (k :: rest) = some w ↔ ∃ child, stepTo s k = some child ∧
      (rest = [] ∧ w = .json child.script ∨ rest ≠ [] ∧ sample child rest = some w) := by
  have hblank : w ≠ blank := by
    rintro rfl
    exact absurd hw (by decide)
  rw [sample, sampleIn, List.map_cons]
  by_cases hnull : s = .null
  · -- the sample of `null` is blank, and it has no children
    subst hnull
    rw [Json.script, extractExample]
    refine iff_of_false (fun h => hblank (Option.some.inj h).symm) ?_
    rintro ⟨child, hchild, -⟩
    cases hchild
  · rw [extractExample_script hliteral hnull, take_eq_some_iff, hides_script]
    constructor
    · rintro ⟨hs, ⟨-, hb⟩ | ⟨v, hown, hcase⟩⟩
      · exact absurd hb hblank
      · rw [own_script hliteral hs] at hown
        obtain ⟨child, hchild, rfl⟩ := Option.map_eq_some_iff.mp hown
        rw [ne_eq, List.map_eq_nil_iff] at hcase
        exact ⟨child, hchild, hcase⟩
    · rintro ⟨child, hchild, hcase⟩
      have hs : (JsValue.json s).hides = false := by
        by_contra hs
        rw [stepTo.eq_def, if_pos (by simpa using hs)] at hchild
        cases hchild
      refine ⟨hs, .inr ⟨.json child.script, ?_, ?_⟩⟩
      · rw [own_script hliteral hs, hchild, Option.map_some]
      · rw [ne_eq, List.map_eq_nil_iff]
        exact hcase

/-- **The sample** is what the path leads to, as the script reads it. -/
theorem sample_eq_some_iff {path : List String} {first : Bool} {s : Json} {w : JsValue}
    (hliteral : Literal first s path) (hw : w.present = true) :
    sample s path = some w ↔ ∃ v, reached s path = some v ∧ w = .json v.script := by
  induction path generalizing first s with
  | nil =>
    -- the sample of an empty path is blank
    rw [sample, sampleIn, List.map_nil, extractExample_nil]
    refine iff_of_false (fun h => ?_) ?_
    · obtain rfl := Option.some.inj h
      exact absurd hw (by decide)
    · rintro ⟨v, hv, -⟩
      cases hv
  | cons k rest ih =>
    rw [sample_cons_iff hliteral hw]
    cases rest with
    | nil =>
      refine exists_congr fun child => and_congr_right fun _ => ?_
      exact ⟨fun h => h.elim And.right fun h => absurd rfl h.1, fun h => .inl ⟨rfl, h⟩⟩
    | cons l rest =>
      have hiff : ∀ child, stepTo s k = some child → (sample child (l :: rest) = some w ↔
          ∃ v, reached child (l :: rest) = some v ∧ w = .json v.script) :=
        fun child hchild => ih (takes_of_stepTo hliteral hchild).2
      rw [reached]
      constructor
      · rintro ⟨child, hchild, ⟨hnil, -⟩ | ⟨-, hsample⟩⟩
        · cases hnil
        · obtain ⟨v, hv, hwv⟩ := (hiff child hchild).mp hsample
          exact ⟨v, Option.bind_eq_some_iff.mpr ⟨child, hchild, hv⟩, hwv⟩
      · rintro ⟨v, hv, hwv⟩
        obtain ⟨child, hchild, hv⟩ := Option.bind_eq_some_iff.mp hv
        exact ⟨child, hchild, .inr ⟨by simp, (hiff child hchild).mpr ⟨v, hv, hwv⟩⟩⟩

/-! ### The import on such a path -/

/-- The import takes the same step, to a child that is present. -/
theorem Takes.extracts {first : Bool} {s child v : Json} {k : String} {rest : List String}
    (h : Takes first s k child) (hchild : child.present = true)
    (hrest : rest = [] ∧ v = child ∨ rest ≠ [] ∧ Extracts false child (rest.map Step.str) v) :
    Extracts first s ((k :: rest).map Step.str) v := by
  rw [List.map_cons]
  cases h with
  | member hlookup hk hisI =>
    rw [Extracts, follow_of_ne_star (ne_star_of_replaceStars hk)]
    exact extracts_step (descend_member hisI hlookup hchild) hrest
  | element hi hx hk =>
    rw [Extracts, follow_of_ne_star (ne_star_of_replaceStars hk)]
    exact extracts_step (descend_element hi hx hchild) hrest
  | @wildcard xs _ hx =>
    -- the import tries the number 0 first
    have hd : descend (.arr xs) (.int ((0 : Nat) : Int)) = some child := by
      rw [descend_arr_nat, hx]
      exact Option.filter_eq_some_iff.mpr ⟨rfl, hchild⟩
    exact extracts_wildcard (extracts_step hd hrest)

/-- A step starts from a value that is present. -/
theorem Takes.present {first : Bool} {s child : Json} {k : String} (h : Takes first s k child) :
    s.present = true := by
  cases h with
  | @member _ ms _ _ hlookup _ _ =>
    cases ms with
    | nil => exact absurd hlookup (by simp)
    | cons m ms => rfl
  | @element _ xs _ _ _ _ hx _ =>
    cases xs with
    | nil => exact absurd hx (by simp)
    | cons x xs => rfl
  | @wildcard xs _ hx =>
    cases xs with
    | nil => exact absurd hx (by simp)
    | cons x xs => rfl

/-- What is reached is reached by a first step, from a value that is present. -/
theorem present_of_reached {path : List String} {first : Bool} {s v : Json}
    (hliteral : Literal first s path) (h : reached s path = some v) : s.present = true := by
  have hstep : ∃ k rest child, path = k :: rest ∧ stepTo s k = some child := by
    rcases path with _ | ⟨k, _ | ⟨l, rest⟩⟩
    · cases h
    · exact ⟨k, [], v, rfl, h⟩
    · obtain ⟨child, hchild, -⟩ := Option.bind_eq_some_iff.mp h
      exact ⟨k, l :: rest, child, rfl, hchild⟩
  obtain ⟨k, rest, child, rfl, hchild⟩ := hstep
  exact (takes_of_stepTo hliteral hchild).1.present

/-- The import extracts what the path leads to, if that is present. -/
theorem extracts_of_reached {path : List String} {first : Bool} {s v : Json}
    (hliteral : Literal first s path) (h : reached s path = some v) (hv : v.present = true) :
    Extracts first s (path.map Step.str) v := by
  induction path generalizing first s with
  | nil => cases h
  | cons k rest ih =>
    cases rest with
    | nil => exact (takes_of_stepTo hliteral h).1.extracts hv (.inl ⟨rfl, rfl⟩)
    | cons l rest =>
      obtain ⟨child, hchild, h⟩ := Option.bind_eq_some_iff.mp h
      obtain ⟨htakes, hrest⟩ := takes_of_stepTo hliteral hchild
      exact htakes.extracts (present_of_reached hrest h) (.inr ⟨by simp, ih hrest h⟩)

theorem extracted_of_reached {d v : Json} {path : List String} (hliteral : Literal true d path)
    (h : reached d path = some v) (hv : v.present = true) : extracted d path = some v := by
  obtain ⟨vs, hfollow⟩ := extracts_of_reached hliteral h hv
  have hfollow' : followSteps d (path.map Step.str) = some (v :: vs) := hfollow
  rw [extracted, followJsonSingle, followJson, hfollow']
  rfl

/-- **When the preview agrees** on a path that is taken as it is written: the script rounds no number
of what the path leads to. -/
theorem agrees_iff_of_literal {d : Json} {path : List String} (hliteral : Literal true d path) :
    Agrees d path ↔ ∀ v, reached d path = some v → v.present = true →
      ∀ z, Json.Occurs z v → Json.IsDouble z := by
  constructor
  · intro hagrees v hreached hv
    have hpresent : (JsValue.json v.script).present = true := (Json.present_script v).trans hv
    have hsample := (sample_eq_some_iff hliteral hpresent).mpr ⟨v, hreached, rfl⟩
    -- the import extracts the value itself
    have hsame := hagrees _ hsample hpresent
    rw [extracted_of_reached hliteral hreached hv, Option.map_some, Option.some.injEq,
      JsValue.json.injEq] at hsame
    exact (Json.script_eq_self_iff v).mp hsame.symm
  · intro hexact w hsample hw
    obtain ⟨v, hreached, rfl⟩ := (sample_eq_some_iff hliteral hw).mp hsample
    have hv : v.present = true := (Json.present_script v).symm.trans hw
    rw [extracted_of_reached hliteral hreached hv, Option.map_some,
      (Json.script_eq_self_iff v).mpr (hexact v hreached hv)]

/-! ### Paths that leave the document -/

/-- The import finds nothing at this step: a number is no member, a name is no element, and a text
that is no document has neither. -/
def Misses : Json → String → Prop
  | .obj _, k => isI k = true
  | .arr _, k => isI k = false
  | .str s, _ => Json.parse s = none
  | _, _ => False

/-- Without wildcards the path leads to a value where the import finds nothing. -/
def Astray (d : Json) (path : List String) : Prop :=
  ∃ pre k rest s, path = pre ++ k :: rest ∧ walk d (pre.map Step.str) = some s ∧ Misses s k ∧
    (pre ≠ [] → k ≠ "*")

theorem descend_of_misses {s : Json} {k : String} (h : Misses s k) : descend s (.str k) = none := by
  cases s with
  | null => exact absurd h id
  | bool b => exact absurd h id
  | int z => exact absurd h id
  | float f => exact absurd h id
  -- a text is read as a document first
  | str s =>
    have hload : load (.str s) = none := h
    rw [descend, hload, Option.bind_none]
  | arr xs =>
    have hcpath : cpath (.str k) = .str k := if_neg (by rw [show isI k = false from h]; simp)
    have hindex : (Json.arr xs).index (.str k) = none := rfl
    rw [descend, load_arr, Option.bind_some, hcpath, hindex, Option.filter_none, ite_self]
  | obj ms =>
    have hcpath : cpath (.str k) = .int (Ruby.toI k.toList) := if_pos h
    have hindex : (Json.obj ms).index (.int (Ruby.toI k.toList)) = none := rfl
    rw [descend, load_obj, Option.bind_some, hcpath, hindex, Option.filter_none, ite_self]

/-- The import extracts nothing. -/
theorem extracted_of_astray {d : Json} {path : List String} (h : Astray d path) :
    extracted d path = none := by
  obtain ⟨pre, k, rest, s, rfl, hwalk, hmisses, hstar⟩ := h
  have hnone : followSteps s (.str k :: rest.map Step.str) = none :=
    followSteps_of_descend_none (descend_of_misses hmisses) _
  have hfollow : followSteps d ((pre ++ k :: rest).map Step.str) = none := by
    rw [List.map_append, List.map_cons]
    cases pre with
    | nil =>
      obtain rfl := Option.some.inj hwalk
      exact hnone
    | cons l pre =>
      -- past the first step a wildcard would be expanded, but this is none
      have hk : Step.str k ≠ star := fun heq => hstar (by simp) (Step.str.inj heq)
      rw [followSteps_append (by simp) (by simp) hwalk, advance_of_ne_star hk]
      exact hnone
  rw [extracted, followJsonSingle, followJson, hfollow]
  rfl

/-- **When the sample values are right.** On a path that is taken as it is written: where it leads to no
value with an integer that the script rounds. Where the path leaves the document: where the sample is
not present. -/
theorem preview_agrees (d : Document) (path : List String) :
    (Literal true d.val path →
        (Agrees d.val path ↔ ∀ v, reached d.val path = some v → v.present = true →
          ∀ z, Json.Occurs z v → Json.IsDouble z)) ∧
      (Astray d.val path →
        (Agrees d.val path ↔ ∀ w, sample d.val path = some w → w.present = false)) := by
  refine ⟨agrees_iff_of_literal, fun hastray => ⟨fun hagrees w hw => ?_, fun hblank w hw hpresent => ?_⟩⟩
  · by_contra hpresent
    -- the import extracts nothing, so it cannot agree
    have hsame := hagrees w hw (by simpa using hpresent)
    rw [extracted_of_astray hastray] at hsame
    exact absurd hsame (by simp)
  · exact absurd ((hblank w hw).symm.trans hpresent) Bool.false_ne_true

/-- A record with a list of titles. -/
def listedTitle : Document where
  val := .obj [("titleInfo", .arr [.obj [("title", .str "Starry Night")]])]
  wf := by decide

/-- A record with a single title. -/
def singleTitle : Document where
  val := .obj [("titleInfo", .obj [("title", .str "Starry Night")])]
  wf := by decide

/-- In a list the first title is the sample, and it is extracted. -/
theorem preview_agrees_listed :
    (extracted listedTitle.val ["titleInfo", "*", "title"]).map JsValue.json =
      some (.json (.str "Starry Night")) := by
  have hliteral : Literal true listedTitle.val ["titleInfo", "*", "title"] := by
    refine ⟨by decide, fun v hv => ⟨by decide, by decide, ?_⟩⟩
    obtain rfl := Option.some.inj hv
    refine ⟨by decide, fun v hv => ⟨.inr ⟨rfl, rfl⟩, ?_⟩⟩
    obtain rfl := Option.some.inj hv
    exact ⟨by decide, fun v hv => ⟨by decide, by decide, trivial⟩⟩
  have hsample : sample listedTitle.val ["titleInfo", "*", "title"] =
      some (.json (.str "Starry Night")) := by
    have hwild : elementAt [Json.obj [("title", .str "Starry Night")]] "0" =
        some (.obj [("title", .str "Starry Night")]) := rfl
    simp [sample, sampleIn, Json.script, Json.scriptMembers, Json.scriptElems, listedTitle, extractExample,
      extractExample.take.eq_def, JsValue.hides, JsValue.own, replaceStars, isDigits, hwild]
  have hreached : ∀ v, reached listedTitle.val ["titleInfo", "*", "title"] = some v →
      v.present = true → ∀ z, Json.Occurs z v → Json.IsDouble z := by
    intro v hv _ z hz
    obtain rfl : Json.str "Starry Night" = v := Option.some.inj hv
    cases hz
  exact ((preview_agrees listedTitle _).1 hliteral).mpr hreached _ hsample rfl

/-- The sample of a single title ignores the wildcard, and the import extracts nothing. -/
theorem not_agrees_single : ¬ ∀ (d : Document) (path : List String), Agrees d.val path := by
  intro hall
  have hsample : sample singleTitle.val ["titleInfo", "*", "title"] =
      some (.json (.str "Starry Night")) := by
    simp [sample, sampleIn, Json.script, Json.scriptMembers, singleTitle, extractExample,
      extractExample.take.eq_def, JsValue.hides, JsValue.own, replaceStars, isDigits]
  have hnone : extracted singleTitle.val ["titleInfo", "*", "title"] = none := by decide
  have hsame := hall singleTitle _ _ hsample rfl
  rw [hnone] at hsame
  exact absurd hsame (by simp)

end Preview
end Curarium
