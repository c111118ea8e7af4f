import Curarium.Json.Value
import Curarium.Library.Lists
import Curarium.Library.Rounding

/-!
# JSON values as a script holds them

A script has one kind of number, the double. Reading a document it rounds every integer to 53
significant bits, or to an infinity, where Ruby keeps all digits. A number with a point or an exponent
is a double in both.

`Json.script_eq_self_iff` says which values are read as they are written.
-/

namespace Curarium
namespace Json

/-- The number that an integer is read as. -/
def toNumber (z : Int) : Json :=
  let n := Rounding.roundBits 53 z.natAbs
  if n < 2 ^ 1024 then .int (if z < 0 then -(n : Int) else n) else .float (.infinite (decide (z < 0)))

mutual
/-- What `JSON.parse` of the script makes of a document. -/
def script : Json → Json
  | null => null
  | bool b => bool b
  | int z => toNumber z
  | float f => float f
  | str s => str s
  | arr xs => arr (scriptElems xs)
  | obj ms => obj (scriptMembers ms)

def scriptElems : List Json → List Json
  | [] => []
  | x :: xs => script x :: scriptElems xs

def scriptMembers : List (String × Json) → List (String × Json)
  | [] => []
  | (k, x) :: ms => (k, script x) :: scriptMembers ms
end

theorem scriptElems_eq_map (xs : List Json) : scriptElems xs = xs.map script := by
  induction xs with
  | nil => rfl
  | cons x xs ih => rw [scriptElems, ih, List.map_cons]

theorem scriptMembers_eq_map (ms : List (String × Json)) :
    scriptMembers ms = ms.map fun m => (m.1, script m.2) := by
  induction ms with
  | nil => rfl
  | cons m ms ih => rw [scriptMembers, ih, List.map_cons]

/-- The members keep their names. -/
theorem lookup_scriptMembers (ms : List (String × Json)) (k : String) :
    (scriptMembers ms).lookup k = (ms.lookup k).map script := by
  rw [scriptMembers_eq_map]
  exact Lists.lookup_map_snd script ms k

/-- A value is present in the script if it is for the importer. -/
@[simp] theorem present_script (v : Json) : v.script.present = v.present := by
  cases v with
  | int z =>
    rw [script, toNumber]
    split <;> rfl
  | arr xs => cases xs <;> rfl
  | obj ms => cases ms <;> rfl
  | _ => rfl

/-! ### Values that are read as they are written -/

/-- The integer is a double. -/
def IsDouble (z : Int) : Prop :=
  z.natAbs < 2 ^ 1024 ∧ ∃ m e, m < 2 ^ 53 ∧ z.natAbs = m * 2 ^ e

/-- The integer occurs in the value. -/
inductive Occurs (z : Int) : Json → Prop where
  | here : Occurs z (int z)
  | elem {x : Json} {xs : List Json} : x ∈ xs → Occurs z x → Occurs z (arr xs)
  | member {m : String × Json} {ms : List (String × Json)} :
    m ∈ ms → Occurs z m.2 → Occurs z (obj ms)

/-- **An integer keeps its value** exactly if it is a double. -/
theorem toNumber_eq_self_iff (z : Int) : toNumber z = int z ↔ IsDouble z := by
  rw [IsDouble, ← Rounding.roundBits_eq_self_iff, toNumber]
  generalize Rounding.roundBits 53 z.natAbs = n
  constructor
  · intro h
    split at h
    · -- the sign is kept, so the magnitude is
      next hn =>
      have hz := Json.int.inj h
      have hsame : n = z.natAbs := by
        split at hz <;> omega
      exact ⟨hsame ▸ hn, hsame⟩
    · cases h
  · rintro ⟨hn, rfl⟩
    rw [if_pos hn]
    congr 1
    split <;> omega

/-- **The values that are read as they are written**: no integer in them is rounded. -/
theorem script_eq_self_iff (v : Json) : v.script = v ↔ ∀ z, Occurs z v → IsDouble z := by
  -- without integers nothing is rounded
  have hnone : ∀ v : Json, v.script = v → (∀ z, ¬ Occurs z v) →
      (v.script = v ↔ ∀ z, Occurs z v → IsDouble z) :=
    fun v hv h => iff_of_true hv fun z hz => absurd hz (h z)
  induction v using Json.induction with
  | null => exact hnone _ rfl (by rintro z ⟨⟩)
  | bool b => exact hnone _ rfl (by rintro z ⟨⟩)
  | float f => exact hnone _ rfl (by rintro z ⟨⟩)
  | str s => exact hnone _ rfl (by rintro z ⟨⟩)
  | int z =>
    rw [script, toNumber_eq_self_iff]
    constructor
    · rintro hz _ ⟨⟩
      exact hz
    · exact fun h => h z .here
  | arr xs ih =>
    rw [script, arr.injEq, scriptElems_eq_map, Lists.map_eq_self_iff]
    constructor
    · rintro h z (_ | ⟨hx, hz⟩)
      exact (ih _ hx).mp (h _ hx) z hz
    · exact fun h x hx => (ih x hx).mpr fun z hz => h z (.elem hx hz)
  | obj ms ih =>
    rw [script, obj.injEq, scriptMembers_eq_map, Lists.map_eq_self_iff]
    constructor
    · rintro h z (_ | _ | ⟨hm, hz⟩)
      exact (ih _ hm).mp (congrArg Prod.snd (h _ hm)) z hz
    · exact fun h m hm => Prod.ext rfl ((ih m hm).mpr fun z hz => h z (.member hm hz))

end Json
end Curarium
