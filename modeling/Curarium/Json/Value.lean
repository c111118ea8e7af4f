import Curarium.Ruby.Text
import Mathlib.Algebra.Order.Ring.Int

/-!
# JSON values as Ruby holds them

`JSON.parse` turns a text into hashes, arrays, strings, integers, floats, booleans and `nil`;
`Json` is that type. An object keeps its members in insertion order, as a Ruby `Hash` does.

* `Json.Decimal` is a finite `Float` as `Float#to_s` prints it, a decimal in lowest terms below
  the overflow bound. The rounding of a longer literal to 53 bits is not modelled.
* `Json.present` is ActiveSupport's `present?`.
* `Json.index` is the operator `[]` with a string or an integer argument. It answers `none` both
  for `nil` and where Ruby raises: every caller in the application turns the two into the same
  result. An `Integer` answers `[]` too, with one of its bits.
* `Json.WellFormed` says that no object repeats a member name, which a `Hash` cannot do;
  `Document` carries it.
-/

namespace Curarium

/-! ### Values -/

/-- The least magnitude that `strtod` reads as infinity: halfway between the largest finite
double and `2 ^ 1024`. -/
def floatOverflow : Nat := 2 ^ 1024 - 2 ^ 970

/-- A finite `Float`: `(-1) ^ neg * mant * 10 ^ exp`, in lowest terms and below the overflow
bound. -/
structure Decimal where
  neg : Bool
  mant : Nat
  exp : Int
  /-- The mantissa carries no trailing zero, and zero is written with exponent zero. -/
  lowest : mant % 10 ≠ 0 ∨ (mant = 0 ∧ exp = 0)
  /-- The magnitude is finite. -/
  finite : mant * 10 ^ exp.toNat < floatOverflow * 10 ^ (-exp).toNat
deriving DecidableEq

/-- A Ruby `Float` other than `NaN`, which no JSON text denotes. -/
inductive Flt where
  | finite (d : Decimal)
  | infinite (neg : Bool)
deriving DecidableEq

/-- What `JSON.parse` builds. -/
inductive Json where
  | null
  | bool (b : Bool)
  | int (z : Int)
  | float (f : Flt)
  | str (s : String)
  | arr (xs : List Json)
  | obj (ms : List (String × Json))

namespace Json

/-- **Induction over JSON values**, with the hypothesis for every element of an array and every
member of an object. -/
@[elab_as_elim]
theorem induction {P : Json → Prop} (null : P null) (bool : ∀ b, P (bool b)) (int : ∀ z, P (int z))
    (float : ∀ f, P (float f)) (str : ∀ s, P (str s))
    (arr : ∀ xs, (∀ x ∈ xs, P x) → P (arr xs))
    (obj : ∀ ms : List (String × Json), (∀ m ∈ ms, P m.2) → P (obj ms)) (j : Json) : P j :=
  @Json.rec P (fun xs => ∀ x ∈ xs, P x) (fun ms => ∀ m ∈ ms, P m.2) (fun m => P m.2)
    null bool int float str arr obj
    (fun _ h => absurd h List.not_mem_nil)
    (fun _ _ hx hxs => List.forall_mem_cons.mpr ⟨hx, hxs⟩)
    (fun _ h => absurd h List.not_mem_nil)
    (fun _ _ hm hms => List.forall_mem_cons.mpr ⟨hm, hms⟩)
    (fun _ _ h => h) j

/-! ### Decidable equality -/

mutual
/-- Equality of values, as a computation. -/
def beq : Json → Json → Bool
  | null, null => true
  | bool a, bool b => a == b
  | int a, int b => a == b
  | float a, float b => a == b
  | str a, str b => a == b
  | arr xs, arr ys => beqElems xs ys
  | obj ms, obj ns => beqMembers ms ns
  | _, _ => false

def beqElems : List Json → List Json → Bool
  | [], [] => true
  | x :: xs, y :: ys => beq x y && beqElems xs ys
  | _, _ => false

def beqMembers : List (String × Json) → List (String × Json) → Bool
  | [], [] => true
  | (k, x) :: ms, (l, y) :: ns => k == l && beq x y && beqMembers ms ns
  | _, _ => false
end

theorem beqElems_iff {xs : List Json} (h : ∀ x ∈ xs, ∀ y, beq x y = true ↔ x = y) :
    ∀ ys, beqElems xs ys = true ↔ xs = ys := by
  induction xs with
  | nil => intro ys; cases ys <;> simp [beqElems]
  | cons x xs ih =>
    intro ys
    cases ys with
    | nil => simp [beqElems]
    | cons y ys =>
      simp only [beqElems, Bool.and_eq_true, List.cons.injEq]
      rw [h x (by simp), ih fun z hz => h z (by simp [hz])]

theorem beqMembers_iff {ms : List (String × Json)} (h : ∀ m ∈ ms, ∀ y, beq m.2 y = true ↔ m.2 = y) :
    ∀ ns, beqMembers ms ns = true ↔ ms = ns := by
  induction ms with
  | nil => intro ns; cases ns <;> simp [beqMembers]
  | cons m ms ih =>
    intro ns
    obtain ⟨k, x⟩ := m
    cases ns with
    | nil => simp [beqMembers]
    | cons n ns =>
      obtain ⟨l, y⟩ := n
      simp only [beqMembers, Bool.and_eq_true, beq_iff_eq, List.cons.injEq, Prod.mk.injEq]
      rw [h (k, x) (by simp), ih fun z hz => h z (by simp [hz])]

theorem beq_iff (x : Json) : ∀ y, beq x y = true ↔ x = y := by
  induction x using Json.induction with
  | null => intro y; cases y <;> simp [beq]
  | bool b => intro y; cases y <;> simp [beq]
  | int z => intro y; cases y <;> simp [beq]
  | float f => intro y; cases y <;> simp [beq]
  | str s => intro y; cases y <;> simp [beq]
  | arr xs ih => intro y; cases y <;> simp [beq, beqElems_iff ih]
  | obj ms ih => intro y; cases y <;> simp [beq, beqMembers_iff ih]

instance : DecidableEq Json := fun x y => decidable_of_iff _ (beq_iff x y)

/-! ### `present?` -/

/-- `Object#present?`: neither `nil`, `false`, a blank string nor an empty collection. -/
def present : Json → Bool
  | null => false
  | bool b => b
  | int _ => true
  | float _ => true
  | str s => !Ruby.blank s.toList
  | arr xs => !xs.isEmpty
  | obj ms => !ms.isEmpty

/-! ### The operator `[]` -/

/-- What a path is made of, and what `[]` takes: a string or an integer. -/
inductive Step where
  | str (s : String)
  | int (i : Int)
deriving DecidableEq

/-- `Array#[]`: a negative index counts from the end. -/
def arrayAt (xs : List Json) (i : Int) : Option Json :=
  if 0 ≤ i then xs[i.toNat]?
  else if -i ≤ xs.length then xs[(xs.length + i).toNat]?
  else none

/-- `Integer#[]`: the bit at a position of the two's complement notation. -/
def bitAt (z i : Int) : Int := if i < 0 then 0 else z / 2 ^ i.toNat % 2

/-- `structure[cpath]`, with `none` for `nil` and for an exception. A `Hash` has no integer keys
here; an `Array` rejects a string, and a `Float`, a boolean and `nil` have no `[]` at all. -/
def index : Json → Step → Option Json
  | obj ms, .str k => ms.lookup k
  | arr xs, .int i => arrayAt xs i
  | int z, .int i => some (int (bitAt z i))
  | _, _ => none

theorem arrayAt_nat (xs : List Json) (i : Nat) : arrayAt xs i = xs[i]? := by
  simp [arrayAt]

/-! ### Distinct member names -/

mutual
/-- No object of the value repeats a member name. -/
def wellFormed : Json → Bool
  | arr xs => wellFormedElems xs
  | obj ms => decide (ms.map Prod.fst).Nodup && wellFormedMembers ms
  | _ => true

def wellFormedElems : List Json → Bool
  | [] => true
  | x :: xs => wellFormed x && wellFormedElems xs

def wellFormedMembers : List (String × Json) → Bool
  | [] => true
  | (_, x) :: ms => wellFormed x && wellFormedMembers ms
end

theorem wellFormedElems_iff (xs : List Json) :
    wellFormedElems xs = true ↔ ∀ x ∈ xs, wellFormed x = true := by
  induction xs with
  | nil => simp [wellFormedElems]
  | cons x xs ih => simp [wellFormedElems, ih]

theorem wellFormedMembers_iff (ms : List (String × Json)) :
    wellFormedMembers ms = true ↔ ∀ m ∈ ms, wellFormed m.2 = true := by
  induction ms with
  | nil => simp [wellFormedMembers]
  | cons m ms ih => simp [wellFormedMembers, ih]

end Json

/-- A JSON document: a value no object of which repeats a member name. -/
structure Document where
  val : Json
  wf : val.wellFormed = true

end Curarium
