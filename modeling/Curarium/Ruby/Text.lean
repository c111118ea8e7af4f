import Mathlib.Data.List.Basic
import Mathlib.Data.List.DropRight

/-!
# Ruby text

The parts of Ruby's `String` and `Integer` that the application leans on, over `List Char`:

* `isSpace` and `blank` are the `[[:space:]]` class and ActiveSupport's `String#blank?`;
* `toI` is `String#to_i` in base 10, which reads a numeral off the front of a text and ignores
  the rest;
* `toS` is `Integer#to_s`;
* `downcase` and `upcase` fold the ASCII letters only, as Ruby did before 2.4;
* `split` is `String#split` at a character.

The one result the models above need is that `toI` reads back what `toS` prints (`toI_toS`).
-/

namespace Curarium
namespace Ruby

/-! ### Blank text -/

/-- The Unicode `White_Space` property, which `[[:space:]]` matches. -/
def isSpace (c : Char) : Bool :=
  let n := c.toNat
  (9 ≤ n && n ≤ 13) || n == 0x20 || n == 0x85 || n == 0xA0 || n == 0x1680 ||
    (0x2000 ≤ n && n ≤ 0x200A) || n == 0x2028 || n == 0x2029 || n == 0x202F || n == 0x205F ||
    n == 0x3000

/-- `String#blank?`: nothing but white space. -/
def blank (cs : List Char) : Bool := cs.all isSpace

/-! ### Letter case -/

/-- `String#downcase` (ASCII letters). -/
def downcase (cs : List Char) : List Char := cs.map Char.toLower

/-- `String#upcase` (ASCII letters). -/
def upcase (cs : List Char) : List Char := cs.map Char.toUpper

/-- No capital is left. -/
theorem isUpper_toLower (c : Char) : c.toLower.isUpper = false := by
  unfold Char.toLower
  split
  case isTrue h =>
    have hval : (c.val + ('a'.val - 'A'.val)).toNat = (c.val.toNat + 32) % 2 ^ 32 :=
      UInt32.toNat_add _ _
    have hA : 'A'.val.toNat = 65 := rfl
    have hZ : 'Z'.val.toNat = 90 := rfl
    unfold Char.isUpper
    simp only [decide_eq_false_iff_not, UInt32.le_iff_toNat_le, ge_iff_le] at h ⊢
    omega
  case isFalse h =>
    unfold Char.isUpper
    simpa using h

theorem notMem_downcase {c : Char} (hc : c.isUpper = true) (cs : List Char) : c ∉ downcase cs := by
  intro h
  obtain ⟨d, -, rfl⟩ := List.mem_map.mp h
  rw [isUpper_toLower] at hc
  exact absurd hc (by decide)

/-! ### Splitting -/

/-- `String#split` at a character: the empty parts at the end are dropped. -/
def split (sep : Char) (cs : List Char) : List (List Char) :=
  (cs.splitOn sep).rdropWhile List.isEmpty

/-! ### Reading integers -/

/-- The ASCII white space that `String#to_i` skips. -/
def isAsciiSpace (c : Char) : Bool := (9 ≤ c.toNat && c.toNat ≤ 13) || c == ' '

/-- The digits of a numeral once its first digit has been seen. A single underscore may stand
between two digits. -/
def digitRun : List Char → List Char
  | [] => []
  | '_' :: d :: cs => if d.isDigit then d :: digitRun cs else []
  | c :: cs => if c.isDigit then c :: digitRun cs else []

/-- The unsigned numeral at the front of a text, `0` when there is none. `0d` is the prefix of
base 10. -/
def natAtFront : List Char → Nat
  | '0' :: 'd' :: cs => natDigits cs
  | '0' :: 'D' :: cs => natDigits cs
  | cs => natDigits cs
where
  /-- A numeral has to start with a digit. -/
  natDigits : List Char → Nat
    | [] => 0
    | c :: cs => if c.isDigit then Nat.ofDigitChars 10 (c :: digitRun cs) 0 else 0

/-- `String#to_i`. -/
def toI (cs : List Char) : Int :=
  match cs.dropWhile isAsciiSpace with
  | '-' :: ds => -(natAtFront ds : Int)
  | '+' :: ds => natAtFront ds
  | ds => natAtFront ds

/-- `Integer#to_s`. -/
def toS (z : Int) : List Char :=
  if z < 0 then '-' :: Nat.toDigits 10 z.natAbs else Nat.toDigits 10 z.natAbs

/-! ### `toI` reads back what `toS` prints -/

theorem digitRun_eq_self {cs : List Char} (h : ∀ c ∈ cs, c.isDigit = true) : digitRun cs = cs := by
  induction cs with
  | nil => rfl
  | cons c cs ih =>
    have hc : c.isDigit = true := h c (by simp)
    have hne : c ≠ '_' := by rintro rfl; exact absurd hc (by decide)
    rw [digitRun, if_pos hc, ih fun d hd => h d (by simp [hd])]
    exact fun _ _ hd => absurd hd hne

theorem isDigit_toDigits {n : Nat} {c : Char} (hc : c ∈ Nat.toDigits 10 n) : c.isDigit = true :=
  Nat.isDigit_of_mem_toDigits (by decide) (by decide) hc

theorem natAtFront_toDigits (n : Nat) : natAtFront (Nat.toDigits 10 n) = n := by
  have hall : ∀ c ∈ Nat.toDigits 10 n, c.isDigit = true := fun c hc => isDigit_toDigits hc
  have hval : Nat.ofDigitChars 10 (Nat.toDigits 10 n) 0 = n := Nat.ofDigitChars_ten_toDigits
  generalize Nat.toDigits 10 n = ds at hall hval
  have hrun : natAtFront.natDigits ds = n := by
    cases ds with
    | nil => simpa [natAtFront.natDigits] using hval
    | cons c cs =>
      rw [natAtFront.natDigits, if_pos (hall c (by simp)),
        digitRun_eq_self fun d hd => hall d (by simp [hd])]
      exact hval
  -- a run of digits holds no `d`, so the prefix of base 10 does not apply
  unfold natAtFront
  split
  · exact absurd (hall 'd' (by simp)) (by decide)
  · exact absurd (hall 'D' (by simp)) (by decide)
  · exact hrun

theorem toDigits_head {n : Nat} {c : Char} {cs : List Char} (h : Nat.toDigits 10 n = c :: cs) :
    c.isDigit = true := isDigit_toDigits (n := n) (by rw [h]; simp)

/-- A digit is neither white space nor a sign. -/
theorem isAsciiSpace_of_isDigit {c : Char} (h : c.isDigit = true) : isAsciiSpace c = false := by
  simp only [Char.isDigit, Bool.and_eq_true, decide_eq_true_eq, UInt32.le_iff_toNat_le, ge_iff_le] at h
  have h0 : ('0' : Char).val.toNat = 48 := rfl
  have hc : c.toNat = c.val.toNat := rfl
  have hsp : c ≠ ' ' := by
    rintro rfl
    exact absurd h.1 (by decide)
  simp only [isAsciiSpace, Bool.or_eq_false_iff, Bool.and_eq_false_iff, decide_eq_false_iff_not,
    beq_eq_false_iff_ne]
  exact ⟨Or.inr (by omega), hsp⟩

theorem toI_minus (n : Nat) : toI ('-' :: Nat.toDigits 10 n) = -(n : Int) := by
  rw [toI, List.dropWhile_cons_of_neg (by decide)]
  simp only [natAtFront_toDigits]

theorem toI_toDigits (n : Nat) : toI (Nat.toDigits 10 n) = n := by
  obtain ⟨c, cs, hcs⟩ := List.exists_cons_of_ne_nil (Nat.toDigits_ne_nil (b := 10) (n := n))
  have hd := toDigits_head hcs
  have hfront := natAtFront_toDigits n
  rw [hcs] at hfront ⊢
  rw [toI, List.dropWhile_cons_of_neg (by rw [isAsciiSpace_of_isDigit hd]; decide)]
  split
  · next heq => cases heq; exact absurd hd (by decide)
  · next heq => cases heq; exact absurd hd (by decide)
  · rw [hfront]

/-- **`Integer#to_s` and `String#to_i` are inverse on integers.** -/
theorem toI_toS (z : Int) : toI (toS z) = z := by
  unfold toS
  split
  · rw [toI_minus]; omega
  · rw [toI_toDigits]; omega

end Ruby
end Curarium
