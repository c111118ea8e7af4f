import Mathlib.Algebra.Order.Ring.Nat

/-!
# Rounding to significant bits

A number with a bounded number of significant bits is a short one times a power of two. Rounding goes
to the nearest of these, and halfway between two of them to the even one.

`roundBits_eq_self_iff` says which numbers keep their value.
-/

namespace Curarium
namespace Rounding

/-- The nearest multiple of a unit; halfway between two, the one with an even factor. -/
def nearest (unit n : Nat) : Nat :=
  let q := n / unit
  let r := n % unit
  if 2 * r < unit ∨ 2 * r = unit ∧ q % 2 = 0 then unit * q else unit * (q + 1)

/-- What the last of the significant bits of a number counts. -/
def unitOf (bits n : Nat) : Nat := 2 ^ (n.log2 + 1 - bits)

/-- The number with this many significant bits. -/
def roundBits (bits n : Nat) : Nat := nearest (unitOf bits n) n

/-- The multiples of the unit stay, and no other number does. -/
theorem nearest_eq_self_iff {unit n : Nat} (hunit : 0 < unit) : nearest unit n = n ↔ unit ∣ n := by
  have hsplit := Nat.div_add_mod n unit
  have hrest := Nat.mod_lt n hunit
  have hnext : unit * (n / unit + 1) = unit * (n / unit) + unit := Nat.mul_succ _ _
  rw [Nat.dvd_iff_mod_eq_zero, nearest]
  constructor
  · intro h
    split at h <;> omega
  · -- without a rest the number is the lower multiple
    intro h
    rw [if_pos (.inl (by omega))]
    omega

/-- **The numbers that keep their value**: those of so many bits, times a power of two. -/
theorem roundBits_eq_self_iff {bits n : Nat} :
    roundBits bits n = n ↔ ∃ m e, m < 2 ^ bits ∧ n = m * 2 ^ e := by
  rw [roundBits, unitOf, nearest_eq_self_iff (Nat.two_pow_pos _)]
  constructor
  · rintro ⟨m, hm⟩
    refine ⟨m, n.log2 + 1 - bits, ?_, hm.trans (Nat.mul_comm _ _)⟩
    -- the number has no more bits than the factor and the unit together
    have hbits : 2 ^ (n.log2 + 1 - bits) * m < 2 ^ (n.log2 + 1 - bits) * 2 ^ bits := by
      rw [← hm, ← Nat.pow_add]
      exact Nat.lt_of_lt_of_le Nat.lt_log2_self (Nat.pow_le_pow_right Nat.two_pos (by omega))
    exact Nat.lt_of_mul_lt_mul_left hbits
  · rintro ⟨m, e, hm, rfl⟩
    rcases Nat.eq_zero_or_pos m with rfl | hpos
    · rw [Nat.zero_mul]
      exact Nat.dvd_zero _
    · -- the unit is no larger than the power of two
      have hlog : (m * 2 ^ e).log2 < bits + e := by
        rw [Nat.log2_lt (Nat.mul_ne_zero (by omega) (Nat.pos_iff_ne_zero.mp (Nat.two_pow_pos e))), Nat.pow_add]
        exact Nat.mul_lt_mul_of_pos_right hm (Nat.two_pow_pos e)
      exact Nat.dvd_mul_left_of_dvd (Nat.pow_dvd_pow 2 (by omega)) m

/-- Twenty digits are too many for a double. -/
example : roundBits 53 12345678901234567890 = 12345678901234567168 := by decide

end Rounding
end Curarium
