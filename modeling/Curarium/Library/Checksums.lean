import Mathlib.Data.List.Basic
import Mathlib.Data.Nat.Digits.Defs
import Mathlib.Data.Nat.Bitwise
import Mathlib.Logic.Function.Iterate
import Mathlib.Tactic.Common

/-!
# Cyclic redundancy checks

The register of a reflected CRC over words of any width: a bit is shifted out, and the polynomial is
added if it was set (`shift`); a byte is added at the low end and shifted out bit by bit (`add`).

* `shift_xor`, `shift_injective` — shifting is linear, and one to one if the polynomial has its top bit.
* `feed_eq` — as long as the bytes fit into the register, feeding them one by one is adding them all as
  one word, and shifting it out.
* `feed_window_iff` — so of two texts that differ in one window no longer than the register, the checks
  differ.
-/

namespace Curarium
namespace Checksums

variable {w : Nat}

/-- One bit. -/
def shift (poly c : BitVec w) : BitVec w := if c.getLsbD 0 then (c >>> 1) ^^^ poly else c >>> 1

/-- One byte. -/
def add (poly c : BitVec w) (b : UInt8) : BitVec w := (shift poly)^[8] (c ^^^ BitVec.ofNat w b.toNat)

/-- Several bytes, the first one first. -/
def feed (poly : BitVec w) (c : BitVec w) (bytes : List UInt8) : BitVec w := bytes.foldl (add poly) c

/-- The bytes as one word, the first one lowest. -/
def word (w : Nat) (bytes : List UInt8) : BitVec w := BitVec.ofNat w (Nat.ofDigits 256 (bytes.map UInt8.toNat))

variable {poly : BitVec w}

/-! ### Shifting -/

theorem shift_xor (a b : BitVec w) : shift poly (a ^^^ b) = shift poly a ^^^ shift poly b := by
  unfold shift
  rw [BitVec.getLsbD_xor, BitVec.ushiftRight_xor_distrib]
  -- the polynomial is added once, or twice and then not at all
  cases a.getLsbD 0 <;> cases b.getLsbD 0
  · rfl
  · exact BitVec.xor_assoc ..
  · show (a >>> 1 ^^^ b >>> 1) ^^^ poly = (a >>> 1 ^^^ poly) ^^^ b >>> 1
    ac_rfl
  · show a >>> 1 ^^^ b >>> 1 = (a >>> 1 ^^^ poly) ^^^ (b >>> 1 ^^^ poly)
    rw [BitVec.xor_assoc, BitVec.xor_comm (b >>> 1), ← BitVec.xor_assoc poly, BitVec.xor_self,
      BitVec.zero_xor]

theorem iterate_shift_xor (n : Nat) (a b : BitVec w) :
    (shift poly)^[n] (a ^^^ b) = (shift poly)^[n] a ^^^ (shift poly)^[n] b := by
  induction n generalizing a b with
  | zero => rfl
  | succ n ih => rw [Function.iterate_succ_apply, shift_xor, ih]; rfl

/-- Only zero is shifted to zero: the top bit of the polynomial is not shifted out again. -/
theorem eq_zero_of_shift (hpoly : poly.msb = true) {c : BitVec w} (h : shift poly c = 0#w) : c = 0#w := by
  unfold shift at h
  split at h
  case isTrue =>
    -- the top bit of the result is that of the polynomial
    have hmsb := congrArg BitVec.msb h
    rw [BitVec.msb_xor, hpoly] at hmsb
    simp [BitVec.msb_ushiftRight] at hmsb
  case isFalse hlow =>
    refine BitVec.eq_of_getLsbD_eq fun i hi => ?_
    cases i with
    | zero => simpa using hlow
    | succ i =>
      have hbit := congrArg (fun x : BitVec w => x.getLsbD i) h
      simpa [Nat.add_comm] using hbit

theorem shift_injective (hpoly : poly.msb = true) : Function.Injective (shift poly) := by
  intro a b h
  have hzero : shift poly (a ^^^ b) = 0#w := by rw [shift_xor, h, BitVec.xor_self]
  exact BitVec.xor_eq_zero_iff.mp (eq_zero_of_shift hpoly hzero)

/-- A number whose low bit is clear is halved. -/
theorem shift_double {m : Nat} (hm : 2 * m < 2 ^ w) :
    shift poly (BitVec.ofNat w (2 * m)) = BitVec.ofNat w m := by
  have hlow : (BitVec.ofNat w (2 * m)).getLsbD 0 = false := by
    rw [BitVec.getLsbD_ofNat, Nat.testBit_zero, Nat.mul_mod_right]
    exact Bool.and_false _
  rw [shift, hlow, if_neg Bool.false_ne_true]
  refine BitVec.eq_of_toNat_eq ?_
  rw [BitVec.toNat_ushiftRight, BitVec.toNat_ofNat, BitVec.toNat_ofNat, Nat.mod_eq_of_lt hm,
    Nat.mod_eq_of_lt (by omega), Nat.shiftRight_eq_div_pow]
  omega

theorem iterate_shift_double {n m : Nat} (hm : 2 ^ n * m < 2 ^ w) :
    (shift poly)^[n] (BitVec.ofNat w (2 ^ n * m)) = BitVec.ofNat w m := by
  induction n with
  | zero => rw [Nat.pow_zero, Nat.one_mul]; rfl
  | succ n ih =>
    have hsplit : 2 ^ (n + 1) * m = 2 * (2 ^ n * m) := by rw [Nat.pow_succ]; ac_rfl
    rw [hsplit] at hm ⊢
    rw [Function.iterate_succ_apply, shift_double hm, ih (by omega)]

/-! ### Bytes that fit into the register -/

theorem ofDigits_lt (bytes : List UInt8) :
    Nat.ofDigits 256 (bytes.map UInt8.toNat) < 256 ^ bytes.length := by
  have h := Nat.ofDigits_lt_base_pow_length (b := 256) (l := bytes.map UInt8.toNat) (by decide) (by
    intro d hd
    obtain ⟨b, -, rfl⟩ := List.mem_map.mp hd
    exact b.toNat_lt)
  rwa [List.length_map] at h

/-- Bytes that fit into the register are less than its bound. -/
theorem ofDigits_lt_two_pow {bytes : List UInt8} (h : 8 * bytes.length ≤ w) :
    Nat.ofDigits 256 (bytes.map UInt8.toNat) < 2 ^ w :=
  calc Nat.ofDigits 256 (bytes.map UInt8.toNat)
      < 256 ^ bytes.length := ofDigits_lt bytes
    _ = 2 ^ (8 * bytes.length) := by rw [Nat.pow_mul]
    _ ≤ 2 ^ w := Nat.pow_le_pow_right (by decide) h

/-- The same with a byte more below them. -/
theorem mul_ofDigits_lt {bytes : List UInt8} (h : 8 * (bytes.length + 1) ≤ w) :
    2 ^ 8 * Nat.ofDigits 256 (bytes.map UInt8.toNat) < 2 ^ w :=
  calc 2 ^ 8 * Nat.ofDigits 256 (bytes.map UInt8.toNat)
      < 2 ^ 8 * 256 ^ bytes.length := Nat.mul_lt_mul_of_pos_left (ofDigits_lt bytes) (by decide)
    _ = 2 ^ (8 * (bytes.length + 1)) := by rw [Nat.mul_add, Nat.pow_add, Nat.pow_mul, Nat.mul_comm]
    _ ≤ 2 ^ w := Nat.pow_le_pow_right (by decide) h

/-- A sum of two numbers that have no bit in common. -/
theorem xor_two_pow_mul {n b : Nat} (hb : b < 2 ^ n) (m : Nat) : b ^^^ 2 ^ n * m = b + 2 ^ n * m := by
  have hdiv : (b ^^^ 2 ^ n * m) / 2 ^ n = m := by
    rw [Nat.xor_div_two_pow, Nat.div_eq_of_lt hb, Nat.mul_div_cancel_left _ (Nat.two_pow_pos n), Nat.zero_xor]
  have hmod : (b ^^^ 2 ^ n * m) % 2 ^ n = b := by
    rw [Nat.xor_mod_two_pow, Nat.mod_eq_of_lt hb, Nat.mul_mod_right, Nat.xor_zero]
  rw [← Nat.mod_add_div (b ^^^ 2 ^ n * m) (2 ^ n), hdiv, hmod]

theorem toNat_word {bytes : List UInt8} (h : 8 * bytes.length ≤ w) :
    (word w bytes).toNat = Nat.ofDigits 256 (bytes.map UInt8.toNat) := by
  rw [word, BitVec.toNat_ofNat, Nat.mod_eq_of_lt (ofDigits_lt_two_pow h)]

theorem word_cons (b : UInt8) (bytes : List UInt8) (h : 8 * (bytes.length + 1) ≤ w) :
    word w (b :: bytes) = BitVec.ofNat w b.toNat ^^^
      BitVec.ofNat w (2 ^ 8 * Nat.ofDigits 256 (bytes.map UInt8.toNat)) := by
  have hb : b.toNat < 2 ^ 8 := b.toNat_lt
  have hw : 2 ^ 8 ≤ 2 ^ w := Nat.pow_le_pow_right (by decide) (by omega)
  refine BitVec.eq_of_toNat_eq ?_
  rw [toNat_word (by simpa using h), BitVec.toNat_xor, BitVec.toNat_ofNat, BitVec.toNat_ofNat,
    Nat.mod_eq_of_lt (by omega), Nat.mod_eq_of_lt (mul_ofDigits_lt h), List.map_cons, Nat.ofDigits_cons]
  exact (xor_two_pow_mul hb _).symm

theorem word_inj {bs bs' : List UInt8} (hlen : bs.length = bs'.length) (h : 8 * bs.length ≤ w) :
    word w bs = word w bs' ↔ bs = bs' := by
  refine ⟨fun heq => ?_, fun heq => heq ▸ rfl⟩
  have hdigits := congrArg BitVec.toNat heq
  rw [toNat_word h, toNat_word (hlen ▸ h)] at hdigits
  have hbyte : ∀ l : List UInt8, ∀ d ∈ l.map UInt8.toNat, d < 256 := by
    intro l d hd
    obtain ⟨b, -, rfl⟩ := List.mem_map.mp hd
    exact b.toNat_lt
  have hmap := Nat.ofDigits_inj_of_len_eq (by decide) (by rw [List.length_map, List.length_map, hlen])
    (hbyte bs) (hbyte bs') hdigits
  exact (Function.Injective.list_map fun a b => UInt8.toNat_inj.mp) hmap

/-! ### Feeding bytes -/

theorem feed_append (c : BitVec w) (as bs : List UInt8) :
    feed poly c (as ++ bs) = feed poly (feed poly c as) bs := List.foldl_append

/-- **Bytes that fit into the register** may be added all at once. -/
theorem feed_eq (c : BitVec w) {bytes : List UInt8} (h : 8 * bytes.length ≤ w) :
    feed poly c bytes = (shift poly)^[8 * bytes.length] (c ^^^ word w bytes) := by
  induction bytes generalizing c with
  | nil => exact (BitVec.xor_zero (x := c)).symm
  | cons b bytes ih =>
    rw [List.length_cons] at h
    -- what the later bytes add is what eight shifts leave of them, one byte further up
    have hword : word w bytes
        = (shift poly)^[8] (BitVec.ofNat w (2 ^ 8 * Nat.ofDigits 256 (bytes.map UInt8.toNat))) :=
      (iterate_shift_double (mul_ofDigits_lt h)).symm
    show feed poly (add poly c b) bytes = _
    rw [ih (add poly c b) (by omega), add, hword, ← iterate_shift_xor, BitVec.xor_assoc, ← word_cons b bytes h,
      ← Function.iterate_add_apply, List.length_cons, Nat.mul_succ]

theorem feed_injective (hpoly : poly.msb = true) (bytes : List UInt8) :
    Function.Injective fun c => feed poly c bytes := by
  induction bytes with
  | nil => exact fun _ _ h => h
  | cons b bytes ih =>
    intro c d h
    have hfirst : add poly c b = add poly d b := ih h
    exact (BitVec.xor_left_inj _).mp ((shift_injective hpoly).iterate 8 hfirst)

/-- Different bytes that fit into the register, fed to the same register, leave different ones. -/
theorem feed_inj_of_length (hpoly : poly.msb = true) (c : BitVec w) {bs bs' : List UInt8}
    (hlen : bs.length = bs'.length) (h : 8 * bs.length ≤ w) :
    feed poly c bs = feed poly c bs' ↔ bs = bs' := by
  refine ⟨fun heq => ?_, fun heq => heq ▸ rfl⟩
  rw [feed_eq c h, feed_eq c (hlen ▸ h), ← hlen] at heq
  have hwords : word w bs = word w bs' := by
    have hsum := (shift_injective hpoly).iterate _ heq
    exact (BitVec.xor_right_inj _).mp hsum
  exact (word_inj hlen h).mp hwords

/-- **A change in one window is seen**: with the same bytes before and after it, and as many in it, at
most as many as the register has room for, the register is left the same only by the same bytes. -/
theorem feed_window_iff (hpoly : poly.msb = true) (c : BitVec w) (pre post : List UInt8) {bs bs' : List UInt8}
    (hlen : bs.length = bs'.length) (h : 8 * bs.length ≤ w) :
    feed poly c (pre ++ bs ++ post) = feed poly c (pre ++ bs' ++ post) ↔ bs = bs' := by
  rw [feed_append, feed_append, feed_append _ (pre ++ bs'), feed_append _ pre]
  exact (feed_injective hpoly post).eq_iff.trans (feed_inj_of_length hpoly _ hlen h)

end Checksums
end Curarium
