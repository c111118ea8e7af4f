import Curarium.Json.Parse
import Curarium.Json.Inspect

/-!
# Reading a printed number as JSON

`Integer#to_s` and `Float#to_s` print numbers in the syntax of JSON, infinities apart. Where the text
goes on with nothing that belongs to a number, as between the elements of an array, the parser reads
each back:

* `parseNumber_toS` — integers;
* `parseNumber_decimal` — finite floats, in each of the four layouts of `Float#to_s`;
* `parseNumber_infinite` — an infinity is rejected.
-/

namespace Curarium

/-! ### Digits -/

/-- What follows an element of a printed array. -/
def IsDelimited (rest : List Char) : Prop :=
  ∃ c cs, rest = c :: cs ∧ (c = ',' ∨ c = ']')

/-- The text does not go on with a digit. -/
def NoDigit (rest : List Char) : Prop := ∀ c ∈ rest.head?, c.isDigit = false

theorem endsFloat_delimited {rest : List Char} (h : IsDelimited rest) : endsFloat rest = true := by
  obtain ⟨c, cs, rfl, rfl | rfl⟩ := h <;> rfl

/-- What may follow a float is no digit. -/
theorem noDigit_of_endsFloat {rest : List Char} (h : endsFloat rest = true) : NoDigit rest := by
  cases rest with
  | nil => exact fun c hc => absurd hc (by simp)
  | cons c cs =>
    intro d hd
    obtain rfl : c = d := Option.some.inj hd
    simp only [endsFloat, Bool.not_eq_true', Bool.or_eq_false_iff] at h
    exact h.1.1.1.1

theorem takeWhile_digits {ds rest : List Char} (hd : ∀ c ∈ ds, c.isDigit = true)
    (hr : NoDigit rest) : (ds ++ rest).takeWhile Char.isDigit = ds := by
  rw [List.takeWhile_append_of_pos hd]
  cases rest with
  | nil => simp
  | cons c cs =>
    rw [List.takeWhile_cons_of_neg (by rw [hr c rfl]; decide), List.append_nil]

theorem dropWhile_digits {ds rest : List Char} (hd : ∀ c ∈ ds, c.isDigit = true)
    (hr : NoDigit rest) : (ds ++ rest).dropWhile Char.isDigit = rest := by
  rw [List.dropWhile_append_of_pos hd]
  cases rest with
  | nil => rfl
  | cons c cs => rw [List.dropWhile_cons_of_neg (by rw [hr c rfl]; decide)]

theorem toDigits_all (n : Nat) : ∀ c ∈ Nat.toDigits 10 n, c.isDigit = true :=
  fun _ hc => Ruby.isDigit_toDigits hc

/-- A positive numeral does not start with a zero. -/
theorem toDigits_head_ne {n : Nat} (h : 0 < n) : (Nat.toDigits 10 n).head? ≠ some '0' := by
  have hdigit : ∀ m, m < 10 → 0 < m → Nat.digitChar m ≠ '0' := by decide
  induction n using Nat.strongRecOn with
  | ind n ih =>
    by_cases hn : n < 10
    · rw [Nat.toDigits_of_lt_base hn]
      exact fun heq => hdigit n hn h (Option.some.inj heq)
    · rw [Nat.toDigits_of_base_le (by decide) (by omega),
        List.head?_append_of_ne_nil _ Nat.toDigits_ne_nil]
      exact ih (n / 10) (by omega) (by omega)

/-- A numeral ends in a zero only when ten divides the number. -/
theorem toDigits_getLast_ne {n : Nat} (h : n % 10 ≠ 0) :
    (Nat.toDigits 10 n).getLast? ≠ some '0' := by
  have hdigit : ∀ m, m < 10 → m ≠ 0 → Nat.digitChar m ≠ '0' := by decide
  by_cases hn : n < 10
  · rw [Nat.toDigits_of_lt_base hn]
    exact fun heq => hdigit n hn (by omega) (Option.some.inj heq)
  · rw [Nat.toDigits_of_base_le (by decide) (by omega), List.getLast?_append]
    exact fun heq => hdigit (n % 10) (by omega) h (Option.some.inj heq)

/-! ### The integer part -/

/-- The integer part of a JSON number. -/
def IsIntPart (ds : List Char) : Prop :=
  ds = ['0'] ∨ (ds ≠ [] ∧ (∀ c ∈ ds, c.isDigit = true) ∧ ds.head? ≠ some '0')

theorem isIntPart_toDigits (n : Nat) : IsIntPart (Nat.toDigits 10 n) := by
  rcases Nat.eq_zero_or_pos n with rfl | hn
  · exact Or.inl rfl
  · exact Or.inr ⟨Nat.toDigits_ne_nil, toDigits_all n, toDigits_head_ne hn⟩

theorem IsIntPart.head {ds : List Char} (h : IsIntPart ds) :
    ∃ c cs, ds = c :: cs ∧ c.isDigit = true := by
  rcases h with rfl | ⟨hne, hall, -⟩
  · exact ⟨'0', [], rfl, rfl⟩
  · obtain ⟨c, cs, rfl⟩ := List.exists_cons_of_ne_nil hne
    exact ⟨c, cs, rfl, hall c (by simp)⟩

theorem parseIntPart_append {ds rest : List Char} (h : IsIntPart ds) (hr : NoDigit rest) :
    parseIntPart (ds ++ rest) = some (ds, rest) := by
  rcases h with rfl | ⟨hne, hall, hhead⟩
  · rfl
  · have htake := takeWhile_digits hall hr
    have hdrop := dropWhile_digits hall hr
    have hemp : ds.isEmpty = false := by
      rw [Bool.eq_false_iff]
      exact fun h => hne (List.isEmpty_iff.mp h)
    rw [parseIntPart.eq_def]
    -- a zero would be read alone, but these digits do not start with one
    split
    · next heq =>
      obtain ⟨c, cs, rfl⟩ := List.exists_cons_of_ne_nil hne
      obtain ⟨rfl, -⟩ := List.cons.inj heq
      exact absurd rfl hhead
    · simp only [htake, hdrop, hemp, Bool.false_eq_true, if_false]

/-- Reading a number whose integer part is known: the sign is taken off first. -/
theorem parseNumber_sign (neg : Bool) {ds rest : List Char} (h : IsIntPart ds) (hr : NoDigit rest) :
    parseNumber ((if neg then ['-'] else []) ++ (ds ++ rest)) = numberAfter neg ds rest := by
  cases neg with
  | true =>
    unfold parseNumber
    simp [parseIntPart_append h hr]
  | false =>
    -- a digit in front is no sign
    obtain ⟨c, cs, rfl, hc⟩ := h.head
    have hne : (c == '-') = false := by
      rw [beq_eq_false_iff_ne]
      rintro rfl
      exact absurd hc (by decide)
    have hpart := parseIntPart_append h hr
    rw [List.cons_append] at hpart
    unfold parseNumber
    simp [hpart, hne]

/-! ### Integers -/

/-- What may follow a float starts no exponent. -/
theorem parseExponent_of_endsFloat {rest : List Char} (h : endsFloat rest = true) :
    parseExponent rest = none := by
  cases rest with
  | nil => rfl
  | cons c cs =>
    simp only [endsFloat, Bool.not_eq_true', Bool.or_eq_false_iff, beq_eq_false_iff_ne] at h
    simp [parseExponent, h.1.1.1.2, h.1.1.2]

/-- Nor a fraction. -/
theorem parseFloatTail_of_endsFloat {rest : List Char} (h : endsFloat rest = true) :
    parseFloatTail rest = none := by
  have hexponent := parseExponent_of_endsFloat h
  rw [parseFloatTail.eq_def]
  split
  · exact absurd h (by simp [endsFloat])
  · rw [hexponent, Option.map_none]

/-- **An integer is read back.** -/
theorem parseNumber_toS (z : Int) {rest : List Char} (h : endsFloat rest = true) :
    parseNumber (Ruby.toS z ++ rest) = some (.int z, rest) := by
  have hsign : Ruby.toS z ++ rest
      = (if decide (z < 0) then ['-'] else []) ++ (Nat.toDigits 10 z.natAbs ++ rest) := by
    unfold Ruby.toS
    by_cases hz : z < 0 <;> simp [hz]
  have hnext : (rest.head?.map Char.isDigit).getD false = false := by
    cases rest with
    | nil => rfl
    | cons c cs => exact noDigit_of_endsFloat h c rfl
  -- what follows is neither a fraction nor an exponent, so the digits are an integer
  rw [hsign, parseNumber_sign _ (isIntPart_toDigits _) (noDigit_of_endsFloat h), numberAfter,
    parseFloatTail_of_endsFloat h]
  -- read back, the digits are the magnitude
  simp only [Option.filter_none, Nat.ofDigitChars_ten_toDigits, decide_eq_true_eq, hnext,
    Bool.false_eq_true, if_false]
  by_cases hz : z < 0
  · rw [if_pos hz]
    congr 3
    omega
  · rw [if_neg hz]
    congr 3
    omega

/-! ### Floats -/

/-- Trailing zeros are dropped, up to the last digit that is none. -/
theorem rdropWhile_zeros {ds : List Char} (h : ds.getLast? ≠ some '0') (j : Nat) :
    (ds ++ List.replicate j '0').rdropWhile (· == '0') = ds := by
  unfold List.rdropWhile
  rw [List.reverse_append, List.reverse_replicate,
    List.dropWhile_append_of_pos (by simp)]
  rcases List.eq_nil_or_concat ds with rfl | ⟨l, c, rfl⟩
  · rfl
  · have hc : (c == '0') = false := by
      simpa using h
    simp [hc]

/-- **The float of a literal that spells a decimal**: its digits, zeros before and after them,
and the point in the right place. -/
theorem Flt.ofLiteral_eq (d : Decimal) (hm : d.mant ≠ 0) {ints fracs : List Char} {e : Int}
    (k j : Nat) (hds : ints ++ fracs
      = List.replicate k '0' ++ Nat.toDigits 10 d.mant ++ List.replicate j '0')
    (he : e - fracs.length + j = d.exp) :
    Flt.ofLiteral d.neg ints fracs e = .finite d := by
  have hlast : (List.replicate k '0' ++ Nat.toDigits 10 d.mant).getLast? ≠ some '0' := by
    have hlow : d.mant % 10 ≠ 0 := d.lowest.resolve_right fun h => hm h.1
    rw [List.getLast?_append_of_ne_nil _ Nat.toDigits_ne_nil]
    exact toDigits_getLast_ne hlow
  -- trailing zeros go, leading zeros stay and count for nothing
  have hkept : (ints ++ fracs).rdropWhile (· == '0')
      = List.replicate k '0' ++ Nat.toDigits 10 d.mant := by
    rw [hds, rdropWhile_zeros hlast]
  have hmant : Nat.ofDigitChars 10 (List.replicate k '0' ++ Nat.toDigits 10 d.mant) 0 = d.mant := by
    rw [Nat.ofDigitChars_append, Nat.ofDigitChars_replicate_zero, Nat.mul_zero,
      Nat.ofDigitChars_ten_toDigits]
  -- the exponent grows by one for each zero that went
  have hlen : ((ints ++ fracs).length : Int)
      - (List.replicate k '0' ++ Nat.toDigits 10 d.mant).length = j := by
    rw [hds]
    simp only [List.length_append, List.length_replicate]
    omega
  unfold Flt.ofLiteral
  simp only [hkept, hmant, hlen, if_neg hm, he]
  rw [dif_pos ⟨d.lowest, d.finite⟩]

theorem Flt.ofLiteral_zero (d : Decimal) (hm : d.mant = 0) :
    Flt.ofLiteral d.neg ['0'] ['0'] 0 = .finite d := by
  have he : d.exp = 0 := by
    rcases d.lowest with h | h
    · rw [hm] at h; exact absurd rfl h
    · exact h.2
  obtain ⟨neg, mant, exp, lowest, finite⟩ := d
  subst hm he
  have hfin : 0 * 10 ^ (0 : Int).toNat < floatOverflow * 10 ^ (-(0 : Int)).toNat := finite
  unfold Flt.ofLiteral
  have hkept : (['0'] ++ ['0']).rdropWhile (· == '0') = [] := rfl
  simp only [hkept, Nat.ofDigitChars_nil, if_true]
  rw [dif_pos ⟨by decide, hfin⟩]

/-- The tail of a printed float: nothing, or an exponent. -/
def IsFloatTail (tail : List Char) (e : Int) : Prop :=
  (tail = [] ∧ e = 0) ∨ tail = exponentText e

theorem parseExponent_exponentText (e : Int) {rest : List Char} (h : NoDigit rest) :
    parseExponent (exponentText e ++ rest) = some (e, rest) := by
  -- the padding zero keeps both the digits and their value
  have hdigits : ∃ ds, (if (Nat.toDigits 10 e.natAbs).length < 2
      then '0' :: Nat.toDigits 10 e.natAbs else Nat.toDigits 10 e.natAbs) = ds ∧
      ds ≠ [] ∧ (∀ c ∈ ds, c.isDigit = true) ∧ Nat.ofDigitChars 10 ds 0 = e.natAbs := by
    refine ⟨_, rfl, ?_⟩
    split
    · refine ⟨by simp, ?_, ?_⟩
      · intro c hc
        rcases List.mem_cons.mp hc with rfl | hc
        · rfl
        · exact toDigits_all _ c hc
      · rw [Nat.ofDigitChars_cons]
        exact Nat.ofDigitChars_ten_toDigits
    · exact ⟨Nat.toDigits_ne_nil, toDigits_all _, Nat.ofDigitChars_ten_toDigits⟩
  obtain ⟨ds, hds, hne, hall, hval⟩ := hdigits
  have hemp : ds.isEmpty = false := by
    rw [Bool.eq_false_iff]
    exact fun h => hne (List.isEmpty_iff.mp h)
  unfold exponentText
  simp only [hds]
  by_cases he : e < 0
  · simp only [if_pos he, List.cons_append, parseExponent, List.head?_cons, List.tail_cons,
      takeWhile_digits hall h, dropWhile_digits hall h, hemp, hval, true_or, if_true,
      Bool.false_eq_true, if_false]
    congr 2
    omega
  · simp only [if_neg he, List.cons_append, parseExponent, List.head?_cons, List.tail_cons,
      takeWhile_digits hall h, dropWhile_digits hall h, hemp, hval, true_or, or_true, if_true,
      Bool.false_eq_true, if_false, Option.some.injEq, Char.reduceEq]
    congr 2
    omega

theorem parseFloatTail_append {fracs tail rest : List Char} {e : Int} (hne : fracs ≠ [])
    (hall : ∀ c ∈ fracs, c.isDigit = true) (ht : IsFloatTail tail e) (hr : endsFloat rest = true) :
    parseFloatTail ('.' :: (fracs ++ (tail ++ rest))) = some (fracs, e, rest) := by
  have hemp : fracs.isEmpty = false := by
    rw [Bool.eq_false_iff]
    exact fun h => hne (List.isEmpty_iff.mp h)
  -- the fraction ends where the exponent or the delimiter starts
  have hno : NoDigit (tail ++ rest) := by
    rcases ht with ⟨rfl, -⟩ | rfl
    · exact noDigit_of_endsFloat hr
    · intro c hc
      obtain rfl : 'e' = c := Option.some.inj hc
      rfl
  rw [parseFloatTail]
  simp only [takeWhile_digits hall hno, dropWhile_digits hall hno, hemp, Bool.false_eq_true,
    if_false]
  rcases ht with ⟨rfl, rfl⟩ | rfl
  · rw [List.nil_append, parseExponent_of_endsFloat hr]
  · rw [parseExponent_exponentText e (noDigit_of_endsFloat hr)]

/-- Reading a number printed with a point. -/
theorem parseNumber_float (neg : Bool) {ints fracs tail rest : List Char} {e : Int}
    (hi : IsIntPart ints) (hne : fracs ≠ []) (hall : ∀ c ∈ fracs, c.isDigit = true)
    (ht : IsFloatTail tail e) (hr : endsFloat rest = true) :
    parseNumber ((if neg then ['-'] else []) ++ (ints ++ '.' :: (fracs ++ (tail ++ rest))))
      = some (.float (Flt.ofLiteral neg ints fracs e), rest) := by
  have hno : NoDigit ('.' :: (fracs ++ (tail ++ rest))) := by
    intro c hc
    obtain rfl : '.' = c := Option.some.inj hc
    rfl
  rw [parseNumber_sign neg hi hno, numberAfter, parseFloatTail_append hne hall ht hr,
    Option.filter_some, if_pos hr]

/-- A text for the absolute value of a decimal: an integer part, a fraction and a tail. -/
def Decimal.SpelledBy (d : Decimal) (t : List Char) : Prop :=
  ∃ ints fracs tail e, t = ints ++ '.' :: (fracs ++ tail) ∧ IsIntPart ints ∧
    fracs ≠ [] ∧ (∀ c ∈ fracs, c.isDigit = true) ∧ IsFloatTail tail e ∧
    Flt.ofLiteral d.neg ints fracs e = .finite d

section Layouts

variable {d : Decimal} (hm : d.mant ≠ 0)
include hm

/-- A front of the digits, with zeros after it, is an integer part. -/
theorem isIntPart_take {p : Nat} (hp : 0 < p) {zs : List Char} (hzs : ∀ c ∈ zs, c = '0') :
    IsIntPart ((Nat.toDigits 10 d.mant).take p ++ zs) := by
  have hall := toDigits_all d.mant
  have hhead := toDigits_head_ne (Nat.pos_of_ne_zero hm)
  obtain ⟨c, cs, hds⟩ := List.exists_cons_of_ne_nil (Nat.toDigits_ne_nil (b := 10) (n := d.mant))
  rw [hds] at hall hhead ⊢
  obtain ⟨q, rfl⟩ : ∃ q, p = q + 1 := ⟨p - 1, by omega⟩
  refine Or.inr ⟨by simp, ?_, by simpa using hhead⟩
  intro b hb
  rcases List.mem_append.mp hb with hb | hb
  · exact hall b (List.mem_of_mem_take hb)
  · rw [hzs b hb]; rfl

/-- The point is among the digits. -/
theorem Decimal.spelledBy_point (hpos : 0 < d.exp + (Nat.toDigits 10 d.mant).length)
    (hin : d.exp + (Nat.toDigits 10 d.mant).length < (Nat.toDigits 10 d.mant).length) :
    d.SpelledBy ((Nat.toDigits 10 d.mant).take (d.exp + (Nat.toDigits 10 d.mant).length).toNat ++
      '.' :: (Nat.toDigits 10 d.mant).drop (d.exp + (Nat.toDigits 10 d.mant).length).toNat) := by
  refine ⟨_, _, [], 0, by rw [List.append_nil], ?_, ?_,
    fun c hc => toDigits_all d.mant c (List.mem_of_mem_drop hc), Or.inl ⟨rfl, rfl⟩, ?_⟩
  · have hint := isIntPart_take hm (p := (d.exp + (Nat.toDigits 10 d.mant).length).toNat) (by omega)
      (List.forall_mem_nil _)
    rwa [List.append_nil] at hint
  · rw [ne_eq, List.drop_eq_nil_iff]
    omega
  · refine Flt.ofLiteral_eq d hm 0 0 (by simp) ?_
    rw [List.length_drop]
    omega

/-- The point is behind the digits, and perhaps zeros. -/
theorem Decimal.spelledBy_zeros (hout : (Nat.toDigits 10 d.mant).length ≤ d.exp + (Nat.toDigits 10 d.mant).length) :
    d.SpelledBy (Nat.toDigits 10 d.mant ++ List.replicate d.exp.toNat '0' ++ ['.', '0']) := by
  refine ⟨_, ['0'], [], 0, rfl, ?_, by simp, by simp, Or.inl ⟨rfl, rfl⟩, ?_⟩
  · have hint := isIntPart_take hm (List.length_pos_iff.mpr (Nat.toDigits_ne_nil (b := 10) (n := d.mant)))
      (fun c hc => List.eq_of_mem_replicate (n := d.exp.toNat) hc)
    rwa [List.take_length] at hint
  · refine Flt.ofLiteral_eq d hm 0 (d.exp.toNat + 1) (by simp [List.replicate_succ']) ?_
    simp only [List.length_singleton]
    omega

/-- The point is before the digits, and perhaps zeros. -/
theorem Decimal.spelledBy_fraction (hout : d.exp + (Nat.toDigits 10 d.mant).length ≤ 0) :
    d.SpelledBy ('0' :: '.' ::
      (List.replicate (-(d.exp + (Nat.toDigits 10 d.mant).length)).toNat '0' ++ Nat.toDigits 10 d.mant)) := by
  refine ⟨['0'], _, [], 0, by rw [List.append_nil]; rfl, Or.inl rfl, by simp [Nat.toDigits_ne_nil], ?_,
    Or.inl ⟨rfl, rfl⟩, ?_⟩
  · intro c hc
    rcases List.mem_append.mp hc with hc | hc
    · rw [List.eq_of_mem_replicate hc]; rfl
    · exact toDigits_all d.mant c hc
  · refine Flt.ofLiteral_eq d hm ((-(d.exp + (Nat.toDigits 10 d.mant).length)).toNat + 1) 0
      (by simp [List.replicate_succ]) ?_
    rw [List.length_append, List.length_replicate]
    omega

/-- One digit is before the point, and an exponent after the others, or after a zero. -/
theorem Decimal.spelledBy_exponent :
    d.SpelledBy ((Nat.toDigits 10 d.mant).take 1 ++ '.' ::
      (if (Nat.toDigits 10 d.mant).length = 1 then ['0'] else (Nat.toDigits 10 d.mant).drop 1) ++
        exponentText (d.exp + (Nat.toDigits 10 d.mant).length - 1)) := by
  have hint := isIntPart_take hm Nat.one_pos (List.forall_mem_nil _)
  rw [List.append_nil] at hint
  have hlen : 0 < (Nat.toDigits 10 d.mant).length := List.length_pos_iff.mpr Nat.toDigits_ne_nil
  by_cases hone : (Nat.toDigits 10 d.mant).length = 1
  · refine ⟨_, ['0'], _, d.exp + (Nat.toDigits 10 d.mant).length - 1, by simp [hone], hint, by simp, by simp,
      Or.inr rfl, ?_⟩
    refine Flt.ofLiteral_eq d hm 0 1 ?_ ?_
    · rw [List.take_of_length_le (by omega)]; simp
    · simp only [List.length_singleton]; omega
  · refine ⟨_, (Nat.toDigits 10 d.mant).drop 1, _, d.exp + (Nat.toDigits 10 d.mant).length - 1, by simp [hone],
      hint, ?_, fun c hc => toDigits_all d.mant c (List.mem_of_mem_drop hc), Or.inr rfl, ?_⟩
    · rw [ne_eq, List.drop_eq_nil_iff]
      omega
    · refine Flt.ofLiteral_eq d hm 0 0 ?_ ?_
      · rw [List.take_append_drop]; simp
      · rw [List.length_drop]; omega

end Layouts

/-- The four layouts of `Float#to_s`, each as an integer part, a fraction and a tail. -/
theorem Decimal.spelledBy_magnitudeText (d : Decimal) : d.SpelledBy d.magnitudeText := by
  unfold Decimal.magnitudeText
  by_cases hm : d.mant = 0
  · rw [if_pos hm]
    exact ⟨['0'], ['0'], [], 0, rfl, Or.inl rfl, by simp, by simp, Or.inl ⟨rfl, rfl⟩,
      Flt.ofLiteral_zero d hm⟩
  simp only [if_neg hm]
  split
  case isTrue hpt =>
    split
    case isTrue hin => exact spelledBy_point hm hpt.1 hin
    case isFalse hin => exact spelledBy_zeros hm (Int.not_lt.mp hin)
  case isFalse =>
    split
    case isTrue hpt => exact spelledBy_fraction hm hpt.2
    case isFalse => exact spelledBy_exponent hm

/-- **A finite float is read back.** -/
theorem parseNumber_decimal (d : Decimal) {rest : List Char} (h : endsFloat rest = true) :
    parseNumber (d.toS ++ rest) = some (.float (.finite d), rest) := by
  obtain ⟨ints, fracs, tail, e, htext, hi, hne, hall, ht, hof⟩ := d.spelledBy_magnitudeText
  have hsign : d.toS ++ rest
      = (if d.neg then ['-'] else []) ++ (ints ++ '.' :: (fracs ++ (tail ++ rest))) := by
    unfold Decimal.toS
    cases d.neg <;> simp [htext]
  rw [hsign, parseNumber_float d.neg hi hne hall ht h, hof]

/-- **An infinity is no JSON number.** -/
theorem parseNumber_infinite (neg : Bool) (rest : List Char) :
    parseNumber ((Flt.infinite neg).toS ++ rest) = none := by
  cases neg <;> rfl

end Curarium
