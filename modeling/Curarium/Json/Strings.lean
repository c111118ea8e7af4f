import Curarium.Json.Parse
import Curarium.Json.Inspect

/-!
# Reading an inspected string as JSON

`String#inspect` and the string literals of JSON share their quotes and most of their escapes.
Reading the text of `inspect` back with the JSON parser therefore always finds the closing quote
where `inspect` put it (`scanString_inspectBody`), and the string comes back unchanged exactly
when no character of it is written in one of the two ways JSON does not know
(`unescape_inspectBody`): the letters `\a`, `\v` and `\e`, which the parser reads as the bare
letter, and the braces around the code point of an unprintable character beyond the basic plane.
-/

namespace Curarium

section Strings

variable (printable : Char → Bool)

/-- Characters that `inspect` writes in a way the JSON parser reads back: not one of BEL, VT and
ESC, and printable or in the basic plane. -/
def readableChar (c : Char) : Bool :=
  c.toNat != 0x07 && c.toNat != 0x0B && c.toNat != 0x1B &&
    (isPrint printable c || decide (c.toNat < 0x10000))

/-! ### The closing quote -/

/-- A character that stands for itself in a JSON string. -/
def IsPlain (c : Char) : Prop := 0x20 ≤ c.toNat ∧ c ≠ '"' ∧ c ≠ '\\'

theorem scanString_plain {c : Char} (h : IsPlain c) (t : List Char) :
    scanString (c :: t) = (scanString t).map fun r => (c :: r.1, r.2) := by
  obtain ⟨hge, hq, hb⟩ := h
  have hlt : ¬ (c.toNat < 0x20 ∨ c = '\\') := by
    rintro (h | h)
    · omega
    · exact hb h
  rw [scanString.eq_def]
  split
  · next heq => exact absurd heq (by simp)
  · next heq => exact absurd (List.cons.inj heq).1 hq
  · next heq => exact absurd (List.cons.inj heq).1 hb
  · next heq =>
    obtain ⟨rfl, rfl⟩ := List.cons.inj heq
    rw [if_neg hlt]

theorem scanString_plains {l : List Char} (h : ∀ c ∈ l, IsPlain c) (t : List Char) :
    scanString (l ++ t) = (scanString t).map fun r => (l ++ r.1, r.2) := by
  induction l with
  | nil => simp
  | cons c l ih =>
    rw [List.cons_append, scanString_plain (h c (by simp)), ih fun d hd => h d (by simp [hd]),
      Option.map_map]
    rfl

theorem scanString_escape {c : Char} (h : 0x20 ≤ c.toNat) (t : List Char) :
    scanString ('\\' :: c :: t) = (scanString t).map fun r => ('\\' :: c :: r.1, r.2) := by
  rw [scanString, if_neg (by omega)]

theorem isPlain_hexDigit {n : Nat} (h : n < 16) : IsPlain (hexDigit n) := by
  have hall : ∀ m, m < 16 → 0x20 ≤ (hexDigit m).toNat ∧ hexDigit m ≠ '"' ∧ hexDigit m ≠ '\\' := by
    decide
  exact hall n h

/-- Every hexadecimal numeral is made of plain characters. -/
theorem isPlain_upcase_toDigits {n : Nat} {c : Char}
    (hc : c ∈ Ruby.upcase (Nat.toDigits 16 n)) : IsPlain c := by
  -- the digits of a number are those of its sixteenth part and one more
  induction n using Nat.strongRecOn generalizing c with
  | ind n ih =>
    have hdigit : ∀ m, m < 16 → IsPlain (Nat.digitChar m).toUpper := fun m hm =>
      isPlain_hexDigit hm
    by_cases hn : n < 16
    · rw [Nat.toDigits_of_lt_base hn] at hc
      simp only [Ruby.upcase, List.map_cons, List.map_nil, List.mem_singleton] at hc
      rw [hc]
      exact hdigit n hn
    · rw [Nat.toDigits_of_base_le (by decide) (by omega), Ruby.upcase, List.map_append,
        List.mem_append] at hc
      rcases hc with hc | hc
      · exact ih (n / 16) (by omega) hc
      · simp only [List.map_cons, List.map_nil, List.mem_singleton] at hc
        rw [hc]
        exact hdigit (n % 16) (by omega)

theorem scanString_unicodeEscape (c : Char) (t : List Char) :
    scanString (unicodeEscape c ++ t)
      = (scanString t).map fun r => (unicodeEscape c ++ r.1, r.2) := by
  have hu : 0x20 ≤ ('u' : Char).toNat := by decide
  unfold unicodeEscape
  split
  · -- four digits
    have hplain : ∀ d ∈ hex4 c.toNat, IsPlain d := by
      intro d hd
      simp only [hex4, List.mem_cons, List.not_mem_nil, or_false] at hd
      rcases hd with rfl | rfl | rfl | rfl <;> exact isPlain_hexDigit (by omega)
    rw [List.cons_append, List.cons_append, scanString_escape hu, scanString_plains hplain,
      Option.map_map]
    rfl
  · -- or as many as it takes, in braces
    have hplain : ∀ d ∈ '\x7b' :: (Ruby.upcase (Nat.toDigits 16 c.toNat) ++ ['\x7d']), IsPlain d := by
      intro d hd
      rcases List.mem_cons.mp hd with rfl | hd
      · exact ⟨by decide, by decide, by decide⟩
      · rcases List.mem_append.mp hd with hd | hd
        · exact isPlain_upcase_toDigits hd
        · rw [List.mem_singleton.mp hd]
          exact ⟨by decide, by decide, by decide⟩
    rw [List.cons_append, List.cons_append, scanString_escape hu, scanString_plains hplain,
      Option.map_map]
    rfl

/-- The letters that name a control character. -/
theorem controlEscape_mem {c l : Char} (h : controlEscape c = some l) :
    l ∈ ['a', 'b', 't', 'n', 'v', 'f', 'r', 'e'] := by
  unfold controlEscape at h
  split at h <;> first | (cases h; decide) | exact absurd h (by simp)

theorem isPlain_of_isPrint {c : Char} (h : isPrint printable c = true) (hq : c ≠ '"')
    (hb : c ≠ '\\') : IsPlain c := by
  refine ⟨?_, hq, hb⟩
  unfold isPrint at h
  split at h
  · simp only [Bool.and_eq_true, decide_eq_true_eq] at h
    exact h.1
  · omega

theorem scanString_inspectChar (c : Char) (cs t : List Char) :
    scanString (inspectChar printable c cs ++ t)
      = (scanString t).map fun r => (inspectChar printable c cs ++ r.1, r.2) := by
  unfold inspectChar
  split
  · -- one of the three characters that take a backslash before them
    next hc =>
    have hge : 0x20 ≤ c.toNat := by
      rcases hc with rfl | rfl | ⟨rfl, -⟩ <;> decide
    exact scanString_escape hge t
  · next hc =>
    push Not at hc
    split
    · -- a control character with a letter of its own
      next l hl =>
      have hge : ∀ m ∈ ['a', 'b', 't', 'n', 'v', 'f', 'r', 'e'], 0x20 ≤ m.toNat := by simp
      exact scanString_escape (hge l (controlEscape_mem hl)) t
    · split
      · next hp => exact scanString_plain (isPlain_of_isPrint printable hp hc.1 hc.2.1) t
      · exact scanString_unicodeEscape c t

/-- **The closing quote is found where `inspect` put it.** -/
theorem scanString_inspectBody (cs rest : List Char) :
    scanString (inspectBody printable cs ++ '"' :: rest)
      = some (inspectBody printable cs, rest) := by
  induction cs with
  | nil => rw [inspectBody, List.nil_append, scanString]
  | cons c cs ih =>
    rw [inspectBody, List.append_assoc, scanString_inspectChar, ih]
    rfl

/-! ### The escapes -/

theorem unescape_plain {c : Char} (h : c ≠ '\\') (t : List Char) :
    unescape (c :: t) = (unescape t).map (c :: ·) := by
  rw [unescape.eq_def]
  split <;> first
    | (next heq => exact absurd (List.cons.inj heq).1 h)
    | (next heq => obtain ⟨rfl, rfl⟩ := List.cons.inj heq; rfl)
    | (next heq => exact absurd heq (by simp))

theorem hexVal_hexDigit {n : Nat} (h : n < 16) : hexVal (hexDigit n) = some n := by
  have hall : ∀ m, m < 16 → hexVal (hexDigit m) = some m := by decide
  exact hall n h

theorem unescapeUnicode_hex4 {n : Nat} (h : n < 0x10000) :
    unescapeUnicode (hexDigit (n / 4096 % 16)) (hexDigit (n / 256 % 16)) (hexDigit (n / 16 % 16))
      (hexDigit (n % 16)) = n := by
  unfold unescapeUnicode
  rw [hexVal_hexDigit (by omega), hexVal_hexDigit (by omega), hexVal_hexDigit (by omega),
    hexVal_hexDigit (by omega)]
  simp only
  omega

/-- The code point of a character is no surrogate. -/
theorem toNat_not_surrogate (c : Char) : c.toNat / 0x400 ≠ 0x36 ∧ c.toNat / 0x400 ≠ 0x37 := by
  have hv : c.toNat < 0xD800 ∨ (0xDFFF < c.toNat ∧ c.toNat < 0x110000) := c.valid
  omega

/-- A `\u` escape that names no surrogate. -/
theorem unescape_unicode {a b c d : Char} (hhi : unescapeUnicode a b c d / 0x400 ≠ 0x36)
    (hlo : unescapeUnicode a b c d / 0x400 ≠ 0x37) (t : List Char) :
    unescape ('\\' :: 'u' :: a :: b :: c :: d :: t)
      = (unescape t).map (Char.ofNat (unescapeUnicode a b c d) :: ·) := by
  rw [unescape.eq_def]
  simp only [if_neg hhi, if_neg hlo]

theorem unescape_hex4 {c : Char} (h : c.toNat < 0x10000) (t : List Char) :
    unescape ('\\' :: 'u' :: (hex4 c.toNat ++ t)) = (unescape t).map (c :: ·) := by
  obtain ⟨hhi, hlo⟩ := toNat_not_surrogate c
  change unescape ('\\' :: 'u' :: hexDigit (c.toNat / 4096 % 16) :: hexDigit (c.toNat / 256 % 16) ::
    hexDigit (c.toNat / 16 % 16) :: hexDigit (c.toNat % 16) :: t) = _
  have hval := unescapeUnicode_hex4 h
  rw [unescape_unicode (by rwa [hval]) (by rwa [hval]), hval, Char.ofNat_toNat]

/-- Four characters the first of which is a brace are no code point. -/
theorem unescape_brace {t r : List Char} (h : unescape ('\\' :: 'u' :: '\x7b' :: t) = some r) :
    r.head? = some '\uFFFD' := by
  have hval : ∀ b c d, unescapeUnicode '\x7b' b c d = 0xFFFD := by
    intro b c d
    unfold unescapeUnicode
    rw [show hexVal '\x7b' = none from by decide]
  match t with
  | b :: c :: d :: t =>
    rw [unescape_unicode (by rw [hval]; decide) (by rw [hval]; decide), hval] at h
    obtain ⟨r', -, rfl⟩ := Option.map_eq_some_iff.mp h
    rfl
  | [] => simp [unescape] at h
  | [b] => simp [unescape] at h
  | [b, c] => simp [unescape] at h

/-- The control characters whose escape JSON does not share. -/
theorem controlEscape_cases {c l : Char} (h : controlEscape c = some l) :
    ((c.toNat = 0x07 ∧ l = 'a') ∨ (c.toNat = 0x0B ∧ l = 'v') ∨ (c.toNat = 0x1B ∧ l = 'e')) ∨
      ((c = '\x08' ∧ l = 'b') ∨ (c = '\t' ∧ l = 't') ∨ (c = '\n' ∧ l = 'n') ∨
        (c = '\x0C' ∧ l = 'f') ∨ (c = '\r' ∧ l = 'r')) := by
  have hchar : ∀ d : Char, c.toNat = d.toNat → c = d := fun d hd => Char.toNat_inj.mp hd
  -- three of the letters are not those of JSON, the other five are
  unfold controlEscape at h
  split at h
  · next hn => exact Or.inl (Or.inl ⟨hn, (Option.some.inj h).symm⟩)
  · next hn => exact Or.inr (Or.inl ⟨hchar '\x08' hn, (Option.some.inj h).symm⟩)
  · next hn => exact Or.inr (Or.inr (Or.inl ⟨hchar '\t' hn, (Option.some.inj h).symm⟩))
  · next hn => exact Or.inr (Or.inr (Or.inr (Or.inl ⟨hchar '\n' hn, (Option.some.inj h).symm⟩)))
  · next hn => exact Or.inl (Or.inr (Or.inl ⟨hn, (Option.some.inj h).symm⟩))
  · next hn =>
    exact Or.inr (Or.inr (Or.inr (Or.inr (Or.inl ⟨hchar '\x0C' hn, (Option.some.inj h).symm⟩))))
  · next hn =>
    exact Or.inr (Or.inr (Or.inr (Or.inr (Or.inr ⟨hchar '\r' hn, (Option.some.inj h).symm⟩))))
  · next hn => exact Or.inl (Or.inr (Or.inr ⟨hn, (Option.some.inj h).symm⟩))
  · exact absurd h (by simp)

/-- BEL, VT and ESC have an escape of their own. -/
theorem controlEscape_ne_none {c : Char} (h : c.toNat = 0x07 ∨ c.toNat = 0x0B ∨ c.toNat = 0x1B) :
    controlEscape c ≠ none := by
  unfold controlEscape
  rcases h with h | h | h <;> rw [h] <;> simp

/-- **A readable character is read back.** -/
theorem unescape_inspectChar {c : Char} (h : readableChar printable c = true) (cs t : List Char) :
    unescape (inspectChar printable c cs ++ t) = (unescape t).map (c :: ·) := by
  simp only [readableChar, Bool.and_eq_true, bne_iff_ne, ne_eq, Bool.or_eq_true,
    decide_eq_true_eq] at h
  obtain ⟨⟨⟨h7, hB⟩, hE⟩, hp⟩ := h
  unfold inspectChar
  split
  · next hc =>
    rcases hc with rfl | rfl | ⟨rfl, -⟩
    · rfl
    · rfl
    · rfl
  · next hc =>
    push Not at hc
    split
    · -- the control characters that JSON has no letter for are not readable
      next l hl =>
      rcases controlEscape_cases hl with (⟨hn, -⟩ | ⟨hn, -⟩ | ⟨hn, -⟩) | hgood
      · exact absurd hn h7
      · exact absurd hn hB
      · exact absurd hn hE
      · rcases hgood with ⟨rfl, rfl⟩ | ⟨rfl, rfl⟩ | ⟨rfl, rfl⟩ | ⟨rfl, rfl⟩ | ⟨rfl, rfl⟩ <;> rfl
    · split
      · exact unescape_plain hc.2.1 t
      · next hnp =>
        -- not printable, so its escape has four digits
        have hlt : c.toNat < 0x10000 := hp.resolve_left hnp
        rw [unicodeEscape, if_pos hlt]
        exact unescape_hex4 hlt t

/-- **A character that is not readable comes back as another one.** -/
theorem unescape_inspectChar_ne {c : Char} (h : readableChar printable c = false)
    {cs t r : List Char} (hr : unescape (inspectChar printable c cs ++ t) = some r) :
    r.head? ≠ some c := by
  -- a letter in place of the control character, or U+FFFD in place of the brace
  have hletter : ∀ l : Char, l ≠ 'u' → unescape (['\\', l] ++ t) = some r →
      l = 'a' ∨ l = 'v' ∨ l = 'e' → r.head? = some l := by
    intro l _ hl hcase
    rcases hcase with rfl | rfl | rfl <;>
    · obtain ⟨r', -, rfl⟩ := Option.map_eq_some_iff.mp (show (unescape t).map _ = some r from hl)
      rfl
  unfold inspectChar at hr
  split at hr
  · next hc =>
    exfalso
    rcases hc with rfl | rfl | ⟨rfl, -⟩ <;> exact absurd (show true = false from h) (by decide)
  · split at hr
    · next l hl =>
      rcases controlEscape_cases hl with hbad | hgood
      · have hhead : r.head? = some l := by
          refine hletter l ?_ hr ?_
          · rcases hbad with ⟨-, rfl⟩ | ⟨-, rfl⟩ | ⟨-, rfl⟩ <;> decide
          · rcases hbad with ⟨-, rfl⟩ | ⟨-, rfl⟩ | ⟨-, rfl⟩ <;> simp
        rw [hhead]
        intro heq
        obtain rfl : l = c := Option.some.inj heq
        rcases hbad with ⟨hn, rfl⟩ | ⟨hn, rfl⟩ | ⟨hn, rfl⟩ <;> exact absurd hn (by decide)
      · exfalso
        rcases hgood with ⟨rfl, rfl⟩ | ⟨rfl, rfl⟩ | ⟨rfl, rfl⟩ | ⟨rfl, rfl⟩ | ⟨rfl, rfl⟩ <;>
          exact absurd (show true = false from h) (by decide)
    · next hnone =>
      have hno : ¬ (c.toNat = 0x07 ∨ c.toNat = 0x0B ∨ c.toNat = 0x1B) :=
        fun hb => controlEscape_ne_none hb hnone
      push Not at hno
      have hbad : isPrint printable c = false ∧ ¬ c.toNat < 0x10000 := by
        simpa [readableChar, hno.1, hno.2.1, hno.2.2] using h
      rw [if_neg (by rw [hbad.1]; decide), unicodeEscape, if_neg hbad.2] at hr
      rw [unescape_brace hr]
      intro heq
      obtain rfl : '\uFFFD' = c := Option.some.inj heq
      exact absurd hbad.2 (by decide)

/-- **The round trip of a string.** The text of `inspect` is read back unchanged exactly when
every character is readable. -/
theorem unescape_inspectBody (cs : List Char) :
    unescape (inspectBody printable cs) = some cs ↔ ∀ c ∈ cs, readableChar printable c = true := by
  induction cs with
  | nil => simp [inspectBody, unescape]
  | cons c cs ih =>
    rw [inspectBody, List.forall_mem_cons]
    cases hc : readableChar printable c with
    | true =>
      rw [unescape_inspectChar printable hc, ← ih]
      simp
    | false =>
      refine ⟨fun h => ?_, fun h => absurd h.1 (by decide)⟩
      exact absurd rfl (unescape_inspectChar_ne printable hc h)

/-- Reading an inspected string, whatever comes after its closing quote. -/
theorem parseString_inspectBody (cs rest : List Char) :
    parseString (inspectBody printable cs ++ '"' :: rest)
      = (unescape (inspectBody printable cs)).map fun s => (s, rest) := by
  unfold parseString
  rw [scanString_inspectBody]

end Strings

end Curarium
