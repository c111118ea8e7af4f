import Curarium.Json.Strings
import Curarium.Json.Numbers

/-!
# Reading an inspected value as JSON

The encoder of the `hstore` is `inspect` and its decoder is `JSON.parse`. The two grammars agree
on the values built from readable strings, numbers, booleans, arrays and the empty object
(`Json.readable`), and only on those: `nil` is spelt `null` in JSON, a non-empty hash is written
with `=>`, and an infinity and some characters have no JSON spelling `inspect` would use.

`parseText_inspect_iff` is the result: the text of an array is read back as that array exactly
when its elements are readable and it does not nest deeper than the parser goes. Each direction
is an induction over the value, on the statement about an element with a comma or a bracket after
it. The direction from the parser (`readBackReadable`) uses the other one to know where the
parser stands after the elements it has already read.

Where the text is read as another array, that array has the same length and kinds
(`parseText_inspect_alike`), and the elements that are the same are the readable ones
(`readsExactly`).
-/

namespace Curarium

section RoundTrip

variable (printable : Char → Bool)

/-! ### The values that survive -/

mutual
/-- The value is written by `inspect` in a way the JSON parser reads back. -/
def Json.readable : Json → Bool
  | .null => false
  | .bool _ => true
  | .int _ => true
  | .float (.finite _) => true
  | .float (.infinite _) => false
  | .str s => s.toList.all (readableChar printable)
  | .arr xs => readableElems xs
  | .obj [] => true
  | .obj (_ :: _) => false

def readableElems : List Json → Bool
  | [] => true
  | x :: xs => Json.readable x && readableElems xs
end

mutual
/-- How deep containers nest in the value. -/
def Json.depth : Json → Nat
  | .arr xs => depthElems xs + 1
  | .obj ms => depthMembers ms + 1
  | _ => 0

def depthElems : List Json → Nat
  | [] => 0
  | x :: xs => max (Json.depth x) (depthElems xs)

def depthMembers : List (String × Json) → Nat
  | [] => 0
  | (_, x) :: ms => max (Json.depth x) (depthMembers ms)
end

theorem readableElems_iff (xs : List Json) :
    readableElems printable xs = true ↔ ∀ x ∈ xs, x.readable printable = true := by
  induction xs with
  | nil => simp [readableElems]
  | cons x xs ih => simp [readableElems, ih]

/-! ### The text around an element -/

/-- A character at which a token may start: no white space, no comment, no closing bracket. -/
def StartsToken (c : Char) : Prop :=
  c ≠ ' ' ∧ c ≠ '\t' ∧ c ≠ '\r' ∧ c ≠ '\n' ∧ c ≠ '/' ∧ c ≠ ']'

theorem ignore_of_startsToken {c : Char} (h : StartsToken c) (cs : List Char) :
    ignore .plain (c :: cs) = some (c :: cs) := by
  obtain ⟨h1, h2, h3, h4, h5, -⟩ := h
  rw [ignore.eq_def]
  split <;> first
    | rfl
    | contradiction
    | (next heq => exact absurd (List.cons.inj heq).1 (by assumption))

theorem isDigit_startsToken {c : Char} (h : c.isDigit = true) : StartsToken c := by
  refine ⟨?_, ?_, ?_, ?_, ?_, ?_⟩ <;> rintro rfl <;> exact absurd h (by decide)

/-- The first character of a printed value. -/
theorem inspect_head (v : Json) :
    ∃ c cs, v.inspect printable = c :: cs ∧ StartsToken c := by
  have hdigits : ∀ n, ∃ c cs, Nat.toDigits 10 n = c :: cs ∧ c.isDigit = true := fun n =>
    (isIntPart_toDigits n).head
  cases v with
  | null => exact ⟨'n', ['i', 'l'], by simp [Json.inspect], by unfold StartsToken; decide⟩
  | bool b =>
    cases b with
    | true => exact ⟨'t', ['r', 'u', 'e'], by simp [Json.inspect], by unfold StartsToken; decide⟩
    | false =>
      exact ⟨'f', ['a', 'l', 's', 'e'], by simp [Json.inspect], by unfold StartsToken; decide⟩
  | int z =>
    -- a sign, or the first digit
    obtain ⟨c, cs, hcs, hc⟩ := hdigits z.natAbs
    by_cases hz : z < 0
    · exact ⟨'-', c :: cs, by simp [Json.inspect, Ruby.toS, hz, hcs],
        by unfold StartsToken; decide⟩
    · exact ⟨c, cs, by simp [Json.inspect, Ruby.toS, hz, hcs], isDigit_startsToken hc⟩
  | float f =>
    rw [Json.inspect]
    cases f with
    | infinite neg =>
      cases neg with
      | true => exact ⟨'-', "Infinity".toList, by rfl, by unfold StartsToken; decide⟩
      | false => exact ⟨'I', "nfinity".toList, by rfl, by unfold StartsToken; decide⟩
    | finite d =>
      -- a finite float starts like an integer
      obtain ⟨ints, fracs, tail, e, htext, hi, _⟩ := d.spelledBy_magnitudeText
      obtain ⟨c, cs, rfl, hc⟩ := hi.head
      rw [Flt.toS, Decimal.toS]
      by_cases hneg : d.neg = true
      · exact ⟨'-', d.magnitudeText, if_pos hneg, by unfold StartsToken; decide⟩
      · exact ⟨c, cs ++ '.' :: (fracs ++ tail), (if_neg hneg).trans htext, isDigit_startsToken hc⟩
  | str s =>
    rw [Json.inspect, inspectStr]
    exact ⟨'"', _, rfl, by unfold StartsToken; decide⟩
  | arr xs =>
    cases xs <;> rw [Json.inspect] <;> exact ⟨'[', _, rfl, by unfold StartsToken; decide⟩
  | obj ms =>
    cases ms <;> rw [Json.inspect] <;> exact ⟨'\x7b', _, rfl, by unfold StartsToken; decide⟩

theorem ignore_inspect (v : Json) (rest : List Char) :
    ignore .plain (v.inspect printable ++ rest) = some (v.inspect printable ++ rest) := by
  obtain ⟨c, cs, hcs, hc⟩ := inspect_head printable v
  rw [hcs]
  exact ignore_of_startsToken hc (cs ++ rest)

theorem inspectElems_delimited (xs : List Json) (rest : List Char) :
    IsDelimited (inspectElems printable xs ++ rest) := by
  cases xs with
  | nil => exact ⟨']', rest, by rw [inspectElems]; rfl, Or.inr rfl⟩
  | cons x xs => exact ⟨',', _, by rw [inspectElems]; rfl, Or.inl rfl⟩

/-- A value that starts with none of the reserved characters is a number. -/
theorem parseValue_eq_parseNumber {c : Char} (h : c ≠ '"' ∧ c ≠ '[' ∧ c ≠ '\x7b' ∧ c ≠ 'n' ∧
    c ≠ 't' ∧ c ≠ 'f') (fuel depth : Nat) (cs : List Char) :
    parseValue (fuel + 1) depth (c :: cs) = parseNumber (c :: cs) := by
  obtain ⟨h1, h2, h3, h4, h5, h6⟩ := h
  rw [parseValue.eq_def]
  split <;> first
    | rfl
    | contradiction
    | (next heq => exact absurd (List.cons.inj heq).1 (by assumption))

theorem isDigit_not_reserved {c : Char} (h : c.isDigit = true) :
    c ≠ '"' ∧ c ≠ '[' ∧ c ≠ '\x7b' ∧ c ≠ 'n' ∧ c ≠ 't' ∧ c ≠ 'f' := by
  refine ⟨?_, ?_, ?_, ?_, ?_, ?_⟩ <;> rintro rfl <;> exact absurd h (by decide)

theorem parseValue_int (z : Int) (fuel depth : Nat) (rest : List Char) :
    parseValue (fuel + 1) depth (Ruby.toS z ++ rest) = parseNumber (Ruby.toS z ++ rest) := by
  obtain ⟨c, cs, hcs, hc⟩ := (isIntPart_toDigits z.natAbs).head
  unfold Ruby.toS
  by_cases hz : z < 0
  · rw [if_pos hz]
    exact parseValue_eq_parseNumber (by decide) _ _ _
  · rw [if_neg hz, hcs]
    exact parseValue_eq_parseNumber (isDigit_not_reserved hc) _ _ _

theorem parseValue_float (f : Flt) (fuel depth : Nat) (rest : List Char) :
    parseValue (fuel + 1) depth (f.toS ++ rest) = parseNumber (f.toS ++ rest) := by
  cases f with
  | infinite neg =>
    rw [Flt.toS]
    cases neg with
    | true => exact parseValue_eq_parseNumber (by decide) _ _ _
    | false => exact parseValue_eq_parseNumber (by decide) _ _ _
  | finite d =>
    -- no literal starts with a digit or a sign
    obtain ⟨ints, fracs, tail, e, htext, hi, _⟩ := d.spelledBy_magnitudeText
    obtain ⟨c, cs, rfl, hc⟩ := hi.head
    rw [Flt.toS, Decimal.toS]
    by_cases hneg : d.neg = true
    · rw [if_pos hneg]
      exact parseValue_eq_parseNumber (by decide) _ _ _
    · rw [if_neg hneg, htext]
      exact parseValue_eq_parseNumber (isDigit_not_reserved hc) _ _ _

theorem parseValue_str (s : String) (fuel depth : Nat) (rest : List Char) :
    parseValue (fuel + 1) depth (inspectStr printable s.toList ++ rest)
      = (unescape (inspectBody printable s.toList)).map fun r => (.str (String.ofList r), rest) := by
  have htext : inspectStr printable s.toList ++ rest
      = '"' :: (inspectBody printable s.toList ++ '"' :: rest) := by
    simp [inspectStr]
  rw [htext, parseValue, parseString_inspectBody, Option.map_map]
  rfl

/-- Reading a non-empty array: its first element, then the others. -/
theorem parseValue_arr_cons (x : Json) (xs : List Json) (fuel depth : Nat) (rest : List Char)
    (hd : depth < maxNesting) :
    parseValue (fuel + 1) depth ((Json.arr (x :: xs)).inspect printable ++ rest)
      = (parseValue fuel (depth + 1)
          (x.inspect printable ++ (inspectElems printable xs ++ rest))).bind fun p =>
          (parseElems fuel (depth + 1) p.2).map fun r => (.arr (p.1 :: r.1), r.2) := by
  obtain ⟨c, cs, hcs, hc⟩ := inspect_head printable x
  have hbr : c ≠ ']' := hc.2.2.2.2.2
  rw [Json.inspect, List.cons_append, parseValue, if_neg (by omega), List.append_assoc,
    ignore_inspect]
  -- the text of an element is not the closing bracket
  split
  · next heq =>
    rw [hcs] at heq
    exact absurd (List.cons.inj (Option.some.inj heq)).1 hbr
  · next heq => rw [← Option.some.inj heq]
  · next heq => exact absurd heq (by simp)

/-- Reading one element more. -/
theorem parseElems_cons (x : Json) (xs : List Json) (fuel depth : Nat) (rest : List Char) :
    parseElems (fuel + 1) depth (inspectElems printable (x :: xs) ++ rest)
      = (parseValue fuel depth
          (x.inspect printable ++ (inspectElems printable xs ++ rest))).bind fun p =>
          (parseElems fuel depth p.2).map fun r => (p.1 :: r.1, r.2) := by
  have hsp : ∀ t, ignore .plain (' ' :: t) = ignore .plain t := fun t => by rw [ignore]
  have hcomma : ∀ t, ignore .plain (',' :: t) = some (',' :: t) := fun t =>
    ignore_of_startsToken (by unfold StartsToken; decide) t
  rw [inspectElems, List.cons_append, List.cons_append, List.append_assoc, parseElems, hcomma]
  simp only [hsp, ignore_inspect, Option.bind_some]

theorem parseElems_nil (fuel depth : Nat) (rest : List Char) :
    parseElems (fuel + 1) depth (inspectElems printable [] ++ rest) = some ([], rest) := by
  rw [inspectElems, List.cons_append, parseElems]
  simp [ignore]

/-! ### Readable values are read back -/

/-- The statement of the induction: the value is read off the front of any text that goes on
with a comma or a bracket. -/
def ReadsBack (v : Json) : Prop :=
  ∀ fuel depth rest, IsDelimited rest → (v.inspect printable).length ≤ fuel →
    v.readable printable = true → depth + v.depth ≤ maxNesting →
    parseValue fuel depth (v.inspect printable ++ rest) = some (v, rest)

theorem parseElems_inspectElems {xs : List Json} (hxs : ∀ x ∈ xs, ReadsBack printable x) :
    ∀ fuel depth rest, (inspectElems printable xs).length ≤ fuel →
      readableElems printable xs = true → depth + depthElems xs ≤ maxNesting →
      parseElems fuel depth (inspectElems printable xs ++ rest) = some (xs, rest) := by
  induction xs with
  | nil =>
    intro fuel depth rest hfuel _ _
    obtain ⟨n, rfl⟩ : ∃ n, fuel = n + 1 := ⟨fuel - 1, by simp [inspectElems] at hfuel; omega⟩
    exact parseElems_nil printable n depth rest
  | cons x xs ih =>
    intro fuel depth rest hfuel hread hdepth
    -- a comma and a space stand before the element
    have hlen : (inspectElems printable (x :: xs)).length
        = (x.inspect printable).length + (inspectElems printable xs).length + 2 := by
      simp [inspectElems]
    obtain ⟨n, rfl⟩ : ∃ n, fuel = n + 1 := ⟨fuel - 1, by omega⟩
    rw [readableElems, Bool.and_eq_true] at hread
    rw [depthElems] at hdepth
    have hx := hxs x (by simp) n depth (inspectElems printable xs ++ rest)
      (inspectElems_delimited printable xs rest) (by omega) hread.1 (by omega)
    have htail := ih (fun y hy => hxs y (by simp [hy])) n depth rest (by omega) hread.2 (by omega)
    -- the element is read, and then the others
    rw [parseElems_cons, hx]
    simp only [Option.bind_some, htail, Option.map_some]

theorem inspect_length_pos (v : Json) : 0 < (v.inspect printable).length := by
  obtain ⟨c, cs, hcs, -⟩ := inspect_head printable v
  rw [hcs]
  exact Nat.succ_pos _

/-- Enough fuel for a value is fuel for one step. -/
theorem fuel_succ {v : Json} {fuel : Nat} (h : (v.inspect printable).length ≤ fuel) :
    ∃ n, fuel = n + 1 :=
  ⟨fuel - 1, by have := inspect_length_pos printable v; omega⟩

theorem inspect_arr_length (x : Json) (xs : List Json) :
    ((Json.arr (x :: xs)).inspect printable).length
      = (x.inspect printable).length + (inspectElems printable xs).length + 1 := by
  simp [Json.inspect]

/-- An array of values that read back is read back, whatever follows its closing bracket. -/
theorem parseValue_arr {xs : List Json} (hxs : ∀ x ∈ xs, ReadsBack printable x) {fuel depth : Nat}
    (rest : List Char) (hfuel : ((Json.arr xs).inspect printable).length ≤ fuel)
    (hread : readableElems printable xs = true) (hdepth : depth + (depthElems xs + 1) ≤ maxNesting) :
    parseValue fuel depth ((Json.arr xs).inspect printable ++ rest) = some (.arr xs, rest) := by
  obtain ⟨n, rfl⟩ := fuel_succ printable hfuel
  cases xs with
  | nil => simp [Json.inspect, parseValue, ignore, show ¬ maxNesting ≤ depth by omega]
  | cons x xs =>
    rw [inspect_arr_length] at hfuel
    rw [readableElems, Bool.and_eq_true] at hread
    rw [depthElems] at hdepth
    -- the first element stands before a comma or the bracket, as every element does
    have hx := hxs x (by simp) n (depth + 1) (inspectElems printable xs ++ rest)
      (inspectElems_delimited printable xs rest) (by omega) hread.1 (by omega)
    have htail := parseElems_inspectElems printable (fun y hy => hxs y (by simp [hy])) n
      (depth + 1) rest (by omega) hread.2 (by omega)
    rw [parseValue_arr_cons printable x xs n depth rest (by omega), hx]
    simp only [Option.bind_some, htail, Option.map_some]

/-- **Every readable value is read back.** -/
theorem readsBack (v : Json) : ReadsBack printable v := by
  induction v using Json.induction with
  -- `nil` is not readable, and neither is an infinity or a hash with members
  | null => intro fuel depth rest _ _ hread _; exact absurd hread (by simp [Json.readable])
  | bool b =>
    intro fuel depth rest _ hfuel _ _
    obtain ⟨n, rfl⟩ := fuel_succ printable hfuel
    cases b <;> simp [Json.inspect, parseValue]
  | int z =>
    intro fuel depth rest hr hfuel _ _
    obtain ⟨n, rfl⟩ := fuel_succ printable hfuel
    rw [Json.inspect, parseValue_int, parseNumber_toS z (endsFloat_delimited hr)]
  | float f =>
    intro fuel depth rest hr hfuel hread _
    obtain ⟨n, rfl⟩ := fuel_succ printable hfuel
    rw [Json.inspect, parseValue_float]
    cases f with
    | infinite neg => exact absurd hread (by simp [Json.readable])
    | finite d => exact parseNumber_decimal d (endsFloat_delimited hr)
  | str s =>
    intro fuel depth rest _ hfuel hread _
    obtain ⟨n, rfl⟩ := fuel_succ printable hfuel
    rw [Json.readable, List.all_eq_true] at hread
    rw [Json.inspect, parseValue_str, (unescape_inspectBody printable s.toList).mpr hread,
      Option.map_some, String.ofList_toList]
  | arr xs ih =>
    intro fuel depth rest _ hfuel hread hdepth
    rw [Json.readable] at hread
    rw [Json.depth] at hdepth
    exact parseValue_arr printable ih rest hfuel hread hdepth
  | obj ms _ =>
    intro fuel depth rest _ hfuel hread hdepth
    obtain ⟨n, rfl⟩ := fuel_succ printable hfuel
    rw [Json.depth] at hdepth
    cases ms with
    | nil => simp [Json.inspect, parseValue, ignore, show ¬ maxNesting ≤ depth by omega]
    | cons m ms => exact absurd hread (by simp [Json.readable])

/-! ### Only readable values are read back -/

/-- The statement of the converse: what comes back as itself is readable. -/
def ReadBackReadable (v : Json) : Prop :=
  ∀ fuel depth rest rest', IsDelimited rest → (v.inspect printable).length ≤ fuel →
    depth ≤ maxNesting → parseValue fuel depth (v.inspect printable ++ rest) = some (v, rest') →
    v.readable printable = true ∧ depth + v.depth ≤ maxNesting

theorem readable_of_parseElems {xs : List Json} (hxs : ∀ x ∈ xs, ReadBackReadable printable x) :
    ∀ fuel depth rest rest', (inspectElems printable xs).length ≤ fuel → depth ≤ maxNesting →
      parseElems fuel depth (inspectElems printable xs ++ rest) = some (xs, rest') →
      readableElems printable xs = true ∧ depth + depthElems xs ≤ maxNesting := by
  induction xs with
  | nil => intro fuel depth rest rest' _ hd _; exact ⟨rfl, by simpa [depthElems] using hd⟩
  | cons x xs ih =>
    intro fuel depth rest rest' hfuel hd hparse
    have hlen : (inspectElems printable (x :: xs)).length
        = (x.inspect printable).length + (inspectElems printable xs).length + 2 := by
      simp [inspectElems]
    obtain ⟨n, rfl⟩ : ∃ n, fuel = n + 1 := ⟨fuel - 1, by omega⟩
    have hdelim := inspectElems_delimited printable xs rest
    rw [parseElems_cons, Option.bind_eq_some_iff] at hparse
    obtain ⟨⟨y, r⟩, hy, hrest⟩ := hparse
    obtain ⟨⟨ys, r'⟩, hys, heq⟩ := Option.map_eq_some_iff.mp hrest
    simp only [Prod.mk.injEq, List.cons.injEq] at heq
    obtain ⟨⟨rfl, rfl⟩, rfl⟩ := heq
    -- the head is readable, so the parser stands at the tail after it
    obtain ⟨hxr, hxd⟩ := hxs y (by simp) n depth _ r hdelim (by omega) hd hy
    have hback := readsBack printable y n depth _ hdelim (by omega) hxr hxd
    obtain rfl : inspectElems printable ys ++ rest = r :=
      (Prod.mk.inj (Option.some.inj (hback.symm.trans hy))).2
    obtain ⟨htr, htd⟩ := ih (fun z hz => hxs z (by simp [hz])) n depth rest r' (by omega) hd hys
    refine ⟨by rw [readableElems, hxr, htr]; rfl, ?_⟩
    rw [depthElems]
    omega

/-- The converse for an array, whatever follows its closing bracket. -/
theorem readable_of_parseValue_arr {xs : List Json}
    (hxs : ∀ x ∈ xs, ReadBackReadable printable x) {fuel depth : Nat} {rest rest' : List Char}
    (hfuel : ((Json.arr xs).inspect printable).length ≤ fuel)
    (hparse : parseValue fuel depth ((Json.arr xs).inspect printable ++ rest)
      = some (.arr xs, rest')) :
    readableElems printable xs = true ∧ depth + (depthElems xs + 1) ≤ maxNesting := by
  obtain ⟨n, rfl⟩ := fuel_succ printable hfuel
  -- a text that nests too deep is not read at all
  have hd : depth < maxNesting := by
    by_contra hge
    cases xs <;> simp [Json.inspect, parseValue, show maxNesting ≤ depth by omega] at hparse
  cases xs with
  | nil => exact ⟨rfl, by simp only [depthElems]; omega⟩
  | cons x xs =>
    rw [inspect_arr_length] at hfuel
    have hdelim := inspectElems_delimited printable xs rest
    rw [parseValue_arr_cons printable x xs n depth rest hd, Option.bind_eq_some_iff] at hparse
    obtain ⟨⟨y, r⟩, hy, hrest⟩ := hparse
    obtain ⟨⟨ys, r'⟩, hys, heq⟩ := Option.map_eq_some_iff.mp hrest
    simp only [Prod.mk.injEq, Json.arr.injEq, List.cons.injEq] at heq
    obtain ⟨⟨rfl, rfl⟩, rfl⟩ := heq
    obtain ⟨hxr, hxd⟩ := hxs y (by simp) n (depth + 1) _ r hdelim (by omega) (by omega) hy
    -- the element is readable, so it is known where the parser stands after it
    have hback := readsBack printable y n (depth + 1) _ hdelim (by omega) hxr hxd
    obtain rfl : inspectElems printable ys ++ rest = r :=
      (Prod.mk.inj (Option.some.inj (hback.symm.trans hy))).2
    obtain ⟨htr, htd⟩ := readable_of_parseElems printable (fun z hz => hxs z (by simp [hz])) n
      (depth + 1) rest r' (by omega) (by omega) hys
    refine ⟨by rw [readableElems, hxr, htr]; rfl, ?_⟩
    rw [depthElems]
    omega

/-- A member name is followed by `=>`, where JSON wants a colon. -/
theorem parsePair_hash (k : String) (fuel depth : Nat) (t : List Char) :
    parsePair fuel depth (inspectStr printable k.toList ++ '=' :: t) = none := by
  have htext : inspectStr printable k.toList ++ '=' :: t
      = '"' :: (inspectBody printable k.toList ++ '"' :: '=' :: t) := by
    simp [inspectStr]
  have heq : ignore .plain ('=' :: t) = some ('=' :: t) :=
    ignore_of_startsToken (by unfold StartsToken; decide) t
  cases fuel with
  | zero => rw [parsePair]
  | succ n =>
    rw [htext, parsePair, parseString_inspectBody]
    cases unescape (inspectBody printable k.toList) with
    | none => rfl
    | some r => simp [heq]

/-- `nil` starts like `null` and then differs from it. -/
theorem parseValue_nil (n depth : Nat) (rest : List Char) :
    parseValue (n + 1) depth (Json.null.inspect printable ++ rest) = none := by
  simp [Json.inspect, parseValue, parseNumber, parseIntPart]

/-- A hash with members is no JSON. -/
theorem parseValue_hash (m : String × Json) (ms : List (String × Json)) (n depth : Nat)
    (rest : List Char) :
    parseValue (n + 1) depth ((Json.obj (m :: ms)).inspect printable ++ rest) = none := by
  obtain ⟨k, x⟩ := m
  have hquote : ∀ t, ignore .plain (inspectStr printable k.toList ++ t)
      = some (inspectStr printable k.toList ++ t) := fun t =>
    ignore_of_startsToken (by unfold StartsToken; decide) _
  rw [Json.inspect, List.cons_append, parseValue, List.append_assoc, List.cons_append, hquote]
  by_cases hd : maxNesting ≤ depth
  · rw [if_pos hd]
  · rw [if_neg hd]
    split
    · next heq => exact absurd (List.cons.inj (Option.some.inj heq)).1 (by decide)
    · next heq => rw [← Option.some.inj heq, parsePair_hash, Option.bind_none]
    · rfl

/-- **What the parser gives back as itself is readable.** -/
theorem readBackReadable (v : Json) : ReadBackReadable printable v := by
  induction v using Json.induction with
  | null =>
    intro fuel depth rest rest' _ hfuel _ hparse
    obtain ⟨n, rfl⟩ := fuel_succ printable hfuel
    -- `nil` is no JSON
    rw [parseValue_nil] at hparse
    exact absurd hparse (by simp)
  | bool b => intro fuel depth rest rest' _ _ hd _; exact ⟨rfl, by simpa [Json.depth] using hd⟩
  | int z => intro fuel depth rest rest' _ _ hd _; exact ⟨rfl, by simpa [Json.depth] using hd⟩
  | float f =>
    intro fuel depth rest rest' _ hfuel hd hparse
    obtain ⟨n, rfl⟩ := fuel_succ printable hfuel
    cases f with
    | infinite neg =>
      rw [Json.inspect, parseValue_float, parseNumber_infinite] at hparse
      exact absurd hparse (by simp)
    | finite d => exact ⟨rfl, by simpa [Json.depth] using hd⟩
  | str s =>
    intro fuel depth rest rest' _ hfuel hd hparse
    obtain ⟨n, rfl⟩ := fuel_succ printable hfuel
    rw [Json.inspect, parseValue_str] at hparse
    obtain ⟨r, hr, heq⟩ := Option.map_eq_some_iff.mp hparse
    -- the characters that were read are those of the string
    have hs : r = s.toList := by
      rw [← Json.str.inj (Prod.mk.inj heq).1, String.toList_ofList]
    rw [hs] at hr
    refine ⟨?_, by simpa [Json.depth] using hd⟩
    rw [Json.readable, List.all_eq_true]
    exact (unescape_inspectBody printable s.toList).mp hr
  | arr xs ih =>
    intro fuel depth rest rest' _ hfuel _ hparse
    exact readable_of_parseValue_arr printable ih hfuel hparse
  | obj ms _ =>
    intro fuel depth rest rest' _ hfuel _ hparse
    obtain ⟨n, rfl⟩ := fuel_succ printable hfuel
    have hd : depth < maxNesting := by
      by_contra hge
      cases ms <;> simp [Json.inspect, parseValue, show maxNesting ≤ depth by omega] at hparse
    cases ms with
    | nil => exact ⟨rfl, by simp only [Json.depth, depthMembers]; omega⟩
    | cons m ms =>
      rw [parseValue_hash] at hparse
      exact absurd hparse (by simp)

/-! ### The round trip -/

theorem inspect_arr_head (xs : List Json) :
    ∃ cs, (Json.arr xs).inspect printable = '[' :: cs := by
  cases xs <;> rw [Json.inspect] <;> exact ⟨_, rfl⟩

/-- The text of an array starts with its bracket, and is read as one value. -/
theorem parseText_arr (xs : List Json) :
    Json.parseText ((Json.arr xs).inspect printable)
      = (parseValue (((Json.arr xs).inspect printable).length + 1) 0
          ((Json.arr xs).inspect printable)).bind fun p =>
        if ignore .plain p.2 = some [] then some p.1 else none := by
  obtain ⟨cs, hcs⟩ := inspect_arr_head printable xs
  have hign : ignore .plain ((Json.arr xs).inspect printable)
      = some ((Json.arr xs).inspect printable) := by
    rw [hcs]
    exact ignore_of_startsToken (by unfold StartsToken; decide) cs
  have hcont : startsContainer ((Json.arr xs).inspect printable) = true := by
    rw [hcs]; rfl
  unfold Json.parseText
  simp only [hign, hcont, if_true]
  cases parseValue (((Json.arr xs).inspect printable).length + 1) 0
    ((Json.arr xs).inspect printable) <;> rfl

/-- **Decoding an inspected array.** `JSON.parse` gives the array back exactly when its elements
are readable and it nests no deeper than the parser goes. -/
theorem parseText_inspect_iff (xs : List Json) :
    Json.parseText ((Json.arr xs).inspect printable) = some (.arr xs) ↔
      (∀ x ∈ xs, x.readable printable = true) ∧ (Json.arr xs).depth ≤ maxNesting := by
  have hfuel : ((Json.arr xs).inspect printable).length
      ≤ ((Json.arr xs).inspect printable).length + 1 := Nat.le_succ _
  rw [← readableElems_iff, Json.depth, parseText_arr]
  constructor
  · intro h
    -- what was read is the array, so its elements are readable
    obtain ⟨⟨j, r⟩, hj, hr⟩ := Option.bind_eq_some_iff.mp h
    obtain ⟨-, hsome⟩ := Option.ite_none_right_eq_some.mp hr
    obtain rfl : j = .arr xs := Option.some.inj hsome
    rw [← List.append_nil ((Json.arr xs).inspect printable)] at hj
    simpa using readable_of_parseValue_arr printable (fun x _ => readBackReadable printable x)
      (by simp) hj
  · rintro ⟨hread, hdepth⟩
    have hparse := parseValue_arr printable (fun x _ => readsBack printable x) [] hfuel hread
      (show 0 + (depthElems xs + 1) ≤ maxNesting by omega)
    rw [List.append_nil] at hparse
    simp [hparse, ignore]

/-! ### What is read back in any case -/

/-- Equal, or two strings, or two arrays. -/
def Json.Alike (x y : Json) : Prop :=
  x = y ∨ (∃ s t, x = .str s ∧ y = .str t) ∨ ∃ xs ys, x = .arr xs ∧ y = .arr ys

/-- The statement of the induction: whatever the parser reads where a value was written is of the
same kind, and it stops where the value ends. -/
def ReadsAlike (v : Json) : Prop :=
  ∀ fuel depth rest w rest', IsDelimited rest → (v.inspect printable).length ≤ fuel →
    parseValue fuel depth (v.inspect printable ++ rest) = some (w, rest') →
    v.Alike w ∧ rest' = rest

/-- The same for any relation between what was written and what is read. -/
def ReadsTo (R : Json → Json → Prop) (v : Json) : Prop :=
  ∀ fuel depth rest w rest', IsDelimited rest → (v.inspect printable).length ≤ fuel →
    parseValue fuel depth (v.inspect printable ++ rest) = some (w, rest') →
    R v w ∧ rest' = rest

variable {R : Json → Json → Prop}

theorem parseElems_readsTo {xs : List Json} (hxs : ∀ x ∈ xs, ReadsTo printable R x) :
    ∀ fuel depth rest ys rest', (inspectElems printable xs).length ≤ fuel →
      parseElems fuel depth (inspectElems printable xs ++ rest) = some (ys, rest') →
      List.Forall₂ R xs ys ∧ rest' = rest := by
  induction xs with
  | nil =>
    intro fuel depth rest ys rest' hfuel hparse
    obtain ⟨n, rfl⟩ : ∃ n, fuel = n + 1 := ⟨fuel - 1, by simp [inspectElems] at hfuel; omega⟩
    rw [parseElems_nil] at hparse
    obtain ⟨rfl, rfl⟩ := Prod.mk.inj (Option.some.inj hparse)
    exact ⟨.nil, rfl⟩
  | cons x xs ih =>
    intro fuel depth rest zs rest' hfuel hparse
    have hlen : (inspectElems printable (x :: xs)).length
        = (x.inspect printable).length + (inspectElems printable xs).length + 2 := by
      simp [inspectElems]
    obtain ⟨n, rfl⟩ : ∃ n, fuel = n + 1 := ⟨fuel - 1, by omega⟩
    rw [parseElems_cons, Option.bind_eq_some_iff] at hparse
    obtain ⟨⟨y, r⟩, hy, hrest⟩ := hparse
    obtain ⟨⟨ys, r'⟩, hys, heq⟩ := Option.map_eq_some_iff.mp hrest
    obtain ⟨rfl, rfl⟩ := Prod.mk.inj heq
    -- the element is read up to where the next one starts
    obtain ⟨halike, rfl⟩ := hxs x (by simp) n depth _ y r
      (inspectElems_delimited printable xs rest) (by omega) hy
    obtain ⟨htail, rfl⟩ := ih (fun z hz => hxs z (by simp [hz])) n depth rest ys r' (by omega) hys
    exact ⟨.cons halike htail, rfl⟩

/-- What is read where an array was written is an array of the same length, element by element. -/
theorem parseValue_arr_readsTo {xs : List Json} (hxs : ∀ x ∈ xs, ReadsTo printable R x)
    {fuel depth : Nat} {rest rest' : List Char} {w : Json}
    (hfuel : ((Json.arr xs).inspect printable).length ≤ fuel)
    (hparse : parseValue fuel depth ((Json.arr xs).inspect printable ++ rest) = some (w, rest')) :
    (∃ ys, w = .arr ys ∧ List.Forall₂ R xs ys) ∧ rest' = rest := by
  obtain ⟨n, rfl⟩ := fuel_succ printable hfuel
  -- a text that nests too deep is not read at all
  have hd : depth < maxNesting := by
    by_contra hge
    cases xs <;> simp [Json.inspect, parseValue, show maxNesting ≤ depth by omega] at hparse
  cases xs with
  | nil =>
    simp only [Json.inspect, List.cons_append, List.nil_append, parseValue,
      if_neg (show ¬ depth ≥ maxNesting by omega)] at hparse
    obtain ⟨rfl, rfl⟩ := Prod.mk.inj (Option.some.inj hparse)
    exact ⟨⟨[], rfl, .nil⟩, rfl⟩
  | cons x xs =>
    rw [inspect_arr_length] at hfuel
    rw [parseValue_arr_cons printable x xs n depth rest hd, Option.bind_eq_some_iff] at hparse
    obtain ⟨⟨y, r⟩, hy, hrest⟩ := hparse
    obtain ⟨⟨ys, r'⟩, hys, heq⟩ := Option.map_eq_some_iff.mp hrest
    obtain ⟨rfl, rfl⟩ := Prod.mk.inj heq
    obtain ⟨halike, rfl⟩ := hxs x (by simp) n (depth + 1) _ y r
      (inspectElems_delimited printable xs rest) (by omega) hy
    obtain ⟨htail, rfl⟩ := parseElems_readsTo printable (fun z hz => hxs z (by simp [hz])) n
      (depth + 1) rest ys r' (by omega) hys
    exact ⟨⟨y :: ys, rfl, .cons halike htail⟩, rfl⟩

theorem ReadsTo.and {R R' : Json → Json → Prop} {v : Json} (h : ReadsTo printable R v)
    (h' : ReadsTo printable R' v) : ReadsTo printable (fun x y => R x y ∧ R' x y) v := by
  intro fuel depth rest w rest' hr hfuel hparse
  obtain ⟨hw, hstop⟩ := h fuel depth rest w rest' hr hfuel hparse
  exact ⟨⟨hw, (h' fuel depth rest w rest' hr hfuel hparse).1⟩, hstop⟩

/-- **How the parser reads a value**: a scalar that can be read as itself, a string as a string with its
escapes, and an array element by element. -/
theorem readsTo_of (hback : ∀ x, x.readable printable = true → R x x)
    (hstr : ∀ s cs, unescape (inspectBody printable s.toList) = some cs → R (.str s) (.str (String.ofList cs)))
    (harr : ∀ xs ys, List.Forall₂ R xs ys → R (.arr xs) (.arr ys)) (v : Json) : ReadsTo printable R v := by
  -- the same text is not read as two values
  have hsame : ∀ {v w : Json} {fuel depth : Nat} {rest rest' : List Char}, v.readable printable = true →
      parseValue fuel depth (v.inspect printable ++ rest) = some (v, rest) →
      parseValue fuel depth (v.inspect printable ++ rest) = some (w, rest') → R v w ∧ rest' = rest := by
    intro v w fuel depth rest rest' hread hv hparse
    obtain ⟨rfl, rfl⟩ := Prod.mk.inj (Option.some.inj (hv.symm.trans hparse))
    exact ⟨hback v hread, rfl⟩
  induction v using Json.induction with
  | null =>
    intro fuel depth rest w rest' _ hfuel hparse
    obtain ⟨n, rfl⟩ := fuel_succ printable hfuel
    rw [parseValue_nil] at hparse
    exact absurd hparse (by simp)
  | bool b =>
    intro fuel depth rest w rest' _ hfuel hparse
    obtain ⟨n, rfl⟩ := fuel_succ printable hfuel
    exact hsame rfl (by cases b <;> simp [Json.inspect, parseValue]) hparse
  | int z =>
    intro fuel depth rest w rest' hr hfuel hparse
    obtain ⟨n, rfl⟩ := fuel_succ printable hfuel
    exact hsame rfl
      (by rw [Json.inspect, parseValue_int, parseNumber_toS z (endsFloat_delimited hr)]) hparse
  | float f =>
    intro fuel depth rest w rest' hr hfuel hparse
    obtain ⟨n, rfl⟩ := fuel_succ printable hfuel
    cases f with
    | infinite neg =>
      rw [Json.inspect, parseValue_float, parseNumber_infinite] at hparse
      exact absurd hparse (by simp)
    | finite d =>
      exact hsame rfl
        (by rw [Json.inspect, parseValue_float]; exact parseNumber_decimal d (endsFloat_delimited hr)) hparse
  | str s =>
    intro fuel depth rest w rest' _ hfuel hparse
    obtain ⟨n, rfl⟩ := fuel_succ printable hfuel
    rw [Json.inspect, parseValue_str] at hparse
    obtain ⟨cs, hcs, heq⟩ := Option.map_eq_some_iff.mp hparse
    obtain ⟨rfl, rfl⟩ := Prod.mk.inj heq
    exact ⟨hstr s cs hcs, rfl⟩
  | arr xs ih =>
    intro fuel depth rest w rest' _ hfuel hparse
    obtain ⟨⟨ys, rfl, hall⟩, hrest⟩ := parseValue_arr_readsTo printable ih hfuel hparse
    exact ⟨harr xs ys hall, hrest⟩
  | obj ms _ =>
    intro fuel depth rest w rest' _ hfuel hparse
    obtain ⟨n, rfl⟩ := fuel_succ printable hfuel
    cases ms with
    | nil =>
      have hd : ¬ maxNesting ≤ depth := by
        intro hge
        simp [Json.inspect, parseValue, hge] at hparse
      exact hsame rfl (by simp [Json.inspect, parseValue, ignore, hd]) hparse
    | cons m ms =>
      -- after the key of a hash the parser wants a colon
      rw [parseValue_hash] at hparse
      exact absurd hparse (by simp)

/-- **The parser keeps kinds.** -/
theorem readsAlike (v : Json) : ReadsAlike printable v :=
  readsTo_of printable (fun _ _ => .inl rfl) (fun s _ _ => .inr (.inl ⟨s, _, rfl, rfl⟩))
    (fun xs ys _ => .inr (.inr ⟨xs, ys, rfl, rfl⟩)) v

theorem parseText_inspect_readsTo (hR : ∀ x, ReadsTo printable R x) {xs : List Json} {j : Json}
    (h : Json.parseText ((Json.arr xs).inspect printable) = some j) :
    ∃ ys, j = .arr ys ∧ List.Forall₂ R xs ys := by
  rw [parseText_arr] at h
  obtain ⟨⟨w, r⟩, hw, hr⟩ := Option.bind_eq_some_iff.mp h
  obtain ⟨-, hsome⟩ := Option.ite_none_right_eq_some.mp hr
  obtain rfl : w = j := Option.some.inj hsome
  rw [← List.append_nil ((Json.arr xs).inspect printable)] at hw
  exact (parseValue_arr_readsTo printable (fun x _ => hR x) (by simp) hw).1

/-- **Decoding an inspected array** gives, if anything, an array of the same length and kinds. -/
theorem parseText_inspect_alike {xs : List Json} {j : Json}
    (h : Json.parseText ((Json.arr xs).inspect printable) = some j) :
    ∃ ys, j = .arr ys ∧ List.Forall₂ Json.Alike xs ys :=
  parseText_inspect_readsTo printable (readsAlike printable) h

/-! ### Which elements are read back -/

/-- The same value is read exactly if it is readable. -/
def Json.ReadExactly (x y : Json) : Prop := x = y ↔ x.readable printable = true

theorem eq_iff_of_forall₂ {xs ys : List Json} (h : List.Forall₂ (Json.ReadExactly printable) xs ys) :
    xs = ys ↔ ∀ x ∈ xs, x.readable printable = true := by
  induction h with
  | nil => simp
  | cons hxy _ ih =>
    rw [List.cons.injEq, List.forall_mem_cons]
    exact and_congr hxy ih

/-- **The parser reads back what is readable, and nothing else.** -/
theorem readsExactly (v : Json) : ReadsTo printable (Json.ReadExactly printable) v := by
  refine readsTo_of printable (fun x hread => iff_of_true rfl hread) (fun s cs hcs => ?_) (fun xs ys hall => ?_) v
  · -- the characters of a readable string are those that were read
    rw [Json.ReadExactly, Json.readable, List.all_eq_true, ← unescape_inspectBody printable s.toList, hcs,
      Option.some_inj, Json.str.injEq]
    exact ⟨fun h => by rw [h, String.toList_ofList], fun h => by rw [h, String.ofList_toList]⟩
  · rw [Json.ReadExactly, Json.arr.injEq, eq_iff_of_forall₂ printable hall, Json.readable, readableElems_iff]

end RoundTrip

end Curarium
