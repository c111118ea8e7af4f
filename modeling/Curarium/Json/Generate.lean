import Curarium.Json.RoundTrip

/-!
# `to_json`, and reading it again

An uploaded record is parsed and printed again before it is stored: `JSON.parse( json_str ).to_json`
checks the text and takes the white space out of it. ActiveSupport 4.1 prints with the json gem, with two
changes of its own: what has a meaning on a page is escaped, and an infinity, which is what a literal that
is too large is read as, is printed as `null`.

* `Json.toJson` is `to_json` on what `JSON.parse` builds.
* `wellFormed_and_depth_of_parse` — what is accepted has no member twice and nests no deeper than the
  parser goes.
* `parse_toJson` — so what was read from one text is read from the printed text again, with `nil` for the
  infinities (`Json.settle`); `parse_toJson_iff` says when it is the same value.
* `toJson_settle` — printed a second time, it is the same text.
-/

namespace Curarium

/-! ### Printing -/

/-- The escape of a code point, as the json gem writes it. -/
def lowerHex4 (n : Nat) : List Char :=
  [Nat.digitChar (n / 4096 % 16), Nat.digitChar (n / 256 % 16), Nat.digitChar (n / 16 % 16),
    Nat.digitChar (n % 16)]

/-- The letter of a short escape. -/
def shortEscape (c : Char) : Option Char :=
  if c = '\x08' then some 'b'
  else if c = '\t' then some 't'
  else if c = '\n' then some 'n'
  else if c = '\x0C' then some 'f'
  else if c = '\r' then some 'r'
  else none

/-- `ESCAPED_CHARS` of ActiveSupport. -/
def escapedForPages (c : Char) : Bool :=
  c == '\u2028' || c == '\u2029' || c == '>' || c == '<' || c == '&'

/-- One character of a string. -/
def generateChar (c : Char) : List Char :=
  if c = '"' ∨ c = '\\' then ['\\', c]
  else match shortEscape c with
    | some l => ['\\', l]
    | none =>
      if c.toNat < 0x20 ∨ escapedForPages c = true then '\\' :: 'u' :: lowerHex4 c.toNat else [c]

def generateStr (cs : List Char) : List Char := '"' :: (cs.flatMap generateChar ++ ['"'])

mutual
/-- `to_json`, as characters. -/
def Json.generate : Json → List Char
  | .null => "null".toList
  | .bool b => if b then "true".toList else "false".toList
  | .int z => Ruby.toS z
  | .float (.finite d) => d.toS
  | .float (.infinite _) => "null".toList
  | .str s => generateStr s.toList
  | .arr [] => ['[', ']']
  | .arr (x :: xs) => '[' :: (Json.generate x ++ generateElems xs)
  | .obj [] => ['\x7b', '\x7d']
  | .obj ((k, x) :: ms) =>
    '\x7b' :: (generateStr k.toList ++ ':' :: (Json.generate x ++ generateMembers ms))

/-- The elements of an array after the first, and the closing bracket. -/
def generateElems : List Json → List Char
  | [] => [']']
  | x :: xs => ',' :: (Json.generate x ++ generateElems xs)

/-- The members of a hash after the first, and the closing brace. -/
def generateMembers : List (String × Json) → List Char
  | [] => ['\x7d']
  | (k, x) :: ms => ',' :: (generateStr k.toList ++ ':' :: (Json.generate x ++ generateMembers ms))
end

/-- `to_json` -/
def Json.toJson (j : Json) : String := String.ofList j.generate

/-! ### Infinities -/

mutual
/-- The value with `nil` for an infinity, which is what `as_json` makes of it. -/
def Json.settle : Json → Json
  | .float (.infinite _) => .null
  | .arr xs => .arr (settleElems xs)
  | .obj ms => .obj (settleMembers ms)
  | j => j

def settleElems : List Json → List Json
  | [] => []
  | x :: xs => Json.settle x :: settleElems xs

def settleMembers : List (String × Json) → List (String × Json)
  | [] => []
  | (k, x) :: ms => (k, Json.settle x) :: settleMembers ms
end

mutual
/-- No number of the value is infinite. -/
def Json.isFinite : Json → Bool
  | .float (.infinite _) => false
  | .arr xs => finiteElems xs
  | .obj ms => finiteMembers ms
  | _ => true

def finiteElems : List Json → Bool
  | [] => true
  | x :: xs => Json.isFinite x && finiteElems xs

def finiteMembers : List (String × Json) → Bool
  | [] => true
  | (_, x) :: ms => Json.isFinite x && finiteMembers ms
end

theorem settleElems_eq (xs : List Json) : settleElems xs = xs.map Json.settle := by
  induction xs with
  | nil => rfl
  | cons x xs ih => rw [settleElems, ih, List.map_cons]

theorem settleMembers_eq (ms : List (String × Json)) :
    settleMembers ms = ms.map fun m => (m.1, m.2.settle) := by
  induction ms with
  | nil => rfl
  | cons m ms ih => rw [settleMembers, ih, List.map_cons]

theorem finiteElems_iff (xs : List Json) : finiteElems xs = true ↔ ∀ x ∈ xs, x.isFinite = true := by
  induction xs with
  | nil => simp [finiteElems]
  | cons x xs ih => simp [finiteElems, ih]

theorem finiteMembers_iff (ms : List (String × Json)) :
    finiteMembers ms = true ↔ ∀ m ∈ ms, m.2.isFinite = true := by
  induction ms with
  | nil => simp [finiteMembers]
  | cons m ms ih => simp [finiteMembers, ih]

/-- **A value is left as it is** exactly if it has no infinity. -/
theorem settle_eq_iff (j : Json) : j.settle = j ↔ j.isFinite = true := by
  induction j using Json.induction with
  | null => exact iff_of_true rfl rfl
  | bool b => exact iff_of_true rfl rfl
  | int z => exact iff_of_true rfl rfl
  | float f =>
    cases f with
    | finite d => exact iff_of_true rfl rfl
    | infinite neg => exact iff_of_false (fun h => Json.noConfusion h) Bool.false_ne_true
  | str s => exact iff_of_true rfl rfl
  | arr xs ih =>
    rw [Json.settle, Json.arr.injEq, settleElems_eq, Json.isFinite, finiteElems_iff]
    refine Iff.trans ?_ (forall₂_congr ih)
    exact ⟨fun h x hx => List.map_inj_left.mp (h.trans (List.map_id xs).symm) x hx,
      fun h => (List.map_congr_left h).trans (List.map_id xs)⟩
  | obj ms ih =>
    rw [Json.settle, Json.obj.injEq, settleMembers_eq, Json.isFinite, finiteMembers_iff]
    refine Iff.trans ?_ (forall₂_congr ih)
    have hpair : ∀ m : String × Json, (m.1, m.2.settle) = m ↔ m.2.settle = m.2 := fun m =>
      ⟨fun h => congrArg Prod.snd h, fun h => Prod.ext rfl h⟩
    exact ⟨fun h m hm => (hpair m).mp (List.map_inj_left.mp (h.trans (List.map_id ms).symm) m hm),
      fun h => (List.map_congr_left fun m hm => (hpair m).mpr (h m hm)).trans (List.map_id ms)⟩

/-! ### A printed string is read back -/

theorem isPlain_digitChar {n : Nat} (h : n < 16) : IsPlain (Nat.digitChar n) := by
  have hall : ∀ m, m < 16 → 0x20 ≤ (Nat.digitChar m).toNat ∧ Nat.digitChar m ≠ '"' ∧
      Nat.digitChar m ≠ '\\' := by
    decide
  exact hall n h

theorem hexVal_digitChar {n : Nat} (h : n < 16) : hexVal (Nat.digitChar n) = some n := by
  have hall : ∀ m, m < 16 → hexVal (Nat.digitChar m) = some m := by decide
  exact hall n h

theorem unescapeUnicode_lowerHex4 {n : Nat} (h : n < 0x10000) :
    unescapeUnicode (Nat.digitChar (n / 4096 % 16)) (Nat.digitChar (n / 256 % 16))
      (Nat.digitChar (n / 16 % 16)) (Nat.digitChar (n % 16)) = n := by
  unfold unescapeUnicode
  rw [hexVal_digitChar (by omega), hexVal_digitChar (by omega), hexVal_digitChar (by omega),
    hexVal_digitChar (by omega)]
  show ((n / 4096 % 16 * 16 + n / 256 % 16) * 16 + n / 16 % 16) * 16 + n % 16 = n
  omega

/-- The letters of the short escapes, and what the parser makes of them. -/
theorem shortEscape_cases {c l : Char} (h : shortEscape c = some l) :
    (c = '\x08' ∧ l = 'b') ∨ (c = '\t' ∧ l = 't') ∨ (c = '\n' ∧ l = 'n') ∨ (c = '\x0C' ∧ l = 'f') ∨
      (c = '\r' ∧ l = 'r') := by
  unfold shortEscape at h
  split_ifs at h <;> grind

/-- What ActiveSupport escapes is in the basic plane. -/
theorem lt_of_escapedForPages {c : Char} (h : c.toNat < 0x20 ∨ escapedForPages c = true) :
    c.toNat < 0x10000 := by
  rcases h with h | h
  · omega
  · simp only [escapedForPages, Bool.or_eq_true, beq_iff_eq] at h
    rcases h with (((rfl | rfl) | rfl) | rfl) | rfl <;> decide

theorem scanString_generateChar (c : Char) (t : List Char) :
    scanString (generateChar c ++ t) = (scanString t).map fun r => (generateChar c ++ r.1, r.2) := by
  unfold generateChar
  split
  case isTrue h =>
    refine scanString_escape ?_ t
    rcases h with rfl | rfl <;> decide
  case isFalse h =>
    split
    case h_1 l hl =>
      refine scanString_escape ?_ t
      rcases shortEscape_cases hl with ⟨-, rfl⟩ | ⟨-, rfl⟩ | ⟨-, rfl⟩ | ⟨-, rfl⟩ | ⟨-, rfl⟩ <;> decide
    case h_2 =>
      split
      case isTrue =>
        -- the digits stand for themselves
        have hplain : ∀ d ∈ lowerHex4 c.toNat, IsPlain d := by
          intro d hd
          simp only [lowerHex4, List.mem_cons, List.not_mem_nil, or_false] at hd
          rcases hd with rfl | rfl | rfl | rfl <;> exact isPlain_digitChar (by omega)
        rw [List.cons_append, List.cons_append, scanString_escape (by decide), scanString_plains hplain,
          Option.map_map]
        rfl
      case isFalse hout =>
        push Not at h hout
        exact scanString_plain ⟨hout.1, h.1, h.2⟩ t

theorem unescape_generateChar (c : Char) (t : List Char) :
    unescape (generateChar c ++ t) = (unescape t).map (c :: ·) := by
  unfold generateChar
  split
  case isTrue h => rcases h with rfl | rfl <;> rfl
  case isFalse h =>
    split
    case h_1 l hl =>
      rcases shortEscape_cases hl with ⟨rfl, rfl⟩ | ⟨rfl, rfl⟩ | ⟨rfl, rfl⟩ | ⟨rfl, rfl⟩ | ⟨rfl, rfl⟩ <;> rfl
    case h_2 =>
      split
      case isTrue hin =>
        obtain ⟨hhi, hlo⟩ := toNat_not_surrogate c
        have hval := unescapeUnicode_lowerHex4 (lt_of_escapedForPages hin)
        show unescape ('\\' :: 'u' :: Nat.digitChar (c.toNat / 4096 % 16) ::
          Nat.digitChar (c.toNat / 256 % 16) :: Nat.digitChar (c.toNat / 16 % 16) ::
          Nat.digitChar (c.toNat % 16) :: t) = _
        rw [unescape_unicode (by rwa [hval]) (by rwa [hval]), hval, Char.ofNat_toNat]
      case isFalse => exact unescape_plain (fun hb => h (.inr hb)) t

theorem scanString_generateChars (cs rest : List Char) :
    scanString (cs.flatMap generateChar ++ '"' :: rest) = some (cs.flatMap generateChar, rest) := by
  induction cs with
  | nil => rw [List.flatMap_nil, List.nil_append, scanString]
  | cons c cs ih =>
    rw [List.flatMap_cons, List.append_assoc, scanString_generateChar, ih]
    rfl

theorem unescape_generateChars (cs : List Char) : unescape (cs.flatMap generateChar) = some cs := by
  induction cs with
  | nil => rfl
  | cons c cs ih => rw [List.flatMap_cons, unescape_generateChar, ih, Option.map_some]

/-- **A printed string is read back**, whatever follows its closing quote. -/
theorem parseString_generateStr (cs rest : List Char) :
    parseString (cs.flatMap generateChar ++ '"' :: rest) = some (cs, rest) := by
  unfold parseString
  rw [scanString_generateChars]
  show (unescape (cs.flatMap generateChar)).map _ = _
  rw [unescape_generateChars, Option.map_some]

theorem generateStr_append (cs rest : List Char) :
    generateStr cs ++ rest = '"' :: (cs.flatMap generateChar ++ '"' :: rest) := by
  simp [generateStr]

/-! ### Distinct names -/

theorem setMember_append {ms : List (String × Json)} {k : String} (h : k ∉ ms.map Prod.fst) (v : Json) :
    setMember ms k v = ms ++ [(k, v)] := by
  induction ms with
  | nil => rfl
  | cons m ms ih =>
    rw [List.map_cons, List.mem_cons, not_or] at h
    rw [setMember, if_neg (Ne.symm h.1), ih h.2, List.cons_append]

/-- Members that have distinct names are all there, in their order. -/
theorem membersOf_of_nodup {ms : List (String × Json)} (h : (ms.map Prod.fst).Nodup) :
    membersOf ms = ms := by
  have hfold : ∀ acc : List (String × Json), ((acc ++ ms).map Prod.fst).Nodup →
      ms.foldl (fun acc m => setMember acc m.1 m.2) acc = acc ++ ms := by
    clear h
    induction ms with
    | nil => exact fun acc _ => (List.append_nil acc).symm
    | cons m ms ih =>
      intro acc hnd
      have hfresh : m.1 ∉ acc.map Prod.fst := by
        rw [List.map_append, List.map_cons, List.nodup_append] at hnd
        exact fun hm => hnd.2.2 _ hm _ List.mem_cons_self rfl
      rw [List.foldl_cons, setMember_append hfresh, ih]
      · rw [List.append_assoc, List.singleton_append]
      · rwa [List.append_assoc, List.singleton_append]
  exact hfold [] h

/-! ### The text around a value -/

/-- The first character of a printed value. -/
theorem generate_head (v : Json) : ∃ c cs, v.generate = c :: cs ∧ StartsToken c := by
  have hdigits : ∀ n, ∃ c cs, Nat.toDigits 10 n = c :: cs ∧ c.isDigit = true := fun n =>
    (isIntPart_toDigits n).head
  cases v with
  | null => exact ⟨'n', "ull".toList, rfl, by unfold StartsToken; decide⟩
  | bool b =>
    cases b with
    | true => exact ⟨'t', "rue".toList, rfl, by unfold StartsToken; decide⟩
    | false => exact ⟨'f', "alse".toList, rfl, by unfold StartsToken; decide⟩
  | int z =>
    obtain ⟨c, cs, hcs, hc⟩ := inspect_head (fun _ => true) (.int z)
    exact ⟨c, cs, hcs, hc⟩
  | float f =>
    cases f with
    | infinite neg => exact ⟨'n', "ull".toList, rfl, by unfold StartsToken; decide⟩
    | finite d =>
      obtain ⟨c, cs, hcs, hc⟩ := inspect_head (fun _ => true) (.float (.finite d))
      exact ⟨c, cs, hcs, hc⟩
  | str s => exact ⟨'"', _, rfl, by unfold StartsToken; decide⟩
  | arr xs => cases xs <;> rw [Json.generate] <;> exact ⟨'[', _, rfl, by unfold StartsToken; decide⟩
  | obj ms => cases ms <;> rw [Json.generate] <;> exact ⟨'\x7b', _, rfl, by unfold StartsToken; decide⟩

theorem ignore_generate (v : Json) (rest : List Char) :
    ignore .plain (v.generate ++ rest) = some (v.generate ++ rest) := by
  obtain ⟨c, cs, hcs, hc⟩ := generate_head v
  rw [hcs]
  exact ignore_of_startsToken hc (cs ++ rest)

theorem generate_length_pos (v : Json) : 0 < v.generate.length := by
  obtain ⟨c, cs, hcs, -⟩ := generate_head v
  rw [hcs]
  exact Nat.succ_pos _

theorem endsFloat_generateElems (xs : List Json) (rest : List Char) :
    endsFloat (generateElems xs ++ rest) = true := by
  cases xs <;> rw [generateElems] <;> rfl

theorem endsFloat_generateMembers (ms : List (String × Json)) (rest : List Char) :
    endsFloat (generateMembers ms ++ rest) = true := by
  cases ms <;> rw [generateMembers] <;> rfl

/-- Reading a non-empty array: its first element, then the others. -/
theorem parseValue_generate_arr (x : Json) (xs : List Json) (fuel depth : Nat) (rest : List Char)
    (hd : depth < maxNesting) :
    parseValue (fuel + 1) depth ((Json.arr (x :: xs)).generate ++ rest) =
      (parseValue fuel (depth + 1) (x.generate ++ (generateElems xs ++ rest))).bind fun p =>
        (parseElems fuel (depth + 1) p.2).map fun r => (.arr (p.1 :: r.1), r.2) := by
  obtain ⟨c, cs, hcs, hc⟩ := generate_head x
  have hbr : c ≠ ']' := hc.2.2.2.2.2
  rw [Json.generate, List.cons_append, parseValue, if_neg (by omega), List.append_assoc, ignore_generate]
  split
  case h_1 heq =>
    rw [hcs] at heq
    exact absurd (List.cons.inj (Option.some.inj heq)).1 hbr
  case h_2 heq => rw [← Option.some.inj heq]
  case h_3 heq => exact absurd heq (by simp)

/-- Reading one element more. -/
theorem parseElems_generate_cons (x : Json) (xs : List Json) (fuel depth : Nat) (rest : List Char) :
    parseElems (fuel + 1) depth (generateElems (x :: xs) ++ rest) =
      (parseValue fuel depth (x.generate ++ (generateElems xs ++ rest))).bind fun p =>
        (parseElems fuel depth p.2).map fun r => (p.1 :: r.1, r.2) := by
  have hcomma : ∀ t, ignore .plain (',' :: t) = some (',' :: t) := fun t =>
    ignore_of_startsToken (by unfold StartsToken; decide) t
  rw [generateElems, List.cons_append, List.append_assoc, parseElems, hcomma]
  simp only [ignore_generate, Option.bind_some]

/-- Reading a name and a value. -/
theorem parsePair_generate (k : String) (x : Json) (fuel depth : Nat) (rest : List Char) :
    parsePair (fuel + 1) depth (generateStr k.toList ++ ':' :: (x.generate ++ rest)) =
      (parseValue fuel depth (x.generate ++ rest)).map fun r => ((k, r.1), r.2) := by
  have hcolon : ∀ t, ignore .plain (':' :: t) = some (':' :: t) := fun t =>
    ignore_of_startsToken (by unfold StartsToken; decide) t
  rw [generateStr_append, parsePair, parseString_generateStr]
  simp only [hcolon, ignore_generate, Option.bind_some, String.ofList_toList]

/-- Reading a non-empty hash: its first member, then the others. -/
theorem parseValue_generate_obj (k : String) (x : Json) (ms : List (String × Json)) (fuel depth : Nat)
    (rest : List Char) (hd : depth < maxNesting) :
    parseValue (fuel + 2) depth ((Json.obj ((k, x) :: ms)).generate ++ rest) =
      (parseValue fuel (depth + 1) (x.generate ++ (generateMembers ms ++ rest))).bind fun p =>
        (parseMembers (fuel + 1) (depth + 1) p.2).map fun r => (.obj (membersOf ((k, p.1) :: r.1)), r.2) := by
  have hquote : ∀ t, ignore .plain (generateStr k.toList ++ t) = some (generateStr k.toList ++ t) := fun t =>
    ignore_of_startsToken (c := '"') (by unfold StartsToken; decide) _
  rw [Json.generate, List.cons_append, parseValue, if_neg (by omega), List.append_assoc, hquote]
  split
  case h_1 heq => exact absurd (List.cons.inj (Option.some.inj heq)).1 (by decide)
  case h_2 heq =>
    rw [← Option.some.inj heq, List.cons_append, List.append_assoc, parsePair_generate, Option.bind_map]
    rfl
  case h_3 heq => exact absurd heq (by simp)

/-- Reading one member more. -/
theorem parseMembers_generate_cons (k : String) (x : Json) (ms : List (String × Json)) (fuel depth : Nat)
    (rest : List Char) :
    parseMembers (fuel + 2) depth (generateMembers ((k, x) :: ms) ++ rest) =
      (parseValue fuel depth (x.generate ++ (generateMembers ms ++ rest))).bind fun p =>
        (parseMembers (fuel + 1) depth p.2).map fun r => ((k, p.1) :: r.1, r.2) := by
  have hcomma : ∀ t, ignore .plain (',' :: t) = some (',' :: t) := fun t =>
    ignore_of_startsToken (by unfold StartsToken; decide) t
  have hquote : ∀ t, ignore .plain (generateStr k.toList ++ t) = some (generateStr k.toList ++ t) := fun t =>
    ignore_of_startsToken (c := '"') (by unfold StartsToken; decide) _
  rw [generateMembers, List.cons_append, List.append_assoc, parseMembers, hcomma]
  simp only [hquote, Option.bind_some]
  rw [List.cons_append, List.append_assoc, parsePair_generate, Option.bind_map]
  rfl

/-! ### A printed value is read back -/

/-- The statement of the induction: the value is read off the front of any text that goes on with nothing
that belongs to a number. -/
def Json.ReadsSettled (v : Json) : Prop :=
  ∀ fuel depth rest, endsFloat rest = true → v.generate.length ≤ fuel → v.wellFormed = true →
    depth + v.depth ≤ maxNesting → parseValue fuel depth (v.generate ++ rest) = some (v.settle, rest)

theorem parseElems_generate {xs : List Json} (hxs : ∀ x ∈ xs, x.ReadsSettled) :
    ∀ fuel depth rest, (generateElems xs).length ≤ fuel → Json.wellFormedElems xs = true →
      depth + depthElems xs ≤ maxNesting →
      parseElems fuel depth (generateElems xs ++ rest) = some (settleElems xs, rest) := by
  induction xs with
  | nil =>
    intro fuel depth rest hfuel _ _
    obtain ⟨n, rfl⟩ : ∃ n, fuel = n + 1 := ⟨fuel - 1, by simp [generateElems] at hfuel; omega⟩
    rw [generateElems, List.cons_append, parseElems, settleElems]
    simp [ignore]
  | cons x xs ih =>
    intro fuel depth rest hfuel hwf hdepth
    have hlen : (generateElems (x :: xs)).length = x.generate.length + (generateElems xs).length + 1 := by
      simp [generateElems]
    obtain ⟨n, rfl⟩ : ∃ n, fuel = n + 1 := ⟨fuel - 1, by omega⟩
    rw [Json.wellFormedElems, Bool.and_eq_true] at hwf
    rw [depthElems] at hdepth
    have hx := hxs x (by simp) n depth (generateElems xs ++ rest) (endsFloat_generateElems xs rest) (by omega)
      hwf.1 (by omega)
    have htail := ih (fun y hy => hxs y (by simp [hy])) n depth rest (by omega) hwf.2 (by omega)
    rw [parseElems_generate_cons, hx, Option.bind_some, htail, Option.map_some, settleElems]

theorem parseMembers_generate {ms : List (String × Json)} (hms : ∀ m ∈ ms, m.2.ReadsSettled) :
    ∀ fuel depth rest, (generateMembers ms).length ≤ fuel → Json.wellFormedMembers ms = true →
      depth + depthMembers ms ≤ maxNesting →
      parseMembers fuel depth (generateMembers ms ++ rest) = some (settleMembers ms, rest) := by
  induction ms with
  | nil =>
    intro fuel depth rest hfuel _ _
    obtain ⟨n, rfl⟩ : ∃ n, fuel = n + 1 := ⟨fuel - 1, by simp [generateMembers] at hfuel; omega⟩
    rw [generateMembers, List.cons_append, parseMembers, settleMembers]
    simp [ignore]
  | cons m ms ih =>
    obtain ⟨k, x⟩ := m
    intro fuel depth rest hfuel hwf hdepth
    -- the name has its quotes, and a comma and a colon stand around it
    have hlen : x.generate.length + (generateMembers ms).length + 4 ≤ (generateMembers ((k, x) :: ms)).length := by
      simp [generateMembers, generateStr]
    obtain ⟨n, rfl⟩ : ∃ n, fuel = n + 2 := ⟨fuel - 2, by omega⟩
    rw [Json.wellFormedMembers, Bool.and_eq_true] at hwf
    rw [depthMembers] at hdepth
    have hread : x.ReadsSettled := hms (k, x) (by simp)
    have hx := hread n depth (generateMembers ms ++ rest) (endsFloat_generateMembers ms rest) (by omega) hwf.1
      (by omega)
    have htail := ih (fun y hy => hms y (by simp [hy])) (n + 1) depth rest (by omega) hwf.2 (by omega)
    rw [parseMembers_generate_cons, hx, Option.bind_some, htail, Option.map_some, settleMembers]

theorem settleMembers_fst (ms : List (String × Json)) :
    (settleMembers ms).map Prod.fst = ms.map Prod.fst := by
  rw [settleMembers_eq, List.map_map]
  rfl

theorem readsSettled (v : Json) : v.ReadsSettled := by
  -- there is fuel for one step, since no text is empty
  have hsucc : ∀ {v : Json} {fuel : Nat}, v.generate.length ≤ fuel → ∃ n, fuel = n + 1 := fun {v fuel} h =>
    ⟨fuel - 1, by have := generate_length_pos v; omega⟩
  induction v using Json.induction with
  | null =>
    intro fuel depth rest _ hfuel _ _
    obtain ⟨n, rfl⟩ := hsucc hfuel
    simp [Json.generate, Json.settle, parseValue]
  | bool b =>
    intro fuel depth rest _ hfuel _ _
    obtain ⟨n, rfl⟩ := hsucc hfuel
    cases b <;> simp [Json.generate, Json.settle, parseValue]
  | int z =>
    intro fuel depth rest hr hfuel _ _
    obtain ⟨n, rfl⟩ := hsucc hfuel
    rw [Json.generate, parseValue_int, parseNumber_toS z hr]
    rfl
  | float f =>
    intro fuel depth rest hr hfuel _ _
    obtain ⟨n, rfl⟩ := hsucc hfuel
    cases f with
    | finite d =>
      rw [Json.generate]
      exact (parseValue_float (.finite d) n depth rest).trans (parseNumber_decimal d hr)
    | infinite neg => simp [Json.generate, Json.settle, parseValue]
  | str s =>
    intro fuel depth rest _ hfuel _ _
    obtain ⟨n, rfl⟩ := hsucc hfuel
    rw [Json.generate, generateStr_append, parseValue, parseString_generateStr, Option.map_some,
      String.ofList_toList]
    rfl
  | arr xs ih =>
    intro fuel depth rest _ hfuel hwf hdepth
    obtain ⟨n, rfl⟩ := hsucc hfuel
    rw [Json.wellFormed] at hwf
    rw [Json.depth] at hdepth
    cases xs with
    | nil => simp [Json.generate, Json.settle, settleElems, parseValue, ignore, show ¬maxNesting ≤ depth by omega]
    | cons x xs =>
      have hlen : (Json.arr (x :: xs)).generate.length = x.generate.length + (generateElems xs).length + 1 := by
        simp [Json.generate]
      rw [Json.wellFormedElems, Bool.and_eq_true] at hwf
      rw [depthElems] at hdepth
      have hx := ih x (by simp) n (depth + 1) (generateElems xs ++ rest) (endsFloat_generateElems xs rest)
        (by omega) hwf.1 (by omega)
      have htail := parseElems_generate (fun y hy => ih y (by simp [hy])) n (depth + 1) rest (by omega) hwf.2
        (by omega)
      rw [parseValue_generate_arr x xs n depth rest (by omega), hx, Option.bind_some, htail, Option.map_some,
        Json.settle, settleElems]
  | obj ms ih =>
    intro fuel depth rest _ hfuel hwf hdepth
    rw [Json.wellFormed, Bool.and_eq_true, decide_eq_true_eq] at hwf
    rw [Json.depth] at hdepth
    cases ms with
    | nil =>
      obtain ⟨n, rfl⟩ := hsucc hfuel
      simp [Json.generate, Json.settle, settleMembers, parseValue, ignore, show ¬maxNesting ≤ depth by omega]
    | cons m ms =>
      obtain ⟨k, x⟩ := m
      have hlen : x.generate.length + (generateMembers ms).length + 4 ≤ (Json.obj ((k, x) :: ms)).generate.length := by
        simp [Json.generate, generateStr]
      obtain ⟨n, rfl⟩ : ∃ n, fuel = n + 2 := ⟨fuel - 2, by omega⟩
      obtain ⟨hnd, hall⟩ := hwf
      rw [Json.wellFormedMembers, Bool.and_eq_true] at hall
      rw [depthMembers] at hdepth
      have hread : x.ReadsSettled := ih (k, x) (by simp)
      have hx := hread n (depth + 1) (generateMembers ms ++ rest) (endsFloat_generateMembers ms rest) (by omega)
        hall.1 (by omega)
      have htail := parseMembers_generate (fun y hy => ih y (by simp [hy])) (n + 1) (depth + 1) rest (by omega)
        hall.2 (by omega)
      -- a hash has no name twice, so its members are read as they are
      have hmembers : membersOf (settleMembers ((k, x) :: ms)) = settleMembers ((k, x) :: ms) :=
        membersOf_of_nodup (by rwa [settleMembers_fst])
      rw [parseValue_generate_obj k x ms n depth rest (by omega), hx, Option.bind_some, htail, Option.map_some]
      show some (Json.obj (membersOf (settleMembers ((k, x) :: ms))), rest) = _
      rw [hmembers]
      rfl

/-! ### What the parser accepts -/

/-- A value the parser may build inside `depth` containers. -/
def Json.Fits (depth : Nat) (j : Json) : Prop :=
  j.wellFormed = true ∧ (depth ≤ maxNesting → depth + j.depth ≤ maxNesting)

theorem depthElems_le_iff {xs : List Json} {n : Nat} : depthElems xs ≤ n ↔ ∀ x ∈ xs, x.depth ≤ n := by
  induction xs with
  | nil => simp [depthElems]
  | cons x xs ih => rw [depthElems, max_le_iff, List.forall_mem_cons, ih]

theorem depthMembers_le_iff {ms : List (String × Json)} {n : Nat} :
    depthMembers ms ≤ n ↔ ∀ m ∈ ms, m.2.depth ≤ n := by
  induction ms with
  | nil => simp [depthMembers]
  | cons m ms ih => rw [depthMembers, max_le_iff, List.forall_mem_cons, ih]

theorem fst_setMember (ms : List (String × Json)) (k : String) (v : Json) :
    (setMember ms k v).map Prod.fst = if k ∈ ms.map Prod.fst then ms.map Prod.fst
      else ms.map Prod.fst ++ [k] := by
  induction ms with
  | nil => rfl
  | cons m ms ih =>
    rw [setMember]
    by_cases h : m.1 = k
    · simp [h]
    · rw [if_neg h, List.map_cons, ih]
      by_cases hk : k ∈ ms.map Prod.fst
      · rw [if_pos hk, if_pos (by simp [hk])]
        rfl
      · rw [if_neg hk, if_neg (by simpa [Ne.symm h] using hk)]
        rfl

/-- The members of a hash come from those that were read, and no two have one name. -/
theorem membersOf_nodup_and_mem (ms : List (String × Json)) :
    ((membersOf ms).map Prod.fst).Nodup ∧ ∀ m ∈ membersOf ms, ∃ m' ∈ ms, m'.2 = m.2 := by
  have hset : ∀ (acc : List (String × Json)) (k : String) (v : Json), ∀ m ∈ setMember acc k v,
      m.2 = v ∨ m ∈ acc := by
    intro acc k v
    induction acc with
    | nil => exact fun m hm => .inl (congrArg Prod.snd (List.mem_singleton.mp hm))
    | cons a acc ih =>
      intro m hm
      rw [setMember] at hm
      split at hm
      · rcases List.mem_cons.mp hm with rfl | hm
        · exact .inl rfl
        · exact .inr (List.mem_cons_of_mem _ hm)
      · rcases List.mem_cons.mp hm with rfl | hm
        · exact .inr List.mem_cons_self
        · exact (ih m hm).imp_right (List.mem_cons_of_mem _)
  -- what holds of the accumulator holds of the result
  have hfold : ∀ (l acc : List (String × Json)), (acc.map Prod.fst).Nodup →
      (∀ m ∈ acc, ∃ m' ∈ ms, m'.2 = m.2) → l ⊆ ms →
      ((l.foldl (fun acc m => setMember acc m.1 m.2) acc).map Prod.fst).Nodup ∧
        ∀ m ∈ l.foldl (fun acc m => setMember acc m.1 m.2) acc, ∃ m' ∈ ms, m'.2 = m.2 := by
    intro l
    induction l with
    | nil => exact fun acc hnd hmem _ => ⟨hnd, hmem⟩
    | cons a l ih =>
      intro acc hnd hmem hsub
      refine ih _ ?_ ?_ (fun m hm => hsub (List.mem_cons_of_mem a hm))
      · rw [fst_setMember]
        split
        case isTrue => exact hnd
        case isFalse hk => exact List.nodup_append.mpr ⟨hnd, by simp, by grind⟩
      · intro m hm
        rcases hset acc a.1 a.2 m hm with h | h
        · exact ⟨a, hsub List.mem_cons_self, h.symm⟩
        · exact hmem m h
  exact hfold ms [] List.nodup_nil (fun m hm => absurd hm List.not_mem_nil) (List.Subset.refl ms)

theorem fits_arr {depth : Nat} {xs : List Json} (hd : depth < maxNesting) (h : ∀ x ∈ xs, x.Fits (depth + 1)) :
    (Json.arr xs).Fits depth := by
  refine ⟨(Json.wellFormedElems_iff xs).mpr fun x hx => (h x hx).1, fun _ => ?_⟩
  have hle : depthElems xs ≤ maxNesting - (depth + 1) :=
    depthElems_le_iff.mpr fun x hx => by have := (h x hx).2 (by omega); omega
  show depth + (depthElems xs + 1) ≤ maxNesting
  omega

theorem fits_obj {depth : Nat} {ms : List (String × Json)} (hd : depth < maxNesting)
    (h : ∀ m ∈ ms, m.2.Fits (depth + 1)) : (Json.obj (membersOf ms)).Fits depth := by
  obtain ⟨hnd, hmem⟩ := membersOf_nodup_and_mem ms
  have hfits : ∀ m ∈ membersOf ms, m.2.Fits (depth + 1) := by
    intro m hm
    obtain ⟨m', hm', heq⟩ := hmem m hm
    exact heq ▸ h m' hm'
  refine ⟨?_, fun _ => ?_⟩
  · rw [Json.wellFormed, Bool.and_eq_true, decide_eq_true_eq, Json.wellFormedMembers_iff]
    exact ⟨hnd, fun m hm => (hfits m hm).1⟩
  · have hle : depthMembers (membersOf ms) ≤ maxNesting - (depth + 1) :=
      depthMembers_le_iff.mpr fun m hm => by have := (hfits m hm).2 (by omega); omega
    show depth + (depthMembers (membersOf ms) + 1) ≤ maxNesting
    omega

/-- A value that holds no others fits at any depth. -/
theorem fits_leaf {depth : Nat} {j : Json} (hwf : j.wellFormed = true) (hd : j.depth = 0) : j.Fits depth :=
  ⟨hwf, fun h => by omega⟩

theorem fits_of_numberAfter {neg : Bool} {ds rest r : List Char} {j : Json} {depth : Nat}
    (h : numberAfter neg ds rest = some (j, r)) : j.Fits depth := by
  unfold numberAfter at h
  split at h
  · obtain rfl := (Prod.mk.inj (Option.some.inj h)).1
    exact fits_leaf rfl rfl
  · split at h
    · exact absurd h (by simp)
    · obtain rfl := (Prod.mk.inj (Option.some.inj h)).1
      exact fits_leaf rfl rfl

theorem fits_of_parseNumber {cs r : List Char} {j : Json} {depth : Nat} (h : parseNumber cs = some (j, r)) :
    j.Fits depth := by
  unfold parseNumber at h
  dsimp only at h
  split at h
  · exact absurd h (by simp)
  · exact fits_of_numberAfter h

/-- **What the parser builds inside some containers fits there.** -/
theorem fits_of_parse (fuel : Nat) :
    (∀ depth cs j r, parseValue fuel depth cs = some (j, r) → j.Fits depth) ∧
    (∀ depth cs xs r, parseElems fuel depth cs = some (xs, r) → ∀ x ∈ xs, x.Fits depth) ∧
    (∀ depth cs m r, parsePair fuel depth cs = some (m, r) → m.2.Fits depth) ∧
    (∀ depth cs ms r, parseMembers fuel depth cs = some (ms, r) → ∀ m ∈ ms, m.2.Fits depth) := by
  induction fuel with
  | zero => simp [parseValue, parseElems, parsePair, parseMembers]
  | succ fuel ih =>
    obtain ⟨hvalue, helems, hpair, hmembers⟩ := ih
    refine ⟨fun depth cs j r h => ?_, fun depth cs xs r h => ?_, fun depth cs m r h => ?_,
      fun depth cs ms r h => ?_⟩
    · rw [parseValue.eq_def] at h
      split at h
      case h_1 heq => exact absurd heq (Nat.succ_ne_zero fuel)
      case h_2 =>
        -- a string
        obtain ⟨p, -, heq⟩ := Option.map_eq_some_iff.mp h
        obtain rfl := (Prod.mk.inj heq).1
        exact fits_leaf rfl rfl
      case h_3 heq =>
        -- an array
        obtain rfl := Nat.succ.inj heq
        obtain ⟨hd, h⟩ := Option.ite_none_left_eq_some.mp h
        split at h
        · obtain rfl := (Prod.mk.inj (Option.some.inj h)).1
          exact fits_arr (by omega) (fun x hx => absurd hx List.not_mem_nil)
        · obtain ⟨⟨x, r'⟩, hx, h⟩ := Option.bind_eq_some_iff.mp h
          obtain ⟨⟨xs, r''⟩, hxs, heq⟩ := Option.map_eq_some_iff.mp h
          obtain rfl := (Prod.mk.inj heq).1
          exact fits_arr (by omega) (List.forall_mem_cons.mpr ⟨hvalue _ _ _ _ hx, helems _ _ _ _ hxs⟩)
        · exact absurd h (by simp)
      case h_4 heq =>
        -- a hash
        obtain rfl := Nat.succ.inj heq
        obtain ⟨hd, h⟩ := Option.ite_none_left_eq_some.mp h
        split at h
        · obtain rfl := (Prod.mk.inj (Option.some.inj h)).1
          exact @fits_obj _ [] (by omega) (fun x hx => absurd hx List.not_mem_nil)
        · obtain ⟨⟨m, r'⟩, hm, h⟩ := Option.bind_eq_some_iff.mp h
          obtain ⟨⟨ms, r''⟩, hms, heq⟩ := Option.map_eq_some_iff.mp h
          obtain rfl := (Prod.mk.inj heq).1
          exact fits_obj (by omega) (List.forall_mem_cons.mpr ⟨hpair _ _ _ _ hm, hmembers _ _ _ _ hms⟩)
        · exact absurd h (by simp)
      case h_5 =>
        obtain rfl := (Prod.mk.inj (Option.some.inj h)).1
        exact fits_leaf rfl rfl
      case h_6 =>
        obtain rfl := (Prod.mk.inj (Option.some.inj h)).1
        exact fits_leaf rfl rfl
      case h_7 =>
        obtain rfl := (Prod.mk.inj (Option.some.inj h)).1
        exact fits_leaf rfl rfl
      case h_8 => exact fits_of_parseNumber h
    · rw [parseElems] at h
      split at h
      · obtain rfl := (Prod.mk.inj (Option.some.inj h)).1
        exact fun x hx => absurd hx List.not_mem_nil
      · obtain ⟨⟨x, r'⟩, hx, h⟩ := Option.bind_eq_some_iff.mp h
        obtain ⟨⟨xs, r''⟩, hxs, heq⟩ := Option.map_eq_some_iff.mp h
        obtain ⟨t, -, hx⟩ := Option.bind_eq_some_iff.mp hx
        obtain rfl := (Prod.mk.inj heq).1
        exact List.forall_mem_cons.mpr ⟨hvalue _ _ _ _ hx, helems _ _ _ _ hxs⟩
      · exact absurd h (by simp)
    · rw [parsePair.eq_def] at h
      split at h
      case h_1 heq => exact absurd heq (Nat.succ_ne_zero fuel)
      case h_2 heq =>
        obtain rfl := Nat.succ.inj heq
        split at h
        · split at h
          · obtain ⟨⟨x, r'⟩, hx, heq⟩ := Option.map_eq_some_iff.mp h
            obtain ⟨t, -, hx⟩ := Option.bind_eq_some_iff.mp hx
            obtain rfl := (Prod.mk.inj heq).1
            exact hvalue _ _ _ _ hx
          · exact absurd h (by simp)
        · exact absurd h (by simp)
      case h_3 => exact absurd h (by simp)
    · rw [parseMembers] at h
      split at h
      · obtain rfl := (Prod.mk.inj (Option.some.inj h)).1
        exact fun x hx => absurd hx List.not_mem_nil
      · obtain ⟨⟨m, r'⟩, hm, h⟩ := Option.bind_eq_some_iff.mp h
        obtain ⟨⟨ms, r''⟩, hms, heq⟩ := Option.map_eq_some_iff.mp h
        obtain ⟨t, -, hm⟩ := Option.bind_eq_some_iff.mp hm
        obtain rfl := (Prod.mk.inj heq).1
        exact List.forall_mem_cons.mpr ⟨hpair _ _ _ _ hm, hmembers _ _ _ _ hms⟩
      · exact absurd h (by simp)

/-! ### `JSON.parse` and `to_json` -/

/-- An array or a hash. -/
def Json.isContainer : Json → Bool
  | .arr _ => true
  | .obj _ => true
  | _ => false

theorem isContainer_of_parseValue {fuel depth : Nat} {start r : List Char} {j : Json}
    (hstart : startsContainer start = true) (h : parseValue fuel depth start = some (j, r)) :
    j.isContainer = true := by
  obtain ⟨cs, rfl | rfl⟩ : ∃ cs, start = '[' :: cs ∨ start = '\x7b' :: cs := by
    cases start with
    | nil => exact absurd hstart (by simp [startsContainer])
    | cons c cs =>
      rw [startsContainer, Bool.or_eq_true, beq_iff_eq, beq_iff_eq] at hstart
      exact ⟨cs, hstart.imp (congrArg (· :: cs)) (congrArg (· :: cs))⟩
  all_goals
    cases fuel with
    | zero => exact absurd h (by simp [parseValue])
    | succ fuel =>
      rw [parseValue] at h
      obtain ⟨-, h⟩ := Option.ite_none_left_eq_some.mp h
      split at h
      · obtain rfl := (Prod.mk.inj (Option.some.inj h)).1
        rfl
      · obtain ⟨p, -, h⟩ := Option.bind_eq_some_iff.mp h
        obtain ⟨q, -, heq⟩ := Option.map_eq_some_iff.mp h
        obtain rfl := (Prod.mk.inj heq).1
        rfl
      · exact absurd h (by simp)

/-- **What is accepted**: an array or a hash, without a member twice, that nests no deeper than the parser
goes. -/
theorem wellFormed_and_depth_of_parse {s : String} {j : Json} (h : Json.parse s = some j) :
    j.isContainer = true ∧ j.wellFormed = true ∧ j.depth ≤ maxNesting := by
  unfold Json.parse Json.parseText at h
  split at h
  case h_1 start hstart =>
    obtain ⟨hcont, h⟩ := Option.ite_none_right_eq_some.mp h
    split at h
    case h_1 j' r hj =>
      obtain rfl := Option.some.inj (Option.ite_none_right_eq_some.mp h).2
      obtain ⟨hwf, hdepth⟩ := (fits_of_parse _).1 _ _ _ _ hj
      exact ⟨isContainer_of_parseValue hcont hj, hwf, by have := hdepth (Nat.zero_le _); omega⟩
    case h_2 => exact absurd h (by simp)
  case h_2 => exact absurd h (by simp)

/-- A printed array or hash is read with `nil` for its infinities. -/
theorem parse_toJson_of {j : Json} (hc : j.isContainer = true) (hwf : j.wellFormed = true)
    (hd : j.depth ≤ maxNesting) : Json.parse j.toJson = some j.settle := by
  have hcont : startsContainer j.generate = true := by
    cases j with
    | arr xs => cases xs <;> rw [Json.generate] <;> rfl
    | obj ms => cases ms <;> rw [Json.generate] <;> rfl
    | null | bool | int | float | str => exact absurd hc Bool.false_ne_true
  have hignore := ignore_generate j []
  have hread := readsSettled j (j.generate.length + 1) 0 [] rfl (Nat.le_succ _) hwf (by omega)
  rw [List.append_nil] at hignore hread
  unfold Json.parse Json.parseText Json.toJson
  rw [String.toList_ofList]
  simp only [hignore, hcont, hread, if_true]
  rfl

/-- **What was read from one text is read from the printed text again**, with `nil` for the infinities. -/
theorem parse_toJson {s : String} {j : Json} (h : Json.parse s = some j) :
    Json.parse j.toJson = some j.settle := by
  obtain ⟨hc, hwf, hd⟩ := wellFormed_and_depth_of_parse h
  exact parse_toJson_of hc hwf hd

/-- It is the same value exactly if no number of it is infinite. -/
theorem parse_toJson_iff {s : String} {j : Json} (h : Json.parse s = some j) :
    Json.parse j.toJson = some j ↔ j.isFinite = true := by
  rw [parse_toJson h, Option.some_inj, settle_eq_iff]

/-! ### Printing again -/

theorem generateElems_congr {xs : List Json} (h : ∀ x ∈ xs, x.settle.generate = x.generate) :
    generateElems (settleElems xs) = generateElems xs := by
  induction xs with
  | nil => rfl
  | cons x xs ih =>
    rw [List.forall_mem_cons] at h
    rw [settleElems, generateElems, generateElems, h.1, ih h.2]

theorem generateMembers_congr {ms : List (String × Json)} (h : ∀ m ∈ ms, m.2.settle.generate = m.2.generate) :
    generateMembers (settleMembers ms) = generateMembers ms := by
  induction ms with
  | nil => rfl
  | cons m ms ih =>
    rw [List.forall_mem_cons] at h
    rw [settleMembers, generateMembers, generateMembers, h.1, ih h.2]

/-- **An infinity and `nil` are printed alike.** -/
theorem generate_settle (j : Json) : j.settle.generate = j.generate := by
  induction j using Json.induction with
  | null => rfl
  | bool b => rfl
  | int z => rfl
  | float f => cases f <;> rfl
  | str s => rfl
  | arr xs ih =>
    cases xs with
    | nil => rfl
    | cons x xs =>
      rw [List.forall_mem_cons] at ih
      rw [Json.settle, settleElems, Json.generate, Json.generate, ih.1, generateElems_congr ih.2]
  | obj ms ih =>
    cases ms with
    | nil => rfl
    | cons m ms =>
      rw [List.forall_mem_cons] at ih
      rw [Json.settle, settleMembers, Json.generate, Json.generate, ih.1, generateMembers_congr ih.2]

/-- **To read a printed text and print it changes nothing.** -/
theorem toJson_settle (j : Json) : j.settle.toJson = j.toJson := congrArg String.ofList (generate_settle j)

end Curarium
