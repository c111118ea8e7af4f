import Curarium.Library.Largest
import Curarium.Ruby.Text
import Mathlib.Algebra.Order.Field.Basic
import Mathlib.Algebra.Order.Field.Rat
import Mathlib.Data.List.Sort

/-!
# `Work#extract_colors`

`convert` writes a histogram of a thumbnail, a colour and the number of its pixels on each line. The
method keeps the five most frequent ones with their share of all the pixels, and the worker takes the
first of them for the primary colour.

* `scanLine` is the match of a line. `exists_scanLine_iff` says that it finds one exactly where the
  pattern can be laid over the line (`Matches`).
* `tally_eq` — the running total and the counter of the lines are those of the histogram.
* `colorsOf_eq` — so the slice from the end, which is as long as the counter says, is there, and has the
  largest entries (`Library.Largest`).

Counts and percents are exact numbers here. `sort_by` may put entries of the same count in any order
(`Sorting`).
-/

namespace Curarium
namespace Colors

/-- A text, as its characters. -/
abbrev Text := List Char

/-! ### Reading a line -/

/-- `f.each_line`: a line has its newline at the end. -/
def eachLine : Text → List Text
  | [] => []
  | c :: cs =>
    if c = '\n' then [c] :: eachLine cs
    else
      match eachLine cs with
      | [] => [[c]]
      | line :: lines => (c :: line) :: lines

/-- `\w` -/
def isWord (c : Char) : Bool := c.isAlphanum || c = '_'

/-- The word after the last `#`, since `.*` takes as much as it can. -/
def lastHash : Text → Option Text
  | [] => none
  | c :: cs =>
    match lastHash cs with
    | some word => some word
    | none => if c = '#' then some (cs.takeWhile isWord) else none

/-- `line.scan /^\s*(\d+):.*(#\w*)/`. The pattern starts where a line starts, so there is one match at
most. -/
def scanLine (line : Text) : Option (Text × Text) := scanCount (line.dropWhile Ruby.isAsciiSpace)
where
  /-- The match after the white space. -/
  scanCount (start : Text) : Option (Text × Text) :=
    match start.takeWhile Char.isDigit, start.dropWhile Char.isDigit with
    | d :: ds, ':' :: rest =>
      -- a `.` is no newline
      (lastHash (rest.takeWhile (· ≠ '\n'))).map fun word => (d :: ds, '#' :: word)
    | _, _ => none

/-- The pattern laid over a line, with these two groups. -/
def Matches (line digits color : Text) : Prop :=
  ∃ space before word after, line = space ++ digits ++ ':' :: before ++ '#' :: word ++ after ∧
    (∀ c ∈ space, Ruby.isAsciiSpace c = true) ∧ digits ≠ [] ∧ (∀ c ∈ digits, c.isDigit = true) ∧
    '\n' ∉ before ∧ (∀ c ∈ word, isWord c = true) ∧ color = '#' :: word

theorem lastHash_eq_some {cs word : Text} (h : lastHash cs = some word) :
    ∃ before after, cs = before ++ '#' :: word ++ after ∧ ∀ c ∈ word, isWord c = true := by
  induction cs with
  | nil => exact absurd h (by simp [lastHash])
  | cons c cs ih =>
    rw [lastHash] at h
    split at h
    case h_1 word' hlast =>
      -- there is one further on
      obtain rfl := Option.some.inj h
      obtain ⟨before, after, rfl, hword⟩ := ih hlast
      exact ⟨c :: before, after, rfl, hword⟩
    case h_2 =>
      obtain ⟨rfl, hword⟩ := Option.ite_none_right_eq_some.mp h
      obtain rfl := Option.some.inj hword
      refine ⟨[], cs.dropWhile isWord, ?_, fun c hc => List.mem_takeWhile_imp hc⟩
      rw [List.nil_append, List.cons_append, List.takeWhile_append_dropWhile]

theorem isSome_lastHash {cs : Text} (h : '#' ∈ cs) : (lastHash cs).isSome = true := by
  induction cs with
  | nil => exact absurd h List.not_mem_nil
  | cons c cs ih =>
    rw [lastHash]
    split
    · rfl
    · next hnone =>
      rcases List.mem_cons.mp h with rfl | hrest
      · rfl
      · rw [hnone] at ih
        exact absurd (ih hrest) Bool.false_ne_true

/-- Where the parts of a match stand. -/
theorem scanLine_eq_some_iff {line digits color : Text} : scanLine line = some (digits, color) ↔
    ∃ space rest word, line = space ++ digits ++ ':' :: rest ∧
      (∀ c ∈ space, Ruby.isAsciiSpace c = true) ∧ digits ≠ [] ∧ (∀ c ∈ digits, c.isDigit = true) ∧
      lastHash (rest.takeWhile (· ≠ '\n')) = some word ∧ color = '#' :: word := by
  constructor
  · intro h
    rw [scanLine, scanLine.scanCount.eq_def] at h
    split at h
    case h_2 => exact absurd h (by simp)
    case h_1 d ds rest hdigits hrest =>
      obtain ⟨word, hlast, hgroups⟩ := Option.map_eq_some_iff.mp h
      obtain ⟨rfl, rfl⟩ := Prod.mk.inj hgroups
      refine ⟨line.takeWhile Ruby.isAsciiSpace, rest, word, ?_, fun c hc => List.mem_takeWhile_imp hc,
        by simp, fun c hc => List.mem_takeWhile_imp (hdigits ▸ hc), hlast, rfl⟩
      rw [← hdigits, ← hrest, List.append_assoc, List.takeWhile_append_dropWhile,
        List.takeWhile_append_dropWhile]
  · rintro ⟨space, rest, word, rfl, hspace, hne, hdigits, hlast, rfl⟩
    obtain ⟨d, ds, rfl⟩ := List.exists_cons_of_ne_nil hne
    -- a digit is no white space, and a colon is no digit
    have hd : Ruby.isAsciiSpace d = false := Ruby.isAsciiSpace_of_isDigit (hdigits d List.mem_cons_self)
    have hstart : (space ++ d :: ds ++ ':' :: rest).dropWhile Ruby.isAsciiSpace = d :: ds ++ ':' :: rest := by
      rw [List.append_assoc, List.dropWhile_append_of_pos hspace, List.cons_append,
        List.dropWhile_cons_of_neg (by rw [hd]; simp)]
    have htake : (d :: ds ++ ':' :: rest).takeWhile Char.isDigit = d :: ds := by
      rw [List.takeWhile_append_of_pos hdigits, List.takeWhile_cons_of_neg (by decide), List.append_nil]
    have hdrop : (d :: ds ++ ':' :: rest).dropWhile Char.isDigit = ':' :: rest := by
      rw [List.dropWhile_append_of_pos hdigits, List.dropWhile_cons_of_neg (by decide)]
    rw [scanLine, hstart, scanLine.scanCount, htake, hdrop]
    change (lastHash (rest.takeWhile (· ≠ '\n'))).map _ = _
    rw [hlast, Option.map_some]

/-- **What a match reads**: the pattern lies over the line with these groups, and another way to lay it
has the same digits. -/
theorem matches_of_scanLine {line digits color : Text} (h : scanLine line = some (digits, color)) :
    Matches line digits color := by
  obtain ⟨space, rest, word, rfl, hspace, hne, hdigits, hlast, rfl⟩ := scanLine_eq_some_iff.mp h
  obtain ⟨before, after, hrest, hword⟩ := lastHash_eq_some hlast
  refine ⟨space, before, word, after ++ rest.dropWhile (· ≠ '\n'), ?_, hspace, hne, hdigits, ?_, hword, rfl⟩
  · have hsplit := List.takeWhile_append_dropWhile (p := (· ≠ '\n')) (l := rest)
    rw [hrest] at hsplit
    conv_lhs => rw [← hsplit]
    simp
  · intro hmem
    -- the rest is read up to the newline
    have hline : '\n' ∈ rest.takeWhile (· ≠ '\n') := by
      rw [hrest]
      exact List.mem_append_left _ (List.mem_append_left _ hmem)
    exact absurd (List.mem_takeWhile_imp hline) (by decide)

/-- **A line matches** where the pattern can be laid over it in any way. -/
theorem exists_scanLine_iff {line digits : Text} :
    (∃ color, scanLine line = some (digits, color)) ↔ ∃ color, Matches line digits color := by
  constructor
  · exact fun ⟨color, h⟩ => ⟨color, matches_of_scanLine h⟩
  · rintro ⟨_, space, before, word, after, rfl, hspace, hne, hdigits, hbefore, hword, rfl⟩
    -- the hash is on the line, so there is a last one
    have hhash : '#' ∈ (before ++ '#' :: word ++ after).takeWhile (· ≠ '\n') := by
      rw [List.append_assoc, List.takeWhile_append_of_pos, List.cons_append, List.takeWhile_cons_of_pos (by decide)]
      · simp
      · intro c hc
        simp
        rintro rfl
        exact hbefore hc
    obtain ⟨last, hlast⟩ := Option.isSome_iff_exists.mp (isSome_lastHash hhash)
    refine ⟨'#' :: last, scanLine_eq_some_iff.mpr ⟨space, before ++ '#' :: word ++ after, last, ?_, hspace,
      hne, hdigits, hlast, rfl⟩⟩
    simp

/-! ### The histogram -/

/-- `{ color: color, count: count }` -/
structure Entry where
  color : Text
  count : Nat
deriving DecidableEq

/-- The entry of a line that matches. -/
def entryOf (line : Text) : Option Entry :=
  (scanLine line).map fun parts => { color := parts.2, count := Nat.ofDigitChars 10 parts.1 0 }

/-- The variables of the loop over the lines. -/
structure Tally where
  histogram : List Entry
  totalColors : Nat
  lines : Nat

/-- One turn of the loop. -/
def Tally.readLine (t : Tally) (line : Text) : Tally :=
  match entryOf line with
  | none => t
  | some h =>
    { histogram := t.histogram ++ [h]
      totalColors := t.totalColors + h.count
      lines := t.lines + 1 }

/-- The loop. -/
def tally (file : Text) : Tally :=
  (eachLine file).foldl Tally.readLine { histogram := [], totalColors := 0, lines := 0 }

/-- `sort_by { |h| h[ :count ] }`. The order of entries with the same count is left open. -/
structure Sorting where
  sort : List Entry → List Entry
  perm : ∀ l, (sort l).Perm l
  ascending : ∀ l, (sort l).Pairwise fun a b => a.count ≤ b.count

/-- `Array#slice( start, length )`: a start below zero counts from the end, and a start outside of the
array is answered with `nil`. -/
def slice {α : Type} (start length : Int) (xs : List α) : Option (List α) :=
  let first := if start < 0 then start + xs.length else start
  if first < 0 ∨ xs.length < first ∨ length < 0 then none
  else some ((xs.drop first.toNat).take length.toNat)

/-- An entry of `top_colors`. -/
structure Share where
  color : Text
  percent : Rat
deriving DecidableEq

/-- `{ color: h[ :color ], percent: h[ :count ] / total_colors }` -/
def share (totalColors : Nat) (h : Entry) : Share where
  color := h.color
  percent := h.count / totalColors

/-- The colours of a histogram file; `nil` has no `reverse`. -/
def colorsOf (S : Sorting) (file : Text) : Option (List Share) :=
  let t := tally file
  let lines : Nat := if t.lines > 5 then 5 else t.lines
  (slice (-lines) lines (S.sort t.histogram)).map fun kept => kept.reverse.map (share t.totalColors)

/-- `Work#extract_colors`, with the file that `convert` writes if the thumbnail is there. Without a
thumbnail the answer is `nil`. -/
def extractColors (S : Sorting) : Option Text → Option (Option (List Share))
  | none => some none
  | some file => (colorsOf S file).map some

/-- What a worker writes with these colours: `primary_color` and `top_colors`, unless there are none;
`nil.any?` raises. -/
def update : Option (List Share) → Option (Option (Text × List Share))
  | none => none
  | some [] => some none
  | some (h :: histogram) => some (some (h.color, h :: histogram))

/-- The entries of the lines that match. -/
def entries (file : Text) : List Entry := (eachLine file).filterMap entryOf

/-- The total of all the lines that match. -/
def total (file : Text) : Nat := weight Entry.count (entries file)

/-- One turn of the loop keeps the total and the counter in step with the histogram. -/
theorem readLine_eq (t : Tally) (line : Text) :
    (t.readLine line).histogram = t.histogram ++ (entryOf line).toList ∧
      (t.readLine line).totalColors = t.totalColors + weight Entry.count (entryOf line).toList ∧
      (t.readLine line).lines = t.lines + (entryOf line).toList.length := by
  rw [Tally.readLine]
  cases entryOf line with
  | none => exact ⟨(List.append_nil _).symm, rfl, rfl⟩
  | some h => exact ⟨rfl, rfl, rfl⟩

theorem foldl_readLine (lines : List Text) (t : Tally) :
    (lines.foldl Tally.readLine t).histogram = t.histogram ++ lines.filterMap entryOf ∧
      (lines.foldl Tally.readLine t).totalColors =
        t.totalColors + weight Entry.count (lines.filterMap entryOf) ∧
      (lines.foldl Tally.readLine t).lines = t.lines + (lines.filterMap entryOf).length := by
  induction lines generalizing t with
  | nil => exact ⟨(List.append_nil _).symm, rfl, rfl⟩
  | cons line lines ih =>
    obtain ⟨hhistogram, htotal, hlines⟩ := ih (t.readLine line)
    obtain ⟨hhistogram', htotal', hlines'⟩ := readLine_eq t line
    -- a line that does not match changes nothing
    have hsplit : (line :: lines).filterMap entryOf = (entryOf line).toList ++ lines.filterMap entryOf := by
      rw [List.filterMap_cons]
      cases entryOf line <;> rfl
    rw [List.foldl_cons, hhistogram, htotal, hlines, hhistogram', htotal', hlines', hsplit,
      weight_append, List.length_append, List.append_assoc, Nat.add_assoc, Nat.add_assoc]
    exact ⟨rfl, rfl, rfl⟩

/-- **The loop** ends with the entries, their total and their number. -/
theorem tally_eq (file : Text) : tally file =
    { histogram := entries file, totalColors := total file, lines := (entries file).length } := by
  obtain ⟨hhistogram, htotal, hlines⟩ :=
    foldl_readLine (eachLine file) { histogram := [], totalColors := 0, lines := 0 }
  rw [Nat.zero_add] at htotal hlines
  exact congr (congr (congrArg Tally.mk hhistogram) htotal) hlines

/-! ### The slice -/

/-- The last `n` entries of a list that has so many. -/
theorem slice_neg {α : Type} {n : Nat} {xs : List α} (h : n ≤ xs.length) :
    slice (-n) n xs = some (xs.drop (xs.length - n)) := by
  have hn : ((n : Int)).toNat = n := Int.toNat_natCast n
  unfold slice
  rcases Nat.eq_zero_or_pos n with rfl | hpos
  · -- `-0` counts from the start, where the slice of no entries is empty as well
    simp
  · have hstart : -(n : Int) < 0 := by omega
    have hout : ¬ (-(n : Int) + xs.length < 0 ∨ (xs.length : Int) < -n + xs.length ∨ (n : Int) < 0) := by
      omega
    have hfirst : (-(n : Int) + xs.length).toNat = xs.length - n := by omega
    rw [if_pos hstart, if_neg hout, hfirst, hn, List.take_of_length_le]
    rw [List.length_drop]
    omega

/-- **What is returned** are the shares of the five largest entries, or of all. -/
theorem colorsOf_eq (S : Sorting) (file : Text) : ∃ kept,
    Largest Entry.count 5 (entries file) kept ∧
      colorsOf S file = some (kept.map (share (total file))) := by
  have hlength := (S.perm (entries file)).length_eq
  refine ⟨_, largest_of_ascending (S.perm (entries file)) (S.ascending (entries file)), ?_⟩
  rw [colorsOf, tally_eq]
  change (slice (-((if (entries file).length > 5 then 5 else (entries file).length : Nat) : Int))
    ((if (entries file).length > 5 then 5 else (entries file).length : Nat) : Int)
      (S.sort (entries file))).map _ = _
  rw [slice_neg (by rw [hlength]; split <;> omega), Option.map_some, hlength]
  -- with fewer than five lines the slice starts at the front
  have hstart : (entries file).length - (if (entries file).length > 5 then 5 else (entries file).length) =
      (entries file).length - 5 := by
    split <;> omega
  rw [hstart]

/-! ### The dominant colours -/

/-- The line matches the pattern. -/
def IsMatch (line : Text) : Prop := ∃ digits color, Matches line digits color

theorem isSome_entryOf_iff {line : Text} : (entryOf line).isSome = true ↔ IsMatch line := by
  rw [entryOf, Option.isSome_map, Option.isSome_iff_exists, Prod.exists]
  exact exists_congr fun digits => exists_scanLine_iff

instance (line : Text) : Decidable (IsMatch line) := decidable_of_iff _ isSome_entryOf_iff

/-- The entry of a line counts the pixels of a colour that the line names in the pattern. -/
theorem entryOf_eq_some {line : Text} {h : Entry} (hentry : entryOf line = some h) :
    ∃ digits, Matches line digits h.color ∧ h.count = Nat.ofDigitChars 10 digits 0 := by
  obtain ⟨⟨digits, color⟩, hscan, rfl⟩ := Option.map_eq_some_iff.mp hentry
  exact ⟨digits, matches_of_scanLine hscan, rfl⟩

theorem length_entries (file : Text) :
    (entries file).length = (eachLine file).countP fun line => IsMatch line := by
  rw [entries, List.length_filterMap_eq_countP]
  refine List.countP_congr fun line _ => ?_
  rw [decide_eq_true_iff]
  exact isSome_entryOf_iff

/-- **The dominant colours of a file.** -/
structure Dominant (file : Text) (colors : List Share) : Prop where
  length : colors.length = min 5 ((eachLine file).countP fun line => IsMatch line)
  /-- They are the shares of the largest entries, the largest one first. -/
  largest : ∃ kept omitted, (entries file).Perm (omitted ++ kept) ∧
    colors = kept.map (fun h => { color := h.color, percent := h.count / total file }) ∧
    (kept.Pairwise fun a b => b.count ≤ a.count) ∧ ∀ a ∈ omitted, ∀ b ∈ kept, a.count ≤ b.count
  /-- Nothing is divided by zero. -/
  divides : colors ≠ [] → total file ≠ 0
  atMost : (colors.map Share.percent).sum ≤ 1
  exact : (eachLine file).countP (fun line => IsMatch line) ≤ 5 →
    0 < (eachLine file).countP (fun line => IsMatch line) → (colors.map Share.percent).sum = 1

theorem sum_percent (t : Nat) (l : List Entry) :
    ((l.map (share t)).map Share.percent).sum = (weight Entry.count l : Rat) / t := by
  induction l with
  | nil => simp
  | cons h l ih =>
    rw [List.map_cons, List.map_cons, List.sum_cons, ih, weight_cons, Nat.cast_add, add_div, share]

/-- With positive counts there is something to divide by. -/
theorem total_pos {file : Text} (hpositive : ∀ h ∈ entries file, 0 < h.count) (hne : entries file ≠ []) :
    0 < total file := by
  obtain ⟨h, l, hentries⟩ := List.exists_cons_of_ne_nil hne
  have hh : 0 < h.count := hpositive h (by rw [hentries]; exact List.mem_cons_self)
  rw [total, hentries, weight_cons]
  omega

/-- The shares of the largest entries. -/
theorem dominant_of_largest {file : Text} {kept : List Entry} (h : Largest Entry.count 5 (entries file) kept)
    (hpositive : ∀ h ∈ entries file, 0 < h.count) : Dominant file (kept.map (share (total file))) where
  length := by rw [List.length_map, h.length, length_entries]
  largest := by
    obtain ⟨omitted, hperm, homitted⟩ := h.omitted
    exact ⟨kept, omitted, hperm, rfl, h.descending, homitted⟩
  divides := by
    intro hne hzero
    -- a colour is only returned if there are entries, and their counts are positive
    have hentries : entries file ≠ [] := by
      intro hnil
      have hlength := h.length
      rw [hnil, List.length_nil, Nat.min_zero, List.length_eq_zero_iff] at hlength
      rw [hlength] at hne
      exact hne rfl
    exact absurd hzero (Nat.ne_of_gt (total_pos hpositive hentries))
  atMost := by
    rw [sum_percent]
    have hle : (weight Entry.count kept : Rat) ≤ total file := Nat.cast_le.mpr (h.weight_le Entry.count)
    exact div_le_one_of_le₀ hle (Nat.cast_nonneg _)
  exact := by
    intro hfew hany
    rw [← length_entries] at hfew hany
    rw [sum_percent, h.weight_eq hfew]
    have htotal := total_pos hpositive (List.length_pos_iff.mp hany)
    exact div_self (Nat.cast_ne_zero.mpr (Nat.ne_of_gt htotal))

/-- **The dominant colours** are returned for every file, and the primary colour is one with the most
pixels. -/
theorem extractColors_dominant (S : Sorting) (file : Text)
    (hpositive : ∀ line ∈ eachLine file, ∀ digits color, Matches line digits color →
      0 < Nat.ofDigitChars 10 digits 0) :
    ∃ colors, extractColors S (some file) = some (some colors) ∧ Dominant file colors ∧
      (entries file = [] ∧ update (some colors) = some none ∨
        ∃ h ∈ entries file, (∀ a ∈ entries file, a.count ≤ h.count) ∧
          update (some colors) = some (some (h.color, colors))) := by
  have hcounts : ∀ h ∈ entries file, 0 < h.count := by
    intro h hh
    obtain ⟨line, hline, hentry⟩ := List.mem_filterMap.mp hh
    obtain ⟨digits, hmatch, hcount⟩ := entryOf_eq_some hentry
    rw [hcount]
    exact hpositive line hline digits h.color hmatch
  obtain ⟨kept, hlargest, hcolors⟩ := colorsOf_eq S file
  refine ⟨_, by rw [extractColors, hcolors, Option.map_some], dominant_of_largest hlargest hcounts, ?_⟩
  cases kept with
  | nil =>
    -- nothing is kept only if there is nothing
    have hlength := hlargest.length
    rw [List.length_nil] at hlength
    exact .inl ⟨List.length_eq_zero_iff.mp (by omega), rfl⟩
  | cons h kept =>
    obtain ⟨hmem, hmax⟩ := hlargest.le_head rfl
    exact .inr ⟨h, hmem, hmax, rfl⟩

/-- The insertion sort. -/
def insertionSorting : Sorting where
  sort l := l.insertionSort fun a b => a.count ≤ b.count
  perm l := List.perm_insertionSort _ l
  ascending l := by
    have : Std.Total fun a b : Entry => a.count ≤ b.count := ⟨fun a b => Nat.le_total a.count b.count⟩
    have : IsTrans Entry fun a b => a.count ≤ b.count := ⟨fun _ _ _ => Nat.le_trans⟩
    exact List.pairwise_insertionSort _ l

/-- A histogram of two colours, with a line that is no entry. -/
def twoColors : Text :=
  "     10: (255,255,255) #FFFFFF white\n\n     90: (  0,  0,  0) #000000 black\n".toList

theorem extractColors_two : ∃ colors, extractColors insertionSorting (some twoColors) = some (some colors) ∧
    Dominant twoColors colors ∧
      (entries twoColors = [] ∧ update (some colors) = some none ∨
        ∃ h ∈ entries twoColors, (∀ a ∈ entries twoColors, a.count ≤ h.count) ∧
          update (some colors) = some (some (h.color, colors))) := by
  have hscans : ∀ line ∈ eachLine twoColors, ∀ parts ∈ scanLine line, 0 < Nat.ofDigitChars 10 parts.1 0 := by
    decide +kernel
  refine extractColors_dominant insertionSorting twoColors fun line hline digits color hmatch => ?_
  obtain ⟨color', hscan⟩ := exists_scanLine_iff.mpr ⟨color, hmatch⟩
  exact hscans line hline _ hscan

example : extractColors insertionSorting (some twoColors) =
    some (some [⟨"#000000".toList, 9 / 10⟩, ⟨"#FFFFFF".toList, 1 / 10⟩]) := by decide +kernel

end Colors
end Curarium
