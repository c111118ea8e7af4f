import Curarium.Work.Colors
import Curarium.Works.Search

/-!
# The colour filter

The jobs of a work keep the colours of its thumbnail as JSON, and the works index looks for the digits of a
colour anywhere in that text.

* `infix_topColorsText` — the digits of a colour are found in a colour that is kept, or in the decimal digits
  of a share. A colour that has a letter is never found in a share (`has_iff_of_letter`).
* `run_topColors` — what is kept are the colours of the last job that had any.
* `search_color` — so a colour narrows a search to the works whose last colours have it.
-/

namespace Curarium
namespace Colorfilter

open Work ConfigureWork Collections WorksIndex Search

/-! ### The text of the colours -/

def colorJson (c : Color) : Json := .obj [("color", .str c.color), ("percent", .float c.percent)]

/-- `top_colors`, as the database keeps it. -/
def topColorsText (colors : List Color) : String := (Json.arr (colors.map colorJson)).toJson

/-- A digit of a colour. -/
def isHex (c : Char) : Bool := c.isDigit || ('A' ≤ c && c ≤ 'F')

/-- What `#\w*` matches. -/
def IsColor (color : Text) : Prop := ∃ word, color = '#' :: word ∧ ∀ c ∈ word, Colors.isWord c = true

/-- The digits stand in the colour, or in the text of its share. -/
def Has (hex : Text) (c : Color) : Prop := hex <:+: c.color.toList ∨ hex <:+: (Json.float c.percent).generate

theorem toNat_lt_of_isWord {c : Char} (h : Colors.isWord c = true) : c.toNat < 128 := by
  rw [Colors.isWord, Bool.or_eq_true, decide_eq_true_eq] at h
  obtain h | rfl := h
  · -- a capital, a small letter or a digit: each is below its last one
    obtain hletter | hdigit := Bool.or_eq_true_iff.mp h
    · obtain hupper | hlower := Bool.or_eq_true_iff.mp hletter
      · have hle : c.val ≤ 'Z'.val := (of_decide_eq_true hupper).2
        exact Nat.lt_of_le_of_lt hle (by decide)
      · have hle : c.val ≤ 'z'.val := of_decide_eq_true (Bool.and_eq_true_iff.mp hlower).2
        exact Nat.lt_of_le_of_lt hle (by decide)
    · have hle : c.toNat ≤ '9'.toNat := (Char.isDigit_iff_toNat.mp hdigit).2
      exact Nat.lt_of_le_of_lt hle (by decide)
  · decide

theorem generateChar_of_isWord {c : Char} (h : Colors.isWord c = true) : generateChar c = [c] := by
  have hall : ∀ n < 128, Colors.isWord (Char.ofNat n) = true → generateChar (Char.ofNat n) = [Char.ofNat n] := by
    decide +kernel
  have hc := hall c.toNat (toNat_lt_of_isWord h)
  rw [Char.ofNat_toNat] at hc
  exact hc h

theorem generateStr_color {color : Text} (h : IsColor color) : generateStr color = '"' :: (color ++ ['"']) := by
  obtain ⟨word, rfl, hword⟩ := h
  have hflat : word.flatMap generateChar = word.flatMap fun c => [c] :=
    List.flatMap_congr fun c hc => generateChar_of_isWord (hword c hc)
  rw [generateStr, List.flatMap_cons, hflat, List.flatMap_singleton']
  rfl

/-- The text of a colour and its share. -/
theorem generate_colorJson {c : Color} (h : IsColor c.color.toList) (rest : Text) :
    (colorJson c).generate ++ rest = "\x7b\"color\":\"".toList ++ (c.color.toList ++ '"' ::
      (",\"percent\":".toList ++ ((Json.float c.percent).generate ++ '\x7d' :: rest))) := by
  have hcolor : generateStr "color".toList = "\"color\"".toList := by decide +kernel
  have hpercent : generateStr "percent".toList = "\"percent\"".toList := by decide +kernel
  rw [colorJson, Json.generate, generateMembers, generateMembers, Json.generate, hcolor, hpercent,
    generateStr_color h]
  simp

section Text

variable {hex : Text} (hhex : ∀ c ∈ hex, isHex c = true)

include hhex

theorem notMem_hex {c : Char} (hc : isHex c = false) : c ∉ hex := fun hmem =>
  Bool.eq_false_iff.mp hc (hhex c hmem)

/-- Text without digits of colours has no part in what is found. -/
theorem infix_append_iff {l : Text} (hl : ∀ c ∈ l, isHex c = false) (rest : Text) :
    hex <:+: l ++ rest ↔ hex <:+: rest := by
  induction l with
  | nil => rfl
  | cons c l ih =>
    obtain ⟨hc, hl⟩ := List.forall_mem_cons.mp hl
    rw [List.cons_append, Lists.infix_cons_iff (notMem_hex hhex hc), ih hl]

theorem infix_colorJson_iff {c : Color} (hcolor : IsColor c.color.toList) (rest : Text) :
    hex <:+: (colorJson c).generate ++ rest ↔ Has hex c ∨ hex <:+: rest := by
  have hkey : ∀ c ∈ "\x7b\"color\":\"".toList, isHex c = false := List.all_iff_forall_prop.mp rfl
  have hkey' : ∀ c ∈ ",\"percent\":".toList, isHex c = false := List.all_iff_forall_prop.mp rfl
  rw [generate_colorJson hcolor, infix_append_iff hhex hkey,
    Lists.infix_append_cons_iff (notMem_hex hhex (c := '"') rfl), infix_append_iff hhex hkey',
    Lists.infix_append_cons_iff (notMem_hex hhex (c := '\x7d') rfl), Has, or_assoc]

/-- **What is found in the text of the colours.** -/
theorem infix_topColorsText (hne : hex ≠ []) {colors : List Color} (hcolors : ∀ c ∈ colors, IsColor c.color.toList) :
    hex <:+: (topColorsText colors).toList ↔ ∃ c ∈ colors, Has hex c := by
  have hcomma : ',' ∉ hex := notMem_hex hhex rfl
  have hopen : '[' ∉ hex := notMem_hex hhex rfl
  have hnil : ¬hex <:+: [']'] := by
    rw [Lists.infix_cons_iff (notMem_hex hhex rfl), List.infix_nil]
    exact hne
  have helems : ∀ colors : List Color, (∀ c ∈ colors, IsColor c.color.toList) →
      (hex <:+: generateElems (colors.map colorJson) ↔ ∃ c ∈ colors, Has hex c) := by
    intro colors hcolors
    induction colors with
    | nil => exact iff_of_false hnil (by simp)
    | cons c colors ih =>
      obtain ⟨hc, hcolors⟩ := List.forall_mem_cons.mp hcolors
      rw [List.map_cons, generateElems, Lists.infix_cons_iff hcomma, infix_colorJson_iff hhex hc, ih hcolors]
      simp
  rw [topColorsText, Json.toJson, String.toList_ofList]
  cases colors with
  | nil =>
    have hempty : (Json.arr (List.map colorJson [])).generate = '[' :: [']'] := rfl
    rw [hempty, Lists.infix_cons_iff hopen]
    exact iff_of_false hnil (by simp)
  | cons c colors =>
    -- a comma before the first colour would change nothing
    have htail := helems (c :: colors) hcolors
    rw [List.map_cons, generateElems, Lists.infix_cons_iff hcomma] at htail
    rw [List.map_cons, Json.generate, Lists.infix_cons_iff hopen, htail]

end Text

/-! ### Shares -/

/-- A number has no letters of colours. -/
theorem isDigit_of_isHex {f : Flt} {c : Char} (hc : c ∈ (Json.float f).generate) (hhex : isHex c = true) :
    c.isDigit = true := by
  have hexponent : ∀ e : Int, c ∈ exponentText e → c.isDigit = true := by
    intro e hc
    rw [exponentText] at hc
    rcases List.mem_cons.mp hc with rfl | hc
    · exact absurd hhex (by decide)
    rcases List.mem_cons.mp hc with rfl | hc
    · split at hhex
      · exact absurd hhex (by decide)
      · exact absurd hhex (by decide)
    split at hc
    · rcases List.mem_cons.mp hc with rfl | hc
      · rfl
      · exact Ruby.isDigit_toDigits hc
    · exact Ruby.isDigit_toDigits hc
  cases f with
  | infinite neg =>
    have hnull : ∀ c ∈ "null".toList, isHex c = false := List.all_iff_forall_prop.mp rfl
    exact absurd hhex (by rw [hnull c hc]; decide)
  | finite d =>
    have hmagnitude : c ∈ d.magnitudeText → c.isDigit = true := by
      intro hc
      obtain ⟨ints, fracs, tail, e, htext, hints, -, hfracs, htail, -⟩ := d.spelledBy_magnitudeText
      rw [htext, List.mem_append, List.mem_cons, List.mem_append] at hc
      rcases hc with hc | rfl | hc | hc
      · rcases hints with rfl | ⟨-, hall, -⟩
        · rw [List.mem_singleton.mp hc]
          rfl
        · exact hall c hc
      · exact absurd hhex (by decide)
      · exact hfracs c hc
      · rcases htail with ⟨rfl, -⟩ | rfl
        · exact absurd hc List.not_mem_nil
        · exact hexponent e hc
    rw [Json.generate, Decimal.toS] at hc
    split at hc
    · rcases List.mem_cons.mp hc with rfl | hc
      · exact absurd hhex (by decide)
      · exact hmagnitude hc
    · exact hmagnitude hc

/-- A colour that has a letter is not found in a share. -/
theorem has_iff {hex : Text} (hhex : ∀ c ∈ hex, isHex c = true) (c : Color) :
    Has hex c ↔ hex <:+: c.color.toList ∨
      (∀ d ∈ hex, d.isDigit = true) ∧ hex <:+: (Json.float c.percent).generate := by
  refine or_congr_right ⟨fun hpart => ⟨fun d hd => ?_, hpart⟩, And.right⟩
  exact isDigit_of_isHex (hpart.subset hd) (hhex d hd)

/-- What `extract_colors` returns. -/
theorem isColor_of_extractColors {S : Colors.Sorting} {file : Text} {colors : List Colors.Share}
    (h : Colors.extractColors S (some file) = some (some colors)) : ∀ c ∈ colors, IsColor c.color := by
  obtain ⟨kept, hlargest, hcolors⟩ := Colors.colorsOf_eq S file
  rw [Colors.extractColors, hcolors, Option.map_some] at h
  obtain rfl := Option.some.inj (Option.some.inj h)
  obtain ⟨rest, hperm, -⟩ := hlargest.omitted
  intro c hc
  obtain ⟨e, he, rfl⟩ := List.mem_map.mp hc
  have hentry : e ∈ Colors.entries file := hperm.mem_iff.mpr (List.mem_append_right _ he)
  obtain ⟨line, -, hline⟩ := List.mem_filterMap.mp hentry
  obtain ⟨digits, ⟨_, _, word, _, -, -, -, -, -, hword, hcolor⟩, -⟩ := Colors.entryOf_eq_some hline
  exact ⟨word, hcolor, hword⟩

/-- A share, with its quotient as a float. -/
def colorOf (round : Rat → Flt) (s : Colors.Share) : Color := ⟨String.ofList s.color, round s.percent⟩

/-- The colours of a histogram file. -/
theorem isColor_histogram {S : Colors.Sorting} {file : Text} {shares : List Colors.Share}
    (h : Colors.extractColors S (some file) = some (some shares)) (round : Rat → Flt) :
    ∀ c ∈ shares.map (colorOf round), IsColor c.color.toList := by
  intro c hc
  obtain ⟨s, hs, rfl⟩ := List.mem_map.mp hc
  rw [colorOf, String.toList_ofList]
  exact isColor_of_extractColors h s hs

/-! ### The colours that are kept -/

section Jobs

variable {D : Type} (A : Adapter D) (original : Json)

/-- The colours that a job saves; none if it raises, or finds none. -/
def savedColors (j : Job) : Option (List Color) :=
  match yield A j.configuration original, j.thumb with
  | some _, .histogram (c :: cs) => some (c :: cs)
  | _, _ => none

/-- The colours of the last job that saved any. -/
def lastColors (jobs : List Job) : Option (List Color) := jobs.reverse.findSome? (savedColors A original)

variable {original}

theorem perform_topColors (j : Job) {row : Record D} (h : row.document = original) :
    (perform A j.configuration j.thumb row).topColors = (savedColors A original j).or row.topColors := by
  rw [perform_eq, h, savedColors]
  cases yield A j.configuration original with
  | none => rfl
  | some y =>
    rcases j.thumb with _ | _ | ⟨_ | ⟨c, cs⟩⟩
    · rfl
    · rfl
    · rfl
    · rfl

/-- **What is kept** over a run. -/
theorem run_topColors (jobs : List Job) {row : Record D} (h : row.document = original) :
    (run A jobs row).topColors = (lastColors A original jobs).or row.topColors := by
  induction jobs generalizing row with
  | nil => rfl
  | cons j jobs ih =>
    have hrest := ih (perform_columns A j h).1
    rw [perform_topColors A j h] at hrest
    rw [lastColors, List.reverse_cons, List.findSome?_append, List.findSome?_singleton, Option.or_assoc]
    exact hrest

/-- Each of them is from a histogram. -/
theorem isColor_lastColors {jobs : List Job}
    (hcolors : ∀ j ∈ jobs, ∀ cs, j.thumb = .histogram cs → ∀ c ∈ cs, IsColor c.color.toList) {cs : List Color}
    (h : cs ∈ lastColors A original jobs) : ∀ c ∈ cs, IsColor c.color.toList := by
  obtain ⟨j, hj, hsaved⟩ := List.exists_of_findSome?_eq_some h
  refine hcolors j (List.mem_reverse.mp hj) cs ?_
  rw [savedColors] at hsaved
  split at hsaved
  case h_1 hthumb => rw [hthumb, ← Option.some.inj hsaved]
  case h_2 => exact absurd hsaved (by simp)

end Jobs

/-! ### The search -/

/-- A colour, with or without `#`. -/
structure ColorTerm where
  text : Text
  digits : ∀ c ∈ text, c = '#' ∨ isHex c.toUpper = true
  nonempty : ∃ c ∈ text, c ≠ '#'

/-- The digits that are looked for. -/
def ColorTerm.value (t : ColorTerm) : Text := Ruby.upcase (t.text.filter (· ≠ '#'))

theorem ColorTerm.isHex_value (t : ColorTerm) : ∀ c ∈ t.value, isHex c = true := by
  intro d hd
  obtain ⟨c, hc, rfl⟩ := List.mem_map.mp hd
  obtain ⟨hmem, hhash⟩ := List.mem_filter.mp hc
  exact (t.digits c hmem).resolve_left (of_decide_eq_true hhash)

theorem ColorTerm.quote_notMem (t : ColorTerm) : '\'' ∉ t.value := notMem_hex t.isHex_value rfl

theorem ColorTerm.value_ne_nil (t : ColorTerm) : t.value ≠ [] := by
  obtain ⟨c, hc, hhash⟩ := t.nonempty
  exact List.ne_nil_of_mem (List.mem_map_of_mem (List.mem_filter.mpr ⟨hc, decide_eq_true hhash⟩))

/-- The same request with a colour. -/
def colorQuery (cid : Nat) (includes excludes : List FilterTerm) (t : ColorTerm) : Query :=
  { filterQuery cid includes excludes with colorfilter := some t.text }

/-- A digit of a colour is no space. -/
theorem isSpace_of_isHex {c : Char} (h : isHex c.toUpper = true) : Ruby.isSpace c = false := by
  have hall : ∀ n < 128, 33 ≤ n → Ruby.isSpace (Char.ofNat n) = false := by decide +kernel
  have hrange : 33 ≤ c.toNat ∧ c.toNat < 128 := by
    unfold Char.toUpper at h
    split at h
    case isTrue hlower =>
      exact ⟨Nat.le_trans (by decide) hlower.1, Nat.lt_of_le_of_lt hlower.2 (by decide)⟩
    case isFalse =>
      rw [isHex, Bool.or_eq_true, Bool.and_eq_true, decide_eq_true_eq, decide_eq_true_eq,
        Char.isDigit_iff_toNat] at h
      obtain ⟨hge, hle⟩ | ⟨hge, hle⟩ := h
      · exact ⟨Nat.le_trans (by decide) hge, Nat.lt_of_le_of_lt hle (by decide)⟩
      · exact ⟨Nat.le_trans (by decide) hge, Nat.lt_of_le_of_lt hle (by decide)⟩
  have hspace := hall c.toNat hrange.2 hrange.1
  rwa [Char.ofNat_toNat] at hspace

theorem colorSlot_value (t : ColorTerm) : colorSlot (some t.text) = some t.value := by
  have hblank : Ruby.blank t.text = false := by
    obtain ⟨c, hc, hhash⟩ := t.nonempty
    have hspace := isSpace_of_isHex ((t.digits c hc).resolve_left hhash)
    refine Bool.eq_false_iff.mpr fun hblank => ?_
    rw [List.all_eq_true.mp hblank c hc] at hspace
    exact absurd hspace (by decide)
  rw [colorSlot, WorksIndex.present, Option.filter_some_pos (by rw [hblank]; rfl), Option.map_some]
  exact congrArg some (quoteString_of_notMem t.quote_notMem)

/-- A colour goes into its place, and changes nothing else. -/
theorem clause_colorfilter (ids : List Int) (q : Query) (color : Option Text) :
    clause ids { q with colorfilter := color } = (clause ids q).map fun d => { d with color := colorSlot color } := by
  simp only [clause]
  cases collectionSlot ids q.collectionId with
  | none => rfl
  | some collection =>
    cases (terms isOther q.includes).bind fill with
    | none => rfl
    | some includes =>
      cases (terms (fun _ => false) q.excludes).bind fill with
      | none => rfl
      | some excludes => rfl

/-- The contents of the literals of the clause. -/
def colorContents (cid : Nat) (includes excludes : List FilterTerm) (t : ColorTerm) : Clause :=
  { filterContents cid includes excludes with color := some t.value }

/-- Names have no quotes, and the quotes of values are doubled. -/
theorem standsFor_filterTerms (ts : List FilterTerm) :
    List.Forall₂ StandsFor (ts.map fun t => (t.name, Rails.quoteString (pattern t.value)))
      (ts.map fun t => (t.name, pattern t.value)) := by
  induction ts with
  | nil => exact .nil
  | cons t ts ih =>
    exact .cons ⟨.of_notMem (t.name_plain.notMem (by decide)), enclosed_quoteString _⟩ ih

theorem lex_colorQuery {ids : List Int} {cid : Nat} (hcid : (cid : Int) ∈ ids) (includes excludes : List FilterTerm)
    (t : ColorTerm) :
    ∃ sql, whereClause ids (colorQuery cid includes excludes t) = some sql ∧
      Sql.lex sql = (colorContents cid includes excludes t).tokens := by
  refine ⟨_, by rw [whereClause_eq, colorQuery, clause_colorfilter, clause_filterQuery hcid, Option.map_some,
    Option.map_some], lex_clause ?_⟩
  rw [colorSlot_value]
  exact ⟨.some (Sql.intLiteral_digits Nat.toDigits_ne_nil fun c hc => Ruby.isDigit_toDigits hc), rfl,
    standsFor_filterTerms includes, standsFor_filterTerms excludes, .some (.of_notMem t.quote_notMem)⟩

/-- The truth value of the clause, with a colour. -/
def colorClauseTruth (lower : Text → Text) (cid : Nat) (includes excludes : List FilterTerm) (t : ColorTerm)
    (w : Row) : Option Bool :=
  Kleene.all (w.collectionId.map fun z => decide (z = (cid : Int)))
    (groupTruth Kleene.all (includes.map (termTruth lower w))
      ++ groupTruth (fun a as => Kleene.not (Kleene.any a as)) (excludes.map (termTruth lower w))
      ++ [colorTruth w t.value])

theorem truth_colorClause (lower : Text → Text) (cid : Nat) (includes excludes : List FilterTerm) (t : ColorTerm)
    (w : Row) :
    Sql.truth lower w.columns (Sql.conjunction (collectionExpr (Nat.toDigits 10 cid))
        ((colorContents cid includes excludes t).readings.map Prod.snd)) =
      some (colorClauseTruth lower cid includes excludes t w) := by
  have htruths : (colorContents cid includes excludes t).truths lower w =
      groupTruth Kleene.all (includes.map (termTruth lower w))
        ++ groupTruth (fun a as => Kleene.not (Kleene.any a as)) (excludes.map (termTruth lower w))
        ++ [colorTruth w t.value] := by
    have hterms : ∀ ts : List FilterTerm,
        (ts.map fun t => (t.name, pattern t.value)).map (conditionTruth lower w) =
          ts.map (termTruth lower w) := fun ts => List.map_map
    rw [Clause.truths, colorContents, filterContents, hterms, hterms]
    rfl
  have hcollection : collectionTruth w (Nat.toDigits 10 cid) =
      w.collectionId.map fun z => decide (z = (cid : Int)) := by
    rw [collectionTruth, Nat.ofDigitChars_ten_toDigits]
  rw [colorClauseTruth, ← htruths, ← hcollection]
  exact Sql.truth_conjunction (truth_collection w _) (forall₂_truth_readings _ w)

/-- A colour is one more condition. -/
theorem colorClauseTruth_eq_true (lower : Text → Text) (cid : Nat) (includes excludes : List FilterTerm)
    (t : ColorTerm) (w : Row) :
    colorClauseTruth lower cid includes excludes t w = some true ↔
      clauseTruth lower cid includes excludes w = some true ∧ colorTruth w t.value = some true := by
  rw [colorClauseTruth, clauseTruth, Kleene.all_eq_true, Kleene.all_eq_true, ← List.cons_append,
    List.forall_mem_append, List.forall_mem_singleton]

/-- When the condition on the colours is true. -/
theorem colorTruth_eq_true {w : Row} {colors : Option (List Color)} (hw : w.topColors = colors.map topColorsText)
    (hcolors : ∀ cs ∈ colors, ∀ c ∈ cs, IsColor c.color.toList) (t : ColorTerm) :
    colorTruth w t.value = some true ↔ ∃ cs ∈ colors, ∃ c ∈ cs, Has t.value c := by
  have hpattern : ∀ c ∈ t.value, Sql.isPatternChar c = false := by
    intro c hc
    refine Bool.eq_false_iff.mpr fun hpattern => ?_
    obtain (rfl | rfl) | rfl : (c = '%' ∨ c = '_') ∨ c = '\\' := by simpa [Sql.isPatternChar] using hpattern
    · exact notMem_hex t.isHex_value rfl hc
    · exact notMem_hex t.isHex_value rfl hc
    · exact notMem_hex t.isHex_value rfl hc
  rw [colorTruth, hw, Option.map_map, Option.map_eq_some_iff]
  refine exists_congr fun cs => and_congr_right fun hcs => ?_
  rw [Function.comp_apply, Sql.like_contains hpattern]
  exact infix_topColorsText t.isHex_value t.value_ne_nil (hcolors cs hcs)

section Search

variable {D : Type} (A : Adapter D) (jobs : ArchiveWork → List Job)

/-- What the index reads of a work after its jobs. -/
def row (cid : Nat) (w : ArchiveWork) : Row := rowOf cid topColorsText (run A (jobs w) (uploaded w.original))

theorem topColors_row (cid : Nat) (w : ArchiveWork) :
    (row A jobs cid w).topColors = (lastColors A (.str w.original) (jobs w)).map topColorsText := by
  have hdoc : (uploaded (D := D) w.original).document = .str w.original := rfl
  rw [row, rowOf, run_topColors A (jobs w) hdoc]
  exact congrArg (Option.map topColorsText) Option.or_none

/-- **What a colour finds.** After any jobs, a colour narrows a search for plain terms to the works of which the
last colours that were saved have it; or, if it has no letter, have it among the digits of a share. -/
theorem search_color (lower : Text → Text) {ids : List Int} {cid : Nat} (hcid : (cid : Int) ∈ ids)
    (includes excludes : List FilterTerm) (t : ColorTerm) {works : List ArchiveWork}
    (hcolors : ∀ w ∈ works, ∀ j ∈ jobs w, ∀ cs, j.thumb = .histogram cs → ∀ c ∈ cs, IsColor c.color.toList) :
    ∃ found narrowed,
      search lower ids (filterQuery cid includes excludes) (row A jobs cid) works = some found ∧
      search lower ids (colorQuery cid includes excludes t) (row A jobs cid) works = some narrowed ∧
      narrowed.Sublist found ∧
      ∀ w, w ∈ narrowed ↔ w ∈ found ∧ ∃ cs ∈ lastColors A (.str w.original) (jobs w), ∃ c ∈ cs,
        t.value <:+: c.color.toList ∨
          (∀ d ∈ t.value, d.isDigit = true) ∧ t.value <:+: (Json.float c.percent).generate := by
  obtain ⟨sql, hsql, hlex⟩ := lex_colorQuery hcid includes excludes t
  have hparse : Sql.parseCondition (Sql.lex sql) = some (Sql.conjunction (collectionExpr (Nat.toDigits 10 cid))
      ((colorContents cid includes excludes t).readings.map Prod.snd)) := by
    rw [hlex]
    exact parseCondition_tokens rfl rfl
  have hnarrowed : search lower ids (colorQuery cid includes excludes t) (row A jobs cid) works =
      some (works.filter fun w => colorClauseTruth lower cid includes excludes t (row A jobs cid w) == some true) := by
    rw [search, hsql, Option.bind_some]
    exact Sql.select_eq hparse (fun w => truth_colorClause lower cid includes excludes t (row A jobs cid w)) works
  have htruth : ∀ w, (colorClauseTruth lower cid includes excludes t (row A jobs cid w) == some true) = true ↔
      (clauseTruth lower cid includes excludes (row A jobs cid w) == some true) = true ∧
        colorTruth (row A jobs cid w) t.value = some true := by
    intro w
    rw [beq_iff_eq, beq_iff_eq]
    exact colorClauseTruth_eq_true lower cid includes excludes t _
  refine ⟨_, _, search_eq lower hcid includes excludes _ works, hnarrowed,
    List.monotone_filter_right works fun w hw => ((htruth w).mp hw).1, fun w => ?_⟩
  have hfinds : w ∈ works → (colorTruth (row A jobs cid w) t.value = some true ↔
      ∃ cs ∈ lastColors A (.str w.original) (jobs w), ∃ c ∈ cs, Has t.value c) := fun hw =>
    colorTruth_eq_true (topColors_row A jobs cid w)
      (fun cs hcs => isColor_lastColors A (hcolors w hw) hcs) t
  simp only [has_iff t.isHex_value] at hfinds
  rw [List.mem_filter, List.mem_filter, htruth, and_assoc]
  exact and_congr_right fun hw => and_congr_right fun _ => hfinds hw

end Search

/-- The shares of two colours as floats. -/
def tenths (q : Rat) : Flt :=
  if q = 9 / 10 then .finite ⟨false, 9, -1, by decide, by decide +kernel⟩
  else .finite ⟨false, 1, -1, by decide, by decide +kernel⟩

def shares : List Colors.Share := [⟨"#000000".toList, 9 / 10⟩, ⟨"#FFFFFF".toList, 1 / 10⟩]

/-- A job that finds a thumbnail in black and white. -/
def blackAndWhite : Job := ⟨titles, .histogram (shares.map (colorOf tenths))⟩

def black : ColorTerm where
  text := "#000000".toList
  digits := List.all_iff_forall_prop.mp rfl
  nonempty := ⟨'0', by decide, by decide⟩

/-- Black finds the work. -/
theorem search_color_black :
    ∃ narrowed, search (List.map Char.toLower) [1] (colorQuery 1 [] [] black)
        (row (.plain true) (fun _ => [blackAndWhite]) 1) [monaLisaWork] = some narrowed ∧ monaLisaWork ∈ narrowed := by
  have hextract : Colors.extractColors Colors.insertionSorting (some Colors.twoColors) =
      some (some shares) := by decide +kernel
  have hcolors : ∀ w ∈ [monaLisaWork], ∀ j ∈ [blackAndWhite], ∀ cs, j.thumb = .histogram cs →
      ∀ c ∈ cs, IsColor c.color.toList := by
    intro w _ j hj cs hcs
    obtain rfl := List.mem_singleton.mp hj
    obtain rfl := Thumb.histogram.inj hcs
    exact isColor_histogram hextract tenths
  obtain ⟨found, narrowed, hfound, hnarrowed, -, hiff⟩ := search_color (.plain true) (fun _ => [blackAndWhite])
    (List.map Char.toLower) (List.mem_singleton_self (1 : Int)) [] [] black hcolors
  refine ⟨narrowed, hnarrowed, (hiff monaLisaWork).mpr ⟨?_, ?_⟩⟩
  · rw [search_eq _ (List.mem_singleton_self (1 : Int))] at hfound
    obtain rfl := Option.some.inj hfound
    exact List.mem_filter.mpr ⟨List.mem_singleton_self _, rfl⟩
  · have hlast : lastColors (.plain true) (.str monaLisaWork.original) [blackAndWhite] =
        some (shares.map (colorOf tenths)) := by decide +kernel
    exact ⟨_, hlast, _, List.mem_cons_self, .inl (by decide +kernel)⟩

end Colorfilter
end Curarium
