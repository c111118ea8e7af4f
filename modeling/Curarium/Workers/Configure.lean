import Curarium.Work.Save
import Curarium.Library.Cells
import Curarium.Library.Lists
import Curarium.Json.RoundTrip

/-!
# `ConfigureWork`: reading a work again under a new configuration

A reconfiguration runs `ConfigureWork.perform` on every work. The job reads the original of the
work under its configuration, saves the result as `parsed`, and saves the colours of the thumbnail
with a second `update` of the same object.

* `perform_eq` — a job either leaves the row as it is, or applies the yield of its configuration,
  with the image rows appended twice if colours are saved.
* `run_columns` — over any number of jobs a column holds what was last written to it, and the
  images accumulate.
* `run_observe_iff` — so the last of several jobs leaves what it would leave on a newly uploaded
  work exactly when it finds no column written that it does not write, and no image
  (`HistoryFree`).
* `perform_stored_iff` — what is stored for a field reads back as the list that was extracted
  exactly when its values are readable.
-/

namespace Curarium

open Work

variable {D : Type} (A : Adapter D)

namespace ConfigureWork

/-- `ConfigureWork#perform` on the row of the work. The `rescue` keeps what was committed. -/
def perform (c : Configuration) (thumb : Thumb) (row : Record D) : Record D :=
  match save A (assignParsed A (load row) (c.parse row.document)) with
  | none => row
  | some w => ((updateColors A thumb w).getD w).row

/-- What the job of a configuration yields for an original; `none` where its save raises. -/
def yield (c : Configuration) (original : Json) : Option (Yield D) := yieldOf A (c.parse original)

/-- The rows a job appends: those of the yield, once more with the colours. -/
def rowsOf (thumb : Thumb) (y : Yield D) : List Image :=
  if thumb.savesColors = true then y.rows ++ y.rows else y.rows

/-- The row after a job whose save went through. -/
def settle (thumb : Thumb) (y : Yield D) (row : Record D) : Record D :=
  match thumb with
  | .histogram (c :: cs) =>
    { y.apply A row with
      primaryColor := some c.color
      topColors := some (c :: cs)
      images := row.images ++ y.rows ++ y.rows }
  | _ => y.apply A row

/-- **What a job does to a row.** -/
theorem perform_eq (c : Configuration) (thumb : Thumb) (row : Record D) :
    perform A c thumb row
      = ((yield A c row.document).map fun y => settle A thumb y row).getD row := by
  unfold perform yield
  rw [save_assigned]
  cases h : yieldOf A (c.parse row.document) with
  | none => rfl
  | some y =>
    -- the colours are the only thing that can still change the row
    rcases thumb with _ | _ | ⟨_ | ⟨c, cs⟩⟩
    · rfl
    · rfl
    · rfl
    · simp [updateColors, save_assignColors A h, settle]

/-- What a job does to the columns and to the images, one by one. -/
theorem settle_columns (thumb : Thumb) (y : Yield D) (row : Record D) :
    (settle A thumb y row).original = row.original ∧
    (settle A thumb y row).parsed = some (y.parsed.map (stored A)) ∧
    (settle A thumb y row).uniqueIdentifier = y.uniqueIdentifier.getD row.uniqueIdentifier ∧
    (settle A thumb y row).title = y.title.getD row.title ∧
    (settle A thumb y row).datestart = y.datestart.getD row.datestart ∧
    (settle A thumb y row).dateend = y.dateend.getD row.dateend ∧
    (settle A thumb y row).images = row.images ++ rowsOf thumb y := by
  rcases thumb with _ | _ | ⟨_ | ⟨c, cs⟩⟩
  · exact ⟨rfl, rfl, rfl, rfl, rfl, rfl, rfl⟩
  · exact ⟨rfl, rfl, rfl, rfl, rfl, rfl, rfl⟩
  · exact ⟨rfl, rfl, rfl, rfl, rfl, rfl, rfl⟩
  · exact ⟨rfl, rfl, rfl, rfl, rfl, rfl, List.append_assoc _ _ _⟩

/-! ### Jobs one after the other -/

/-- A job of one work, with the way its thumbnail went. -/
structure Job where
  configuration : Configuration
  thumb : Thumb

/-- The jobs run one after the other, each on the row it finds. -/
def run (jobs : List Job) (row : Record D) : Record D :=
  jobs.foldl (fun row j => perform A j.configuration j.thumb row) row

variable (original : Json)

/-- The write of a job to a column. -/
def writes {α : Type} (column : Yield D → Option α) (j : Job) : Option α :=
  (yield A j.configuration original).bind column

/-- The image rows a job creates. -/
def creates (j : Job) : List Image :=
  ((yield A j.configuration original).map (rowsOf j.thumb)).getD []

/-- The columns that a job may write. -/
def parsedColumn (y : Yield D) : Option (Option (List (String × Option String))) :=
  some (some (y.parsed.map (stored A)))

variable {original}

/-- One job: each column gets its optional write, and the images are appended to. -/
theorem perform_columns (j : Job) {row : Record D} (h : row.document = original) :
    (perform A j.configuration j.thumb row).document = original ∧
    (perform A j.configuration j.thumb row).parsed
      = Cells.put row.parsed (writes A original (parsedColumn A) j) ∧
    (perform A j.configuration j.thumb row).uniqueIdentifier
      = Cells.put row.uniqueIdentifier (writes A original Yield.uniqueIdentifier j) ∧
    (perform A j.configuration j.thumb row).title
      = Cells.put row.title (writes A original Yield.title j) ∧
    (perform A j.configuration j.thumb row).datestart
      = Cells.put row.datestart (writes A original Yield.datestart j) ∧
    (perform A j.configuration j.thumb row).dateend
      = Cells.put row.dateend (writes A original Yield.dateend j) ∧
    (perform A j.configuration j.thumb row).images = row.images ++ creates A original j := by
  rw [perform_eq, h]
  unfold writes creates
  cases yield A j.configuration original with
  | none =>
    -- the job raises and writes nothing
    exact ⟨h, rfl, rfl, rfl, rfl, rfl, (List.append_nil _).symm⟩
  | some y =>
    obtain ⟨horig, hrest⟩ := settle_columns A j.thumb y row
    refine ⟨?_, hrest⟩
    change (settle A j.thumb y row).document = original
    rw [Record.document, horig]
    exact h

/-- **Over a run**, every column holds its last write and the images accumulate. -/
theorem run_columns (jobs : List Job) {row : Record D} (h : row.document = original) :
    (run A jobs row).parsed
      = Cells.run row.parsed (jobs.map (writes A original (parsedColumn A))) ∧
    (run A jobs row).uniqueIdentifier
      = Cells.run row.uniqueIdentifier (jobs.map (writes A original Yield.uniqueIdentifier)) ∧
    (run A jobs row).title = Cells.run row.title (jobs.map (writes A original Yield.title)) ∧
    (run A jobs row).datestart
      = Cells.run row.datestart (jobs.map (writes A original Yield.datestart)) ∧
    (run A jobs row).dateend
      = Cells.run row.dateend (jobs.map (writes A original Yield.dateend)) ∧
    (run A jobs row).images = row.images ++ jobs.flatMap (creates A original) := by
  induction jobs generalizing row with
  | nil => exact ⟨rfl, rfl, rfl, rfl, rfl, (List.append_nil _).symm⟩
  | cons j jobs ih =>
    obtain ⟨hdoc, hparsed, huid, htitle, hstart, hend, himages⟩ := perform_columns A j h
    obtain ⟨iparsed, iuid, ititle, istart, iend, iimages⟩ := ih hdoc
    -- each column holds what the jobs after the first make of what the first has left
    refine ⟨?_, ?_, ?_, ?_, ?_, ?_⟩
    · exact iparsed.trans (by rw [hparsed]; rfl)
    · exact iuid.trans (by rw [huid]; rfl)
    · exact ititle.trans (by rw [htitle]; rfl)
    · exact istart.trans (by rw [hstart]; rfl)
    · exact iend.trans (by rw [hend]; rfl)
    · refine iimages.trans ?_
      rw [himages, List.flatMap_cons, List.append_assoc]

/-! ### History -/

/-- What a work shows of its configuration. -/
structure Observation (D : Type) where
  parsed : Option (List (String × Option String))
  title : Option String
  uniqueIdentifier : Option String
  datestart : Option D
  dateend : Option D
  images : List Image
deriving DecidableEq

def observe (row : Record D) : Observation D where
  parsed := row.parsed
  title := row.title
  uniqueIdentifier := row.uniqueIdentifier
  datestart := row.datestart
  dateend := row.dateend
  images := row.images

/-- A newly uploaded work: nothing but its original. -/
def uploaded (text : String) : Record D where
  original := some text
  parsed := none
  uniqueIdentifier := none
  title := none
  datestart := none
  dateend := none
  primaryColor := none
  topColors := none
  images := []

variable (original)

/-- The last job writes the column, or the earlier ones left nothing in it. -/
def Hides {α : Type} (column : Yield D → Option (Option α)) (earlier : List Job) (last : Job) :
    Prop :=
  (writes A original column last).isSome = true ∨
    ∀ v ∈ Cells.last (earlier.map (writes A original column)), v = none

/-- **No trace of the earlier jobs.** A column that the last job does not write holds nothing, and
no earlier job created an image. -/
structure HistoryFree (earlier : List Job) (last : Job) : Prop where
  parsed : Hides A original (parsedColumn A) earlier last
  title : Hides A original Yield.title earlier last
  uniqueIdentifier : Hides A original Yield.uniqueIdentifier earlier last
  datestart : Hides A original Yield.datestart earlier last
  dateend : Hides A original Yield.dateend earlier last
  images : ∀ j ∈ earlier, creates A original j = []

variable {original}

/-- One column: what the run leaves in it is what the last job alone leaves in it. -/
theorem run_column_iff {α : Type} (column : Yield D → Option (Option α)) (earlier : List Job)
    (last : Job) :
    Cells.run none ((earlier ++ [last]).map (writes A original column))
        = Cells.run none ([last].map (writes A original column))
      ↔ Hides A original column earlier last := by
  rw [List.map_append, Cells.run_append]
  exact Cells.put_run_eq_iff none _ _

/-- **History independence, and its limits.** Configurations applied one after the other to a
newly uploaded work leave what the last one alone leaves, exactly when the earlier ones left no
trace. -/
theorem run_observe_iff (text : String) (earlier : List Job) (last : Job) :
    observe (run A (earlier ++ [last]) (uploaded text)) = observe (run A [last] (uploaded text))
      ↔ HistoryFree A (.str text) earlier last := by
  have hdoc : (uploaded (D := D) text).document = .str text := rfl
  obtain ⟨hparsed, huid, htitle, hstart, hend, himages⟩ := run_columns A (earlier ++ [last]) hdoc
  obtain ⟨lparsed, luid, ltitle, lstart, lend, limages⟩ := run_columns A [last] hdoc
  -- the other columns keep the last value that was written, the images all of them
  have hsame : (uploaded (D := D) text).images ++ (earlier ++ [last]).flatMap (creates A (.str text))
      = (uploaded (D := D) text).images ++ [last].flatMap (creates A (.str text))
        ↔ ∀ j ∈ earlier, creates A (.str text) j = [] := by
    rw [List.flatMap_append, List.append_cancel_left_eq, List.append_left_eq_self,
      List.flatMap_eq_nil_iff]
  constructor
  · intro h
    exact {
      parsed := (run_column_iff A _ earlier last).mp
        (hparsed.symm.trans ((congrArg Observation.parsed h).trans lparsed))
      title := (run_column_iff A _ earlier last).mp
        (htitle.symm.trans ((congrArg Observation.title h).trans ltitle))
      uniqueIdentifier := (run_column_iff A _ earlier last).mp
        (huid.symm.trans ((congrArg Observation.uniqueIdentifier h).trans luid))
      datestart := (run_column_iff A _ earlier last).mp
        (hstart.symm.trans ((congrArg Observation.datestart h).trans lstart))
      dateend := (run_column_iff A _ earlier last).mp
        (hend.symm.trans ((congrArg Observation.dateend h).trans lend))
      images := hsame.mp (himages.symm.trans ((congrArg Observation.images h).trans limages)) }
  · intro h
    unfold observe
    rw [hparsed.trans (((run_column_iff A _ earlier last).mpr h.parsed).trans lparsed.symm),
      htitle.trans (((run_column_iff A _ earlier last).mpr h.title).trans ltitle.symm),
      huid.trans (((run_column_iff A _ earlier last).mpr h.uniqueIdentifier).trans luid.symm),
      hstart.trans (((run_column_iff A _ earlier last).mpr h.datestart).trans lstart.symm),
      hend.trans (((run_column_iff A _ earlier last).mpr h.dateend).trans lend.symm),
      himages.trans ((hsame.mpr h.images).trans limages.symm)]

/-- One field of a configuration. -/
def oneField (k : String) (path : List Json.Step) : Configuration where
  fields := [(k, .steps path)]
  nodup := by simp

/-- A title under the first configuration, a field `artist` under the second: the title stays. -/
theorem run_observe_stale_title :
    let text := "\x7b\"name\": \"Starry Night\", \"artist\": \"Van Gogh\"\x7d"
    let first : Job := ⟨oneField "title" [.str "name"], .notCached⟩
    let second : Job := ⟨oneField "artist" [.str "artist"], .notCached⟩
    observe (run (.plain true) [first, second] (uploaded text))
      ≠ observe (run (.plain true) [second] (uploaded text)) := by
  decide +kernel

/-! ### What is stored for a field -/

/-- The text stored for a list: its `inspect` text, whichever way `parsed` reads before the
save. -/
theorem stored_assignedField (k : String) (L : Option (List Json)) :
    stored A (assignedField A (k, L)) = (k, L.map fun xs => Field.toS A.printable (.list xs)) := by
  unfold stored assignedField
  cases L with
  | none => rfl
  | some xs => cases A.castsOnWrite <;> rfl

/-- What is stored of an extraction: the texts of all fields, apart from the three that are
removed. -/
def extraction (c : Configuration) (original : Json) : List (String × Option String) :=
  ((c.parse original).filter fun f => !extractedKeys.contains f.1).map fun f =>
    (f.1, f.2.map fun xs => Field.toS A.printable (.list xs))

/-- A job whose save goes through stores the extraction under its configuration. -/
theorem stored_yield {c : Configuration} {original : Json} {y : Yield D}
    (hy : yield A c original = some y) : y.parsed.map (stored A) = extraction A c original := by
  -- the fields that are kept are the ones without a column of their own
  have hparsed : y.parsed = except ((c.parse original).map (assignedField A)) := by
    unfold yield yieldOf at hy
    split at hy
    · next hnil =>
      obtain rfl := Option.some.inj hy
      rw [hnil]
      rfl
    · next hcons =>
      obtain ⟨e, -, hrows⟩ := Option.bind_eq_some_iff.mp hy
      obtain ⟨rows, -, rfl⟩ := Option.map_eq_some_iff.mp hrows
      rw [hcons]
      rfl
  rw [hparsed, except, List.filter_map, List.map_map, extraction]
  exact List.map_congr_left fun f _ => stored_assignedField A f.1 f.2

/-- **What a job stores** when its save goes through, and what it leaves. -/
theorem perform_parsed {c : Configuration} (thumb : Thumb) {row : Record D}
    (hsave : (yield A c row.document).isSome = true) :
    (perform A c thumb row).parsed = some (extraction A c row.document) ∧
      (perform A c thumb row).document = row.document := by
  obtain ⟨y, hy⟩ := Option.isSome_iff_exists.mp hsave
  obtain ⟨hdoc, hparsed, -⟩ := perform_columns A ⟨c, thumb⟩ (rfl : row.document = row.document)
  refine ⟨?_, hdoc⟩
  rw [hparsed, writes, hy, Option.bind_some, parsedColumn, Cells.put, Option.getD_some,
    stored_yield A hy]

/-- A field that the extraction does not remove is stored. -/
theorem lookup_extraction {c : Configuration} {original : Json} {k : String}
    {path : Collection.PathArg} (hfield : (k, path) ∈ c.fields) (hk : k ∉ extractedKeys) :
    (extraction A c original).lookup k
      = some ((Collection.followJson original path).map fun xs =>
          Field.toS A.printable (.list xs)) := by
  refine Lists.lookup_of_mem ?_ ?_
  · -- names stay distinct when some of them are removed
    have hkeys : (extraction A c original).map Prod.fst
        = ((c.parse original).filter fun f => !extractedKeys.contains f.1).map Prod.fst := by
      rw [extraction, List.map_map]
      rfl
    have hall : (c.parse original).map Prod.fst = c.fields.map Prod.fst := by
      rw [Configuration.parse, List.map_map]
      rfl
    rw [hkeys]
    refine List.Nodup.sublist (List.filter_sublist.map Prod.fst) ?_
    rw [hall]
    exact c.nodup
  · rw [extraction, List.mem_map]
    refine ⟨(k, Collection.followJson original path), ?_, rfl⟩
    rw [List.mem_filter]
    exact ⟨List.mem_map_of_mem hfield, by simpa using hk⟩

/-- **Stored metadata.** A job whose save goes through stores a text for every field that a path
extracts a list for, apart from the three that are removed; decoding that text gives the list
back exactly when its values are readable and nest no deeper than the parser goes. -/
theorem perform_stored_iff (c : Configuration) (thumb : Thumb) (row : Record D) (k : String)
    (path : Collection.PathArg) (L : List Json) (hfield : (k, path) ∈ c.fields)
    (hk : k ∉ extractedKeys) (hL : Collection.followJson row.document path = some L)
    (hsave : (yield A c row.document).isSome = true) :
    ∃ text, (perform A c thumb row).parsed.bind (List.lookup k) = some (some text) ∧
      (Json.parse text = some (.arr L) ↔
        (∀ x ∈ L, x.readable A.printable = true) ∧ (Json.arr L).depth ≤ maxNesting) := by
  refine ⟨Field.toS A.printable (.list L), ?_, ?_⟩
  · rw [(perform_parsed A thumb hsave).1, Option.bind_some, lookup_extraction A hfield hk, hL]
    rfl
  · rw [Json.parse, Field.toS, String.toList_ofList]
    exact parseText_inspect_iff A.printable L

/-- A list of topics reads back. -/
theorem perform_stored_topics :
    let text := "\x7b\"topic\": [\"stars\", \"night\"]\x7d"
    let L : List Json := [.arr [.str "stars", .str "night"]]
    ∃ stored, (perform (.plain true) (oneField "topics" [.str "topic"]) .notCached
        (uploaded text)).parsed.bind (List.lookup "topics") = some (some stored) ∧
      Json.parse stored = some (.arr L) := by
  intro text L
  obtain ⟨stored, hstored, hiff⟩ := perform_stored_iff (.plain true)
    (oneField "topics" [.str "topic"]) .notCached (uploaded text) "topics" (.steps [.str "topic"]) L
    List.mem_cons_self (by decide) (by decide +kernel) (by decide +kernel)
  exact ⟨stored, hstored, hiff.mpr (by decide +kernel)⟩

/-- An object does not: `=>` is no JSON. -/
theorem perform_stored_object :
    let text := "\x7b\"maker\": \x7b\"name\": \"Van Gogh\"\x7d\x7d"
    let L : List Json := [.obj [("name", .str "Van Gogh")]]
    Collection.followJson (.str text) (.steps [.str "maker"]) = some L ∧
      ∃ stored, (perform (.plain true) (oneField "maker" [.str "maker"]) .notCached
          (uploaded text)).parsed.bind (List.lookup "maker") = some (some stored) ∧
        Json.parse stored ≠ some (.arr L) := by
  refine ⟨by decide +kernel, "[\x7b\"name\"=>\"Van Gogh\"\x7d]", by decide +kernel, by decide +kernel⟩

end ConfigureWork
end Curarium
