import Curarium.Work.Record

/-!
# One save, and the next one

What a save does is said once here, and the workers are reasoned about through it:

* `save_iff` — a save extracts, writes and appends the image rows;
* `extractAttributes_again` — once `parsed` has been extracted from, extracting again changes
  nothing: the three keys are gone, and the other columns get the values they have;
* `save_again_images` — but the accessors `iurls` and `turls` are still set, so the next save
  appends the same image rows once more;
* `save_assigned` — the save that follows an assignment of `parsed` to a work just loaded, as a
  `Yield`: the optional write of each column and the rows appended.
-/

namespace Curarium
namespace Work

variable {D : Type} (A : Adapter D)

/-! ### A save -/

/-- **What a save does.** -/
theorem save_iff {w w' : Work D} :
    save A w = some w' ↔ ∃ u rows, extractAttributes A w = some u ∧
      imageRows A u.iurls u.turls = some rows ∧
      w' = { write A u with row := { (write A u).row with images := u.row.images ++ rows } } := by
  constructor
  · intro h
    obtain ⟨u, hu, hcreate⟩ := Option.bind_eq_some_iff.mp h
    obtain ⟨rows, hrows, rfl⟩ := Option.map_eq_some_iff.mp hcreate
    exact ⟨u, rows, hu, hrows, rfl⟩
  · rintro ⟨u, rows, hu, hrows, rfl⟩
    rw [save, hu, Option.bind_some, createImages]
    -- writing the row does not touch the urls
    have hsame : imageRows A (write A u).iurls (write A u).turls = some rows := hrows
    rw [hsame]
    rfl

/-- The callback touches neither the images nor the colours nor the original. -/
theorem extractAttributes_images {w u : Work D} (h : extractAttributes A w = some u) :
    u.row.images = w.row.images := by
  unfold extractAttributes at h
  split at h
  · exact congrArg (fun u => u.row.images) (Option.some.inj h).symm
  · exact congrArg (fun u => u.row.images) (Option.some.inj h).symm
  · obtain ⟨e, -, rfl⟩ := Option.map_eq_some_iff.mp h
    rfl

/-! ### The removed keys -/

theorem get_except_removed (fields : List (String × Option Field)) {k : String}
    (hk : k ∈ extractedKeys) : get (except fields) k = none := by
  have hnone : (except fields).lookup k = none := by
    rw [List.lookup_eq_none_iff]
    intro f hf
    rw [except, List.mem_filter] at hf
    have hne : f.1 ≠ k := by
      rintro rfl
      simp [hk] at hf
    simpa using fun h : k = f.1 => hne h.symm
  rw [get, hnone, Option.bind_none]

theorem get_except_kept (fields : List (String × Option Field)) {k : String}
    (hk : k ∉ extractedKeys) :
    get (except fields) k = get fields k := by
  rw [get, get]
  congr 1
  -- a field that is removed is not the one looked for
  induction fields with
  | nil => rfl
  | cons f fields ih =>
    obtain ⟨l, v⟩ := f
    by_cases hl : l ∈ extractedKeys
    · have hne : (k == l) = false := by
        simp only [beq_eq_false_iff_ne]
        rintro rfl
        exact hk hl
      rw [except, List.filter_cons_of_neg (by simpa using hl), List.lookup_cons, hne]
      exact ih
    · rw [except, List.filter_cons_of_pos (by simpa using hl), List.lookup_cons, List.lookup_cons]
      cases k == l with
      | true => rfl
      | false => exact ih

/-- What is left in `parsed` after an extraction yields the same title and dates, and nothing
else. -/
theorem extract_except {fields : List (String × Option Field)} {e : Extraction D}
    (h : extract A fields = some e) :
    extract A (except fields)
      = some { e with uniqueIdentifier := none, iurls := none, turls := none } := by
  unfold extract at h ⊢
  obtain ⟨uid, -, h⟩ := Option.bind_eq_some_iff.mp h
  obtain ⟨iurls, -, h⟩ := Option.bind_eq_some_iff.mp h
  obtain ⟨turls, -, h⟩ := Option.bind_eq_some_iff.mp h
  obtain ⟨title, htitle, h⟩ := Option.bind_eq_some_iff.mp h
  obtain ⟨datestart, hstart, h⟩ := Option.bind_eq_some_iff.mp h
  obtain ⟨dateend, hend, rfl⟩ := Option.map_eq_some_iff.mp h
  -- three of the keys are gone, and the other three are as they were
  rw [get_except_removed fields (k := "unique_identifier") (by decide),
    get_except_removed fields (k := "image") (by decide),
    get_except_removed fields (k := "thumbnail") (by decide),
    get_except_kept fields (k := "title") (by decide),
    get_except_kept fields (k := "datestart") (by decide),
    get_except_kept fields (k := "dateend") (by decide), htitle, hstart, hend]
  rfl

/-! ### Saving the same object again -/

theorem except_except (fields : List (String × Option Field)) :
    except (except fields) = except fields := by
  rw [except, except, List.filter_filter]
  simp

/-- **Extracting again.** After an extraction, whatever is assigned to other columns and written,
the next extraction succeeds and leaves the accessors as they are; it leaves the whole object as
it is when title and dates are still what the first one assigned. -/
theorem extractAttributes_again {w u : Work D} (h : extractAttributes A w = some u)
    (row : Record D) (b : Bool) :
    ∃ row', extractAttributes A { u with row := row, assigned := b }
        = some { u with row := row', assigned := b } ∧ row'.images = row.images ∧
      (row.title = u.row.title → row.datestart = u.row.datestart →
        row.dateend = u.row.dateend → row' = row) := by
  unfold extractAttributes at h
  split at h
  · next hp =>
    obtain rfl := Option.some.inj h
    exact ⟨row, by simp [extractAttributes, hp], rfl, fun _ _ _ => rfl⟩
  · next hp =>
    obtain rfl := Option.some.inj h
    exact ⟨row, by simp [extractAttributes, hp], rfl, fun _ _ _ => rfl⟩
  · next f fields hp =>
    obtain ⟨e, he, rfl⟩ := Option.map_eq_some_iff.mp h
    have hagain := extract_except A he
    cases hleft : except (f :: fields) with
    | nil =>
      -- nothing is left in `parsed`, and the callback does nothing
      exact ⟨row, by simp [extractAttributes, assignExtraction, hleft], rfl, fun _ _ _ => rfl⟩
    | cons g rest =>
      have hsame : except (g :: rest) = g :: rest := by rw [← hleft, except_except]
      rw [hleft] at hagain
      refine ⟨{ row with
        title := e.title.getD row.title
        datestart := e.datestart
        dateend := e.dateend }, ?_, rfl, ?_⟩
      · simp [extractAttributes, assignExtraction, hleft, hagain, hsame]
      · intro htitle hstart hend
        change row.title = e.title.getD w.row.title at htitle
        change row.datestart = e.datestart at hstart
        change row.dateend = e.dateend at hend
        have ht : e.title.getD row.title = row.title := by
          rw [htitle]
          cases e.title <;> rfl
        rw [ht, ← hstart, ← hend]

/-- **The next save appends the same rows.** Whatever other columns are assigned in between, a
save that follows a save of the same object without a new `parsed` appends once more the image
rows that the first one appended. -/
theorem save_again_images {w w' : Work D} (h : save A w = some w') (row : Record D)
    (himages : row.images = w'.row.images) :
    ∃ rows w'', imageRows A w'.iurls w'.turls = some rows ∧
      w'.row.images = w.row.images ++ rows ∧ save A { w' with row := row } = some w'' ∧
      w''.row.images = w'.row.images ++ rows := by
  obtain ⟨u, rows, hu, hrows, rfl⟩ := (save_iff A).mp h
  obtain ⟨row', hagain, hsame, -⟩ := extractAttributes_again A hu row false
  refine ⟨rows, _, hrows, ?_, (save_iff A).mpr ⟨_, rows, hagain, hrows, rfl⟩, ?_⟩
  · change u.row.images ++ rows = _
    rw [extractAttributes_images A hu]
  · change row'.images ++ rows = _
    rw [hsame, himages]

/-! ### The save that follows an assignment -/

/-- What a save leaves behind after an assignment of `parsed`: the write of each column (`none`
leaves it), the accessors and the image rows. -/
structure Yield (D : Type) where
  parsed : List (String × Option Field)
  uniqueIdentifier : Option (Option String)
  title : Option (Option String)
  datestart : Option (Option D)
  dateend : Option (Option D)
  iurls : Option Json
  turls : Option Json
  rows : List Image

/-- The yield of an extraction. -/
def Yield.ofExtraction (fields : List (String × Option Field)) (e : Extraction D)
    (rows : List Image) : Yield D where
  parsed := except fields
  uniqueIdentifier := e.uniqueIdentifier
  title := e.title
  datestart := some e.datestart
  dateend := some e.dateend
  iurls := e.iurls
  turls := e.turls
  rows := rows

/-- The yield of an empty hash: nothing is extracted. -/
def Yield.empty : Yield D where
  parsed := []
  uniqueIdentifier := none
  title := none
  datestart := none
  dateend := none
  iurls := none
  turls := none
  rows := []

/-- What the save yields; `none` where it raises and is rolled back. -/
def yieldOf (parsed : List (String × Option (List Json))) : Option (Yield D) :=
  match parsed.map (assignedField A) with
  | [] => some .empty
  | f :: fields =>
    (extract A (f :: fields)).bind fun e =>
      (imageRows A e.iurls e.turls).map (Yield.ofExtraction (f :: fields) e)

/-- The row after the save. -/
def Yield.apply (y : Yield D) (row : Record D) : Record D :=
  { row with
    parsed := some (y.parsed.map (stored A))
    uniqueIdentifier := y.uniqueIdentifier.getD row.uniqueIdentifier
    title := y.title.getD row.title
    datestart := y.datestart.getD row.datestart
    dateend := y.dateend.getD row.dateend
    images := row.images ++ y.rows }

/-- The object after the save. -/
def Yield.work (y : Yield D) (row : Record D) : Work D where
  row := y.apply A row
  parsed := some y.parsed
  assigned := false
  iurls := y.iurls
  turls := y.turls

theorem extractAttributes_cons {w : Work D} {f : String × Option Field}
    {fields : List (String × Option Field)} (h : w.parsed = some (f :: fields)) :
    extractAttributes A w = (extract A (f :: fields)).map (assignExtraction w (f :: fields)) := by
  simp [extractAttributes, h]

theorem yieldOf_cons {parsed : List (String × Option (List Json))} {f : String × Option Field}
    {fields : List (String × Option Field)} (h : parsed.map (assignedField A) = f :: fields) :
    yieldOf A parsed = (extract A (f :: fields)).bind fun e =>
      (imageRows A e.iurls e.turls).map (Yield.ofExtraction (f :: fields) e) := by
  simp [yieldOf, h]

/-- **The save of a loaded work with a new `parsed`.** -/
theorem save_assigned (row : Record D) (parsed : List (String × Option (List Json))) :
    save A (assignParsed A (load row) parsed)
      = (yieldOf A parsed).map fun y => y.work A row := by
  cases hfields : parsed.map (assignedField A) with
  | nil =>
    have hnil : parsed = [] := List.map_eq_nil_iff.mp hfields
    subst hnil
    simp [save, yieldOf, extractAttributes, assignParsed, createImages, imageRows, load, write,
      Yield.work, Yield.apply, Yield.empty]
  | cons f fields =>
    have hparsed : (assignParsed A (load row) parsed).parsed = some (f :: fields) :=
      congrArg some hfields
    rw [save, extractAttributes_cons A hparsed, yieldOf_cons A hfields]
    -- the fields are extracted, and then the images are made of the urls
    cases extract A (f :: fields) with
    | none => rfl
    | some e =>
      simp only [Option.map_some, Option.bind_some, createImages, write, assignExtraction,
        assignParsed, load, Option.or_none]
      cases imageRows A e.iurls e.turls with
      | none => rfl
      | some rows => rfl

/-- The rows of a yield are those of its accessors. -/
theorem imageRows_of_yield {parsed : List (String × Option (List Json))} {y : Yield D}
    (h : yieldOf A parsed = some y) : imageRows A y.iurls y.turls = some y.rows := by
  unfold yieldOf at h
  split at h
  · obtain rfl := Option.some.inj h
    rfl
  · obtain ⟨e, -, h⟩ := Option.bind_eq_some_iff.mp h
    obtain ⟨rows, hrows, rfl⟩ := Option.map_eq_some_iff.mp h
    exact hrows

/-- **The second save of a worker.** Saving the colours succeeds, and appends the image rows a
second time. -/
theorem save_assignColors {row : Record D} {parsed : List (String × Option (List Json))}
    {y : Yield D} (h : yieldOf A parsed = some y) (primary : String) (histogram : List Color) :
    save A (assignColors (y.work A row) primary histogram)
      = some { y.work A row with
          row := { y.apply A row with
            primaryColor := some primary
            topColors := some histogram
            images := row.images ++ y.rows ++ y.rows } } := by
  have hsave : save A (assignParsed A (load row) parsed) = some (y.work A row) := by
    rw [save_assigned, h, Option.map_some]
  obtain ⟨u, rows, hu, hrows, hw⟩ := (save_iff A).mp hsave
  have hobj : assignColors (y.work A row) primary histogram
      = { u with row := (assignColors (y.work A row) primary histogram).row, assigned := false } := by
    rw [hw]
    rfl
  -- the second extraction leaves the object as it is
  obtain ⟨row', hagain, -, hrow⟩ := extractAttributes_again A hu
    (assignColors (y.work A row) primary histogram).row false
  have hsame : row' = (assignColors (y.work A row) primary histogram).row := by
    refine hrow ?_ ?_ ?_
    · exact congrArg (fun w => w.row.title) hw
    · exact congrArg (fun w => w.row.datestart) hw
    · exact congrArg (fun w => w.row.dateend) hw
  have hiurls : y.iurls = u.iurls := congrArg Work.iurls hw
  have hturls : y.turls = u.turls := congrArg Work.turls hw
  have hyrows := imageRows_of_yield A h
  rw [hiurls, hturls] at hyrows
  have hextract : extractAttributes A (assignColors (y.work A row) primary histogram)
      = some { u with row := row', assigned := false } := by
    rw [hobj, hagain]
  rw [(save_iff A).mpr ⟨_, y.rows, hextract, hyrows, rfl⟩, hsame]
  have hparsed : u.parsed = some y.parsed := (congrArg Work.parsed hw).symm
  simp [write, assignColors, Yield.work, Yield.apply, hiurls, hturls, hparsed]

end Work
end Curarium
