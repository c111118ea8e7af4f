import Curarium.Work.Show
import Curarium.Workers.Configure
import Curarium.Library.Lists
import Curarium.Library.Runs
import Curarium.Library.Tables

/-!
# Visiting the page of a work

The page of a work relies on what earlier requests and jobs left: an image, metadata that can be
decoded, and annotations with a box. A collection is uploaded before it is configured, a job stores
what `inspect` prints, and `validate` with attribute names checks nothing.

* `step` is an upload, a job of a configuration, an annotation made or changed, an amendment, or a
  visit, in any order.
* `Sound` — what holds in every state: the collection of a work is there, and its metadata are texts
  of lists.
* `page_isSome_iff` — in a sound state a page is rendered exactly when its work is `Presentable`.
* `visits_iff` — so all visits of a run are answered with a page exactly when each finds its work
  presentable, which they do in every run whose steps all leave presentable data (`Careful`).
-/

namespace Curarium
namespace Show

open Tables Runs Work
open Amendments (Metadata Amendment lastAmendment)

variable {D : Type}

/-! ### States and events -/

/-- The tables, and the next ids. -/
structure State (D : Type) where
  names : Names
  works : List (WorkData D)
  nextCollection : Nat
  nextWork : Nat
  nextAnnotation : Nat

/-- `annotation_params`: for each attribute whether it is given, and with which value. -/
structure AnnotationParams where
  title : Option (Option String)
  body : Option (Option String)
  x : Option (Option WorksIndex.Text)
  y : Option (Option WorksIndex.Text)
  width : Option (Option WorksIndex.Text)
  height : Option (Option WorksIndex.Text)

inductive Event where
  /-- `CollectionsController#create`: the collection, and the JSON of its readable files -/
  | upload (name : String) (originals : List String)
  /-- `ConfigureWork#perform` -/
  | configure (work : Nat) (configuration : Configuration) (thumb : Thumb)
  /-- `AnnotationsController#create` -/
  | annotate (work : Nat) (currentUser : Option Nat) (params : AnnotationParams)
  /-- `AnnotationsController#update` -/
  | reannotate (id : Nat) (params : AnnotationParams)
  /-- `WorksController#update` -/
  | amend (work : Nat) (currentUser : Option Nat) (amended : Metadata)
  /-- `GET /works/:id` -/
  | visit (work : Nat)

/-- A parameter in an `integer` column. -/
def integer (param : Option WorksIndex.Text) : Option Int := (WorksIndex.present param).map Ruby.toI

/-- Does the column hold the number? -/
def fits (z : Option Int) : Bool := z.all fun z => decide (-2147483648 ≤ z ∧ z ≤ 2147483647)

/-- The parameters that are given, assigned to an annotation. -/
def Annotation.assign (a : Annotation) (p : AnnotationParams) : Annotation where
  id := a.id
  title := p.title.getD a.title
  body := p.body.getD a.body
  x := (p.x.map integer).getD a.x
  y := (p.y.map integer).getD a.y
  width := (p.width.map integer).getD a.width
  height := (p.height.map integer).getD a.height

/-- `save`, which validates nothing. The database refuses a number that is too large. -/
def Annotation.savable (a : Annotation) : Bool := fits a.x && fits a.y && fits a.width && fits a.height

/-- `Annotation.new` -/
def Annotation.new (id : Nat) : Annotation := ⟨id, none, none, none, none, none, none⟩

/-- `@work.annotations.new` and `save`. Without an image or a user the action raises. -/
def WorkData.annotate (w : WorkData D) (currentUser : Option Nat) (a : Annotation) : WorkData D :=
  if w.row.images ≠ [] ∧ currentUser.isSome = true ∧ a.savable = true then
    { w with annotations := w.annotations ++ [a] }
  else w

def WorkData.reannotate (id : Nat) (p : AnnotationParams) (w : WorkData D) : WorkData D :=
  { w with
    annotations := Tables.update Annotation.id id
      (fun a => if (a.assign p).savable then a.assign p else a) w.annotations }

def WorkData.amend (w : WorkData D) (currentUser : Option Nat) (amended : Metadata) : WorkData D :=
  match currentUser with
  | none => w
  | some user => { w with amendments := w.amendments ++ [⟨user, currentMetadata w, amended⟩] }

/-- A work as `CollectionsController#create` creates it. -/
def uploadedWork (id collectionId : Nat) (original : String) : WorkData D where
  id := id
  collectionId := collectionId
  row := ConfigureWork.uploaded original
  amendments := []
  annotations := []

section Step

variable (A : Adapter D)

def step (s : State D) : Event → Option (State D)
  | .upload name originals =>
    some { s with
      names := { s.names with collections := s.names.collections ++ [(s.nextCollection, name)] }
      works := s.works ++ originals.zipIdx.map fun o => uploadedWork (s.nextWork + o.2) s.nextCollection o.1
      nextCollection := s.nextCollection + 1
      nextWork := s.nextWork + originals.length }
  | .configure id c thumb =>
    some { s with
      works := update WorkData.id id
        (fun w => { w with row := ConfigureWork.perform A c thumb w.row }) s.works }
  | .annotate id currentUser params =>
    some { s with
      works := update WorkData.id id
        (fun w => w.annotate currentUser (( Annotation.new s.nextAnnotation).assign params)) s.works
      nextAnnotation := s.nextAnnotation + 1 }
  | .reannotate id params => some { s with works := s.works.map (WorkData.reannotate id params) }
  | .amend id currentUser amended =>
    some { s with works := update WorkData.id id (fun w => w.amend currentUser amended) s.works }
  | .visit _ => some s

end Step

/-- No collection yet, and the fields of the seeds. -/
def start (fields : List (String × String)) : State D := ⟨⟨[], fields⟩, [], 1, 1, 1⟩

/-! ### When a page is rendered -/

/-- Every visit to a work is answered with its page. -/
def Answered (s : State D) (e : Event) (_ : State D) : Prop :=
  ∀ w ∈ s.works, e = .visit w.id → (respond s.names w none .html).isSome = true

/-- Every value that is not empty is JSON. -/
def Decodes (fields : List (String × Option String)) : Prop :=
  ∀ f ∈ fields, f.2.getD "" ≠ "" → (Json.parse (f.2.getD "")).isSome = true

/-- The annotation has a box. -/
def Annotation.Boxed (a : Annotation) : Prop :=
  a.x.isSome = true ∧ a.y.isSome = true ∧ a.width.isSome = true ∧ a.height.isSome = true

/-- The work has what its page needs. -/
structure Presentable (w : WorkData D) : Prop where
  image : w.row.images ≠ []
  parsed : ∃ fields, w.row.parsed = some fields ∧ Decodes fields
  current : ∃ fields, currentMetadata w = some fields ∧ Decodes fields
  annotations : ∀ a ∈ w.annotations, a.Boxed

/-- Every value is the text of a list. -/
def Listed (A : Adapter D) (fields : List (String × Option String)) : Prop :=
  ∀ f ∈ fields, ∀ text, f.2 = some text → ∃ xs, text = Field.toS A.printable (.list xs)

theorem decodes_cons {f : String × Option String} {fields : List (String × Option String)} :
    Decodes (f :: fields) ↔
      (f.2.getD "" ≠ "" → (Json.parse (f.2.getD "")).isSome = true) ∧ Decodes fields :=
  List.forall_mem_cons

theorem evalParsed_isSome_iff (fields : List (String × Option String)) :
    (evalParsed fields).isSome = true ↔ Decodes fields := by
  induction fields with
  | nil => exact iff_of_true rfl fun f hf => nomatch hf
  | cons f fields ih =>
    obtain ⟨key, value⟩ := f
    rw [decodes_cons, evalParsed]
    by_cases hempty : value.getD "" = ""
    · -- `parsed` leaves out a field without a text
      rw [if_pos hempty, ih]
      exact (and_iff_right fun hne => absurd hempty hne).symm
    · rw [if_neg hempty]
      cases Json.parse (value.getD "") with
      | none => simp [hempty]
      | some j =>
        rw [Option.bind_some, Option.isSome_map, ih]
        exact (and_iff_right fun _ => rfl).symm

/-- The text of a list is not empty, and read as JSON it is an array. -/
theorem listText_spec (A : Adapter D) (xs : List Json) :
    Field.toS A.printable (.list xs) ≠ "" ∧
      ∀ j, Json.parse (Field.toS A.printable (.list xs)) = some j → ∃ ys, j = .arr ys := by
  constructor
  · intro h
    obtain ⟨cs, hcs⟩ := inspect_arr_head A.printable xs
    have hchars := congrArg String.toList h
    rw [Field.toS, String.toList_ofList, hcs] at hchars
    exact absurd hchars (by simp)
  · intro j hj
    rw [Json.parse, Field.toS, String.toList_ofList] at hj
    obtain ⟨ys, rfl, -⟩ := parseText_inspect_alike A.printable hj
    exact ⟨ys, rfl⟩

theorem metadataLines_isSome_iff {A : Adapter D} (names : Names)
    {fields : List (String × Option String)} (h : Listed A fields) :
    (metadataLines names fields).isSome = true ↔ Decodes fields := by
  induction fields with
  | nil => exact iff_of_true rfl fun f hf => nomatch hf
  | cons f fields ih =>
    obtain ⟨key, value⟩ := f
    have hrest : Listed A fields := fun f hf => h f (List.mem_cons_of_mem _ hf)
    rw [decodes_cons]
    cases value with
    | none =>
      rw [metadataLines, ih hrest]
      exact (and_iff_right fun hne => absurd rfl hne).symm
    | some text =>
      -- what is stored is a list, so what it reads as can be gone through
      obtain ⟨xs, rfl⟩ := h _ List.mem_cons_self text rfl
      obtain ⟨hne, harr⟩ := listText_spec A xs
      rw [metadataLines, Option.getD_some]
      cases hparse : Json.parse (Field.toS A.printable (.list xs)) with
      | none => simp [hne]
      | some j =>
        obtain ⟨ys, rfl⟩ := harr j hparse
        rw [Option.isSome_map, ih hrest]
        exact (and_iff_right fun _ => rfl).symm

theorem mediaItem_isSome_iff (a : Annotation) : (mediaItem a).isSome = true ↔ a.Boxed := by
  obtain ⟨id, title, body, x, y, width, height⟩ := a
  unfold mediaItem Annotation.Boxed
  cases x <;> cases y <;> cases width <;> cases height <;> simp

theorem mapM_mediaItem_isSome_iff (as : List Annotation) :
    (as.mapM mediaItem).isSome = true ↔ ∀ a ∈ as, a.Boxed := by
  rw [Lists.isSome_mapM_iff]
  exact forall₂_congr fun a _ => mediaItem_isSome_iff a

/-- **When a page is rendered.** -/
theorem page_isSome_iff {A : Adapter D} {names : Names} {w : WorkData D}
    (hcollection : ∃ name, names.collections.lookup w.collectionId = some name)
    (hlisted : ∀ fields, w.row.parsed = some fields → Listed A fields) :
    (respond names w none .html).isSome = true ↔ Presentable w := by
  obtain ⟨name, hname⟩ := hcollection
  have hfirst : imageAt w.row.images (imageIndex none) = w.row.images.head? := List.head?_eq_getElem?.symm
  constructor
  · -- a page has its image, the current metadata, the panel and the annotations
    intro h
    obtain ⟨r, hr⟩ := Option.isSome_iff_exists.mp h
    obtain ⟨image, himage, hr⟩ := Option.bind_eq_some_iff.mp hr
    obtain ⟨e, he, hr⟩ := Option.bind_eq_some_iff.mp hr
    obtain ⟨current, hcurrent, heval⟩ := Option.bind_eq_some_iff.mp he
    obtain ⟨panel, hpanel, hr⟩ := Option.bind_eq_some_iff.mp hr
    obtain ⟨items, hitems, -⟩ := Option.map_eq_some_iff.mp hr
    obtain ⟨_, -, hpanel⟩ := Option.bind_eq_some_iff.mp hpanel
    obtain ⟨parsed, hparsed, hpanel⟩ := Option.bind_eq_some_iff.mp hpanel
    obtain ⟨lines, hlines, -⟩ := Option.map_eq_some_iff.mp hpanel
    refine ⟨?_, ⟨parsed, hparsed, ?_⟩, ⟨current, hcurrent, ?_⟩, ?_⟩
    · rw [hfirst] at himage
      exact List.ne_nil_of_mem (List.mem_of_mem_head? himage)
    · exact (metadataLines_isSome_iff names (hlisted parsed hparsed)).mp (Option.isSome_of_eq_some hlines)
    · exact (evalParsed_isSome_iff current).mp (Option.isSome_of_eq_some heval)
    · exact (mapM_mediaItem_isSome_iff w.annotations).mp (Option.isSome_of_eq_some hitems)
  · rintro ⟨himages, ⟨parsed, hparsed, hdecodes⟩, ⟨current, hcurrent, hdecodes'⟩, hboxed⟩
    obtain ⟨image, images, himage⟩ := List.exists_cons_of_ne_nil himages
    obtain ⟨e, he⟩ := Option.isSome_iff_exists.mp ((evalParsed_isSome_iff current).mpr hdecodes')
    obtain ⟨lines, hlines⟩ := Option.isSome_iff_exists.mp
      ((metadataLines_isSome_iff names (hlisted parsed hparsed)).mpr hdecodes)
    obtain ⟨items, hitems⟩ := Option.isSome_iff_exists.mp
      ((mapM_mediaItem_isSome_iff w.annotations).mpr hboxed)
    rw [himage] at hfirst
    simp only [respond, hfirst, himage, List.head?_cons, hcurrent, he, metadataPanel, hname, hparsed,
      hlines, hitems, Option.bind_some, Option.map_some, Option.isSome_some]

/-! ### What a step does to a work -/

section Runs

variable (A : Adapter D)

/-- The work after a step that leaves it or changes it. -/
inductive Becomes : Event → WorkData D → WorkData D → Prop
  | same {e w} : Becomes e w w
  | configure {w c thumb} :
      Becomes (.configure w.id c thumb) w { w with row := ConfigureWork.perform A c thumb w.row }
  | annotate {w currentUser params} (n : Nat) :
      Becomes (.annotate w.id currentUser params) w
        (w.annotate currentUser (( Annotation.new n).assign params))
  | reannotate {w id params} : Becomes (.reannotate id params) w (w.reannotate id params)
  | amend {w currentUser amended} : Becomes (.amend w.id currentUser amended) w (w.amend currentUser amended)

variable {A}

theorem mem_update_becomes {e : Event} {f : WorkData D → WorkData D} {works : List (WorkData D)} {id : Nat}
    (hf : ∀ w, w.id = id → Becomes A e w (f w)) {w' : WorkData D}
    (hw' : w' ∈ update WorkData.id id f works) : ∃ w ∈ works, Becomes A e w w' := by
  obtain ⟨w, hw, rfl⟩ := mem_update.mp hw'
  refine ⟨w, hw, ?_⟩
  split
  · next hid => exact hf w hid
  · exact .same

/-- **What a step does**: a work of the state after it was there before, or it was uploaded. -/
theorem mem_step {s t : State D} {e : Event} (h : step A s e = some t) {w' : WorkData D}
    (hw' : w' ∈ t.works) :
    (∃ w ∈ s.works, Becomes A e w w') ∨
      ∃ name originals id original, e = .upload name originals ∧
        w' = uploadedWork id s.nextCollection original := by
  cases e with
  | upload name originals =>
    obtain rfl := Option.some.inj h
    -- the old works, and one for each document
    rcases List.mem_append.mp hw' with hold | hnew
    · exact Or.inl ⟨w', hold, .same⟩
    · obtain ⟨o, -, rfl⟩ := List.mem_map.mp hnew
      exact Or.inr ⟨name, originals, _, _, rfl, rfl⟩
  | configure id c thumb =>
    obtain rfl := Option.some.inj h
    refine Or.inl (mem_update_becomes ?_ hw')
    rintro w rfl
    exact .configure
  | annotate id currentUser params =>
    obtain rfl := Option.some.inj h
    refine Or.inl (mem_update_becomes ?_ hw')
    rintro w rfl
    exact .annotate s.nextAnnotation
  | reannotate id params =>
    obtain rfl := Option.some.inj h
    obtain ⟨w, hw, rfl⟩ := List.mem_map.mp hw'
    exact Or.inl ⟨w, hw, .reannotate⟩
  | amend id currentUser amended =>
    obtain rfl := Option.some.inj h
    refine Or.inl (mem_update_becomes ?_ hw')
    rintro w rfl
    exact .amend
  | visit id =>
    obtain rfl := Option.some.inj h
    exact Or.inl ⟨w', hw', .same⟩

/-- Names of collections are only added, and an upload adds that of its own. -/
theorem lookup_step {s t : State D} {e : Event} (h : step A s e = some t) :
    (∀ id name, s.names.collections.lookup id = some name →
      t.names.collections.lookup id = some name) ∧
    ∀ name originals, e = .upload name originals →
      ∃ name', t.names.collections.lookup s.nextCollection = some name' := by
  cases e with
  | upload name originals =>
    obtain rfl := Option.some.inj h
    refine ⟨fun id name' hid => ?_, fun _ _ _ => ?_⟩
    · show (s.names.collections ++ _).lookup id = _
      rw [List.lookup_append, hid]
      rfl
    · show ∃ name', (s.names.collections ++ _).lookup s.nextCollection = some name'
      rw [List.lookup_append, List.lookup_cons, beq_self_eq_true]
      cases s.names.collections.lookup s.nextCollection with
      | none => exact ⟨name, rfl⟩
      | some name' => exact ⟨name', rfl⟩
  | _ =>
    obtain rfl := Option.some.inj h
    exact ⟨fun _ _ hid => hid, fun _ _ he => nomatch he⟩

/-! ### What holds in every state -/

variable (A)

/-- The collection of every work is there, and its metadata are texts of lists. -/
structure Sound (s : State D) : Prop where
  collections : ∀ w ∈ s.works, ∃ name, s.names.collections.lookup w.collectionId = some name
  listed : ∀ w ∈ s.works, ∀ fields, w.row.parsed = some fields → Listed A fields

variable {A}

/-- A job stores the extraction, or leaves the metadata as they are. -/
theorem perform_parsed_cases (c : Configuration) (thumb : Thumb) (row : Record D) :
    (ConfigureWork.perform A c thumb row).parsed = some (ConfigureWork.extraction A c row.document) ∧
        (ConfigureWork.yield A c row.document).isSome = true ∨
      ConfigureWork.perform A c thumb row = row := by
  cases hy : ConfigureWork.yield A c row.document with
  | none =>
    refine Or.inr ?_
    rw [ConfigureWork.perform_eq, hy]
    rfl
  | some y =>
    exact Or.inl ⟨(ConfigureWork.perform_parsed A thumb (Option.isSome_of_eq_some hy)).1, rfl⟩

theorem mem_extraction {c : Configuration} {original : Json} {f : String × Option String} {text : String}
    (hf : f ∈ ConfigureWork.extraction A c original) (htext : f.2 = some text) :
    ∃ xs, (f.1, some xs) ∈ c.parse original ∧ f.1 ∉ extractedKeys ∧
      text = Field.toS A.printable (.list xs) := by
  obtain ⟨g, hg, rfl⟩ := List.mem_map.mp hf
  obtain ⟨hg, hkey⟩ := List.mem_filter.mp hg
  obtain ⟨xs, hxs, rfl⟩ := Option.map_eq_some_iff.mp htext
  refine ⟨xs, ?_, by simpa using hkey, rfl⟩
  rw [← hxs]
  exact hg

theorem Becomes.collectionId {e : Event} {w w' : WorkData D} (h : Becomes A e w w') :
    w'.collectionId = w.collectionId := by
  cases h with
  | same => rfl
  | configure => rfl
  | annotate n => unfold WorkData.annotate; split <;> rfl
  | reannotate => rfl
  | @amend _ currentUser _ => cases currentUser <;> rfl

theorem Becomes.listed {e : Event} {w w' : WorkData D} (h : Becomes A e w w')
    (hw : ∀ fields, w.row.parsed = some fields → Listed A fields) :
    ∀ fields, w'.row.parsed = some fields → Listed A fields := by
  cases h with
  | same => exact hw
  | @configure _ c thumb =>
    intro fields hfields
    -- the job writes a list for every field, or leaves the old text
    rcases perform_parsed_cases (A := A) c thumb w.row with ⟨hparsed, -⟩ | hsame
    · obtain rfl := Option.some.inj (hparsed.symm.trans hfields)
      intro f hf text htext
      obtain ⟨xs, -, -, rfl⟩ := mem_extraction hf htext
      exact ⟨xs, rfl⟩
    · refine hw fields ?_
      rw [← hsame]
      exact hfields
  | annotate n =>
    unfold WorkData.annotate
    split <;> exact hw
  | reannotate => exact hw
  | @amend _ currentUser _ => cases currentUser <;> exact hw

theorem Sound.step {s t : State D} {e : Event} (h : Sound A s) (hstep : step A s e = some t) :
    Sound A t := by
  obtain ⟨hkeep, hadd⟩ := lookup_step hstep
  constructor
  · -- no step moves a work to another collection
    intro w' hw'
    rcases mem_step hstep hw' with ⟨w, hw, hbecomes⟩ | ⟨name, originals, id, original, rfl, rfl⟩
    · obtain ⟨name, hname⟩ := h.collections w hw
      rw [hbecomes.collectionId]
      exact ⟨name, hkeep _ name hname⟩
    · exact hadd name originals rfl
  · intro w' hw'
    rcases mem_step hstep hw' with ⟨w, hw, hbecomes⟩ | ⟨name, originals, id, original, -, rfl⟩
    · exact hbecomes.listed (h.listed w hw)
    · -- an uploaded work has no metadata yet
      intro fields hfields
      cases hfields

/-! ### Careful runs -/

variable (A)

/-- The lists of the fields that are kept can be read back. -/
def ReadsKept (c : Configuration) (original : Json) : Prop :=
  ∀ f ∈ c.parse original, f.1 ∉ extractedKeys → ∀ xs, f.2 = some xs →
    (∀ x ∈ xs, x.readable A.printable = true) ∧ (Json.arr xs).depth ≤ maxNesting

/-- A parameter, if it is given, is a number. -/
def Numeric (param : Option (Option WorksIndex.Text)) : Prop :=
  ∀ v, param = some v → (integer v).isSome = true

/-- What each step has to leave for the visits after it: a job that goes through stores lists that can
be read back, an annotation has its four numbers when it is made and after a change, and an amendment is
a map that can be decoded. A visit finds an image, and metadata. -/
def Careful (s : State D) : Event → Prop
  | .upload _ _ => True
  | .configure id c _ => ∀ w ∈ s.works, w.id = id →
      (ConfigureWork.yield A c w.row.document).isSome = true → ReadsKept A c w.row.document
  | .annotate _ _ p => (( Annotation.new 0).assign p).Boxed
  | .reannotate _ p => Numeric p.x ∧ Numeric p.y ∧ Numeric p.width ∧ Numeric p.height
  | .amend _ currentUser amended =>
      currentUser.isSome = true → ∃ fields, amended = some fields ∧ Decodes fields
  | .visit id => ∀ w ∈ s.works, w.id = id → w.row.images ≠ [] ∧ w.row.parsed.isSome = true

/-- Nothing that was left for the page of the work is in its way. -/
structure Tended (w : WorkData D) : Prop where
  parsed : ∀ fields, w.row.parsed = some fields → Decodes fields
  amendments : ∀ a ∈ w.amendments, ∃ fields, a.amended = some fields ∧ Decodes fields
  annotations : ∀ a ∈ w.annotations, a.Boxed

variable {A}

/-- A list that can be read back is decoded. -/
theorem decodes_extraction {c : Configuration} {original : Json} (h : ReadsKept A c original) :
    Decodes (ConfigureWork.extraction A c original) := by
  intro f hf hne
  cases htext : f.2 with
  | none => rw [htext] at hne; exact absurd rfl hne
  | some text =>
    obtain ⟨xs, hxs, hkey, rfl⟩ := mem_extraction hf htext
    have hparse := (parseText_inspect_iff A.printable xs).mpr (h _ hxs hkey xs rfl)
    rw [Option.getD_some, Json.parse, Field.toS, String.toList_ofList, hparse]
    rfl

theorem Annotation.Boxed.assign {a : Annotation} {p : AnnotationParams} (h : a.Boxed)
    (hx : Numeric p.x) (hy : Numeric p.y) (hwidth : Numeric p.width) (hheight : Numeric p.height) :
    (a.assign p).Boxed := by
  have hkeep : ∀ {param : Option (Option WorksIndex.Text)} {old : Option Int}, Numeric param →
      old.isSome = true → ((param.map integer).getD old).isSome = true := by
    intro param old hparam hold
    cases param with
    | none => exact hold
    | some v => exact hparam v rfl
  exact ⟨hkeep hx h.1, hkeep hy h.2.1, hkeep hwidth h.2.2.1, hkeep hheight h.2.2.2⟩

/-- **A careful step** leaves every work tended. -/
theorem Tended.becomes {s : State D} {e : Event} {w w' : WorkData D} (h : Tended w) (hw : w ∈ s.works)
    (hcareful : Careful A s e) (hbecomes : Becomes A e w w') : Tended w' := by
  cases hbecomes with
  | same => exact h
  | @configure _ c thumb =>
    refine ⟨fun fields hfields => ?_, h.amendments, h.annotations⟩
    rcases perform_parsed_cases (A := A) c thumb w.row with ⟨hparsed, hyield⟩ | hsame
    · obtain rfl := Option.some.inj (hparsed.symm.trans hfields)
      exact decodes_extraction (hcareful w hw rfl hyield)
    · refine h.parsed fields ?_
      rw [← hsame]
      exact hfields
  | annotate n =>
    unfold WorkData.annotate
    split
    · exact ⟨h.parsed, h.amendments, forall_mem_insert h.annotations hcareful⟩
    · exact h
  | reannotate =>
    refine ⟨h.parsed, h.amendments, fun a' ha' => ?_⟩
    obtain ⟨a, ha, rfl⟩ := mem_update.mp ha'
    -- a box keeps its sides, or has new ones
    have hboxed := h.annotations a ha
    split
    · split
      · exact hboxed.assign hcareful.1 hcareful.2.1 hcareful.2.2.1 hcareful.2.2.2
      · exact hboxed
    · exact hboxed
  | @amend _ currentUser amended =>
    cases currentUser with
    | none => exact h
    | some user =>
      exact ⟨h.parsed, forall_mem_insert h.amendments (hcareful rfl), h.annotations⟩

/-- A work that was only uploaded has nothing in the way of its page, and no image for it. -/
theorem Tended.uploaded (id collectionId : Nat) (original : String) :
    Tended (uploadedWork id collectionId original : WorkData D) where
  parsed _ hfields := by cases hfields
  amendments _ ha := absurd ha List.not_mem_nil
  annotations _ ha := absurd ha List.not_mem_nil

/-- With an image and metadata, a tended work is presentable. -/
theorem Tended.presentable {w : WorkData D} (h : Tended w) (himage : w.row.images ≠ [])
    (hparsed : w.row.parsed.isSome = true) : Presentable w := by
  obtain ⟨fields, hfields⟩ := Option.isSome_iff_exists.mp hparsed
  refine ⟨himage, ⟨fields, hfields, h.parsed fields hfields⟩, ?_, h.annotations⟩
  unfold currentMetadata lastAmendment
  cases hlast : w.amendments.getLast? with
  | none => exact ⟨fields, hfields, h.parsed fields hfields⟩
  | some a => exact h.amendments a (List.mem_of_getLast? hlast)

/-! ### Visits -/

/-- A visit finds its work presentable. -/
def Finds (s : State D) (e : Event) : Prop := ∀ w ∈ s.works, e = .visit w.id → Presentable w

theorem answered_iff {s : State D} (h : Sound A s) (e : Event) (t : State D) :
    Answered s e t ↔ Finds s e := by
  refine forall₃_congr fun w hw _ => ?_
  exact page_isSome_iff (h.collections w hw) (h.listed w hw)

variable (A)

/-- **A work page for every visit.** For every run of uploads, jobs of configurations, annotations,
amendments and visits: all the visits are answered with a page exactly when each of them finds its work
with an image, with metadata and current metadata that can be decoded, and with boxes for all its
annotations. They are in every run whose steps are all careful. -/
theorem visits_iff (fields : List (String × String)) (run : List Event) (t : State D)
    (hrun : exec (step A) (start fields) run = some t) :
    (Always (step A) Answered (start fields) run ↔ Meets (step A) Finds (start fields) run) ∧
      (Meets (step A) (Careful A) (start fields) run →
        Always (step A) Answered (start fields) run) := by
  have hstart : Sound A (start fields : State D) :=
    ⟨fun _ hw => absurd hw List.not_mem_nil, fun _ hw => absurd hw List.not_mem_nil⟩
  constructor
  · -- whatever the steps are, the state stays sound, and so a visit is answered if it finds its work
    refine always_iff_meets (J := Sound A) (I := fun _ => True) ?_ ?_ ?_ hstart trivial hrun
    · exact fun s e u hs hstep => hs.step hstep
    · exact fun _ _ _ _ => trivial
    · exact fun s e u hs _ _ => answered_iff hs e u
  · -- where they are careful, every work is tended besides
    refine always_of_meets (I := fun s => Sound A s ∧ ∀ w ∈ s.works, Tended w) ?_
      ⟨hstart, fun _ hw => absurd hw List.not_mem_nil⟩
    rintro s e u ⟨hs, htended⟩ hcareful hstep
    refine ⟨(answered_iff hs e u).mpr ?_, hs.step hstep, fun w' hw' => ?_⟩
    · rintro w hw rfl
      obtain ⟨himage, hparsed⟩ := hcareful w hw rfl
      exact (htended w hw).presentable himage hparsed
    · rcases mem_step hstep hw' with ⟨w, hw, hbecomes⟩ | ⟨_, _, id, original, -, rfl⟩
      · exact (htended w hw).becomes hw hcareful hbecomes
      · exact Tended.uploaded id s.nextCollection original

end Runs

/-! ### A visit after a job, and one before it -/

/-- A configuration for a title and an image. -/
def titleAndImage : Configuration where
  fields := [("title", .steps [.str "title"]), ("image", .steps [.str "image"])]
  nodup := by decide

/-- A document with a title and an image. -/
def starryNight : String := "\x7b\"title\":\"Starry Night\",\"image\":\"http://x/1.jpg\"\x7d"

/-- Once it is configured the page of the work is shown. -/
theorem visits_configured :
    Always (step (.plain false)) Answered (start [])
      [.upload "c" [starryNight], .configure 1 titleAndImage .notCached, .visit 1] := by
  have hparse : titleAndImage.parse (.str starryNight)
      = [("title", some [.str "Starry Night"]), ("image", some [.str "http://x/1.jpg"])] := by
    decide +kernel
  have hrow : (ConfigureWork.perform (.plain false) titleAndImage .notCached
      (ConfigureWork.uploaded starryNight)).images ≠ [] ∧
      (ConfigureWork.perform (.plain false) titleAndImage .notCached
        (ConfigureWork.uploaded starryNight)).parsed.isSome = true := by
    decide +kernel
  refine (visits_iff (.plain false) [] _ _ rfl).2 ⟨trivial, fun s hs => ?_⟩
  obtain rfl := Option.some.inj hs
  refine ⟨fun w hw _ _ => ?_, fun s hs => ?_⟩
  · obtain rfl := List.mem_singleton.mp hw
    show ReadsKept (.plain false) titleAndImage (.str starryNight)
    rw [ReadsKept, hparse]
    intro f hf hkey xs hxs
    rcases List.mem_cons.mp hf with rfl | hf
    · obtain rfl := Option.some.inj hxs
      decide +kernel
    · rw [List.mem_singleton.mp hf] at hkey
      exact absurd (by decide) hkey
  · obtain rfl := Option.some.inj hs
    refine ⟨fun w hw _ => ?_, fun _ _ => trivial⟩
    obtain rfl := List.mem_singleton.mp hw
    exact hrow

/-- Before that it is not: the work has no image yet. -/
theorem visits_uploaded :
    ¬Always (step (.plain false)) Answered (start []) [.upload "c" [starryNight], .visit 1] := by
  intro h
  have hvisit := ((h _ rfl).2 _ rfl).1
  exact absurd (hvisit (uploadedWork 1 1 starryNight) List.mem_cons_self rfl) (by decide +kernel)

end Show
end Curarium
