import Curarium.Amendments.Chain
import Curarium.Work.Record
import Curarium.Works.Index

/-!
# The page of a work

`WorksController#show` answers in three forms: a page, a popup for scripts, and JSON. The action finds
the current metadata of the work, those of the last amendment or of the work itself, and decodes every
value that is not empty. What a form shows is up to its template: the JSON has what the action decoded,
and the partial `works/_metadata`, which page and popup have in common, decodes `work.parsed`.

* `respond` is the action with its templates; it is `none` where one of them raises.
* `decoded` is what a map of metadata says of a field.
* `same_metadata_iff` — the three forms say the same exactly when the current metadata say what
  `work.parsed` says.

The panels for a user who is signed in are left out, and so are the thumbnails of the annotations.
-/

namespace Curarium
namespace Show

open Amendments (Metadata Amendment lastAmendment)

/-! ### Data -/

/-- A row of `annotations`. -/
structure Annotation where
  id : Nat
  title : Option String
  body : Option String
  x : Option Int
  y : Option Int
  width : Option Int
  height : Option Int
deriving DecidableEq

/-- A work with what belongs to it. The annotations are those of its first image; no request makes
another one. -/
structure WorkData (D : Type) where
  id : Nat
  collectionId : Nat
  row : Record D
  amendments : List Amendment
  annotations : List Annotation
deriving DecidableEq

/-- The tables that are looked into by name or id: the names of the collections, and the display names
of the collection fields. -/
structure Names where
  collections : List (Nat × String)
  fields : List (String × String)
deriving DecidableEq

inductive Format where
  | html
  | xhr
  | json
deriving DecidableEq

/-! ### The templates -/

/-- `@current_metadata` -/
def currentMetadata {D : Type} (w : WorkData D) : Metadata := lastAmendment w.row.parsed w.amendments

/-- `eval_parsed`: the values that are not empty, decoded. -/
def evalParsed : List (String × Option String) → Option (List (String × Json))
  | [] => some []
  | (key, value) :: fields =>
    if value.getD "" = "" then evalParsed fields
    else (Json.parse (value.getD "")).bind fun j => (evalParsed fields).map ((key, j) :: ·)

/-- A line of `works/_metadata`: the name of the field, as it is displayed, and its values. -/
structure Line where
  field : String
  label : String
  values : List Json

section Join

variable (printable : Char → Bool)

mutual
/-- An element as `Array#join` prints it. -/
def joinElem : Json → List Char
  | .arr xs => joinElems xs
  | j => j.toS printable

/-- `Array#join( ', ' )` -/
def joinElems : List Json → List Char
  | [] => []
  | [x] => joinElem x
  | x :: y :: xs => joinElem x ++ ", ".toList ++ joinElems (y :: xs)
end

/-- The text of a line. -/
def Line.text (l : Line) : String := String.ofList (joinElems printable l.values)

end Join

/-- The loop of `works/_metadata`. Only an array can be joined. -/
def metadataLines (names : Names) : List (String × Option String) → Option (List Line)
  | [] => some []
  | (_, none) :: fields => metadataLines names fields
  | (k, some v) :: fields =>
    match Json.parse v with
    | some (.arr xs) =>
      (metadataLines names fields).map ({ field := k, label := (names.fields.lookup k).getD "", values := xs } :: ·)
    | _ => none

/-- What `works/_metadata` shows: the name of the collection, and the lines. -/
structure Panel where
  collection : String
  lines : List Line

def metadataPanel {D : Type} (names : Names) (w : WorkData D) : Option Panel :=
  (names.collections.lookup w.collectionId).bind fun collection =>
    w.row.parsed.bind fun parsed =>
      (metadataLines names parsed).map fun lines => { collection, lines }

/-- `annotations/_media_item`: the corners of its box, and its texts. -/
structure MediaItem where
  id : Nat
  bbox : Int × Int × Int × Int
  title : Option String
  body : Option String

/-- `nil` cannot be added, and nothing can be added to it. -/
def mediaItem (a : Annotation) : Option MediaItem :=
  match a.x, a.y, a.width, a.height with
  | some x, some y, some width, some height =>
    some { id := a.id, bbox := (x, y, x + width, y + height), title := a.title, body := a.body }
  | _, _, _, _ => none

/-! ### The action -/

inductive Response where
  | page (title : Option String) (imageUrl : Option String) (panel : Panel)
      (surrogates : List (Option String)) (annotations : List MediaItem)
  | popup (title : Option String) (imageUrl : Option String) (panel : Panel)
      (surrogates : List (Option String))
  | json (id : Nat) (collectionId : Nat) (title : Option String) (parsed : List (String × Json))

/-- `@image_index` -/
def imageIndex (image : Option WorksIndex.Text) : Int :=
  ((WorksIndex.present image).map Ruby.toI).getD 0

/-- `@work.images[ @image_index ]`; a negative index counts from the end. -/
def imageAt (images : List Image) (i : Int) : Option Image :=
  if 0 ≤ i then images[i.toNat]?
  else if -i ≤ images.length then images[(images.length + i).toNat]?
  else none

/-- `WorksController#show` -/
def respond {D : Type} (names : Names) (w : WorkData D) (image : Option WorksIndex.Text)
    (format : Format) : Option Response :=
  (imageAt w.row.images (imageIndex image)).bind fun shown =>
    ((currentMetadata w).bind evalParsed).bind fun eval_parsed =>
      match format with
      | .json => some (.json w.id w.collectionId w.row.title eval_parsed)
      | .xhr =>
        (metadataPanel names w).bind fun panel =>
          w.row.images.head?.map fun first =>
            .popup w.row.title first.imageUrl panel (w.row.images.map Image.imageUrl)
      | .html =>
        (metadataPanel names w).bind fun panel =>
          (w.annotations.mapM mediaItem).map fun annotations =>
            .page w.row.title shown.imageUrl panel (w.row.images.map Image.thumbnailUrl) annotations

/-- The metadata that a response says of a field. -/
def Response.metadata (k : String) : Response → Option Json
  | .page _ _ panel _ _ => (panel.lines.find? fun l => l.field = k).map fun l => .arr l.values
  | .popup _ _ panel _ => (panel.lines.find? fun l => l.field = k).map fun l => .arr l.values
  | .json _ _ _ parsed => parsed.lookup k

/-! ### What the metadata say -/

/-- What a map says of a field: its value decoded, if it is not empty. -/
def decodedField (fields : List (String × Option String)) (k : String) : Option Json :=
  (fields.find? fun f => f.1 = k ∧ f.2.getD "" ≠ "").bind fun f => Json.parse (f.2.getD "")

/-- What the metadata say of a field. -/
def decoded (m : Metadata) (k : String) : Option Json := m.bind fun fields => decodedField fields k

theorem decodedField_cons (f : String × Option String) (fields : List (String × Option String))
    (k : String) :
    decodedField (f :: fields) k =
      if f.1 = k ∧ f.2.getD "" ≠ "" then Json.parse (f.2.getD "") else decodedField fields k := by
  rw [decodedField, List.find?_cons]
  by_cases h : f.1 = k ∧ f.2.getD "" ≠ ""
  · rw [decide_eq_true h, if_pos h, Option.bind_some]
  · rw [decide_eq_false h, if_neg h]
    rfl

theorem lookup_evalParsed {fields : List (String × Option String)} {e : List (String × Json)}
    (h : evalParsed fields = some e) (k : String) : e.lookup k = decodedField fields k := by
  induction fields generalizing e with
  | nil =>
    obtain rfl := Option.some.inj h
    rfl
  | cons f fields ih =>
    obtain ⟨key, value⟩ := f
    rw [evalParsed] at h
    rw [decodedField_cons]
    by_cases hempty : value.getD "" = ""
    · -- a field without a text is in neither
      rw [if_pos hempty] at h
      rw [if_neg fun hf => hf.2 hempty]
      exact ih h
    · rw [if_neg hempty] at h
      obtain ⟨j, hj, h⟩ := Option.bind_eq_some_iff.mp h
      obtain ⟨rest, hrest, rfl⟩ := Option.map_eq_some_iff.mp h
      rw [List.lookup_cons]
      by_cases hk : key = k
      · rw [if_pos ⟨hk, hempty⟩, hk, beq_self_eq_true]
        exact hj.symm
      · rw [if_neg fun hf => hk hf.1, beq_eq_false_iff_ne.mpr fun heq => hk heq.symm]
        exact ih hrest

/-- An empty text is no JSON. -/
theorem parse_empty : Json.parse "" = none := rfl

theorem find_metadataLines {names : Names} {fields : List (String × Option String)} {lines : List Line}
    (h : metadataLines names fields = some lines) (k : String) :
    ((lines.find? fun l => l.field = k).map fun l => .arr l.values) = decodedField fields k := by
  induction fields generalizing lines with
  | nil =>
    obtain rfl := Option.some.inj h
    rfl
  | cons f fields ih =>
    obtain ⟨key, value⟩ := f
    rw [decodedField_cons]
    cases value with
    | none =>
      rw [if_neg fun hf => hf.2 rfl]
      exact ih h
    | some v =>
      rw [metadataLines] at h
      split at h
      · next xs hparse =>
        obtain ⟨rest, hrest, rfl⟩ := Option.map_eq_some_iff.mp h
        -- the view does not ask for it, but an empty text would not have been read
        have hne : v ≠ "" := by
          rintro rfl
          rw [parse_empty] at hparse
          cases hparse
        rw [List.find?_cons]
        by_cases hk : key = k
        · rw [if_pos ⟨hk, hne⟩, decide_eq_true hk, Option.getD_some, hparse]
          rfl
        · rw [if_neg fun hf => hk hf.1, decide_eq_false hk]
          exact ih hrest
      · cases h

/-- Page and popup say what `work.parsed` says. -/
theorem find_metadataPanel {D : Type} {names : Names} {w : WorkData D} {panel : Panel}
    (h : metadataPanel names w = some panel) (k : String) :
    ((panel.lines.find? fun l => l.field = k).map fun l => .arr l.values) = decoded w.row.parsed k := by
  obtain ⟨collection, -, h⟩ := Option.bind_eq_some_iff.mp h
  obtain ⟨parsed, hparsed, h⟩ := Option.bind_eq_some_iff.mp h
  obtain ⟨lines, hlines, rfl⟩ := Option.map_eq_some_iff.mp h
  rw [hparsed]
  exact find_metadataLines hlines k

/-- **What a response says** of a field: the JSON what the current metadata say, page and popup what
the work says. -/
theorem respond_metadata {D : Type} {names : Names} {w : WorkData D} {image : Option WorksIndex.Text}
    {format : Format} {r : Response} (h : respond names w image format = some r) (k : String) :
    r.metadata k = decoded (if format = .json then currentMetadata w else w.row.parsed) k := by
  obtain ⟨shown, -, h⟩ := Option.bind_eq_some_iff.mp h
  obtain ⟨e, he, h⟩ := Option.bind_eq_some_iff.mp h
  cases format with
  | json =>
    -- the only one that shows the amendments
    obtain rfl := Option.some.inj h
    obtain ⟨fields, hfields, heval⟩ := Option.bind_eq_some_iff.mp he
    rw [if_pos rfl, hfields]
    exact lookup_evalParsed heval k
  | xhr =>
    obtain ⟨panel, hpanel, h⟩ := Option.bind_eq_some_iff.mp h
    obtain ⟨first, -, rfl⟩ := Option.map_eq_some_iff.mp h
    exact find_metadataPanel hpanel k
  | html =>
    obtain ⟨panel, hpanel, h⟩ := Option.bind_eq_some_iff.mp h
    obtain ⟨annotations, -, rfl⟩ := Option.map_eq_some_iff.mp h
    exact find_metadataPanel hpanel k

/-- **All representations show the current metadata** exactly when these say, field by field, what the
metadata of the work say: there is no amendment, or the last one changes, adds and removes nothing. -/
theorem same_metadata_iff {D : Type} (names : Names) (w : WorkData D) (image : Option WorksIndex.Text)
    (r : Format → Response) (h : ∀ format, respond names w image format = some (r format)) :
    (∀ k format, (r format).metadata k = decoded (currentMetadata w) k) ↔
      ∀ k, decoded w.row.parsed k = decoded (currentMetadata w) k := by
  constructor
  · intro hsame k
    rw [← hsame k .html]
    exact (respond_metadata (h .html) k).symm
  · intro hsame k format
    rw [respond_metadata (h format) k]
    cases format with
    | json => rfl
    | xhr => exact hsame k
    | html => exact hsame k

/-- A work with an image and a title, and the amendments of its title. -/
def amendedWork (titles : List String) : WorkData String where
  id := 1
  collectionId := 1
  row :=
    { original := none, parsed := some [("title", some "[\"a\"]")], uniqueIdentifier := none
      title := some "a", datestart := none, dateend := none, primaryColor := none, topColors := none
      images := [⟨some "1.jpg", none⟩] }
  amendments := titles.map fun t => ⟨1, none, some [("title", some t)]⟩
  annotations := []

/-- One collection, and the field of the title. -/
def oneCollection : Names := ⟨[(1, "c")], [("title", "Title")]⟩

/-- An amendment that leaves the title as it was. -/
theorem same_metadata_kept :
    ∃ r : Format → Response, (∀ format, respond oneCollection (amendedWork ["[ \"a\" ]"]) none format
        = some (r format)) ∧
      ∀ k format, (r format).metadata k = decoded (currentMetadata (amendedWork ["[ \"a\" ]"])) k := by
  have hsome : ∀ format, (respond oneCollection (amendedWork ["[ \"a\" ]"]) none format).isSome = true := by
    intro format
    cases format <;> decide +kernel
  choose r hr using fun format => Option.isSome_iff_exists.mp (hsome format)
  refine ⟨r, hr, (same_metadata_iff oneCollection (amendedWork ["[ \"a\" ]"]) none r hr).mpr fun k => ?_⟩
  have hparse : Json.parse "[\"a\"]" = Json.parse "[ \"a\" ]" := by decide +kernel
  show decodedField [("title", some "[\"a\"]")] k = decodedField [("title", some "[ \"a\" ]")] k
  rw [decodedField_cons, decodedField_cons]
  refine if_congr ?_ hparse rfl
  exact and_congr_right fun _ => iff_of_true (by decide) (by decide)

/-- An amendment of the title: the JSON has the new one, the page still the old one. -/
theorem same_metadata_amended :
    (respond oneCollection (amendedWork ["[\"b\"]"]) none .html).bind (Response.metadata "title")
        = some (.arr [.str "a"]) ∧
      ¬∀ format r, respond oneCollection (amendedWork ["[\"b\"]"]) none format = some r →
        r.metadata "title" = decoded (currentMetadata (amendedWork ["[\"b\"]"])) "title" := by
  have hpage : (respond oneCollection (amendedWork ["[\"b\"]"]) none .html).bind
      (Response.metadata "title") = some (.arr [.str "a"]) := by decide +kernel
  refine ⟨hpage, fun h => ?_⟩
  obtain ⟨r, hr, hold⟩ := Option.bind_eq_some_iff.mp hpage
  rw [h .html r hr] at hold
  exact absurd hold (by decide +kernel)

end Show
end Curarium
