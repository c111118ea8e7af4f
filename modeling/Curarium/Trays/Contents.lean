import Curarium.Ruby.Text
import Curarium.Trays.Requests

/-!
# What is in the trays

A tray item has an image or an annotation, an annotation has an image, an image has a work, and a tray
has an owner. No table has a foreign key: the columns are numbers. Works take their images with them
when they are destroyed, and collections take their works (`dependent: :destroy`); every other deletion
is a `DELETE` of one row.

* `step` is a request that creates or deletes one of these records, a job that saves a work with new
  images, or one of the requests on tray items (`Trays.step`). A request that raises before it has
  written anything leaves the state as it is.
* `thumbnailUrl` and `trayJson` are what the pages read; they are `none` where they raise.
* `Wf` holds in every run: keys are distinct, an image has its work, and an item has an image or an
  annotation and not both.

The database gives out the ids. All that is asked of them is that they are not in use (`step` is `none`
otherwise). Users are not deleted.
-/

namespace Curarium
namespace Contents

open Tables
open Trays (TrayItem)

/-! ### The tables -/

/-- A row of `works`. -/
structure Work where
  id : Nat
  collectionId : Option Nat
  title : Option String
deriving DecidableEq

/-- A row of `images`. -/
structure Image where
  id : Nat
  workId : Option Nat
  imageUrl : Option String
  thumbnailUrl : Option String
deriving DecidableEq

/-- A row of `annotations`. -/
structure Annotation where
  id : Nat
  imageId : Option Nat
deriving DecidableEq

/-- A row of `trays`. -/
structure Tray where
  id : Nat
  ownerId : Option Nat
  ownerType : Option String
  name : Option String
deriving DecidableEq

/-! ### Thumbnails -/

/-- `@work.images`, by id. -/
def imagesOf (images : List Image) (work : Nat) : List Image :=
  (images.filter fun i => i.workId = some work).insertionSort fun i j => i.id ≤ j.id

/-- `Work#thumbnail_url` -/
def workThumbnailUrl (images : List Image) (work : Nat) : Option String :=
  (imagesOf images work).head?.bind Image.thumbnailUrl

/-- `Work.missing_thumb_url` -/
def missingThumbUrl : String := "/missing_thumb.png"

/-- `Work#thumbnail_cache_url` -/
def thumbnailCacheUrl (images : List Image) (work : Nat) : String :=
  if (workThumbnailUrl images work).any fun t => !Ruby.blank t.toList then
    "/thumbnails/works/" ++ toString work ++ ".jpg"
  else missingThumbUrl

/-- The tables, with the tray items and the requests on them that are under way. -/
structure State where
  users : List Nat
  collections : List Nat
  circles : List Nat
  works : List Work
  images : List Image
  annotations : List Annotation
  trays : List Tray
  requests : Trays.State
deriving DecidableEq

namespace State

variable (s : State)

def items : List TrayItem := s.requests.table.items

/-- What the requests on tray items see of the other tables. -/
def records : Trays.Records where
  trays := s.trays.map Tray.id
  images := s.images.map Image.id
  annotations := s.annotations.map Annotation.id

/-! ### Associations -/

/-- `image.work` -/
def workOf (i : Image) : Option Work := i.workId.bind fun n => find Work.id n s.works

/-- `tray_item.image` -/
def imageOf (x : TrayItem) : Option Image := x.imageId.bind fun n => find Image.id n s.images

/-- `tray_item.annotation` -/
def noteOf (x : TrayItem) : Option Annotation :=
  x.annotationId.bind fun n => find Annotation.id n s.annotations

/-- `annotation.image` -/
def imageOfNote (a : Annotation) : Option Image := a.imageId.bind fun n => find Image.id n s.images

/-- `annotation.work`, which goes through the image. -/
def workOfNote (a : Annotation) : Option Work := (s.imageOfNote a).bind s.workOf

/-- `tray.owner`. Whether there is a record of another class is told by `other`. -/
def ownerOf (other : String → Nat → Bool) (t : Tray) : Option Nat :=
  t.ownerType.bind fun type => t.ownerId.filter fun n =>
    if type = "User" then n ∈ s.users else if type = "Circle" then n ∈ s.circles else other type n

/-! ### What the pages read -/

/-- `TrayItem#thumbnail_url`; a work that is not there raises. -/
def thumbnailUrl (x : TrayItem) : Option (Option String) :=
  match s.imageOf x with
  | some i => (s.workOf i).map fun w => some (thumbnailCacheUrl s.images w.id)
  | none =>
    match s.noteOf x with
    | some a => (s.workOfNote a).map fun w => some (thumbnailCacheUrl s.images w.id)
    | none => some none

end State

/-- An image in the JSON of the trays. -/
structure ImageJson where
  image : Image
  workTitle : Option String
deriving DecidableEq

/-- A tray item in the JSON of the trays, with the image of its annotation. -/
structure ItemJson where
  type : Option String
  image : Option ImageJson
  note : Option ( Annotation × Option ImageJson)
deriving DecidableEq

/-- A tray in the JSON of the trays. -/
structure TrayJson where
  tray : Tray
  ownerId : Nat
  items : List ItemJson
deriving DecidableEq

namespace State

variable (s : State)

/-- `i.work.title` raises without a work. -/
def imageJson (i : Image) : Option ImageJson :=
  (s.workOf i).map fun w => { image := i, workTitle := w.title }

/-- A child that is not there is left out. -/
def childJson {α β : Type} (json : α → Option β) : Option α → Option (Option β)
  | none => some none
  | some a => (json a).map some

def noteJson (a : Annotation) : Option ( Annotation × Option ImageJson) :=
  (childJson s.imageJson (s.imageOfNote a)).map fun image => (a, image)

def itemJson (x : TrayItem) : Option ItemJson :=
  (childJson s.imageJson (s.imageOf x)).bind fun image =>
    (childJson s.noteJson (s.noteOf x)).map fun note =>
      { type := if image.isSome then some "Image" else if note.isSome then some "Annotation" else none
        image := image
        note := note }

/-- A tray of `trays/index.json`; `t.owner.id` raises without an owner. -/
def trayJson (other : String → Nat → Bool) (t : Tray) : Option TrayJson :=
  (s.ownerOf other t).bind fun owner =>
    ((s.items.filter fun x => x.trayId = some t.id).mapM s.itemJson).map fun items =>
      { tray := t, ownerId := owner, items := items }

end State

/-! ### The requests -/

/-- The path of a request on trays: below a user, below a circle, or on its own. -/
inductive Route where
  | user (id : Nat)
  | circle (id : Nat)
  | own
deriving DecidableEq

/-- `TraysController#set_owner` finds the owner of the path. -/
def State.setOwner (s : State) : Route → Bool
  | .user id => id ∈ s.users
  | .circle id => id ∈ s.circles
  | .own => true

inductive Event where
  /-- `CollectionsController#create`, with a work for every file that it can read. -/
  | createCollection (id : Nat) (works : List Nat)
  /-- `CollectionsController#destroy` -/
  | destroyCollection (id : Nat)
  /-- `WorksController#create`, with the images of the work. -/
  | createWork (id : Nat) (title : Option String) (images : List (Nat × Option String × Option String))
  /-- A work is saved with new images by `ConfigureWork`. -/
  | saveWork (id : Nat) (title : Option String) (images : List (Nat × Option String × Option String))
  /-- `WorksController#destroy` -/
  | destroyWork (id : Nat)
  /-- `CirclesController#create` -/
  | createCircle (id : Nat)
  /-- `CirclesController#destroy` -/
  | destroyCircle (id : Nat)
  /-- `TraysController#create` -/
  | createTray (route : Route) (id : Nat) (ownerId : Option Nat) (ownerType name : Option String)
  /-- `TraysController#destroy` -/
  | destroyTray (route : Route) (id : Nat)
  /-- `AnnotationsController#create` -/
  | annotate (work : Nat) (session : Option Nat) (id : Nat)
  /-- `AnnotationsController#destroy` -/
  | unannotate (work id : Nat)
  /-- `TrayItemsController` -/
  | item (e : Trays.Event)
deriving DecidableEq

namespace State

variable (s : State)

/-- `create_images` -/
def createImages (work : Nat) (images : List (Nat × Option String × Option String)) : List Image :=
  images.map fun i => { id := i.1, workId := some work, imageUrl := i.2.1, thumbnailUrl := i.2.2 }

/-- The works are destroyed, and with each of them its images. -/
def destroyWorks (p : Work → Bool) : State :=
  { s with
    works := s.works.filter fun w => !p w
    images := s.images.filter fun i => !s.works.any fun w => p w && i.workId = some w.id }

/-- `@work.annotations.new` on the first image of the work, for the user of the session; `none` if one of
them is not there. -/
def annotate (work : Nat) (session : Option Nat) (id : Nat) : Option Annotation :=
  (find Work.id work s.works).bind fun w => (imagesOf s.images w.id).head?.bind fun i =>
    if session.any (· ∈ s.users) then some { id := id, imageId := some i.id } else none

end State

/-- One request. -/
def step (s : State) : Event → Option State
  | .createCollection id works =>
    if id ∉ s.collections ∧ (s.works.map Work.id ++ works).Nodup then
      some { s with
        collections := s.collections ++ [id]
        works := s.works ++ works.map fun n => { id := n, collectionId := some id, title := none } }
    else none
  | .destroyCollection id =>
    if id ∈ s.collections then
      some { s.destroyWorks (fun w => w.collectionId = some id) with
        collections := s.collections.filter (· ≠ id) }
    else some s
  | .createWork id title images =>
    if id ∉ s.works.map Work.id ∧ (s.images.map Image.id ++ images.map Prod.fst).Nodup then
      some { s with
        works := s.works ++ [{ id := id, collectionId := none, title := title }]
        images := s.images ++ State.createImages id images }
    else none
  | .saveWork id title images =>
    if (find Work.id id s.works).isNone then some s
    else if (s.images.map Image.id ++ images.map Prod.fst).Nodup then
      some { s with
        works := update Work.id id (fun w => { w with title := title }) s.works
        images := s.images ++ State.createImages id images }
    else none
  | .destroyWork id => some (s.destroyWorks fun w => w.id = id)
  | .createCircle id => if id ∉ s.circles then some { s with circles := s.circles ++ [id] } else none
  | .destroyCircle id => some { s with circles := s.circles.filter (· ≠ id) }
  | .createTray route id ownerId ownerType name =>
    if s.setOwner route = false then some s
    else if id ∉ s.trays.map Tray.id then
      some { s with
        trays := s.trays ++ [{ id := id, ownerId := ownerId, ownerType := ownerType, name := name }] }
    else none
  | .destroyTray route id =>
    if s.setOwner route then some { s with trays := s.trays.filter fun t => t.id ≠ id } else some s
  | .annotate work session id =>
    match s.annotate work session id with
    | none => some s
    | some a =>
      if id ∉ s.annotations.map Annotation.id then some { s with annotations := s.annotations ++ [a] }
      else none
  | .unannotate work id =>
    if (find Work.id work s.works).isSome then
      some { s with annotations := s.annotations.filter fun a => a.id ≠ id }
    else some s
  | .item e => (Trays.step s.records s.requests e).map fun r => { s with requests := r }

/-- A database with users and nothing else. -/
def State.empty (users : List Nat) : State where
  users := users
  collections := []
  circles := []
  works := []
  images := []
  annotations := []
  trays := []
  requests := .idle { items := [], next := 0 }

end Contents
end Curarium
