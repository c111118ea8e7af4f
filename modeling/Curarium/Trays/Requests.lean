import Curarium.Library.Runs
import Curarium.Library.Tables

/-!
# `TrayItemsController`: the requests on tray items

A tray item is a row with a tray and with an image or an annotation, in two columns of their own.
`move`, `copy` and `destroy` are single statements after their lookups. `create` is a toggle: it
counts the rows of the item in the tray and then deletes them or inserts one, and requests of
other users come in between, so that `check` and `act` are separate steps.

A lookup that fails raises before anything is written, and the request changes nothing.

* `step` is one request, or one half of a toggle; `create` is a toggle that nothing interrupts.
* `Wf` holds of the table in every run: the ids are distinct.
-/

namespace Curarium
namespace Trays

open Tables

/-- The two columns in which an item names what it refers to. -/
inductive Column where
  | imageId
  | annotationId
deriving DecidableEq, Repr

/-- A row of `tray_items`. -/
structure TrayItem where
  id : Nat
  trayId : Option Nat
  imageId : Option Nat
  annotationId : Option Nat
deriving DecidableEq, Repr

/-- The value of a column. -/
def TrayItem.ref (x : TrayItem) : Column → Option Nat
  | .imageId => x.imageId
  | .annotationId => x.annotationId

/-- The records that the items refer to. The requests on tray items do not write them. -/
structure Records where
  trays : List Nat
  images : List Nat
  annotations : List Nat

namespace Records

variable (db : Records)

/-- The records that a column refers to. -/
def ofColumn : Column → List Nat
  | .imageId => db.images
  | .annotationId => db.annotations

/-- `Tray.find`: raises (`none`) without a record. -/
def findTray (id : Option Nat) : Option Nat := id.filter (· ∈ db.trays)

/-- `Image.find` and `Annotation.find`. -/
def findRef (k : Column) (id : Option Nat) : Option Nat := id.filter (· ∈ db.ofColumn k)

/-- `@tray_item.image`: the image of an item, `nil` without a record. -/
def image (x : TrayItem) : Option Nat := x.imageId.filter (· ∈ db.images)

end Records

/-- `tray_item_params`, with the numbers that the columns make of the texts. A request without the
hash fails like one without `tray_id`. -/
structure Params where
  trayId : Option Nat
  imageId : Option Nat
  annotationId : Option Nat
deriving DecidableEq, Repr

/-- The items of the table, and the id of the next one. -/
structure Table where
  items : List TrayItem
  next : Nat
deriving DecidableEq, Repr

/-! ### Single statements -/

/-- The rows of `@tray.tray_items.where( image_id: id )`, and for annotations. Without an id these
are the rows with `NULL` in the column. -/
def isIn (tray : Nat) (k : Column) (id : Option Nat) (x : TrayItem) : Bool :=
  x.trayId = some tray && x.ref k = id

/-- `tray_items.where( … ).count > 0` -/
def hasId (items : List TrayItem) (tray : Nat) (k : Column) (id : Option Nat) : Bool :=
  0 < items.countP (isIn tray k id)

/-- `Tray#has_image_id?` -/
def hasImageId (items : List TrayItem) (tray : Nat) (id : Option Nat) : Bool :=
  hasId items tray .imageId id

/-- `Tray#has_annotation_id?` -/
def hasAnnotationId (items : List TrayItem) (tray : Nat) (id : Option Nat) : Bool :=
  hasId items tray .annotationId id

/-- `TrayItem.create` -/
def Table.create (s : Table) (tray : Nat) (image annotation : Option Nat) : Table where
  items := s.items ++ [{ id := s.next, trayId := some tray, imageId := image, annotationId := annotation }]
  next := s.next + 1

/-- `TrayItem.create tray: @tray, image: …`, and for annotations. -/
def Table.createRef (s : Table) (tray : Nat) (id : Nat) : Column → Table
  | .imageId => s.create tray (some id) none
  | .annotationId => s.create tray none (some id)

/-! ### The requests -/

section Actions

variable (db : Records)

/-- `TrayItemsController#move` -/
def move (s : Table) (id : Nat) (tip : Params) : Table :=
  match find TrayItem.id id s.items, db.findTray tip.trayId with
  | some _, some tray => { s with items := update TrayItem.id id (fun x => { x with trayId := some tray }) s.items }
  | _, _ => s

/-- `TrayItemsController#copy`. It creates an item with the image of the source. -/
def copy (s : Table) (id : Nat) (tip : Params) : Table :=
  match find TrayItem.id id s.items, db.findTray tip.trayId with
  | some x, some tray => s.create tray (db.image x) none
  | _, _ => s

/-- `TrayItemsController#destroy` -/
def destroy (s : Table) (id : Nat) : Table :=
  { s with items := s.items.filter fun x => x.id ≠ id }

/-- A toggle between its count and its write: what it is about, and what the count said. -/
structure Toggle where
  tray : Nat
  column : Column
  id : Option Nat
  found : Bool
deriving DecidableEq, Repr

/-- `TrayItemsController#create` up to the count. A request of another type, or for a tray that is
not there, has nothing left to do. -/
def check (items : List TrayItem) (type : Option String) (tip : Params) : Option Toggle :=
  (db.findTray tip.trayId).bind fun tray =>
    if type = some "Image" then
      some { tray := tray, column := .imageId, id := tip.imageId, found := hasImageId items tray tip.imageId }
    else if type = some "Annotation" then
      some { tray := tray, column := .annotationId, id := tip.annotationId,
             found := hasAnnotationId items tray tip.annotationId }
    else none

/-- The write of a toggle: `delete_all`, or `create` with the record, which has to be there. -/
def act (s : Table) (g : Toggle) : Table :=
  if g.found then
    { s with items := s.items.filter fun x => !isIn g.tray g.column g.id x }
  else
    match db.findRef g.column g.id with
    | none => s
    | some id => s.createRef g.tray id g.column

/-- `TrayItemsController#create` with nothing in between. -/
def create (s : Table) (type : Option String) (tip : Params) : Table :=
  match check db s.items type tip with
  | none => s
  | some g => act db s g

/-! ### Runs -/

/-- The table, and the toggles that have counted and not written yet. -/
structure State where
  table : Table
  toggles : List Toggle
deriving DecidableEq, Repr

inductive Event where
  | move (id : Nat) (tip : Params)
  | copy (id : Nat) (tip : Params)
  | destroy (id : Nat)
  /-- A toggle counts. -/
  | check (type : Option String) (tip : Params)
  /-- One of the toggles that have counted writes. -/
  | act (i : Nat)
deriving DecidableEq, Repr

/-- One request, or one half of a toggle. -/
def step (s : State) : Event → Option State
  | .move id tip => some { s with table := move db s.table id tip }
  | .copy id tip => some { s with table := copy db s.table id tip }
  | .destroy id => some { s with table := destroy s.table id }
  | .check type tip => some { s with toggles := s.toggles ++ (check db s.table.items type tip).toList }
  | .act i => s.toggles[i]?.map fun g =>
      { table := act db s.table g, toggles := s.toggles.eraseIdx i }

end Actions

/-- No requests under way, on a table. -/
def State.idle (table : Table) : State where
  table := table
  toggles := []

/-! ### What a step does to the table -/

/-- The ways a step can change the table. -/
inductive Write (db : Records) (s : Table) : Event → Table → Prop where
  | none (e : Event) : Write db s e s
  | moved {id : Nat} {tip : Params} {x : TrayItem} {tray : Nat}
      (hx : find TrayItem.id id s.items = some x) (htray : db.findTray tip.trayId = some tray) :
      Write db s (.move id tip)
        { s with items := update TrayItem.id id (fun x => { x with trayId := some tray }) s.items }
  | copied {id : Nat} {tip : Params} {x : TrayItem} {tray : Nat}
      (hx : find TrayItem.id id s.items = some x) (htray : db.findTray tip.trayId = some tray) :
      Write db s (.copy id tip) (s.create tray (db.image x) Option.none)
  | deleted (e : Event) (p : TrayItem → Bool) : Write db s e { s with items := s.items.filter p }
  | inserted {i : Nat} {id : Nat} (tray : Nat) (k : Column) : Write db s (.act i) (s.createRef tray id k)

/-- **A step writes in one of these ways.** -/
theorem step_write {db : Records} {s t : State} {e : Event} (h : step db s e = some t) :
    Write db s.table e t.table := by
  cases e with
  | move id tip =>
    obtain rfl := Option.some.inj h
    change Write db s.table _ (move db s.table id tip)
    rw [move]
    split
    · next x tray hx htray => exact .moved hx htray
    · exact .none _
  | copy id tip =>
    obtain rfl := Option.some.inj h
    change Write db s.table _ (copy db s.table id tip)
    rw [copy]
    split
    · next x tray hx htray => exact .copied hx htray
    · exact .none _
  | destroy id =>
    obtain rfl := Option.some.inj h
    exact .deleted _ _
  | check type tip =>
    -- the first half only reads
    obtain rfl := Option.some.inj h
    exact .none _
  | act i =>
    -- the second half of a toggle: delete what was found, or insert
    obtain ⟨g, -, rfl⟩ := Option.map_eq_some_iff.mp h
    change Write db s.table _ (act db s.table g)
    rw [act]
    split
    · exact .deleted _ _
    · split
      · exact .none _
      · exact .inserted g.tray g.column

/-- **The ids are distinct.** -/
def Table.Wf (s : Table) : Prop := Keyed TrayItem.id s.next s.items

theorem Table.Wf.create {s : Table} (h : s.Wf) (tray : Nat) (image annotation : Option Nat) :
    (s.create tray image annotation).Wf :=
  h.insert rfl

theorem Table.Wf.createRef {s : Table} (h : s.Wf) (tray id : Nat) (k : Column) :
    (s.createRef tray id k).Wf := by
  cases k with
  | imageId => exact h.create tray _ _
  | annotationId => exact h.create tray _ _

theorem Write.wf {db : Records} {s t : Table} {e : Event} (h : Write db s e t) (hs : s.Wf) : t.Wf := by
  cases h with
  | none => exact hs
  | moved hx htray => exact hs.update fun _ => rfl
  | copied hx htray => exact hs.create _ _ _
  | deleted p => exact hs.filter _
  | inserted tray k => exact hs.createRef tray _ k

end Trays
end Curarium
