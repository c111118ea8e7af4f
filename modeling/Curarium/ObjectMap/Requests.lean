import Curarium.Works.Filter
import Curarium.Library.Runs
import Curarium.Library.Tables
import Curarium.Json.Value
import Mathlib.Data.List.Sort

/-!
# The files of the object map

The object map of the works index is a picture of thumbnails, `5.jpg`, with the ids of its works
beside it in `ids.json`. Both are written to a directory of their own for each collection and each
`where` clause, and only if there is no `5.jpg` yet.

* A clause has the directory of its checksum (`crc32`).
* `geochrono` writes dates next to the ids, into the same directories.
* A request to reconfigure a collection deletes its directory. Nothing else deletes one.

The commands that draw are outside: an event says whether the command left a file. `montage` leaves
one whenever it has a thumbnail. What a picture shows is the list of thumbnails it was drawn from.
What `lower` does in the database is a parameter.
-/

namespace Curarium
namespace ObjectMap

open Tables WorksIndex

/-! ### The tables -/

/-- A row of `collections`. Listing the keys of a configuration raises if it is not an object. -/
structure Collection where
  id : Nat
  configured : Bool
  importing : Bool
deriving DecidableEq

/-- A row of `works`. -/
structure Work where
  id : Nat
  row : Row
  datestart : Option String
  dateend : Option String
deriving DecidableEq

/-- A row of `images`. -/
structure Image where
  id : Nat
  workId : Option Nat
  thumbnailUrl : Option String
deriving DecidableEq

/-- The tables, with the primary key of the works. -/
structure Database where
  collections : List Collection
  works : List Work
  images : List Image
  workIds : (works.map Work.id).Nodup

/-- A row is written: it replaces the one with its key, or it is new. -/
def save {R : Type*} (key : R → Nat) (r : R) (rows : List R) : List R :=
  rows.filter (fun x => key x ≠ key r) ++ [r]

theorem nodup_save {R : Type*} {key : R → Nat} {r : R} {rows : List R} (h : (rows.map key).Nodup) :
    ((save key r rows).map key).Nodup := by
  rw [save, List.map_append, List.map_singleton, List.nodup_append]
  refine ⟨h.sublist (List.filter_sublist.map key), List.nodup_singleton _, ?_⟩
  intro a ha b hb heq
  obtain ⟨x, hx, rfl⟩ := List.mem_map.mp ha
  obtain rfl := List.mem_singleton.mp hb
  exact of_decide_eq_true (List.mem_filter.mp hx).2 heq

/-- What may happen to the tables: rows are created, changed by a reconfiguration or destroyed. A
work is destroyed with its images, a collection with its works. -/
inductive Change where
  | saveWork (w : Work)
  | destroyWork (id : Nat)
  | saveImage (i : Image)
  | destroyImage (id : Nat)
  | saveCollection (c : Collection)
  | destroyCollection (id : Nat)

/-- The tables without some works and their images. -/
def Database.destroyWorks (db : Database) (gone : Work → Bool) : Database where
  collections := db.collections
  works := db.works.filter fun w => !gone w
  images := db.images.filter fun i => !db.works.any fun w => gone w && i.workId = some w.id
  workIds := db.workIds.sublist (List.filter_sublist.map _)

def Database.apply (db : Database) : Change → Database
  | .saveWork w => { db with works := save Work.id w db.works, workIds := nodup_save db.workIds }
  | .destroyWork id => db.destroyWorks fun w => w.id = id
  | .saveImage i => { db with images := save Image.id i db.images }
  | .destroyImage id => { db with images := db.images.filter fun i => i.id ≠ id }
  | .saveCollection c => { db with collections := save Collection.id c db.collections }
  | .destroyCollection id =>
    { db.destroyWorks (fun w => w.row.collectionId = some id) with
      collections := db.collections.filter fun c => c.id ≠ id }

/-! ### The works of a request -/

/-- `Work.with_thumb` -/
def withThumb (db : Database) (w : Work) : Bool :=
  db.images.any fun i => i.workId = some w.id && i.thumbnailUrl.isSome

/-- `Work.with_thumb.where( where_clause ).order( :id )` -/
def selected (lower : List Char → List Char) (db : Database) (clause : Text) : Option (List Work) :=
  (matching lower Work.row clause db.works).map fun works =>
    (works.filter (withThumb db)).insertionSort fun v w => v.id ≤ w.id

/-- The bytes of a text. -/
def utf8 (t : Text) : List UInt8 := t.flatMap String.utf8EncodeChar

/-- One bit of the checksum. -/
def crcBit (crc : UInt32) : UInt32 :=
  if crc &&& 1 = 1 then (crc >>> 1) ^^^ 0xEDB88320 else crc >>> 1

def crcByte (crc : UInt32) (byte : UInt8) : UInt32 := crcBit^[8] (crc ^^^ byte.toUInt32)

/-- `Zlib.crc32` -/
def crc32 (t : Text) : UInt32 := (utf8 t).foldl crcByte 0xFFFFFFFF ^^^ 0xFFFFFFFF

/-- The directory `query_type/query_id`. -/
inductive Directory where
  | collections (id : Nat)
  | queries (checksum : UInt32)
deriving DecidableEq

/-- `@collection`, if the request names one that is there. -/
def collection (db : Database) (q : Query) : Option Collection :=
  (present q.collectionId).bind fun cid =>
    db.collections.find? fun c => (c.id : Int) = Ruby.toI cid

/-- Can the properties be listed? -/
def configured (db : Database) (q : Query) : Bool :=
  match present q.collectionId with
  | some _ => (collection db q).any Collection.configured
  | none => db.collections.all Collection.configured

/-- `have_query` -/
def haveQuery (q : Query) : Bool :=
  !q.includes.isEmpty || !q.excludes.isEmpty || (present q.colorfilter).isSome

/-- Where a request writes what. -/
structure Target where
  directory : Directory
  idsOnly : Bool
  works : List Work

/-- The target of a request; `none` where the action raises. -/
def target (lower : List Char → List Char) (db : Database) (q : Query) : Option Target :=
  if configured db q then
    (whereClause (db.collections.map fun c => (c.id : Int)) q).bind fun clause =>
      (selected lower db clause).map fun works =>
        match collection db q with
        | some c =>
          if haveQuery q then ⟨.queries (crc32 clause), false, works⟩
          else ⟨.collections c.id, c.importing, works⟩
        | none => ⟨.queries (crc32 clause), false, works⟩
  else none

/-! ### The files -/

inductive Vis where
  | objectmap
  | geochrono
deriving DecidableEq

/-- `5.jpg`: the command that drew it, and the works of its thumbnails. -/
structure Picture where
  command : Vis
  thumbnails : List Nat
deriving DecidableEq

/-- The files `ids.json` and `5.jpg` of a directory. -/
structure Folder where
  ids : Option Json
  picture : Option Picture

def date (d : Option String) : Json := d.elim .null .str

/-- What `ids.json` has for a work. -/
def entry : Vis → Work → Json
  | .objectmap, w => .int w.id
  | .geochrono, w => .arr [.int w.id, date w.datestart, date w.dateend]

/-- What the two writers have in common; `made` says whether the command leaves a file. -/
def Folder.write (command : Vis) (ws : List Work) (idsOnly made : Bool) (f : Folder) : Folder :=
  if f.picture.isSome then f
  else
    { ids := some (.arr (ws.map (entry command)))
      picture := if !idsOnly && made then some ⟨command, ws.map Work.id⟩ else none }

/-- `Work.write_montage`. The command leaves a file if there is a thumbnail. -/
def writeMontage (ws : List Work) (idsOnly made : Bool) (f : Folder) : Folder :=
  f.write .objectmap ws idsOnly (made || !ws.isEmpty)

/-- `Work.write_geochrono` -/
def writeGeochrono (ws : List Work) (idsOnly made : Bool) (f : Folder) : Folder :=
  f.write .geochrono ws idsOnly made

/-! ### The system -/

structure State where
  db : Database
  files : Directory → Folder

/-- No directory is there. -/
def noFiles (_ : Directory) : Folder := ⟨none, none⟩

inductive Event where
  | change (c : Change)
  /-- `CollectionsController#reconfigure`; what its jobs do to the works are events of their own. -/
  | reconfigure (id : Nat)
  /-- `WorksController#index` -/
  | index (vis : Vis) (q : Query) (made : Bool)

/-- The files after one directory is rewritten. -/
def State.rewrite (s : State) (d : Directory) (f : Folder → Folder) : State :=
  { s with files := Function.update s.files d (f (s.files d)) }

/-- One event. A request that raises leaves the files as they are. -/
def step (lower : List Char → List Char) (s : State) : Event → State
  | .change c => { s with db := s.db.apply c }
  | .reconfigure id =>
    if s.db.collections.any fun c => c.id = id then
      s.rewrite (.collections id) fun _ => ⟨none, none⟩
    else s
  | .index vis q made =>
    match target lower s.db q with
    | none => s
    | some t =>
      match vis with
      | .objectmap => s.rewrite t.directory (writeMontage t.works t.idsOnly made)
      | .geochrono => s.rewrite t.directory (writeGeochrono t.works t.idsOnly made)

end ObjectMap
end Curarium
