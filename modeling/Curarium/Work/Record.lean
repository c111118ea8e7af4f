import Curarium.Json.Inspect
import Curarium.Json.Parse
import Curarium.Collection.FollowJson

/-!
# Works, and what saving one does

A work is a row of `works` with its rows of `images`. Most of what it holds is filled in by two
callbacks of the model: `extract_attributes` runs before a save and fills columns from `parsed`,
`create_images` runs after it and appends rows to `images`.

* `Record` is the row, `Work` the object of the application with its accessors `iurls` and
  `turls`, which no save resets.
* `extract` computes what `extract_attributes` assigns, `imageRows` the rows that `create_images`
  appends.
* `save` is one transaction: an exception in a callback leaves no trace (`none`).

ActiveRecord, the database and `Date.parse` are outside the application. `Adapter` names what the
callbacks use of them, with no assumption beyond how strings and containers are bound. In particular an
`hstore` that was just assigned reads back as the values assigned or, where the adapter casts on write, as
the texts it will store; `extract_attributes` has a branch for each.
-/

namespace Curarium

/-- The columns that a value of a document is written to. -/
inductive Column where
  | original
  | uniqueIdentifier
  | title
  | imageUrl
  | thumbnailUrl
deriving DecidableEq

/-- What the application uses of ActiveRecord and of Ruby, over a type of dates. -/
structure Adapter (D : Type) where
  /-- Does an `hstore` read back as texts before it is saved? -/
  castsOnWrite : Bool
  /-- The text that a value other than `nil` is stored as in a column; `none` where ActiveRecord or the
  database raises. -/
  bind : Column → Json → Option String
  /-- `Date.parse`; `none` where it raises `ArgumentError`. -/
  dateParse : String → Option D
  /-- The characters beyond ASCII that `inspect` leaves as they are. -/
  printable : Char → Bool
  /-- A string is stored as it is, or refused: it may be too long for the column. -/
  bind_str : ∀ c s t, bind c (.str s) = some t → t = s
  /-- A container is not stored at all, or as a dump that shows all of it. -/
  bind_container : ∀ c xs ys t, bind c (.arr xs) = some t → bind c (.arr ys) = some t → xs = ys

/-- An adapter to run the model with: numbers are bound as their digits, booleans as `t` and `f`,
a hash as a dump of it and an array not at all, and a date is a text of ten characters. -/
def Adapter.plain (castsOnWrite : Bool) : Adapter String where
  castsOnWrite := castsOnWrite
  bind
    | _, .null => none
    | _, .bool b => some (if b then "t" else "f")
    | _, .int z => some (String.ofList (Ruby.toS z))
    | _, .float f => some (String.ofList f.toS)
    | _, .str s => some s
    | _, .arr _ => none
    | _, .obj ms => some (String.ofList ("--- ".toList ++ (Json.obj ms).inspect fun _ => true))
  dateParse s := if s.length = 10 then some s else none
  printable _ := true
  bind_str _ _ _ h := (Option.some.inj h).symm
  bind_container _ _ _ _ h _ := nomatch h

/-! ### Data -/

/-- A row of `images`, without its key and its work. -/
structure Image where
  imageUrl : Option String
  thumbnailUrl : Option String
deriving DecidableEq

/-- A line of the histogram that `extract_colors` returns. -/
structure Color where
  color : String
  percent : Flt
deriving DecidableEq

/-- A row of `works` and its images, in the order of their ids. -/
structure Record (D : Type) where
  original : Option String
  parsed : Option (List (String × Option String))
  uniqueIdentifier : Option String
  title : Option String
  datestart : Option D
  dateend : Option D
  primaryColor : Option String
  topColors : Option (List Color)
  images : List Image
deriving DecidableEq

/-- A value of the attribute `parsed`: a text, or the list that `follow_json` returned. -/
inductive Field where
  | text (s : String)
  | list (xs : List Json)
deriving DecidableEq

/-- `present?` on a value of `parsed`. -/
def Field.present : Option Field → Bool
  | none => false
  | some (.text s) => !Ruby.blank s.toList
  | some (.list xs) => !xs.isEmpty

/-- `to_s`, which is what an `hstore` stores. -/
def Field.toS (printable : Char → Bool) : Field → String
  | .text s => s
  | .list xs => String.ofList ((Json.arr xs).inspect printable)

/-- A `Work`. The accessors hold what `JSON.parse` returned, or a list. -/
structure Work (D : Type) where
  row : Record D
  parsed : Option (List (String × Option Field))
  /-- Was `parsed` assigned since the last save? -/
  assigned : Bool
  iurls : Option Json
  turls : Option Json
deriving DecidableEq

/-- The collection's configuration: a path for each field name. -/
structure Configuration where
  fields : List (String × Collection.PathArg)
  nodup : (fields.map Prod.fst).Nodup

variable {D : Type}

/-- What `work.original` gives `follow_json` to read. -/
def Record.document (row : Record D) : Json :=
  match row.original with
  | none => .null
  | some text => .str text

namespace Work

/-! ### `extract_attributes` -/

/-- The columns and accessors that `extract_attributes` assigns; `none` in the first four is an
attribute left as it is. -/
structure Extraction (D : Type) where
  uniqueIdentifier : Option (Option String)
  iurls : Option Json
  turls : Option Json
  title : Option (Option String)
  datestart : Option D
  dateend : Option D
deriving DecidableEq

variable (A : Adapter D)

/-- A value written to a column. -/
def column (c : Column) : Option Json → Option (Option String)
  | none => some none
  | some .null => some none
  | some v => (A.bind c v).map some

/-- The first of the values: `JSON.parse( s )[ 0 ]` of a text that starts with a bracket, any
other text itself, `[ 0 ]` of a list. The outer `none` is a text that does not parse. -/
def firstValue : Field → Option (Option Json)
  | .text s =>
    if s.toList.head? = some '[' then (Json.parse s).map fun j => j.index (.int 0)
    else some (some (.str s))
  | .list xs => some xs.head?

/-- The assignment of `unique_identifier` and of `title`. -/
def firstColumn (c : Column) (v : Option Field) : Option (Option (Option String)) :=
  match v with
  | none => some none
  | some f =>
    if Field.present (some f) = true then
      (firstValue f).bind fun j => (column A c j).map some
    else some none

/-- The assignment of `iurls` and of `turls`. -/
def urls (v : Option Field) : Option (Option Json) :=
  match v with
  | none => some none
  | some (.text s) =>
    if Field.present (some (.text s)) = true then (Json.parse s).map some else some none
  | some (.list xs) => if Field.present (some (.list xs)) = true then some (some (.arr xs)) else some none

/-- The end of `Work.parse_date`: a present value as a date, `0` and what is no date as `nil`. -/
def dateOf (v : Option Json) : Option D :=
  v.bind fun j =>
    if j.present = true then
      let text := String.ofList (j.toS A.printable)
      if text = "0" then none
      else if text.length ≤ 4 then A.dateParse (text ++ "-01-01")
      else A.dateParse text
    else none

/-- `Work.parse_date`. Only `Date.parse` is rescued: a text that does not parse raises. -/
def parseDate (dates : Option Field) : Option (Option D) :=
  match dates with
  | none => some none
  | some f => if Field.present (some f) = true then (firstValue f).map (dateOf A) else some none

/-- `parsed[ k ]`, with `nil` for a name that is not there. -/
def get (fields : List (String × Option Field)) (k : String) : Option Field :=
  (fields.lookup k).bind id

/-- What `extract_attributes` assigns when `parsed` is present. -/
def extract (fields : List (String × Option Field)) : Option (Extraction D) :=
  (firstColumn A .uniqueIdentifier (get fields "unique_identifier")).bind fun uniqueIdentifier =>
  (urls (get fields "image")).bind fun iurls =>
  (urls (get fields "thumbnail")).bind fun turls =>
  (firstColumn A .title (get fields "title")).bind fun title =>
  (parseDate A (get fields "datestart")).bind fun datestart =>
  (parseDate A (get fields "dateend")).map fun dateend =>
    { uniqueIdentifier, iurls, turls, title, datestart, dateend }

/-- The keys that are removed from `parsed`: all that is extracted, except for the title. -/
def extractedKeys : List String := ["unique_identifier", "image", "thumbnail"]

/-- `parsed.except! 'unique_identifier', 'image', 'thumbnail'`. -/
def except (fields : List (String × Option Field)) : List (String × Option Field) :=
  fields.filter fun f => !extractedKeys.contains f.1

/-- The extracted values assigned to the attributes. -/
def assignExtraction (w : Work D) (fields : List (String × Option Field)) (e : Extraction D) : Work D :=
  { w with
    row := { w.row with
      uniqueIdentifier := e.uniqueIdentifier.getD w.row.uniqueIdentifier
      title := e.title.getD w.row.title
      datestart := e.datestart
      dateend := e.dateend }
    iurls := e.iurls.or w.iurls
    turls := e.turls.or w.turls
    parsed := some (except fields) }

/-- `Work#extract_attributes`. -/
def extractAttributes (w : Work D) : Option (Work D) :=
  match w.parsed with
  | none => some w
  | some [] => some w
  | some (f :: fields) => (extract A (f :: fields)).map (assignExtraction w (f :: fields))

/-! ### `create_images` -/

/-- What `each_with_index` walks over: the elements of an array, the pairs of a hash. -/
def elements : Json → Option (List Json)
  | .arr xs => some xs
  | .obj ms => some (ms.map fun m => .arr [.str m.1, m.2])
  | _ => none

/-- Every URL with the thumbnail at its position. -/
def joinUrls {α β : Type} (iurls : List α) (turl : Nat → Option β) : List (α × Option β) :=
  iurls.zipIdx.map fun p => (p.1, turl p.2)

/-- `turls[ i ] unless turls.nil?`. -/
def turlAt (turls : Option Json) (i : Nat) : Option Json := turls.bind fun t => t.index (.int i)

/-- `images.create( image_url: image_url, thumbnail_url: turl )`. -/
def imageRow (p : Json × Option Json) : Option Image :=
  (column A .imageUrl (some p.1)).bind fun imageUrl =>
    (column A .thumbnailUrl p.2).map fun thumbnailUrl => { imageUrl, thumbnailUrl }

/-- The rows that `Work#create_images` appends. -/
def imageRows (iurls turls : Option Json) : Option (List Image) :=
  match iurls with
  | none => some []
  | some us => (elements us).bind fun xs => (joinUrls xs (turlAt turls)).mapM (imageRow A)

/-! ### Saving -/

/-- A field as it is stored. -/
def stored (f : String × Option Field) : String × Option String :=
  (f.1, f.2.map (Field.toS A.printable))

/-- The `UPDATE`: columns that were assigned are written. -/
def write (w : Work D) : Work D :=
  { w with
    row := { w.row with
      parsed := if w.assigned then w.parsed.map (List.map (stored A)) else w.row.parsed }
    assigned := false }

/-- `Work#create_images` on a work just written. -/
def createImages (w : Work D) : Option (Work D) :=
  (imageRows A w.iurls w.turls).map fun rows =>
    { w with row := { w.row with images := w.row.images ++ rows } }

/-- `save`, with its callbacks, in one transaction. -/
def save (w : Work D) : Option (Work D) :=
  (extractAttributes A w).bind fun w => createImages A (write A w)

/-- `Work.find`: the object of a row. -/
def load (row : Record D) : Work D where
  row := row
  parsed := row.parsed.map fun fields => fields.map fun f => (f.1, f.2.map Field.text)
  assigned := false
  iurls := none
  turls := none

/-- A value of `parsed` as it reads after the assignment. -/
def assignedField (f : String × Option (List Json)) : String × Option Field :=
  (f.1, f.2.map fun xs =>
    if A.castsOnWrite then .text (Field.toS A.printable (.list xs)) else .list xs)

/-- The assignment of a hash of lists to `parsed`. -/
def assignParsed (w : Work D) (fields : List (String × Option (List Json))) : Work D :=
  { w with parsed := some (fields.map (assignedField A)), assigned := true }

/-- The assignment of the colours of a histogram. -/
def assignColors (w : Work D) (primary : String) (histogram : List Color) : Work D :=
  { w with row := { w.row with primaryColor := some primary, topColors := some histogram } }

end Work

/-- How `cache_thumb` and `extract_colors` end: they depend on the network, on files and on
ImageMagick. -/
inductive Thumb where
  /-- One of them raises, or there is no histogram at all. -/
  | failed
  /-- There is no thumbnail to cache. -/
  | notCached
  /-- The histogram of the cached thumbnail. -/
  | histogram (h : List Color)
deriving DecidableEq

/-- Are there colours to save? -/
def Thumb.savesColors : Thumb → Bool
  | .histogram (_ :: _) => true
  | _ => false

/-- The end of both workers: `update primary_color: …, top_colors: …` if there are colours. -/
def Work.updateColors (A : Adapter D) (thumb : Thumb) (w : Work D) : Option (Work D) :=
  match thumb with
  | .failed => none
  | .notCached => some w
  | .histogram [] => some w
  | .histogram (c :: cs) => save A (assignColors w c.color (c :: cs))

/-- The hash that a worker builds: what `follow_json` returns for each field. -/
def Configuration.parse (c : Configuration) (original : Json) : List (String × Option (List Json)) :=
  c.fields.map fun f => (f.1, Collection.followJson original f.2)

end Curarium
