import Curarium.Works.WellFormed
import Curarium.Work.Show
import Curarium.Library.Tables

/-!
# The pages that list collections and works

The home page, the list of collections and the works index without a collection. Each of them
gathers its own rows; what it hands to its view is the `Response` here. The home page shows a random
choice, and its response is what it chooses from.

Before every page the header gathers the approved collections, and the collection in the cookie
`active_collection` is looked up.

Rows are in the order of their ids. What `lower` does in the database is a parameter, and so is what
the statement of the treemap selects. A view raises on what it cannot show: a cover that is not there,
and in the list of works a work without a collection or with metadata that cannot be joined. The colors
of a work are those that `extract_colors` writes, which can be shown.
-/

namespace Curarium
namespace Listing

open Tables WorksIndex

/-! ### The tables -/

/-- A row of `collections`. The configuration is given by its keys; one that is not an object has
none, and raises when asked for them. -/
structure Collection where
  id : Nat
  name : Option String
  approved : Option Bool
  configuration : Option (List String)
  coverId : Option Nat
deriving DecidableEq

/-- A row of `works`. -/
structure Work where
  id : Nat
  collectionId : Option Nat
  title : Option String
  parsed : Option (List (String × Option String))
  topColors : Option String
deriving DecidableEq

/-- A row of `images`. -/
structure Image where
  workId : Option Nat
  thumbnailUrl : Option String
deriving DecidableEq

/-- The tables, with their primary keys. -/
structure Database where
  collections : List Collection
  works : List Work
  images : List Image
  collectionIds : (collections.map Collection.id).Nodup
  workIds : (works.map Work.id).Nodup

/-- The columns of a work that a condition may name. -/
def Work.row (w : Work) : Row where
  collectionId := w.collectionId.map Int.ofNat
  parsed := w.parsed.getD []
  topColors := w.topColors

/-! ### Scopes -/

section Scopes

variable (db : Database)

/-- `Collection.where approved: true` -/
def approvedCollections : List Collection := db.collections.filter fun c => c.approved = some true

/-- `Work.with_thumb` -/
def withThumb (w : Work) : Bool :=
  db.images.any fun i => i.workId = some w.id && i.thumbnailUrl.isSome

/-- `Work.approved` -/
def approved (w : Work) : Bool :=
  db.collections.any fun c => c.approved = some true && w.collectionId = some c.id

/-- `Collection.with_works` -/
def withWorks (c : Collection) : Bool := db.works.any fun w => w.collectionId = some c.id

/-- `Work#thumbnail_cache_url`: the file of the work, unless its first image has no thumbnail. -/
def thumbnailCacheUrl (w : Work) : Option Nat :=
  (db.images.find? fun i => i.workId = some w.id).bind fun i =>
    if i.thumbnailUrl.any fun t => !Ruby.blank t.toList then some w.id else none

/-- `Collection#cover`; a cover that is not there raises. -/
def cover (c : Collection) : Option (Option Work) :=
  match c.coverId with
  | some id => (find Work.id id db.works).map some
  | none => some (db.works.find? fun w => w.collectionId = some c.id && withThumb db w)

/-- `Collection#cover_url` -/
def coverUrl (c : Collection) : Option (Option Nat) :=
  (cover db c).map fun w => w.bind (thumbnailCacheUrl db)

end Scopes

/-! ### The works index -/

/-- The visualizations, which have a partial of their own. -/
def visualizations : List String :=
  ["list", "thumbnails", "objectmap", "treemap", "colorfilter", "geochrono"]

/-- A request to the works index without `collection_id`. -/
structure WorksRequest where
  vis : Option String
  page : Option Text
  perPage : Option Text
  query : Query
  known : ∀ v, vis = some v → v ∈ visualizations
  absent : present query.collectionId = none

/-- The keys that the works index does not offer as properties. -/
def excludeProps : List String := ["unique_identifier", "image", "thumbnail"]

/-- The keys of one configuration, added to the properties. -/
def addProperties (properties : List String) (keys : List String) : List String :=
  keys.foldl (fun ps k => if k ∈ excludeProps ∨ k ∈ ps then ps else ps ++ [k]) properties

/-- `@properties`: those of all the collections; `none` where a configuration raises. -/
def properties : List Collection → List String → Option (List String)
  | [], ps => some ps
  | c :: cs, ps => c.configuration.bind fun keys => properties cs (addProperties ps keys)

/-- `params[ … ].to_i` -/
def toI (param : Option Text) : Int := Ruby.toI (param.getD [])

def perPage (r : WorksRequest) : Nat := if toI r.perPage ≤ 0 then 200 else (toI r.perPage).toNat

/-- `@page`, which is 1 beyond the last one. -/
def page (r : WorksRequest) (num : Nat) : Nat :=
  if toI r.page ≤ 0 ∨ (num + perPage r - 1) / perPage r < (toI r.page).toNat then 1
  else (toI r.page).toNat

/-- `.order( :id )` -/
def orderById (works : List Work) : List Work := works.insertionSort fun v w => v.id ≤ w.id

/-- `.limit( @perpage ).offset( ( @page - 1 ) * @perpage )` -/
def rows (r : WorksRequest) (num : Nat) (works : List Work) : List Work :=
  ((orderById works).drop ((page r num - 1) * perPage r)).take (perPage r)

/-- The database refuses a limit that is not below this one. -/
def limitBound : Nat := 2 ^ 63

/-- Does the partial `works/_metadata`, which is in every row of the list, raise on a work? -/
def metadataRaises (db : Database) (w : Work) : Bool :=
  !(db.collections.any fun c => w.collectionId = some c.id) ||
    (w.parsed.bind (Show.metadataLines ⟨[], []⟩)).isNone

/-- What a page shows. -/
inductive Body where
  /-- What the home page chooses from; a cover that raises does so when its collection is chosen. -/
  | home (works : List Work) (collections : List (Collection × Option (Option Nat)))
  | collections (collections : List (Collection × Option Nat))
  | works (properties : List String) (num : Nat) (works : List Work)
  | treemap (properties : List String) (groups : List (Option String × Nat))

inductive Response where
  /-- A record that was looked up is not there. -/
  | notFound
  /-- The action or its view raised, or the database refused a statement. -/
  | serverError
  | redirect (work : Nat)
  | page (viewer : Option Nat) (header : List Collection) (body : Body)

section Pages

variable (lower : List Char → List Char)
  (execute : Sql.Select → Database → List (Option String × Nat)) (db : Database)

/-- `WorksController#index` -/
def worksIndex (r : WorksRequest) (render : Body → Response) : Response :=
  let vis := r.vis.getD "objectmap"
  match properties db.collections [] with
  | none => .serverError
  | some properties =>
    match (whereClause [] r.query).bind fun clause => matching lower Work.row clause db.works with
    | none => .serverError
    | some works =>
      let thumbs := works.filter (withThumb db)
      let num := if vis ∈ ["thumbnails", "objectmap", "colorfilter"] then thumbs.length else works.length
      if vis = "treemap" then
        match works with
        | [w] => .redirect w.id
        | _ =>
          match (treemapSql [] r.query).bind fun sql => Sql.parseStatement (Sql.lex sql) with
          | none => .serverError
          | some statement => render (.treemap properties (execute statement db))
      else if vis ∈ ["thumbnails", "list", "colorfilter"] then
        let shown := rows r num (if vis = "list" then works else thumbs)
        if limitBound ≤ perPage r ∨ vis = "list" ∧ shown.any (metadataRaises db) = true then .serverError
        else render (.works properties num shown)
      else if vis ∈ ["objectmap", "geochrono"] then render (.works properties num (orderById thumbs))
      else render (.works properties num (orderById works))

/-- `HomeController#index` -/
def home (render : Body → Response) : Response :=
  render (.home (db.works.filter fun w => approved db w && withThumb db w)
    ((db.collections.filter fun c => withWorks db c && c.approved = some true).map fun c =>
      (c, coverUrl db c)))

/-- `CollectionsController#index`. Its view shows all the covers, and raises if one of them does. -/
def collectionsIndex (render : Body → Response) : Response :=
  if (approvedCollections db).all fun c => (coverUrl db c).isSome then
    render (.collections ((approvedCollections db).map fun c => (c, (coverUrl db c).getD none)))
  else .serverError

inductive Page where
  | home
  | collections
  | works (r : WorksRequest)

/-- A request for one of the pages, with the user and the cookie that come with it. -/
structure Request where
  viewer : Option Nat
  activeCollection : Option Nat
  page : Page

/-- The response to a request. The cookie is looked up first. -/
def respond (r : Request) : Response :=
  if r.activeCollection.any fun id => (find Collection.id id db.collections).isNone then .notFound
  else
    match r.page with
    | .home => home db (.page r.viewer (approvedCollections db))
    | .collections => collectionsIndex db (.page r.viewer (approvedCollections db))
    | .works w => worksIndex lower execute db w (.page r.viewer (approvedCollections db))

end Pages

end Listing
end Curarium
