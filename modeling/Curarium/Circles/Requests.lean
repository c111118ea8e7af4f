import Curarium.Library.Runs
import Curarium.Library.Tables
import Curarium.Ruby.Text

/-!
# `CirclesController`: the requests on circles

A circle has an admin, in a column of its row, and users, in the rows of `circles_users`. Nothing
in the tables keeps a row from being there twice.

A request looks up its records, applies the guards it has, and then writes: `plan` says what it
will write (`Change`), or `none` where it raises, is rejected by a validation or finds nothing to
do; `apply` writes it. `perform` is a request that nothing interrupts.

The cover of a circle is set by `WorksController#set_cover`, and that request is among these.
-/

namespace Curarium
namespace Circles

open Tables

/-! ### The tables -/

/-- A row of `circles`. -/
structure Circle where
  id : Nat
  title : Option String
  description : Option String
  privacy : Option String
  adminId : Option Nat
  coverId : Option Nat
deriving DecidableEq, Repr

/-- A row of `circles_users`. -/
structure CirclesUser where
  circleId : Option Nat
  userId : Option Nat
deriving DecidableEq, Repr

/-- A row of `circle_collections`. -/
structure CircleCollection where
  circleId : Option Nat
  collectionId : Option Nat
deriving DecidableEq, Repr

/-- The records that circles refer to. The requests on circles do not write them. -/
structure Records where
  users : List Nat
  collections : List Nat
  works : List Nat

/-- The tables that the requests write, and the id of the next circle. -/
structure Store where
  circles : List Circle
  next : Nat
  circlesUsers : List CirclesUser
  circleCollections : List CircleCollection
deriving DecidableEq, Repr

/-- The users in the rows of a circle. -/
def memberIds (rows : List CirclesUser) (id : Nat) : List Nat :=
  rows.filterMap fun r => if r.circleId = some id then r.userId else none

section Model

variable (db : Records)

/-- `current_user`: the user of the session, if there is one. -/
def Records.currentUser (session : Option Nat) : Option Nat := session.filter (· ∈ db.users)

/-- `@circle.users`: the rows of the circle joined with the users. -/
def Store.users (s : Store) (id : Nat) : List Nat :=
  (memberIds s.circlesUsers id).filter (· ∈ db.users)

/-- `@circle.admin` -/
def Circle.admin (c : Circle) : Option Nat := c.adminId.filter (· ∈ db.users)

/-- `Circle#has_user?`. The admin of a circle without one is `nil`, as the anonymous user is. -/
def hasUser (s : Store) (c : Circle) (user : Option Nat) : Bool :=
  c.admin db = user || user.any (· ∈ s.users db c.id)

/-! ### Validations and parameters -/

/-- `validates … presence: true` -/
def present (text : Option String) : Bool := text.any fun t => !Ruby.blank t.toList

/-- The validations of a circle that is about to be saved. -/
def valid (s : Store) (c : Circle) : Bool :=
  present c.title && s.circles.all (fun other => other.id = c.id || other.title ≠ c.title) &&
    present c.description

/-- `circle_params`: what of it is given. A circle has no `collections_id`, and a request that
gives one raises. -/
structure Params where
  title : Option (Option String)
  description : Option (Option String)
  privacy : Option (Option String)
  collectionsId : Bool
  userIds : Option (List Nat)
deriving DecidableEq, Repr

/-- The assignment of the parameters that are columns. -/
def Params.assign (p : Params) (c : Circle) : Circle :=
  { c with
    title := p.title.getD c.title
    description := p.description.getD c.description
    privacy := p.privacy.getD c.privacy }

/-- The assignment does not raise: the attributes are there, and `user_ids` are ids of users. -/
def Params.accepted (p : Params) : Bool :=
  !p.collectionsId && (p.userIds.getD []).all (· ∈ db.users)

/-- `Circle.new( circle_params )` with its admin. -/
def Params.newCircle (p : Params) (id : Nat) (admin : Option Nat) : Circle :=
  p.assign { id := id, title := none, description := none, privacy := some "private",
             adminId := admin, coverId := none }

/-! ### The requests -/

inductive Request where
  | create (p : Params)
  | update (id : Nat) (p : Params)
  | join (id : Nat)
  | leave (id : Nat)
  | addcol (id : Nat) (collections : List Nat)
  | destroy (id : Nat)
  /-- `WorksController#set_cover` -/
  | setCover (work : Nat) (coverType : Option String) (circleId : Option Nat)
deriving DecidableEq, Repr

/-- What a request writes. -/
inductive Change where
  | create (p : Params) (admin : Option Nat)
  | update (id : Nat) (p : Params)
  | join (id user : Nat)
  | leave (id user : Nat)
  | addcol (id : Nat) (collections : List Nat)
  | destroy (id : Nat)
  | cover (id work : Nat)
deriving DecidableEq, Repr

/-- `@circle.update( circle_params )` goes through. -/
def updates (s : Store) (c : Circle) (p : Params) : Bool :=
  p.accepted db && valid s (p.assign c)

/-- `CirclesController#create` -/
def create (s : Store) (current : Option Nat) (p : Params) : Option Change :=
  if p.accepted db && valid s (p.newCircle s.next current) then some (.create p current) else none

/-- `CirclesController#update` -/
def update (s : Store) (id : Nat) (p : Params) : Option Change :=
  (find Circle.id id s.circles).bind fun c => if updates db s c p then some (.update id p) else none

/-- `CirclesController#join`. The anonymous user is not included, and cannot be added. -/
def join (s : Store) (current : Option Nat) (id : Nat) : Option Change :=
  (find Circle.id id s.circles).bind fun c => current.bind fun u =>
    if u ∈ s.users db c.id then none else some (.join id u)

/-- `CirclesController#leave` -/
def leave (s : Store) (current : Option Nat) (id : Nat) : Option Change :=
  (find Circle.id id s.circles).bind fun c => current.bind fun u =>
    if u ∈ s.users db c.id then some (.leave id u) else none

/-- `CirclesController#addcol` -/
def addcol (s : Store) (id : Nat) (collections : List Nat) : Option Change :=
  (find Circle.id id s.circles).map fun _ =>
    .addcol id (db.collections.filter fun col => col ∈ collections)

/-- `CirclesController#destroy` -/
def destroy (s : Store) (id : Nat) : Option Change :=
  (find Circle.id id s.circles).map fun _ => .destroy id

/-- `WorksController#set_cover`, as far as circles are concerned. -/
def setCover (s : Store) (current : Option Nat) (work : Nat) (coverType : Option String)
    (circleId : Option Nat) : Option Change :=
  if work ∈ db.works ∧ current.isSome = true ∧ coverType = some "Circle" then
    circleId.bind fun id => (find Circle.id id s.circles).bind fun c =>
      if hasUser db s c current && valid s { c with coverId := some work } then some (.cover id work)
      else none
  else none

/-- What a request of a session will write. -/
def plan (s : Store) (session : Option Nat) : Request → Option Change
  | .create p => create db s (db.currentUser session) p
  | .update id p => update db s id p
  | .join id => join db s (db.currentUser session) id
  | .leave id => leave db s (db.currentUser session) id
  | .addcol id collections => addcol db s id collections
  | .destroy id => destroy s id
  | .setCover work coverType circleId => setCover db s (db.currentUser session) work coverType circleId

/-! ### The writes -/

/-- Rows for the users of a circle. -/
def rowsFor (id : Nat) (users : List Nat) : List CirclesUser :=
  users.map fun u => { circleId := some id, userId := some u }

/-- The rows without those of some users of a circle. -/
def deleteUsers (rows : List CirclesUser) (id : Nat) (p : Nat → Bool) : List CirclesUser :=
  rows.filter fun r => !(r.circleId = some id && r.userId.any p)

/-- `user_ids=` on a circle that is saved: the users that are not listed are deleted, and those
that are listed and not there are inserted, each as often as it is listed. -/
def replaceUsers (s : Store) (id : Nat) (ids : List Nat) : List CirclesUser :=
  deleteUsers s.circlesUsers id (fun u => u ∈ s.users db id && u ∉ ids) ++
    rowsFor id (ids.filter (· ∉ s.users db id))

/-- The tables after a change. -/
def apply (s : Store) : Change → Store
  | .create p admin =>
    { s with
      circles := s.circles ++ [p.newCircle s.next admin]
      next := s.next + 1
      circlesUsers := s.circlesUsers ++ rowsFor s.next (p.userIds.getD []) }
  | .update id p =>
    { s with
      circles := Tables.update Circle.id id p.assign s.circles
      circlesUsers := match p.userIds with
        | none => s.circlesUsers
        | some ids => replaceUsers db s id ids }
  | .join id u => { s with circlesUsers := s.circlesUsers ++ rowsFor id [u] }
  | .leave id u => { s with circlesUsers := deleteUsers s.circlesUsers id (· = u) }
  | .addcol id cols =>
    { s with circleCollections := s.circleCollections ++
        cols.map fun col => { circleId := some id, collectionId := some col } }
  | .destroy id =>
    { s with
      circles := s.circles.filter fun c => c.id ≠ id
      circlesUsers := s.circlesUsers.filter fun r => r.circleId ≠ some id }
  | .cover id work =>
    { s with circles := Tables.update Circle.id id (fun c => { c with coverId := some work }) s.circles }

/-- A request that nothing interrupts. -/
def perform (s : Store) (session : Option Nat) (r : Request) : Store :=
  match plan db s session r with
  | none => s
  | some ch => apply db s ch

end Model

/-! ### What holds of a planned change -/

/-- The circle that a change is about. -/
def Change.target : Change → Option Nat
  | .create _ _ => none
  | .update id _ => some id
  | .join id _ => some id
  | .leave id _ => some id
  | .addcol id _ => some id
  | .destroy id => some id
  | .cover id _ => some id

variable {db : Records} {s : Store}

/-- Ids of circles are distinct. -/
def Store.Wf (s : Store) : Prop := Keyed Circle.id s.next s.circles

theorem Store.Wf.apply (h : s.Wf) (ch : Change) : (apply db s ch).Wf := by
  cases ch with
  | create p admin => exact h.insert rfl
  | update id p => exact h.update fun _ => rfl
  | join id u => exact h
  | leave id u => exact h
  | addcol id cols => exact h
  | destroy id => exact h.filter _
  | cover id work => exact h.update fun _ => rfl

theorem Store.Wf.perform (h : s.Wf) (session : Option Nat) (r : Request) :
    (perform db s session r).Wf := by
  rw [Circles.perform]
  split
  · exact h
  · exact h.apply _

end Circles
end Curarium
