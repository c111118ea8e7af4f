import Curarium.Circles.Scopes
import Curarium.Library.Lists
import Mathlib.Data.List.ReduceOption

/-!
# `User#all_trays`

A tray is owned by a user or by a circle, which its row names by a class and an id. The trays of a
user are put together as a list of ids, from the circles that a scope in SQL selects and from the
trays of the user, and looked up with `Tray.find`; who is in a circle is decided by
`Circle#has_user?` elsewhere.

* `mem_editable_iff` — the scope and the predicate agree on a user who is there.
* `find_eq_some` — the ids are those of rows, so the lookup raises nothing.
* `allTrays_exact` — so the trays are those of the user and of the circles that have the user, each
  once.
-/

namespace Curarium
namespace Circles

open Tables

/-- A row of `trays`. -/
structure Tray where
  id : Nat
  ownerId : Option Nat
  ownerType : Option String
  name : Option String
deriving DecidableEq, Repr

/-- The table, with its primary key. -/
structure TrayTable where
  rows : List Tray
  distinct : (rows.map Tray.id).Nodup

/-- What may have trays. -/
inductive Owner
  | user (id : Nat)
  | circle (id : Nat)
deriving DecidableEq, Repr

/-- The class that is written to `owner_type`. -/
def Owner.type : Owner → String
  | .user _ => "User"
  | .circle _ => "Circle"

def Owner.id : Owner → Nat
  | .user id => id
  | .circle id => id

/-- The owner that a row names. -/
def Tray.IsOf (o : Owner) (t : Tray) : Prop := t.ownerType = some o.type ∧ t.ownerId = some o.id

instance (o : Owner) (t : Tray) : Decidable (t.IsOf o) := inferInstanceAs (Decidable (_ ∧ _))

section Model

variable (s : Store) (trays : TrayTable)

/-- `has_many :trays, as: :owner` -/
def traysOf (o : Owner) : List Tray := trays.rows.filter fun t => t.IsOf o

/-- `trays.pluck :id` -/
def trayIds (o : Owner) : List Nat := (traysOf trays o).map Tray.id

/-- `Tray.find` of a list of ids. It raises (`none`) unless there is a row for each. -/
def findTrays (ids : List Nat) : Option (List Tray) :=
  let found := trays.rows.filter fun t => t.id ∈ ids
  if found.length = ids.length then some found else none

/-- `Circle.editable_by_user( self )` -/
def editable (user : Nat) : List Circle := select (editableByUser s.circlesUsers user) s.circles

/-- The ids of the trays of the circles. A circle without trays gives a `nil`. -/
def ctids (user : Nat) : List Nat :=
  ((editable s user).map fun c =>
    if (traysOf trays (.circle c.id)).isEmpty then none else some (trayIds trays (.circle c.id))
  ).reduceOption.flatten

/-- `User#all_trays` -/
def allTrays (user : Nat) : Option (List Tray) :=
  findTrays trays (ctids s trays user ++ trayIds trays (.user user)).eraseDups

end Model

variable {db : Records} {s : Store} {trays : TrayTable} {user : Nat}

/-! ### The circles -/

theorem hasUser_iff (huser : user ∈ db.users) {c : Circle} : hasUser db s c (some user) ↔
    c.adminId = some user ∨ { circleId := some c.id, userId := some user } ∈ s.circlesUsers := by
  rw [hasUser, Bool.or_eq_true, decide_eq_true_iff, Option.any_some, decide_eq_true_iff]
  refine or_congr ?_ ?_
  · -- the user is there, so the lookup of the admin finds it
    rw [Circle.admin, Option.filter_eq_some_iff]
    exact ⟨fun h => h.1, fun h => ⟨h, decide_eq_true huser⟩⟩
  · rw [Store.users, List.mem_filter, and_iff_left (decide_eq_true huser), memberIds, List.mem_filterMap]
    constructor
    · rintro ⟨⟨circleId, userId⟩, hr, h⟩
      obtain ⟨rfl, rfl⟩ := Option.ite_none_right_eq_some.mp h
      exact hr
    · exact fun hr => ⟨_, hr, if_pos rfl⟩

/-- **The scope and the predicate agree** on a user who is there. -/
theorem mem_editable_iff (huser : user ∈ db.users) {c : Circle} :
    c ∈ editable s user ↔ c ∈ s.circles ∧ hasUser db s c (some user) := by
  unfold editable select
  rw [List.mem_filter, decide_eq_true_iff, editableByUser_iff, isAdmin_iff, isPart_iff, hasUser_iff huser]

/-! ### The ids -/

theorem mem_trayIds_iff {o : Owner} {n : Nat} :
    n ∈ trayIds trays o ↔ ∃ t ∈ trays.rows, t.IsOf o ∧ t.id = n := by
  unfold trayIds traysOf
  rw [List.mem_map]
  refine exists_congr fun t => ?_
  rw [List.mem_filter, decide_eq_true_iff, and_assoc]

theorem mem_ctids_iff {n : Nat} :
    n ∈ ctids s trays user ↔ ∃ c ∈ editable s user, n ∈ trayIds trays (.circle c.id) := by
  unfold ctids
  rw [List.mem_flatten]
  constructor
  · rintro ⟨ids, hids, hn⟩
    obtain ⟨c, hc, h⟩ := List.mem_map.mp (List.reduceOption_mem_iff.mp hids)
    split at h
    · cases h
    · obtain rfl := Option.some.inj h
      exact ⟨c, hc, hn⟩
  · rintro ⟨c, hc, hn⟩
    -- the circle has the tray with this id, so it does not give a `nil`
    have hany : (traysOf trays (.circle c.id)).isEmpty = false := by
      obtain ⟨t, ht, -⟩ := List.mem_map.mp hn
      rw [List.isEmpty_eq_false_iff]
      exact List.ne_nil_of_mem ht
    refine ⟨_, List.reduceOption_mem_iff.mpr (List.mem_map.mpr ⟨c, hc, ?_⟩), hn⟩
    rw [hany]
    rfl

/-- **The lookup finds every id** that is one of a row, if none is given twice. -/
theorem find_eq_some {ids : List Nat} (hids : ids.Nodup) (hrow : ∀ n ∈ ids, ∃ t ∈ trays.rows, t.id = n) :
    findTrays trays ids = some (trays.rows.filter fun t => t.id ∈ ids) := by
  unfold findTrays
  refine if_pos ?_
  have hperm : ((trays.rows.filter fun t => t.id ∈ ids).map Tray.id).Perm ids := by
    refine (List.perm_ext_iff_of_nodup ?_ hids).mpr fun n => ?_
    · exact trays.distinct.sublist (List.filter_sublist.map _)
    · rw [List.mem_map]
      constructor
      · rintro ⟨t, ht, rfl⟩
        exact of_decide_eq_true (List.mem_filter.mp ht).2
      · intro hn
        obtain ⟨t, ht, rfl⟩ := hrow n hn
        exact ⟨t, List.mem_filter.mpr ⟨ht, decide_eq_true hn⟩, rfl⟩
  calc (trays.rows.filter fun t => t.id ∈ ids).length
      = ((trays.rows.filter fun t => t.id ∈ ids).map Tray.id).length := (List.length_map _).symm
    _ = ids.length := hperm.length_eq

/-- **All trays of a user**: those it owns and those of the circles that have it, each once. -/
theorem allTrays_exact (db : Records) (s : Store) (trays : TrayTable) (user : Nat)
    (huser : user ∈ db.users) :
    ∃ result, allTrays s trays user = some result ∧ result.Nodup ∧
      ∀ t, t ∈ result ↔ t ∈ trays.rows ∧
        (t.IsOf (.user user) ∨ ∃ c ∈ s.circles, hasUser db s c (some user) ∧ t.IsOf (.circle c.id)) := by
  have hmem : ∀ n, n ∈ (ctids s trays user ++ trayIds trays (.user user)).eraseDups ↔
      (∃ c ∈ editable s user, n ∈ trayIds trays (.circle c.id)) ∨ n ∈ trayIds trays (.user user) := by
    intro n
    rw [List.mem_eraseDups, List.mem_append, mem_ctids_iff]
  have hrow : ∀ n ∈ (ctids s trays user ++ trayIds trays (.user user)).eraseDups,
      ∃ t ∈ trays.rows, t.id = n := by
    intro n hn
    rcases (hmem n).mp hn with ⟨c, -, hc⟩ | hu
    · obtain ⟨t, ht, -, hid⟩ := mem_trayIds_iff.mp hc
      exact ⟨t, ht, hid⟩
    · obtain ⟨t, ht, -, hid⟩ := mem_trayIds_iff.mp hu
      exact ⟨t, ht, hid⟩
  refine ⟨_, find_eq_some (Lists.nodup_eraseDups _) hrow, ?_, fun t => ?_⟩
  · exact (List.Nodup.of_map _ trays.distinct).filter _
  rw [List.mem_filter, decide_eq_true_iff, hmem]
  refine and_congr_right fun ht => ?_
  -- a row is the only one with its id, so an owner's id list has it exactly if it is the owner's
  have hid : ∀ o, t.id ∈ trayIds trays o ↔ t.IsOf o := by
    intro o
    rw [mem_trayIds_iff]
    constructor
    · rintro ⟨t', ht', ho, h⟩
      rwa [← List.inj_on_of_nodup_map trays.distinct ht' ht h]
    · exact fun ho => ⟨t, ht, ho, rfl⟩
  rw [hid, or_comm]
  refine or_congr_right (exists_congr fun c => ?_)
  rw [hid, mem_editable_iff huser, and_assoc]

/-- An admin's circle and its own id: the same number twice, and a row of `circles_users` twice. -/
theorem allTrays_exact_shared_ids :
    let db : Records := { users := [1, 2], collections := [], works := [] }
    let circle : Circle :=
      { id := 1, title := some "t", description := some "d", privacy := none, adminId := some 2, coverId := none }
    let s : Store :=
      { circles := [circle], next := 2, circleCollections := [],
        circlesUsers := [⟨some 1, some 1⟩, ⟨some 1, some 1⟩] }
    let trays : TrayTable :=
      { rows := [⟨1, some 1, some "User", none⟩, ⟨2, some 1, some "Circle", none⟩, ⟨3, some 2, some "User", none⟩]
        distinct := by decide }
    ∃ result, allTrays s trays 1 = some result ∧ result.Nodup ∧
      ∀ t, t ∈ result ↔ t ∈ trays.rows ∧
        (t.IsOf (.user 1) ∨ ∃ c ∈ s.circles, hasUser db s c (some 1) ∧ t.IsOf (.circle c.id)) :=
  allTrays_exact _ _ _ 1 (by decide)

end Circles
end Curarium
