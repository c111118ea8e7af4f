import Curarium.Circles.Requests
import Curarium.Library.Kleene

/-!
# The listings of circles

The scopes of `Circle` are conditions in SQL, with the columns of a circle, the rows of
`circles_users` and the ids of one or two users. Columns may be `NULL`, and then a comparison is
neither true nor false; a scope selects the circles of which its condition is true.

* `forUserByCurrent_iff` — the seven cases of `for_user_by_current` together are what both
  `editable_by_user` and `visible_to_user` select.
* `listings_respect_membership` — so it is, and no listing has a private circle that the viewer is
  not in.
-/

namespace Curarium
namespace Circles

open Kleene

/-! ### The conditions -/

section Conditions

variable (rows : List CirclesUser)

/-- `SELECT circle_id FROM circles_users WHERE user_id = :user` -/
def circlesOf (user : Nat) : List (Option Nat) :=
  (rows.filter fun r => Kleene.eq r.userId (some user) = some true).map CirclesUser.circleId

/-- `admin_id = :user` -/
def isAdmin (user : Nat) (c : Circle) : Option Bool := Kleene.eq c.adminId (some user)

/-- `id IN ( SELECT circle_id FROM circles_users WHERE user_id = :user )` -/
def isPart (user : Nat) (c : Circle) : Option Bool := Kleene.mem (some c.id) (circlesOf rows user)

/-- `NOT privacy = 'private'` -/
def notPrivate (c : Circle) : Option Bool := Kleene.not (Kleene.eq c.privacy (some "private"))

/-- `:user = :current` -/
def sameUser (user current : Nat) : Option Bool := Kleene.eq (some user) (some current)

/-- `Circle.for_user_by_anon` -/
def forUserByAnon (user : Nat) (c : Circle) : Option Bool :=
  and (notPrivate c) (or (isAdmin user c) (isPart rows user c))

/-- `Circle.for_user_by_current` -/
def forUserByCurrent (user current : Nat) (c : Circle) : Option Bool :=
  any (and (isAdmin user c) (sameUser user current))
    [and (isPart rows user c) (sameUser user current),
      and (isAdmin user c) (isPart rows current c),
      and (isAdmin current c) (isPart rows user c),
      and (isPart rows user c) (isPart rows current c),
      and (isAdmin user c) (notPrivate c),
      and (isPart rows user c) (notPrivate c)]

/-- `Circle.editable_by_user` -/
def editableByUser (user : Nat) (c : Circle) : Option Bool :=
  or (isAdmin user c) (isPart rows user c)

/-- `Circle.visible_to_user` -/
def visibleToUser (user : Nat) (c : Circle) : Option Bool :=
  any (isAdmin user c) [isPart rows user c, notPrivate c]

/-- `where privacy: 'public'` -/
def isPublic (c : Circle) : Option Bool := Kleene.eq c.privacy (some "public")

end Conditions

/-- The circles of which a condition is true. -/
def select (cond : Circle → Option Bool) (circles : List Circle) : List Circle :=
  circles.filter fun c => cond c = some true

/-! ### The listings -/

section Listings

variable (s : Store) (friendly : String → Option Nat)

/-- `CirclesController#set_circles`. `User.friendly.find` raises (`none`) for a user who is not
there. -/
def setCircles (userId : Option String) (current : Option Nat) : Option (List Circle) :=
  match userId.filter fun t => !Ruby.blank t.toList with
  | some param => (friendly param).map fun user =>
    match current with
    | some current => select (forUserByCurrent s.circlesUsers user current) s.circles
    | none => select (forUserByAnon s.circlesUsers user) s.circles
  | none =>
    match current with
    | some current => some (select (visibleToUser s.circlesUsers current) s.circles)
    | none => some (select isPublic s.circles)

/-- `UsersController#set_user` -/
def setUser (id : String) (current : Option Nat) : Option (List Circle) :=
  (friendly id).map fun user =>
    match current with
    | some current => select (forUserByCurrent s.circlesUsers user current) s.circles
    | none => select (forUserByAnon s.circlesUsers user) s.circles

end Listings

/-! ### When the conditions are true -/

variable {rows : List CirclesUser} {user current : Nat} {c : Circle}

theorem isAdmin_iff : isAdmin user c = some true ↔ c.adminId = some user := by
  rw [isAdmin, eq_eq_true]
  constructor
  · rintro ⟨x, hx, h⟩
    rw [hx, h]
  · exact fun h => ⟨user, h, rfl⟩

theorem isPart_iff : isPart rows user c = some true ↔
    { circleId := some c.id, userId := some user } ∈ rows := by
  rw [isPart, mem_eq_true, circlesOf]
  constructor
  · rintro ⟨id, hid, hmem⟩
    obtain rfl := Option.some.inj hid
    obtain ⟨⟨circleId, userId⟩, hr, rfl⟩ := List.mem_map.mp hmem
    obtain ⟨hrow, huser⟩ := List.mem_filter.mp hr
    -- the comparison is true, so the column is not `NULL`
    obtain ⟨x, rfl, hx⟩ := eq_eq_true.mp (of_decide_eq_true huser)
    obtain rfl := Option.some.inj hx
    exact hrow
  · intro hrow
    refine ⟨c.id, rfl, List.mem_map.mpr ⟨_, List.mem_filter.mpr ⟨hrow, ?_⟩, rfl⟩⟩
    exact decide_eq_true (eq_eq_true.mpr ⟨user, rfl, rfl⟩)

theorem sameUser_iff : sameUser user current = some true ↔ user = current := by
  simp [sameUser, Kleene.eq]

/-- Of a private circle the negation is false, and without a privacy it is unknown. -/
theorem notPrivate_private (h : c.privacy = some "private") : notPrivate c ≠ some true := by
  rw [notPrivate, h]
  decide

theorem editableByUser_iff : editableByUser rows user c = some true ↔
    isAdmin user c = some true ∨ isPart rows user c = some true := or_eq_true

theorem visibleToUser_iff : visibleToUser rows user c = some true ↔
    isAdmin user c = some true ∨ isPart rows user c = some true ∨ notPrivate c = some true := by
  rw [visibleToUser, any, any, any, or_eq_true, or_eq_true]

/-- **`for_user_by_current`** is true where both `editable_by_user` and `visible_to_user` are. -/
theorem forUserByCurrent_iff : forUserByCurrent rows user current c = some true ↔
    editableByUser rows user c = some true ∧ visibleToUser rows current c = some true := by
  rw [editableByUser_iff, visibleToUser_iff, forUserByCurrent]
  simp only [any, or_eq_true, and_eq_true, sameUser_iff]
  constructor
  · -- each case has the user in the circle, and the viewer in it or the circle not private
    rintro (⟨hu, rfl⟩ | ⟨hu, rfl⟩ | ⟨hu, hc⟩ | ⟨hc, hu⟩ | ⟨hu, hc⟩ | ⟨hu, hp⟩ | ⟨hu, hp⟩)
    · exact ⟨Or.inl hu, Or.inl hu⟩
    · exact ⟨Or.inr hu, Or.inr (Or.inl hu)⟩
    · exact ⟨Or.inl hu, Or.inr (Or.inl hc)⟩
    · exact ⟨Or.inr hu, Or.inl hc⟩
    · exact ⟨Or.inr hu, Or.inr (Or.inl hc)⟩
    · exact ⟨Or.inl hu, Or.inr (Or.inr hp)⟩
    · exact ⟨Or.inr hu, Or.inr (Or.inr hp)⟩
  · rintro ⟨hu | hu, hc | hc | hp⟩
    · -- both are the admin, so they are the same user
      rw [isAdmin_iff] at hc
      have hsame : user = current := Option.some.inj ((isAdmin_iff.mp hu).symm.trans hc)
      exact Or.inl ⟨hu, hsame⟩
    · exact Or.inr (Or.inr (Or.inl ⟨hu, hc⟩))
    · exact Or.inr (Or.inr (Or.inr (Or.inr (Or.inr (Or.inl ⟨hu, hp⟩)))))
    · exact Or.inr (Or.inr (Or.inr (Or.inl ⟨hc, hu⟩)))
    · exact Or.inr (Or.inr (Or.inr (Or.inr (Or.inl ⟨hu, hc⟩))))
    · exact Or.inr (Or.inr (Or.inr (Or.inr (Or.inr (Or.inr ⟨hu, hp⟩)))))

/-! ### What a viewer sees -/

/-- A viewer is in a circle: as its admin, or in its rows. -/
def Participates (s : Store) (viewer : Option Nat) (c : Circle) : Prop :=
  ∃ u, viewer = some u ∧
    (c.adminId = some u ∨ { circleId := some c.id, userId := some u } ∈ s.circlesUsers)

/-- The circles of a listing that a viewer may see. -/
def Respects (s : Store) (viewer : Option Nat) (listing : List Circle) : Prop :=
  ∀ c ∈ listing, c.privacy = some "private" → Participates s viewer c

theorem respects_select {s : Store} {viewer : Option Nat} {cond : Circle → Option Bool}
    (h : ∀ c, cond c = some true → c.privacy = some "private" → Participates s viewer c)
    (circles : List Circle) : Respects s viewer (select cond circles) := by
  intro c hc
  exact h c (of_decide_eq_true (List.mem_filter.mp hc).2)

theorem participates_of_visible {s : Store} (hvisible : visibleToUser s.circlesUsers user c = some true)
    (hprivate : c.privacy = some "private") : Participates s (some user) c := by
  refine ⟨user, rfl, ?_⟩
  rcases visibleToUser_iff.mp hvisible with hadmin | hpart | hnot
  · exact Or.inl (isAdmin_iff.mp hadmin)
  · exact Or.inr (isPart_iff.mp hpart)
  · exact absurd hnot (notPrivate_private hprivate)

theorem respects_forUserByCurrent (s : Store) (user current : Nat) :
    Respects s (some current) (select (forUserByCurrent s.circlesUsers user current) s.circles) :=
  respects_select (fun _ hc => participates_of_visible (forUserByCurrent_iff.mp hc).2) _

theorem respects_forUserByAnon (s : Store) (user : Nat) :
    Respects s none (select (forUserByAnon s.circlesUsers user) s.circles) :=
  respects_select (fun _ hc hprivate => absurd (and_eq_true.mp hc).1 (notPrivate_private hprivate)) _

theorem respects_visibleToUser (s : Store) (current : Nat) :
    Respects s (some current) (select (visibleToUser s.circlesUsers current) s.circles) :=
  respects_select (fun _ hc => participates_of_visible hc) _

theorem respects_isPublic (s : Store) : Respects s none (select isPublic s.circles) := by
  refine respects_select (fun c hc hprivate => ?_) _
  obtain ⟨p, hp, hpublic⟩ := eq_eq_true.mp hc
  rw [hprivate] at hp
  obtain rfl := Option.some.inj hp
  exact absurd hpublic (by decide)

/-- **The listings of circles respect membership**, in every database and for all users. -/
theorem listings_respect_membership (s : Store) (friendly : String → Option Nat) :
    (∀ user current, select (forUserByCurrent s.circlesUsers user current) s.circles =
      s.circles.filter fun c => c ∈ select (editableByUser s.circlesUsers user) s.circles ∧
        c ∈ select (visibleToUser s.circlesUsers current) s.circles) ∧
    (∀ userId viewer, ∀ listing ∈ setCircles s friendly userId viewer, Respects s viewer listing) ∧
    (∀ id viewer, ∀ listing ∈ setUser s friendly id viewer, Respects s viewer listing) := by
  refine ⟨fun user current => ?_, fun userId viewer listing hl => ?_, fun id viewer listing hl => ?_⟩
  · -- both sides are filters of the same rows
    refine List.filter_congr fun c hc => ?_
    rw [decide_eq_decide, forUserByCurrent_iff, select, select, List.mem_filter, List.mem_filter,
      decide_eq_true_iff, decide_eq_true_iff, and_iff_right hc, and_iff_right hc]
  · unfold setCircles at hl
    split at hl
    · -- the circles of one user
      obtain ⟨user, -, rfl⟩ := Option.map_eq_some_iff.mp hl
      cases viewer with
      | some current => exact respects_forUserByCurrent s user current
      | none => exact respects_forUserByAnon s user
    · -- the list of all circles
      cases viewer with
      | some current =>
        obtain rfl := Option.some.inj hl
        exact respects_visibleToUser s current
      | none =>
        obtain rfl := Option.some.inj hl
        exact respects_isPublic s
  · obtain ⟨user, -, rfl⟩ := Option.map_eq_some_iff.mp hl
    cases viewer with
    | some current => exact respects_forUserByCurrent s user current
    | none => exact respects_forUserByAnon s user

end Circles
end Curarium
