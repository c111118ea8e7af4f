import Curarium.Circles.Requests

/-!
# Who may change a circle

The form of a circle says who may see it and who may join it. `set_cover` asks `has_user?`, and
`leave` only lets go of a user who is in; the other requests have no guard of their own.

* `view_apply_of_ne` — a change leaves every circle alone that it is not about.
* `authorized` — a change that meets the guards comes from a participant, or is a user who joins a
  public circle.
* `always_policy` — over runs whose requests meet the guards, nobody else changes a circle, nobody
  gets into a circle that is not public without a participant, and the anonymous user is in none.
-/

namespace Curarium
namespace Circles

open Tables Runs

/-! ### Circles apart -/

/-- All that the tables say about one circle. -/
structure View where
  circle : Option Circle
  users : List CirclesUser
  collections : List CircleCollection
deriving DecidableEq

def Store.view (s : Store) (id : Nat) : View where
  circle := find Circle.id id s.circles
  users := s.circlesUsers.filter fun r => r.circleId = some id
  collections := s.circleCollections.filter fun r => r.circleId = some id

variable {db : Records} {s t : Store} {id : Nat}

theorem memberIds_filter (rows : List CirclesUser) (id : Nat) :
    memberIds (rows.filter fun r => r.circleId = some id) id = memberIds rows id := by
  rw [memberIds, List.filterMap_filter]
  refine List.filterMap_congr fun r _ => ?_
  by_cases h : r.circleId = some id
  · simp [h]
  · simp [h]

/-- Who is in a circle is read off its rows. -/
theorem users_of_view (h : t.view id = s.view id) : t.users db id = s.users db id := by
  have hrows : (t.circlesUsers.filter fun r => r.circleId = some id) =
      s.circlesUsers.filter fun r => r.circleId = some id := congrArg View.users h
  rw [Store.users, Store.users, ← memberIds_filter, hrows, memberIds_filter]

theorem filter_rowsFor_of_ne {id' : Nat} (h : id' ≠ id) (users : List Nat) :
    (rowsFor id' users).filter (fun r => r.circleId = some id) = [] := by
  rw [List.filter_eq_nil_iff]
  intro r hr
  obtain ⟨u, -, rfl⟩ := List.mem_map.mp hr
  simpa using h

theorem filter_deleteUsers_of_ne {id' : Nat} (h : id' ≠ id) (rows : List CirclesUser)
    (p : Nat → Bool) : (deleteUsers rows id' p).filter (fun r => r.circleId = some id) =
      rows.filter fun r => r.circleId = some id := by
  rw [deleteUsers, List.filter_filter]
  refine List.filter_congr fun r _ => ?_
  by_cases hr : r.circleId = some id
  · -- a row of the circle is none of the rows of the other one
    have hne : r.circleId ≠ some id' := fun h' => h (Option.some.inj (h'.symm.trans hr))
    simp [hr, h.symm]
  · simp [hr]

theorem view_eq (hcircle : find Circle.id id t.circles = find Circle.id id s.circles)
    (husers : (t.circlesUsers.filter fun r => r.circleId = some id) =
      s.circlesUsers.filter fun r => r.circleId = some id)
    (hcollections : (t.circleCollections.filter fun r => r.circleId = some id) =
      s.circleCollections.filter fun r => r.circleId = some id) : t.view id = s.view id := by
  rw [Store.view, Store.view, hcircle, husers, hcollections]

/-- **A change leaves other circles alone.** -/
theorem view_apply_of_ne (hs : s.Wf) {c : Circle} (hc : c ∈ s.circles) {ch : Change}
    (h : ch.target ≠ some c.id) : (apply db s ch).view c.id = s.view c.id := by
  cases ch with
  | create p admin =>
    -- the new circle has an id that no circle had
    have hne : s.next ≠ c.id := Nat.ne_of_gt (hs.below c hc)
    refine view_eq (find_insert_of_ne hne) ?_ rfl
    rw [apply, List.filter_append, filter_rowsFor_of_ne hne, List.append_nil]
  | update id p =>
    have hne : id ≠ c.id := fun heq => h (congrArg some heq)
    refine view_eq (find_update_of_ne (fun _ => rfl) hne.symm) ?_ rfl
    rw [apply]
    cases p.userIds with
    | none => rfl
    | some ids =>
      change (replaceUsers db s id ids).filter _ = _
      rw [replaceUsers, List.filter_append, filter_deleteUsers_of_ne hne, filter_rowsFor_of_ne hne,
        List.append_nil]
  | join id u =>
    have hne : id ≠ c.id := fun heq => h (congrArg some heq)
    refine view_eq rfl ?_ rfl
    rw [apply, List.filter_append, filter_rowsFor_of_ne hne, List.append_nil]
  | leave id u =>
    have hne : id ≠ c.id := fun heq => h (congrArg some heq)
    exact view_eq rfl (filter_deleteUsers_of_ne hne _ _) rfl
  | addcol id cols =>
    have hne : id ≠ c.id := fun heq => h (congrArg some heq)
    refine view_eq rfl rfl ?_
    have hnone : (cols.map fun col => ({ circleId := some id, collectionId := some col } :
        CircleCollection)).filter (fun r => r.circleId = some c.id) = [] := by
      rw [List.filter_eq_nil_iff]
      intro r hr
      obtain ⟨col, -, rfl⟩ := List.mem_map.mp hr
      simpa using hne
    rw [apply, List.filter_append, hnone, List.append_nil]
  | destroy id =>
    have hne : id ≠ c.id := fun heq => h (congrArg some heq)
    refine view_eq (Keyed.find_filter hs hc (by simpa using hne.symm)) ?_ rfl
    rw [apply, List.filter_filter]
    refine List.filter_congr fun r _ => ?_
    by_cases hr : r.circleId = some c.id
    · simp [hr, hne.symm]
    · simp [hr]
  | cover id work =>
    have hne : id ≠ c.id := fun heq => h (congrArg some heq)
    exact view_eq (find_update_of_ne (fun _ => rfl) hne.symm) rfl rfl

/-! ### The guards -/

/-- A request of a session. -/
abbrev Visit := Option Nat × Request

/-- One request. -/
def step (db : Records) (s : Store) (e : Visit) : Option Store := some (perform db s e.1 e.2)

/-- The condition on a request: a circle is created by a signed-in user, it is written by a
participant, and it is joined by a participant or when it is public. -/
def Guarded (db : Records) (s : Store) : Visit → Prop
  | (session, .create _) => (db.currentUser session).isSome = true
  | (session, .update id _) => ∀ c, find Circle.id id s.circles = some c →
      hasUser db s c (db.currentUser session) = true
  | (session, .addcol id _) => ∀ c, find Circle.id id s.circles = some c →
      hasUser db s c (db.currentUser session) = true
  | (session, .destroy id) => ∀ c, find Circle.id id s.circles = some c →
      hasUser db s c (db.currentUser session) = true
  | (session, .join id) => ∀ c u, find Circle.id id s.circles = some c →
      db.currentUser session = some u → hasUser db s c (some u) = true ∨ c.privacy = some "public"
  | _ => True

theorem hasUser_of_mem {c : Circle} {u : Nat} (h : u ∈ s.users db c.id) :
    hasUser db s c (some u) = true := by
  rw [hasUser, Option.any_some, decide_eq_true h, Bool.or_true]

/-- **A change under the guards** comes from a participant of the circle it is about, or is a user
who joins a public circle. -/
theorem authorized {session : Option Nat} {r : Request} {ch : Change}
    (hg : Guarded db s (session, r)) (h : plan db s session r = some ch) (hid : ch.target = some id) :
    ∃ c, find Circle.id id s.circles = some c ∧
      (hasUser db s c (db.currentUser session) = true ∨
        ∃ u, db.currentUser session = some u ∧ c.privacy = some "public" ∧ ch = .join id u) := by
  cases r with
  | create p =>
    rw [plan, create] at h
    split at h
    · obtain rfl := Option.some.inj h
      exact absurd hid (by simp [Change.target])
    · exact absurd h (by simp)
  | update id' p =>
    obtain ⟨c, hc, h⟩ := Option.bind_eq_some_iff.mp h
    split at h
    · obtain rfl := Option.some.inj h
      obtain rfl := Option.some.inj hid
      exact ⟨c, hc, Or.inl (hg c hc)⟩
    · exact absurd h (by simp)
  | join id' =>
    obtain ⟨c, hc, h⟩ := Option.bind_eq_some_iff.mp h
    obtain ⟨u, hu, h⟩ := Option.bind_eq_some_iff.mp h
    split at h
    · exact absurd h (by simp)
    · obtain rfl := Option.some.inj h
      obtain rfl := Option.some.inj hid
      refine ⟨c, hc, ?_⟩
      rcases hg c u hc hu with hin | hpublic
      · exact Or.inl (hu ▸ hin)
      · exact Or.inr ⟨u, hu, hpublic, rfl⟩
  | leave id' =>
    obtain ⟨c, hc, h⟩ := Option.bind_eq_some_iff.mp h
    obtain ⟨u, hu, h⟩ := Option.bind_eq_some_iff.mp h
    split at h
    · next hin =>
      obtain rfl := Option.some.inj h
      obtain rfl := Option.some.inj hid
      -- a user whom `leave` lets go is in the circle
      exact ⟨c, hc, Or.inl (hu ▸ hasUser_of_mem hin)⟩
    · exact absurd h (by simp)
  | addcol id' cols =>
    obtain ⟨c, hc, rfl⟩ := Option.map_eq_some_iff.mp h
    obtain rfl := Option.some.inj hid
    exact ⟨c, hc, Or.inl (hg c hc)⟩
  | destroy id' =>
    obtain ⟨c, hc, rfl⟩ := Option.map_eq_some_iff.mp h
    obtain rfl := Option.some.inj hid
    exact ⟨c, hc, Or.inl (hg c hc)⟩
  | setCover work coverType circleId =>
    rw [plan, setCover] at h
    split at h
    · obtain ⟨id', -, h⟩ := Option.bind_eq_some_iff.mp h
      obtain ⟨c, hc, h⟩ := Option.bind_eq_some_iff.mp h
      split at h
      · next hok =>
        obtain rfl := Option.some.inj h
        obtain rfl := Option.some.inj hid
        exact ⟨c, hc, Or.inl (Bool.and_eq_true_iff.mp hok).1⟩
      · exact absurd h (by simp)
    · exact absurd h (by simp)

/-! ### The policy -/

/-- What a request should do to the circles that are there. -/
structure Policy (db : Records) (s : Store) (e : Visit) (t : Store) : Prop where
  /-- A requester who is not in a circle leaves it as it is, or joins a public one. -/
  guarded : ∀ c ∈ s.circles, hasUser db s c (db.currentUser e.1) = false →
    t.view c.id = s.view c.id ∨ ∃ u, db.currentUser e.1 = some u ∧ c.privacy = some "public" ∧
      t.view c.id = { s.view c.id with users := (s.view c.id).users ++ rowsFor c.id [u] }
  /-- A user who gets into a circle that is not public is let in by a participant. -/
  members : ∀ c ∈ s.circles, c.privacy ≠ some "public" →
    ∀ c' u, find Circle.id c.id t.circles = some c' → hasUser db t c' (some u) = true →
      hasUser db s c (some u) = false → hasUser db s c (db.currentUser e.1) = true
  anonymous : ∀ c ∈ t.circles, hasUser db t c none = false

/-- The anonymous user is in no circle that has an admin. -/
theorem hasUser_none {c : Circle} : hasUser db s c none = false ↔ c.admin db ≠ none := by
  rw [hasUser, Option.any_none, Bool.or_false, decide_eq_false_iff_not]

/-- The admin of a circle is set when the circle is created, and never again. -/
theorem admin_apply {ch : Change} {c : Circle} (h : c ∈ (apply db s ch).circles) :
    (∃ c₀ ∈ s.circles, c.adminId = c₀.adminId) ∨ ∃ p, ch = .create p c.adminId := by
  cases ch with
  | create p admin =>
    rcases List.mem_append.mp h with hold | hnew
    · exact Or.inl ⟨c, hold, rfl⟩
    · -- the new circle has the admin of the change
      rw [List.mem_singleton.mp hnew]
      exact Or.inr ⟨p, rfl⟩
  | update id p =>
    -- no parameter of an update is the admin
    obtain ⟨c₀, hc₀, rfl⟩ := mem_update.mp h
    refine Or.inl ⟨c₀, hc₀, ?_⟩
    split
    · rfl
    · rfl
  | join id u => exact Or.inl ⟨c, h, rfl⟩
  | leave id u => exact Or.inl ⟨c, h, rfl⟩
  | addcol id cols => exact Or.inl ⟨c, h, rfl⟩
  | destroy id => exact Or.inl ⟨c, List.mem_of_mem_filter h, rfl⟩
  | cover id work =>
    obtain ⟨c₀, hc₀, rfl⟩ := mem_update.mp h
    refine Or.inl ⟨c₀, hc₀, ?_⟩
    split
    · rfl
    · rfl

/-- The circle that a user joins has one more row. -/
theorem view_join (s : Store) (id u : Nat) : (apply db s (.join id u)).view id =
    { s.view id with users := (s.view id).users ++ rowsFor id [u] } := by
  rw [Store.view, Store.view, apply, List.filter_append]
  have hrow : (rowsFor id [u]).filter (fun r => r.circleId = some id) = rowsFor id [u] := by
    simp [rowsFor]
  rw [hrow]

/-- The circles have distinct ids and admins. -/
structure Store.Administered (db : Records) (s : Store) : Prop where
  wf : s.Wf
  anonymous : ∀ c ∈ s.circles, hasUser db s c none = false

/-- Under the guards a change leaves every circle alone that the requester is not in, except that
he may join a public one. -/
theorem guarded_apply (hs : s.Wf) {session : Option Nat} {r : Request} {ch : Change}
    (hg : Guarded db s (session, r)) (h : plan db s session r = some ch) {c : Circle}
    (hc : c ∈ s.circles) (hout : hasUser db s c (db.currentUser session) = false) :
    (apply db s ch).view c.id = s.view c.id ∨
      ∃ u, db.currentUser session = some u ∧ c.privacy = some "public" ∧
        (apply db s ch).view c.id =
          { s.view c.id with users := (s.view c.id).users ++ rowsFor c.id [u] } := by
  by_cases htarget : ch.target = some c.id
  · obtain ⟨c', hc', hwho⟩ := authorized hg h htarget
    -- the circle found is the one meant
    obtain rfl := Option.some.inj ((Keyed.find_of_mem hs hc).symm.trans hc')
    rcases hwho with hin | ⟨u, hu, hpublic, rfl⟩
    · exact absurd hin (by rw [hout]; exact Bool.false_ne_true)
    · exact Or.inr ⟨u, hu, hpublic, view_join s c.id u⟩
  · exact Or.inl (view_apply_of_ne hs hc htarget)

/-- A circle is created on request, by whoever is signed in. -/
theorem plan_create {session : Option Nat} {r : Request} {p : Params} {admin : Option Nat}
    (h : plan db s session r = some (.create p admin)) :
    (∃ p', r = .create p') ∧ admin = db.currentUser session := by
  cases r with
  | create p' =>
    rw [plan, create] at h
    split at h
    · exact ⟨⟨p', rfl⟩, (Change.create.inj (Option.some.inj h)).2.symm⟩
    · exact absurd h (by simp)
  -- the other requests plan other changes
  | update id p' => exact absurd h (by simp [plan, update, Option.bind_eq_some_iff])
  | join id => exact absurd h (by simp [plan, join, Option.bind_eq_some_iff])
  | leave id => exact absurd h (by simp [plan, leave, Option.bind_eq_some_iff])
  | addcol id cols => exact absurd h (by simp [plan, addcol])
  | destroy id => exact absurd h (by simp [plan, destroy])
  | setCover work coverType circleId =>
    exact absurd h (by simp [plan, setCover, Option.bind_eq_some_iff])

/-- Under the guards every circle keeps an admin, so nobody is not in it. -/
theorem anonymous_perform (hs : s.Administered db) {session : Option Nat} {r : Request}
    (hg : Guarded db s (session, r)) {c : Circle} (hc : c ∈ (perform db s session r).circles) :
    hasUser db (perform db s session r) c none = false := by
  rw [hasUser_none, Circle.admin]
  rw [perform] at hc
  split at hc
  · exact hasUser_none.mp (hs.anonymous c hc)
  · next ch hch =>
    rcases admin_apply hc with ⟨c₀, hc₀, hadmin⟩ | ⟨p, rfl⟩
    · -- the admin of a circle that was there does not change
      rw [hadmin]
      exact hasUser_none.mp (hs.anonymous c₀ hc₀)
    · -- a circle is created by a signed-in user, who becomes its admin
      obtain ⟨⟨p', rfl⟩, hcurrent⟩ := plan_create hch
      obtain ⟨u, hu⟩ := Option.isSome_iff_exists.mp hg
      have huser : u ∈ db.users := by simpa using (Option.filter_eq_some_iff.mp hu).2
      rw [hcurrent, hu, Option.filter_some_pos (by simpa using huser)]
      exact Option.some_ne_none u

/-- **One request** under the guards. -/
theorem policy_step (hs : s.Administered db) {e : Visit} (hg : Guarded db s e)
    (h : step db s e = some t) : Policy db s e t ∧ t.Administered db := by
  obtain ⟨session, r⟩ := e
  obtain rfl := Option.some.inj h
  have hguarded : ∀ c ∈ s.circles, hasUser db s c (db.currentUser session) = false →
      (perform db s session r).view c.id = s.view c.id ∨
        ∃ u, db.currentUser session = some u ∧ c.privacy = some "public" ∧
          (perform db s session r).view c.id =
            { s.view c.id with users := (s.view c.id).users ++ rowsFor c.id [u] } := by
    intro c hc hout
    rw [perform]
    split
    · exact Or.inl rfl
    · next ch hch => exact guarded_apply hs.wf hg hch hc hout
  have hanonymous : ∀ c ∈ (perform db s session r).circles,
      hasUser db (perform db s session r) c none = false := fun c hc => anonymous_perform hs hg hc
  refine ⟨⟨hguarded, ?_, hanonymous⟩, hs.wf.perform session r, hanonymous⟩
  intro c hc hprivate c' u hc' hin hbefore
  by_contra hout
  -- the requester is not in the private circle, so he leaves it alone
  rw [Bool.not_eq_true] at hout
  rcases hguarded c hc hout with hview | ⟨-, -, hpublic, -⟩
  · -- the circle is as before, and so are its participants
    have hsame : find Circle.id c.id (perform db s session r).circles = find Circle.id c.id s.circles :=
      congrArg View.circle hview
    rw [hc', Keyed.find_of_mem hs.wf hc, Option.some_inj] at hsame
    subst hsame
    rw [hasUser, users_of_view hview] at hin
    exact absurd hin (by rw [← hasUser, hbefore]; exact Bool.false_ne_true)
  · exact hprivate hpublic

/-- **The privacy policy over runs.** Where a circle is only created by a signed-in user, only
written by a participant, and only joined by a participant or when it is public, no request changes
a circle for anybody else, and nobody gets into a circle that is not public without a participant. -/
theorem always_policy (db : Records) {s : Store} (hs : s.Administered db) {es : List Visit}
    (hg : Meets (step db) (Guarded db) s es) : Always (step db) (Policy db) s es := by
  refine always_of_meets (I := Store.Administered db) ?_ hs hg
  intro s e t hI hC h
  exact policy_step hI hC h

/-- Three users and a work. -/
def threeUsers : Records where
  users := [1, 2, 3]
  collections := [5]
  works := [8]

/-- A circle of the first user, with the second one in it. -/
def circleOf (privacy : String) : Store where
  circles := [{ id := 1, title := some "a", description := some "b", privacy := some privacy,
                adminId := some 1, coverId := none }]
  next := 2
  circlesUsers := rowsFor 1 [2]
  circleCollections := []

theorem administered_circleOf (privacy : String) : (circleOf privacy).Administered threeUsers where
  wf := ⟨List.nodup_singleton _, List.forall_mem_singleton.mpr (Nat.lt_succ_self 1)⟩
  anonymous := List.forall_mem_singleton.mpr rfl

/-- A user joins a public circle, and another participant adds a collection. -/
theorem always_policy_public : Always (step threeUsers) (Policy threeUsers) (circleOf "public")
    [(some 3, .join 1), (some 2, .addcol 1 [5])] := by
  refine always_policy threeUsers (administered_circleOf "public") ⟨?_, fun t ht => ⟨?_, fun _ _ => trivial⟩⟩
  · rintro c u hc -
    obtain rfl := Option.some.inj hc
    exact Or.inr rfl
  · obtain rfl := Option.some.inj ht
    rintro c hc
    obtain rfl := Option.some.inj hc
    decide

/-- Anybody who is signed in gets into a private circle. -/
theorem not_policy_private : (circleOf "private").Administered threeUsers ∧
    ¬ Always (step threeUsers) (Policy threeUsers) (circleOf "private") [(some 3, .join 1)] := by
  refine ⟨administered_circleOf "private", fun halways => ?_⟩
  have hmembers := (halways _ rfl).1.members _ List.mem_cons_self (by decide) _ 3 rfl (by decide) (by decide)
  revert hmembers
  decide

end Circles
end Curarium
