import Curarium.Circles.Requests
import Mathlib.Data.List.Dedup

/-!
# The members of a circle as a set

A circle shows one more than the number of its users, for the admin. This is the number of its
participants as long as no user is in its rows twice and the admin is not in them at all.

`join` looks for a row before it inserts one, but another `join` may insert in between, and it does
not look at the admin; `create` and `update` insert the users they are given.

* `apart_apply_iff` — the rows stay so after a change exactly when it inserts no user twice, none
  that is there, and not the admin.
* `membersCount_eq` — the number shown is then that of the participants.
* `always_disjoint_iff` — the same for whole runs, with the two halves of `join` apart.
-/

namespace Curarium
namespace Circles

open Tables Runs

/-! ### Rows of a circle -/

theorem memberIds_append (rows rows' : List CirclesUser) (id : Nat) :
    memberIds (rows ++ rows') id = memberIds rows id ++ memberIds rows' id :=
  List.filterMap_append

theorem mem_memberIds {rows : List CirclesUser} {id u : Nat} :
    u ∈ memberIds rows id ↔ { circleId := some id, userId := some u } ∈ rows := by
  rw [memberIds, List.mem_filterMap]
  constructor
  · rintro ⟨⟨circleId, userId⟩, hr, hu⟩
    split at hu
    · next hid =>
      obtain rfl : circleId = some id := hid
      obtain rfl : userId = some u := hu
      exact hr
    · exact absurd hu (by simp)
  · intro hr
    exact ⟨_, hr, if_pos rfl⟩

theorem memberIds_rowsFor (id : Nat) (users : List Nat) : memberIds (rowsFor id users) id = users := by
  rw [memberIds, rowsFor, List.filterMap_map]
  exact (List.filterMap_congr fun u _ => if_pos rfl).trans List.filterMap_some

theorem memberIds_rowsFor_of_ne {id id' : Nat} (h : id' ≠ id) (users : List Nat) :
    memberIds (rowsFor id' users) id = [] := by
  rw [List.eq_nil_iff_forall_not_mem]
  intro u hu
  obtain ⟨v, -, hv⟩ := List.mem_map.mp (mem_memberIds.mp hu)
  exact h (Option.some.inj (congrArg CirclesUser.circleId hv))

theorem memberIds_deleteUsers (rows : List CirclesUser) (id : Nat) (p : Nat → Bool) :
    memberIds (deleteUsers rows id p) id = (memberIds rows id).filter fun u => !p u := by
  induction rows with
  | nil => rfl
  | cons r rows ih =>
    obtain ⟨circleId, userId⟩ := r
    rw [deleteUsers] at ih
    by_cases hid : circleId = some id
    · -- a row of the circle: it goes when it has a user and the user goes
      cases userId with
      | none => simpa [deleteUsers, memberIds, hid] using ih
      | some u =>
        by_cases hu : p u = true
        · simpa [deleteUsers, memberIds, hid, hu] using ih
        · simpa [deleteUsers, memberIds, hid, hu] using ih
    · simpa [deleteUsers, memberIds, hid] using ih

theorem memberIds_deleteUsers_of_ne {id id' : Nat} (h : id' ≠ id) (rows : List CirclesUser)
    (p : Nat → Bool) : memberIds (deleteUsers rows id' p) id = memberIds rows id := by
  rw [memberIds, deleteUsers, List.filterMap_filter]
  refine List.filterMap_congr fun r _ => ?_
  by_cases hid : r.circleId = some id
  · simp [hid, h.symm]
  · simp [hid]

/-! ### One change -/

/-- No user is in the rows of the circle twice, and the admin is not in them. -/
structure Apart (rows : List CirclesUser) (c : Circle) : Prop where
  distinct : (memberIds rows c.id).Nodup
  admin : ∀ a, c.adminId = some a → a ∉ memberIds rows c.id

/-- **The members of every circle are a set disjoint from the admin.** -/
def Store.Disjoint (s : Store) : Prop := ∀ c ∈ s.circles, Apart s.circlesUsers c

theorem Apart.congr {rows rows' : List CirclesUser} {c c' : Circle} (hadmin : c'.adminId = c.adminId)
    (h : memberIds rows' c'.id = memberIds rows c.id) : Apart rows' c' ↔ Apart rows c := by
  constructor
  · rintro ⟨hdistinct, hout⟩
    rw [h] at hdistinct hout
    rw [hadmin] at hout
    exact ⟨hdistinct, hout⟩
  · rintro ⟨hdistinct, hout⟩
    refine ⟨?_, ?_⟩
    · rwa [h]
    · rwa [h, hadmin]

/-- Deleting rows keeps the rest apart. -/
theorem Apart.sublist {rows rows' : List CirclesUser} {c : Circle} (h : Apart rows c)
    (hsub : (memberIds rows' c.id).Sublist (memberIds rows c.id)) : Apart rows' c where
  distinct := h.distinct.sublist hsub
  admin a ha hmem := h.admin a ha (hsub.subset hmem)

/-- Rows refer to circles that have been there and to users that are. -/
structure Store.Sound (db : Records) (s : Store) : Prop where
  wf : s.Wf
  rows : ∀ r ∈ s.circlesUsers, ∃ id u, r = { circleId := some id, userId := some u } ∧
    id < s.next ∧ u ∈ db.users

variable {db : Records} {s : Store}

theorem Store.Sound.users_eq (hs : s.Sound db) (id : Nat) :
    s.users db id = memberIds s.circlesUsers id := by
  rw [Store.users, List.filter_eq_self]
  intro u hu
  obtain ⟨id', u', heq, -, hu'⟩ := hs.rows _ (mem_memberIds.mp hu)
  obtain rfl := Option.some.inj (CirclesUser.mk.inj heq).2
  exact decide_eq_true hu'

/-- The circle that comes next has no rows. -/
theorem Store.Sound.memberIds_next (hs : s.Sound db) : memberIds s.circlesUsers s.next = [] := by
  rw [List.eq_nil_iff_forall_not_mem]
  intro u hu
  obtain ⟨id, u', heq, hlt, -⟩ := hs.rows _ (mem_memberIds.mp hu)
  exact Nat.ne_of_gt hlt (Option.some.inj (CirclesUser.mk.inj heq).1)

/-- The condition on a change: it inserts no user twice, none that is there, and not the admin. -/
def Fresh (db : Records) (s : Store) : Change → Prop
  | .create p admin =>
    (p.userIds.getD []).Nodup ∧ ∀ a, admin = some a → a ∉ p.userIds.getD []
  | .update id p => ∀ c ids, find Circle.id id s.circles = some c → p.userIds = some ids →
      (ids.filter (· ∉ s.users db id)).Nodup ∧ ∀ a, c.adminId = some a → a ∉ ids
  | .join id u => ∀ c, find Circle.id id s.circles = some c →
      u ∉ s.users db id ∧ c.adminId ≠ some u
  | _ => True

/-- The users of a circle after `user_ids=`. -/
theorem memberIds_replaceUsers (hs : s.Sound db) (id : Nat) (ids : List Nat) :
    memberIds (replaceUsers db s id ids) id =
      (memberIds s.circlesUsers id).filter (· ∈ ids) ++ ids.filter (· ∉ s.users db id) := by
  rw [replaceUsers, memberIds_append, memberIds_rowsFor, memberIds_deleteUsers]
  congr 1
  refine List.filter_congr fun u hu => ?_
  rw [hs.users_eq, decide_eq_true hu]
  simp

/-- **`user_ids=`** keeps the members apart exactly when the users that come are distinct and the
admin is not among those listed. -/
theorem apart_replaceUsers_iff (hs : s.Sound db) {c : Circle} (hc : Apart s.circlesUsers c)
    (ids : List Nat) : Apart (replaceUsers db s c.id ids) c ↔
      (ids.filter (· ∉ s.users db c.id)).Nodup ∧ ∀ a, c.adminId = some a → a ∉ ids := by
  have hmembers := memberIds_replaceUsers hs c.id ids
  constructor
  · rintro ⟨hdistinct, hout⟩
    rw [hmembers] at hdistinct hout
    refine ⟨(List.nodup_append.mp hdistinct).2.1, fun a ha hin => hout a ha ?_⟩
    -- the admin is not in yet, so he would be inserted
    refine List.mem_append_right _ (List.mem_filter.mpr ⟨hin, ?_⟩)
    rw [hs.users_eq]
    exact decide_eq_true (hc.admin a ha)
  · rintro ⟨hnew, hout⟩
    refine ⟨?_, ?_⟩
    · rw [hmembers]
      refine List.nodup_append.mpr ⟨hc.distinct.filter _, hnew, ?_⟩
      rintro u hold v hin rfl
      -- those that stay are in, and those that come are not
      have hnot := (List.mem_filter.mp hin).2
      rw [hs.users_eq] at hnot
      exact of_decide_eq_true hnot (List.mem_of_mem_filter hold)
    · intro a ha hin
      rw [hmembers, List.mem_append] at hin
      rcases hin with hold | hcome
      · exact hc.admin a ha (List.mem_of_mem_filter hold)
      · exact hout a ha (List.mem_of_mem_filter hcome)

/-- A property of circles that an update does not touch. -/
theorem forall_mem_update {P : Circle → Prop} {id : Nat} {f : Circle → Circle}
    (hf : ∀ c, P (f c) ↔ P c) (circles : List Circle) :
    (∀ c ∈ Tables.update Circle.id id f circles, P c) ↔ ∀ c ∈ circles, P c := by
  rw [Tables.update, List.forall_mem_map]
  refine forall₂_congr fun c _ => ?_
  split
  · exact hf c
  · exact Iff.rfl

/-- Where only the rows of one circle change, the rest stays apart. -/
theorem forall_apart_iff (hs : s.Wf) (hI : s.Disjoint) {rows : List CirclesUser} (id : Nat)
    (hother : ∀ id', id ≠ id' → memberIds rows id' = memberIds s.circlesUsers id') :
    (∀ c ∈ s.circles, Apart rows c) ↔ ∀ c, find Circle.id id s.circles = some c → Apart rows c := by
  constructor
  · exact fun h c hc => h c (find_mem hc)
  · intro h c hc
    by_cases hid : id = c.id
    · refine h c ?_
      rw [hid]
      exact Keyed.find_of_mem hs hc
    · exact (Apart.congr rfl (hother c.id hid)).mpr (hI c hc)

/-- A new circle starts with the users it is given. -/
theorem disjoint_create_iff (hs : s.Sound db) (hI : s.Disjoint) (p : Params) (admin : Option Nat) :
    (apply db s (.create p admin)).Disjoint ↔ Fresh db s (.create p admin) := by
  have hnew : memberIds (apply db s (.create p admin)).circlesUsers s.next = p.userIds.getD [] := by
    rw [apply, memberIds_append, memberIds_rowsFor, hs.memberIds_next, List.nil_append]
  -- the other circles have smaller ids, so none of the new rows is theirs
  have hold : ∀ c ∈ s.circles, Apart (apply db s (.create p admin)).circlesUsers c := by
    intro c hc
    refine (Apart.congr rfl ?_).mpr (hI c hc)
    rw [apply, memberIds_append, memberIds_rowsFor_of_ne (Nat.ne_of_gt (hs.wf.below c hc)),
      List.append_nil]
  change (∀ c ∈ s.circles ++ [p.newCircle s.next admin], Apart _ c) ↔ _
  rw [List.forall_mem_append, List.forall_mem_singleton, and_iff_right hold]
  constructor
  · rintro ⟨hdistinct, hout⟩
    rw [Fresh, ← hnew]
    exact ⟨hdistinct, hout⟩
  · rintro ⟨hdistinct, hout⟩
    rw [← hnew] at hdistinct hout
    exact ⟨hdistinct, hout⟩

/-- An update replaces the users of the circle, if it is given any. -/
theorem disjoint_update_iff (hs : s.Sound db) (hI : s.Disjoint) (id : Nat) (p : Params) :
    (apply db s (.update id p)).Disjoint ↔ Fresh db s (.update id p) := by
  change (∀ c ∈ Tables.update Circle.id id p.assign s.circles, Apart _ c) ↔ _
  -- the attributes have nothing to do with the users
  rw [forall_mem_update (f := p.assign) (P := Apart _) (fun c => Apart.congr rfl rfl)]
  cases hids : p.userIds with
  | none =>
    refine iff_of_true ?_ fun c ids _ hsome => absurd (hids.symm.trans hsome) (by simp)
    rw [apply, hids]
    exact hI
  | some ids =>
    have hrows : (apply db s (.update id p)).circlesUsers = replaceUsers db s id ids := by
      rw [apply, hids]
    rw [hrows, forall_apart_iff hs.wf hI id]
    · constructor
      · intro h c ids' hc hids'
        obtain rfl := Option.some.inj (hids.symm.trans hids')
        obtain rfl := find_key hc
        exact (apart_replaceUsers_iff hs (hI c (find_mem hc)) ids).mp (h c hc)
      · intro h c hc
        have hfresh := h c ids hc hids
        obtain rfl := find_key hc
        exact (apart_replaceUsers_iff hs (hI c (find_mem hc)) ids).mpr hfresh
    · -- the users of the other circles stay
      intro id' hne
      rw [replaceUsers, memberIds_append, memberIds_rowsFor_of_ne hne,
        memberIds_deleteUsers_of_ne hne, List.append_nil]

/-- A user who joins comes after the others. -/
theorem disjoint_join_iff (hs : s.Sound db) (hI : s.Disjoint) (id u : Nat) :
    (apply db s (.join id u)).Disjoint ↔ Fresh db s (.join id u) := by
  change (∀ c ∈ s.circles, Apart (s.circlesUsers ++ rowsFor id [u]) c) ↔ _
  rw [forall_apart_iff hs.wf hI id]
  · refine forall₂_congr fun c hc => ?_
    obtain rfl := find_key hc
    -- one more row, at the end
    have hmembers : memberIds (s.circlesUsers ++ rowsFor c.id [u]) c.id =
        memberIds s.circlesUsers c.id ++ [u] := by
      rw [memberIds_append, memberIds_rowsFor]
    have hbefore := hI c (find_mem hc)
    rw [hs.users_eq]
    constructor
    · rintro ⟨hdistinct, hout⟩
      rw [hmembers] at hdistinct hout
      refine ⟨fun hin => ?_, fun hadmin => ?_⟩
      · exact (List.nodup_append.mp hdistinct).2.2 u hin u (List.mem_singleton_self u) rfl
      · exact hout u hadmin (List.mem_append_right _ (List.mem_singleton_self u))
    · rintro ⟨hnew, hadmin⟩
      refine ⟨?_, ?_⟩
      · rw [hmembers]
        refine List.nodup_append.mpr ⟨hbefore.distinct, List.nodup_singleton u, ?_⟩
        rintro v hv w hw rfl
        exact hnew (List.mem_singleton.mp hw ▸ hv)
      · intro a ha hin
        rw [hmembers, List.mem_append, List.mem_singleton] at hin
        rcases hin with hold | rfl
        · exact hbefore.admin a ha hold
        · exact hadmin ha
  · intro id' hne
    rw [memberIds_append, memberIds_rowsFor_of_ne hne, List.append_nil]

/-- **One change.** -/
theorem apart_apply_iff (hs : s.Sound db) (hI : s.Disjoint) (ch : Change) :
    (apply db s ch).Disjoint ↔ Fresh db s ch := by
  cases ch with
  | create p admin => exact disjoint_create_iff hs hI p admin
  | update id p => exact disjoint_update_iff hs hI id p
  | join id u => exact disjoint_join_iff hs hI id u
  | leave id u =>
    -- rows are deleted, so the members that are left are some of those that were there
    refine iff_of_true (fun c hc => (hI c hc).sublist ?_) trivial
    change (memberIds (deleteUsers s.circlesUsers id _) c.id).Sublist _
    by_cases hid : id = c.id
    · rw [hid, memberIds_deleteUsers]
      exact List.filter_sublist
    · rw [memberIds_deleteUsers_of_ne hid]
  | addcol id cols => exact iff_of_true hI trivial
  | destroy id =>
    refine iff_of_true (fun c hc => (hI c (List.mem_of_mem_filter hc)).sublist ?_) trivial
    exact List.filter_sublist.filterMap _
  | cover id work =>
    -- the cover is an attribute like the others
    refine iff_of_true ?_ trivial
    exact (forall_mem_update (P := Apart s.circlesUsers)
      (f := fun c => { c with coverId := some work }) (fun c => Apart.congr rfl rfl) s.circles).mpr hI

/-! ### The number shown -/

/-- The number of members on the page of a circle, `@circle.users.count + 1`. The page names the
admin before, and a circle without one has no page. -/
def membersCount (db : Records) (s : Store) (c : Circle) : Option Nat :=
  (c.admin db).map fun _ => (s.users db c.id).length + 1

/-- The participants of a circle, each once. -/
def participants (db : Records) (s : Store) (c : Circle) : List Nat :=
  ((c.admin db).toList ++ s.users db c.id).dedup

/-- **The number shown is that of the participants.** -/
theorem membersCount_eq (hs : s.Sound db) {c : Circle} (hc : Apart s.circlesUsers c) {n : Nat}
    (h : membersCount db s c = some n) : n = (participants db s c).length := by
  obtain ⟨a, ha, rfl⟩ := Option.map_eq_some_iff.mp h
  have hadmin : a ∉ memberIds s.circlesUsers c.id := hc.admin a (Option.filter_eq_some_iff.mp ha).1
  have hnodup : (a :: s.users db c.id).Nodup := by
    rw [hs.users_eq]
    exact List.nodup_cons.mpr ⟨hadmin, hc.distinct⟩
  rw [participants, ha, Option.toList_some, List.singleton_append, hnodup.dedup, List.length_cons]

/-! ### Runs with interleaved joins -/

/-- The tables, and the joins that have looked and not inserted yet. -/
structure State where
  store : Store
  joins : List Change

inductive Event where
  | request (session : Option Nat) (r : Request)
  /-- A join looks. -/
  | check (session : Option Nat) (id : Nat)
  /-- One of the joins that have looked inserts. -/
  | insert (i : Nat)

/-- One request, or one half of a join. -/
def advance (db : Records) (s : State) : Event → Option State
  | .request session r => some { s with store := perform db s.store session r }
  | .check session id =>
    some { s with joins := s.joins ++ (join db s.store (db.currentUser session) id).toList }
  | .insert i => s.joins[i]?.map fun ch =>
      { store := apply db s.store ch, joins := s.joins.eraseIdx i }

/-- No circles yet. -/
def State.empty : State where
  store := { circles := [], next := 1, circlesUsers := [], circleCollections := [] }
  joins := []

/-- A change that refers to what is or has been there. -/
def Change.Refers (db : Records) (s : Store) : Change → Prop
  | .create p _ => ∀ u ∈ p.userIds.getD [], u ∈ db.users
  | .update id p => id < s.next ∧ ∀ ids, p.userIds = some ids → ∀ u ∈ ids, u ∈ db.users
  | .join id u => id < s.next ∧ u ∈ db.users
  | _ => True

theorem lt_next_of_find (hs : s.Wf) {id : Nat} {c : Circle} (h : find Circle.id id s.circles = some c) :
    id < s.next := by
  rw [← find_key h]
  exact hs.below c (find_mem h)

theorem mem_users_of_accepted {p : Params} (h : p.accepted db = true) :
    ∀ u ∈ p.userIds.getD [], u ∈ db.users := by
  intro u hu
  have hall := (Bool.and_eq_true_iff.mp h).2
  simpa using List.all_eq_true.mp hall u hu

theorem join_refers (hs : s.Wf) {session : Option Nat} {id : Nat} {ch : Change}
    (h : join db s (db.currentUser session) id = some ch) :
    ∃ u, ch = .join id u ∧ id < s.next ∧ u ∈ db.users := by
  obtain ⟨c, hc, h⟩ := Option.bind_eq_some_iff.mp h
  obtain ⟨u, hu, h⟩ := Option.bind_eq_some_iff.mp h
  split at h
  · exact absurd h (by simp)
  · obtain rfl := Option.some.inj h
    refine ⟨u, rfl, lt_next_of_find hs hc, ?_⟩
    simpa using (Option.filter_eq_some_iff.mp hu).2

/-- What a request plans refers to what is there. -/
theorem plan_refers (hs : s.Wf) {session : Option Nat} {r : Request} {ch : Change}
    (h : plan db s session r = some ch) : ch.Refers db s := by
  cases r with
  | create p =>
    rw [plan, create] at h
    split at h
    · next hok =>
      obtain rfl := Option.some.inj h
      exact mem_users_of_accepted (Bool.and_eq_true_iff.mp hok).1
    · exact absurd h (by simp)
  | update id p =>
    -- the validation looks the users up
    obtain ⟨c, hc, h⟩ := Option.bind_eq_some_iff.mp h
    split at h
    · next hok =>
      obtain rfl := Option.some.inj h
      refine ⟨lt_next_of_find hs hc, fun ids hids => ?_⟩
      have husers := mem_users_of_accepted (Bool.and_eq_true_iff.mp hok).1
      rwa [hids] at husers
    · exact absurd h (by simp)
  | join id =>
    obtain ⟨u, rfl, hlt, hu⟩ := join_refers hs h
    exact ⟨hlt, hu⟩
  | leave id =>
    obtain ⟨c, -, h⟩ := Option.bind_eq_some_iff.mp h
    obtain ⟨u, -, h⟩ := Option.bind_eq_some_iff.mp h
    split at h
    · obtain rfl := Option.some.inj h
      trivial
    · exact absurd h (by simp)
  | addcol id cols =>
    obtain ⟨c, -, rfl⟩ := Option.map_eq_some_iff.mp h
    trivial
  | destroy id =>
    obtain ⟨c, -, rfl⟩ := Option.map_eq_some_iff.mp h
    trivial
  | setCover work coverType circleId =>
    rw [plan, setCover] at h
    split at h
    · obtain ⟨id, -, h⟩ := Option.bind_eq_some_iff.mp h
      obtain ⟨c, -, h⟩ := Option.bind_eq_some_iff.mp h
      split at h
      · obtain rfl := Option.some.inj h
        trivial
      · exact absurd h (by simp)
    · exact absurd h (by simp)

/-- The id of the next circle does not fall. -/
theorem next_le_apply (ch : Change) : s.next ≤ (apply db s ch).next := by
  cases ch with
  | create p admin => exact Nat.le_succ _
  | update id p => exact Nat.le_refl _
  | join id u => exact Nat.le_refl _
  | leave id u => exact Nat.le_refl _
  | addcol id cols => exact Nat.le_refl _
  | destroy id => exact Nat.le_refl _
  | cover id work => exact Nat.le_refl _

/-- Rows that are inserted for users. -/
theorem rowsFor_sound {id next : Nat} {users : List Nat} (hid : id < next)
    (husers : ∀ u ∈ users, u ∈ db.users) : ∀ r ∈ rowsFor id users,
      ∃ id u, r = { circleId := some id, userId := some u } ∧ id < next ∧ u ∈ db.users := by
  intro r hr
  obtain ⟨u, hu, rfl⟩ := List.mem_map.mp hr
  exact ⟨id, u, rfl, hid, husers u hu⟩

theorem Store.Sound.apply (hs : s.Sound db) {ch : Change} (hch : ch.Refers db s) :
    (apply db s ch).Sound db := by
  refine ⟨hs.wf.apply ch, fun r hr => ?_⟩
  -- a row is one of those before, or one that the change inserts
  have hold : r ∈ s.circlesUsers → ∃ id u, r = { circleId := some id, userId := some u } ∧
      id < (Circles.apply db s ch).next ∧ u ∈ db.users := by
    intro hmem
    obtain ⟨id, u, heq, hlt, hu⟩ := hs.rows r hmem
    exact ⟨id, u, heq, Nat.lt_of_lt_of_le hlt (next_le_apply ch), hu⟩
  cases ch with
  | create p admin =>
    rcases List.mem_append.mp hr with hmem | hnew
    · exact hold hmem
    · exact rowsFor_sound (Nat.lt_succ_self s.next) hch r hnew
  | update id p =>
    rw [Circles.apply] at hr
    cases hids : p.userIds with
    | none =>
      rw [hids] at hr
      exact hold hr
    | some ids =>
      rw [hids] at hr
      rcases List.mem_append.mp hr with hmem | hnew
      · exact hold (List.mem_of_mem_filter hmem)
      · exact rowsFor_sound hch.1 (fun u hu => hch.2 ids hids u (List.mem_of_mem_filter hu)) r hnew
  | join id u =>
    rcases List.mem_append.mp hr with hmem | hnew
    · exact hold hmem
    · exact rowsFor_sound hch.1 (List.forall_mem_singleton.mpr hch.2) r hnew
  | leave id u => exact hold (List.mem_of_mem_filter hr)
  | addcol id cols => exact hold hr
  | destroy id => exact hold (List.mem_of_mem_filter hr)
  | cover id work => exact hold hr

/-- What holds in every run. -/
structure State.Sound (db : Records) (s : State) : Prop where
  store : s.store.Sound db
  joins : ∀ ch ∈ s.joins, ∃ id u, ch = .join id u ∧ id < s.store.next ∧ u ∈ db.users

theorem next_le_perform (session : Option Nat) (r : Request) : s.next ≤ (perform db s session r).next := by
  rw [perform]
  split
  · exact Nat.le_refl _
  · exact next_le_apply _

theorem State.Sound.advance {s t : State} {e : Event} (hs : s.Sound db) (h : advance db s e = some t) :
    t.Sound db := by
  cases e with
  | request session r =>
    obtain rfl := Option.some.inj h
    refine ⟨?_, fun ch hch => ?_⟩
    · change (perform db s.store session r).Sound db
      rw [perform]
      split
      · exact hs.store
      · next ch hch => exact hs.store.apply (plan_refers hs.store.wf hch)
    · -- ids are given out in order, so the joins in flight stay below the next one
      obtain ⟨id, u, heq, hlt, hu⟩ := hs.joins ch hch
      exact ⟨id, u, heq, Nat.lt_of_lt_of_le hlt (next_le_perform session r), hu⟩
  | check session id =>
    obtain rfl := Option.some.inj h
    refine ⟨hs.store, fun ch hch => ?_⟩
    rcases List.mem_append.mp hch with hold | hnew
    · exact hs.joins ch hold
    · obtain ⟨u, heq, hlt, hu⟩ := join_refers hs.store.wf (Option.mem_toList.mp hnew)
      exact ⟨id, u, heq, hlt, hu⟩
  | insert i =>
    obtain ⟨ch, hch, rfl⟩ := Option.map_eq_some_iff.mp h
    obtain ⟨id, u, rfl, hlt, hu⟩ := hs.joins ch (List.mem_of_getElem? hch)
    -- the join was planned for a circle and a user that were there
    have hrefers : (Change.join id u).Refers db s.store := ⟨hlt, hu⟩
    exact ⟨hs.store.apply hrefers, fun ch' hch' => hs.joins ch' (List.mem_of_mem_eraseIdx hch')⟩

/-- What should hold after every step. -/
structure MembersOk (db : Records) (_s : State) (_e : Event) (t : State) : Prop where
  disjoint : t.store.Disjoint
  counted : ∀ c ∈ t.store.circles, ∀ n, membersCount db t.store c = some n →
    n = (participants db t.store c).length

/-- The condition on a step: what it inserts is fresh. -/
def FreshStep (db : Records) (s : State) : Event → Prop
  | .request session r => ∀ ch, plan db s.store session r = some ch → Fresh db s.store ch
  | .check _ _ => True
  | .insert i => ∀ ch, s.joins[i]? = some ch → Fresh db s.store ch

/-- **One step.** -/
theorem disjoint_iff {s t : State} {e : Event} (hs : s.Sound db) (hI : s.store.Disjoint)
    (h : advance db s e = some t) : t.store.Disjoint ↔ FreshStep db s e := by
  cases e with
  | request session r =>
    obtain rfl := Option.some.inj h
    change (perform db s.store session r).Disjoint ↔ _
    rw [perform]
    split
    · next hnone => exact iff_of_true hI fun ch hch => absurd (hnone.symm.trans hch) (by simp)
    · next ch hch =>
      refine (apart_apply_iff hs.store hI ch).trans ⟨fun hfresh ch' hch' => ?_, fun hfresh => hfresh ch hch⟩
      obtain rfl := Option.some.inj (hch.symm.trans hch')
      exact hfresh
  | check session id =>
    -- nothing is written yet
    obtain rfl := Option.some.inj h
    exact iff_of_true hI trivial
  | insert i =>
    obtain ⟨ch, hch, rfl⟩ := Option.map_eq_some_iff.mp h
    refine (apart_apply_iff hs.store hI ch).trans ⟨fun hfresh ch' hch' => ?_, fun hfresh => hfresh ch hch⟩
    obtain rfl := Option.some.inj (hch.symm.trans hch')
    exact hfresh

/-- **Members are a set disjoint from the admin**, and the number shown is right, all along a run
exactly when no step of it inserts a user twice, one that is there, or the admin. -/
theorem always_disjoint_iff (db : Records) {t : State} {es : List Event}
    (h : exec (advance db) State.empty es = some t) :
    Always (advance db) (MembersOk db) State.empty es ↔
      Meets (advance db) (FreshStep db) State.empty es := by
  refine always_iff_meets (J := State.Sound db) (I := fun s => s.store.Disjoint) ?_ ?_ ?_ ?_ ?_ h
  · exact fun s e t hs ht => hs.advance ht
  · exact fun s e t hok => hok.disjoint
  · intro s e t hs hI ht
    rw [← disjoint_iff hs hI ht]
    refine ⟨fun hok => hok.disjoint, fun hdisjoint => ⟨hdisjoint, fun c hc n hn => ?_⟩⟩
    exact membersCount_eq (hs.advance ht).store (hdisjoint c hc) hn
  · refine ⟨⟨Keyed.nil, fun r hr => absurd hr List.not_mem_nil⟩, fun ch hch => absurd hch List.not_mem_nil⟩
  · exact fun c hc => absurd hc List.not_mem_nil

/-- Two users. -/
def twoUsers : Records where
  users := [1, 2]
  collections := []
  works := []

/-- The request for a public circle. -/
def createPublic : Event := .request (some 1) (.create
  { title := some (some "a"), description := some (some "b"), privacy := some (some "public"),
    collectionsId := false, userIds := none })

/-- A user joins, and looks again. -/
theorem always_disjoint_joined : Always (advance twoUsers) (MembersOk twoUsers) State.empty
    [createPublic, .check (some 2) 1, .insert 0, .check (some 2) 1] := by
  refine (always_disjoint_iff twoUsers (t := ⟨⟨[⟨1, some "a", some "b", some "public", some 1, none⟩], 2,
    rowsFor 1 [2], []⟩, []⟩) rfl).mpr ⟨?_, fun s hs => ⟨trivial, fun s' hs' => ⟨?_, fun _ _ =>
      ⟨trivial, fun _ _ => trivial⟩⟩⟩⟩
  · intro ch hch
    obtain rfl := Option.some.inj hch
    exact ⟨List.nodup_nil, fun _ _ => List.not_mem_nil⟩
  · obtain rfl := Option.some.inj hs
    obtain rfl := Option.some.inj hs'
    intro ch hch
    obtain rfl := Option.some.inj hch
    intro c hc
    obtain rfl := Option.some.inj hc
    decide

/-- Two joins of a user that both look before either inserts leave him in the circle twice. -/
theorem not_always_disjoint_concurrent :
    ¬ Always (advance twoUsers) (MembersOk twoUsers) State.empty
      [createPublic, .check (some 2) 1, .check (some 2) 1, .insert 0, .insert 0] := by
  intro halways
  have hdisjoint := (((((halways _ rfl).2 _ rfl).2 _ rfl).2 _ rfl).2 _ rfl).1.disjoint
  have hnodup := (hdisjoint _ List.mem_cons_self).distinct
  revert hnodup
  decide

end Circles
end Curarium
