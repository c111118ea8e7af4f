import Curarium.Circles.Requests
import Curarium.Collections.Admins
import Curarium.Trays.Contents

/-!
# Covers

The cover of a collection or of a circle is the id of a work, in a column without a foreign key, and
`Work.find` raises where there is no such work. `set_cover` stores the id of a work that it has looked
up; `update` of a collection stores any number; works are deleted one by one and with their collection.

* `step` is a request on collections and works (`Collections.step`) or on circles (`Circles.perform`).
  A `set_cover` is among the ones or the others by its `cover_type`.
* `Covered` — the covers are there, and neither `cover` nor `cover_url` raises.
* `always_covered_iff` — over a whole run, from any state with covers that are there.
-/

namespace Curarium
namespace Covers

open Tables Runs

variable {C : Type}

/-- The tables. Trays and tray items are only read here. -/
structure State (C : Type) where
  collections : Collections.Store C
  circles : Circles.Store
  images : List Contents.Image
  trays : List Contents.Tray
  items : List Trays.TrayItem

namespace State

variable (s : State C)

def works : List Collections.Work := s.collections.works

/-- What the requests on circles see of the other tables. -/
def records : Circles.Records where
  users := s.collections.users
  collections := s.collections.collections.map Collections.Collection.id
  works := s.works.map Collections.Work.id

/-! ### `cover` and `cover_url` -/

/-- `Work.find`; raises (`none`) without a record. -/
def findWork (id : Nat) : Option Collections.Work := find Collections.Work.id id s.works

/-- `works.with_thumb` of a collection, by id. -/
def withThumb (c : Collections.Collection C) : List Collections.Work :=
  (s.works.filter fun w => w.collectionId = some c.id &&
    s.images.any fun i => i.workId = some w.id && i.thumbnailUrl.isSome).insertionSort
      fun v w => v.id ≤ w.id

/-- `Collection#cover` -/
def collectionCover (c : Collections.Collection C) : Option (Option Collections.Work) :=
  match c.coverId with
  | some id => (s.findWork id).map some
  | none => some (s.withThumb c).head?

/-- `Collection#cover_url` -/
def collectionCoverUrl (c : Collections.Collection C) : Option String :=
  (s.collectionCover c).map fun cover =>
    match cover with
    | some w => Contents.thumbnailCacheUrl s.images w.id
    | none => Contents.missingThumbUrl

/-- `trays.first` of a circle. -/
def firstTray (c : Circles.Circle) : Option Contents.Tray :=
  ((s.trays.filter fun t => t.ownerType = some "Circle" && t.ownerId = some c.id).insertionSort
    fun t u => t.id ≤ u.id).head?

/-- `t.images`, by id. -/
def trayImages (t : Contents.Tray) : List Contents.Image :=
  ((s.items.filter fun x => x.trayId = some t.id).flatMap fun x =>
    s.images.filter fun i => x.imageId = some i.id).insertionSort fun i j => i.id ≤ j.id

/-- `Circle#thumbnail_url` -/
def circleThumbnailUrl (c : Circles.Circle) : Option String :=
  match (s.firstTray c).bind fun t => (s.trayImages t).head? with
  | some i => i.thumbnailUrl
  | none => some Contents.missingThumbUrl

/-- `Circle#cover` -/
def circleCover (c : Circles.Circle) : Option (Option Collections.Work) :=
  match c.coverId with
  | some id => (s.findWork id).map some
  | none => some none

/-- `Circle#cover_url` -/
def circleCoverUrl (c : Circles.Circle) : Option (Option String) :=
  (s.circleCover c).map fun cover =>
    match cover with
    | some w => some (Contents.thumbnailCacheUrl s.images w.id)
    | none => s.circleThumbnailUrl c

end State

/-! ### The requests -/

inductive Event (C : Type) where
  /-- A request on collections or works. -/
  | collections (session : Option Nat) (r : Collections.Request C)
  /-- A request on circles, or a `set_cover` of one. -/
  | circles (session : Option Nat) (r : Circles.Request)

/-- The images after works are destroyed: those of the works that are gone are destroyed with them. -/
def remainingImages (before after : List Collections.Work) (images : List Contents.Image) :
    List Contents.Image :=
  images.filter fun i => !before.any fun w => i.workId = some w.id && !after.any fun v => v.id = w.id

/-- One request. -/
def step (s : State C) : Event C → Option (State C)
  | .collections session r => (Collections.step s.collections (session, r)).map fun collections =>
      { s with
        collections := collections
        images := remainingImages s.works collections.works s.images }
  | .circles session r => some { s with circles := Circles.perform s.records s.circles session r }

/-! ### Covers that are there -/

namespace State

variable (s : State C)

/-- Every cover is a work. -/
structure Named : Prop where
  collection : ∀ c ∈ s.collections.collections, ∀ id, c.coverId = some id →
    Resolves Collections.Work.id s.works (some id)
  circle : ∀ c ∈ s.circles.circles, ∀ id, c.coverId = some id →
    Resolves Collections.Work.id s.works (some id)

/-- **Covers resolve**: every cover is a work, and none of the methods raises. -/
structure Covered : Prop where
  named : s.Named
  collectionCover : ∀ c ∈ s.collections.collections, (s.collectionCover c).isSome = true
  collectionCoverUrl : ∀ c ∈ s.collections.collections, (s.collectionCoverUrl c).isSome = true
  circleCover : ∀ c ∈ s.circles.circles, (s.circleCover c).isSome = true
  circleCoverUrl : ∀ c ∈ s.circles.circles, (s.circleCoverUrl c).isSome = true

end State

/-- **The request leaves every cover a work.** -/
def Safe (s : State C) : Event C → Prop
  | .collections _ (.update id p) =>
    ∀ c, find Collections.Collection.id id s.collections.collections = some c →
      Collections.valid s.collections (p.assign c) = true →
      ∀ work, p.coverId = some (some work) → Resolves Collections.Work.id s.works (some work)
  | .collections _ (.destroy id) =>
    (find Collections.Collection.id id s.collections.collections).isSome = true →
    ∀ w ∈ s.works, w.collectionId = some id →
      (∀ c ∈ s.collections.collections, c.id ≠ id → c.coverId ≠ some w.id) ∧
      ∀ c ∈ s.circles.circles, c.coverId ≠ some w.id
  | .collections _ (.destroyWork work) =>
    (∀ c ∈ s.collections.collections, c.coverId ≠ some work) ∧
      ∀ c ∈ s.circles.circles, c.coverId ≠ some work
  | _ => True

variable {s t : State C}

theorem isSome_findWork {id : Nat} (h : Resolves Collections.Work.id s.works (some id)) :
    (s.findWork id).isSome = true := by
  obtain ⟨w, -, hw⟩ := exists_find_of_resolves h
  rw [State.findWork, show find Collections.Work.id id s.works = some w from hw]
  rfl

/-- **Where every cover is a work**, none of the methods raises. -/
theorem State.Named.covered (h : s.Named) : s.Covered := by
  -- `Work.find` is only called with an id that is there
  have hcollection : ∀ c ∈ s.collections.collections, (s.collectionCover c).isSome = true := by
    intro c hc
    rw [State.collectionCover]
    cases hcover : c.coverId with
    | none => rfl
    | some id => exact Option.isSome_map.trans (isSome_findWork (h.collection c hc id hcover))
  have hcircle : ∀ c ∈ s.circles.circles, (s.circleCover c).isSome = true := by
    intro c hc
    rw [State.circleCover]
    cases hcover : c.coverId with
    | none => rfl
    | some id => exact Option.isSome_map.trans (isSome_findWork (h.circle c hc id hcover))
  exact {
    named := h
    collectionCover := hcollection
    collectionCoverUrl := fun c hc => Option.isSome_map.trans (hcollection c hc)
    circleCover := hcircle
    circleCoverUrl := fun c hc => Option.isSome_map.trans (hcircle c hc) }

/-! ### One request -/

/-- The one request on circles that writes a cover has looked up the work. -/
theorem mem_works_of_plan_cover {db : Circles.Records} {store : Circles.Store} {session : Option Nat}
    {r : Circles.Request} {id work : Nat} (h : Circles.plan db store session r = some (.cover id work)) :
    work ∈ db.works := by
  -- every other request ends in a change of its own
  cases r with
  | create p =>
    rw [Circles.plan, Circles.create] at h
    split at h
    · cases h
    · cases h
  | update id p =>
    obtain ⟨_, -, h⟩ := Option.bind_eq_some_iff.mp h
    split at h
    · cases h
    · cases h
  | join id =>
    obtain ⟨_, -, h⟩ := Option.bind_eq_some_iff.mp h
    obtain ⟨_, -, h⟩ := Option.bind_eq_some_iff.mp h
    split at h
    · cases h
    · cases h
  | leave id =>
    obtain ⟨_, -, h⟩ := Option.bind_eq_some_iff.mp h
    obtain ⟨_, -, h⟩ := Option.bind_eq_some_iff.mp h
    split at h
    · cases h
    · cases h
  | addcol id collections =>
    obtain ⟨_, -, h⟩ := Option.map_eq_some_iff.mp h
    cases h
  | destroy id =>
    obtain ⟨_, -, h⟩ := Option.map_eq_some_iff.mp h
    cases h
  | setCover work' coverType circleId =>
    rw [Circles.plan, Circles.setCover] at h
    split at h
    · next hguard =>
      obtain ⟨_, -, h⟩ := Option.bind_eq_some_iff.mp h
      obtain ⟨_, -, h⟩ := Option.bind_eq_some_iff.mp h
      split at h
      · cases h
        exact hguard.1
      · cases h
    · cases h

/-- The requests on circles keep covers that are there. -/
theorem named_circles (hs : s.Named) (session : Option Nat) (r : Circles.Request) :
    ({ s with circles := Circles.perform s.records s.circles session r } : State C).Named := by
  refine ⟨hs.collection, ?_⟩
  change ∀ c ∈ (Circles.perform s.records s.circles session r).circles, _
  rw [Circles.perform]
  split
  · exact hs.circle
  · next ch hplan =>
    cases ch with
    | create p admin =>
      -- a new circle has no cover
      exact forall_mem_insert hs.circle fun id hid => absurd hid.symm (Option.some_ne_none id)
    | update id p => exact forall_mem_update hs.circle hs.circle
    | join id u => exact hs.circle
    | leave id u => exact hs.circle
    | addcol id cols => exact hs.circle
    | destroy id => exact fun c hc => hs.circle c (List.mem_of_mem_filter hc)
    | cover id work =>
      refine forall_mem_update hs.circle fun c _ id' hid' => ?_
      obtain rfl := Option.some.inj hid'
      exact resolves_iff_mem_map.mpr (mem_works_of_plan_cover hplan)

/-- Works are deleted, and collections, perhaps. The covers that are left are there exactly if none of
them is one of the works. -/
theorem named_filter_iff (hwf : s.collections.Wf) (hs : s.Named) {p : Collections.Work → Bool}
    {rows : List (Collections.Collection C)} (hrows : ∀ c ∈ rows, c ∈ s.collections.collections)
    {images : List Contents.Image} :
    ({ s with
      collections := { s.collections with collections := rows, works := s.collections.works.filter p }
      images := images } : State C).Named ↔
    ∀ w ∈ s.works, p w = false →
      (∀ c ∈ rows, c.coverId ≠ some w.id) ∧ ∀ c ∈ s.circles.circles, c.coverId ≠ some w.id := by
  -- a cover that was there is kept if its work is
  have hkeep : ∀ {id}, Resolves Collections.Work.id s.works (some id) →
      (Resolves Collections.Work.id (s.collections.works.filter p) (some id) ↔
        ∀ w ∈ s.works, p w = false → some id ≠ some w.id) := resolves_filter_iff hwf.works
  constructor
  · intro ht w hw hp
    refine ⟨fun c hc hcover => ?_, fun c hc hcover => ?_⟩
    · exact (hkeep (hs.collection c (hrows c hc) _ hcover)).mp (ht.collection c hc w.id hcover) w hw hp rfl
    · exact (hkeep (hs.circle c hc _ hcover)).mp (ht.circle c hc w.id hcover) w hw hp rfl
  · intro hnone
    refine ⟨fun c hc id hcover => ?_, fun c hc id hcover => ?_⟩
    · refine (hkeep (hs.collection c (hrows c hc) id hcover)).mpr fun w hw hp heq => ?_
      exact (hnone w hw hp).1 c hc (hcover.trans heq)
    · refine (hkeep (hs.circle c hc id hcover)).mpr fun w hw hp heq => ?_
      exact (hnone w hw hp).2 c hc (hcover.trans heq)

theorem step_collections_cases {store store' : Collections.Store C} {session : Option Nat}
    {r : Collections.Request C} (h : Collections.step store (session, r) = some store') :
    (Collections.plan store session r = none ∧ store' = store) ∨
      ∃ ch, Collections.plan store session r = some ch ∧ store' = Collections.apply store ch := by
  rw [Collections.step] at h
  split at h
  · next hplan => exact .inl ⟨hplan, (Option.some.inj h).symm⟩
  · next ch hplan => exact .inr ⟨ch, hplan, (Option.some.inj h).symm⟩

/-- The update of a collection. -/
theorem named_update_iff (hs : s.Named) {id : Nat} {p : Collections.Params C} {c : Collections.Collection C}
    (hc : find Collections.Collection.id id s.collections.collections = some c)
    {images : List Contents.Image} :
    ({ s with
      collections := Collections.apply s.collections (.update id p)
      images := images } : State C).Named ↔
      ∀ work, p.coverId = some (some work) → Resolves Collections.Work.id s.works (some work) := by
  constructor
  · intro ht work hwork
    refine ht.collection (p.assign c) ?_ work (by rw [Collections.Params.assign, hwork]; rfl)
    exact mem_update.mpr ⟨c, find_mem hc, by rw [if_pos (find_key hc)]⟩
  · intro hwork
    refine ⟨forall_mem_update hs.collection fun c' hc' work hcover => ?_, hs.circle⟩
    cases hp : p.coverId with
    | none =>
      rw [Collections.Params.assign, hp] at hcover
      exact hs.collection c' hc' work hcover
    | some cover =>
      rw [Collections.Params.assign, hp] at hcover
      exact hwork work (hp.trans (congrArg some hcover))

/-- A collection is destroyed with its works. -/
theorem named_destroy_iff (hwf : s.collections.Wf) (hs : s.Named) (id : Nat)
    {images : List Contents.Image} :
    ({ s with
      collections := Collections.apply s.collections (.destroy id)
      images := images } : State C).Named ↔
      ∀ w ∈ s.works, w.collectionId = some id →
        (∀ c ∈ s.collections.collections, c.id ≠ id → c.coverId ≠ some w.id) ∧
        ∀ c ∈ s.circles.circles, c.coverId ≠ some w.id := by
  rw [Collections.apply, named_filter_iff hwf hs fun c hc => List.mem_of_mem_filter hc]
  refine forall_congr' fun w => imp_congr_right fun _ => imp_congr (by simp) (and_congr_left' ?_)
  simp only [List.mem_filter, decide_eq_true_eq, and_imp]

/-- A work is destroyed. -/
theorem named_destroyWork_iff (hwf : s.collections.Wf) (hs : s.Named) {w : Collections.Work}
    (hw : w ∈ s.works) {images : List Contents.Image} :
    ({ s with
      collections := Collections.apply s.collections (.destroyWork w)
      images := images } : State C).Named ↔
      (∀ c ∈ s.collections.collections, c.coverId ≠ some w.id) ∧
        ∀ c ∈ s.circles.circles, c.coverId ≠ some w.id := by
  rw [Collections.apply, named_filter_iff hwf hs fun c hc => hc]
  constructor
  · exact fun h => h w hw (by simp)
  · intro h v _ hv
    have hid : v.id = w.id := by simpa using hv
    rwa [hid]

section Planned

variable {session : Option Nat} {store : Collections.Store C} {images : List Contents.Image}

/-- The images that are left make no difference to the covers. -/
theorem State.Named.withImages (hs : s.Named) : ({ s with images := images } : State C).Named :=
  ⟨hs.collection, hs.circle⟩

theorem named_step_update_iff (hs : s.Named) {id : Nat} {p : Collections.Params C}
    (h : Collections.step s.collections (session, .update id p) = some store) :
    ({ s with collections := store, images := images } : State C).Named ↔
      Safe s (.collections session (.update id p)) := by
  rw [Safe]
  obtain ⟨hplan, rfl⟩ | ⟨ch, hplan, rfl⟩ := step_collections_cases h
  · refine iff_of_true hs.withImages fun c hc hvalid => ?_
    rw [Collections.plan, Collections.update, hc, Option.bind_some, if_pos hvalid] at hplan
    cases hplan
  · obtain ⟨c, hc, hplan⟩ := Option.bind_eq_some_iff.mp hplan
    split at hplan
    · next hvalid =>
      obtain rfl := Option.some.inj hplan
      rw [named_update_iff hs hc]
      exact ⟨fun hwork _ _ _ => hwork, fun hsafe => hsafe c hc hvalid⟩
    · cases hplan

/-- The work that becomes a cover has been looked up. -/
theorem named_step_setCover (hs : s.Named) {work : Nat} {coverType : Option String}
    (h : Collections.step s.collections (session, .setCover work coverType) = some store) :
    ({ s with collections := store, images := images } : State C).Named := by
  obtain ⟨-, rfl⟩ | ⟨ch, hplan, rfl⟩ := step_collections_cases h
  · exact hs.withImages
  · obtain ⟨w, hw, hplan⟩ := Option.bind_eq_some_iff.mp hplan
    split at hplan
    · obtain ⟨c, -, hplan⟩ := Option.bind_eq_some_iff.mp hplan
      split at hplan
      · obtain rfl := Option.some.inj hplan
        refine ⟨forall_mem_update hs.collection fun c' _ id' hcover => ?_, hs.circle⟩
        obtain rfl := Option.some.inj hcover
        exact ⟨w, find_mem hw, rfl⟩
      · cases hplan
    · cases hplan

theorem named_step_destroyWork_iff (hwf : s.collections.Wf) (hs : s.Named) {work : Nat}
    (h : Collections.step s.collections (session, .destroyWork work) = some store) :
    ({ s with collections := store, images := images } : State C).Named ↔
      Safe s (.collections session (.destroyWork work)) := by
  rw [Safe]
  obtain ⟨hplan, rfl⟩ | ⟨ch, hplan, rfl⟩ := step_collections_cases h
  · -- a work that is not there is nobody's cover
    have habsent : ¬ Resolves Collections.Work.id s.works (some work) := fun hres => by
      have hsome := isSome_findWork hres
      rw [State.findWork, show find Collections.Work.id work s.works = none from
        Option.map_eq_none_iff.mp hplan] at hsome
      cases hsome
    exact iff_of_true hs.withImages ⟨fun c hc hcover => habsent (hs.collection c hc work hcover),
      fun c hc hcover => habsent (hs.circle c hc work hcover)⟩
  · obtain ⟨w, hw, rfl⟩ := Option.map_eq_some_iff.mp hplan
    rw [named_destroyWork_iff hwf hs (find_mem hw), find_key hw]

end Planned

/-- **One request** keeps covers that are there exactly if it is safe. -/
theorem named_iff (hwf : s.collections.Wf) (hs : s.Named) {e : Event C} (h : step s e = some t) :
    t.Named ↔ Safe s e := by
  cases e with
  | circles session r =>
    obtain rfl := Option.some.inj h
    exact iff_of_true (named_circles hs session r) trivial
  | collections session r =>
    obtain ⟨store, hstore, rfl⟩ := Option.map_eq_some_iff.mp h
    generalize remainingImages s.works store.works s.images = images
    cases r with
    | update id p => exact named_step_update_iff hs hstore
    | reconfigure id =>
      obtain ⟨-, rfl⟩ | ⟨ch, hplan, rfl⟩ := step_collections_cases hstore
      · exact iff_of_true hs.withImages trivial
      · obtain ⟨c, -, rfl⟩ := Option.map_eq_some_iff.mp hplan
        exact iff_of_true ⟨hs.collection, hs.circle⟩ trivial
    | destroy id =>
      rw [Safe]
      obtain ⟨hplan, rfl⟩ | ⟨ch, hplan, rfl⟩ := step_collections_cases hstore
      · have hnone := Option.map_eq_none_iff.mp hplan
        rw [hnone]
        exact iff_of_true hs.withImages fun hfound => absurd hfound Bool.false_ne_true
      · obtain ⟨c, hc, rfl⟩ := Option.map_eq_some_iff.mp hplan
        rw [named_destroy_iff hwf hs, hc]
        exact ⟨fun h _ => h, fun h => h rfl⟩
    | setCover work coverType => exact iff_of_true (named_step_setCover hs hstore) trivial
    | destroyWork work => exact named_step_destroyWork_iff hwf hs hstore

/-! ### Runs -/

theorem wf_step (hwf : s.collections.Wf) {e : Event C} (h : step s e = some t) : t.collections.Wf := by
  cases e with
  | circles session r =>
    obtain rfl := Option.some.inj h
    exact hwf
  | collections session r =>
    obtain ⟨store, hstore, rfl⟩ := Option.map_eq_some_iff.mp h
    obtain ⟨-, rfl⟩ | ⟨ch, -, rfl⟩ := step_collections_cases hstore
    · exact hwf
    · exact hwf.apply ch

/-- **Covers resolve in all the states of a run** exactly if all its requests are safe. -/
theorem always_covered_iff {s t : State C} {es : List (Event C)} (hwf : s.collections.Wf) (hs : s.Named)
    (h : exec step s es = some t) :
    Always step (fun _ _ u => u.Covered) s es ↔ Meets step Safe s es := by
  refine always_iff_meets (J := fun s => s.collections.Wf) (I := State.Named) ?_ ?_ ?_ hwf hs h
  · exact fun s e u hwf hu => wf_step hwf hu
  · exact fun s e u hcovered => hcovered.named
  · intro s e u hwf hs hu
    rw [← named_iff hwf hs hu]
    exact ⟨fun hcovered => hcovered.named, fun hnamed => hnamed.covered⟩

/-- Two collections with a work each, and the user who is an admin of both. -/
def twoCollections : State Unit where
  collections :=
    { users := [1]
      collectionAdmins := [⟨1, 1⟩, ⟨2, 1⟩]
      collections := [⟨1, some "a", some "a", some "a", some true, (), none⟩,
        ⟨2, some "b", some "b", some "b", some true, (), none⟩]
      next := 3
      works := [⟨10, some 1⟩, ⟨20, some 2⟩]
      queue := [] }
  circles := { circles := [], next := 1, circlesUsers := [], circleCollections := [] }
  images := []
  trays := []
  items := []

/-- The cover is set to one work, and the other one is destroyed. -/
theorem always_covered_other :
    Always step (fun _ _ u => u.Covered) twoCollections
      [.collections (some 1) (.setCover 10 (some "Collection")), .collections none (.destroyWork 20)] := by
  refine (always_covered_iff ?_ ?_ rfl).mpr ⟨trivial, fun s hs => ⟨?_, fun _ _ => trivial⟩⟩
  · exact ⟨⟨by decide, by decide⟩, by decide⟩
  · have hnone : ∀ c ∈ twoCollections.collections.collections, c.coverId = none :=
      List.forall_mem_cons.mpr ⟨rfl, List.forall_mem_singleton.mpr rfl⟩
    refine ⟨fun c hc id hid => ?_, fun c hc => absurd hc List.not_mem_nil⟩
    rw [hnone c hc] at hid
    cases hid
  · obtain rfl := Option.some.inj hs
    exact ⟨List.forall_mem_cons.mpr ⟨by decide, List.forall_mem_singleton.mpr (by decide)⟩,
      fun c hc => absurd hc List.not_mem_nil⟩

/-- The work that is the cover is destroyed. -/
theorem not_always_covered_destroyWork :
    ¬ Always step (fun _ _ u => u.Covered) twoCollections
      [.collections (some 1) (.setCover 10 (some "Collection")), .collections none (.destroyWork 10)] := by
  intro halways
  have hcover := ((halways _ rfl).2 _ rfl).1.collectionCover _ List.mem_cons_self
  revert hcover
  decide

end Covers
end Curarium
