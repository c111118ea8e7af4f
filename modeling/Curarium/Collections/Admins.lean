import Curarium.Library.Runs
import Curarium.Library.Tables
import Curarium.Ruby.Text

/-!
# Who may change a collection

A collection has admins, and the pages show the links that change it to these only. Of the requests
behind the links, `set_cover` asks for an admin; `update`, `reconfigure` and `destroy`, and
`destroy` of a work, do what they are asked by anybody.

`plan` is what a request will write, `none` where it raises, is rejected by a validation or finds
nothing to do, and `apply` writes it. Configurations are of an arbitrary type `C`: they are stored
and handed to the jobs as they are.

* `view_apply_of_ne` — a change leaves every collection alone that it is not about.
* `always_admins` — over runs in which those requests come from admins, nobody else changes a
  collection, deletes it or one of its works, or queues jobs for them.
-/

namespace Curarium
namespace Collections

open Tables Runs

/-! ### The tables -/

variable {C : Type}

/-- A row of `collections`. -/
structure Collection (C : Type) where
  id : Nat
  name : Option String
  description : Option String
  source : Option String
  approved : Option Bool
  configuration : C
  coverId : Option Nat

/-- A row of `works`, as far as these requests go. -/
structure Work where
  id : Nat
  collectionId : Option Nat
deriving DecidableEq

/-- A row of `collection_admins`. -/
structure CollectionAdmin where
  collectionId : Nat
  userId : Nat
deriving DecidableEq

/-- `ConfigureWork.perform_async` -/
structure Job (C : Type) where
  collectionId : Nat
  configuration : C
  workId : Nat

/-- The tables and the queue. The requests do not write users and admins, nor create collections. -/
structure Store (C : Type) where
  users : List Nat
  collectionAdmins : List CollectionAdmin
  collections : List (Collection C)
  next : Nat
  works : List Work
  queue : List (Job C)

/-- `current_user`: the user of the session, if there is one. -/
def Store.currentUser (s : Store C) (session : Option Nat) : Option Nat :=
  session.filter (· ∈ s.users)

/-- `@collection.admins.include?( current_user )` -/
def Store.isAdmin (s : Store C) (id : Nat) (user : Option Nat) : Bool :=
  user.any fun u => u ∈ s.users ∧ { collectionId := id, userId := u } ∈ s.collectionAdmins

/-! ### The requests -/

/-- `validates … presence: true` -/
def present (text : Option String) : Bool := text.any fun t => !Ruby.blank t.toList

/-- The validations of a collection that is about to be saved. -/
def valid (s : Store C) (c : Collection C) : Bool :=
  present c.name && s.collections.all (fun other => other.id = c.id || other.name ≠ c.name) &&
    present c.description && present c.source

/-- `collection_params`: what of it is given. A `cover_id` is the id of a work or none; a negative integer,
which is no id, is left out. -/
structure Params (C : Type) where
  name : Option (Option String)
  description : Option (Option String)
  configuration : Option C
  source : Option (Option String)
  approved : Option (Option Bool)
  coverId : Option (Option Nat)

def Params.assign (p : Params C) (c : Collection C) : Collection C :=
  { c with
    name := p.name.getD c.name
    description := p.description.getD c.description
    configuration := p.configuration.getD c.configuration
    source := p.source.getD c.source
    approved := p.approved.getD c.approved
    coverId := p.coverId.getD c.coverId }

inductive Request (C : Type) where
  /-- `CollectionsController#update` -/
  | update (id : Nat) (p : Params C)
  /-- `CollectionsController#reconfigure` -/
  | reconfigure (id : Nat)
  /-- `CollectionsController#destroy` -/
  | destroy (id : Nat)
  /-- `WorksController#set_cover` -/
  | setCover (work : Nat) (coverType : Option String)
  /-- `WorksController#destroy` -/
  | destroyWork (work : Nat)

/-- What a request writes. -/
inductive Change (C : Type) where
  | update (id : Nat) (p : Params C)
  | enqueue (id : Nat) (configuration : C)
  | destroy (id : Nat)
  | cover (id work : Nat)
  | destroyWork (work : Work)

/-- `CollectionsController#update` -/
def update (s : Store C) (id : Nat) (p : Params C) : Option (Change C) :=
  (find Collection.id id s.collections).bind fun c =>
    if valid s (p.assign c) then some (.update id p) else none

/-- `CollectionsController#reconfigure` -/
def reconfigure (s : Store C) (id : Nat) : Option (Change C) :=
  (find Collection.id id s.collections).map fun c => .enqueue id c.configuration

/-- `CollectionsController#destroy` -/
def destroy (s : Store C) (id : Nat) : Option (Change C) :=
  (find Collection.id id s.collections).map fun _ => .destroy id

/-- The collection of a work. -/
def Store.collectionOf (s : Store C) (w : Work) : Option (Collection C) :=
  w.collectionId.bind fun id => find Collection.id id s.collections

/-- `WorksController#set_cover`, as far as collections are concerned. A work without a collection
raises. -/
def setCover (s : Store C) (current : Option Nat) (work : Nat) (coverType : Option String) :
    Option (Change C) :=
  (find Work.id work s.works).bind fun w =>
    if current.isSome = true ∧ coverType = some "Collection" then
      (s.collectionOf w).bind fun c =>
        if s.isAdmin c.id current && valid s { c with coverId := some w.id } then some (.cover c.id w.id)
        else none
    else none

/-- `WorksController#destroy` -/
def destroyWork (s : Store C) (work : Nat) : Option (Change C) :=
  (find Work.id work s.works).map .destroyWork

/-- What a request of a session will write. -/
def plan (s : Store C) (session : Option Nat) : Request C → Option (Change C)
  | .update id p => update s id p
  | .reconfigure id => reconfigure s id
  | .destroy id => destroy s id
  | .setCover work coverType => setCover s (s.currentUser session) work coverType
  | .destroyWork work => destroyWork s work

/-- The tables and the queue after a change. -/
def apply (s : Store C) : Change C → Store C
  | .update id p => { s with collections := Tables.update Collection.id id p.assign s.collections }
  | .enqueue id configuration =>
    { s with
      queue := s.queue ++ (s.works.filter fun w => w.collectionId = some id).map fun w =>
        { collectionId := id, configuration := configuration, workId := w.id } }
  | .destroy id =>
    { s with
      collections := s.collections.filter fun c => c.id ≠ id
      works := s.works.filter fun w => w.collectionId ≠ some id }
  | .cover id work =>
    { s with
      collections := Tables.update Collection.id id (fun c => { c with coverId := some work }) s.collections }
  | .destroyWork work => { s with works := s.works.filter fun w => w.id ≠ work.id }

/-- One request of a session. -/
def step (s : Store C) (e : Option Nat × Request C) : Option (Store C) :=
  match plan s e.1 e.2 with
  | none => some s
  | some ch => some (apply s ch)

/-! ### Collections apart -/

/-- All that the tables and the queue say about one collection. -/
structure View (C : Type) where
  collection : Option (Collection C)
  works : List Work
  jobs : List (Job C)

def Store.view (s : Store C) (id : Nat) : View C where
  collection := find Collection.id id s.collections
  works := s.works.filter fun w => w.collectionId = some id
  jobs := s.queue.filter fun j => j.collectionId = id

/-- The collection that a change is about. -/
def Change.target : Change C → Option Nat
  | .update id _ => some id
  | .enqueue id _ => some id
  | .destroy id => some id
  | .cover id _ => some id
  | .destroyWork work => work.collectionId

/-- Ids of collections and of works are distinct. -/
structure Store.Wf (s : Store C) : Prop where
  collections : Keyed Collection.id s.next s.collections
  works : (s.works.map Work.id).Nodup

variable {s t : Store C} {id : Nat}

theorem Store.Wf.apply (h : s.Wf) (ch : Change C) : (apply s ch).Wf := by
  cases ch with
  | update id p => exact ⟨h.collections.update fun _ => rfl, h.works⟩
  | enqueue id configuration => exact ⟨h.collections, h.works⟩
  | destroy id => exact ⟨h.collections.filter _, h.works.sublist (List.filter_sublist.map Work.id)⟩
  | cover id work => exact ⟨h.collections.update fun _ => rfl, h.works⟩
  | destroyWork work => exact ⟨h.collections, h.works.sublist (List.filter_sublist.map Work.id)⟩

theorem view_eq (hcollection : find Collection.id id t.collections = find Collection.id id s.collections)
    (hworks : (t.works.filter fun w => w.collectionId = some id) =
      s.works.filter fun w => w.collectionId = some id)
    (hjobs : (t.queue.filter fun j => j.collectionId = id) = s.queue.filter fun j => j.collectionId = id) :
    t.view id = s.view id := by
  rw [Store.view, Store.view, hcollection, hworks, hjobs]

/-- **A change leaves other collections alone.** A work that is deleted is looked up first, so it
is one of the works. -/
theorem view_apply_of_ne (hs : s.Wf) {c : Collection C} (hc : c ∈ s.collections) {ch : Change C}
    (hwork : ∀ w, ch = .destroyWork w → w ∈ s.works) (h : ch.target ≠ some c.id) :
    (apply s ch).view c.id = s.view c.id := by
  cases ch with
  | update id p =>
    have hne : c.id ≠ id := fun heq => h (congrArg some heq.symm)
    exact view_eq (find_update_of_ne (fun _ => rfl) hne) rfl rfl
  | enqueue id configuration =>
    -- the new jobs are all of the other collection
    have hne : id ≠ c.id := fun heq => h (congrArg some heq)
    refine view_eq rfl rfl ?_
    have hnone : ((s.works.filter fun w => w.collectionId = some id).map fun w =>
        ({ collectionId := id, configuration := configuration, workId := w.id } : Job C)).filter
          (fun j => j.collectionId = c.id) = [] := by
      rw [List.filter_eq_nil_iff]
      intro j hj
      obtain ⟨w, -, rfl⟩ := List.mem_map.mp hj
      simpa using hne
    rw [apply, List.filter_append, hnone, List.append_nil]
  | destroy id =>
    have hne : c.id ≠ id := fun heq => h (congrArg some heq.symm)
    refine view_eq (hs.collections.find_filter hc (by simpa using hne)) ?_ rfl
    -- a work of this collection is not one of the other
    rw [apply, List.filter_filter]
    refine List.filter_congr fun w _ => ?_
    by_cases hw : w.collectionId = some c.id
    · simp [hw, hne]
    · simp [hw]
  | cover id work =>
    have hne : c.id ≠ id := fun heq => h (congrArg some heq.symm)
    exact view_eq (find_update_of_ne (fun _ => rfl) hne) rfl rfl
  | destroyWork work =>
    refine view_eq rfl ?_ rfl
    rw [apply, List.filter_filter]
    refine List.filter_congr fun w hw => ?_
    by_cases hid : w.id = work.id
    · -- it is the work itself, which is in another collection
      have heq : w = work := List.inj_on_of_nodup_map hs.works hw (hwork work rfl) hid
      have hne : w.collectionId ≠ some c.id := by
        rw [heq]
        exact h
      simp [hne]
    · simp [hid]

/-! ### Admins -/

/-- The condition on a request: where it has no guard of its own, it comes from an admin of the
collection it is about. -/
def FromAdmin (s : Store C) : Option Nat × Request C → Prop
  | (session, .update id _) => ∀ c, find Collection.id id s.collections = some c →
      s.isAdmin c.id (s.currentUser session) = true
  | (session, .reconfigure id) => ∀ c, find Collection.id id s.collections = some c →
      s.isAdmin c.id (s.currentUser session) = true
  | (session, .destroy id) => ∀ c, find Collection.id id s.collections = some c →
      s.isAdmin c.id (s.currentUser session) = true
  | (session, .destroyWork work) => ∀ w c, find Work.id work s.works = some w →
      s.collectionOf w = some c → s.isAdmin c.id (s.currentUser session) = true
  | (_, .setCover _ _) => True

/-- **Who changes a collection**: under the condition, an admin of it. -/
theorem admin_of_plan (hs : s.Wf) {session : Option Nat} {r : Request C} {ch : Change C}
    (hg : FromAdmin s (session, r)) (h : plan s session r = some ch) {c : Collection C}
    (hc : c ∈ s.collections) (hid : ch.target = some c.id) :
    s.isAdmin c.id (s.currentUser session) = true := by
  have hfind := hs.collections.find_of_mem hc
  cases r with
  | update id p =>
    obtain ⟨c', -, h⟩ := Option.bind_eq_some_iff.mp h
    split at h
    · obtain rfl := Option.some.inj h
      obtain rfl := Option.some.inj hid
      exact hg c hfind
    · exact absurd h (by simp)
  | reconfigure id =>
    obtain ⟨c', -, rfl⟩ := Option.map_eq_some_iff.mp h
    obtain rfl := Option.some.inj hid
    exact hg c hfind
  | destroy id =>
    obtain ⟨c', -, rfl⟩ := Option.map_eq_some_iff.mp h
    obtain rfl := Option.some.inj hid
    exact hg c hfind
  | setCover work coverType =>
    obtain ⟨w, -, h⟩ := Option.bind_eq_some_iff.mp h
    split at h
    · obtain ⟨c', -, h⟩ := Option.bind_eq_some_iff.mp h
      split at h
      · next hok =>
        obtain rfl := Option.some.inj h
        -- the guard of the request itself
        rw [← Option.some.inj hid]
        exact (Bool.and_eq_true_iff.mp hok).1
      · exact absurd h (by simp)
    · exact absurd h (by simp)
  | destroyWork work =>
    obtain ⟨w, hw, rfl⟩ := Option.map_eq_some_iff.mp h
    have hcollection : s.collectionOf w = some c := by
      have hwid : w.collectionId = some c.id := hid
      rw [Store.collectionOf, hwid, Option.bind_some, hfind]
    exact hg w c hw hcollection

/-- The fields of a collection that only admins may change. -/
def Unchanged (c c' : Collection C) : Prop :=
  c'.name = c.name ∧ c'.description = c.description ∧ c'.configuration = c.configuration ∧
    c'.approved = c.approved ∧ c'.coverId = c.coverId

/-- What a request should do to the collections that are there: nothing, unless it comes from an
admin. -/
structure AdminsOnly (s : Store C) (e : Option Nat × Request C) (t : Store C) : Prop where
  /-- The collection is still there, with its fields as they were. -/
  collection : ∀ c ∈ s.collections, s.isAdmin c.id (s.currentUser e.1) = false →
    ∃ c', find Collection.id c.id t.collections = some c' ∧ Unchanged c c'
  /-- None of its works is deleted. -/
  works : ∀ c ∈ s.collections, s.isAdmin c.id (s.currentUser e.1) = false →
    ∀ w ∈ s.works, w.collectionId = some c.id → w ∈ t.works
  /-- No job is queued for it. -/
  jobs : ∀ c ∈ s.collections, s.isAdmin c.id (s.currentUser e.1) = false →
    (t.queue.filter fun j => j.collectionId = c.id) = s.queue.filter fun j => j.collectionId = c.id

/-- A work that a request deletes was found. -/
theorem mem_works_of_plan {session : Option Nat} {r : Request C} {w : Work}
    (h : plan s session r = some (.destroyWork w)) : w ∈ s.works := by
  cases r with
  | update id p =>
    obtain ⟨c, -, h⟩ := Option.bind_eq_some_iff.mp h
    split at h
    · exact absurd h (by simp)
    · exact absurd h (by simp)
  | reconfigure id =>
    obtain ⟨c, -, h⟩ := Option.map_eq_some_iff.mp h
    exact absurd h (by simp)
  | destroy id =>
    obtain ⟨c, -, h⟩ := Option.map_eq_some_iff.mp h
    exact absurd h (by simp)
  | setCover work coverType =>
    obtain ⟨w', -, h⟩ := Option.bind_eq_some_iff.mp h
    split at h
    · obtain ⟨c, -, h⟩ := Option.bind_eq_some_iff.mp h
      split at h
      · exact absurd h (by simp)
      · exact absurd h (by simp)
    · exact absurd h (by simp)
  | destroyWork work =>
    -- the only request that plans to destroy a work has looked it up
    obtain ⟨w', hw', heq⟩ := Option.map_eq_some_iff.mp h
    rw [← Change.destroyWork.inj heq]
    exact find_mem hw'

/-- Where the collection is as before, nothing of it changed. -/
theorem adminsOnly_of_view (hs : s.Wf) {e : Option Nat × Request C}
    (h : ∀ c ∈ s.collections, s.isAdmin c.id (s.currentUser e.1) = false → t.view c.id = s.view c.id) :
    AdminsOnly s e t where
  collection c hc hout := by
    have hsame : find Collection.id c.id t.collections = find Collection.id c.id s.collections :=
      congrArg View.collection (h c hc hout)
    rw [hs.collections.find_of_mem hc] at hsame
    exact ⟨c, hsame, rfl, rfl, rfl, rfl, rfl⟩
  works c hc hout w hw hwid := by
    have hsame : (t.works.filter fun w => w.collectionId = some c.id) =
        s.works.filter fun w => w.collectionId = some c.id := congrArg View.works (h c hc hout)
    -- the works of the collection are the same, so this one is still among them
    have hmem : w ∈ s.works.filter fun w => w.collectionId = some c.id :=
      List.mem_filter.mpr ⟨hw, decide_eq_true hwid⟩
    rw [← hsame] at hmem
    exact List.mem_of_mem_filter hmem
  jobs c hc hout := congrArg View.jobs (h c hc hout)

/-- **One request** under the condition. -/
theorem adminsOnly_step (hs : s.Wf) {e : Option Nat × Request C} (hg : FromAdmin s e)
    (h : step s e = some t) : AdminsOnly s e t ∧ t.Wf := by
  obtain ⟨session, r⟩ := e
  rw [step] at h
  split at h
  · obtain rfl := Option.some.inj h
    exact ⟨adminsOnly_of_view hs fun _ _ _ => rfl, hs⟩
  · next ch hch =>
    obtain rfl := Option.some.inj h
    refine ⟨adminsOnly_of_view hs fun c hc hout => ?_, hs.apply ch⟩
    refine view_apply_of_ne hs hc (fun w hw => mem_works_of_plan (hw ▸ hch)) fun htarget => ?_
    exact absurd (admin_of_plan hs hg hch hc htarget) (by rw [hout]; exact Bool.false_ne_true)

/-- **Only admins change a collection**, in every run whose requests to update, reconfigure or
delete a collection or to delete a work come from admins. -/
theorem always_admins {s : Store C} (hs : s.Wf) {es : List (Option Nat × Request C)}
    (hg : Meets step FromAdmin s es) : Always step AdminsOnly s es := by
  refine always_of_meets (I := Store.Wf) ?_ hs hg
  intro s e t hI hC h
  exact adminsOnly_step hI hC h

/-- A collection of the first of two users, with one work. -/
def oneCollection : Store Unit where
  users := [1, 2]
  collectionAdmins := [{ collectionId := 1, userId := 1 }]
  collections := [{ id := 1, name := some "a", description := some "b", source := some "c",
                    approved := some true, configuration := (), coverId := none }]
  next := 2
  works := [{ id := 1, collectionId := some 1 }]
  queue := []

theorem wf_oneCollection : oneCollection.Wf where
  collections := ⟨List.nodup_singleton _, List.forall_mem_singleton.mpr (Nat.lt_succ_self 1)⟩
  works := List.nodup_singleton _

/-- The admin reconfigures the collection, and another user tries to set its cover. -/
theorem always_admins_reconfigure :
    Always step AdminsOnly oneCollection [(some 1, .reconfigure 1), (some 2, .setCover 1 (some "Collection"))] := by
  refine always_admins wf_oneCollection ⟨?_, fun _ _ => ⟨trivial, fun _ _ => trivial⟩⟩
  intro c hc
  obtain rfl := Option.some.inj hc
  rfl

/-- An anonymous visitor deletes the collection. -/
theorem not_always_admins_destroy :
    oneCollection.Wf ∧ ¬ Always step AdminsOnly oneCollection [(none, .destroy 1)] := by
  refine ⟨wf_oneCollection, fun halways => ?_⟩
  obtain ⟨c', hc', -⟩ := (halways _ rfl).1.collection _ List.mem_cons_self rfl
  exact absurd hc' (by simp [apply, oneCollection, find])

end Collections
end Curarium
