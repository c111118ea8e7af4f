import Curarium.ObjectMap.Requests

/-!
# Is the object map up to date?

After an object map was answered, the `ids.json` of its directory should list the works of the
request. A `5.jpg` in the directory keeps the writers from writing, so this depends on what it was
drawn from.

* `Drawn` — `ids.json` has the entries of the works that `5.jpg` was drawn from, by the same writer.
  It holds in every state.
* `coherent_iff` — so one request is answered as it should be exactly if there is no `5.jpg`, or one
  that `montage` drew from the works of the request as they are now (`UpToDate`).
* `always_coherent_iff` — the same for all requests of a run.

A work that is created or changed, another clause with the same checksum and a geochrono request each
leave a `5.jpg` that is not up to date.
-/

namespace Curarium
namespace ObjectMap

open Runs WorksIndex

variable {lower : List Char → List Char}

/-! ### What is promised -/

/-- The text is the array of the ids of the works, in ascending order. -/
def Lists (ws : List Work) (ids : Json) : Prop :=
  ∃ ns : List Nat, ids = .arr (ns.map fun n : Nat => .int n) ∧ ns.SortedLT ∧
    ∀ n, n ∈ ns ↔ ∃ w ∈ ws, w.id = n

/-- The directory of a request lists its works. -/
def Right (lower : List Char → List Char) (t : State) (q : Query) : Prop :=
  ∀ target', target lower t.db q = some target' →
    ∃ ids, (t.files target'.directory).ids = some ids ∧ Lists target'.works ids

/-- **Coherence**: when an object map is answered, its directory lists its works. -/
def Coherent (lower : List Char → List Char) (_ : State) (e : Event) (t : State) : Prop :=
  ∀ q made, e = .index .objectmap q made → Right lower t q

/-- A `5.jpg` that an object map finds was drawn from its works as they are now, by `montage` unless
there are none. -/
def UpToDate (lower : List Char → List Char) (s : State) (e : Event) : Prop :=
  ∀ q made, e = .index .objectmap q made → ∀ target', target lower s.db q = some target' →
    ∀ p, (s.files target'.directory).picture = some p →
      p.thumbnails = target'.works.map Work.id ∧ (p.command = .objectmap ∨ target'.works = [])

/-! ### The works of a request are in order -/

theorem selected_ascending {db : Database} {clause : Text} {ws : List Work}
    (h : selected lower db clause = some ws) : (ws.map Work.id).SortedLT := by
  obtain ⟨found, hfound, rfl⟩ := Option.map_eq_some_iff.mp h
  have hnodup : ((found.filter (withThumb db)).map Work.id).Nodup :=
    db.workIds.sublist ((List.filter_sublist.trans (matching_sublist hfound)).map _)
  exact Tables.sortedLT_insertionSort hnodup

theorem target_ascending {db : Database} {q : Query} {t : Target} (h : target lower db q = some t) :
    (t.works.map Work.id).SortedLT := by
  rw [target] at h
  split at h
  · obtain ⟨clause, -, h⟩ := Option.bind_eq_some_iff.mp h
    obtain ⟨ws, hws, rfl⟩ := Option.map_eq_some_iff.mp h
    -- all three targets have the same works
    have hworks := selected_ascending hws
    split
    · split
      · exact hworks
      · exact hworks
    · exact hworks
  · exact absurd h (by simp)

/-- `montage` lists the ids alone. -/
theorem map_entry_objectmap (ws : List Work) :
    ws.map (entry .objectmap) = (ws.map Work.id).map fun n : Nat => Json.int n := by
  rw [List.map_map]
  rfl

/-- There is one list of the ids in ascending order. -/
theorem lists_iff {ws : List Work} (h : (ws.map Work.id).SortedLT) (ids : Json) :
    Lists ws ids ↔ ids = .arr (ws.map (entry .objectmap)) := by
  rw [map_entry_objectmap]
  constructor
  · rintro ⟨ns, rfl, hns, hmem⟩
    -- two ascending lists with the same members
    have heq : ns = ws.map Work.id := hns.eq_of_mem_iff h fun n => by rw [hmem, List.mem_map]
    rw [heq]
  · rintro rfl
    exact ⟨ws.map Work.id, rfl, h, fun n => List.mem_map⟩

/-! ### What a picture was drawn from -/

/-- The ids beside a picture are those of the works it was drawn from, as its writer lists them. -/
def Folder.Drawn (f : Folder) : Prop :=
  ∀ p, f.picture = some p →
    ∃ ws : List Work, p.thumbnails = ws.map Work.id ∧ f.ids = some (.arr (ws.map (entry p.command)))

/-- The same in all directories. -/
def Drawn (s : State) : Prop := ∀ d, (s.files d).Drawn

theorem Folder.Drawn.write {f : Folder} (h : f.Drawn) (command : Vis) (ws : List Work)
    (idsOnly made : Bool) : (f.write command ws idsOnly made).Drawn := by
  rw [Folder.write]
  split
  · exact h
  · intro p hp
    -- the picture is drawn in the same call that lists the ids
    dsimp only at hp
    split at hp
    · obtain rfl := Option.some.inj hp
      exact ⟨ws, rfl, rfl⟩
    · exact absurd hp (by simp)

theorem Drawn.rewrite {s : State} (h : Drawn s) {d : Directory} {f : Folder → Folder}
    (hf : (f (s.files d)).Drawn) : Drawn (s.rewrite d f) := by
  intro d'
  show (Function.update s.files d (f (s.files d)) d').Drawn
  by_cases hd : d' = d
  · -- the directory that is rewritten
    subst hd
    rwa [Function.update_self]
  · rw [Function.update_of_ne hd]
    exact h d'

theorem drawn_noFiles (db : Database) : Drawn ⟨db, noFiles⟩ := fun _ _ hp => absurd hp (by simp [noFiles])

/-- **No event separates the ids from the picture.** -/
theorem Drawn.step {s : State} (h : Drawn s) (e : Event) : Drawn (step lower s e) := by
  cases e with
  | change c =>
    -- the tables change, the files do not
    exact h
  | reconfigure id =>
    rw [ObjectMap.step]
    split
    · -- an empty directory has no picture
      exact h.rewrite fun p hp => absurd hp (by simp)
    · exact h
  | index vis q made =>
    rw [ObjectMap.step]
    split
    · exact h
    · cases vis with
      | objectmap => exact h.rewrite ((h _).write _ _ _ _)
      | geochrono => exact h.rewrite ((h _).write _ _ _ _)

/-! ### One request -/

/-- An object map writes to its directory only, and to no table. -/
theorem step_objectmap {s : State} {q : Query} {made : Bool} {t : Target}
    (ht : target lower s.db q = some t) :
    step lower s (.index .objectmap q made) =
      s.rewrite t.directory (writeMontage t.works t.idsOnly made) := by
  rw [ObjectMap.step, ht]

theorem rewrite_files_self (s : State) (d : Directory) (f : Folder → Folder) :
    (s.rewrite d f).files d = f (s.files d) := Function.update_self ..

/-- The ids that an object map leaves: its own, unless there is a picture. -/
theorem writeMontage_ids (ws : List Work) (idsOnly made : Bool) (f : Folder) :
    (writeMontage ws idsOnly made f).ids =
      if f.picture.isSome then f.ids else some (.arr (ws.map (entry .objectmap))) := by
  rw [writeMontage, Folder.write]
  split
  · rfl
  · rfl

/-- Entries of one writer are entries of the other only if there are none. -/
theorem entries_eq_iff {command : Vis} {vs ws : List Work} :
    vs.map (entry command) = ws.map (entry .objectmap) ↔
      vs.map Work.id = ws.map Work.id ∧ (command = .objectmap ∨ ws = []) := by
  cases command with
  | objectmap =>
    have hinj : Function.Injective fun n : Nat => Json.int n := fun m n hmn =>
      Int.ofNat.inj (Json.int.inj hmn)
    rw [map_entry_objectmap, map_entry_objectmap, hinj.list_map.eq_iff]
    simp
  | geochrono =>
    -- an entry with dates is an array, an id is a number
    cases vs with
    | nil => cases ws <;> simp
    | cons v vs => cases ws <;> simp [entry]

/-- **One request** is answered as it should be if it finds no picture, or one that is up to date. -/
theorem coherent_iff {s : State} (h : Drawn s) (e : Event) :
    Coherent lower s e (step lower s e) ↔ UpToDate lower s e := by
  refine forall_congr' fun q => forall_congr' fun made => forall_congr' fun he => ?_
  subst he
  -- the request is answered in the tables it finds
  have hdb : (step lower s (.index .objectmap q made)).db = s.db := by
    rw [ObjectMap.step]
    split
    · rfl
    · rfl
  rw [Right, hdb]
  refine forall_congr' fun t => forall_congr' fun ht => ?_
  rw [step_objectmap ht, rewrite_files_self, writeMontage_ids]
  have hascending := target_ascending ht
  cases hp : (s.files t.directory).picture with
  | none =>
    -- the ids are written now
    refine iff_of_true ⟨_, rfl, (lists_iff hascending _).mpr rfl⟩ fun p hp => absurd hp (by simp)
  | some p =>
    -- nothing is written: the ids are those of the works that the picture was drawn from
    obtain ⟨ws, hws, hids⟩ := h t.directory p hp
    rw [Option.isSome_some, if_pos rfl, hids]
    constructor
    · rintro ⟨ids, heq, hlists⟩ p' hp'
      obtain rfl := Option.some.inj hp'
      obtain rfl := Option.some.inj heq
      rw [hws, ← entries_eq_iff]
      exact Json.arr.inj ((lists_iff hascending _).mp hlists)
    · intro huptodate
      have hentries := huptodate p rfl
      rw [hws, ← entries_eq_iff] at hentries
      exact ⟨_, rfl, (lists_iff hascending _).mpr (congrArg Json.arr hentries)⟩

/-! ### All requests of a run -/

/-- The events of a run all happen. -/
def next (lower : List Char → List Char) (s : State) (e : Event) : Option State :=
  some (step lower s e)

theorem exec_next (s : State) (es : List Event) :
    exec (next lower) s es = some (es.foldl (step lower) s) := by
  induction es generalizing s with
  | nil => rfl
  | cons e es ih =>
    rw [exec, next, Option.bind_some, ih]
    rfl

/-- **When the object maps are up to date.** From tables without files, all the object maps of a run
are answered as they should be exactly if each finds no picture, or one drawn by `montage` from its
works as they are then. -/
theorem always_coherent_iff (lower : List Char → List Char) (db : Database) (es : List Event) :
    Always (next lower) (Coherent lower) ⟨db, noFiles⟩ es ↔
      Meets (next lower) (UpToDate lower) ⟨db, noFiles⟩ es := by
  refine always_iff_meets (J := Drawn) (I := fun _ => True) ?_ (fun _ _ _ _ => trivial) ?_
    (drawn_noFiles db) trivial (exec_next _ es)
  · intro s e t hs ht
    rw [← Option.some.inj ht]
    exact hs.step e
  · intro s e t hs _ ht
    rw [← Option.some.inj ht]
    exact coherent_iff hs e

/-- A work of no collection, with its image. -/
def work (id : Nat) : Work := ⟨id, ⟨none, [], none⟩, none, none⟩

def image (id : Nat) : Image := ⟨id, some id, some "thumb.jpg"⟩

def oneWork : Database := ⟨[], [work 1], [image 1], by decide⟩

/-- The request for all works. -/
def allWorks : Query := ⟨none, [], [], none, none⟩

/-- A second work, with its image, is created after the object map of all works was drawn, and is not
on the next one. -/
theorem not_always_coherent_created :
    ¬ ∀ (db : Database) (es : List Event), Always (next id) (Coherent id) ⟨db, noFiles⟩ es := by
  intro hall
  have hrun := hall oneWork [.index .objectmap allWorks true, .change (.saveWork (work 2)),
    .change (.saveImage (image 2)), .index .objectmap allWorks true]
  obtain ⟨-, hrun⟩ := hrun _ rfl
  obtain ⟨-, hrun⟩ := hrun _ rfl
  obtain ⟨-, hrun⟩ := hrun _ rfl
  obtain ⟨hlast, -⟩ := hrun _ rfl
  -- the directory still lists the first work alone
  obtain ⟨ids, hids, hlists⟩ := hlast allWorks true rfl ⟨.queries (crc32 []), false, [work 1, work 2]⟩ rfl
  obtain rfl : Json.arr [.int 1] = ids := Option.some.inj hids
  rw [lists_iff (by decide)] at hlists
  exact absurd (Json.arr.inj hlists) (by decide)

end ObjectMap
end Curarium
