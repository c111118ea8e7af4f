import Curarium.Work.Save
import Curarium.Library.Runs

/-!
# `ImportWork`: importing files, concurrently and more than once

The import enqueues one job for each file of an archive. Sidekiq delivers a job at least once, and
ten of them at a time. A delivery looks for a work with the identifier of its file, updates that
work or creates one, and saves the colours of the thumbnail afterwards; these are separate
statements, and those of other deliveries come in between.

* `advance` is one statement of one delivery, `step` the statement of some delivery.
* The work is looked for by `lookupText`, the `to_s` of the list of identifiers, and saved with
  `storedUid`, the first identifier of that list. A work that the import created is therefore not
  found again.
* `advance_spec` — as long as nothing is found, a delivery inserts one row at most, and no other
  row changes its identifier.
* `import_distinct` — so identifiers stay distinct in every run whose existence checks find
  nothing and whose inserts find their identifier unused, and each delivery that saved has its
  one row. An insert that finds its identifier in use leaves two (`insert_duplicates`).
-/

namespace Curarium

open Work

variable {D : Type}

namespace ImportWork

/-- A job: the document of the file and the configuration of the collection. -/
structure Job where
  configuration : Configuration
  original : Json

/-- The hash `parsed`. -/
def Job.parsed (j : Job) : List (String × Option (List Json)) := j.configuration.parse j.original

section Statements

variable (A : Adapter D)

/-- `unique_identifier.to_s`, by which a work is looked for. -/
def lookupText (j : Job) : Option String :=
  ((j.parsed.lookup "unique_identifier").bind id).map fun xs => Field.toS A.printable (.list xs)

/-- The identifier that a save of the job stores in a new row. -/
def storedUid (j : Job) : Option String :=
  (yieldOf A j.parsed).bind fun y => y.uniqueIdentifier.getD none

/-- `Work.new`. -/
def newRow : Record D where
  original := none
  parsed := none
  uniqueIdentifier := none
  title := none
  datestart := none
  dateend := none
  primaryColor := none
  topColors := none
  images := []

/-- `update original: original, parsed: parsed` on a work, `create` on a new one. -/
def store (j : Job) (row : Record D) : Option (Work D) :=
  (A.bind .original j.original).bind fun text =>
    save A (assignParsed A (load { row with original := some text }) j.parsed)

/-! ### The statements of a delivery -/

/-- What a delivery does next. -/
inductive Stage (D : Type) where
  /-- `Work.exists?` -/
  | checking
  /-- `Work.find_by` -/
  | finding
  /-- `w.update`, with the row as it was loaded. -/
  | updating (id : Nat) (loaded : Record D)
  /-- `Work.create` -/
  | creating
  /-- `w.cache_thumb` and the colours, after the save. -/
  | colouring (id : Nat) (w : Work D)
  /-- It returned. -/
  | done
  /-- It raised before its save went through. -/
  | raised
  /-- It raised after its save went through. -/
  | stopped

/-- Has the delivery saved its work? -/
def Stage.saved : Stage D → Bool
  | .colouring _ _ => true
  | .done => true
  | .stopped => true
  | _ => false

/-- Has the delivery returned? -/
def Stage.returned : Stage D → Bool
  | .done => true
  | _ => false

inductive Action where
  | check
  /-- `find_by` answers with a row, one of those that match. -/
  | find (id : Nat)
  /-- `find_by` answers `nil`, which has no `update`. -/
  | findNone
  | save
  | colors (thumb : Thumb)
  /-- The worker is shut down, or the database connection is lost. -/
  | raise

/-- A column of an `UPDATE`: written when the object changed it. -/
def writeBack {α : Type} [DecidableEq α] (loaded new current : α) : α :=
  if new = loaded then current else new

/-- An `UPDATE` of a row, and the image rows inserted with it. -/
def merge [DecidableEq D] (loaded new current : Record D) : Record D where
  original := writeBack loaded.original new.original current.original
  parsed := writeBack loaded.parsed new.parsed current.parsed
  uniqueIdentifier := writeBack loaded.uniqueIdentifier new.uniqueIdentifier current.uniqueIdentifier
  title := writeBack loaded.title new.title current.title
  datestart := writeBack loaded.datestart new.datestart current.datestart
  dateend := writeBack loaded.dateend new.dateend current.dateend
  primaryColor := writeBack loaded.primaryColor new.primaryColor current.primaryColor
  topColors := writeBack loaded.topColors new.topColors current.topColors
  images := current.images ++ new.images.drop loaded.images.length

variable [DecidableEq D]

/-- One statement of `ImportWork#perform`, on the works of the collection in the order of their
ids. -/
def advance (works : List (Record D)) (j : Job) : Stage D → Action → Option (List (Record D) × Stage D)
  | .checking, .check =>
    match lookupText A j with
    | none => some (works, .creating)
    | some text =>
      if works.any (fun row => row.uniqueIdentifier = some text) then some (works, .finding)
      else some (works, .creating)
  | .finding, .find id =>
    works[id]?.bind fun row =>
      if row.uniqueIdentifier = lookupText A j then some (works, .updating id row) else none
  | .finding, .findNone =>
    if works.any (fun row => row.uniqueIdentifier = lookupText A j) then none
    else some (works, .raised)
  | .updating id loaded, .save =>
    match store A j loaded with
    | none => some (works, .raised)
    | some w => some (works.modify id (merge loaded w.row), .colouring id w)
  | .creating, .save =>
    match store A j newRow with
    | none => some (works, .raised)
    | some w => some (works ++ [w.row], .colouring works.length w)
  | .colouring id w, .colors thumb =>
    match updateColors A thumb w with
    | none => some (works, .stopped)
    | some w' => some (works.modify id (merge w.row w'.row), .done)
  | .checking, .raise => some (works, .raised)
  | .finding, .raise => some (works, .raised)
  | .updating _ _, .raise => some (works, .raised)
  | .creating, .raise => some (works, .raised)
  | .colouring _ _, .raise => some (works, .stopped)
  | _, _ => none

/-- The works of the collection, and the deliveries under way. A job that is delivered again is
in the list again. -/
structure State (D : Type) where
  works : List (Record D)
  deliveries : List (Job × Stage D)

/-- The deliveries start together. -/
def start (works : List (Record D)) (jobs : List Job) : State D where
  works := works
  deliveries := jobs.map fun j => (j, .checking)

/-- The next statement of one of the deliveries. -/
def step (s : State D) (e : Nat × Action) : Option (State D) :=
  s.deliveries[e.1]?.bind fun d =>
    (advance A s.works d.1 d.2 e.2).map fun r =>
      { works := r.1, deliveries := s.deliveries.set e.1 (d.1, r.2) }

end Statements

/-! ### What a statement does to the identifiers -/

/-- The identifiers in the collection. -/
def uids (works : List (Record D)) : List (Option String) := works.map Record.uniqueIdentifier

variable (A : Adapter D)

/-- Where a delivery may be while no existence check finds anything: it never looks a work up, and
the object it holds is the one it saved. -/
def Creates (j : Job) : Stage D → Prop
  | .finding => False
  | .updating _ _ => False
  | .colouring _ w => ∃ y row, yieldOf A j.parsed = some y ∧ w = y.work A row
  | _ => True

/-- The save of a job on a row: the yield of the job, applied to the row. -/
theorem store_eq_some {j : Job} {row : Record D} {w : Work D} (h : store A j row = some w) :
    ∃ y row', yieldOf A j.parsed = some y ∧ w = y.work A row' ∧
      row'.uniqueIdentifier = row.uniqueIdentifier := by
  obtain ⟨text, -, hsave⟩ := Option.bind_eq_some_iff.mp h
  rw [save_assigned] at hsave
  obtain ⟨y, hy, rfl⟩ := Option.map_eq_some_iff.mp hsave
  exact ⟨y, _, hy, rfl, rfl⟩

/-- A new row gets the stored identifier of its job. -/
theorem store_newRow_uid {j : Job} {w : Work D} (h : store A j newRow = some w) :
    w.row.uniqueIdentifier = storedUid A j := by
  obtain ⟨y, row, hy, rfl, hrow⟩ := store_eq_some A h
  change y.uniqueIdentifier.getD row.uniqueIdentifier = _
  rw [hrow, storedUid, hy, Option.bind_some]
  rfl

/-- Saving the colours leaves the identifier as it is. -/
theorem updateColors_uid {parsed : List (String × Option (List Json))} {y : Yield D}
    {row : Record D} (hy : yieldOf A parsed = some y) {thumb : Thumb} {w : Work D}
    (h : updateColors A thumb (y.work A row) = some w) :
    w.row.uniqueIdentifier = (y.work A row).row.uniqueIdentifier := by
  rcases thumb with _ | _ | ⟨_ | ⟨c, cs⟩⟩
  · exact absurd h (by simp [updateColors])
  · exact congrArg (fun w => w.row.uniqueIdentifier) (Option.some.inj h).symm
  · exact congrArg (fun w => w.row.uniqueIdentifier) (Option.some.inj h).symm
  · rw [updateColors, save_assignColors A hy] at h
    exact congrArg (fun w => w.row.uniqueIdentifier) (Option.some.inj h).symm

variable [DecidableEq D]

/-- An `UPDATE` by an object that did not change the identifier keeps it. -/
theorem uids_modify_merge (works : List (Record D)) (id : Nat) {loaded new : Record D}
    (h : new.uniqueIdentifier = loaded.uniqueIdentifier) :
    uids (works.modify id (merge loaded new)) = uids works := by
  have hsame : ∀ row, (merge loaded new row).uniqueIdentifier = row.uniqueIdentifier :=
    fun row => if_pos h
  refine List.ext_getElem? fun n => ?_
  rw [uids, uids, List.getElem?_map, List.getElem?_map, List.getElem?_modify]
  cases works[n]? with
  | none => rfl
  | some row =>
    by_cases hn : id = n
    · simp [hn, hsame]
    · simp [hn]

/-- The condition on a statement: an existence check finds nothing, and an insert finds its
identifier unused. -/
def Unused (works : List (Record D)) (j : Job) : Stage D → Action → Prop
  | .checking, .check => ∀ text, lookupText A j = some text → some text ∉ uids works
  | .creating, .save => ∀ u, storedUid A j = some u → some u ∉ uids works
  | _, _ => True

/-- What a statement does while existence checks find nothing: it changes no identifier, or inserts the
row of its delivery. -/
def Inserts (works works' : List (Record D)) (j : Job) (st st' : Stage D) (a : Action) : Prop :=
  Creates A j st' ∧
    ((uids works' = uids works ∧ (st'.saved = true → st.saved = true)) ∨
      (st = .creating ∧ a = .save ∧ uids works' = uids works ++ [storedUid A j]))

section Statement

variable {works works' : List (Record D)} {j : Job} {st st' : Stage D} {a : Action}

omit [DecidableEq D] in
/-- A statement that leaves the table as it is. -/
theorem inserts_of_unchanged {st'' : Stage D} (h : some (works, st'') = some (works', st'))
    (hcreates : Creates A j st'') (hsaved : st''.saved = true → st.saved = true) :
    Inserts A works works' j st st' a := by
  obtain ⟨rfl, rfl⟩ := Prod.mk.inj (Option.some.inj h)
  exact ⟨hcreates, Or.inl ⟨rfl, hsaved⟩⟩

theorem inserts_checking (hun : Unused A works j .checking a)
    (h : advance A works j .checking a = some (works', st')) : Inserts A works works' j .checking st' a := by
  cases a with
  | check =>
    rw [advance] at h
    split at h
    · exact inserts_of_unchanged A h trivial id
    · next text htext =>
      -- the existence check finds nothing
      have hno : works.any (fun row => row.uniqueIdentifier = some text) = false := by
        rw [List.any_eq_false]
        intro row hrow heq
        refine hun text htext ?_
        rw [uids, List.mem_map]
        exact ⟨row, hrow, by simpa using heq⟩
      rw [hno, if_neg (by simp)] at h
      exact inserts_of_unchanged A h trivial id
  | raise => exact inserts_of_unchanged A h trivial id
  | find id => exact absurd h (by simp [advance])
  | findNone => exact absurd h (by simp [advance])
  | save => exact absurd h (by simp [advance])
  | colors thumb => exact absurd h (by simp [advance])

theorem inserts_creating (h : advance A works j .creating a = some (works', st')) :
    Inserts A works works' j .creating st' a := by
  cases a with
  | save =>
    rw [advance] at h
    split at h
    · exact inserts_of_unchanged A h trivial id
    · next w hw =>
      -- the row has the identifier of the job
      obtain ⟨rfl, rfl⟩ := Prod.mk.inj (Option.some.inj h)
      obtain ⟨y, row, hy, hwork, -⟩ := store_eq_some A hw
      refine ⟨⟨y, row, hy, hwork⟩, Or.inr ⟨rfl, rfl, ?_⟩⟩
      rw [uids, List.map_append, List.map_singleton, store_newRow_uid A hw]
      rfl
  | raise => exact inserts_of_unchanged A h trivial id
  | check => exact absurd h (by simp [advance])
  | find id => exact absurd h (by simp [advance])
  | findNone => exact absurd h (by simp [advance])
  | colors thumb => exact absurd h (by simp [advance])

theorem inserts_colouring {id : Nat} {w : Work D} (hst : Creates A j (.colouring id w))
    (h : advance A works j (.colouring id w) a = some (works', st')) :
    Inserts A works works' j (.colouring id w) st' a := by
  obtain ⟨y, row, hy, rfl⟩ := hst
  cases a with
  | colors thumb =>
    rw [advance] at h
    split at h
    · exact inserts_of_unchanged A h trivial fun _ => rfl
    · next w' hw' =>
      -- the row is written once more, with its identifier
      obtain ⟨rfl, rfl⟩ := Prod.mk.inj (Option.some.inj h)
      refine ⟨trivial, Or.inl ⟨?_, fun _ => rfl⟩⟩
      exact uids_modify_merge works id (updateColors_uid A hy hw')
  | raise => exact inserts_of_unchanged A h trivial fun _ => rfl
  | check => exact absurd h (by simp [advance])
  | find id => exact absurd h (by simp [advance])
  | findNone => exact absurd h (by simp [advance])
  | save => exact absurd h (by simp [advance])

/-- **One statement.** While existence checks find nothing, a statement changes no identifier, or
inserts the row of its delivery. -/
theorem advance_spec (hst : Creates A j st) (hun : Unused A works j st a)
    (h : advance A works j st a = some (works', st')) : Inserts A works works' j st st' a := by
  cases st with
  | finding => exact absurd hst id
  | updating id loaded => exact absurd hst not_false
  | checking => exact inserts_checking A hun h
  | creating => exact inserts_creating A h
  | colouring id w => exact inserts_colouring A hst h
  | done => cases a <;> exact absurd h (by simp [advance])
  | raised => cases a <;> exact absurd h (by simp [advance])
  | stopped => cases a <;> exact absurd h (by simp [advance])

end Statement

/-! ### Runs -/

/-- The condition on a step of a run. -/
def UnusedStep (s : State D) (e : Nat × Action) : Prop :=
  ∀ d, s.deliveries[e.1]? = some d → Unused A s.works d.1 d.2 e.2

/-- **Identifiers are distinct**, and every delivery that saved its work has its row. -/
structure Distinct (s : State D) : Prop where
  creates : ∀ d ∈ s.deliveries, Creates A d.1 d.2
  distinct : ∀ u, (uids s.works).count (some u) ≤ 1
  saved : ∀ d ∈ s.deliveries, d.2.saved = true → storedUid A d.1 ∈ uids s.works

omit [DecidableEq D] in
theorem start_distinct {works : List (Record D)} (jobs : List Job)
    (h : ∀ u, (uids works).count (some u) ≤ 1) : Distinct A (start works jobs) where
  creates d hd := by
    obtain ⟨j, -, rfl⟩ := List.mem_map.mp hd
    trivial
  distinct := h
  saved d hd hsaved := by
    obtain ⟨j, -, rfl⟩ := List.mem_map.mp hd
    exact absurd hsaved (by simp [Stage.saved])

theorem step_distinct {s t : State D} {e : Nat × Action} (hs : Distinct A s)
    (hun : UnusedStep A s e) (h : step A s e = some t) : Distinct A t := by
  obtain ⟨d, hd, hmoved⟩ := Option.bind_eq_some_iff.mp h
  obtain ⟨⟨works', st'⟩, hadv, rfl⟩ := Option.map_eq_some_iff.mp hmoved
  have hmem : d ∈ s.deliveries := List.mem_of_getElem? hd
  obtain ⟨hcreates, hcases⟩ := advance_spec A (hs.creates d hmem) (hun d hd) hadv
  -- identifiers stay, and the delivery that moved is the only one that may have saved
  have hkeep : ∀ u ∈ uids s.works, u ∈ uids works' := by
    intro u hu
    rcases hcases with ⟨heq, -⟩ | ⟨-, -, heq⟩
    · rwa [heq]
    · rw [heq]
      exact List.mem_append_left _ hu
  refine ⟨fun d' hd' => ?_, fun u => ?_, fun d' hd' hsaved => ?_⟩
  · rcases List.mem_or_eq_of_mem_set hd' with hold | rfl
    · exact hs.creates d' hold
    · exact hcreates
  · change (uids works').count (some u) ≤ 1
    rcases hcases with ⟨heq, -⟩ | ⟨hst, ha, heq⟩
    · rw [heq]
      exact hs.distinct u
    · have hunused := hun d hd
      rw [hst, ha] at hunused
      rw [heq, List.count_append, List.count_singleton]
      by_cases hu : storedUid A d.1 = some u
      · rw [List.count_eq_zero.mpr (hunused u hu), hu]
        simp
      · have hne : (storedUid A d.1 == some u) = false := by simpa using hu
        rw [hne]
        exact hs.distinct u
  · change storedUid A d'.1 ∈ uids works'
    rcases List.mem_or_eq_of_mem_set hd' with hold | rfl
    · exact hkeep _ (hs.saved d' hold hsaved)
    · rcases hcases with ⟨-, hsv⟩ | ⟨-, -, heq⟩
      · exact hkeep _ (hs.saved d hmem (hsv hsaved))
      · rw [heq]
        simp

/-- An insert that finds its identifier in use leaves two rows with it. -/
theorem insert_duplicates {s t : State D} {i : Nat} {j : Job} {u : String}
    (hd : s.deliveries[i]? = some (j, .creating)) (horiginal : (A.bind .original j.original).isSome = true)
    (hu : storedUid A j = some u) (hused : some u ∈ uids s.works)
    (h : step A s (i, .save) = some t) : 2 ≤ (uids t.works).count (some u) := by
  obtain ⟨text, htext⟩ := Option.isSome_iff_exists.mp horiginal
  obtain ⟨y, hy, -⟩ := Option.bind_eq_some_iff.mp hu
  -- the save goes through: the original is accepted and the job yields an identifier
  have hstore : ∃ w, store A j newRow = some w := by
    rw [store, htext, Option.bind_some, save_assigned, hy, Option.map_some]
    exact ⟨_, rfl⟩
  obtain ⟨w, hw⟩ := hstore
  rw [step, hd, Option.bind_some, advance, hw] at h
  obtain rfl := Option.some.inj h
  change 2 ≤ (uids (s.works ++ [w.row])).count (some u)
  rw [uids, List.map_append, List.map_singleton, store_newRow_uid A hw, hu, List.count_append,
    List.count_singleton_self]
  have hpos : 0 < (uids s.works).count (some u) := List.count_pos_iff.mpr hused
  exact Nat.succ_le_succ hpos

/-- **Import as an upsert.** In every run whose existence checks find nothing and whose inserts
find their identifier unused, identifiers stay distinct and every delivery that saved its work has
exactly one row; and the next insert that finds its identifier in use leaves two. -/
theorem import_distinct (works : List (Record D)) (jobs : List Job) (es : List (Nat × Action))
    (s : State D) (hworks : ∀ u, (uids works).count (some u) ≤ 1)
    (hun : Runs.Meets (step A) (UnusedStep A) (start works jobs) es)
    (h : Runs.exec (step A) (start works jobs) es = some s) :
    (∀ u, (uids s.works).count (some u) ≤ 1) ∧
      (∀ d ∈ s.deliveries, d.2.saved = true → ∀ u, storedUid A d.1 = some u →
        (uids s.works).count (some u) = 1) ∧
      ∀ i j u t, s.deliveries[i]? = some (j, .creating) → (A.bind .original j.original).isSome = true →
        storedUid A j = some u → some u ∈ uids s.works → step A s (i, .save) = some t →
        2 ≤ (uids t.works).count (some u) := by
  -- the invariant holds at the end of the run
  have hs : Distinct A s := Runs.exec_invariant (fun _ _ _ hI hC ht => step_distinct A hI hC ht)
    (start_distinct A jobs hworks) hun h
  refine ⟨hs.distinct, fun d hd hsaved u hu => ?_, fun i j u t => insert_duplicates A⟩
  -- what was saved is among the works, and none of them is there twice
  have hmem := hs.saved d hd hsaved
  rw [hu] at hmem
  exact Nat.le_antisymm (hs.distinct u) (List.count_pos_iff.mpr hmem)

/-- A job for a file with an identifier. -/
def sampleJob : Job where
  configuration := ⟨[("unique_identifier", .steps [.str "id"])], by simp⟩
  original := .obj [("id", .str "X1")]

/-- One delivery, one row. -/
theorem import_distinct_once :
    ∃ s, Runs.exec (step (.plain true)) (start [] [sampleJob]) [(0, .check), (0, .save)] = some s ∧
      uids s.works = [some "X1"] ∧ ∀ u, (uids s.works).count (some u) ≤ 1 := by
  have huids : (Runs.exec (step (.plain true)) (start [] [sampleJob])
      [(0, .check), (0, .save)]).map (fun s => uids s.works) = some [some "X1"] := by
    decide +kernel
  obtain ⟨s, hs, hworks⟩ := Option.map_eq_some_iff.mp huids
  have hmeets : Runs.Meets (step (.plain true)) (UnusedStep (.plain true)) (start [] [sampleJob])
      [(0, .check), (0, .save)] := by
    refine ⟨?_, fun t ht => ⟨?_, fun _ _ => trivial⟩⟩
    · intro d hd
      obtain rfl := Option.some.inj hd
      exact fun _ _ => List.not_mem_nil
    · have hcheck : step (.plain true) (start [] [sampleJob]) (0, .check)
          = some ⟨[], [(sampleJob, .creating)]⟩ := by rfl
      obtain rfl := Option.some.inj (hcheck.symm.trans ht)
      intro d hd
      obtain rfl := Option.some.inj hd
      exact fun _ _ => List.not_mem_nil
  exact ⟨s, hs, hworks, (import_distinct (.plain true) [] [sampleJob] _ s (fun _ => by simp [uids])
    hmeets hs).1⟩

/-- The file delivered twice, one delivery after the other: the work that the first one created is
not found, because it is looked for as `["X1"]`. -/
theorem import_distinct_twice :
    ((Runs.exec (step (.plain true)) (start [] [sampleJob, sampleJob])
        [(0, .check), (0, .save), (0, .colors .notCached), (1, .check), (1, .save),
          (1, .colors .notCached)]).map fun s =>
      (s.deliveries.all fun d => d.2.returned, uids s.works))
        = some (true, [some "X1", some "X1"]) := by
  decide +kernel

end ImportWork
end Curarium
