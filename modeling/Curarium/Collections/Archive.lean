import Curarium.Collections.Admins
import Curarium.Json.Parse
import Curarium.Library.Lists
import Curarium.Ruby.Pathname
import Mathlib.Data.List.Infix

/-!
# The upload of an archive

`CollectionsController#create` saves a collection and then goes through the archive that came with it:
every entry is extracted to the directory of the collection, and if its path looks like that of a JSON
file, it is read, parsed and made a work. What goes wrong after the extraction is rescued and logged;
what goes wrong in the extraction ends the loop, and the collection stays with the works it has.

* `extractAll` is the loop, with the paths that were written and the works that were created.
* `importsRecords_iff` — every record of the archive becomes a work, and nothing else does, exactly if
  no record comes after an extraction that raises, and the test of the code agrees with the names.

Extraction is up to `rubyzip`, and what the database can store and `to_json` are parameters.
-/

namespace Curarium
namespace Collections

open Ruby

/-! ### Archives -/

/-- A symbolic link has no target here: where a file lies is told by the text of its path, with `.` and `..`
resolved, whatever the links in it point to. -/
inductive EntryType where
  | file
  | directory
  | symlink
deriving DecidableEq

/-- What `extract` does: it writes to its path, it raises before it has written, or after. -/
inductive Extraction where
  | done
  | refused
  | broken
deriving DecidableEq

/-- An entry of a ZIP archive. Its content is what `IO.read` returns for its path once it is extracted; a
directory cannot be read. -/
structure Entry where
  name : List Char
  type : EntryType
  content : Option String
  extraction : Extraction
deriving DecidableEq

/-- What `create` sets in a row of `works`. -/
structure ArchiveWork where
  resourceName : List Char
  original : String
deriving DecidableEq

/-- What the loop has done: the paths that were written to as files, and the works. -/
structure Extracted where
  written : List (List Part)
  works : List ArchiveWork
deriving DecidableEq

/-! ### The loop -/

/-- `json_file_path.to_s.downcase =~ /\.json/ && !json_file_path.to_s.include?( '__MACOSX' )` -/
def looksJson (path : List Part) : Bool :=
  ".json".toList <:+: downcase (pathText path) && !("__MACOSX".toList <:+: pathText path)

section Loop

variable (toJson : Json → String) (storable : ArchiveWork → Bool) (d : Directory)

/-- The work of an entry whose content is JSON: it is parsed and printed again. -/
def workOf (e : Entry) : Option ArchiveWork :=
  (e.content.bind Json.parse).map fun j => { resourceName := e.name, original := toJson j }

/-- What is written to as a file. -/
def writtenBy (e : Entry) : Option (List Part) :=
  if e.type = .directory ∨ e.extraction = .refused then none else d.join e.name

/-- What becomes of an entry once it is extracted: `@collection.works.create`, if nothing raises. -/
def createdFrom (e : Entry) : Option ArchiveWork :=
  (d.join e.name).bind fun path =>
    if looksJson path then (workOf toJson e).filter storable else none

/-- `entry.extract` does not raise, nor does the path before it. -/
def extracts (e : Entry) : Bool := (d.join e.name).isSome && e.extraction = .done

/-- `zip_file.each`. An extraction that raises ends it. -/
def extractAll : List Entry → Extracted
  | [] => ⟨[], []⟩
  | e :: es =>
    if extracts d e then
      { written := (writtenBy d e).toList ++ (extractAll es).written
        works := (createdFrom toJson storable d e).toList ++ (extractAll es).works }
    else { written := (writtenBy d e).toList, works := [] }

end Loop

/-! ### The action -/

/-- The directory of a collection: `Rails.root.join 'db', 'collection_data', @collection.id.to_s` -/
def collectionPath (root : Directory) (id : Nat) : Directory where
  parts := root.parts ++ ["db".toList, "collection_data".toList, Nat.toDigits 10 id]
  clean := by
    -- a number has no dots
    have hid : ∀ q ∈ Nat.toDigits 10 id, q ≠ '.' := by
      rintro q hq rfl
      exact absurd (isDigit_toDigits hq) (by decide)
    intro p hp
    rcases List.mem_append.mp hp with hp | hp
    · exact root.clean p hp
    · simp only [List.mem_cons, List.not_mem_nil, or_false] at hp
      rcases hp with rfl | rfl | rfl
      · decide
      · decide
      · constructor
        · intro h
          exact hid '.' (h ▸ List.mem_singleton_self _) rfl
        · intro h
          exact hid '.' (h ▸ List.mem_cons_self) rfl

section Action

variable {C : Type} (toJson : Json → String) (storable : ArchiveWork → Bool)

/-- The collection that is saved: `Collection.new`, with the configuration that `init` gives it, for a
user who is signed in. -/
def newCollection (s : Store C) (current : Option Nat) (p : Params C) (initial : C) : Option (Collection C) :=
  current.bind fun _ =>
    let c := p.assign
      { id := s.next, name := none, description := none, source := none, approved := none
        configuration := initial, coverId := none }
    if valid s c then some c else none

/-- `CollectionsController#create`: the collection that is stored, if one is, and what has become of the
archive. -/
def create (root : Directory) (s : Store C) (current : Option Nat) (p : Params C) (initial : C)
    (entries : List Entry) : Option (Collection C × Extracted) :=
  (newCollection s current p initial).map fun c =>
    (c, extractAll toJson storable (collectionPath root c.id) entries)

end Action

/-! ### Records -/

section Records

variable (toJson : Json → String) (storable : ArchiveWork → Bool)

/-- The name ends in `.json`, and no directory in it is `__MACOSX`. -/
def namesRecord (name : List Char) : Bool :=
  ".json".toList <:+ downcase name && !(name.splitOn '/').contains "__MACOSX".toList

/-- The work that a record of the archive should become. -/
def record (e : Entry) : Option ArchiveWork := if namesRecord e.name then workOf toJson e else none

/-- The stored collection has one work for each record, and no others. -/
def ImportsRecords {C : Type} (entries : List Entry) (stored : Option (Collection C × Extracted)) : Prop :=
  ∀ c x, stored = some (c, x) → x.works.Perm (entries.filterMap (record toJson))

/-- The test of the code on the path of an entry. -/
def looksLikeRecord (d : Directory) (e : Entry) : Bool := (d.join e.name).any looksJson

/-- When the loop imports the records: with `d` for the directory of the collection. -/
structure Imports (d : Directory) (entries : List Entry) : Prop where
  /-- No record is at the extraction that raises, or behind it. -/
  reached : ∀ e ∈ entries.dropWhile (extracts d), record toJson e = none
  /-- A record passes the test, and can be stored. -/
  taken : ∀ e ∈ entries.takeWhile (extracts d), ∀ w, record toJson e = some w →
    looksLikeRecord d e = true ∧ storable w = true
  /-- What passes the test, has content and can be stored is named like a record. -/
  only : ∀ e ∈ entries.takeWhile (extracts d), looksLikeRecord d e = true →
    ∀ w, workOf toJson e = some w → storable w = true → namesRecord e.name = true

variable {toJson storable} {d : Directory}

theorem works_extractAll (entries : List Entry) :
    (extractAll toJson storable d entries).works =
      (entries.takeWhile (extracts d)).filterMap (createdFrom toJson storable d) := by
  induction entries with
  | nil => rfl
  | cons e es ih =>
    rw [extractAll, List.takeWhile_cons]
    split
    case isTrue =>
      rw [List.filterMap_cons, ← ih]
      cases createdFrom toJson storable d e with
      | none => rfl
      | some w => rfl
    case isFalse => rfl

theorem createdFrom_eq_some_iff {e : Entry} {w : ArchiveWork} :
    createdFrom toJson storable d e = some w ↔
      looksLikeRecord d e = true ∧ workOf toJson e = some w ∧ storable w = true := by
  unfold createdFrom looksLikeRecord
  cases d.join e.name with
  | none => simp
  | some path =>
    rw [Option.bind_some, Option.any_some, Option.ite_none_right_eq_some, Option.filter_eq_some_iff]

/-- The name of a work is that of its entry. -/
theorem resourceName_of_workOf {e : Entry} {w : ArchiveWork} (h : workOf toJson e = some w) :
    w.resourceName = e.name := by
  obtain ⟨j, -, rfl⟩ := Option.map_eq_some_iff.mp h
  rfl

theorem record_eq_some_iff {e : Entry} {w : ArchiveWork} :
    record toJson e = some w ↔ namesRecord e.name = true ∧ workOf toJson e = some w :=
  Option.ite_none_right_eq_some

/-- What is created is a record if it is one of the works of the records: its name is that of one. -/
theorem record_of_createdFrom {entries : List Entry} {e : Entry} {w : ArchiveWork}
    (hw : createdFrom toJson storable d e = some w) (hmem : w ∈ entries.filterMap (record toJson)) :
    record toJson e = some w := by
  obtain ⟨e', -, hw'⟩ := List.mem_filterMap.mp hmem
  obtain ⟨hname, hwork'⟩ := record_eq_some_iff.mp hw'
  obtain ⟨-, hwork, -⟩ := createdFrom_eq_some_iff.mp hw
  rw [← resourceName_of_workOf hwork', resourceName_of_workOf hwork] at hname
  exact record_eq_some_iff.mpr ⟨hname, hwork⟩

/-- **The loop imports the records** exactly in the cases of `Imports`. -/
theorem works_perm_iff (entries : List Entry) :
    (extractAll toJson storable d entries).works.Perm (entries.filterMap (record toJson)) ↔
      Imports toJson storable d entries := by
  obtain ⟨before, hbefore⟩ : ∃ before, before = entries.takeWhile (extracts d) := ⟨_, rfl⟩
  obtain ⟨behind, hbehind⟩ : ∃ behind, behind = entries.dropWhile (extracts d) := ⟨_, rfl⟩
  have hsplit : entries.filterMap (record toJson) =
      before.filterMap (record toJson) ++ behind.filterMap (record toJson) := by
    rw [← List.filterMap_append, hbefore, hbehind, List.takeWhile_append_dropWhile]
  rw [works_extractAll, hsplit, ← hbefore]
  constructor
  · intro hperm
    have hrecord : ∀ e ∈ before, ∀ w, createdFrom toJson storable d e = some w → record toJson e = some w := by
      intro e he w hw
      have hmem := hperm.subset (List.mem_filterMap.mpr ⟨e, he, hw⟩)
      rw [← hsplit] at hmem
      exact record_of_createdFrom hw hmem
    -- so no record is missing before the loop ends, and none is behind
    obtain ⟨hle, heq⟩ := Lists.filterMap_subset hrecord
    have hlen := hperm.length_eq
    rw [List.length_append] at hlen
    have hagree := heq (by omega)
    have hnone : behind.filterMap (record toJson) = [] := List.length_eq_zero_iff.mp (by omega)
    refine ⟨?_, ?_, ?_⟩
    · rw [← hbehind]
      exact List.filterMap_eq_nil_iff.mp hnone
    · rw [← hbefore]
      intro e he w hw
      rw [← hagree e he] at hw
      obtain ⟨hlooks, -, hstorable⟩ := createdFrom_eq_some_iff.mp hw
      exact ⟨hlooks, hstorable⟩
    · rw [← hbefore]
      intro e he hlooks w hw hstorable
      have hcreated := createdFrom_eq_some_iff.mpr ⟨hlooks, hw, hstorable⟩
      rw [hagree e he] at hcreated
      exact (record_eq_some_iff.mp hcreated).1
  · rintro ⟨hreached, htaken, honly⟩
    rw [← hbehind] at hreached
    rw [← hbefore] at htaken honly
    rw [List.filterMap_eq_nil_iff.mpr hreached, List.append_nil]
    have hcongr : before.filterMap (createdFrom toJson storable d) = before.filterMap (record toJson) := by
      refine List.filterMap_congr fun e he => Option.ext fun w => ?_
      rw [createdFrom_eq_some_iff, record_eq_some_iff]
      constructor
      · rintro ⟨hlooks, hw, hstorable⟩
        exact ⟨honly e he hlooks w hw hstorable, hw⟩
      · rintro ⟨hname, hw⟩
        obtain ⟨hlooks, hstorable⟩ := htaken e he w (record_eq_some_iff.mpr ⟨hname, hw⟩)
        exact ⟨hlooks, hw, hstorable⟩
    rw [hcongr]

end Records

/-- **An upload imports every record or nothing** exactly if no collection is saved, or every record
comes before the first extraction that raises, and up to there the test of the code agrees with the
names of the entries. -/
theorem importsRecords_iff {C : Type} (toJson : Json → String) (storable : ArchiveWork → Bool)
    (root : Directory) (s : Store C) (current : Option Nat) (p : Params C) (initial : C)
    (entries : List Entry) :
    ImportsRecords toJson entries (create toJson storable root s current p initial entries) ↔
      ∀ c, newCollection s current p initial = some c →
        Imports toJson storable (collectionPath root c.id) entries := by
  unfold ImportsRecords create
  constructor
  · intro h c hc
    rw [hc] at h
    exact (works_perm_iff entries).mp (h _ _ rfl)
  · intro h c x hx
    obtain ⟨c', hc', heq⟩ := Option.map_eq_some_iff.mp hx
    obtain ⟨rfl, rfl⟩ := Prod.mk.inj heq
    exact (works_perm_iff entries).mpr (h _ hc')

/-- No collections, and a user. -/
def emptyStore : Store Unit where
  users := [1]
  collectionAdmins := []
  collections := []
  next := 1
  works := []
  queue := []

/-- What is filled in for a new collection. -/
def newParams : Params Unit :=
  { name := some (some "c"), description := some (some "d"), configuration := none
    source := some (some "s"), approved := none, coverId := none }

/-- A name that comes twice: the second extraction raises, and a record behind it is lost. -/
theorem duplicate_name_ends_import :
    ¬ ImportsRecords (fun _ => "[]")
      [⟨"a.json".toList, .file, some "[]", .done⟩, ⟨"a.json".toList, .file, some "[]", .refused⟩,
        ⟨"b.json".toList, .file, some "[]", .done⟩]
      (create (fun _ => "[]") (fun _ => true) ⟨[], fun _ h => absurd h List.not_mem_nil⟩ emptyStore (some 1)
        newParams ()
        [⟨"a.json".toList, .file, some "[]", .done⟩, ⟨"a.json".toList, .file, some "[]", .refused⟩,
          ⟨"b.json".toList, .file, some "[]", .done⟩]) := by
  intro h
  have hlen := (h _ _ rfl).length_eq
  exact absurd hlen (by decide +kernel)

end Collections
end Curarium
