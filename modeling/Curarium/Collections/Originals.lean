import Curarium.Collections.Archive
import Curarium.Json.Generate
import Curarium.Workers.Reimport

/-!
# The originals of an upload

`CollectionsController#create` parses every record of the archive and prints it again before it stores it,
"validate & minify". From then on only the printed text is there: a reconfiguration reads it.

* `exists_readsAs` — the text of every work that an upload creates is read again, as the document of the
  record but for its infinities, it is its own minified text, and every configuration extracts from it what
  it extracts from the document.
-/

namespace Curarium
namespace Collections

open Ruby ImportWork ConfigureWork

variable {D : Type} {storable : ArchiveWork → Bool} {d : Directory} {entries : List Entry} {w : ArchiveWork}

/-- The work was made from a record with this document, and is read as it. -/
structure ReadsAs (D : Type) (entries : List Entry) (w : ArchiveWork) (j : Json) : Prop where
  /-- The document is that of an entry. -/
  record : ∃ e ∈ entries, e.name = w.resourceName ∧ e.content.bind Json.parse = some j
  /-- The stored text is read with `nil` for the infinities. -/
  read : Json.parse w.original = some j.settle
  /-- It is read as the document exactly if no number of it is infinite. -/
  same : Json.parse w.original = some j ↔ j.isFinite = true
  /-- Minified once more, it is the same text. -/
  again : (Json.parse w.original).map Json.toJson = some w.original
  /-- A reconfiguration finds in it what it would find in the document. -/
  configured : ∀ c, configuredParsed c (uploaded w.original : Record D) = c.parse j.settle

theorem readsAs_of_workOf {e : Entry} (he : e ∈ entries) (hw : workOf Json.toJson e = some w) :
    ∃ j, ReadsAs D entries w j := by
  obtain ⟨j, hj, rfl⟩ := Option.map_eq_some_iff.mp hw
  obtain ⟨text, -, hparse⟩ := Option.bind_eq_some_iff.mp hj
  have hread := parse_toJson hparse
  refine ⟨j, ⟨e, he, rfl, hj⟩, hread, parse_toJson_iff hparse, ?_, fun c => configuredParsed_uploaded c hread⟩
  show (Json.parse j.toJson).map Json.toJson = some j.toJson
  rw [hread, Option.map_some, toJson_settle]

/-- **What an upload stores can be read again.** The text of every work it creates is read as the document
of its record, with `nil` for a number that was too large, and printed again it does not change. -/
theorem exists_readsAs (hw : w ∈ (extractAll Json.toJson storable d entries).works) :
    ∃ j, ReadsAs D entries w j := by
  rw [works_extractAll, List.mem_filterMap] at hw
  obtain ⟨e, he, hcreated⟩ := hw
  exact readsAs_of_workOf (List.takeWhile_subset _ he) (createdFrom_eq_some_iff.mp hcreated).2.1

/-- A record with a number that is too large, and a character that is escaped. -/
def oversized : Entry := ⟨"a.json".toList, .file, some "[ 1e999, \"<\" ] ", .done⟩

/-- It is stored as `[null,"\u003c"]`. -/
theorem exists_readsAs_oversized :
    ∃ j, ReadsAs String [oversized] ⟨"a.json".toList, "[null,\"\\u003c\"]"⟩ j :=
  @exists_readsAs String (fun _ => true) ⟨[], fun _ h => absurd h List.not_mem_nil⟩ [oversized] _
    (by decide +kernel)

end Collections
end Curarium
