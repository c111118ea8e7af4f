import Curarium.Workers.Configure
import Curarium.Workers.Import
import Curarium.Collection.Stray

/-!
# Reconfiguring an imported work

A work gets its `original` in two ways. An upload stores the text of the document, as `to_json` writes
it. `ImportWork` hands the parsed document itself to the model, and what ActiveRecord makes of a hash
in a `text` column is no JSON, if it takes it at all. `ConfigureWork` reads `original` as a text.

* `configuredParsed_uploaded` — an uploaded work is read as its document.
* `configuredParsed_of_unreadable` — from a text that is no JSON nothing is extracted.
* `reconfigured_iff` — so an imported work can be reconfigured exactly when it was stored and the new
  configuration extracts nothing from its document.
-/

namespace Curarium

open Work

variable {D : Type} (A : Adapter D)

namespace ImportWork

/-- The row that `ImportWork#perform` creates. Where the colours raise, the work is there without
them. -/
def imported (j : Job) (thumb : Thumb) : Option (Record D) :=
  (store A j newRow).map fun w => ((updateColors A thumb w).getD w).row

end ImportWork

namespace ConfigureWork

/-- The hash `parsed` that `ConfigureWork#perform` assigns, with all its fields. -/
def configuredParsed (c : Configuration) (row : Record D) : List (String × Option (List Json)) :=
  c.parse row.document

end ConfigureWork

open ImportWork ConfigureWork

/-- An imported work is there, and read again it is read as its document. -/
def Reconfigures (c c' : Configuration) (d : Json) (thumb : Thumb) : Prop :=
  ∃ row, imported A ⟨c, d⟩ thumb = some row ∧ configuredParsed c' row = c'.parse d

/-! ### What is read again -/

theorem parse_congr {c : Configuration} {s d : Json}
    (h : ∀ path, Collection.followJson s path = Collection.followJson d path) : c.parse s = c.parse d :=
  List.map_congr_left fun f _ => by rw [h]

/-- **An uploaded work is read as its document.** -/
theorem configuredParsed_uploaded (c : Configuration) {text : String} {d : Json}
    (h : Json.parse text = some d) :
    configuredParsed c (uploaded text : Record D) = c.parse d := by
  refine parse_congr fun path => ?_
  cases path with
  | steps p => exact Collection.followSteps_of_load (s := .str text) h p
  | text s => rfl
  | nil => rfl

/-- **From a text that is no JSON** nothing is extracted. -/
theorem followJson_of_unreadable {text : String} (h : Json.parse text = none)
    (path : Collection.PathArg) : Collection.followJson (.str text) path = none := by
  cases path with
  | steps p =>
    cases p with
    | nil => rfl
    | cons k p =>
      have hdescend : Collection.descend (.str text) k = none := by
        show (Json.parse text).bind _ = none
        rw [h, Option.bind_none]
      exact Collection.followSteps_of_descend_none hdescend p
  | text s => rfl
  | nil => rfl

/-- What was extracted is nothing exactly if every field is nil. -/
theorem parse_unreadable_iff {c : Configuration} {d : Json} {text : String}
    (h : Json.parse text = none) :
    c.parse (.str text) = c.parse d ↔ ∀ f ∈ c.fields, Collection.followJson d f.2 = none := by
  rw [Configuration.parse, Configuration.parse, List.map_inj_left]
  refine forall₂_congr fun f _ => ?_
  rw [followJson_of_unreadable h, Prod.mk.injEq, and_iff_right rfl]
  exact eq_comm

/-! ### The imported work -/

/-- The colours do not touch the original. -/
theorem updateColors_original {thumb : Thumb} {y : Yield D} {row : Record D}
    {parsed : List (String × Option (List Json))} (h : yieldOf A parsed = some y) :
    ((updateColors A thumb (y.work A row)).getD (y.work A row)).row.original = row.original := by
  rcases thumb with _ | _ | ⟨_ | ⟨c, cs⟩⟩
  · rfl
  · rfl
  · rfl
  · rw [updateColors, save_assignColors A h]
    rfl

/-- **What an import stores**: the document as it is bound, if the save goes through. -/
theorem imported_iff (j : ImportWork.Job) (thumb : Thumb) :
    ((imported A j thumb).isSome = true ↔
      (A.bind .original j.original).isSome = true ∧ (yieldOf A j.parsed).isSome = true) ∧
    ∀ row, imported A j thumb = some row → row.original = A.bind .original j.original := by
  rw [imported, store]
  cases hbind : A.bind .original j.original with
  | none => simp
  | some text =>
    rw [Option.bind_some, save_assigned]
    cases hy : yieldOf A j.parsed with
    | none => simp
    | some y =>
      refine ⟨by simp, ?_⟩
      rintro row hrow
      obtain rfl := Option.some.inj hrow
      exact updateColors_original A hy

/-- **Where an imported work can be reconfigured.** `A.bind` is what ActiveRecord stores for the
document; it is no JSON. An import with `c` and a job with `c'` on the work it created read the
document under `c'` exactly when the document was not refused, the save of the import went through,
and no field of `c'` extracts anything from the document. A work that was uploaded as the text that
`to_json` wrote for the document is always read under `c'`. -/
theorem reconfigured_iff (c c' : Configuration) (d : Json) (thumb : Thumb)
    (hbind : ∀ text, A.bind .original d = some text → Json.parse text = none) :
    (Reconfigures A c c' d thumb ↔
      (A.bind .original d).isSome = true ∧ (yieldOf A (c.parse d)).isSome = true ∧
        ∀ f ∈ c'.fields, Collection.followJson d f.2 = none) ∧
    ∀ toJson : Json → String, Json.parse (toJson d) = some d →
      configuredParsed c' (uploaded (toJson d) : Record D) = c'.parse d := by
  refine ⟨?_, fun toJson hjson => configuredParsed_uploaded c' hjson⟩
  obtain ⟨hexists, horiginal⟩ := imported_iff A ⟨c, d⟩ thumb
  constructor
  · rintro ⟨row, hrow, hparsed⟩
    obtain ⟨hsome, hyield⟩ := hexists.mp (Option.isSome_of_eq_some hrow)
    refine ⟨hsome, hyield, ?_⟩
    obtain ⟨text, htext⟩ := Option.isSome_iff_exists.mp hsome
    -- the job reads what was bound, which is no JSON
    rw [configuredParsed, Record.document, horiginal row hrow, htext] at hparsed
    exact (parse_unreadable_iff (hbind text htext)).mp hparsed
  · rintro ⟨hsome, hyield, hnone⟩
    obtain ⟨row, hrow⟩ := Option.isSome_iff_exists.mp (hexists.mpr ⟨hsome, hyield⟩)
    obtain ⟨text, htext⟩ := Option.isSome_iff_exists.mp hsome
    refine ⟨row, hrow, ?_⟩
    rw [configuredParsed, Record.document, horiginal row hrow, htext]
    exact (parse_unreadable_iff (hbind text htext)).mpr hnone

/-- A document with a title. -/
def titled : Json := .obj [("title", .str "a")]

/-- The field `author` has nothing in the document to read from, and nothing is lost. -/
theorem reconfigured_author :
    Reconfigures (.plain false) (oneField "title" [.str "title"]) (oneField "author" [.str "author"])
      titled .notCached := by
  refine (reconfigured_iff (.plain false) (oneField "title" [.str "title"])
    (oneField "author" [.str "author"]) titled .notCached ?_).1.mpr ⟨rfl, by decide +kernel, by decide⟩
  intro text htext
  obtain rfl := Option.some.inj htext
  decide +kernel

/-- Imported and reconfigured with the same configuration, the work loses its title. -/
theorem reconfigured_title :
    ¬Reconfigures (.plain false) (oneField "title" [.str "title"]) (oneField "title" [.str "title"])
      titled .notCached := by
  rintro ⟨row, hrow, hparsed⟩
  have hread : (imported (.plain false) ⟨oneField "title" [.str "title"], titled⟩ .notCached).map
      (configuredParsed (oneField "title" [.str "title"])) = some [("title", none)] := by decide +kernel
  rw [hrow, Option.map_some, hparsed] at hread
  exact absurd (Option.some.inj hread) (by decide)

end Curarium
