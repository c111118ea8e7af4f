import Curarium.Collections.Archive

/-!
# Where an archive is extracted to

The entries of an archive are extracted to their names, joined to the directory of the collection. A name
is any text, and neither `create` nor `extract` looks at it: what is written is where the path leads.

* `written_extractAll` — the paths that are written are those of the entries up to the first that
  cannot be extracted, and this one if it breaks off.
* `staysInside_iff` — they are all below the directory exactly if each of these names, after going up,
  goes down the same way again, and further.
-/

namespace Curarium
namespace Collections

open Ruby

section Written

variable {toJson : Json → String} {storable : ArchiveWork → Bool} {d : Directory}

/-- The entries that the loop tries to extract. -/
def attempted (d : Directory) (entries : List Entry) : List Entry :=
  entries.takeWhile (extracts d) ++ (entries.dropWhile (extracts d)).take 1

theorem written_extractAll (entries : List Entry) :
    (extractAll toJson storable d entries).written = (attempted d entries).filterMap (writtenBy d) := by
  have htoList : ∀ e, (writtenBy d e).toList = [e].filterMap (writtenBy d) := by
    intro e
    rw [List.filterMap_cons]
    cases writtenBy d e with
    | none => rfl
    | some path => rfl
  -- the first entry that cannot be extracted is the last that is tried
  induction entries with
  | nil => rfl
  | cons e es ih =>
    unfold attempted at ih ⊢
    rw [extractAll, List.takeWhile_cons, List.dropWhile_cons, htoList]
    split
    case isTrue => rw [ih, ← List.filterMap_append, List.singleton_append, List.cons_append]
    case isFalse => rw [List.nil_append, List.take_succ_cons, List.take_zero]

end Written

/-- Every file that is written is below the directory of the collection. -/
def StaysInside {C : Type} (root : Directory) (stored : Option (Collection C × Extracted)) : Prop :=
  ∀ c x, stored = some (c, x) → ∀ path ∈ x.written, Under (collectionPath root c.id).parts (resolve path)

/-- A name that, after going up from a directory, goes down the same way again, and further. A name that
cannot be made a path leads nowhere. -/
def ComesBack (d : Directory) (name : List Char) : Prop :=
  ∀ p, Pathname.new name = some p → Under (d.parts.drop (d.parts.length - p.ups d)) p.downs

theorem forall_writtenBy_iff {d : Directory} {e : Entry} :
    (∀ path, writtenBy d e = some path → Under d.parts (resolve path)) ↔
      (e.type ≠ .directory → e.extraction ≠ .refused → ComesBack d e.name) := by
  unfold writtenBy ComesBack
  rw [← and_imp, ← not_or]
  by_cases h : e.type = .directory ∨ e.extraction = .refused
  · -- nothing is written
    rw [if_pos h]
    constructor
    · exact fun _ hn => absurd h hn
    · intro _ path hpath
      cases hpath
  rw [if_neg h]
  cases hp : Pathname.new e.name with
  | none =>
    -- the name has a null byte, and there is no path for it
    have hjoin : d.join e.name = none := by
      unfold Directory.join
      rw [hp, Option.map_none]
    rw [hjoin]
    constructor
    · intro _ _ p hp
      cases hp
    · intro _ path hpath
      cases hpath
  | some p =>
    obtain ⟨path, hjoin⟩ : ∃ path, d.join e.name = some path := by
      unfold Directory.join
      rw [hp]
      exact ⟨_, rfl⟩
    rw [hjoin]
    constructor
    · intro hunder _ p' hp'
      obtain rfl := Option.some.inj hp'
      exact (under_join_iff hp hjoin).mp (hunder path rfl)
    · intro hback path' hpath'
      obtain rfl := Option.some.inj hpath'
      exact (under_join_iff hp hjoin).mpr (hback h p rfl)

/-- **An extraction stays inside the directory of the collection** exactly if no name leads out of it, of
those that are extracted and not directories. -/
theorem staysInside_iff {C : Type} (toJson : Json → String) (storable : ArchiveWork → Bool)
    (root : Directory) (s : Store C) (current : Option Nat) (p : Params C) (initial : C)
    (entries : List Entry) :
    StaysInside root (create toJson storable root s current p initial entries) ↔
      ∀ c, newCollection s current p initial = some c →
        ∀ e ∈ attempted (collectionPath root c.id) entries, e.type ≠ .directory → e.extraction ≠ .refused →
          ComesBack (collectionPath root c.id) e.name := by
  unfold StaysInside create
  -- the files of one collection, entry by entry
  have hwritten : ∀ c : Collection C,
      (∀ path ∈ (extractAll toJson storable (collectionPath root c.id) entries).written,
        Under (collectionPath root c.id).parts (resolve path)) ↔
      ∀ e ∈ attempted (collectionPath root c.id) entries, e.type ≠ .directory → e.extraction ≠ .refused →
        ComesBack (collectionPath root c.id) e.name := by
    intro c
    rw [written_extractAll]
    constructor
    · intro h e he
      exact forall_writtenBy_iff.mp fun path hpath => h path (List.mem_filterMap.mpr ⟨e, he, hpath⟩)
    · intro h path hpath
      obtain ⟨e, he, hpath⟩ := List.mem_filterMap.mp hpath
      exact forall_writtenBy_iff.mpr (h e he) path hpath
  constructor
  · intro h c hc
    rw [hc] at h
    exact (hwritten c).mp (h _ _ rfl)
  · intro h c x hx
    obtain ⟨c', hc', heq⟩ := Option.map_eq_some_iff.mp hx
    obtain ⟨rfl, rfl⟩ := Prod.mk.inj heq
    exact (hwritten c').mpr (h c' hc')

/-- An absolute name replaces the directory, and another one goes up from it. -/
theorem names_lead_out :
    ¬ StaysInside ⟨[], fun _ h => absurd h List.not_mem_nil⟩
      (create (fun _ => "[]") (fun _ => true) ⟨[], fun _ h => absurd h List.not_mem_nil⟩ emptyStore (some 1)
        newParams ()
        [⟨"/etc/a".toList, .file, none, .done⟩, ⟨"../../../config/a".toList, .file, none, .done⟩]) := by
  intro h
  have hunder := h _ _ rfl ["etc".toList, "a".toList] (by decide +kernel)
  exact absurd hunder (by decide +kernel)

end Collections
end Curarium
