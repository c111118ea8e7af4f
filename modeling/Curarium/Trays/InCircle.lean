import Curarium.Circles.Requests
import Curarium.Trays.Contents

/-!
# `Work#in_circle?`

A work is in a circle if its collection is, or if one of its images is in a tray of the circle. The
trays are asked for the first image of the work only. A work without images asks for `nil`, and the
database answers with the items whose column is `NULL`: those of the annotations.

* `inTrays_iff` — the loop over the trays ends with the answer for all of them.
* `inCircle_eq_some_iff` — so the answer is about the collection and the first image.
* `decides_iff` — the first image has to stand for the others, and no item for an image that is not
  there.
-/

namespace Curarium
namespace Contents

open Tables
open Trays (TrayItem hasId)

/-- The tables, with the rows that put collections into circles. -/
structure Database extends State where
  circleCollections : List Circles.CircleCollection
deriving DecidableEq

namespace Database

variable (db : Database)

/-! ### The method -/

/-- `circle.collections.pluck( :id )`: the rows of the circle joined with the collections. -/
def collectionIds (circle : Nat) : List Nat :=
  (db.circleCollections.filterMap fun r => if r.circleId = some circle then r.collectionId else none).filter
    (· ∈ db.collections)

/-- `collection` -/
def collectionOf (w : Work) : Option Nat := w.collectionId.filter (· ∈ db.collections)

/-- `circle.trays` -/
def traysOf (circle : Nat) : List Tray :=
  db.trays.filter fun t => t.ownerType = some "Circle" ∧ t.ownerId = some circle

/-- `images.first` -/
def firstImage (w : Work) : Option Image := (imagesOf db.images w.id).head?

/-- The loop over the trays, which ends at the first one that has the image. -/
def inTrays (image : Option Image) : List Tray → Bool
  | [] => false
  | t :: ts => if hasId db.items t.id .imageId (image.map Image.id) then true else inTrays image ts

/-- `Work#in_circle?`; `collection.id` raises without a collection. -/
def inCircle (w : Work) (circle : Nat) : Option Bool :=
  (db.collectionOf w).map fun collection =>
    let inCol : Bool := (db.collectionIds circle).contains collection
    inCol || db.inTrays (db.firstImage w) (db.traysOf circle)

/-! ### What it should decide -/

/-- The collection of the work is one of the circle's. -/
def HasCollection (w : Work) (circle : Nat) : Prop :=
  ∃ collection ∈ db.collections, w.collectionId = some collection ∧
    ∃ r ∈ db.circleCollections, r.circleId = some circle ∧ r.collectionId = some collection

/-- An item in a tray of the circle has this in its column for the image. -/
def Shows (circle : Nat) (image : Option Nat) : Prop :=
  ∃ t ∈ db.trays, t.ownerType = some "Circle" ∧ t.ownerId = some circle ∧
    ∃ x ∈ db.items, x.trayId = some t.id ∧ x.imageId = image

/-- `i` is an image of the work. -/
def IsImageOf (w : Work) (i : Image) : Prop := i ∈ db.images ∧ i.workId = some w.id

/-- **The work is in the circle.** -/
def InCircle (w : Work) (circle : Nat) : Prop :=
  db.HasCollection w circle ∨ ∃ i, db.IsImageOf w i ∧ db.Shows circle (some i.id)

/-- The method answers, and the answer is right. -/
def Decides (w : Work) (circle : Nat) : Prop :=
  ∃ answer, db.inCircle w circle = some answer ∧ (answer = true ↔ db.InCircle w circle)

/-- The first image stands for all of them: where one is shown, so is the one with the lowest id. And
nothing stands for an image that the work does not have. -/
structure FirstStands (w : Work) (circle : Nat) : Prop where
  first : ∀ i, db.IsImageOf w i → db.Shows circle (some i.id) →
    ∃ f, db.IsImageOf w f ∧ (∀ j, db.IsImageOf w j → f.id ≤ j.id) ∧ db.Shows circle (some f.id)
  nothing : (∀ i, ¬ db.IsImageOf w i) → ¬ db.Shows circle none

variable {db} {w : Work} {circle : Nat}

/-! ### The answer -/

theorem hasCollection_iff {collection : Nat} (h : db.collectionOf w = some collection) :
    collection ∈ db.collectionIds circle ↔ db.HasCollection w circle := by
  obtain ⟨hw, hthere⟩ := Option.filter_eq_some_iff.mp h
  rw [collectionIds, List.mem_filter, and_iff_left hthere, List.mem_filterMap]
  constructor
  · rintro ⟨r, hr, hrow⟩
    obtain ⟨hcircle, hcollection⟩ := Option.ite_none_right_eq_some.mp hrow
    exact ⟨collection, of_decide_eq_true hthere, hw, r, hr, hcircle, hcollection⟩
  · rintro ⟨other, -, hother, r, hr, hcircle, hcollection⟩
    -- the work has one collection
    obtain rfl := Option.some.inj (hw.symm.trans hother)
    exact ⟨r, hr, Option.ite_none_right_eq_some.mpr ⟨hcircle, hcollection⟩⟩

theorem hasId_iff {tray : Nat} {image : Option Nat} : hasId db.items tray .imageId image = true ↔
    ∃ x ∈ db.items, x.trayId = some tray ∧ x.imageId = image := by
  rw [hasId, decide_eq_true_iff, List.countP_pos_iff]
  refine exists_congr fun x => and_congr_right fun _ => ?_
  rw [Trays.isIn, Bool.and_eq_true, decide_eq_true_iff, decide_eq_true_iff]
  exact Iff.rfl

/-- **The loop over the trays** answers for all of them. -/
theorem inTrays_iff {image : Option Image} {ts : List Tray} :
    db.inTrays image ts = true ↔
      ∃ t ∈ ts, ∃ x ∈ db.items, x.trayId = some t.id ∧ x.imageId = image.map Image.id := by
  induction ts with
  | nil => exact ⟨fun h => absurd h Bool.false_ne_true, fun ⟨_, ht, _⟩ => absurd ht List.not_mem_nil⟩
  | cons t ts ih =>
    rw [inTrays, List.exists_mem_cons_iff, ← ih, ← hasId_iff]
    -- the loop is left at this tray, or goes on as before
    split
    case isTrue h => exact ⟨fun _ => .inl h, fun _ => rfl⟩
    case isFalse h => exact ⟨.inr, fun hor => hor.resolve_left h⟩

theorem inTrays_traysOf_iff {image : Option Image} :
    db.inTrays image (db.traysOf circle) = true ↔ db.Shows circle (image.map Image.id) := by
  rw [inTrays_iff]
  refine exists_congr fun t => ?_
  rw [traysOf, List.mem_filter, decide_eq_true_iff, and_assoc, and_assoc]

/-- **The answer** is about the collection and the first image. -/
theorem inCircle_eq_some_iff {answer : Bool} : db.inCircle w circle = some answer ↔
    (db.collectionOf w).isSome = true ∧
      (answer = true ↔
        db.HasCollection w circle ∨ db.Shows circle ((db.firstImage w).map Image.id)) := by
  rw [inCircle]
  cases hw : db.collectionOf w with
  -- `collection.id` raises
  | none => exact ⟨fun h => absurd h (by simp), fun h => absurd h.1 Bool.false_ne_true⟩
  | some collection =>
    have hanswer : ((db.collectionIds circle).contains collection ||
        db.inTrays (db.firstImage w) (db.traysOf circle)) = true ↔
          db.HasCollection w circle ∨ db.Shows circle ((db.firstImage w).map Image.id) := by
      rw [Bool.or_eq_true, List.contains_iff_mem, hasCollection_iff hw, inTrays_traysOf_iff]
    rw [Option.map_some, Option.some_inj, ← hanswer, Option.isSome_some, and_iff_right rfl, eq_comm,
      Bool.eq_iff_iff]

/-! ### The first image -/

theorem mem_imagesOf {i : Image} : i ∈ imagesOf db.images w.id ↔ db.IsImageOf w i := by
  rw [imagesOf, List.mem_insertionSort, List.mem_filter, decide_eq_true_iff]
  exact Iff.rfl

/-- The images of a work are in the order of their ids, so the first one has the lowest. -/
theorem firstImage_eq_some {f : Image} (h : db.firstImage w = some f) :
    db.IsImageOf w f ∧ ∀ i, db.IsImageOf w i → f.id ≤ i.id := by
  have : Std.Total fun i j : Image => i.id ≤ j.id := ⟨fun i j => Nat.le_total i.id j.id⟩
  have : IsTrans Image fun i j => i.id ≤ j.id := ⟨fun _ _ _ => Nat.le_trans⟩
  have hsorted : (imagesOf db.images w.id).Pairwise fun i j => i.id ≤ j.id :=
    List.pairwise_insertionSort _ _
  refine ⟨mem_imagesOf.mp (List.mem_of_mem_head? h), fun i hi => ?_⟩
  obtain ⟨rest, hlist⟩ := List.head?_eq_some_iff.mp h
  have hmem := mem_imagesOf.mpr hi
  rw [hlist] at hmem hsorted
  rcases List.mem_cons.mp hmem with rfl | hrest
  · exact Nat.le_refl _
  · exact List.rel_of_pairwise_cons hsorted hrest

theorem firstImage_eq_none_iff : db.firstImage w = none ↔ ∀ i, ¬ db.IsImageOf w i := by
  rw [firstImage, List.head?_eq_none_iff, List.eq_nil_iff_forall_not_mem]
  exact forall_congr' fun i => not_congr mem_imagesOf

/-- **The first image stands for the others** exactly if asking for it is asking for them. -/
theorem firstStands_iff : db.FirstStands w circle ↔
    (db.Shows circle ((db.firstImage w).map Image.id) ↔
      ∃ i, db.IsImageOf w i ∧ db.Shows circle (some i.id)) := by
  cases hfirst : db.firstImage w with
  | none =>
    have hnone := firstImage_eq_none_iff.mp hfirst
    constructor
    · exact fun h => ⟨fun hshows => absurd hshows (h.nothing hnone), fun ⟨i, hi, _⟩ => absurd hi (hnone i)⟩
    · intro h
      refine ⟨fun i hi => absurd hi (hnone i), fun _ hshows => ?_⟩
      obtain ⟨i, hi, -⟩ := h.mp hshows
      exact hnone i hi
  | some f =>
    obtain ⟨hf, hlowest⟩ := firstImage_eq_some hfirst
    constructor
    · refine fun h => ⟨fun hshows => ⟨f, hf, hshows⟩, fun ⟨i, hi, hshows⟩ => ?_⟩
      obtain ⟨g, hg, hg_lowest, hg_shows⟩ := h.first i hi hshows
      -- both have the lowest id
      rwa [Nat.le_antisymm (hg_lowest f hf) (hlowest g hg)] at hg_shows
    · intro h
      exact ⟨fun i hi hshows => ⟨f, hf, hlowest, h.mpr ⟨i, hi, hshows⟩⟩, fun hnone => absurd hf (hnone f)⟩

/-! ### When it is decided -/

/-- **When the method decides membership**: the work has a collection, and either this is one of the
circle's or the first image stands for the others. -/
theorem decides_iff (db : Database) (w : Work) (circle : Nat) : db.Decides w circle ↔
    (∃ collection ∈ db.collections, w.collectionId = some collection) ∧
      (db.HasCollection w circle ∨ db.FirstStands w circle) := by
  have hthere : (db.collectionOf w).isSome = true ↔
      ∃ collection ∈ db.collections, w.collectionId = some collection := by
    rw [Option.isSome_iff_exists]
    refine exists_congr fun collection => ?_
    rw [collectionOf, Option.filter_eq_some_iff, decide_eq_true_iff, and_comm]
  rw [← hthere, firstStands_iff, Decides]
  constructor
  · rintro ⟨answer, hanswer, hright⟩
    obtain ⟨hw, htrue⟩ := inCircle_eq_some_iff.mp hanswer
    refine ⟨hw, or_iff_not_imp_left.mpr fun hcollection => ?_⟩
    -- the answer is then about the trays alone
    rw [htrue, InCircle, or_iff_right hcollection, or_iff_right hcollection] at hright
    exact hright
  · rintro ⟨hw, hcase⟩
    classical
    refine ⟨decide (db.InCircle w circle), inCircle_eq_some_iff.mpr ⟨hw, ?_⟩, decide_eq_true_iff⟩
    rw [decide_eq_true_iff, InCircle]
    rcases hcase with hcollection | hfirst
    · exact iff_of_true (.inl hcollection) (.inl hcollection)
    · exact or_congr_right hfirst.symm

/-- A work with two images, and a circle with a tray. -/
def twoImages (items : List TrayItem) : Database where
  users := [1]
  collections := [1]
  circles := [1]
  works := [{ id := 1, collectionId := some 1, title := none }]
  images := [{ id := 1, workId := some 1, imageUrl := none, thumbnailUrl := none },
    { id := 2, workId := some 1, imageUrl := none, thumbnailUrl := none }]
  annotations := []
  trays := [{ id := 1, ownerId := some 1, ownerType := some "Circle", name := none }]
  requests := .idle { items := items, next := 2 }
  circleCollections := []

/-- The second image is in the tray, and the tray is only asked for the first. -/
theorem not_decides_second : ¬ ∀ (db : Database) (w : Work) (circle : Nat), db.Decides w circle := by
  intro hall
  let db := twoImages [{ id := 1, trayId := some 1, imageId := some 2, annotationId := none }]
  let w : Work := { id := 1, collectionId := some 1, title := none }
  obtain ⟨answer, hanswer, hright⟩ := hall db w 1
  have hfalse : db.inCircle w 1 = some false := by decide
  obtain rfl := Option.some.inj (hanswer.symm.trans hfalse)
  have hin : db.InCircle w 1 :=
    .inr ⟨_, ⟨List.mem_cons_of_mem _ List.mem_cons_self, rfl⟩,
      _, List.mem_cons_self, rfl, rfl, _, List.mem_cons_self, rfl, rfl⟩
  exact absurd (hright.mpr hin) Bool.false_ne_true

/-- A work without images: the annotation in the tray is taken for one of them. -/
example : (twoImages [{ id := 1, trayId := some 1, imageId := none, annotationId := some 1 }]).inCircle
    { id := 2, collectionId := some 1, title := none } 1 = some true := by decide

end Database
end Contents
end Curarium
