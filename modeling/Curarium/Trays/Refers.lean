import Curarium.Trays.Requests

/-!
# What a tray item refers to

An item has an image or an annotation, and not both. `create` and `move` keep it so; `copy` writes
the image of the source and nothing else, so that the copy of an annotation refers to nothing.

* `Write.refersToOne` — every write other than a copy keeps the items referring to one thing.
* `faithful_iff` — one step does what it should exactly when a copy it makes is of an image.
* `always_faithful_iff` — the same for whole runs.
-/

namespace Curarium
namespace Trays

open Tables Runs

/-- **Exactly one of the two columns is set.** -/
def TrayItem.RefersToOne (x : TrayItem) : Prop := x.imageId.isSome = !x.annotationId.isSome

instance (x : TrayItem) : Decidable x.RefersToOne :=
  inferInstanceAs (Decidable (x.imageId.isSome = !x.annotationId.isSome))

/-- The item after a move: only its tray may differ, and that of no other item. -/
def MovedTo (id : Nat) (x y : TrayItem) : Prop :=
  y.id = x.id ∧ y.imageId = x.imageId ∧ y.annotationId = x.annotationId ∧ (x.id ≠ id → y = x)

/-- What a step should do. -/
structure Faithful (db : Records) (s : State) (e : Event) (t : State) : Prop where
  one : ∀ x ∈ t.table.items, x.RefersToOne
  move : ∀ id tip, e = .move id tip → List.Forall₂ (MovedTo id) s.table.items t.table.items
  copy : ∀ id tip x tray, e = .copy id tip → find TrayItem.id id s.table.items = some x →
    db.findTray tip.trayId = some tray →
      ∃ y, t.table.items = s.table.items ++ [y] ∧ y.trayId = some tray ∧
        y.imageId = x.imageId ∧ y.annotationId = x.annotationId

/-- The condition on a step: an item that is copied has an image, and the image is there. -/
def CopiesImage (db : Records) (s : State) : Event → Prop
  | .copy id tip => ∀ x, find TrayItem.id id s.table.items = some x →
      (db.findTray tip.trayId).isSome = true → (db.image x).isSome = true
  | _ => True

theorem refersToOne_createRef {s : Table} (hs : ∀ x ∈ s.items, x.RefersToOne) (tray id : Nat)
    (k : Column) : ∀ x ∈ (s.createRef tray id k).items, x.RefersToOne := by
  cases k with
  | imageId => exact List.forall_mem_append.mpr ⟨hs, List.forall_mem_singleton.mpr rfl⟩
  | annotationId => exact List.forall_mem_append.mpr ⟨hs, List.forall_mem_singleton.mpr rfl⟩

/-- **Every write other than a copy** keeps the items referring to one thing. -/
theorem Write.refersToOne {db : Records} {s t : Table} {e : Event} (h : Write db s e t)
    (he : ∀ id tip, e ≠ .copy id tip) (hs : ∀ x ∈ s.items, x.RefersToOne) :
    ∀ x ∈ t.items, x.RefersToOne := by
  cases h with
  | none => exact hs
  | moved hx htray =>
    intro y hy
    obtain ⟨x, hmem, rfl⟩ := mem_update.mp hy
    -- the two columns are those of the row before the update
    split
    · exact hs x hmem
    · exact hs x hmem
  | copied hx htray => exact absurd rfl (he _ _)
  | deleted p => exact fun x hx => hs x (List.mem_of_mem_filter hx)
  | inserted tray k => exact refersToOne_createRef hs tray _ k

/-- A move changes the tray of the moved item and nothing else. -/
theorem forall₂_movedTo (db : Records) (s : Table) (id : Nat) (tip : Params) :
    List.Forall₂ (MovedTo id) s.items (move db s id tip).items := by
  rw [move]
  split
  · rw [Tables.update, List.forall₂_map_right_iff, List.forall₂_same]
    intro x _
    split
    · next h => exact ⟨rfl, rfl, rfl, fun hne => absurd h hne⟩
    · exact ⟨rfl, rfl, rfl, fun _ => rfl⟩
  · exact List.forall₂_same.mpr fun x _ => ⟨rfl, rfl, rfl, fun _ => rfl⟩

/-- An image that is there is the one the column names. -/
theorem imageId_of_image {db : Records} {x : TrayItem} {im : Nat} (h : db.image x = some im) :
    x.imageId = some im :=
  (Option.filter_eq_some_iff.mp h).1

/-- What a copy writes, of an item and a tray that are there: a row with the image alone. -/
theorem copy_items {db : Records} {s : Table} {id tray : Nat} {tip : Params} {x : TrayItem}
    (hx : Tables.find TrayItem.id id s.items = some x) (htray : db.findTray tip.trayId = some tray) :
    (copy db s id tip).items = s.items ++
      [{ id := s.next, trayId := some tray, imageId := db.image x, annotationId := none }] := by
  rw [copy, hx, htray]
  rfl

theorem faithful_copy_iff {db : Records} {s t : State} {id : Nat} {tip : Params}
    (hs : ∀ x ∈ s.table.items, x.RefersToOne) (h : step db s (.copy id tip) = some t) :
    Faithful db s (.copy id tip) t ↔ CopiesImage db s (.copy id tip) := by
  obtain rfl := Option.some.inj h
  constructor
  · intro hf x hx htray
    obtain ⟨tray, htray⟩ := Option.isSome_iff_exists.mp htray
    obtain ⟨y, hy, -, himage, hnote⟩ := hf.copy id tip x tray rfl hx htray
    -- the new row has the image of the source, and no annotation
    obtain rfl := List.singleton_inj.mp (List.append_cancel_left ((copy_items hx htray).symm.trans hy))
    have hone : (x.imageId.isSome = !x.annotationId.isSome) := hs x (find_mem hx)
    rw [← himage, ← hnote] at hone
    simpa using hone
  · intro hc
    refine ⟨?_, fun _ _ heq => Event.noConfusion heq, ?_⟩
    · change ∀ x ∈ (copy db s.table id tip).items, x.RefersToOne
      rw [copy]
      split
      · next x tray hx htray => exact Tables.forall_mem_insert hs (hc x hx (by rw [htray]; rfl))
      · exact hs
    · rintro _ _ x tray ⟨⟩ hx htray
      obtain ⟨im, him⟩ := Option.isSome_iff_exists.mp (hc x hx (by rw [htray]; rfl))
      -- the source has its image, so it has no annotation either
      have hone : (x.imageId.isSome = !x.annotationId.isSome) := hs x (find_mem hx)
      rw [imageId_of_image him] at hone
      have hnote : x.annotationId = none := by simpa using hone
      exact ⟨_, copy_items hx htray, rfl, him.trans (imageId_of_image him).symm, hnote.symm⟩

/-- **One step.** It does what it should exactly when the item it copies, if it copies one, has an
image. -/
theorem faithful_iff {db : Records} {s t : State} {e : Event}
    (hs : ∀ x ∈ s.table.items, x.RefersToOne) (h : step db s e = some t) :
    Faithful db s e t ↔ CopiesImage db s e := by
  have hwrite := step_write h
  cases e with
  | copy id tip => exact faithful_copy_iff hs h
  | move id tip =>
    obtain rfl := Option.some.inj h
    refine iff_of_true ⟨hwrite.refersToOne (fun _ _ heq => Event.noConfusion heq) hs, ?_, ?_⟩ trivial
    · rintro _ _ ⟨⟩
      exact forall₂_movedTo db s.table id tip
    · exact fun _ _ _ _ heq => Event.noConfusion heq
  -- the others neither move nor copy an item
  | destroy id =>
    exact iff_of_true ⟨hwrite.refersToOne (fun _ _ heq => Event.noConfusion heq) hs,
      fun _ _ heq => Event.noConfusion heq, fun _ _ _ _ heq => Event.noConfusion heq⟩ trivial
  | check type tip =>
    exact iff_of_true ⟨hwrite.refersToOne (fun _ _ heq => Event.noConfusion heq) hs,
      fun _ _ heq => Event.noConfusion heq, fun _ _ _ _ heq => Event.noConfusion heq⟩ trivial
  | act i =>
    exact iff_of_true ⟨hwrite.refersToOne (fun _ _ heq => Event.noConfusion heq) hs,
      fun _ _ heq => Event.noConfusion heq, fun _ _ _ _ heq => Event.noConfusion heq⟩ trivial

/-- **Items refer to one thing, and copies to the same one**, all along a run exactly when every
item that the run copies has an image. -/
theorem always_faithful_iff (db : Records) {s t : State} {es : List Event}
    (hs : ∀ x ∈ s.table.items, x.RefersToOne) (h : exec (step db) s es = some t) :
    Always (step db) (Faithful db) s es ↔ Meets (step db) (CopiesImage db) s es := by
  refine always_iff_meets (J := fun _ => True) (I := fun s => ∀ x ∈ s.table.items, x.RefersToOne)
    ?_ ?_ ?_ trivial hs h
  · exact fun _ _ _ _ _ => trivial
  · exact fun _ _ _ hf => hf.one
  · exact fun _ _ _ _ hI hstep => faithful_iff hI hstep

/-- Two trays, an image and an annotation. -/
def twoTrays : Records where
  trays := [1, 2]
  images := [7]
  annotations := [9]

/-- A tray with an image. -/
def imageTray : State := .idle { items := [⟨1, some 1, some 7, none⟩], next := 2 }

/-- A tray with an annotation. -/
def annotationTray : State := .idle { items := [⟨1, some 1, none, some 9⟩], next := 2 }

/-- The request to copy the first item to the second tray. -/
def copyFirst : Event := .copy 1 { trayId := some 2, imageId := none, annotationId := none }

/-- An image copied, moved and toggled away. -/
theorem always_faithful_image :
    Always (step twoTrays) (Faithful twoTrays) imageTray
      [copyFirst, .move 1 ⟨some 2, none, none⟩, .check (some "Image") ⟨some 2, some 7, none⟩, .act 0] :=
  (always_faithful_iff twoTrays (t := .idle { items := [], next := 3 }) (by decide) (by decide)).mpr
    ⟨by
      intro x hx _
      obtain rfl := Option.some.inj hx
      rfl,
    fun t ht => ⟨trivial, fun t ht => ⟨trivial, fun t ht => ⟨trivial, fun t ht => trivial⟩⟩⟩⟩

/-- The copy of an annotation refers to nothing. -/
theorem not_always_faithful_copy :
    (∀ x ∈ annotationTray.table.items, x.RefersToOne) ∧
      ¬ Always (step twoTrays) (Faithful twoTrays) annotationTray [copyFirst] := by
  refine ⟨by decide, fun halways => ?_⟩
  have hone := (halways _ rfl).1.one
  revert hone
  decide

end Trays
end Curarium
