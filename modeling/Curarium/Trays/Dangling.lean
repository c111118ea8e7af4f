import Curarium.Library.Lists
import Curarium.Trays.Contents

/-!
# Dangling tray contents

In an intact database (`Intact`) every tray item is in a tray and leads to a work, every annotation is on
an image, and every tray has a user or a circle for an owner. Then no page about a tray raises
(`Intact.renders`).

The requests do not keep it so. A tray is deleted from under its items, and so is an annotation; a work
takes its images with it, but not their annotations and tray items; a circle leaves its trays behind; a
tray is created for any owner; the copy of an item with an annotation has none; and a tray may be deleted
between the two halves of a toggle. `Safe` says of a request that it does none of this.

* `intact_iff` — one request leaves an intact database intact exactly if it is safe.
* `always_intact_iff` — over a whole run, from an empty database.
-/

namespace Curarium
namespace Contents

open Tables Runs
open Trays (TrayItem)

namespace State

variable (s : State)

/-- **What holds in every run.** -/
structure Wf : Prop where
  images : (s.images.map Image.id).Nodup
  annotations : (s.annotations.map Annotation.id).Nodup
  trays : (s.trays.map Tray.id).Nodup
  /-- An image has its work. -/
  works : ∀ i ∈ s.images, Resolves Work.id s.works i.workId
  /-- An item has an image or an annotation, not both. -/
  single : ∀ x ∈ s.items, x.imageId = none ∨ x.annotationId = none

/-- The item has an image or an annotation, and gets to a work from it. -/
def Leads (x : TrayItem) : Prop :=
  (∃ i ∈ s.images, x.imageId = some i.id ∧ Resolves Work.id s.works i.workId) ∨
    ∃ a ∈ s.annotations, x.annotationId = some a.id ∧
      ∃ i ∈ s.images, a.imageId = some i.id ∧ Resolves Work.id s.works i.workId

/-- The owner is a user or a circle. -/
def Owned (ownerType : Option String) (ownerId : Option Nat) : Prop :=
  (ownerType = some "User" ∧ ∃ u ∈ s.users, ownerId = some u) ∨
    (ownerType = some "Circle" ∧ ∃ c ∈ s.circles, ownerId = some c)

/-- **Nothing dangles.** -/
structure Intact : Prop where
  tray : ∀ x ∈ s.items, Resolves Tray.id s.trays x.trayId
  leads : ∀ x ∈ s.items, s.Leads x
  image : ∀ a ∈ s.annotations, Resolves Image.id s.images a.imageId
  owner : ∀ t ∈ s.trays, s.Owned t.ownerType t.ownerId

/-- No page about a tray meets a record that is not there. -/
def Renders : Prop :=
  (∀ x ∈ s.items, (s.thumbnailUrl x).isSome = true) ∧
    ∀ other, ∀ t ∈ s.trays, (s.trayJson other t).isSome = true

/-- No image of these works has a tray item or an annotation. -/
def Unused (p : Work → Bool) : Prop :=
  ∀ i ∈ s.images, ∀ w ∈ s.works, p w = true → i.workId = some w.id →
    (∀ x ∈ s.items, x.imageId ≠ some i.id) ∧ ∀ a ∈ s.annotations, a.imageId ≠ some i.id

end State

/-- **The request leaves nothing dangling.** -/
def Safe (s : State) : Event → Prop
  | .destroyCollection id => id ∈ s.collections → s.Unused fun w => w.collectionId = some id
  | .destroyWork id => s.Unused fun w => w.id = id
  | .destroyCircle id => ∀ t ∈ s.trays, ¬ (t.ownerType = some "Circle" ∧ t.ownerId = some id)
  | .createTray route _ ownerId ownerType _ => s.setOwner route = true → s.Owned ownerType ownerId
  | .destroyTray route id => s.setOwner route = true → ∀ x ∈ s.items, x.trayId ≠ some id
  | .unannotate work id =>
    (find Work.id work s.works).isSome = true → ∀ x ∈ s.items, x.annotationId ≠ some id
  | .item (.copy id tip) =>
    (s.records.findTray tip.trayId).isSome = true → ∀ x ∈ find TrayItem.id id s.items, x.imageId ≠ none
  | .item (.act i) =>
    ∀ g ∈ s.requests.toggles[i]?, g.found = false → (s.records.findRef g.column g.id).isSome = true →
      g.tray ∈ s.trays.map Tray.id
  | _ => True

variable {s t : State}

/-! ### An intact database is shown -/

/-- A tray item leads to a work as soon as it refers to something. -/
theorem leads_iff (hwf : s.Wf) (himage : ∀ a ∈ s.annotations, Resolves Image.id s.images a.imageId)
    (x : TrayItem) :
    s.Leads x ↔
      Resolves Image.id s.images x.imageId ∨ Resolves Annotation.id s.annotations x.annotationId := by
  constructor
  · rintro (⟨i, hi, hx, -⟩ | ⟨a, ha, hx, -⟩)
    · exact .inl ⟨i, hi, hx⟩
    · exact .inr ⟨a, ha, hx⟩
  · rintro (⟨i, hi, hx⟩ | ⟨a, ha, hx⟩)
    · exact .inl ⟨i, hi, hx, hwf.works i hi⟩
    · obtain ⟨i, hi, hai⟩ := himage a ha
      exact .inr ⟨a, ha, hx, i, hi, hai, hwf.works i hi⟩

theorem State.Wf.exists_workOf (hwf : s.Wf) {i : Image} (hi : i ∈ s.images) : ∃ w, s.workOf i = some w := by
  obtain ⟨w, -, hw⟩ := exists_find_of_resolves (hwf.works i hi)
  exact ⟨w, hw⟩

theorem State.Wf.imageJson_isSome (hwf : s.Wf) {i : Image} (hi : i ∈ s.images) :
    (s.imageJson i).isSome = true := by
  obtain ⟨w, hw⟩ := hwf.exists_workOf hi
  rw [State.imageJson, hw]
  rfl

theorem isSome_childJson {α β : Type} {json : α → Option β} {o : Option α}
    (h : ∀ a ∈ o, (json a).isSome = true) : (State.childJson json o).isSome = true := by
  cases o with
  | none => rfl
  | some a =>
    rw [State.childJson, Option.isSome_map]
    exact h a rfl

/-- The JSON of an item only needs the works of the images. -/
theorem State.Wf.itemJson_isSome (hwf : s.Wf) (x : TrayItem) : (s.itemJson x).isSome = true := by
  have himage : (State.childJson s.imageJson (s.imageOf x)).isSome = true :=
    isSome_childJson fun i hi => hwf.imageJson_isSome (mem_of_bind_find hi)
  have hnote : (State.childJson s.noteJson (s.noteOf x)).isSome = true := by
    refine isSome_childJson fun a _ => ?_
    rw [State.noteJson, Option.isSome_map]
    exact isSome_childJson fun i hi => hwf.imageJson_isSome (mem_of_bind_find hi)
  obtain ⟨image, himage⟩ := Option.isSome_iff_exists.mp himage
  obtain ⟨note, hnote⟩ := Option.isSome_iff_exists.mp hnote
  rw [State.itemJson, himage, hnote]
  rfl

theorem State.Intact.thumbnailUrl_isSome (hs : s.Intact) (hwf : s.Wf) (x : TrayItem) :
    (s.thumbnailUrl x).isSome = true := by
  rw [State.thumbnailUrl]
  cases himage : s.imageOf x with
  | some i =>
    obtain ⟨w, hw⟩ := hwf.exists_workOf (mem_of_bind_find himage)
    show ((s.workOf i).map _).isSome = true
    rw [hw]
    rfl
  | none =>
    cases hnote : s.noteOf x with
    | none => rfl
    | some a =>
      obtain ⟨i, hi, hai⟩ := exists_find_of_resolves (hs.image a (mem_of_bind_find hnote))
      obtain ⟨w, hw⟩ := hwf.exists_workOf hi
      show ((s.workOfNote a).map _).isSome = true
      rw [State.workOfNote, State.imageOfNote, hai, Option.bind_some, hw]
      rfl

theorem State.Owned.isSome_ownerOf {y : Tray} (h : s.Owned y.ownerType y.ownerId)
    (other : String → Nat → Bool) : (s.ownerOf other y).isSome = true := by
  rcases h with ⟨htype, u, hu, hid⟩ | ⟨htype, c, hc, hid⟩
  · simp [State.ownerOf, htype, hid, hu]
  · simp [State.ownerOf, htype, hid, hc]

/-- **An intact database is shown** without an error. -/
theorem State.Intact.renders (hs : s.Intact) (hwf : s.Wf) : s.Renders := by
  refine ⟨fun x _ => hs.thumbnailUrl_isSome hwf x, fun other y hy => ?_⟩
  obtain ⟨owner, howner⟩ := Option.isSome_iff_exists.mp ((hs.owner y hy).isSome_ownerOf other)
  rw [State.trayJson, howner, Option.bind_some, Option.isSome_map]
  exact Lists.isSome_mapM_iff.mpr fun x _ => hwf.itemJson_isSome x

/-! ### The kinds of writes -/

/-- Records are added to the tables that the others refer to, and images come with a work that is
there. -/
structure Grows (s t : State) : Prop where
  users : t.users = s.users
  circles : ∀ c ∈ s.circles, c ∈ t.circles
  works : ∀ ref, Resolves Work.id s.works ref → Resolves Work.id t.works ref
  images : ∃ new, t.images = s.images ++ new ∧ ∀ i ∈ new, Resolves Work.id t.works i.workId
  imageIds : (t.images.map Image.id).Nodup
  annotations : t.annotations = s.annotations
  trays : t.trays = s.trays
  requests : t.requests = s.requests

theorem Grows.mem_images (h : Grows s t) : ∀ i ∈ s.images, i ∈ t.images := by
  obtain ⟨new, hnew, -⟩ := h.images
  rw [hnew]
  exact fun i hi => List.mem_append_left _ hi

theorem Grows.items (h : Grows s t) : t.items = s.items := by rw [State.items, h.requests]; rfl

theorem Grows.wf (h : Grows s t) (hwf : s.Wf) : t.Wf where
  images := h.imageIds
  annotations := by rw [h.annotations]; exact hwf.annotations
  trays := by rw [h.trays]; exact hwf.trays
  works i hi := by
    obtain ⟨new, hnew, hworks⟩ := h.images
    rw [hnew] at hi
    rcases List.mem_append.mp hi with hold | hi
    · exact h.works _ (hwf.works i hold)
    · exact hworks i hi
  single := by rw [h.items]; exact hwf.single

theorem State.Owned.mono {ownerType : Option String} {ownerId : Option Nat}
    (h : s.Owned ownerType ownerId) (husers : t.users = s.users)
    (hcircles : ∀ c ∈ s.circles, c ∈ t.circles) :
    t.Owned ownerType ownerId := by
  rcases h with ⟨htype, u, hu, hid⟩ | ⟨htype, c, hc, hid⟩
  · exact .inl ⟨htype, u, husers ▸ hu, hid⟩
  · exact .inr ⟨htype, c, hcircles c hc, hid⟩

theorem Grows.intact (h : Grows s t) (hwf : s.Wf) (hs : s.Intact) : t.Intact := by
  have himage : ∀ a ∈ t.annotations, Resolves Image.id t.images a.imageId := by
    rw [h.annotations]
    exact fun a ha => (hs.image a ha).mono h.mem_images
  refine ⟨?_, ?_, himage, ?_⟩
  · rw [h.items, h.trays]
    exact hs.tray
  · rw [h.items]
    intro x hx
    rw [leads_iff (h.wf hwf) himage, h.annotations]
    exact ((leads_iff hwf hs.image x).mp (hs.leads x hx)).imp_left fun hr => hr.mono h.mem_images
  · rw [h.trays]
    exact fun y hy => (hs.owner y hy).mono h.users h.circles

/-- Works are destroyed, with their images. -/
theorem mem_images_destroyWorks {p : Work → Bool} {i : Image} :
    i ∈ (s.destroyWorks p).images ↔
      i ∈ s.images ∧ ∀ w ∈ s.works, p w = true → i.workId ≠ some w.id := by
  rw [State.destroyWorks, List.mem_filter, Bool.not_eq_true', List.any_eq_false]
  simp

theorem wf_destroyWorks (hwf : s.Wf) (p : Work → Bool) : (s.destroyWorks p).Wf where
  images := hwf.images.sublist (List.filter_sublist.map Image.id)
  annotations := hwf.annotations
  trays := hwf.trays
  works i hi := by
    obtain ⟨hmem, hkept⟩ := mem_images_destroyWorks.mp hi
    -- the work of an image that stays is none of those that go
    obtain ⟨w, hw, hwork⟩ := hwf.works i hmem
    refine ⟨w, List.mem_filter.mpr ⟨hw, ?_⟩, hwork⟩
    by_contra hp
    exact hkept w hw (by simpa using hp) hwork
  single := hwf.single

/-- **Destroying works leaves nothing dangling** exactly if their images are not used. -/
theorem intact_destroyWorks_iff (hwf : s.Wf) (hs : s.Intact) (p : Work → Bool) :
    (s.destroyWorks p).Intact ↔ s.Unused p := by
  have hwf' := wf_destroyWorks hwf p
  have hkeep : ∀ {ref}, Resolves Image.id s.images ref →
      (Resolves Image.id (s.destroyWorks p).images ref ↔
        ∀ i ∈ s.images, ∀ w ∈ s.works, p w = true → i.workId = some w.id → ref ≠ some i.id) := by
    intro ref href
    rw [State.destroyWorks, resolves_filter_iff hwf.images href]
    refine forall_congr' fun i => forall_congr' fun hi => ?_
    simp only [Bool.not_eq_false', List.any_eq_true, Bool.and_eq_true, decide_eq_true_eq]
    exact ⟨fun h w hw hp hwork => h ⟨w, hw, hp, hwork⟩, fun h ⟨w, hw, hp, hwork⟩ => h w hw hp hwork⟩
  constructor
  · intro ht i hi w hw hp hwork
    refine ⟨fun x hx hxi => ?_, fun a ha => ?_⟩
    · -- an item with an image has no annotation, so it needs its image
      have hnone : x.annotationId = none :=
        (hwf.single x hx).resolve_left (by rw [hxi]; exact Option.some_ne_none _)
      rcases (leads_iff hwf' ht.image x).mp (ht.leads x hx) with hr | hr
      · exact (hkeep ⟨i, hi, hxi⟩).mp hr i hi w hw hp hwork hxi
      · rw [hnone] at hr
        exact not_resolves_none hr
    · exact (hkeep (hs.image a ha)).mp (ht.image a ha) i hi w hw hp hwork
  · intro hunused
    have himage : ∀ a ∈ (s.destroyWorks p).annotations,
        Resolves Image.id (s.destroyWorks p).images a.imageId := fun a ha =>
      (hkeep (hs.image a ha)).mpr fun i hi w hw hp hwork => (hunused i hi w hw hp hwork).2 a ha
    refine ⟨hs.tray, fun x hx => ?_, himage, hs.owner⟩
    rw [leads_iff hwf' himage]
    exact ((leads_iff hwf hs.image x).mp (hs.leads x hx)).imp_left fun hr =>
      (hkeep hr).mpr fun i hi w hw hp hwork => (hunused i hi w hw hp hwork).1 x hx

/-- A circle is destroyed, and its trays stay. -/
theorem intact_destroyCircle_iff (hs : s.Intact) (id : Nat) :
    ({ s with circles := s.circles.filter (· ≠ id) } : State).Intact ↔ Safe s (.destroyCircle id) := by
  constructor
  · rintro ht y hy ⟨htype, hid⟩
    -- a tray of a circle needs a circle, and the one with this id is gone
    rcases ht.owner y hy with ⟨huser, -⟩ | ⟨-, c, hc, hid'⟩
    · rw [htype] at huser
      exact absurd huser (by decide)
    · obtain rfl := Option.some.inj (hid.symm.trans hid')
      simpa using (List.mem_filter.mp hc).2
  · intro hsafe
    refine ⟨hs.tray, hs.leads, hs.image, fun y hy => ?_⟩
    rcases hs.owner y hy with huser | ⟨htype, c, hc, hid⟩
    · exact .inl huser
    · refine .inr ⟨htype, c, List.mem_filter.mpr ⟨hc, ?_⟩, hid⟩
      exact decide_eq_true fun heq => hsafe y hy ⟨htype, heq ▸ hid⟩

/-- A tray is created, for whatever owner. -/
theorem intact_createTray_iff (hs : s.Intact) (y : Tray) :
    ({ s with trays := s.trays ++ [y] } : State).Intact ↔ s.Owned y.ownerType y.ownerId := by
  constructor
  · exact fun ht => ht.owner y (List.mem_append_right _ (List.mem_singleton_self y))
  · intro howned
    refine ⟨fun x hx => (hs.tray x hx).mono fun r hr => List.mem_append_left _ hr, hs.leads, hs.image, ?_⟩
    exact forall_mem_insert hs.owner howned

/-- A tray is deleted, and its items stay. -/
theorem intact_destroyTray_iff (hwf : s.Wf) (hs : s.Intact) (id : Nat) :
    ({ s with trays := s.trays.filter fun y => y.id ≠ id } : State).Intact ↔
      ∀ x ∈ s.items, x.trayId ≠ some id := by
  -- the items of the other trays keep theirs
  have hkeep : ∀ x ∈ s.items, Resolves Tray.id (s.trays.filter fun y => y.id ≠ id) x.trayId ↔
      x.trayId ≠ some id := by
    intro x hx
    rw [resolves_filter_iff hwf.trays (hs.tray x hx)]
    constructor
    · intro h hid
      obtain ⟨y, hy, hyid⟩ := hs.tray x hx
      have hsame : y.id = id := Option.some.inj (hyid.symm.trans hid)
      exact h y hy (by simpa using hsame) hyid
    · intro h y _ hy hyid
      have hsame : y.id = id := by simpa using hy
      exact h (hsame ▸ hyid)
  constructor
  · exact fun ht x hx => (hkeep x hx).mp (ht.tray x hx)
  · intro hunused
    exact ⟨fun x hx => (hkeep x hx).mpr (hunused x hx), hs.leads, hs.image,
      fun y hy => hs.owner y (List.mem_of_mem_filter hy)⟩

/-- An annotation is made on an image. -/
theorem intact_annotate (hs : s.Intact) {a : Annotation} (ha : Resolves Image.id s.images a.imageId) :
    ({ s with annotations := s.annotations ++ [a] } : State).Intact := by
  refine ⟨hs.tray, fun x hx => ?_, forall_mem_insert hs.image ha, hs.owner⟩
  rcases hs.leads x hx with himage | ⟨b, hb, hrest⟩
  · exact .inl himage
  · -- the annotation of an item is one of the old ones
    exact .inr ⟨b, List.mem_append_left _ hb, hrest⟩

/-- An annotation is deleted, and its tray items stay. -/
theorem intact_unannotate_iff (hwf : s.Wf) (hs : s.Intact) (id : Nat) :
    ({ s with annotations := s.annotations.filter fun a => a.id ≠ id } : State).Intact ↔
      ∀ x ∈ s.items, x.annotationId ≠ some id := by
  have hwf' : ({ s with annotations := s.annotations.filter fun a => a.id ≠ id } : State).Wf :=
    { hwf with annotations := hwf.annotations.sublist (List.filter_sublist.map Annotation.id) }
  have himage : ∀ a ∈ s.annotations.filter fun a => a.id ≠ id, Resolves Image.id s.images a.imageId :=
    fun a ha => hs.image a (List.mem_of_mem_filter ha)
  constructor
  · intro ht x hx hxid
    -- an item with an annotation has no image, so it needs its annotation
    have hnone : x.imageId = none :=
      (hwf.single x hx).resolve_right (by rw [hxid]; exact Option.some_ne_none _)
    rcases (leads_iff hwf' himage x).mp (ht.leads x hx) with hr | ⟨a, ha, haid⟩
    · rw [hnone] at hr
      exact not_resolves_none hr
    · have hne : a.id ≠ id := by simpa using (List.mem_filter.mp ha).2
      exact hne (Option.some.inj (haid.symm.trans hxid))
  · intro hunused
    refine ⟨hs.tray, fun x hx => ?_, himage, hs.owner⟩
    rw [leads_iff hwf' himage]
    refine ((leads_iff hwf hs.image x).mp (hs.leads x hx)).imp_right ?_
    rintro ⟨a, ha, haid⟩
    refine ⟨a, List.mem_filter.mpr ⟨ha, decide_eq_true fun heq => ?_⟩, haid⟩
    exact hunused x hx (heq ▸ haid)

/-! ### The requests on tray items -/

/-- The items after a request are ones that were there, or have been there in another tray. -/
theorem intact_of_items {r : Trays.State} (hs : s.Intact)
    (hitems : ∀ x ∈ r.table.items, ∃ y ∈ s.items, x.imageId = y.imageId ∧
      x.annotationId = y.annotationId ∧ (x.trayId = y.trayId ∨ Resolves Tray.id s.trays x.trayId)) :
    ({ s with requests := r } : State).Intact := by
  refine ⟨fun x hx => ?_, fun x hx => ?_, hs.image, hs.owner⟩
  · obtain ⟨y, hy, -, -, htray⟩ := hitems x hx
    rcases htray with htray | htray
    · rw [htray]
      exact hs.tray y hy
    · exact htray
  · obtain ⟨y, hy, himage, hnote, -⟩ := hitems x hx
    have hleads := hs.leads y hy
    rw [State.Leads, ← himage, ← hnote] at hleads
    exact hleads

/-- An item is created. -/
theorem intact_createItem_iff {r : Trays.State} {x : TrayItem} (hs : s.Intact)
    (hitems : r.table.items = s.items ++ [x]) :
    ({ s with requests := r } : State).Intact ↔ Resolves Tray.id s.trays x.trayId ∧ s.Leads x := by
  have hx : x ∈ r.table.items := by
    rw [hitems]
    exact List.mem_append_right _ (List.mem_singleton_self x)
  constructor
  · exact fun ht => ⟨ht.tray x hx, ht.leads x hx⟩
  · rintro ⟨htray, hleads⟩
    have hall : ∀ {P : TrayItem → Prop}, (∀ y ∈ s.items, P y) → P x → ∀ y ∈ r.table.items, P y := by
      intro P hold hnew
      rw [hitems]
      exact forall_mem_insert hold hnew
    exact ⟨hall hs.tray htray, hall hs.leads hleads, hs.image, hs.owner⟩

theorem resolves_of_findTray {id : Option Nat} {tray : Nat} (h : s.records.findTray id = some tray) :
    Resolves Tray.id s.trays (some tray) := by
  rw [Trays.Records.findTray, Option.filter_eq_some_iff] at h
  exact resolves_iff_mem_map.mpr (of_decide_eq_true h.2)

theorem resolves_of_findRef {k : Trays.Column} {id : Option Nat} {n : Nat}
    (h : s.records.findRef k id = some n) : n ∈ s.records.ofColumn k := by
  rw [Trays.Records.findRef, Option.filter_eq_some_iff] at h
  exact of_decide_eq_true h.2

/-- The copy of an item has an image exactly if the item does. -/
theorem leads_copy_iff (hwf : s.Wf) (hs : s.Intact) {x : TrayItem} (hx : x ∈ s.items) (n tray : Nat) :
    s.Leads { id := n, trayId := some tray, imageId := s.records.image x, annotationId := none } ↔
      x.imageId ≠ none := by
  rw [leads_iff hwf hs.image, Trays.Records.image]
  cases himage : x.imageId with
  | none => exact iff_of_false (not_or.mpr ⟨not_resolves_none, not_resolves_none⟩) fun h => h rfl
  | some m =>
    refine iff_of_true (.inl ?_) (Option.some_ne_none m)
    -- an item with an image has no annotation, so its image is there
    have hnone : x.annotationId = none :=
      (hwf.single x hx).resolve_left (by rw [himage]; exact Option.some_ne_none m)
    have hleads := (leads_iff hwf hs.image x).mp (hs.leads x hx)
    rw [himage, hnone] at hleads
    have hm := hleads.resolve_right not_resolves_none
    have hmem : m ∈ s.records.images := resolves_iff_mem_map.mp hm
    change Resolves Image.id s.images (Option.filter (fun n => decide (n ∈ s.records.images)) (some m))
    rwa [Option.filter_some_pos (by simpa using hmem)]

theorem leads_createRef {k : Trays.Column} {n : Nat} (hwf : s.Wf) (hs : s.Intact)
    (hn : n ∈ s.records.ofColumn k) {x : TrayItem} (hx : x.ref k = some n) : s.Leads x := by
  rw [leads_iff hwf hs.image]
  cases k with
  | imageId => exact .inl ((show x.imageId = some n from hx) ▸ resolves_iff_mem_map.mpr hn)
  | annotationId => exact .inr ((show x.annotationId = some n from hx) ▸ resolves_iff_mem_map.mpr hn)

/-- An item is copied, with its image only. -/
theorem intact_copy_iff (hwf : s.Wf) (hs : s.Intact) (id : Nat) (tip : Trays.Params) :
    ({ s with requests.table := Trays.copy s.records s.requests.table id tip } : State).Intact ↔
      Safe s (.item (.copy id tip)) := by
  rw [Safe, Trays.copy]
  change _ ↔ (_ → ∀ x ∈ find TrayItem.id id s.requests.table.items, _)
  cases hfind : find TrayItem.id id s.requests.table.items with
  | none => exact iff_of_true hs fun _ x hx => absurd hx (Option.not_mem_none x)
  | some x =>
    cases htray : s.records.findTray tip.trayId with
    -- without an item, or a tray for the copy, nothing is written
    | none => exact iff_of_true hs fun h => absurd h Bool.false_ne_true
    | some tray =>
      rw [intact_createItem_iff hs rfl, and_iff_right (resolves_of_findTray htray),
        leads_copy_iff hwf hs (find_mem hfind)]
      exact ⟨fun h _ y hy => Option.mem_some_iff.mp hy ▸ h, fun h => h rfl x rfl⟩

/-- The second half of a toggle, for a tray that may be gone. -/
theorem intact_act_iff (hwf : s.Wf) (hs : s.Intact) (g : Trays.Toggle) (toggles : List Trays.Toggle) :
    ({ s with
      requests := { table := Trays.act s.records s.requests.table g, toggles := toggles } } : State).Intact ↔
      (g.found = false → (s.records.findRef g.column g.id).isSome = true →
        g.tray ∈ s.trays.map Tray.id) := by
  rw [Trays.act]
  cases hfound : g.found with
  | true =>
    -- the toggle deletes
    refine iff_of_true (intact_of_items hs fun x hx => ?_) fun h => absurd h.symm Bool.false_ne_true
    exact ⟨x, List.mem_of_mem_filter hx, rfl, rfl, .inl rfl⟩
  | false =>
    rw [if_neg Bool.false_ne_true]
    cases href : s.records.findRef g.column g.id with
    | none =>
      exact iff_of_true (intact_of_items hs fun x hx => ⟨x, hx, rfl, rfl, .inl rfl⟩)
        fun _ h => absurd h Bool.false_ne_true
    | some n =>
      -- the toggle creates an item, in the tray that it found before
      have hn := resolves_of_findRef href
      have hcreate : ∃ x : TrayItem, x.trayId = some g.tray ∧ x.ref g.column = some n ∧
          (s.requests.table.createRef g.tray n g.column).items = s.items ++ [x] := by
        cases g.column with
        | imageId => exact ⟨_, rfl, rfl, rfl⟩
        | annotationId => exact ⟨_, rfl, rfl, rfl⟩
      obtain ⟨x, htray, href, hitems⟩ := hcreate
      rw [intact_createItem_iff hs hitems, and_iff_left (leads_createRef hwf hs hn href), htray,
        resolves_iff_mem_map]
      exact ⟨fun h _ _ => h, fun h => h rfl rfl⟩

/-- **A request on tray items.** -/
theorem intact_item_iff (hwf : s.Wf) (hs : s.Intact) {e : Trays.Event} {r : Trays.State}
    (h : Trays.step s.records s.requests e = some r) :
    ({ s with requests := r } : State).Intact ↔ Safe s (.item e) := by
  cases e with
  | move id tip =>
    obtain rfl := Option.some.inj h
    refine iff_of_true (intact_of_items hs fun x hx => ?_) trivial
    change x ∈ (Trays.move s.records s.requests.table id tip).items at hx
    rw [Trays.move] at hx
    split at hx
    · next y tray _ htray =>
      -- the item that is moved keeps what it refers to, and its new tray is there
      obtain ⟨z, hz, rfl⟩ := mem_update.mp hx
      refine ⟨z, hz, ?_⟩
      split
      · exact ⟨rfl, rfl, .inr (resolves_of_findTray htray)⟩
      · exact ⟨rfl, rfl, .inl rfl⟩
    · exact ⟨x, hx, rfl, rfl, .inl rfl⟩
  | copy id tip =>
    obtain rfl := Option.some.inj h
    exact intact_copy_iff hwf hs id tip
  | destroy id =>
    obtain rfl := Option.some.inj h
    exact iff_of_true
      (intact_of_items hs fun x hx => ⟨x, List.mem_of_mem_filter hx, rfl, rfl, .inl rfl⟩) trivial
  | check type tip =>
    obtain rfl := Option.some.inj h
    exact iff_of_true (intact_of_items hs fun x hx => ⟨x, hx, rfl, rfl, .inl rfl⟩) trivial
  | act i =>
    obtain ⟨g, hg, rfl⟩ := Option.map_eq_some_iff.mp h
    rw [intact_act_iff hwf hs, Safe, hg]
    exact ⟨fun h g' hg' => Option.mem_some_iff.mp hg' ▸ h, fun hall => hall g rfl⟩

theorem wf_item (hwf : s.Wf) {e : Trays.Event} {r : Trays.State}
    (h : Trays.step s.records s.requests e = some r) : ({ s with requests := r } : State).Wf := by
  refine { hwf with single := ?_ }
  change ∀ x ∈ r.table.items, _
  have hcreated : ∀ {y : TrayItem}, (y.imageId = none ∨ y.annotationId = none) →
      ∀ x ∈ s.items ++ [y], x.imageId = none ∨ x.annotationId = none := forall_mem_insert hwf.single
  have hwrite := Trays.step_write h
  generalize r.table = table at hwrite
  -- each kind of write to the items
  cases hwrite with
  | none => exact hwf.single
  | moved hx htray =>
    intro x hx
    obtain ⟨y, hy, rfl⟩ := mem_update.mp hx
    have hsingle := hwf.single y hy
    split
    · exact hsingle
    · exact hsingle
  | copied hx htray => exact hcreated (.inr rfl)
  | deleted p => exact fun x hx => hwf.single x (List.mem_of_mem_filter hx)
  | inserted tray k =>
    cases k with
    | imageId => exact hcreated (.inr rfl)
    | annotationId => exact hcreated (.inl rfl)

/-! ### One request -/

theorem map_id_createImages (work : Nat) (images : List (Nat × Option String × Option String)) :
    (State.createImages work images).map Image.id = images.map Prod.fst := by
  rw [State.createImages, List.map_map]
  rfl

theorem resolves_createImages {work : Nat} {images : List (Nat × Option String × Option String)}
    {works : List Work} (hwork : Resolves Work.id works (some work)) :
    ∀ i ∈ State.createImages work images, Resolves Work.id works i.workId := by
  intro i hi
  obtain ⟨_, -, rfl⟩ := List.mem_map.mp hi
  exact hwork

/-- Collections, works, images and circles are created. -/
theorem grows_createCollection {id : Nat} {works : List Nat} (hwf : s.Wf)
    (h : step s (.createCollection id works) = some t) : Grows s t := by
  rw [step] at h
  split at h
  · obtain rfl := Option.some.inj h
    exact {
      users := rfl
      circles := fun _ hc => hc
      works := fun _ href => href.mono fun _ hr => List.mem_append_left _ hr
      images := ⟨[], (List.append_nil _).symm, fun _ hi => absurd hi List.not_mem_nil⟩
      imageIds := hwf.images
      annotations := rfl
      trays := rfl
      requests := rfl }
  · cases h

theorem grows_createWork {id : Nat} {title : Option String}
    {images : List (Nat × Option String × Option String)}
    (h : step s (.createWork id title images) = some t) : Grows s t := by
  rw [step] at h
  split at h
  · next hids =>
    obtain rfl := Option.some.inj h
    refine {
      users := rfl
      circles := fun _ hc => hc
      works := fun _ href => href.mono fun _ hr => List.mem_append_left _ hr
      images := ⟨_, rfl, resolves_createImages ?_⟩
      imageIds := ?_
      annotations := rfl
      trays := rfl
      requests := rfl }
    · -- the images belong to the work that is created with them
      exact ⟨_, List.mem_append_right _ (List.mem_singleton_self _), rfl⟩
    · rw [List.map_append, map_id_createImages]
      exact hids.2
  · cases h

theorem grows_saveWork {id : Nat} {title : Option String}
    {images : List (Nat × Option String × Option String)} (hwf : s.Wf)
    (h : step s (.saveWork id title images) = some t) : Grows s t := by
  rw [step] at h
  split at h
  · -- there is no work with this id
    obtain rfl := Option.some.inj h
    exact ⟨rfl, fun _ hc => hc, fun _ href => href, ⟨[], (List.append_nil _).symm,
      fun _ hi => absurd hi List.not_mem_nil⟩, hwf.images, rfl, rfl, rfl⟩
  · next hfound =>
    split at h
    · next hids =>
      obtain rfl := Option.some.inj h
      obtain ⟨w, hw⟩ := Option.ne_none_iff_exists'.mp (by simpa using hfound)
      have hkeys : ∀ w : Work, ({ w with title := title } : Work).id = w.id := fun _ => rfl
      refine {
        users := rfl
        circles := fun _ hc => hc
        works := fun _ href => href.update hkeys
        images := ⟨_, rfl, resolves_createImages ?_⟩
        imageIds := ?_
        annotations := rfl
        trays := rfl
        requests := rfl }
      · refine Resolves.update ?_ hkeys
        exact ⟨w, find_mem hw, by rw [find_key hw]⟩
      · rw [List.map_append, map_id_createImages]
        exact hids
    · cases h

theorem grows_createCircle {id : Nat} (hwf : s.Wf) (h : step s (.createCircle id) = some t) : Grows s t := by
  rw [step] at h
  split at h
  · obtain rfl := Option.some.inj h
    exact ⟨rfl, fun _ hc => List.mem_append_left _ hc, fun _ href => href, ⟨[], (List.append_nil _).symm,
      fun _ hi => absurd hi List.not_mem_nil⟩, hwf.images, rfl, rfl, rfl⟩
  · cases h

theorem Grows.spec (h : Grows s t) (hwf : s.Wf) {C : Prop} (hC : C) :
    t.Wf ∧ (s.Intact → (t.Intact ↔ C)) :=
  ⟨h.wf hwf, fun hs => iff_of_true (h.intact hwf hs) hC⟩

theorem spec_unchanged (hwf : s.Wf) {C : Prop} (hC : C) : s.Wf ∧ (s.Intact → (s.Intact ↔ C)) :=
  ⟨hwf, fun hs => iff_of_true hs hC⟩

/-- The annotation is on an image of the work. -/
theorem annotate_spec {work id : Nat} {session : Option Nat} {a : Annotation}
    (h : s.annotate work session id = some a) : a.id = id ∧ Resolves Image.id s.images a.imageId := by
  obtain ⟨w, -, h⟩ := Option.bind_eq_some_iff.mp h
  obtain ⟨i, hi, h⟩ := Option.bind_eq_some_iff.mp h
  split at h
  · obtain rfl := Option.some.inj h
    have hmem : i ∈ imagesOf s.images w.id := List.mem_of_mem_head? hi
    rw [imagesOf, List.mem_insertionSort] at hmem
    exact ⟨rfl, i, List.mem_of_mem_filter hmem, rfl⟩
  · cases h

/-- **One request** keeps what holds in every run, and leaves an intact database intact exactly if it is
safe. -/
theorem step_spec (hwf : s.Wf) {e : Event} (h : step s e = some t) :
    t.Wf ∧ (s.Intact → (t.Intact ↔ Safe s e)) := by
  cases e with
  | createCollection id works => exact (grows_createCollection hwf h).spec hwf trivial
  | createWork id title images => exact (grows_createWork h).spec hwf trivial
  | saveWork id title images => exact (grows_saveWork hwf h).spec hwf trivial
  | createCircle id => exact (grows_createCircle hwf h).spec hwf trivial
  | destroyWork id =>
    obtain rfl := Option.some.inj h
    exact ⟨wf_destroyWorks hwf _, fun hs => intact_destroyWorks_iff hwf hs _⟩
  | destroyCollection id =>
    rw [step] at h
    split at h
    · next hid =>
      -- its works go first, and no reference names a collection
      obtain rfl := Option.some.inj h
      have hwf' := wf_destroyWorks hwf fun w => w.collectionId = some id
      refine ⟨{ hwf' with }, fun hs => ?_⟩
      have hiff := intact_destroyWorks_iff hwf hs fun w => w.collectionId = some id
      rw [Safe, imp_iff_right hid, ← hiff]
      exact ⟨fun ht => { ht with }, fun ht => { ht with }⟩
    · next hid =>
      obtain rfl := Option.some.inj h
      exact spec_unchanged hwf fun hin => absurd hin hid
  | destroyCircle id =>
    obtain rfl := Option.some.inj h
    exact ⟨{ hwf with }, fun hs => intact_destroyCircle_iff hs id⟩
  | createTray route id ownerId ownerType name =>
    rw [step] at h
    split at h
    · next hroute =>
      -- there is no page under the address, and nothing happens
      obtain rfl := Option.some.inj h
      exact spec_unchanged hwf fun hfound => absurd (hroute.symm.trans hfound) Bool.false_ne_true
    · next hroute =>
      split at h
      · next hid =>
        obtain rfl := Option.some.inj h
        refine ⟨{ hwf with trays := nodup_map_insert hwf.trays hid }, fun hs => ?_⟩
        rw [intact_createTray_iff hs, Safe, imp_iff_right (by simpa using hroute)]
      · cases h
  | destroyTray route id =>
    rw [step] at h
    split at h
    · next hroute =>
      obtain rfl := Option.some.inj h
      refine ⟨{ hwf with trays := hwf.trays.sublist (List.filter_sublist.map Tray.id) }, fun hs => ?_⟩
      rw [intact_destroyTray_iff hwf hs, Safe, imp_iff_right hroute]
    · next hroute =>
      obtain rfl := Option.some.inj h
      exact spec_unchanged hwf fun hfound => absurd hfound hroute
  | annotate work session id =>
    rw [step] at h
    split at h
    · -- without a user, or without an image of the work
      obtain rfl := Option.some.inj h
      exact spec_unchanged hwf trivial
    · next a ha =>
      obtain ⟨hid, himage⟩ := annotate_spec ha
      split at h
      · next hfresh =>
        obtain rfl := Option.some.inj h
        refine ⟨{ hwf with annotations := nodup_map_insert hwf.annotations (hid ▸ hfresh) },
          fun hs => iff_of_true (intact_annotate hs himage) trivial⟩
      · cases h
  | unannotate work id =>
    rw [step] at h
    split at h
    · next hwork =>
      obtain rfl := Option.some.inj h
      refine ⟨{ hwf with
        annotations := hwf.annotations.sublist (List.filter_sublist.map Annotation.id) }, fun hs => ?_⟩
      rw [intact_unannotate_iff hwf hs, Safe, imp_iff_right hwork]
    · next hwork =>
      obtain rfl := Option.some.inj h
      exact spec_unchanged hwf fun hfound => absurd hfound hwork
  | item e =>
    obtain ⟨r, hr, rfl⟩ := Option.map_eq_some_iff.mp h
    exact ⟨wf_item hwf hr, fun hs => intact_item_iff hwf hs hr⟩

/-! ### Runs -/

theorem wf_empty (users : List Nat) : (State.empty users).Wf where
  images := List.nodup_nil
  annotations := List.nodup_nil
  trays := List.nodup_nil
  works _ hi := absurd hi List.not_mem_nil
  single _ hx := absurd hx List.not_mem_nil

theorem intact_empty (users : List Nat) : (State.empty users).Intact where
  tray _ hx := absurd hx List.not_mem_nil
  leads _ hx := absurd hx List.not_mem_nil
  image _ ha := absurd ha List.not_mem_nil
  owner _ ht := absurd ht List.not_mem_nil

/-- **No tray contents dangle** in the states of a run exactly if all its requests are safe. -/
theorem always_intact_iff {users : List Nat} {es : List Event} {t : State}
    (h : exec step (State.empty users) es = some t) :
    Always step (fun _ _ u => u.Intact ∧ u.Renders) (State.empty users) es ↔
      Meets step Safe (State.empty users) es := by
  refine always_iff_meets (J := State.Wf) (I := State.Intact) ?_ ?_ ?_ (wf_empty users)
    (intact_empty users) h
  · exact fun s e u hwf hu => (step_spec hwf hu).1
  · exact fun s e u hP => hP.1
  · intro s e u hwf hs hu
    obtain ⟨hwf', hiff⟩ := step_spec hwf hu
    rw [← hiff hs]
    exact ⟨fun hP => hP.1, fun hu => ⟨hu, hu.renders hwf'⟩⟩

/-- A user puts the image of a new work into a new tray. -/
def filled : List Event :=
  [.createWork 1 (some "title") [(7, some "image", some "thumbnail")],
    .createTray (.user 1) 5 (some 1) (some "User") (some "tray"),
    .item (.check (some "Image") { trayId := some 5, imageId := some 7, annotationId := none }),
    .item (.act 0)]

/-- The item is taken out before the work is destroyed. -/
theorem always_intact_emptied :
    Always step (fun _ _ u => u.Intact ∧ u.Renders) (State.empty [1])
      (filled ++ [.item (.destroy 0), .destroyWork 1]) := by
  refine (always_intact_iff rfl).mpr ⟨trivial, fun s hs => ⟨?_, fun s' hs' => ⟨trivial, fun s'' hs'' =>
    ⟨?_, fun u hu => ⟨trivial, fun u' hu' => ⟨?_, fun _ _ => trivial⟩⟩⟩⟩⟩⟩
  · exact fun _ => .inl ⟨rfl, 1, by obtain rfl := Option.some.inj hs; decide, rfl⟩
  all_goals
    obtain rfl := Option.some.inj hs
    obtain rfl := Option.some.inj hs'
    obtain rfl := Option.some.inj hs''
  · intro g hg _ _
    obtain rfl := Option.some.inj hg
    decide
  · obtain rfl := Option.some.inj hu
    obtain rfl := Option.some.inj hu'
    intro i _ w _ _ _
    exact ⟨fun x hx => absurd hx List.not_mem_nil, fun a ha => absurd ha List.not_mem_nil⟩

/-- The work is destroyed, and the item of its image stays in the tray. -/
theorem not_always_intact_destroyWork :
    ¬ Always step (fun _ _ u => u.Intact ∧ u.Renders) (State.empty [1]) (filled ++ [.destroyWork 1]) := by
  intro halways
  have hleads := (((((halways _ rfl).2 _ rfl).2 _ rfl).2 _ rfl).2 _ rfl).1.1.leads _ List.mem_cons_self
  rcases hleads with ⟨i, hi, -⟩ | ⟨a, ha, -⟩
  · exact absurd hi List.not_mem_nil
  · exact absurd ha List.not_mem_nil

end Contents
end Curarium
