import Curarium.Work.Show
import Mathlib.Data.List.Sort

/-!
# Annotations and the images they are drawn on

The page of a work shows one of its images, and whoever is signed in may draw a rectangle on it. The
script of the page puts the rectangle and the address of the image into the form. What becomes of it
goes through `Work#annotations`, a shortcut to the annotations of the first image, which both the
action that creates and the page that lists them take.

* `mem_notes_create` — so an annotation is listed wherever it was drawn.
* `belongs_iff` — it belongs to the image it was drawn on exactly if the work has one image. Without a
  rectangle there is no page at all afterwards, since the list adds its corners up.
-/

namespace Curarium
namespace Show

deriving instance DecidableEq for MediaItem

/-! ### The tables -/

/-- A row of `images`, with its key and its work. -/
structure ImageRow where
  id : Nat
  workId : Option Nat
  image : Image
deriving DecidableEq

/-- A row of `annotations`, with what the page does not list. -/
structure Note where
  shown : Annotation
  userId : Option Nat
  imageId : Option Nat
  imageUrl : Option String
  thumbnailUrl : Option String
deriving DecidableEq

/-- The two tables with their keys, and the id of the next annotation. -/
structure NoteTables where
  images : List ImageRow
  notes : List Note
  next : Nat
  distinct : (images.map ImageRow.id).Nodup
  below : ∀ a ∈ notes, a.shown.id < next

namespace NoteTables

variable (t : NoteTables) (work : Nat)

/-- `@work.images` -/
def imagesOf : List ImageRow :=
  (t.images.filter fun i => i.workId = some work).insertionSort fun i j => i.id ≤ j.id

/-- `image.annotations` -/
def notesOf (image : Nat) : List Note := t.notes.filter fun a => a.imageId = some image

/-- `Work#annotations`. Without an image it raises (`none`). -/
def annotations : Option (List Note) := (t.imagesOf work).head?.map fun first => t.notesOf first.id

end NoteTables

/-! ### The page -/

section Page

variable {D : Type} (names : Names) (w : WorkData D)

/-- A work with its images and annotations from the tables. -/
def WorkData.load (t : NoteTables) : Option (WorkData D) :=
  (t.annotations w.id).map fun notes =>
    { w with
      row := { w.row with images := (t.imagesOf w.id).map ImageRow.image }
      annotations := notes.map Note.shown }

/-- The annotations that a page lists. -/
def Response.items : Response → Option (List MediaItem)
  | .page _ _ _ _ annotations => some annotations
  | _ => none

/-- The annotations on the page of a work, if there is a page. -/
def listed (t : NoteTables) (image : Option WorksIndex.Text) : Option (List MediaItem) :=
  (w.load t).bind fun w => (respond names w image .html).bind Response.items

end Page

/-! ### The form and the action -/

/-- The rectangle that was drawn, as the script rounds it. -/
structure Box where
  x : Int
  y : Int
  width : Int
  height : Int
deriving DecidableEq

/-- What is entered: two texts, and a rectangle if one is drawn, with the address of the picture that
the canvas makes of it. -/
structure Drawing where
  title : String
  body : String
  drawn : Option (Box × String)
deriving DecidableEq

/-- `params[ :annotation ]` -/
structure NoteParams where
  title : Option String
  body : Option String
  x : Option Int
  y : Option Int
  width : Option Int
  height : Option Int
  imageUrl : Option String
  thumbnailUrl : Option String
deriving DecidableEq

/-- The form, as the script of the page of an image fills it in. The hidden fields are empty before. -/
def Drawing.params (shown : Image) (d : Drawing) : NoteParams where
  title := some d.title
  body := some d.body
  x := d.drawn.map fun b => b.1.x
  y := d.drawn.map fun b => b.1.y
  width := d.drawn.map fun b => b.1.width
  height := d.drawn.map fun b => b.1.height
  imageUrl := some (d.drawn.elim "" fun _ => shown.imageUrl.getD "")
  thumbnailUrl := some (d.drawn.elim "" Prod.snd)

/-- The address of the thumbnail, if one is given that has data, and the data can be written. -/
def thumbnailOf (root : String) (written : Bool) (id : Nat) (thumbnailUrl : Option String) :
    Option String :=
  if (thumbnailUrl.any fun u => !Ruby.blank u.toList && 1 < (Ruby.split ',' u.toList).length) && written then
    some (root ++ "annotation_thumbnails/" ++ toString id ++ ".png")
  else none

/-- `@work.annotations.new(annotation_params)`, saved under its id. -/
def NoteParams.note (p : NoteParams) (id user image : Nat) (thumbnail : Option String) : Note where
  shown := ⟨id, p.title, p.body, p.x, p.y, p.width, p.height⟩
  userId := some user
  imageId := some image
  imageUrl := p.imageUrl
  thumbnailUrl := thumbnail

/-- The tables with one annotation more. -/
def NoteTables.insert (t : NoteTables) (p : NoteParams) (user image : Nat) (thumbnail : Option String) : NoteTables where
  images := t.images
  notes := t.notes ++ [p.note t.next user image thumbnail]
  next := t.next + 1
  distinct := t.distinct
  below := by
    intro a ha
    rcases List.mem_append.mp ha with ha | ha
    · exact (t.below a ha).trans (Nat.lt_succ_self _)
    · obtain rfl := List.mem_singleton.mp ha
      exact Nat.lt_succ_self _

/-- `AnnotationsController#create` for a work that is there. It raises (`none`) for a work without an
image, and without a user. No validation fails: `validate` only calls the methods it is given. -/
def createNote (root : String) (t : NoteTables) (work : Nat) (user : Option Nat) (p : NoteParams)
    (written : Bool) : Option NoteTables :=
  (t.imagesOf work).head?.bind fun first => user.map fun user =>
    t.insert p user first.id (thumbnailOf root written t.next p.thumbnailUrl)

/-! ### Where an annotation is shown -/

section Shown

variable {D : Type} {names : Names} {w : WorkData D} {t : NoteTables} {image : Option WorksIndex.Text}

/-- What the page needs of a work besides its images and annotations. -/
def panels (names : Names) (w : WorkData D) : Option Panel :=
  ((currentMetadata w).bind evalParsed).bind fun _ => metadataPanel names w

/-- The list is that of the work, whichever image is shown. -/
theorem respond_items (names : Names) (w : WorkData D) (image : Option WorksIndex.Text) :
    (respond names w image .html).bind Response.items =
      (imageAt w.row.images (imageIndex image)).bind fun _ =>
        (panels names w).bind fun _ => w.annotations.mapM mediaItem := by
  unfold respond panels
  rw [Option.bind_assoc]
  refine Option.bind_congr fun shown _ => ?_
  cases (currentMetadata w).bind evalParsed with
  | none => rfl
  | some e =>
    cases metadataPanel names w with
    | none => rfl
    | some panel =>
      cases w.annotations.mapM mediaItem with
      | none => rfl
      | some items => rfl

theorem listed_eq (names : Names) (w : WorkData D) (t : NoteTables) (image : Option WorksIndex.Text) :
    listed names w t image = (t.annotations w.id).bind fun notes =>
      (imageAt ((t.imagesOf w.id).map ImageRow.image) (imageIndex image)).bind fun _ =>
        (panels names w).bind fun _ => (notes.map Note.shown).mapM mediaItem := by
  unfold listed WorkData.load
  rw [Option.bind_map]
  exact Option.bind_congr fun notes _ => respond_items names _ image

/-- An annotation can be listed if it has a rectangle. -/
theorem mediaItem_note (d : Drawing) (shown : Image) (id user at' : Nat) (thumbnail : Option String) :
    (mediaItem ((d.params shown).note id user at' thumbnail).shown).map MediaItem.id =
      d.drawn.map fun _ => id := by
  obtain ⟨title, body, drawn⟩ := d
  cases drawn with
  | none => rfl
  | some b => rfl

/-- An image that is shown is one of the images of the work. -/
theorem imageAt_natCast (images : List Image) (i : Nat) : imageAt images i = images[i]? := by
  unfold imageAt
  rw [if_pos (Int.natCast_nonneg i), Int.toNat_natCast]

/-- The page of a work lists an annotation. -/
def IsListed (names : Names) (w : WorkData D) (t : NoteTables) (image : Option WorksIndex.Text) (id : Nat) : Prop :=
  ∃ items, listed names w t image = some items ∧ ∃ m ∈ items, m.id = id

variable {i : Nat} {items : List MediaItem}

/-- If there is a page of one image, there is one of each, with the same list. -/
theorem listed_iff (himage : imageIndex image = i) :
    listed names w t image = some items ↔
      i < (t.imagesOf w.id).length ∧ (panels names w).isSome ∧
        ∃ notes, t.annotations w.id = some notes ∧ (notes.map Note.shown).mapM mediaItem = some items := by
  rw [listed_eq, himage, imageAt_natCast, Option.bind_eq_some_iff]
  constructor
  · rintro ⟨notes, hnotes, h⟩
    obtain ⟨shown, hshown, h⟩ := Option.bind_eq_some_iff.mp h
    obtain ⟨panel, hpanel, h⟩ := Option.bind_eq_some_iff.mp h
    refine ⟨?_, Option.isSome_iff_exists.mpr ⟨panel, hpanel⟩, notes, hnotes, h⟩
    rw [← List.length_map ImageRow.image]
    exact (List.getElem?_eq_some_iff.mp hshown).1
  · rintro ⟨hi, hpanel, notes, hnotes, h⟩
    obtain ⟨panel, hpanel⟩ := Option.isSome_iff_exists.mp hpanel
    rw [← List.length_map ImageRow.image] at hi
    refine ⟨notes, hnotes, ?_⟩
    rw [List.getElem?_eq_getElem hi, Option.bind_some, hpanel, Option.bind_some, h]

/-- An annotation that is created comes after the others of the work. -/
theorem NoteTables.annotations_insert {id user : Nat} {notes : List Note} {first : ImageRow}
    {thumbnail : Option String} {p : NoteParams} (hnotes : t.annotations id = some notes)
    (hfirst : (t.imagesOf id).head? = some first) :
    (t.insert p user first.id thumbnail).annotations id =
      some (notes ++ [p.note t.next user first.id thumbnail]) := by
  unfold NoteTables.annotations at hnotes ⊢
  change ((t.imagesOf id).head?.map _) = _
  rw [hfirst] at hnotes ⊢
  obtain rfl := Option.some.inj hnotes
  -- it is attached to the first image, whose annotations are the ones of the work
  change some ((t.notes ++ [p.note t.next user first.id thumbnail]).filter _) = _
  have hkeep : decide ((p.note t.next user first.id thumbnail).imageId = some first.id) = true :=
    decide_eq_true rfl
  rw [List.filter_append, List.filter_singleton, hkeep]
  rfl

/-- One annotation more is one item more, if it can be listed. -/
theorem mapM_mediaItem_append {notes : List Note} (h : (notes.map Note.shown).mapM mediaItem = some items)
    (new : Note) : ((notes ++ [new]).map Note.shown).mapM mediaItem =
      (mediaItem new.shown).map fun m => items ++ [m] := by
  rw [List.map_append, List.mapM_append, h]
  change (mediaItem new.shown >>= fun m => some [m]) >>= _ = _
  cases mediaItem new.shown with
  | none => rfl
  | some m => rfl

/-- **What is created is listed on every page** if a rectangle was drawn, and else there is no page. -/
theorem isListed_insert_iff {image' : Option WorksIndex.Text} {j : Nat} (himage : imageIndex image = i)
    (hpage : listed names w t image = some items) (himage' : imageIndex image' = j)
    (hj : j < (t.imagesOf w.id).length) {first : ImageRow} (hfirst : (t.imagesOf w.id).head? = some first)
    (d : Drawing) (shown : Image) (user : Nat) (thumbnail : Option String) :
    IsListed names w (t.insert (d.params shown) user first.id thumbnail) image' t.next ↔ d.drawn.isSome := by
  obtain ⟨-, hpanel, notes, hnotes, hitems⟩ := (listed_iff himage).mp hpage
  have hnew : (t.insert (d.params shown) user first.id thumbnail).annotations w.id =
      some (notes ++ [(d.params shown).note t.next user first.id thumbnail]) :=
    t.annotations_insert hnotes hfirst
  have hmap := mapM_mediaItem_append hitems ((d.params shown).note t.next user first.id thumbnail)
  have hid := mediaItem_note d shown t.next user first.id thumbnail
  constructor
  · rintro ⟨items', hlisted, -⟩
    -- a page lists it only if it has a rectangle
    obtain ⟨-, -, notes', hnotes', hitems'⟩ := (listed_iff himage').mp hlisted
    obtain rfl := Option.some.inj (hnew.symm.trans hnotes')
    obtain ⟨m, hm, -⟩ := Option.map_eq_some_iff.mp (hmap.symm.trans hitems')
    rw [hm, Option.map_some] at hid
    obtain ⟨b, hb, -⟩ := Option.map_eq_some_iff.mp hid.symm
    rw [hb, Option.isSome_some]
  · intro hdrawn
    obtain ⟨b, hb⟩ := Option.isSome_iff_exists.mp hdrawn
    rw [hb, Option.map_some] at hid
    obtain ⟨m, hm, hmid⟩ := Option.map_eq_some_iff.mp hid
    refine ⟨items ++ [m], (listed_iff himage').mpr ⟨hj, hpanel, _, hnew, ?_⟩, m, ?_, hmid⟩
    · rw [hmap, hm, Option.map_some]
    · exact List.mem_append_right _ (List.mem_singleton_self m)

end Shown

/-! ### The image of an annotation -/

/-- An annotation belongs to the image with an index: it is attached to it, and listed on its page and on
that of no other image of the work. -/
structure BelongsTo {D : Type} (names : Names) (w : WorkData D) (t : NoteTables) (i id : Nat) : Prop where
  attached : ∃ image, (t.imagesOf w.id)[i]? = some image ∧
    ∀ a ∈ t.notes, a.shown.id = id → a.imageId = some image.id
  shown : ∀ image, imageIndex image = i → IsListed names w t image id
  notShown : ∀ j < (t.imagesOf w.id).length, j ≠ i → ∀ image, imageIndex image = j →
    ¬ IsListed names w t image id

/-- What is created is attached to the first image. -/
theorem insert_attached (t : NoteTables) (p : NoteParams) (user image : Nat) (thumbnail : Option String) :
    ∀ a ∈ (t.insert p user image thumbnail).notes, a.shown.id = t.next → a.imageId = some image := by
  intro a ha hid
  rcases List.mem_append.mp ha with ha | ha
  · exact absurd hid (t.below a ha).ne
  · obtain rfl := List.mem_singleton.mp ha
    rfl

theorem nodup_imagesOf (t : NoteTables) (work : Nat) : ((t.imagesOf work).map ImageRow.id).Nodup := by
  have hperm : ((t.imagesOf work).map ImageRow.id).Perm
      ((t.images.filter fun i => i.workId = some work).map ImageRow.id) :=
    (List.perm_insertionSort _ _).map _
  exact hperm.nodup_iff.mpr (t.distinct.sublist (List.filter_sublist.map _))

/-- **It is attached to the image that was shown** exactly if that is the first one. -/
theorem attached_iff {t : NoteTables} {work i : Nat} {first shown : ImageRow}
    (hfirst : (t.imagesOf work).head? = some first) (hshown : (t.imagesOf work)[i]? = some shown)
    (p : NoteParams) (user : Nat) (thumbnail : Option String) :
    (∀ a ∈ (t.insert p user first.id thumbnail).notes, a.shown.id = t.next → a.imageId = some shown.id) ↔
      i = 0 := by
  rw [List.head?_eq_getElem?] at hfirst
  constructor
  · intro h
    have hid : first.id = shown.id :=
      Option.some.inj (h _ (List.mem_append_right _ (List.mem_singleton_self _)) rfl)
    obtain ⟨hi, rfl⟩ := List.getElem?_eq_some_iff.mp hshown
    obtain ⟨h0, rfl⟩ := List.getElem?_eq_some_iff.mp hfirst
    -- the images have different ids
    have heq : (t.imagesOf work)[i] = (t.imagesOf work)[0] :=
      List.inj_on_of_nodup_map (nodup_imagesOf t work) (List.getElem_mem hi) (List.getElem_mem h0) hid.symm
    exact (List.Nodup.of_map _ (nodup_imagesOf t work)).getElem_inj_iff.mp heq
  · rintro rfl
    obtain rfl := Option.some.inj (hfirst.symm.trans hshown)
    exact insert_attached t p user first.id thumbnail

/-- **An annotation belongs to the image it was drawn on** exactly if the work has one image and a
rectangle was drawn, whichever image the page shows. -/
theorem belongs_iff {D : Type} (names : Names) (w : WorkData D) (t : NoteTables)
    {image : Option WorksIndex.Text} {i : Nat} (himage : imageIndex image = i) {items : List MediaItem}
    (hpage : listed names w t image = some items) (root : String) (user : Nat) (d : Drawing) (written : Bool) :
    ∃ shown t', (t.imagesOf w.id)[i]? = some shown ∧
      createNote root t w.id (some user) (d.params shown.image) written = some t' ∧
      (BelongsTo names w t' i t.next ↔ (t.imagesOf w.id).length = 1 ∧ d.drawn.isSome) := by
  have hi : i < (t.imagesOf w.id).length := ((listed_iff himage).mp hpage).1
  obtain ⟨first, hfirst⟩ : ∃ first, (t.imagesOf w.id).head? = some first := by
    rw [← Option.isSome_iff_exists, List.isSome_head?, List.ne_nil_iff_length_pos]
    exact Nat.zero_lt_of_lt hi
  obtain ⟨shown, hshown⟩ : ∃ shown, (t.imagesOf w.id)[i]? = some shown :=
    ⟨_, List.getElem?_eq_getElem hi⟩
  obtain ⟨thumbnail, hthumbnail⟩ :
    ∃ u, u = thumbnailOf root written t.next (d.params shown.image).thumbnailUrl := ⟨_, rfl⟩
  refine ⟨shown, t.insert (d.params shown.image) user first.id thumbnail, hshown, ?_, ?_⟩
  · unfold createNote
    rw [hfirst, hthumbnail]
    rfl
  -- the page of every image lists it
  have hlists : ∀ {j : Nat} {image' : Option WorksIndex.Text}, imageIndex image' = j →
      j < (t.imagesOf w.id).length →
      (IsListed names w (t.insert (d.params shown.image) user first.id thumbnail) image' t.next ↔
        d.drawn.isSome) :=
    fun himage' hj => isListed_insert_iff himage hpage himage' hj hfirst d shown.image user thumbnail
  constructor
  · intro h
    have hdrawn : d.drawn.isSome := (hlists himage hi).mp (h.shown image himage)
    refine ⟨?_, hdrawn⟩
    by_contra hne
    by_cases h0 : i = 0
    · -- so it is on the page of the second image
      have h1 : imageIndex (some ['1']) = (1 : Nat) := by decide
      have hlt : 1 < (t.imagesOf w.id).length := by omega
      exact h.notShown 1 hlt (by omega) _ h1 ((hlists h1 hlt).mpr hdrawn)
    · -- so it is on the page of the first image
      have hlt : 0 < (t.imagesOf w.id).length := Nat.zero_lt_of_lt hi
      exact h.notShown 0 hlt (Ne.symm h0) none rfl ((hlists rfl hlt).mpr hdrawn)
  · rintro ⟨hlen, hdrawn⟩
    obtain rfl : i = 0 := by omega
    refine ⟨⟨shown, hshown, (attached_iff hfirst hshown _ user thumbnail).mpr rfl⟩, ?_, ?_⟩
    · exact fun image' himage' => (hlists himage' hi).mpr hdrawn
    · intro j hj hj0
      have hj' : j < (t.imagesOf w.id).length := hj
      omega

/-- A work with some images, and a rectangle. -/
def imageTables (n : Nat) : NoteTables where
  images := (List.range n).map fun i => ⟨i, some 1, ⟨some "a.jpg", none⟩⟩
  notes := []
  next := 0
  distinct := by
    rw [List.map_map]
    exact List.nodup_range.map fun _ _ h => h
  below := fun _ h => absurd h List.not_mem_nil

def smallBox : Drawing := ⟨"t", "b", some (⟨0, 0, 1, 1⟩, "data:image/png;base64,")⟩

/-- The page of an image, before anything is drawn. -/
theorem listed_imageTables_two : listed oneCollection (amendedWork []) (imageTables 2) (some ['1']) = some [] := by
  decide +kernel

theorem listed_imageTables_one : listed oneCollection (amendedWork []) (imageTables 1) none = some [] := by
  decide +kernel

/-- Drawn on the second image of two, an annotation is listed on the page of the first. -/
theorem second_image_note :
    imageIndex (some ['1']) = (1 : Nat) ∧
      listed oneCollection (amendedWork []) (imageTables 2) (some ['1']) = some [] ∧
      ∃ t', createNote "/" (imageTables 2) 1 (some 1) (smallBox.params ⟨some "a.jpg", none⟩) true = some t' ∧
        IsListed oneCollection (amendedWork []) t' none (imageTables 2).next ∧
        ¬ BelongsTo oneCollection (amendedWork []) t' 1 (imageTables 2).next := by
  have hindex : imageIndex (some ['1']) = (1 : Nat) := by decide
  have hfirst : ((imageTables 2).imagesOf 1).head? = some ⟨0, some 1, ⟨some "a.jpg", none⟩⟩ := by decide
  have hlisted : IsListed oneCollection (amendedWork [])
      ((imageTables 2).insert (smallBox.params ⟨some "a.jpg", none⟩) 1 0
        (thumbnailOf "/" true 0 (smallBox.params ⟨some "a.jpg", none⟩).thumbnailUrl)) none 0 :=
    (isListed_insert_iff hindex listed_imageTables_two (rfl : imageIndex none = (0 : Nat)) (by decide)
      hfirst smallBox _ 1 _).mpr rfl
  refine ⟨hindex, listed_imageTables_two, _, rfl, hlisted, fun h => ?_⟩
  -- it is not for the page of the second image only
  exact h.notShown 0 (by decide) (by decide) none rfl hlisted

/-- Drawn on the only image, it belongs to it. -/
theorem belongs_iff_one :
    ∃ shown t', ((imageTables 1).imagesOf 1)[0]? = some shown ∧
      createNote "/" (imageTables 1) 1 (some 1) (smallBox.params shown.image) true = some t' ∧
      BelongsTo oneCollection (amendedWork []) t' 0 (imageTables 1).next := by
  obtain ⟨shown, t', hshown, hcreate, hiff⟩ := belongs_iff oneCollection (amendedWork []) (imageTables 1)
    (rfl : imageIndex none = (0 : Nat)) listed_imageTables_one "/" 1 smallBox true
  have hlen : ((imageTables 1).imagesOf 1).length = 1 := by decide
  exact ⟨shown, t', hshown, hcreate, hiff.mpr ⟨hlen, rfl⟩⟩

end Show
end Curarium
