import Curarium.Workers.Reconfigure
import Curarium.Library.Tables

/-!
# Works with a thumbnail

The scope `with_thumb` asks whether any image of a work has a thumbnail, and `Work#thumbnail_url` is that
of the first image. Images are only ever added, behind those that are there, by the jobs that configure
the work.

* `step` — a collection from its upload on: a record is uploaded, or one of the events of
  `Curarium.Reconfigure`.
* `agrees_append_iff` — when scope and accessor still agree about a work that gets more images.
* `always_agree_iff` — so they agree all along a run exactly when each of its jobs either finds, or
  makes, a first image with a thumbnail, or adds no thumbnail at all.
-/

namespace Curarium
namespace Thumbnails

open Work Runs
open ConfigureWork (perform yield rowsOf uploaded)
open Reconfigure (State start)

variable {D : Type} (A : Adapter D)

/-! ### Uploads and configurations -/

inductive Event where
  /-- `@collection.works.create` for a record of the archive. -/
  | upload (text : String)
  | configure (e : Reconfigure.Event)

def step (s : State D) : Event → Option (State D)
  | .upload text => some { s with works := s.works ++ [uploaded text] }
  | .configure e => Reconfigure.step A s e

/-! ### The scope and the accessor -/

/-- `Work.with_thumb` -/
def withThumb (images : List Image) : Bool := images.any fun i => i.thumbnailUrl.isSome

/-- `Work#thumbnail_url` -/
def thumbnailUrl (images : List Image) : Option String := images.head?.bind Image.thumbnailUrl

/-- `present?` -/
def present (url : Option String) : Bool := url.any fun u => !Ruby.blank u.toList

/-- A work is in the scope exactly when its thumbnail is present. -/
def Agrees (images : List Image) : Prop := withThumb images = true ↔ present (thumbnailUrl images) = true

/-- Scope and accessor agree about every work. -/
def Agree (s : State D) : Prop := ∀ row ∈ s.works, Agrees row.images

variable {A}

theorem withThumb_eq_false_iff {images : List Image} :
    withThumb images = false ↔ ∀ i ∈ images, i.thumbnailUrl = none := by
  unfold withThumb
  rw [List.any_eq_false]
  refine forall₂_congr fun i _ => ?_
  rw [Option.not_isSome_iff_eq_none]

/-- What has a thumbnail on its first image has one. -/
theorem withThumb_of_present {images : List Image} (h : present (thumbnailUrl images) = true) :
    withThumb images = true := by
  by_contra hnot
  rw [Bool.not_eq_true, withThumb_eq_false_iff] at hnot
  cases images with
  | nil => cases h
  | cons i images =>
    unfold thumbnailUrl at h
    rw [List.head?_cons, Option.bind_some, hnot i List.mem_cons_self] at h
    cases h

/-- **More images leave scope and accessor in agreement** exactly if the first image of all has a
thumbnail that is present, or none of the new ones has any. -/
theorem agrees_append_iff {old new : List Image} (hold : Agrees old) :
    Agrees (old ++ new) ↔
      present (thumbnailUrl (old ++ new)) = true ∨ ∀ i ∈ new, i.thumbnailUrl = none := by
  constructor
  · intro h
    by_cases hfirst : present (thumbnailUrl (old ++ new)) = true
    · exact Or.inl hfirst
    · -- so the work is not in the scope, and no image of it has a thumbnail
      have hscope : withThumb (old ++ new) = false := by
        rw [← Bool.not_eq_true]
        exact fun hscope => hfirst (h.mp hscope)
      exact Or.inr fun i hi => withThumb_eq_false_iff.mp hscope i (List.mem_append_right old hi)
  · rintro (hfirst | hnone)
    · exact ⟨fun _ => hfirst, withThumb_of_present⟩
    · have hscope : withThumb (old ++ new) = withThumb old := by
        have hnew : withThumb new = false := withThumb_eq_false_iff.mpr hnone
        unfold withThumb at hnew ⊢
        rw [List.any_append, hnew, Bool.or_false]
      cases old with
      | nil =>
        refine ⟨fun h => ?_, withThumb_of_present⟩
        rw [hscope] at h
        cases h
      | cons i old =>
        -- the first image is the one that was there
        unfold Agrees
        rw [hscope]
        exact hold

/-! ### Runs -/

section Runs

variable (A)

/-- The condition on a step: if it is a job that adds images, the first image of the work has a thumbnail
that is present, or none of the new ones has any. -/
def Keeps (s : State D) : Event → Prop
  | .configure (.run i _) => ∀ job row y, s.queue[i]? = some job → s.works[job.work]? = some row →
      yield A job.configuration row.document = some y →
        present (thumbnailUrl (row.images ++ y.rows)) = true ∨ ∀ i ∈ y.rows, i.thumbnailUrl = none
  | _ => True

variable {A}

/-- The second copy of the rows, which comes with the colours, changes nothing. -/
theorem agrees_rowsOf_iff {old : List Image} (hold : Agrees old) (thumb : Thumb) (y : Yield D) :
    Agrees (old ++ rowsOf thumb y) ↔
      present (thumbnailUrl (old ++ y.rows)) = true ∨ ∀ i ∈ y.rows, i.thumbnailUrl = none := by
  rw [agrees_append_iff hold]
  unfold rowsOf
  split
  case isFalse => exact Iff.rfl
  case isTrue =>
    have hhead : thumbnailUrl (old ++ (y.rows ++ y.rows)) = thumbnailUrl (old ++ y.rows) := by
      unfold thumbnailUrl
      rw [List.head?_append, List.head?_append, List.head?_append]
      cases old.head? <;> cases y.rows.head? <;> rfl
    rw [hhead]
    refine or_congr_right (forall_congr' fun i => ?_)
    rw [List.mem_append, or_self_iff]

/-- A job keeps the agreement about a work exactly in these cases. -/
theorem agrees_perform_iff {c : Configuration} {thumb : Thumb} {row : Record D} (hrow : Agrees row.images) :
    Agrees (perform A c thumb row).images ↔ ∀ y, yield A c row.document = some y →
      present (thumbnailUrl (row.images ++ y.rows)) = true ∨ ∀ i ∈ y.rows, i.thumbnailUrl = none := by
  rw [ConfigureWork.perform_eq]
  cases yield A c row.document with
  | none => exact ⟨fun _ _ h => (by cases h), fun _ => hrow⟩
  | some y =>
    obtain ⟨-, -, -, -, -, -, himages⟩ := ConfigureWork.settle_columns A thumb y row
    rw [Option.map_some, Option.getD_some, himages, agrees_rowsOf_iff hrow]
    constructor
    · intro h y' hy'
      obtain rfl := Option.some.inj hy'
      exact h
    · exact fun h => h y rfl

/-- **One step** keeps the agreement exactly if it meets the condition. -/
theorem agree_step_iff {s t : State D} {e : Event} (hs : Agree s) (h : step A s e = some t) :
    Agree t ↔ Keeps A s e := by
  match e, h with
  | .upload text, h =>
    obtain rfl := Option.some.inj h
    refine ⟨fun _ => trivial, fun _ => Tables.forall_mem_insert hs ?_⟩
    -- there is no image yet
    exact ⟨fun h => (by cases h), fun h => (by cases h)⟩
  | .configure (.update c), h =>
    obtain rfl := Option.some.inj h
    exact ⟨fun _ => trivial, fun _ => hs⟩
  | .configure .reconfigure, h =>
    obtain rfl := Option.some.inj h
    exact ⟨fun _ => trivial, fun _ => hs⟩
  | .configure (.run i thumb), h =>
    obtain ⟨job, hjob, h⟩ := Option.bind_eq_some_iff.mp h
    obtain rfl := Option.some.inj h
    constructor
    · intro ht job' row y hjob' hrow hy
      obtain rfl := Option.some.inj (hjob.symm.trans hjob')
      have hmem : perform A job.configuration thumb row ∈
          s.works.modify job.work (perform A job.configuration thumb) := by
        refine List.mem_of_getElem? (i := job.work) ?_
        rw [List.getElem?_modify, hrow]
        exact congrArg some (if_pos rfl)
      exact (agrees_perform_iff (hs row (List.mem_of_getElem? hrow))).mp (ht _ hmem) y hy
    · intro hkeeps x hx
      obtain ⟨k, hk⟩ := List.getElem?_of_mem hx
      change (s.works.modify job.work _)[k]? = some x at hk
      rw [List.getElem?_modify] at hk
      obtain ⟨row, hrow, rfl⟩ := Option.map_eq_some_iff.mp hk
      have hold := hs row (List.mem_of_getElem? hrow)
      split
      case isTrue heq =>
        subst heq
        exact (agrees_perform_iff hold).mpr fun y hy => hkeeps job row y hjob hrow hy
      case isFalse => exact hold

/-- **The thumbnail scope agrees with the thumbnail accessor** all along a run from an empty collection
exactly if every job of the run either finds or makes a first image with a thumbnail, or adds no
thumbnail. -/
theorem always_agree_iff (A : Adapter D) (c : Configuration) (es : List Event) {t : State D}
    (h : exec (step A) (start c []) es = some t) :
    Always (step A) (fun _ _ t => Agree t) (start c []) es ↔ Meets (step A) (Keeps A) (start c []) es := by
  refine always_iff_meets (J := fun _ => True) (I := Agree) (fun _ _ _ _ _ => trivial) (fun _ _ _ h => h)
    (fun s e t _ hs ht => agree_step_iff hs ht) trivial ?_ h
  exact fun row hrow => absurd hrow List.not_mem_nil

end Runs

/-- A record with an image and a thumbnail. -/
def painting : String := "\x7b\"image\": [\"a.jpg\"], \"thumb\": [\"t.jpg\"]\x7d"

def imagesOnly : Configuration where
  fields := [("image", .steps [.str "image", .str "*"])]
  nodup := by decide

def imagesAndThumbnails : Configuration where
  fields := [("image", .steps [.str "image", .str "*"]), ("thumbnail", .steps [.str "thumb", .str "*"])]
  nodup := by decide

/-- Configured without thumbnails, and then with them: the second image has one, and the first has
none. -/
def secondThought : List Event :=
  [.upload painting, .configure .reconfigure, .configure (.run 0 .notCached),
    .configure (.update imagesAndThumbnails), .configure .reconfigure, .configure (.run 0 .notCached)]

theorem agree_fails_secondThought :
    ∃ t, exec (step (.plain true)) (start imagesOnly []) secondThought = some t ∧ ¬ Agree t := by
  have hrun : (exec (step (.plain true)) (start imagesOnly []) secondThought).any (fun t => t.works.any
      fun row => withThumb row.images && !present (thumbnailUrl row.images)) = true := by decide +kernel
  cases ht : exec (step (.plain true)) (start imagesOnly []) secondThought with
  | none =>
    rw [ht] at hrun
    cases hrun
  | some t =>
    rw [ht, Option.any_some] at hrun
    obtain ⟨row, hrow, hboth⟩ := List.any_eq_true.mp hrun
    obtain ⟨hscope, hurl⟩ := Bool.and_eq_true_iff.mp hboth
    refine ⟨t, rfl, fun hagree => ?_⟩
    rw [(hagree row hrow).mp hscope] at hurl
    cases hurl

/-- One record, configured with images and thumbnails at once. -/
def once : List Event := [.upload painting, .configure .reconfigure, .configure (.run 0 .notCached)]

theorem always_agree_iff_once :
    Always (step (.plain true)) (fun _ _ t => Agree t) (start imagesAndThumbnails []) once := by
  refine (always_agree_iff (.plain true) imagesAndThumbnails once rfl).mpr ?_
  refine ⟨trivial, fun t ht => ?_⟩
  obtain rfl := Option.some.inj ht
  refine ⟨trivial, fun t ht => ?_⟩
  obtain rfl := Option.some.inj ht
  refine ⟨fun job row y hjob hrow hy => .inl ?_, fun _ _ => trivial⟩
  obtain rfl := Option.some.inj hjob
  obtain rfl := Option.some.inj hrow
  -- the images of the job start with one that has a thumbnail
  have hfirst : (yield (.plain true) imagesAndThumbnails (uploaded painting : Record String).document).all
      (fun y => present (thumbnailUrl ((uploaded painting : Record String).images ++ y.rows))) = true := by
    decide +kernel
  have hy' : yield (.plain true) imagesAndThumbnails (uploaded painting : Record String).document = some y := hy
  rw [hy'] at hfirst
  exact hfirst

end Thumbnails
end Curarium
