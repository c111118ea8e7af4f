import Curarium.Workers.Thumbnails

/-!
# The cached thumbnail of a work

`Work#cache_thumb` fetches the thumbnail of a work once, into a file that is named after the id of the work,
and `WorksController#thumb` sends that file, or a placeholder while there is none. The jobs that configure
the work call it after they have saved, and the Rake task `cache_thumbs` for every work that has a thumbnail
but no file. Between the look at the file and the write to it a request to another server is made, so all of
these overlap. A client keeps the answer it got, and asks again with the time stamp of the work that came
with it (`stale?`).

* `step` — one work, with any number of jobs, Rake tasks and clients, in any order of their steps.
* `exec_jobEvents` — a job that nothing interrupts leaves the images and the file that
  `Curarium.ConfigureWork.perform` leaves.
* `sourced` — whatever is in the file, and whatever a client shows, was fetched for the first image of the
  work, which does not change any more.
* `always_upToDate_iff` — a client that asks again is shown what the server has exactly if no file is
  written while a client holds another answer with the present time stamp. The Rake task does not touch the
  time stamp, so it leaves the placeholder where it was seen.
-/

namespace Curarium
namespace ThumbCache

open Work Runs Thumbnails
open ConfigureWork (perform yield rowsOf)

variable {B : Type}

/-! ### The file -/

/-- What was read from a URL. -/
structure Fetched (B : Type) where
  source : String
  bytes : B
deriving DecidableEq

/-- How the request to the other server ends. `rescue Net` names a module that no exception is a kind of,
so only an answer that is an error is rescued. -/
inductive Reply (B : Type) where
  | body (b : B)
  | httpError
  | raised

/-- `cache_url` -/
def cacheUrl (url : String) : String :=
  url ++ (if '?' ∈ url.toList then "&" else "?") ++ "width=150&height=150"

/-- `thumbnail_url.present?`, with the URL. -/
def presentUrl (images : List Image) : Option String :=
  (thumbnailUrl images).filter fun u => present (some u)

/-- `Work#cache_thumb`: the file after it and its result; `none` where it raises. -/
def cacheThumb (images : List Image) (file : Option (Fetched B)) (r : Reply B) :
    Option (Option (Fetched B) × Bool) :=
  match file, presentUrl images, r with
  | some f, _, _ => some (some f, true)
  | none, none, _ => some (none, false)
  | none, some u, .body b => some (some ⟨cacheUrl u, b⟩, true)
  | none, some _, .httpError => some (none, false)
  | none, some _, .raised => none

/-! ### Jobs, tasks and clients -/

/-- Where a call of `cache_thumb` stands. -/
inductive Stage (B : Type) where
  /-- Before `File.exists?`. -/
  | checking
  /-- The other server has answered, and the file is to be written. -/
  | writing (f : Fetched B)
  /-- `cache_thumb` has returned `true` to a job. -/
  | coloring

/-- A job, with the image rows it creates, or a Rake task, which has none. -/
structure Task (B : Type) where
  rows : Option (List Image)
  stage : Stage B

/-- What a client holds: the time stamp it was given, and the thumbnail, or the placeholder. -/
structure Held (B : Type) where
  stamp : Nat
  shown : Option (Fetched B)

/-- A work. Its time stamp `updated_at` counts the saves that changed a column. -/
structure State (B : Type) where
  images : List Image
  file : Option (Fetched B)
  updatedAt : Nat
  tasks : List (Task B)
  held : List (Held B)

inductive Event (B : Type) where
  /-- A job saves what it has parsed, and creates its images. -/
  | save (rows : List Image) (stamps : Bool)
  /-- `curarium_cache_thumbs` comes to the work. -/
  | rake
  /-- A call of `cache_thumb` looks for the file, and asks the other server if there is none. -/
  | look (i : Nat) (r : Reply B)
  | write (i : Nat)
  /-- A job saves the colours, if there are any. `none` is `extract_colors` raising. -/
  | colors (i : Nat) (histogram : Option (List Color)) (stamps : Bool)
  /-- `GET /works/1/thumb`, from a client that holds an answer or a new one. -/
  | get (client : Option Nat)

/-- `cache_thumb` returns: a job goes on if there is a file. -/
def finish (s : State B) (i : Nat) (task : Task B) (cached : Bool) : State B :=
  if cached && task.rows.isSome then { s with tasks := s.tasks.set i { task with stage := .coloring } }
  else { s with tasks := s.tasks.eraseIdx i }

/-- `cache_thumb` up to the write. -/
def looked (s : State B) (i : Nat) (task : Task B) (r : Reply B) : State B :=
  match cacheThumb s.images s.file r with
  | none => { s with tasks := s.tasks.eraseIdx i }
  | some (some f, true) =>
    if s.file.isSome then finish s i task true
    else { s with tasks := s.tasks.set i { task with stage := .writing f } }
  | some _ => finish s i task false

def tick (stamps : Bool) (n : Nat) : Nat := if stamps then n + 1 else n

/-- The end of a job. The second save creates the images of the first one again. -/
def colored (s : State B) (i : Nat) (task : Task B) (histogram : Option (List Color)) (stamps : Bool) :
    State B :=
  match histogram with
  | some (_ :: _) =>
    { s with
      images := s.images ++ task.rows.getD []
      updatedAt := tick stamps s.updatedAt
      tasks := s.tasks.eraseIdx i }
  | _ => { s with tasks := s.tasks.eraseIdx i }

/-- What `thumb` sends if it sends anything: the file, or the placeholder. -/
def served (s : State B) : Option (Fetched B) := if thumbnailUrl s.images = none then none else s.file

/-- `WorksController#thumb`; `none` is `304 Not Modified`. -/
def thumb (s : State B) (stamp : Nat) : Option (Option (Fetched B)) :=
  if stamp = s.updatedAt then none else some (served s)

/-- What a client holds after it has asked again. -/
def revalidated (s : State B) (h : Held B) : Held B :=
  match thumb s h.stamp with
  | none => h
  | some shown => ⟨s.updatedAt, shown⟩

def step (s : State B) : Event B → Option (State B)
  | .save rows stamps =>
    some { s with
      images := s.images ++ rows
      updatedAt := tick stamps s.updatedAt
      tasks := s.tasks ++ [⟨some rows, .checking⟩] }
  | .rake =>
    if withThumb s.images && s.file.isNone then some { s with tasks := s.tasks ++ [⟨none, .checking⟩] }
    else none
  | .look i r =>
    s.tasks[i]?.bind fun task =>
      match task.stage with
      | .checking => some (looked s i task r)
      | _ => none
  | .write i =>
    s.tasks[i]?.bind fun task =>
      match task.stage with
      | .writing f => some (finish { s with file := some f } i task true)
      | _ => none
  | .colors i histogram stamps =>
    s.tasks[i]?.bind fun task =>
      match task.stage with
      | .coloring => some (colored s i task histogram stamps)
      | _ => none
  | .get none => some { s with held := s.held ++ [⟨s.updatedAt, served s⟩] }
  | .get (some k) => s.held[k]?.map fun h => { s with held := s.held.set k (revalidated s h) }

/-- A newly uploaded work. -/
def start (B : Type) : State B where
  images := []
  file := none
  updatedAt := 0
  tasks := []
  held := []

/-! ### Whose thumbnail it is -/

/-- It was fetched for the first image. -/
def IsOf (images : List Image) (f : Fetched B) : Prop := ∃ u, presentUrl images = some u ∧ f.source = cacheUrl u

/-- A first image with a thumbnail stays the first. -/
theorem presentUrl_append {images rows : List Image} {u : String} (h : presentUrl images = some u) :
    presentUrl (images ++ rows) = some u := by
  cases images with
  | nil => exact absurd h (by simp [presentUrl, thumbnailUrl])
  | cons i images => exact h

theorem IsOf.append {images : List Image} {f : Fetched B} (h : IsOf images f) (rows : List Image) :
    IsOf (images ++ rows) f := by
  obtain ⟨u, hu, hf⟩ := h
  exact ⟨u, presentUrl_append hu, hf⟩

/-- What has been fetched for the first image is served. -/
theorem served_of_isOf {s : State B} {f : Fetched B} (h : IsOf s.images f) : served s = s.file := by
  obtain ⟨u, hu, -⟩ := h
  have hne : thumbnailUrl s.images ≠ none := by
    rintro hnone
    rw [presentUrl, hnone] at hu
    exact absurd hu (by simp)
  rw [served, if_neg hne]

/-- **Whose thumbnail it is**: whatever is in the file, about to be written, or held by a client, was fetched
for the first image. No client holds a time stamp that is still to come. -/
structure Sourced (s : State B) : Prop where
  file : ∀ f, s.file = some f → IsOf s.images f
  writing : ∀ task ∈ s.tasks, ∀ f, task.stage = .writing f → IsOf s.images f
  shown : ∀ h ∈ s.held, ∀ f, h.shown = some f → IsOf s.images f
  stamps : ∀ h ∈ s.held, h.stamp ≤ s.updatedAt

theorem start_sourced : Sourced (start B) where
  file _ h := nomatch h
  writing _ h := nomatch h
  shown _ h := nomatch h
  stamps _ h := nomatch h

theorem Sourced.served {s : State B} (hs : Sourced s) {f : Fetched B} (h : served s = some f) :
    IsOf s.images f := by
  rw [ThumbCache.served] at h
  exact hs.file f (Option.ite_none_left_eq_some.mp h).2

/-- Tasks may go, and take steps that write nothing. -/
theorem Sourced.tasks {s : State B} (hs : Sourced s) {ts : List (Task B)}
    (h : ∀ task ∈ ts, task ∈ s.tasks ∨ ∀ f, task.stage = .writing f → IsOf s.images f) :
    Sourced { s with tasks := ts } where
  file := hs.file
  writing task ht f hf := (h task ht).elim (fun hold => hs.writing task hold f hf) (fun hnew => hnew f hf)
  shown := hs.shown
  stamps := hs.stamps

theorem Sourced.finish {s : State B} (hs : Sourced s) (i : Nat) (task : Task B) (cached : Bool) :
    Sourced (finish s i task cached) := by
  unfold ThumbCache.finish
  split
  · refine hs.tasks fun t ht => (List.mem_or_eq_of_mem_set ht).imp_right ?_
    rintro rfl f hf
    exact nomatch hf
  · exact hs.tasks fun t ht => .inl (List.mem_of_mem_eraseIdx ht)

/-- A file that `cache_thumb` makes is of the first image. -/
theorem isOf_of_cacheThumb {images : List Image} {file : Option (Fetched B)} {r : Reply B} {f : Fetched B}
    (h : cacheThumb images file r = some (some f, true)) : file = some f ∨ IsOf images f := by
  unfold cacheThumb at h
  split at h
  case h_1 => exact .inl (Prod.mk.inj (Option.some.inj h)).1
  case h_3 u b hu =>
    obtain rfl := Option.some.inj (Prod.mk.inj (Option.some.inj h)).1
    exact .inr ⟨u, hu, rfl⟩
  all_goals exact absurd h (by simp)

theorem Sourced.looked {s : State B} (hs : Sourced s) (i : Nat) (task : Task B) (r : Reply B) :
    Sourced (looked s i task r) := by
  unfold ThumbCache.looked
  split
  case h_1 => exact hs.tasks fun t ht => .inl (List.mem_of_mem_eraseIdx ht)
  case h_2 f hf =>
    split
    case isTrue => exact hs.finish i task true
    case isFalse =>
      refine hs.tasks fun t ht => (List.mem_or_eq_of_mem_set ht).imp_right ?_
      rintro rfl g hg
      obtain rfl : f = g := Stage.writing.inj hg
      exact (isOf_of_cacheThumb hf).elim (hs.file f) id
  case h_3 => exact hs.finish i task false

/-- More images, and perhaps another time stamp. -/
theorem Sourced.images {s : State B} (hs : Sourced s) (rows : List Image) (stamps : Bool) :
    Sourced { s with images := s.images ++ rows, updatedAt := tick stamps s.updatedAt } where
  file f hf := (hs.file f hf).append rows
  writing task ht f hf := (hs.writing task ht f hf).append rows
  shown h hh f hf := (hs.shown h hh f hf).append rows
  stamps h hh := by
    have hle := hs.stamps h hh
    show h.stamp ≤ tick stamps s.updatedAt
    unfold tick
    split <;> omega

theorem Sourced.held {s : State B} (hs : Sourced s) {hs' : List (Held B)}
    (h : ∀ a ∈ hs', a ∈ s.held ∨ (a.stamp = s.updatedAt ∧ a.shown = ThumbCache.served s)) :
    Sourced { s with held := hs' } where
  file := hs.file
  writing := hs.writing
  shown a ha f hf := by
    rcases h a ha with hold | ⟨-, hnew⟩
    · exact hs.shown a hold f hf
    · exact hs.served (hnew ▸ hf)
  stamps a ha := by
    rcases h a ha with hold | ⟨hnew, -⟩
    · exact hs.stamps a hold
    · exact hnew.le

/-- What a client holds is what it held, or what is served. -/
theorem revalidated_cases (s : State B) (h : Held B) :
    revalidated s h = h ∨ revalidated s h = ⟨s.updatedAt, served s⟩ := by
  unfold revalidated thumb
  split_ifs
  · exact .inl rfl
  · exact .inr rfl

theorem step_sourced {s t : State B} {e : Event B} (hs : Sourced s) (h : step s e = some t) : Sourced t := by
  match e, h with
  | .save rows stamps, h =>
    obtain rfl := Option.some.inj h
    refine (hs.images rows stamps).tasks fun task ht => (List.mem_append.mp ht).imp_right ?_
    intro hnew f hf
    obtain rfl := List.mem_singleton.mp hnew
    exact nomatch hf
  | .rake, h =>
    obtain ⟨-, h⟩ := Option.ite_none_right_eq_some.mp h
    obtain rfl := Option.some.inj h
    refine hs.tasks fun task ht => (List.mem_append.mp ht).imp_right ?_
    intro hnew f hf
    obtain rfl := List.mem_singleton.mp hnew
    exact nomatch hf
  | .look i r, h =>
    obtain ⟨task, -, h⟩ := Option.bind_eq_some_iff.mp h
    split at h
    · obtain rfl := Option.some.inj h
      exact hs.looked i task r
    · exact nomatch h
  | .write i, h =>
    obtain ⟨task, htask, h⟩ := Option.bind_eq_some_iff.mp h
    split at h
    case h_1 f hf =>
      obtain rfl := Option.some.inj h
      have hof := hs.writing task (List.mem_of_getElem? htask) f hf
      refine Sourced.finish (s := { s with file := some f }) ⟨fun g hg => ?_, hs.writing, hs.shown, hs.stamps⟩
        i task true
      obtain rfl := Option.some.inj hg
      exact hof
    case h_2 => exact nomatch h
  | .colors i histogram stamps, h =>
    obtain ⟨task, -, h⟩ := Option.bind_eq_some_iff.mp h
    split at h
    · obtain rfl := Option.some.inj h
      unfold colored
      split
      · exact (hs.images _ stamps).tasks fun t ht => .inl (List.mem_of_mem_eraseIdx ht)
      · exact hs.tasks fun t ht => .inl (List.mem_of_mem_eraseIdx ht)
    · exact nomatch h
  | .get none, h =>
    obtain rfl := Option.some.inj h
    refine hs.held fun a ha => (List.mem_append.mp ha).imp_right ?_
    intro hnew
    obtain rfl := List.mem_singleton.mp hnew
    exact ⟨rfl, rfl⟩
  | .get (some k), h =>
    obtain ⟨a, ha, rfl⟩ := Option.map_eq_some_iff.mp h
    refine hs.held fun b hb => ?_
    rcases List.mem_or_eq_of_mem_set hb with hold | rfl
    · exact .inl hold
    · rcases revalidated_cases s a with heq | heq
      · exact .inl (by rw [heq]; exact List.mem_of_getElem? ha)
      · exact .inr ⟨congrArg Held.stamp heq, congrArg Held.shown heq⟩

/-- **Whatever is kept of a thumbnail is of the first image.** After any steps of any jobs, Rake tasks and
clients, the cached file and the thumbnail that a client holds, or shows when it asks again, were fetched
for the first image of the work. -/
theorem sourced {es : List (Event B)} {t : State B} (h : exec step (start B) es = some t) :
    (∀ f, t.file = some f → IsOf t.images f) ∧
      ∀ a ∈ t.held, (∀ f, a.shown = some f → IsOf t.images f) ∧
        ∀ f, (revalidated t a).shown = some f → IsOf t.images f := by
  have ht : Sourced t := exec_preserves (fun _ _ _ hs hstep => step_sourced hs hstep) start_sourced h
  refine ⟨ht.file, fun a ha => ⟨ht.shown a ha, fun f hf => ?_⟩⟩
  rcases revalidated_cases t a with heq | heq
  · exact ht.shown a ha f (by rwa [heq] at hf)
  · exact ht.served (by rwa [heq] at hf)

/-! ### Asking again -/

/-- Every client that asks again is shown what the server has. -/
def UpToDate (s : State B) : Prop := ∀ a ∈ s.held, (revalidated s a).shown = served s

/-- What a write must not do: replace what a client holds with the present time stamp. -/
def Keeps (s : State B) : Event B → Prop
  | .write i => ∀ task f, s.tasks[i]? = some task → task.stage = .writing f →
      ∀ a ∈ s.held, a.stamp = s.updatedAt → a.shown = some f
  | _ => True

/-- What is served is the file: there is none without a first image. -/
theorem Sourced.served_eq {s : State B} (hs : Sourced s) : ThumbCache.served s = s.file := by
  cases hf : s.file with
  | none =>
    rw [ThumbCache.served, hf]
    split <;> rfl
  | some f => rw [← hf, served_of_isOf (hs.file f hf)]

theorem Sourced.upToDate_iff {s : State B} (hs : Sourced s) :
    UpToDate s ↔ ∀ a ∈ s.held, a.stamp = s.updatedAt → a.shown = s.file := by
  unfold UpToDate revalidated thumb
  rw [hs.served_eq]
  refine forall₂_congr fun a _ => ?_
  split_ifs with hstamp
  · exact ⟨fun h _ => h, fun h => h hstamp⟩
  · exact ⟨fun _ h => absurd h hstamp, fun _ => rfl⟩

/-- Nothing but the tasks changes when `cache_thumb` returns. -/
theorem finish_frame (s : State B) (i : Nat) (task : Task B) (cached : Bool) :
    (finish s i task cached).images = s.images ∧ (finish s i task cached).file = s.file ∧
      (finish s i task cached).updatedAt = s.updatedAt ∧ (finish s i task cached).held = s.held := by
  unfold finish
  split <;> exact ⟨rfl, rfl, rfl, rfl⟩

/-- Nor when it looks. -/
theorem looked_frame (s : State B) (i : Nat) (task : Task B) (r : Reply B) :
    (looked s i task r).images = s.images ∧ (looked s i task r).file = s.file ∧
      (looked s i task r).updatedAt = s.updatedAt ∧ (looked s i task r).held = s.held := by
  unfold looked
  split
  case h_1 => exact ⟨rfl, rfl, rfl, rfl⟩
  case h_2 =>
    split
    · exact finish_frame s i task true
    · exact ⟨rfl, rfl, rfl, rfl⟩
  case h_3 => exact finish_frame s i task false

/-- With the file and the answers as they were, and perhaps another time stamp, clients stay up to date. -/
theorem upToDate_of_frame {s t : State B} (hs : Sourced s) (ht : Sourced t) (hd : UpToDate s)
    (hfile : t.file = s.file) (hheld : t.held = s.held) (stamps : Bool)
    (hstamp : t.updatedAt = tick stamps s.updatedAt) : UpToDate t := by
  rw [ht.upToDate_iff, hfile, hheld, hstamp]
  intro a ha hnow
  cases stamps with
  | false => exact hs.upToDate_iff.mp hd a ha hnow
  | true =>
    -- nobody has the new time stamp yet
    have hle := hs.stamps a ha
    have hnew : a.stamp = s.updatedAt + 1 := hnow
    omega

/-- **One step** leaves the clients up to date exactly if it meets the condition. -/
theorem upToDate_step_iff {s t : State B} {e : Event B} (hs : Sourced s) (hd : UpToDate s)
    (h : step s e = some t) : UpToDate t ↔ Keeps s e := by
  have ht := step_sourced hs h
  match e, h with
  | .save rows stamps, h =>
    obtain rfl := Option.some.inj h
    exact iff_of_true (upToDate_of_frame hs ht hd rfl rfl stamps rfl) trivial
  | .rake, h =>
    obtain ⟨-, h⟩ := Option.ite_none_right_eq_some.mp h
    obtain rfl := Option.some.inj h
    exact iff_of_true (upToDate_of_frame hs ht hd rfl rfl false rfl) trivial
  | .look i r, h =>
    obtain ⟨task, -, h⟩ := Option.bind_eq_some_iff.mp h
    split at h
    · obtain rfl := Option.some.inj h
      obtain ⟨-, hfile, hstamp, hheld⟩ := looked_frame s i task r
      exact iff_of_true (upToDate_of_frame hs ht hd hfile hheld false hstamp) trivial
    · exact nomatch h
  | .write i, h =>
    obtain ⟨task, htask, h⟩ := Option.bind_eq_some_iff.mp h
    split at h
    case h_1 f hf =>
      obtain rfl := Option.some.inj h
      obtain ⟨-, hfile, hstamp, hheld⟩ := finish_frame { s with file := some f } i task true
      rw [ht.upToDate_iff, hfile, hstamp, hheld]
      constructor
      · intro hall task' g htask' hg
        obtain rfl := Option.some.inj (htask.symm.trans htask')
        obtain rfl := Stage.writing.inj (hf.symm.trans hg)
        exact hall
      · exact fun hkeeps => hkeeps task f htask hf
    case h_2 => exact nomatch h
  | .colors i histogram stamps, h =>
    obtain ⟨task, -, h⟩ := Option.bind_eq_some_iff.mp h
    split at h
    · obtain rfl := Option.some.inj h
      refine iff_of_true ?_ trivial
      unfold colored at ht ⊢
      split at ht
      · exact upToDate_of_frame hs ht hd rfl rfl stamps rfl
      · exact upToDate_of_frame hs ht hd rfl rfl false rfl
    · exact nomatch h
  | .get none, h =>
    obtain rfl := Option.some.inj h
    refine iff_of_true ?_ trivial
    rw [ht.upToDate_iff]
    intro a ha hnow
    rcases List.mem_append.mp ha with hold | hnew
    · exact hs.upToDate_iff.mp hd a hold hnow
    · obtain rfl := List.mem_singleton.mp hnew
      exact hs.served_eq
  | .get (some k), h =>
    obtain ⟨a, ha, rfl⟩ := Option.map_eq_some_iff.mp h
    refine iff_of_true ?_ trivial
    rw [ht.upToDate_iff]
    intro b hb hnow
    rcases List.mem_or_eq_of_mem_set hb with hold | rfl
    · exact hs.upToDate_iff.mp hd b hold hnow
    · exact (hd a (List.mem_of_getElem? ha)).trans hs.served_eq

/-- **Clients that ask again are up to date** all along a run exactly if every write of the run meets the
condition. -/
theorem always_upToDate_iff {es : List (Event B)} {t : State B} (h : exec step (start B) es = some t) :
    Always step (fun _ _ t => UpToDate t) (start B) es ↔ Meets step Keeps (start B) es :=
  always_iff_meets (J := Sourced) (I := UpToDate) (fun _ _ _ hs hstep => step_sourced hs hstep)
    (fun _ _ _ h => h) (fun _ _ _ hs hd hstep => upToDate_step_iff hs hd hstep) start_sourced
    (fun _ ha => absurd ha List.not_mem_nil) h

/-- An image with a thumbnail. -/
def pictured : Image := ⟨some "a.jpg", some "t.jpg"⟩

/-- A job finds the other server out of order after a client has asked for the thumbnail, and the Rake task
fetches it later. -/
def fetchedLater : List (Event Nat) :=
  [.save [pictured] true, .get none, .look 0 .httpError, .rake, .look 0 (.body 1), .write 0, .get (some 0)]

/-- The file is of the first image, and the client, which has asked again, still shows the placeholder. -/
theorem sourced_fetchedLater :
    ∃ t, exec step (start Nat) fetchedLater = some t ∧
      IsOf t.images ⟨"t.jpg?width=150&height=150", 1⟩ ∧ t.held.map (fun a => (revalidated t a).shown) = [none] :=
  ⟨_, rfl, (@sourced Nat fetchedLater _ rfl).1 _ rfl, rfl⟩

/-- So the client is not up to date. -/
theorem always_upToDate_fetchedLater :
    ¬Always step (fun _ _ t => UpToDate t) (start Nat) fetchedLater := by
  intro halways
  have hmeets := (@always_upToDate_iff Nat fetchedLater _ rfl).mp halways
  have hwrite := (((((hmeets.2 _ rfl).2 _ rfl).2 _ rfl).2 _ rfl).2 _ rfl).1
  have hshown : (none : Option (Fetched Nat)) = some ⟨"t.jpg?width=150&height=150", 1⟩ :=
    hwrite _ _ rfl rfl _ List.mem_cons_self rfl
  cases hshown

/-! ### One job alone -/

section Job

variable {D : Type} (extract : Fetched B → Option (List Color))

/-- How `cache_thumb` and `extract_colors` end for a job that nothing interrupts. -/
def thumbOf (images : List Image) (file : Option (Fetched B)) (r : Reply B) : Thumb :=
  match cacheThumb images file r with
  | none => .failed
  | some (some f, true) => match extract f with
    | none => .failed
    | some h => .histogram h
  | some _ => .notCached

/-- The steps of a job, one right after the other. -/
def jobEvents (s : State B) (rows : List Image) (stamps stamps' : Bool) (r : Reply B) : List (Event B) :=
  .save rows stamps :: .look s.tasks.length r ::
    match cacheThumb (s.images ++ rows) s.file r with
    | some (some f, true) =>
      (if s.file.isSome then [] else [.write s.tasks.length]) ++ [.colors s.tasks.length (extract f) stamps']
    | _ => []

theorem set_append_one {α : Type} (l : List α) (a b : α) : (l ++ [a]).set l.length b = l ++ [b] := by
  rw [List.set_append_right _ _ (le_refl _), Nat.sub_self, List.set_cons_zero]

theorem eraseIdx_append_one {α : Type} (l : List α) (a : α) : (l ++ [a]).eraseIdx l.length = l := by
  rw [List.eraseIdx_append_of_length_le (le_refl _), Nat.sub_self, List.eraseIdx_cons_zero, List.append_nil]

/-- Where it does not return `true`, there is no file before or after. -/
theorem file_of_cacheThumb {images : List Image} {file : Option (Fetched B)} {r : Reply B}
    (h : ∀ f, cacheThumb images file r ≠ some (some f, true)) :
    file = none ∧ (cacheThumb images file r = none ∨ cacheThumb images file r = some (none, false)) := by
  cases file with
  | some f => exact absurd rfl (h f)
  | none =>
    refine ⟨rfl, ?_⟩
    cases hu : presentUrl images with
    | none => exact .inr (by simp [cacheThumb, hu])
    | some u =>
      cases r with
      | body b => exact absurd (by simp [cacheThumb, hu]) (h ⟨cacheUrl u, b⟩)
      | httpError => exact .inr (by simp [cacheThumb, hu])
      | raised => exact .inl (by simp [cacheThumb, hu])

/-- The colours end a job that comes to them. -/
theorem exec_colors {u : State B} {tasks : List (Task B)} {rows : List Image}
    (h : u.tasks = tasks ++ [⟨some rows, .coloring⟩]) (histogram : Option (List Color)) (stamps : Bool) :
    ∃ t, exec step u [.colors tasks.length histogram stamps] = some t ∧
      t.images = u.images ++ (match histogram with | some (_ :: _) => rows | _ => []) ∧ t.file = u.file ∧
      t.tasks = tasks ∧ t.held = u.held := by
  have hstep : step u (.colors tasks.length histogram stamps) =
      some (colored u tasks.length ⟨some rows, .coloring⟩ histogram stamps) := by
    show (u.tasks[tasks.length]?).bind _ = _
    rw [h, List.getElem?_concat_length, Option.bind_some]
  refine ⟨_, by rw [exec, hstep]; rfl, ?_⟩
  unfold colored
  rw [h, eraseIdx_append_one]
  match histogram with
  | none => exact ⟨(List.append_nil _).symm, rfl, rfl, rfl⟩
  | some [] => exact ⟨(List.append_nil _).symm, rfl, rfl, rfl⟩
  | some (_ :: _) => exact ⟨rfl, rfl, rfl, rfl⟩

/-- **A job that nothing interrupts** is the job of `Curarium.ConfigureWork`, with its thumbnail going as the
file and the other server have it. -/
theorem exec_jobEvents (A : Adapter D) {c : Configuration} {row : Record D} {y : Yield D}
    (hy : yield A c row.document = some y) {s : State B} (hs : s.images = row.images) (stamps stamps' : Bool)
    (r : Reply B) :
    ∃ t, exec step s (jobEvents extract s y.rows stamps stamps' r) = some t ∧
      t.images = (perform A c (thumbOf extract (s.images ++ y.rows) s.file r) row).images ∧
      t.file = ((cacheThumb (s.images ++ y.rows) s.file r).map Prod.fst).getD s.file ∧
      t.tasks = s.tasks ∧ t.held = s.held := by
  have hperform : ∀ thumb, (perform A c thumb row).images = s.images ++ rowsOf thumb y := by
    intro thumb
    rw [ConfigureWork.perform_eq, hy, hs]
    exact (ConfigureWork.settle_columns A thumb y row).2.2.2.2.2.2
  obtain ⟨saved, hsaved⟩ : ∃ u : State B, u = { s with
      images := s.images ++ y.rows
      updatedAt := tick stamps s.updatedAt
      tasks := s.tasks ++ [⟨some y.rows, .checking⟩] } := ⟨_, rfl⟩
  have hlook : ∀ es, exec step s (.save y.rows stamps :: .look s.tasks.length r :: es) =
      exec step (looked saved s.tasks.length ⟨some y.rows, .checking⟩ r) es := by
    intro es
    subst hsaved
    show ((s.tasks ++ [⟨some y.rows, .checking⟩])[s.tasks.length]?.bind _).bind _ = _
    rw [List.getElem?_concat_length]
    rfl
  have herase : saved.tasks.eraseIdx s.tasks.length = s.tasks := by
    subst hsaved
    exact eraseIdx_append_one _ _
  have hset : ∀ task, saved.tasks.set s.tasks.length task = s.tasks ++ [task] := by
    intro task
    subst hsaved
    exact set_append_one _ _ _
  have hthumb : cacheThumb saved.images saved.file r = cacheThumb (s.images ++ y.rows) s.file r := hsaved ▸ rfl
  have himages : saved.images = s.images ++ y.rows := hsaved ▸ rfl
  have hfile : saved.file = s.file := hsaved ▸ rfl
  have hheld : saved.held = s.held := hsaved ▸ rfl
  -- what the colours leave is what the histogram of the thumbnail leaves
  have hrows : ∀ f, s.images ++ rowsOf (match extract f with | none => .failed | some h => .histogram h) y =
      s.images ++ y.rows ++ (match extract f with | some (_ :: _) => y.rows | _ => []) := by
    intro f
    match extract f with
    | none => exact (List.append_nil _).symm
    | some [] => exact (List.append_nil _).symm
    | some (_ :: _) => exact (List.append_assoc _ _ _).symm
  rw [hperform, jobEvents, hlook, thumbOf]
  unfold looked
  rw [hthumb]
  by_cases htrue : ∃ f, cacheThumb (s.images ++ y.rows) s.file r = some (some f, true)
  · obtain ⟨f, hf⟩ := htrue
    rw [hf]
    show ∃ t, exec step (if saved.file.isSome then _ else _) _ = some t ∧ _
    rw [hfile, hrows]
    by_cases hold : s.file.isSome = true
    · -- there was a file
      rw [if_pos hold, if_pos hold]
      obtain ⟨t, hrun, htimages, htfile, httasks, htheld⟩ := exec_colors
        (u := finish saved s.tasks.length ⟨some y.rows, .checking⟩ true) (hset _) (extract f) stamps'
      refine ⟨t, hrun, htimages.trans (congrArg (· ++ _) himages), htfile.trans ?_, httasks, htheld.trans hheld⟩
      -- and it is the one that was found
      obtain ⟨g, hg⟩ := Option.isSome_iff_exists.mp hold
      rw [hg] at hf
      exact (finish_frame saved _ _ true).2.1.trans (hfile.trans (hg.trans (Prod.mk.inj (Option.some.inj hf)).1))
    · -- there was none, and it is written
      rw [if_neg hold, if_neg hold]
      obtain ⟨wrote, hwrote⟩ : ∃ u : State B, u = { saved with
          file := some f
          tasks := s.tasks ++ [⟨some y.rows, .coloring⟩] } := ⟨_, rfl⟩
      have hwrite : ∀ es, exec step { saved with
          tasks := saved.tasks.set s.tasks.length ⟨some y.rows, .writing f⟩ } (.write s.tasks.length :: es) =
            exec step wrote es := by
        intro es
        show ((saved.tasks.set s.tasks.length _)[s.tasks.length]?.bind _).bind _ = _
        rw [hset, List.getElem?_concat_length, hwrote]
        show exec step { saved with file := some f, tasks := (s.tasks ++ [_]).set s.tasks.length _ } es = _
        rw [set_append_one]
      obtain ⟨t, hrun, htimages, htfile, httasks, htheld⟩ := exec_colors (u := wrote) (by rw [hwrote])
        (extract f) stamps'
      refine ⟨t, (hwrite _).trans hrun, htimages.trans ?_, htfile.trans (by rw [hwrote]; rfl), httasks,
        htheld.trans (by rw [hwrote]; exact hheld)⟩
      rw [hwrote]
      exact congrArg (· ++ _) himages
  · obtain ⟨hnone, hc⟩ := file_of_cacheThumb (not_exists.mp htrue)
    rcases hc with hc | hc <;> rw [hc]
    · exact ⟨_, rfl, himages, hfile, herase, hheld⟩
    · exact ⟨_, rfl, himages, hfile.trans hnone, herase, hheld⟩

end Job

end ThumbCache
end Curarium
