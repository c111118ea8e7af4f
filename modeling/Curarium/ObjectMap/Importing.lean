import Curarium.ObjectMap.Coherence

/-!
# The object map during a reconfiguration

A request to reconfigure a collection deletes its object map, and enqueues a job for each of its works. As
long as jobs wait, the object map is answered with the ids alone (`ids_only`), so that no picture is drawn of
thumbnails that are still to change, and kept. But `Collection#importing` counts the jobs in the queue and in
the retry set: a job that a thread has taken is in neither, nor is one that the request has yet to enqueue,
and if Redis does not answer, none is counted.

* `step` — a collection with its requests and jobs, in any order.
* `index_folder` — an object map leaves the files that `Curarium.ObjectMap.writeMontage` leaves.
* `Stable` — whatever the jobs still do, the picture is of the thumbnails as they are.
* `always_stable_iff` — it is so all along a run exactly if no picture is drawn while a job is left, and
  nothing but a job changes what a picture shows.
-/

namespace Curarium
namespace Importing

open Runs ObjectMap

variable {F : Type}

/-! ### The system -/

/-- A collection. A work is a number; its thumbnail, if it has one, is an `F`. -/
structure State (F : Type) where
  thumbs : List (Option F)
  /-- The works whose jobs a request has not enqueued yet. -/
  enqueuing : List Nat
  /-- The jobs in the queue and in the retry set. -/
  waiting : List Nat
  /-- The jobs that a thread has taken. -/
  running : List Nat
  ids : Option Json
  /-- `5.jpg` -/
  picture : Option (List (Nat × F))

inductive Event (F : Type) where
  /-- `CollectionsController#reconfigure`, up to its first job. -/
  | reconfigure
  | enqueue (i : Nat)
  | take (i : Nat)
  /-- The job raises and is to be retried, or Sidekiq stops. -/
  | putBack (i : Nat)
  /-- A job changes the thumbnail of its work. -/
  | work (i : Nat) (thumb : Option F)
  | finish (i : Nat)
  /-- `WorksController#index`, the object map of the collection; does Redis answer? -/
  | index (answers : Bool)
  /-- Another change, such as that of the Rake task. -/
  | change (w : Nat) (thumb : Option F)

/-- The works with a thumbnail. -/
def shown (thumbs : List (Option F)) : List (Nat × F) :=
  thumbs.zipIdx.filterMap fun p => p.1.map fun thumb => (p.2, thumb)

/-- `Collection#importing` -/
def importing (s : State F) (answers : Bool) : Bool := answers && !s.waiting.isEmpty

/-- `Work.write_montage` -/
def montage (s : State F) (idsOnly : Bool) : State F :=
  if s.picture.isSome then s
  else
    { s with
      ids := some (.arr ((shown s.thumbs).map fun p => .int p.1))
      picture := if idsOnly || (shown s.thumbs).isEmpty then none else some (shown s.thumbs) }

def step (s : State F) : Event F → Option (State F)
  | .reconfigure =>
    some { s with enqueuing := s.enqueuing ++ List.range s.thumbs.length, ids := none, picture := none }
  | .enqueue i => s.enqueuing[i]?.map fun w =>
    { s with enqueuing := s.enqueuing.eraseIdx i, waiting := s.waiting ++ [w] }
  | .take i => s.waiting[i]?.map fun w =>
    { s with waiting := s.waiting.eraseIdx i, running := s.running ++ [w] }
  | .putBack i => s.running[i]?.map fun w =>
    { s with running := s.running.eraseIdx i, waiting := s.waiting ++ [w] }
  | .work i thumb => s.running[i]?.map fun w => { s with thumbs := s.thumbs.set w thumb }
  | .finish i => s.running[i]?.map fun _ => { s with running := s.running.eraseIdx i }
  | .index answers => some (montage s (importing s answers))
  | .change w thumb => some { s with thumbs := s.thumbs.set w thumb }

/-- A collection without jobs. -/
def start (thumbs : List (Option F)) : State F where
  thumbs := thumbs
  enqueuing := []
  waiting := []
  running := []
  ids := none
  picture := none

/-- The directory of the collection. -/
def folder (s : State F) : Folder where
  ids := s.ids
  picture := s.picture.map fun p => ⟨.objectmap, p.map Prod.fst⟩

/-- **An object map** leaves the files that the works index writes. -/
theorem index_folder (s : State F) (idsOnly : Bool) :
    folder (montage s idsOnly) =
      writeMontage ((shown s.thumbs).map fun p => work p.1) idsOnly false (folder s) := by
  have hisSome : (folder s).picture.isSome = s.picture.isSome := Option.isSome_map
  rw [writeMontage, Folder.write, montage, hisSome]
  by_cases hpicture : s.picture.isSome = true
  · rw [if_pos hpicture, if_pos hpicture]
  · rw [if_neg hpicture, if_neg hpicture, List.map_map, List.map_map]
    cases idsOnly with
    | true => rfl
    | false =>
      cases hshown : shown s.thumbs with
      | nil => simp [folder]
      | cons p ps => simp [folder, entry, ObjectMap.work, Function.comp_def]

/-! ### What is promised -/

/-- No job is left. -/
def Quiet (s : State F) : Prop := s.enqueuing = [] ∧ s.waiting = [] ∧ s.running = []

/-- The picture is of the thumbnails as they are. -/
def Current (s : State F) : Prop := ∀ p, s.picture = some p → p = shown s.thumbs

/-- The events of the jobs, and of a request that enqueues them. -/
def Event.ofJobs : Event F → Bool
  | .enqueue _ | .take _ | .putBack _ | .work _ _ | .finish _ => true
  | _ => false

/-- Whatever the jobs still do, the picture is of the thumbnails as they are. -/
def Stable (s : State F) : Prop :=
  ∀ es t, (∀ e ∈ es, e.ofJobs = true) → exec step s es = some t → Current t

/-- No picture is drawn while a job is left, and only jobs change what a picture shows. -/
def Awaited (s : State F) : Event F → Prop
  | .index answers => s.picture = none → shown s.thumbs ≠ [] → importing s answers = false → Quiet s
  | .change w thumb => s.picture.isSome = true → shown (s.thumbs.set w thumb) = shown s.thumbs
  | _ => True

/-! ### What a picture shows -/

theorem mem_shown {thumbs : List (Option F)} {w : Nat} {thumb : F} :
    (w, thumb) ∈ shown thumbs ↔ thumbs[w]? = some (some thumb) := by
  rw [shown, List.mem_filterMap]
  constructor
  · rintro ⟨⟨o, i⟩, hmem, heq⟩
    obtain ⟨x, hx, hpair⟩ := Option.map_eq_some_iff.mp heq
    obtain ⟨rfl, rfl⟩ := Prod.mk.inj hpair
    rw [List.mk_mem_zipIdx_iff_getElem?] at hmem
    rw [hmem]
    exact congrArg some hx
  · intro h
    refine ⟨(some thumb, w), List.mk_mem_zipIdx_iff_getElem?.mpr h, rfl⟩

/-- Another thumbnail changes the picture. -/
theorem shown_set_ne {thumbs : List (Option F)} {w : Nat} {old thumb : Option F} (h : thumbs[w]? = some old)
    (hne : thumb ≠ old) : shown (thumbs.set w thumb) ≠ shown thumbs := by
  intro heq
  have hlt : w < thumbs.length := (List.getElem?_eq_some_iff.mp h).1
  have hmem : ∀ x, (thumbs.set w thumb)[w]? = some (some x) ↔ thumbs[w]? = some (some x) := by
    intro x
    rw [← mem_shown, ← mem_shown, heq]
  rw [List.getElem?_set_self hlt, h] at hmem
  refine hne (Option.ext fun x => ?_)
  have hx := hmem x
  rwa [Option.some.injEq, Option.some.injEq] at hx

/-! ### The jobs that are left -/

/-- The jobs are of works that are there, and no picture is empty. -/
structure Wf (s : State F) : Prop where
  enqueuing : ∀ w ∈ s.enqueuing, w < s.thumbs.length
  waiting : ∀ w ∈ s.waiting, w < s.thumbs.length
  running : ∀ w ∈ s.running, w < s.thumbs.length
  picture : ∀ p, s.picture = some p → p ≠ []

theorem start_wf (thumbs : List (Option F)) : Wf (start thumbs) :=
  ⟨List.forall_mem_nil _, List.forall_mem_nil _, List.forall_mem_nil _, fun _ h => absurd h (by simp [start])⟩

/-- A job goes from one list to the end of another. -/
theorem forall_mem_moved {P : Nat → Prop} {ws vs : List Nat} {i w : Nat} (hws : ∀ v ∈ ws, P v)
    (hvs : ∀ v ∈ vs, P v) (hw : ws[i]? = some w) : (∀ v ∈ ws.eraseIdx i, P v) ∧ ∀ v ∈ vs ++ [w], P v :=
  ⟨fun v hv => hws v (List.mem_of_mem_eraseIdx hv),
    List.forall_mem_append.mpr ⟨hvs, List.forall_mem_singleton.mpr (hws w (List.mem_of_getElem? hw))⟩⟩

theorem Wf.setThumb {s : State F} (hs : Wf s) (w : Nat) (thumb : Option F) :
    Wf { s with thumbs := s.thumbs.set w thumb } := by
  have hlength : (s.thumbs.set w thumb).length = s.thumbs.length := List.length_set
  exact ⟨fun v hv => hlength ▸ hs.enqueuing v hv, fun v hv => hlength ▸ hs.waiting v hv,
    fun v hv => hlength ▸ hs.running v hv, hs.picture⟩

theorem Wf.montage {s : State F} (hs : Wf s) (idsOnly : Bool) : Wf (montage s idsOnly) := by
  rw [Importing.montage]
  by_cases hpicture : s.picture.isSome = true
  · rwa [if_pos hpicture]
  · rw [if_neg hpicture]
    refine ⟨hs.enqueuing, hs.waiting, hs.running, fun p hp => ?_⟩
    obtain ⟨hdraw, hp⟩ := Option.ite_none_left_eq_some.mp hp
    rw [Bool.or_eq_true, not_or, List.isEmpty_iff] at hdraw
    obtain rfl := Option.some.inj hp
    exact hdraw.2

theorem step_wf {s t : State F} {e : Event F} (hs : Wf s) (h : step s e = some t) : Wf t := by
  cases e with
  | reconfigure =>
    obtain rfl := Option.some.inj h
    refine ⟨List.forall_mem_append.mpr ⟨hs.enqueuing, fun w hw => List.mem_range.mp hw⟩, hs.waiting, hs.running,
      fun p hp => absurd hp (by simp)⟩
  | enqueue i =>
    obtain ⟨w, hw, rfl⟩ := Option.map_eq_some_iff.mp h
    obtain ⟨hfrom, hto⟩ := forall_mem_moved hs.enqueuing hs.waiting hw
    exact ⟨hfrom, hto, hs.running, hs.picture⟩
  | take i =>
    obtain ⟨w, hw, rfl⟩ := Option.map_eq_some_iff.mp h
    obtain ⟨hfrom, hto⟩ := forall_mem_moved hs.waiting hs.running hw
    exact ⟨hs.enqueuing, hfrom, hto, hs.picture⟩
  | putBack i =>
    obtain ⟨w, hw, rfl⟩ := Option.map_eq_some_iff.mp h
    obtain ⟨hfrom, hto⟩ := forall_mem_moved hs.running hs.waiting hw
    exact ⟨hs.enqueuing, hto, hfrom, hs.picture⟩
  | work i thumb =>
    obtain ⟨w, -, rfl⟩ := Option.map_eq_some_iff.mp h
    exact hs.setThumb w thumb
  | finish i =>
    obtain ⟨w, hw, rfl⟩ := Option.map_eq_some_iff.mp h
    exact ⟨hs.enqueuing, hs.waiting, (forall_mem_moved hs.running hs.running hw).1, hs.picture⟩
  | index answers =>
    obtain rfl := Option.some.inj h
    exact hs.montage _
  | change w thumb =>
    obtain rfl := Option.some.inj h
    exact hs.setThumb w thumb

/-! ### Stability -/

theorem Stable.current {s : State F} (h : Stable s) : Current s := h [] s (List.forall_mem_nil _) rfl

theorem Stable.step {s t : State F} {e : Event F} (h : Stable s) (he : e.ofJobs = true)
    (hstep : step s e = some t) : Stable t := by
  intro es u hes hu
  refine h (e :: es) u (List.forall_mem_cons.mpr ⟨he, hes⟩) ?_
  rw [exec, hstep]
  exact hu

/-- A job that runs may still change what a picture shows. -/
theorem Stable.running_eq_nil {s : State F} (hs : Wf s) (h : Stable s) {p : List (Nat × F)}
    (hp : s.picture = some p) : s.running = [] := by
  by_contra hne
  obtain ⟨w, ws, hrunning⟩ := List.exists_cons_of_ne_nil hne
  have hlt : w < s.thumbs.length := hs.running w (by rw [hrunning]; exact List.mem_cons_self)
  obtain ⟨q, qs, rfl⟩ := List.exists_cons_of_ne_nil (hs.picture p hp)
  obtain ⟨thumb, hother⟩ : ∃ thumb, thumb ≠ s.thumbs[w] := by
    cases s.thumbs[w] with
    | none => exact ⟨some q.2, Option.some_ne_none _⟩
    | some x => exact ⟨none, (Option.some_ne_none _).symm⟩
  have hstep : Importing.step s (.work 0 thumb) = some { s with thumbs := s.thumbs.set w thumb } := by
    rw [Importing.step, hrunning]
    rfl
  have hcurrent := (h.step rfl hstep).current _ hp
  exact shown_set_ne (List.getElem?_eq_getElem hlt) hother (hcurrent.symm.trans (h.current _ hp))

theorem Stable.waiting_eq_nil {s : State F} (hs : Wf s) (h : Stable s) {p : List (Nat × F)}
    (hp : s.picture = some p) : s.waiting = [] := by
  by_contra hne
  obtain ⟨w, ws, hwaiting⟩ := List.exists_cons_of_ne_nil hne
  have hstep : Importing.step s (.take 0) =
      some { s with waiting := s.waiting.eraseIdx 0, running := s.running ++ [w] } := by
    rw [Importing.step, hwaiting]
    rfl
  -- it is taken by a thread
  have hrunning := (h.step rfl hstep).running_eq_nil (step_wf hs hstep) hp
  exact absurd hrunning (by simp)

theorem Stable.enqueuing_eq_nil {s : State F} (hs : Wf s) (h : Stable s) {p : List (Nat × F)}
    (hp : s.picture = some p) : s.enqueuing = [] := by
  by_contra hne
  obtain ⟨w, ws, henqueuing⟩ := List.exists_cons_of_ne_nil hne
  have hstep : Importing.step s (.enqueue 0) =
      some { s with enqueuing := s.enqueuing.eraseIdx 0, waiting := s.waiting ++ [w] } := by
    rw [Importing.step, henqueuing]
    rfl
  have hwaiting := (h.step rfl hstep).waiting_eq_nil (step_wf hs hstep) hp
  exact absurd hwaiting (by simp)

theorem picture_of_ofJobs {s t : State F} {e : Event F} (he : e.ofJobs = true) (h : step s e = some t) :
    t.picture = s.picture := by
  cases e with
  | enqueue | take | putBack | work | finish =>
    obtain ⟨w, -, rfl⟩ := Option.map_eq_some_iff.mp h
    rfl
  | reconfigure | index | change => exact absurd he Bool.false_ne_true

/-- Without a job nothing of a job happens. -/
theorem Quiet.step_eq_none {s : State F} (h : Quiet s) {e : Event F} (he : e.ofJobs = true) : step s e = none := by
  cases e with
  | enqueue => rw [step, h.1]; rfl
  | take => rw [step, h.2.1]; rfl
  | putBack | work | finish => rw [step, h.2.2]; rfl
  | reconfigure | index | change => exact absurd he Bool.false_ne_true

/-- **What stability comes down to.** -/
theorem stable_iff {s : State F} (hs : Wf s) :
    Stable s ↔ ∀ p, s.picture = some p → Quiet s ∧ p = shown s.thumbs := by
  constructor
  · intro h p hp
    exact ⟨⟨h.enqueuing_eq_nil hs hp, h.waiting_eq_nil hs hp, h.running_eq_nil hs hp⟩, h.current p hp⟩
  · intro h es t hes ht
    cases hp : s.picture with
    | none =>
      -- the jobs draw no picture
      have hnone : t.picture = none := exec_invariant (I := fun u => u.picture = none)
        (fun u e v hu he hstep => (picture_of_ofJobs he hstep).trans hu) hp (meets_of_mem hes s) ht
      exact fun q hq => absurd (hnone.symm.trans hq) (by simp)
    | some p =>
      obtain ⟨hquiet, hshown⟩ := h p hp
      cases es with
      | nil =>
        obtain rfl := Option.some.inj ht
        exact fun q hq => (Option.some.inj (hp.symm.trans hq)).symm.trans hshown
      | cons e es =>
        rw [exec, hquiet.step_eq_none (hes e List.mem_cons_self)] at ht
        exact absurd ht (by simp)

/-! ### Runs -/

theorem stable_step_iff {s t : State F} {e : Event F} (hs : Wf s) (hstable : Stable s)
    (h : step s e = some t) : Stable t ↔ Awaited s e := by
  have ht := step_wf hs h
  cases e with
  | reconfigure =>
    obtain rfl := Option.some.inj h
    exact iff_of_true ((stable_iff ht).mpr fun p hp => absurd hp (by simp)) trivial
  | enqueue | take | putBack | work | finish => exact iff_of_true (hstable.step rfl h) trivial
  | index answers =>
    obtain rfl := Option.some.inj h
    rw [stable_iff ht, montage]
    by_cases hpicture : s.picture.isSome = true
    · rw [if_pos hpicture]
      refine iff_of_true ((stable_iff hs).mp hstable) fun hnone => ?_
      rw [hnone] at hpicture
      exact absurd hpicture (by simp)
    · rw [if_neg hpicture]
      rw [Option.not_isSome_iff_eq_none] at hpicture
      by_cases hdraw : (importing s answers || (shown s.thumbs).isEmpty) = true
      · refine iff_of_true (fun p hp => absurd hp (by simp [hdraw])) fun _ hne hno => ?_
        rw [hno, Bool.false_or, List.isEmpty_iff] at hdraw
        exact absurd hdraw hne
      · -- the picture is drawn now
        constructor
        · exact fun hall _ _ _ => (hall _ (if_neg hdraw)).1
        · intro hquiet p hp
          obtain rfl := Option.some.inj ((if_neg hdraw).symm.trans hp)
          rw [Bool.or_eq_true, not_or, List.isEmpty_iff, Bool.not_eq_true] at hdraw
          exact ⟨hquiet hpicture hdraw.2 hdraw.1, rfl⟩
  | change w thumb =>
    obtain rfl := Option.some.inj h
    rw [stable_iff ht]
    constructor
    · intro hall hsome
      obtain ⟨p, hp⟩ := Option.isSome_iff_exists.mp hsome
      exact (hall p hp).2.symm.trans (hstable.current p hp)
    · intro hsame p hp
      obtain ⟨hquiet, hshown⟩ := (stable_iff hs).mp hstable p hp
      exact ⟨hquiet, hshown.trans (hsame (by rw [hp]; rfl)).symm⟩

/-- **When a picture is there to stay.** All along a run, whatever the jobs still do, the picture is of the
thumbnails as they are, exactly if none is drawn while a job waits to be enqueued, waits or runs, and nothing
but a job changes what a picture shows. -/
theorem always_stable_iff (thumbs : List (Option F)) {es : List (Event F)} {t : State F}
    (h : exec step (start thumbs) es = some t) :
    Always step (fun _ _ t => Stable t) (start thumbs) es ↔ Meets step Awaited (start thumbs) es :=
  always_iff_meets (J := Wf) (I := Stable) (fun _ _ _ hs hstep => step_wf hs hstep) (fun _ _ _ h => h)
    (fun _ _ _ hs hstable hstep => stable_step_iff hs hstable hstep) (start_wf thumbs)
    ((stable_iff (start_wf thumbs)).mpr fun _ hp => absurd hp (by simp [start])) h

/-- A picture that waits for the job is there to stay; one that is drawn while the job runs is not. -/
theorem always_stable_oneWork :
    Always step (fun _ _ t => Stable t) (start [some 1])
        [.reconfigure, .enqueue 0, .index true, .take 0, .work 0 (some 2), .finish 0, .index true] ∧
      ¬Always step (fun _ _ t => Stable t) (start [some 1])
        [.reconfigure, .enqueue 0, .take 0, .index true, .work 0 (some 2), .finish 0] := by
  constructor
  · refine (always_stable_iff [some 1] rfl).mpr ⟨trivial, fun _ h₁ => ⟨trivial, fun _ h₂ => ?_⟩⟩
    obtain rfl := Option.some.inj h₁
    obtain rfl := Option.some.inj h₂
    -- a job waits, so nothing is drawn
    refine ⟨fun _ _ hno => absurd hno (by decide), fun _ h₃ => ⟨trivial, fun _ h₄ => ⟨trivial, fun _ h₅ => ?_⟩⟩⟩
    obtain rfl := Option.some.inj h₃
    obtain rfl := Option.some.inj h₄
    obtain rfl := Option.some.inj h₅
    refine ⟨trivial, fun _ h₆ => ⟨fun _ _ _ => ?_, fun _ _ => trivial⟩⟩
    obtain rfl := Option.some.inj h₆
    exact ⟨rfl, rfl, rfl⟩
  · intro halways
    have hmeets := (always_stable_iff [some 1] rfl).mp halways
    have hquiet := (((hmeets.2 _ rfl).2 _ rfl).2 _ rfl).1 rfl (by decide) rfl
    exact absurd hquiet.2.2 (by decide)

end Importing
end Curarium
