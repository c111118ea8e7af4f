import Curarium.Workers.Configure
import Curarium.Library.Runs
import Mathlib.Data.List.Perm.Basic

/-!
# Reconfiguring a collection

`CollectionsController#reconfigure` enqueues a `ConfigureWork` job for every work, with the
configuration the collection has at that moment. Ten Sidekiq threads take jobs from the queue, so
jobs run in any order: a job of an earlier request may run after one of a later request.

* `step` — a change of the configuration, a reconfigure request, or a job of the queue, whichever.
* `executed` and `requests` record which jobs ran and how many requests there were; the code does
  not look at them.
* `Settled` — a work holds the extraction under the configuration of the job that ran last on it.
* `InOrder` — if requests are made while the queue is empty, jobs run in the order of the requests.
* `last_executed_wins` — so the configuration of the last request is the one that counts where its
  job ran last, and that is so when every request found the queue empty.
-/

namespace Curarium
namespace Reconfigure

open ConfigureWork (perform yield extraction)

variable {D : Type} (A : Adapter D)

/-- A job of the queue: a work, the configuration when it was enqueued, and the request that did
so. -/
structure Queued where
  work : Nat
  configuration : Configuration
  request : Nat

/-- A collection, its works in the order of their ids, and the queue. -/
structure State (D : Type) where
  configuration : Configuration
  works : List (Record D)
  queue : List Queued
  executed : List Queued
  requests : Nat
  /-- The configuration at the most recent request. -/
  requested : Option Configuration

inductive Event where
  /-- `CollectionsController#update` with a configuration. -/
  | update (c : Configuration)
  /-- `CollectionsController#reconfigure`. -/
  | reconfigure
  /-- A job of the queue runs, with the way its thumbnail goes. -/
  | run (i : Nat) (thumb : Thumb)

/-- The jobs of a request. -/
def jobsOf (s : State D) : List Queued :=
  (List.range s.works.length).map fun w =>
    { work := w, configuration := s.configuration, request := s.requests + 1 }

def step (s : State D) : Event → Option (State D)
  | .update c => some { s with configuration := c }
  | .reconfigure =>
    some { s with
      queue := s.queue ++ jobsOf s
      requests := s.requests + 1
      requested := some s.configuration }
  | .run i thumb =>
    s.queue[i]?.bind fun job =>
      some { s with
        works := s.works.modify job.work (perform A job.configuration thumb)
        queue := s.queue.eraseIdx i
        executed := s.executed ++ [job] }

/-- A collection before its first request. -/
def start (c : Configuration) (works : List (Record D)) : State D where
  configuration := c
  works := works
  queue := []
  executed := []
  requests := 0
  requested := none

/-- The job does not fail: its save goes through. -/
def Succeeds (s : State D) : Event → Prop
  | .run i _ => ∀ job row, s.queue[i]? = some job → s.works[job.work]? = some row →
      (yield A job.configuration row.document).isSome = true
  | _ => True

/-- The event is no request that finds jobs in the queue. -/
def Awaited (s : State D) : Event → Prop
  | .reconfigure => s.queue = []
  | _ => True

/-! ### The job that ran last on a work -/

/-- The job that ran last on a work. -/
def lastJob (s : State D) (w : Nat) : Option Queued :=
  (s.executed.filter fun job => job.work = w).getLast?

/-- **A work holds what its last job extracted**, jobs carry the configuration of their request, and
the last request has a job for every work. -/
structure Settled (s : State D) : Prop where
  parsed : ∀ w job row, lastJob s w = some job → s.works[w]? = some row →
    row.parsed = some (extraction A job.configuration row.document)
  inRange : ∀ job ∈ s.queue, job.work < s.works.length
  configured : ∀ job, job ∈ s.queue ∨ job ∈ s.executed → job.request ≤ s.requests ∧
    (job.request = s.requests → s.requested = some job.configuration)
  requested : s.requested.isSome = true → 0 < s.requests
  enqueued : 0 < s.requests → ∀ w < s.works.length, ∃ job, (job ∈ s.queue ∨ job ∈ s.executed) ∧
    job.work = w ∧ job.request = s.requests

theorem start_settled (c : Configuration) (works : List (Record D)) : Settled A (start c works) where
  parsed w job row h := absurd h (by simp [lastJob, start])
  inRange job h := absurd h (by simp [start])
  configured job h := absurd h (by simp [start])
  requested h := absurd h (by simp [start])
  enqueued h := absurd h (by simp [start])

/-- The last job after one more job. -/
theorem getLast?_filter_append (jobs : List Queued) (job : Queued) (w : Nat) :
    ((jobs ++ [job]).filter fun j => j.work = w).getLast?
      = if job.work = w then some job else (jobs.filter fun j => j.work = w).getLast? := by
  rw [List.filter_append]
  by_cases h : job.work = w
  · simp [h]
  · simp [h]

/-- What is in the queue is the job taken from it, or still in it. -/
theorem mem_eraseIdx {queue : List Queued} {i : Nat} {job : Queued} (h : queue[i]? = some job)
    (j : Queued) : j ∈ queue ↔ j = job ∨ j ∈ queue.eraseIdx i := by
  obtain ⟨hi, rfl⟩ := List.getElem?_eq_some_iff.mp h
  rw [← (List.getElem_cons_eraseIdx_perm hi).mem_iff, List.mem_cons]

theorem Settled.reconfigure {s t : State D} (hs : Settled A s) (h : step A s .reconfigure = some t) :
    Settled A t := by
  obtain rfl := Option.some.inj h
  refine ⟨hs.parsed, fun job hjob => ?_, fun job hjob => ?_, fun _ => Nat.succ_pos _,
    fun _ w hw => ?_⟩
  · rcases List.mem_append.mp hjob with hold | hnew
    · exact hs.inRange job hold
    · obtain ⟨w, hw, rfl⟩ := List.mem_map.mp hnew
      exact List.mem_range.mp hw
  · -- jobs of earlier requests stay below the new number
    have hold : job ∈ s.queue ∨ job ∈ s.executed → job.request ≤ s.requests + 1 ∧
        (job.request = s.requests + 1 → some s.configuration = some job.configuration) := by
      intro hj
      have hle := (hs.configured job hj).1
      exact ⟨by omega, fun heq => by omega⟩
    rcases hjob with hqueue | hexec
    · rcases List.mem_append.mp hqueue with hq | hnew
      · exact hold (Or.inl hq)
      · obtain ⟨w, -, rfl⟩ := List.mem_map.mp hnew
        exact ⟨le_refl _, fun _ => rfl⟩
    · exact hold (Or.inr hexec)
  · refine ⟨⟨w, s.configuration, s.requests + 1⟩, Or.inl ?_, rfl, rfl⟩
    exact List.mem_append_right _ (List.mem_map.mpr ⟨w, List.mem_range.mpr hw, rfl⟩)

theorem Settled.run {s t : State D} {i : Nat} {thumb : Thumb} (hs : Settled A s)
    (hok : Succeeds A s (.run i thumb)) (h : step A s (.run i thumb) = some t) : Settled A t := by
  obtain ⟨job, hjob, heq⟩ := Option.bind_eq_some_iff.mp h
  obtain rfl := Option.some.inj heq
  have hmem : job ∈ s.queue := List.mem_of_getElem? hjob
  -- the job goes from one list to the other
  have hmoved : ∀ j, j ∈ s.queue ∨ j ∈ s.executed ↔
      j ∈ s.queue.eraseIdx i ∨ j ∈ s.executed ++ [job] := by
    intro j
    have hperm := mem_eraseIdx hjob j
    rw [List.mem_append, List.mem_singleton, hperm]
    tauto
  refine ⟨fun w last row hlast hrow => ?_, fun j hj => ?_, fun j hj => ?_, hs.requested,
    fun hpos w hw => ?_⟩
  · change ((s.executed ++ [job]).filter fun j => j.work = w).getLast? = some last at hlast
    rw [getLast?_filter_append] at hlast
    change (s.works.modify job.work (perform A job.configuration thumb))[w]? = some row at hrow
    rw [List.getElem?_modify] at hrow
    by_cases hw : job.work = w
    · -- the work the job ran on
      rw [if_pos hw] at hlast
      obtain rfl := Option.some.inj hlast
      obtain ⟨row₀, hrow₀, hnew⟩ := Option.map_eq_some_iff.mp hrow
      rw [if_pos hw] at hnew
      rw [← hw] at hrow₀
      obtain ⟨hparsed, hdoc⟩ := ConfigureWork.perform_parsed A thumb (hok job row₀ hjob hrow₀)
      rw [← hnew, hparsed, hdoc]
    · rw [if_neg hw] at hlast
      obtain ⟨row₀, hrow₀, hnew⟩ := Option.map_eq_some_iff.mp hrow
      rw [if_neg hw] at hnew
      rw [← hnew]
      exact hs.parsed w last row₀ hlast hrow₀
  · change j.work < (s.works.modify _ _).length
    rw [List.length_modify]
    exact hs.inRange j (List.mem_of_mem_eraseIdx hj)
  · exact hs.configured j ((hmoved j).mpr hj)
  · change w < (s.works.modify _ _).length at hw
    rw [List.length_modify] at hw
    obtain ⟨j, hj, hwork, hreq⟩ := hs.enqueued hpos w hw
    exact ⟨j, (hmoved j).mp hj, hwork, hreq⟩

theorem step_settled {s t : State D} {e : Event} (hs : Settled A s) (hok : Succeeds A s e)
    (h : step A s e = some t) : Settled A t := by
  cases e with
  | update c =>
    obtain rfl := Option.some.inj h
    exact ⟨hs.parsed, hs.inRange, hs.configured, hs.requested, hs.enqueued⟩
  | reconfigure => exact hs.reconfigure A h
  | run i thumb => exact hs.run A hok h

/-! ### Requests that wait for the queue -/

/-- **Jobs run in the order of their requests.** -/
structure InOrder (s : State D) : Prop where
  settled : Settled A s
  current : ∀ job ∈ s.queue, job.request = s.requests
  ordered : s.executed.Pairwise fun j k => j.request ≤ k.request

theorem start_inOrder (c : Configuration) (works : List (Record D)) : InOrder A (start c works) where
  settled := start_settled A c works
  current job h := absurd h (by simp [start])
  ordered := List.Pairwise.nil

theorem step_inOrder {s t : State D} {e : Event} (hs : InOrder A s)
    (hok : Succeeds A s e ∧ Awaited s e) (h : step A s e = some t) : InOrder A t := by
  refine ⟨step_settled A hs.settled hok.1 h, ?_, ?_⟩
  · cases e with
    | update c =>
      obtain rfl := Option.some.inj h
      exact hs.current
    | reconfigure =>
      obtain rfl := Option.some.inj h
      intro job hjob
      -- the queue was empty, so only the new jobs are in it
      have hempty : s.queue = [] := hok.2
      change job ∈ s.queue ++ jobsOf s at hjob
      rw [hempty, List.nil_append] at hjob
      obtain ⟨w, -, rfl⟩ := List.mem_map.mp hjob
      rfl
    | run i thumb =>
      obtain ⟨job, hjob, heq⟩ := Option.bind_eq_some_iff.mp h
      obtain rfl := Option.some.inj heq
      exact fun j hj => hs.current j (List.mem_of_mem_eraseIdx hj)
  · cases e with
    | update c =>
      obtain rfl := Option.some.inj h
      exact hs.ordered
    | reconfigure =>
      obtain rfl := Option.some.inj h
      exact hs.ordered
    | run i thumb =>
      obtain ⟨job, hjob, heq⟩ := Option.bind_eq_some_iff.mp h
      obtain rfl := Option.some.inj heq
      change (s.executed ++ [job]).Pairwise _
      rw [List.pairwise_append]
      refine ⟨hs.ordered, List.pairwise_singleton _ _, fun j hj k hk => ?_⟩
      obtain rfl := List.mem_singleton.mp hk
      rw [hs.current k (List.mem_of_getElem? hjob)]
      exact (hs.settled.configured j (Or.inr hj)).1

/-- Once the queue is empty, the last job of every work is one of the last request. -/
theorem InOrder.lastJob_request {s : State D} (hs : InOrder A s) (hq : s.queue = [])
    (hpos : 0 < s.requests) {w : Nat} (hw : w < s.works.length) :
    ∃ job, lastJob s w = some job ∧ job.request = s.requests := by
  obtain ⟨job, hjob, hwork, hreq⟩ := hs.settled.enqueued hpos w hw
  have hexec : job ∈ s.executed := hjob.resolve_left (by simp [hq])
  have hmem : job ∈ s.executed.filter fun j => j.work = w :=
    List.mem_filter.mpr ⟨hexec, by simpa using hwork⟩
  -- the last request queued a job for this work, so there is a last one
  obtain ⟨front, last, hsplit⟩ := List.eq_nil_or_concat (s.executed.filter fun j => j.work = w)
    |>.resolve_left (List.ne_nil_of_mem hmem)
  rw [List.concat_eq_append] at hsplit
  refine ⟨last, ?_, ?_⟩
  · rw [lastJob, hsplit, List.getLast?_append_of_ne_nil _ (by simp)]
    rfl
  · -- the job of the last request comes before the last one, or is it
    have hle : s.requests ≤ last.request := by
      rw [← hreq]
      rw [hsplit] at hmem
      rcases List.mem_append.mp hmem with hfront | hlast
      · have hpair := hs.ordered.filter fun j => j.work = w
        rw [hsplit, List.pairwise_append] at hpair
        exact hpair.2.2 job hfront last (List.mem_singleton_self last)
      · rw [List.mem_singleton.mp hlast]
    have hlast : last ∈ s.executed.filter fun j => j.work = w := by
      rw [hsplit]
      simp
    have hge := (hs.settled.configured last (Or.inr (List.mem_filter.mp hlast).1)).1
    omega

/-- **The configuration that counts.** Once the queue is empty and no job failed, a work holds the
extraction under the configuration of the job that ran last on it. That is the configuration of
the most recent request where the job of that request ran last, and for every work when each
request was made with the queue empty. -/
theorem last_executed_wins (c : Configuration) (works : List (Record D)) (es : List Event)
    (s : State D) (hok : Runs.Meets (step A) (Succeeds A) (start c works) es)
    (h : Runs.exec (step A) (start c works) es = some s) (hq : s.queue = []) (last : Configuration)
    (hlast : s.requested = some last) :
    (∀ w job row, lastJob s w = some job → s.works[w]? = some row →
      row.parsed = some (extraction A job.configuration row.document)) ∧
    (∀ w job row, lastJob s w = some job → job.request = s.requests → s.works[w]? = some row →
      row.parsed = some (extraction A last row.document)) ∧
    (Runs.Meets (step A) Awaited (start c works) es →
      ∀ row ∈ s.works, row.parsed = some (extraction A last row.document)) := by
  -- the invariant holds at the end of the run
  have hs : Settled A s := Runs.exec_invariant (fun _ _ _ hI hC ht => step_settled A hI hC ht)
    (start_settled A c works) hok h
  have hcurrent : ∀ w job row, lastJob s w = some job → job.request = s.requests →
      s.works[w]? = some row → row.parsed = some (extraction A last row.document) := by
    intro w job row hjob hreq hrow
    -- a job of the last request has its configuration
    have hexec : job ∈ s.executed := (List.mem_filter.mp (List.mem_of_getLast? hjob)).1
    have hconf := (hs.configured job (Or.inr hexec)).2 hreq
    rw [hlast] at hconf
    rw [hs.parsed w job row hjob hrow, ← Option.some.inj hconf]
  refine ⟨hs.parsed, hcurrent, fun hawaited row hrow => ?_⟩
  -- and if every request waited, the last job of each work is of the last request
  have horder : InOrder A s := Runs.exec_invariant
    (fun _ _ _ hI hC ht => step_inOrder A hI hC ht) (start_inOrder A c works) (hok.and hawaited) h
  obtain ⟨w, hw, hget⟩ := List.mem_iff_getElem.mp hrow
  obtain ⟨job, hjob, hreq⟩ := horder.lastJob_request A hq (hs.requested (by simp [hlast])) hw
  exact hcurrent w job row hjob hreq (by rw [List.getElem?_eq_getElem hw, hget])

/-- The original of a work. -/
def sampleText : String := "\x7b\"name\": \"Starry Night\", \"maker\": \"Van Gogh\"\x7d"

/-- A first configuration, and the one that replaces it. -/
def byName : Configuration := ConfigureWork.oneField "title" [.str "name"]
def byMaker : Configuration := ConfigureWork.oneField "artist" [.str "maker"]

/-- Two requests, with the configuration changed in between, and their jobs in this order. -/
def twoRequests : List Event :=
  [.reconfigure, .update byMaker, .reconfigure, .run 0 .notCached, .run 0 .notCached]

/-- The work holds the extraction under the second configuration. -/
theorem last_executed_wins_twice :
    ∃ s : State String,
      Runs.exec (step (.plain true)) (start byName [ConfigureWork.uploaded sampleText]) twoRequests = some s ∧
      ∀ row ∈ s.works, row.parsed = some (extraction (.plain true) byMaker row.document) ∧
        row.parsed ≠ some (extraction (.plain true) byName (.str sampleText)) := by
  let A : Adapter String := .plain true
  let row : Record String := ConfigureWork.uploaded sampleText
  let s₀ : State String := start byName [row]
  -- both jobs are in the queue, and then one has run
  let s₃ : State String := { s₀ with
    configuration := byMaker, queue := [⟨0, byName, 1⟩, ⟨0, byMaker, 2⟩], requests := 2, requested := some byMaker }
  let s₄ : State String := { s₃ with
    works := [perform A byName .notCached row], queue := [⟨0, byMaker, 2⟩], executed := [⟨0, byName, 1⟩] }
  have hsecond : step A { s₀ with
      configuration := byMaker, queue := [⟨0, byName, 1⟩], requests := 1, requested := some byName }
        .reconfigure = some s₃ := rfl
  have hrun : step A s₃ (.run 0 .notCached) = some s₄ := rfl
  have hok : Runs.Meets (step A) (Succeeds A) s₀ twoRequests := by
    refine ⟨trivial, fun t ht => ?_⟩
    obtain rfl := Option.some.inj ht
    refine ⟨trivial, fun t ht => ?_⟩
    obtain rfl := Option.some.inj ht
    refine ⟨trivial, fun t ht => ?_⟩
    obtain rfl := Option.some.inj (hsecond.symm.trans ht)
    refine ⟨fun job row hjob hrow => ?_, fun t ht => ?_⟩
    · obtain rfl := Option.some.inj hjob
      obtain rfl := Option.some.inj hrow
      decide +kernel
    obtain rfl := Option.some.inj (hrun.symm.trans ht)
    refine ⟨fun job row hjob hrow => ?_, fun _ _ => trivial⟩
    obtain rfl := Option.some.inj hjob
    obtain rfl := Option.some.inj hrow
    decide +kernel
  refine ⟨_, rfl, fun row hrow => ?_⟩
  obtain rfl := List.mem_singleton.mp hrow
  refine ⟨?_, by decide +kernel⟩
  exact (last_executed_wins A byName [ConfigureWork.uploaded sampleText] twoRequests _ hok rfl rfl byMaker
    rfl).2.1 0 ⟨0, byMaker, 2⟩ _ rfl rfl rfl

/-- Two requests, with the configuration changed in between. The job of the second one runs first:
the queue is empty, no job failed, and the work holds the extraction under the first
configuration. -/
theorem last_executed_wins_swapped :
    ∃ s : State String,
      Runs.exec (step (.plain true)) (start byName [ConfigureWork.uploaded sampleText])
        [.reconfigure, .update byMaker, .reconfigure, .run 1 .notCached, .run 0 .notCached] = some s ∧
      s.queue = [] ∧ s.requested = some byMaker ∧
      (yield (.plain true) byName (.str sampleText)).isSome = true ∧
      (yield (.plain true) byMaker (.str sampleText)).isSome = true ∧
      ∃ row ∈ s.works, row.document = .str sampleText ∧
        row.parsed = some (extraction (.plain true) byName (.str sampleText)) ∧
        row.parsed ≠ some (extraction (.plain true) byMaker (.str sampleText)) := by
  refine ⟨_, rfl, rfl, rfl, by decide +kernel, by decide +kernel, _, List.mem_singleton_self _, ?_⟩
  exact ⟨by decide +kernel, by decide +kernel, by decide +kernel⟩

end Reconfigure
end Curarium
