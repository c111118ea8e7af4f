import Curarium.Library.Chains
import Curarium.Library.Runs

/-!
# Amendments of a work

An edit of a work's metadata is saved as an amendment, a row with the metadata before and after it.
`WorksController#update` takes what was before from the last amendment, or from the work if there is
none, and then inserts its row; nothing keeps another request from inserting one in between.

* `advance` is one statement of a request, `step` the statement of some request.
* `Chained` — the amendments form one chain from the metadata of the work.
* `Current` — what a request has read were the latest metadata when it read them.
* `chained_iff` — the amendments stay one chain in a run exactly when no request that is about to
  insert has been overtaken by other edits.

The rows are in the order of their ids, which is the order of the inserts.
-/

namespace Curarium
namespace Amendments

open Chains Runs

/-! ### The requests -/

/-- An `hstore` as it is stored. -/
abbrev Metadata := Option (List (String × Option String))

/-- A row of `amendments`, of one work. -/
structure Amendment where
  userId : Nat
  previous : Metadata
  amended : Metadata
deriving DecidableEq

/-- A request to update the work: `current_user` and `params[:work][:parsed]`. -/
structure Request where
  currentUser : Option Nat
  amended : Metadata
deriving DecidableEq

/-- What a request does next. -/
inductive Stage where
  /-- `Work.find`, in `set_work` -/
  | finding
  /-- `@work.amendments`, with the `parsed` of the work that was found -/
  | loading (parsed : Metadata)
  /-- `@amendment.save`, with `last_amendment` and the number of amendments that were loaded -/
  | saving (last_amendment : Metadata) (loaded : Nat)
  | done
  /-- Without a user there is no `id`. -/
  | raised
deriving DecidableEq

/-- The work, its amendments, and the requests under way. -/
structure State where
  parsed : Metadata
  amendments : List Amendment
  requests : List (Request × Stage)
deriving DecidableEq

/-- `last_amendment` -/
def lastAmendment (parsed : Metadata) (amendments : List Amendment) : Metadata :=
  match amendments.getLast? with
  | some a => a.amended
  | none => parsed

/-- One statement of `WorksController#update`. -/
def advance (parsed : Metadata) (amendments : List Amendment) (r : Request) :
    Stage → Option (List Amendment × Stage)
  | .finding => some (amendments, .loading parsed)
  | .loading found => some (amendments, .saving (lastAmendment found amendments) amendments.length)
  | .saving last _ =>
    match r.currentUser with
    | none => some (amendments, .raised)
    | some user => some (amendments ++ [⟨user, last, r.amended⟩], .done)
  | .done => none
  | .raised => none

/-- The next statement of one of the requests. -/
def step (s : State) (i : Nat) : Option State :=
  s.requests[i]?.bind fun q =>
    (advance s.parsed s.amendments q.1 q.2).map fun r =>
      { s with amendments := r.1, requests := s.requests.set i (q.1, r.2) }

/-- A work without amendments, and the requests on it. -/
def start (parsed : Metadata) (requests : List Request) : State where
  parsed := parsed
  amendments := []
  requests := requests.map fun r => (r, .finding)

/-! ### Chains -/

/-- What an amendment replaces, and by what. -/
def Amendment.link (a : Amendment) : Metadata × Metadata := (a.previous, a.amended)

/-- The amendments form one chain from the metadata of the work. -/
def Chained (s : State) : Prop := Chain s.parsed (s.amendments.map Amendment.link)

theorem lastAmendment_eq (parsed : Metadata) (amendments : List Amendment) :
    lastAmendment parsed amendments = latest parsed (amendments.map Amendment.link) := by
  rw [lastAmendment, latest, List.getLast?_map]
  cases amendments.getLast? <;> rfl

/-- What a request holds is what was current when it was read. -/
def Stage.Current (parsed : Metadata) (amendments : List Amendment) : Stage → Prop
  | .loading found => found = parsed
  | .saving last loaded => last = lastAmendment parsed (amendments.take loaded) ∧ loaded ≤ amendments.length
  | _ => True

/-- Every request holds what was current when it read it. -/
def Current (s : State) : Prop := ∀ q ∈ s.requests, q.2.Current s.parsed s.amendments

/-! ### One statement -/

/-- The request is about to insert a row. -/
def Inserts (s : State) (i : Nat) (user : Nat) (last : Metadata) (loaded : Nat) (amended : Metadata) :
    Prop :=
  ∃ r, s.requests[i]? = some (r, .saving last loaded) ∧ r.currentUser = some user ∧ r.amended = amended

/-- **What a statement does**: it inserts one row, or it reads or raises and leaves the rows alone. -/
theorem step_cases {s t : State} {i : Nat} (h : step s i = some t) :
    (∃ q, t = { s with requests := s.requests.set i q } ∧
      (∀ user last loaded amended, ¬Inserts s i user last loaded amended) ∧
      (Current s → q.2.Current s.parsed s.amendments)) ∨
    ∃ user last loaded amended r, Inserts s i user last loaded amended ∧
      t = { s with
        amendments := s.amendments ++ [⟨user, last, amended⟩]
        requests := s.requests.set i (r, .done) } := by
  obtain ⟨⟨r, stage⟩, hq, h⟩ := Option.bind_eq_some_iff.mp h
  obtain ⟨⟨amendments, stage'⟩, hadvance, rfl⟩ := Option.map_eq_some_iff.mp h
  cases stage with
  | finding =>
    obtain ⟨rfl, rfl⟩ := Prod.mk.inj (Option.some.inj hadvance)
    refine Or.inl ⟨_, rfl, ?_, fun _ => rfl⟩
    rintro user last loaded amended ⟨r', hr', -⟩
    cases hq.symm.trans hr'
  | loading found =>
    obtain ⟨rfl, rfl⟩ := Prod.mk.inj (Option.some.inj hadvance)
    refine Or.inl ⟨_, rfl, ?_, fun hcurrent => ?_⟩
    · rintro user last loaded amended ⟨r', hr', -⟩
      cases hq.symm.trans hr'
    · -- the metadata of the work are those that were found before
      obtain rfl : found = s.parsed := hcurrent _ (List.mem_of_getElem? hq)
      exact ⟨by rw [List.take_length], Nat.le_refl _⟩
  | saving last loaded =>
    cases huser : r.currentUser with
    | none =>
      simp only [advance, huser, Option.some.injEq, Prod.mk.injEq] at hadvance
      obtain ⟨rfl, rfl⟩ := hadvance
      refine Or.inl ⟨_, rfl, ?_, fun _ => trivial⟩
      rintro user last' loaded' amended ⟨r', hr', huser', -⟩
      cases hq.symm.trans hr'
      cases huser.symm.trans huser'
    | some user =>
      simp only [advance, huser, Option.some.injEq, Prod.mk.injEq] at hadvance
      obtain ⟨rfl, rfl⟩ := hadvance
      exact Or.inr ⟨user, last, loaded, r.amended, r, ⟨r, hq, huser, rfl⟩, rfl⟩
  | done => cases hadvance
  | raised => cases hadvance

/-- What was current stays what was current then. -/
theorem Stage.Current.concat {parsed : Metadata} {amendments : List Amendment} {stage : Stage}
    (h : stage.Current parsed amendments) (a : Amendment) :
    stage.Current parsed (amendments ++ [a]) := by
  cases stage with
  | saving last loaded =>
    obtain ⟨hlast, hle⟩ := h
    refine ⟨?_, Nat.le_trans hle (by simp)⟩
    rw [List.take_append_of_le_length hle]
    exact hlast
  | _ => exact h

theorem Current.step {s t : State} {i : Nat} (h : Current s) (hstep : step s i = some t) :
    Current t := by
  rcases step_cases hstep with ⟨q, rfl, -, hq⟩ | ⟨user, last, loaded, amended, r, -, rfl⟩
  · intro q' hq'
    rcases List.mem_or_eq_of_mem_set hq' with hold | rfl
    · exact h q' hold
    · exact hq h
  · intro q' hq'
    rcases List.mem_or_eq_of_mem_set hq' with hold | rfl
    · exact (h q' hold).concat _
    · trivial

theorem Current.start (parsed : Metadata) (requests : List Request) :
    Current (start parsed requests) := by
  intro q hq
  obtain ⟨r, -, rfl⟩ := List.mem_map.mp hq
  trivial

/-- A request that is about to insert is not overtaken: the last of the amendments that were saved
since it loaded them, if there is one, amended to what the request has read. -/
def NotOvertaken (s : State) (i : Nat) : Prop :=
  ∀ user last loaded amended, Inserts s i user last loaded amended →
    ∀ a, (s.amendments.drop loaded).getLast? = some a → a.amended = last

/-- A request that has loaded all the amendments is not overtaken. -/
theorem notOvertaken_of_loaded {s : State} {i : Nat}
    (h : ∀ r last loaded, s.requests[i]? = some (r, .saving last loaded) → s.amendments.length ≤ loaded) :
    NotOvertaken s i := by
  rintro user last loaded amended ⟨r, hr, -⟩ a ha
  rw [List.drop_eq_nil_of_le (h r last loaded hr)] at ha
  cases ha

/-- **One statement** keeps the chain exactly if its request is not overtaken. -/
theorem chained_step_iff {s t : State} {i : Nat} (hcurrent : Current s) (hchain : Chained s)
    (hstep : step s i = some t) : Chained t ↔ NotOvertaken s i := by
  rcases step_cases hstep with ⟨q, rfl, hno, -⟩ | ⟨user, last, loaded, amended, r, hinsert, rfl⟩
  · -- nothing is inserted
    refine iff_of_true hchain fun user last loaded amended hinsert => ?_
    exact absurd hinsert (hno user last loaded amended)
  · obtain ⟨r', hr', huser, rfl⟩ := hinsert
    have hread : last = latest s.parsed ((s.amendments.map Amendment.link).take loaded) := by
      rw [← List.map_take, ← lastAmendment_eq]
      exact (hcurrent _ (List.mem_of_getElem? hr')).1
    -- the new amendment is chained if the last one that it has not seen leads where it starts
    have hchained : Chain s.parsed ((s.amendments ++ [Amendment.mk user last r'.amended]).map Amendment.link) ↔
        ∀ a, (s.amendments.drop loaded).getLast? = some a → a.amended = last := by
      rw [List.map_append, List.map_singleton, chain_concat_iff]
      show Chained s ∧ last = latest s.parsed (s.amendments.map Amendment.link) ↔ _
      rw [and_iff_right hchain, latest_eq_iff hread, ← List.map_drop, List.getLast?_map]
      cases (s.amendments.drop loaded).getLast? with
      | none => simp
      | some a => simp [Amendment.link]
    show Chain s.parsed _ ↔ _
    rw [hchained]
    constructor
    · rintro h user' last' loaded' amended ⟨r'', hr'', -⟩
      cases hr'.symm.trans hr''
      exact h
    · exact fun h => h user last loaded r'.amended ⟨r', hr', huser, rfl⟩

/-! ### Runs -/

/-- **Amendments form one chain.** For every work and every number of requests on it: in a run of
their statements, in any order, the amendments are one chain after every statement exactly when no
request inserts after it was overtaken. -/
theorem chained_iff (parsed : Metadata) (requests : List Request) (run : List Nat) (t : State)
    (hrun : exec step (start parsed requests) run = some t) :
    Always step (fun _ _ s => Chained s) (start parsed requests) run ↔
      Meets step NotOvertaken (start parsed requests) run := by
  refine always_iff_meets (J := Current) (I := Chained) ?_ ?_ ?_ ?_ ?_ hrun
  · exact fun s i u hs hstep => hs.step hstep
  · exact fun s i u hu => hu
  · exact fun s i u hcurrent hchain hstep => chained_step_iff hcurrent hchain hstep
  · exact Current.start parsed requests
  · trivial

/-- An edit of the title. -/
def edit (user : Nat) (title : String) : Request := ⟨some user, some [("title", some title)]⟩

/-- Two edits one after the other. -/
theorem chained_sequential :
    Always step (fun _ _ s => Chained s) (start none [edit 1 "a", edit 2 "b"]) [0, 0, 0, 1, 1, 1] := by
  have hsome : (exec step (start none [edit 1 "a", edit 2 "b"]) [0, 0, 0, 1, 1, 1]).isSome = true := by
    decide
  obtain ⟨t, ht⟩ := Option.isSome_iff_exists.mp hsome
  refine (chained_iff none [edit 1 "a", edit 2 "b"] [0, 0, 0, 1, 1, 1] t ht).mpr ?_
  -- each request finds and loads before it saves, and nothing is saved in between
  refine ⟨notOvertaken_of_loaded fun r last loaded h => (by cases h), fun s hs => ?_⟩
  obtain rfl := Option.some.inj hs
  refine ⟨notOvertaken_of_loaded fun r last loaded h => (by cases h), fun s hs => ?_⟩
  obtain rfl := Option.some.inj hs
  refine ⟨notOvertaken_of_loaded fun r last loaded h => (by cases h; exact Nat.le_refl 0), fun s hs => ?_⟩
  obtain rfl := Option.some.inj hs
  refine ⟨notOvertaken_of_loaded fun r last loaded h => (by cases h), fun s hs => ?_⟩
  obtain rfl := Option.some.inj hs
  refine ⟨notOvertaken_of_loaded fun r last loaded h => (by cases h), fun s hs => ?_⟩
  obtain rfl := Option.some.inj hs
  exact ⟨notOvertaken_of_loaded fun r last loaded h => (by cases h; exact Nat.le_refl 1), fun _ _ => trivial⟩

/-- Two edits that read before either of them is saved: the first one is not the previous of the
second one. -/
theorem chained_concurrent :
    ¬∀ t, exec step (start none [edit 1 "a", edit 2 "b"]) [0, 0, 1, 1, 0, 1] = some t → Chained t := by
  intro h
  have hchain := h _ rfl
  exact absurd hchain.2.1 (by decide)

end Amendments
end Curarium
