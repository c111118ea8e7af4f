import Mathlib.Data.Option.Basic

/-!
# Runs of a transition function

A system moves by `step : S → E → Option S`, where `none` is an event that cannot happen. A run
is a list of events (`exec`), and a condition on the steps of a run is a predicate on the state
before each step (`Meets`).

* `exec_invariant` — what every step that meets the condition preserves holds after every run
  whose steps meet it.
* `always_of_meets` — what every step that meets the condition does, all steps of the run do.
* `always_iff_meets` — a property of single steps (`Always`) holds all along a run exactly when
  its steps meet a condition, if it does so for one step.
-/

namespace Curarium
namespace Runs

variable {S E : Type*} (step : S → E → Option S)

/-- The state after the events, the first one first. -/
def exec : S → List E → Option S
  | s, [] => some s
  | s, e :: es => (step s e).bind fun t => exec t es

/-- Every step of the run meets the condition in the state it starts from. -/
def Meets (C : S → E → Prop) : S → List E → Prop
  | _, [] => True
  | s, e :: es => C s e ∧ ∀ t, step s e = some t → Meets C t es

/-- Every step of the run, from the state before it to the state after it, has the property. -/
def Always (P : S → E → S → Prop) : S → List E → Prop
  | _, [] => True
  | s, e :: es => ∀ t, step s e = some t → P s e t ∧ Always P t es

variable {step}

theorem Meets.and {C C' : S → E → Prop} {s : S} {es : List E} (h : Meets step C s es)
    (h' : Meets step C' s es) : Meets step (fun s e => C s e ∧ C' s e) s es := by
  induction es generalizing s with
  | nil => trivial
  | cons e es ih => exact ⟨⟨h.1, h'.1⟩, fun t ht => ih (h.2 t ht) (h'.2 t ht)⟩

/-- **The invariant rule.** -/
theorem exec_invariant {C : S → E → Prop} {I : S → Prop}
    (hstep : ∀ s e t, I s → C s e → step s e = some t → I t) {s t : S} {es : List E}
    (hI : I s) (hC : Meets step C s es) (h : exec step s es = some t) : I t := by
  induction es generalizing s with
  | nil =>
    obtain rfl := Option.some.inj h
    exact hI
  | cons e es ih =>
    obtain ⟨u, hu, hrest⟩ := Option.bind_eq_some_iff.mp h
    exact ih (hstep s e u hI hC.1 hu) (hC.2 u hu) hrest

theorem meets_of_forall {C : S → E → Prop} (h : ∀ s e, C s e) (s : S) (es : List E) : Meets step C s es := by
  induction es generalizing s with
  | nil => trivial
  | cons e es ih => exact ⟨h s e, fun t _ => ih t⟩

theorem meets_of_mem {C : E → Prop} {es : List E} (h : ∀ e ∈ es, C e) (s : S) :
    Meets step (fun _ e => C e) s es := by
  induction es generalizing s with
  | nil => trivial
  | cons e es ih => exact ⟨h e List.mem_cons_self, fun t _ => ih (fun e he => h e (List.mem_cons_of_mem _ he)) t⟩

/-- A condition on the events, in a run that happens. -/
theorem meets_iff_forall_mem {C : E → Prop} {s t : S} {es : List E} (h : exec step s es = some t) :
    Meets step (fun _ e => C e) s es ↔ ∀ e ∈ es, C e := by
  refine ⟨fun hmeets => ?_, fun hall => meets_of_mem hall s⟩
  induction es generalizing s with
  | nil => exact List.forall_mem_nil _
  | cons e es ih =>
    obtain ⟨u, hu, hrest⟩ := Option.bind_eq_some_iff.mp h
    exact List.forall_mem_cons.mpr ⟨hmeets.1, ih hrest (hmeets.2 u hu)⟩

/-- The invariant rule for what every step preserves. -/
theorem exec_preserves {I : S → Prop} (hstep : ∀ s e t, I s → step s e = some t → I t) {s t : S} {es : List E}
    (hI : I s) (h : exec step s es = some t) : I t :=
  exec_invariant (C := fun _ _ => True) (fun s e t hs _ ht => hstep s e t hs ht) hI
    (meets_of_forall (fun _ _ => trivial) s es) h

/-- **What every step does.** -/
theorem always_of_meets {P : S → E → S → Prop} {C : S → E → Prop} {I : S → Prop}
    (hstep : ∀ s e t, I s → C s e → step s e = some t → P s e t ∧ I t) {s : S} {es : List E}
    (hI : I s) (hC : Meets step C s es) : Always step P s es := by
  induction es generalizing s with
  | nil => trivial
  | cons e es ih =>
    intro t ht
    obtain ⟨hP, hIt⟩ := hstep s e t hI hC.1 ht
    exact ⟨hP, ih hIt (hC.2 t ht)⟩

/-- **The exact condition on a run.** `J` holds in every state, `I` in every state as long as the
steps have the property `P`; where a single step has the property exactly when it meets the
condition, all the steps of a run have it exactly when they all meet the condition. -/
theorem always_iff_meets {P : S → E → S → Prop} {C : S → E → Prop} {J I : S → Prop}
    (hJ : ∀ s e t, J s → step s e = some t → J t)
    (hI : ∀ s e t, P s e t → I t)
    (hstep : ∀ s e t, J s → I s → step s e = some t → (P s e t ↔ C s e)) {s t : S} {es : List E}
    (hJs : J s) (hIs : I s) (h : exec step s es = some t) :
    Always step P s es ↔ Meets step C s es := by
  induction es generalizing s with
  | nil => exact Iff.rfl
  | cons e es ih =>
    -- the first step happens, and leads to the only state it can lead to
    obtain ⟨u, hu, hrest⟩ := Option.bind_eq_some_iff.mp h
    have honly : ∀ {v}, step s e = some v → v = u := fun hv => Option.some.inj (hv.symm.trans hu)
    have hfirst := hstep s e u hJs hIs hu
    constructor
    · intro halways
      obtain ⟨hP, hlater⟩ := halways u hu
      refine ⟨hfirst.mp hP, fun v hv => ?_⟩
      rw [honly hv]
      exact (ih (hJ s e u hJs hu) (hI s e u hP) hrest).mp hlater
    · rintro ⟨hC, hlater⟩ v hv
      obtain rfl := honly hv
      have hP := hfirst.mpr hC
      exact ⟨hP, (ih (hJ s e v hJs hv) (hI s e v hP) hrest).mpr (hlater v hv)⟩

end Runs
end Curarium
