import Mathlib.Data.List.Basic

/-!
# Letter transducers

A transducer reads its input letter by letter and emits output on the way; at the end of the input
it emits what it still holds. Reading a text in two parts is reading the first and going on from
there with the second (`feed_append`), which is how a text that is put together from parts is
analysed part by part.

What the transducer holds when a part ends comes out with the next one. `Reads` counts it for the
part that it belongs to, so that what is read from the parts just adds up (`Reads.append`).
-/

namespace Curarium
namespace Transducer

variable {σ α β : Type*} (step : σ → α → σ × List β)

/-- The state after the input, and what was emitted on the way. -/
def feed : σ → List α → σ × List β
  | s, [] => (s, [])
  | s, a :: as => ((feed (step s a).1 as).1, (step s a).2 ++ (feed (step s a).1 as).2)

@[simp] theorem feed_nil (s : σ) : feed step s [] = (s, []) := rfl

theorem feed_cons (s : σ) (a : α) (as : List α) :
    feed step s (a :: as)
      = ((feed step (step s a).1 as).1, (step s a).2 ++ (feed step (step s a).1 as).2) := rfl

/-- **Reading in two parts.** -/
theorem feed_append (s : σ) (as bs : List α) :
    feed step s (as ++ bs)
      = ((feed step (feed step s as).1 bs).1,
          (feed step s as).2 ++ (feed step (feed step s as).1 bs).2) := by
  induction as generalizing s with
  | nil => rfl
  | cons a as ih => rw [List.cons_append, feed_cons, ih, feed_cons, List.append_assoc]

/-- The same, from what the parts do. -/
theorem feed_append_of_eq {s t u : σ} {as bs : List α} {xs ys : List β}
    (h : feed step s as = (t, xs)) (h' : feed step t bs = (u, ys)) :
    feed step s (as ++ bs) = (u, xs ++ ys) := by
  rw [feed_append, h, h']

/-- All that is emitted for an input, what is held at its end included. -/
def output (flush : σ → List β) (s : σ) (as : List α) : List β :=
  (feed step s as).2 ++ flush (feed step s as).1

/-- A first letter without output. -/
theorem feed_cons_silent {s t : σ} {a : α} {as : List α} :
    feed step s (a :: as) = (t, []) ↔
      (step s a).2 = [] ∧ feed step (step s a).1 as = (t, []) := by
  rw [feed_cons, Prod.mk.injEq, List.append_eq_nil_iff, Prod.ext_iff]
  exact and_left_comm

/-- From `s` to `t` the input is read as `bs`: they are emitted, or held at the end, and what was
held at the beginning is emitted. -/
def Reads (flush : σ → List β) (s : σ) (as : List α) (t : σ) (bs : List β) : Prop :=
  (feed step s as).1 = t ∧ (feed step s as).2 ++ flush t = flush s ++ bs

variable {step} {flush : σ → List β} {s t u : σ} {as as' : List α} {bs bs' : List β}

/-- What is read first is emitted first. -/
theorem output_append_of_eq {xs : List β} (h : feed step s as = (t, xs)) (bs : List α) :
    output step flush s (as ++ bs) = xs ++ output step flush t bs := by
  unfold output
  rw [feed_append, h, List.append_assoc]

theorem Reads.append (h : Reads step flush s as t bs) (h' : Reads step flush t as' u bs') :
    Reads step flush s (as ++ as') u (bs ++ bs') := by
  refine ⟨?_, ?_⟩
  · rw [feed_append, h.1, h'.1]
  · rw [feed_append, h.1]
    calc (feed step s as).2 ++ (feed step t as').2 ++ flush u
        = (feed step s as).2 ++ ((feed step t as').2 ++ flush u) := List.append_assoc ..
      _ = (feed step s as).2 ++ flush t ++ bs' := by rw [h'.2, List.append_assoc]
      _ = flush s ++ bs ++ bs' := by rw [h.2]
      _ = flush s ++ (bs ++ bs') := List.append_assoc ..

theorem Reads.refl (s : σ) : Reads step flush s [] s [] := ⟨rfl, (List.append_nil _).symm⟩

/-- Where nothing is held at the ends. -/
theorem Reads.of_feed (h : feed step s as = (t, bs)) (hs : flush s = []) (ht : flush t = []) :
    Reads step flush s as t bs := by
  rw [Reads, h, hs, ht, List.append_nil, List.nil_append]
  exact ⟨rfl, rfl⟩

/-- All that a transducer emits is what it reads, if it holds nothing at the beginning. -/
theorem Reads.output_eq (h : Reads step flush s as t bs) (hs : flush s = []) :
    output step flush s as = bs := by
  rw [output, h.1, h.2, hs, List.nil_append]

end Transducer
end Curarium
