import Mathlib.Data.List.Induction
import Mathlib.Tactic.Common

/-!
# Chains of versions

A history of a value is a list of links, each from the version it replaces to the version it makes. It
is one chain if every link starts where the one before it ends (`Chain`). A link at the end of a chain
continues it exactly if it starts at the latest version (`chain_concat_iff`).

`latest_eq_iff` is for a writer that took the latest version some links ago: what it took is still the
latest exactly if the links since then lead back to it.
-/

namespace Curarium
namespace Chains

variable {V : Type*}

/-- The version that the last link makes. -/
def latest (base : V) (links : List (V × V)) : V := (links.getLast?.map Prod.snd).getD base

/-- Every link starts where the one before it ends, the first one at the base. -/
def Chain : V → List (V × V) → Prop
  | _, [] => True
  | base, l :: links => l.1 = base ∧ Chain l.2 links

@[simp] theorem latest_nil (base : V) : latest base [] = base := rfl

theorem latest_cons (base : V) (l : V × V) (links : List (V × V)) :
    latest base (l :: links) = latest l.2 links := by
  rw [latest, latest, List.getLast?_cons]
  cases links.getLast? <;> rfl

theorem latest_append (base : V) (links links' : List (V × V)) :
    latest base (links ++ links') = latest (latest base links) links' := by
  induction links generalizing base with
  | nil => rfl
  | cons l links ih => rw [List.cons_append, latest_cons, latest_cons, ih]

/-- **One more link** continues a chain exactly if it starts at the latest version. -/
theorem chain_concat_iff {base : V} {links : List (V × V)} {l : V × V} :
    Chain base (links ++ [l]) ↔ Chain base links ∧ l.1 = latest base links := by
  induction links generalizing base with
  | nil => simp [Chain]
  | cons k links ih =>
    show k.1 = base ∧ Chain k.2 (links ++ [l]) ↔ (k.1 = base ∧ Chain k.2 links) ∧ _
    rw [ih, latest_cons, and_assoc]

/-- **What was the latest version** is so still exactly if the last link since then, if there is one,
makes it again. -/
theorem latest_eq_iff {base v : V} {links : List (V × V)} {n : Nat}
    (hv : v = latest base (links.take n)) :
    v = latest base links ↔ ∀ l, (links.drop n).getLast? = some l → l.2 = v := by
  have hsplit : latest base links = latest v (links.drop n) := by
    rw [hv, ← latest_append, List.take_append_drop]
  rw [hsplit, latest]
  cases (links.drop n).getLast? with
  | none => simp
  | some l => simp [eq_comm]

end Chains
end Curarium
