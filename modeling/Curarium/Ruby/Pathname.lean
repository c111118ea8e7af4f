import Curarium.Library.Lists
import Mathlib.Data.List.Basic
import Mathlib.Tactic.Common

/-!
# Ruby paths

`Pathname#join` puts a name after a directory. The dots at the front of the name are taken off
against the directory; what is left of them further on is up to whoever opens the file, and `resolve`
says where that is. Paths are lists of components, so that doubled slashes do not show.

* `Name` is a name read from the left: how often it goes up, and then down through what.
* `resolve_join` — a joined path goes up from the directory as often as the name does, and then down;
  an absolute name goes up to the root.
* `under_join_iff` — so it is below the directory exactly when the name, after going up, goes down the
  same way again, and further.
-/

namespace Curarium
namespace Ruby

/-- A component of a path. -/
abbrev Part := List Char

def dot : Part := ['.']

def dotdot : Part := ['.', '.']

structure Pathname where
  absolute : Bool
  parts : List Part
deriving DecidableEq

/-- `Pathname.new`. A text with a null character raises (`none`). -/
def Pathname.new (t : List Char) : Option Pathname :=
  if '\x00' ∈ t then none
  else some { absolute := t.head? = some '/', parts := (t.splitOn '/').filter fun p => !p.isEmpty }

/-- An absolute path without dots. -/
structure Directory where
  parts : List Part
  clean : ∀ p ∈ parts, p ≠ dot ∧ p ≠ dotdot

/-- `Pathname#+` of an absolute path, from its last component, and a relative one. -/
def plus : List Part → List Part → List Part
  | [], q => (q.dropWhile (· = dot)).dropWhile (· = dotdot)
  | b :: base, q =>
    match q.dropWhile (· = dot) with
    | [] => (b :: base).reverse
    | p :: ps => if p = dotdot then plus base ps else (b :: base).reverse ++ p :: ps

/-- `Pathname#join`: the components of an absolute path. -/
def Directory.join (d : Directory) (name : List Char) : Option (List Part) :=
  (Pathname.new name).map fun p => if p.absolute then p.parts else plus d.parts.reverse p.parts

/-- `Pathname#to_s` of an absolute path. -/
def pathText (parts : List Part) : List Char :=
  if parts.isEmpty then ['/'] else parts.flatMap fun p => '/' :: p

/-! ### Dots -/

/-- One component after a path, from its last component. Above the root is the root. -/
def push (stack : List Part) (p : Part) : List Part :=
  if p = dot then stack else if p = dotdot then stack.tail else p :: stack

/-- An absolute path without its dots. -/
def resolve (parts : List Part) : List Part := (parts.foldl push []).reverse

/-- A path is below another. -/
def Under (above path : List Part) : Prop := above <+: path ∧ above ≠ path

instance (above path : List Part) : Decidable (Under above path) := inferInstanceAs (Decidable (_ ∧ _))

/-- A relative path: up some times, and then down, the last component first. -/
structure Name where
  ups : Nat
  downs : List Part

def Name.push (n : Name) (p : Part) : Name :=
  if p = dot then n
  else if p = dotdot then
    match n.downs with
    | [] => { n with ups := n.ups + 1 }
    | _ :: downs => { n with downs := downs }
  else { n with downs := p :: n.downs }

/-- A path without its dots. -/
def Pathname.name (p : Pathname) : Name := p.parts.foldl Name.push ⟨0, []⟩

/-- How many components of a directory the path leaves. -/
def Pathname.ups (p : Pathname) (d : Directory) : Nat := if p.absolute then d.parts.length else p.name.ups

/-- The components that it goes down through afterwards. -/
def Pathname.downs (p : Pathname) : List Part := p.name.downs.reverse

/-! ### Joined paths -/

theorem push_dot (stack : List Part) : push stack dot = stack := if_pos rfl

theorem push_dotdot (stack : List Part) : push stack dotdot = stack.tail := rfl

theorem push_of_ne {stack : List Part} {p : Part} (hdot : p ≠ dot) (hdotdot : p ≠ dotdot) :
    push stack p = p :: stack := by
  unfold push
  rw [if_neg hdot, if_neg hdotdot]

theorem foldl_push_dropWhile_dot (stack q : List Part) :
    (q.dropWhile (· = dot)).foldl push stack = q.foldl push stack := by
  refine Lists.foldl_dropWhile (fun p hp => ?_) q
  rw [of_decide_eq_true hp, push_dot]

theorem foldl_push_dropWhile_dotdot (q : List Part) :
    (q.dropWhile (· = dotdot)).foldl push [] = q.foldl push [] := by
  refine Lists.foldl_dropWhile (fun p hp => ?_) q
  rw [of_decide_eq_true hp, push_dotdot, List.tail_nil]

/-- A path without dots is its own stack. -/
theorem foldl_push_clean {parts : List Part} (h : ∀ p ∈ parts, p ≠ dot ∧ p ≠ dotdot) (stack : List Part) :
    parts.foldl push stack = parts.reverse ++ stack := by
  induction parts generalizing stack with
  | nil => rfl
  | cons p parts ih =>
    obtain ⟨⟨hdot, hdotdot⟩, hparts⟩ := List.forall_mem_cons.mp h
    rw [List.foldl_cons, push_of_ne hdot hdotdot, ih hparts, List.reverse_cons, List.append_assoc]
    rfl

/-- **What `+` takes off the front** of a name makes no difference to where the path leads. -/
theorem foldl_push_plus {stack : List Part} (h : ∀ p ∈ stack, p ≠ dot ∧ p ≠ dotdot) (q : List Part) :
    (plus stack q).foldl push [] = q.foldl push stack := by
  induction stack generalizing q with
  | nil =>
    unfold plus
    rw [foldl_push_dropWhile_dotdot, foldl_push_dropWhile_dot]
  | cons b base ih =>
    -- going down the directory leads to the directory
    have hclean : (b :: base).reverse.foldl push [] = b :: base := by
      rw [foldl_push_clean fun p hp => h p (List.mem_reverse.mp hp), List.reverse_reverse, List.append_nil]
    rw [← foldl_push_dropWhile_dot (b :: base) q]
    unfold plus
    split
    next hq =>
      rw [hq, hclean]
      rfl
    next p ps hq =>
      rw [hq]
      split
      next hp =>
        rw [ih (fun p hp => h p (List.mem_cons_of_mem _ hp)), List.foldl_cons, hp, push_dotdot, List.tail_cons]
      next => rw [List.foldl_append, hclean]

/-- Up and then down from a directory. -/
theorem foldl_push_eq (stack q : List Part) (n : Name) :
    q.foldl push (n.downs ++ stack.drop n.ups) =
      (q.foldl Name.push n).downs ++ stack.drop (q.foldl Name.push n).ups := by
  induction q generalizing n with
  | nil => rfl
  | cons p q ih =>
    rw [List.foldl_cons, List.foldl_cons, ← ih]
    congr 1
    obtain ⟨ups, downs⟩ := n
    unfold push Name.push
    split
    · rfl
    · split
      · -- it goes up: from what it has gone down, or from the directory
        cases downs with
        | nil => exact List.tail_drop
        | cons top downs => rfl
      · rfl

/-- **Where a joined path leads**: up from the directory, and then down. -/
theorem resolve_join {d : Directory} {name : List Char} {p : Pathname} {path : List Part}
    (hp : Pathname.new name = some p) (h : d.join name = some path) :
    resolve path = d.parts.take (d.parts.length - p.ups d) ++ p.downs := by
  unfold Directory.join at h
  rw [hp] at h
  obtain rfl := Option.some.inj h
  obtain ⟨absolute, parts⟩ := p
  unfold resolve Pathname.ups Pathname.downs Pathname.name
  cases absolute with
  | true =>
    -- an absolute name starts at the root, whatever the directory is
    have heq := foldl_push_eq [] parts ⟨0, []⟩
    simp only [List.drop_nil, List.append_nil] at heq
    change (parts.foldl push []).reverse = d.parts.take (d.parts.length - d.parts.length) ++ _
    rw [Nat.sub_self, List.take_zero, List.nil_append]
    exact congrArg List.reverse heq
  | false =>
    have heq := foldl_push_eq d.parts.reverse parts ⟨0, []⟩
    rw [List.drop_zero, List.nil_append] at heq
    change ((plus d.parts.reverse parts).foldl push []).reverse =
      d.parts.take (d.parts.length - (parts.foldl Name.push ⟨0, []⟩).ups) ++ _
    rw [foldl_push_plus fun p hp => d.clean p (List.mem_reverse.mp hp), heq, List.reverse_append,
      List.drop_reverse, List.reverse_reverse]

theorem under_append_iff (kept above path : List Part) :
    Under (kept ++ above) (kept ++ path) ↔ Under above path := by
  unfold Under
  rw [List.prefix_append_right_inj, Ne, List.append_cancel_left_eq]

/-- **A joined path is below the directory** exactly when it goes down again the way it went up, and
further. -/
theorem under_join_iff {d : Directory} {name : List Char} {p : Pathname} {path : List Part}
    (hp : Pathname.new name = some p) (h : d.join name = some path) :
    Under d.parts (resolve path) ↔ Under (d.parts.drop (d.parts.length - p.ups d)) p.downs := by
  calc Under d.parts (resolve path)
      ↔ Under (d.parts.take (d.parts.length - p.ups d) ++ d.parts.drop (d.parts.length - p.ups d))
          (d.parts.take (d.parts.length - p.ups d) ++ p.downs) := by
        rw [List.take_append_drop, resolve_join hp h]
    _ ↔ Under (d.parts.drop (d.parts.length - p.ups d)) p.downs := under_append_iff _ _ _

end Ruby
end Curarium
