import Curarium.Library.Transducer
import Curarium.Ruby.Text

/-!
# `sanitize_sql_array`

What Rails 4.1 makes of a statement and a list of values.

* A statement with a question mark is filled with quoted values, one for each mark
  (`replaceBindVariables`); the numbers have to agree.
* Any other statement that is not blank is a format (`Ruby.format`), and its values have their
  single quotes doubled (`quoteString`). Nothing is added around them.

Both read the statement from left to right with the values that are left as their state, so a
statement that is put together from parts is filled in part by part.
-/

namespace Curarium

/-! ### `String#%` -/

namespace Ruby

/-- Where the reading of a format stands: in text or after a `%`, with the arguments left. -/
inductive FormatState where
  | text (args : List (List Char))
  | directive (args : List (List Char))
  /-- An `ArgumentError` was raised. -/
  | failed
deriving DecidableEq

/-- One character of a format. A `%` stands for itself when it is doubled or before a line break
or a null character; every other directive takes an argument, and `%s` is the only one that the
application writes. -/
def formatStep : FormatState → Char → FormatState × List Char
  | .text args, c => if c = '%' then (.directive args, []) else (.text args, [c])
  | .directive args, c =>
    if c = '%' then (.text args, ['%'])
    else if c = 's' then
      match args with
      | [] => (.failed, [])
      | a :: rest => (.text rest, a)
    else if c = '\n' ∨ c = '\x00' then (.text args, ['%', c])
    else (.failed, [])
  | .failed, _ => (.failed, [])

/-- `String#%` with an array of strings; `none` where it raises. Arguments may be left over. -/
def format (statement : List Char) (args : List (List Char)) : Option (List Char) :=
  match Transducer.feed formatStep (.text args) statement with
  | (.text _, out) => some out
  | (.directive _, out) => some (out ++ ['%'])
  | (.failed, _) => none

/-- The text that a part of a format stands for by itself, without an argument. -/
def unescape (part : List Char) : Option (List Char) :=
  match Transducer.feed formatStep (.text []) part with
  | (.text _, out) => some out
  | _ => none

/-! ### Formats, part by part -/

/-- The arguments that are left. -/
def FormatState.args : FormatState → List (List Char)
  | .text args => args
  | .directive args => args
  | .failed => []

/-- The same place in the format with other arguments. -/
def FormatState.withArgs : FormatState → List (List Char) → FormatState
  | .text _, args => .text args
  | .directive _, args => .directive args
  | .failed, _ => .failed

@[simp] theorem feed_failed (cs : List Char) :
    Transducer.feed formatStep .failed cs = (.failed, []) := by
  induction cs with
  | nil => rfl
  | cons c cs ih => rw [Transducer.feed_cons, formatStep, ih]; rfl

/-- A character takes an argument that is not there without any, or does the same without. -/
theorem formatStep_args (s : FormatState) (c : Char) :
    ((formatStep s c).1.args.length < s.args.length ∧ (formatStep (s.withArgs []) c).1 = .failed) ∨
      ((formatStep s c).1.args = s.args ∧
        formatStep (s.withArgs []) c = ((formatStep s c).1.withArgs [], (formatStep s c).2)) := by
  cases s with
  | failed => exact .inr ⟨rfl, rfl⟩
  | text args =>
    right
    by_cases hc : c = '%'
    · simp [formatStep, hc, FormatState.args, FormatState.withArgs]
    · simp [formatStep, hc, FormatState.args, FormatState.withArgs]
  | directive args =>
    by_cases hp : c = '%'
    · simp [formatStep, hp, FormatState.args, FormatState.withArgs]
    · by_cases hs : c = 's'
      · -- the one directive that takes an argument, if there is one
        cases args with
        | nil => simp [formatStep, hs, FormatState.args, FormatState.withArgs]
        | cons a rest => simp [formatStep, hs, FormatState.args, FormatState.withArgs]
      · by_cases hn : c = '\n' ∨ c = '\x00'
        · simp [formatStep, hp, hs, hn, FormatState.args, FormatState.withArgs]
        · cases args with
          | nil => simp [formatStep, hp, hs, hn, FormatState.args, FormatState.withArgs]
          | cons a rest => simp [formatStep, hp, hs, hn, FormatState.args, FormatState.withArgs]

/-- The same for a part of a format. -/
theorem feed_args (s : FormatState) (cs : List Char) :
    ((Transducer.feed formatStep s cs).1.args.length < s.args.length ∧
        (Transducer.feed formatStep (s.withArgs []) cs).1 = .failed) ∨
      ((Transducer.feed formatStep s cs).1.args = s.args ∧
        Transducer.feed formatStep (s.withArgs []) cs
          = ((Transducer.feed formatStep s cs).1.withArgs [],
              (Transducer.feed formatStep s cs).2)) := by
  induction cs generalizing s with
  | nil => exact .inr ⟨rfl, rfl⟩
  | cons c cs ih =>
    simp only [Transducer.feed_cons]
    obtain ⟨hlt, hfail⟩ | ⟨heq, hsame⟩ := formatStep_args s c
    · -- an argument is gone, and no later character brings it back
      left
      rw [hfail, feed_failed]
      obtain ⟨hlt', -⟩ | ⟨heq', -⟩ := ih (formatStep s c).1
      · exact ⟨Nat.lt_trans hlt' hlt, rfl⟩
      · exact ⟨heq' ▸ hlt, rfl⟩
    · rw [hsame]
      obtain ⟨hlt', hfail'⟩ | ⟨heq', hsame'⟩ := ih (formatStep s c).1
      · exact .inl ⟨heq ▸ hlt', hfail'⟩
      · exact .inr ⟨heq'.trans heq, by rw [hsame']⟩

/-- **A part without directives** leaves the arguments for the rest of the format. -/
theorem feed_of_unescape {part out : List Char} (h : unescape part = some out)
    (args : List (List Char)) :
    Transducer.feed formatStep (.text args) part = (.text args, out) := by
  have hfeed := feed_args (.text args) part
  rw [FormatState.withArgs] at hfeed
  unfold unescape at h
  obtain ⟨-, hfail⟩ | ⟨heq, hsame⟩ := hfeed
  · -- the name takes an argument, so it has no meaning by itself
    split at h
    · next hs => rw [hs] at hfail; cases hfail
    · cases h
  · rw [hsame] at h
    -- what it does with arguments is what it does without
    generalize hr : Transducer.feed formatStep (.text args) part = r at h heq
    obtain ⟨s, o⟩ := r
    cases s with
    | text rest => simp_all [FormatState.withArgs, FormatState.args]
    | directive rest => simp [FormatState.withArgs] at h
    | failed => simp [FormatState.withArgs] at h

/-- A part with a directive takes an argument away, ends within a directive or fails. -/
theorem feed_of_unescape_none {part : List Char} (h : unescape part = none)
    (args : List (List Char)) :
    (Transducer.feed formatStep (.text args) part).1.args.length < args.length ∨
      ∀ rest, (Transducer.feed formatStep (.text args) part).1 ≠ .text rest := by
  obtain ⟨hlt, -⟩ | ⟨-, hsame⟩ := feed_args (.text args) part
  · exact .inl hlt
  · right
    intro rest hrest
    rw [FormatState.withArgs, hrest] at hsame
    simp [unescape, hsame, FormatState.withArgs] at h

end Ruby

/-! ### `sanitize_sql_array` -/

namespace Rails

/-- `quote_string`: single quotes doubled, and nothing around them. -/
def quoteString (v : List Char) : List Char :=
  v.flatMap fun c => if c = '\'' then ['\'', '\''] else [c]

/-- `quote`, with the quotes around it; `nil` is `NULL`. -/
def quote : Option (List Char) → List Char
  | some v => '\'' :: quoteString v ++ ['\'']
  | none => "NULL".toList

/-- One character of a statement with question marks: each takes the next value. -/
def bindStep (bound : List (List Char)) (c : Char) : List (List Char) × List Char :=
  if c = '?' then (bound.tail, quote bound.head?) else (bound, [c])

/-- `replace_bind_variables`; `none` where it raises. -/
def replaceBindVariables (statement : List Char) (values : List (List Char)) :
    Option (List Char) :=
  if statement.count '?' = values.length then
    some (Transducer.feed bindStep values statement).2
  else none

/-- `sanitize_sql_array`, on strings; `none` where it raises. -/
def sanitizeSqlArray (statement : List Char) (values : List (List Char)) : Option (List Char) :=
  if '?' ∈ statement then replaceBindVariables statement values
  else if Ruby.blank statement then some statement
  else Ruby.format statement (values.map quoteString)

/-- A part without a question mark stays as it is. -/
theorem feed_bindStep_of_notMem {part : List Char} (h : '?' ∉ part) (bound : List (List Char)) :
    Transducer.feed bindStep bound part = (bound, part) := by
  induction part with
  | nil => rfl
  | cons c cs ih =>
    have hc : c ≠ '?' := fun hc => h (by simp [hc])
    have hcs : '?' ∉ cs := fun hcs => h (by simp [hcs])
    rw [Transducer.feed_cons, bindStep, if_neg hc]
    simp only [ih hcs, List.singleton_append]

/-- A single value is formatted to itself with its quotes doubled. -/
theorem sanitizeSqlArray_single (v : List Char) :
    sanitizeSqlArray "%s".toList [v] = some (quoteString v) := by
  show Ruby.format "%s".toList [quoteString v] = some (quoteString v)
  show some (quoteString v ++ []) = _
  rw [List.append_nil]

end Rails
end Curarium
