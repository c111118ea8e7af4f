import Curarium.Sql.Condition

/-!
# Statements

The `SELECT` statements that the application writes itself: a list of expressions with names, a
table or a statement in brackets to take rows from, a condition on these and an expression to group
them by. A statement is well formed if `parseStatement` can read all its tokens.
-/

namespace Curarium
namespace Sql

mutual

inductive Select where
  | mk (items : List (Expr × Option String)) (source : Source) (condition : Option Expr)
      (groupBy : Option Expr)

/-- Where the rows of a statement come from. -/
inductive Source where
  | table (name : String)
  | derived (statement : Select) (name : String)

end

/-- The tokens after one that has to be there. -/
def expect (tok : Token) : List Token → Option (List Token)
  | t :: rest => if t = tok then some rest else none
  | [] => none

/-- An expression, and the name it is given. -/
def parseItem (fuel : Nat) (ts : List Token) : Option ((Expr × Option String) × List Token) :=
  (parse fuel .or ts).map fun e =>
    match e.2 with
    | .word as' :: .word name :: rest =>
      if as' = "as" then ((e.1, some name), rest) else ((e.1, none), e.2)
    | _ => ((e.1, none), e.2)

def parseItems (fuel : Nat) : Nat → List Token → Option (List (Expr × Option String) × List Token)
  | 0, _ => none
  | n + 1, ts =>
    (parseItem fuel ts).bind fun item =>
      match item.2 with
      | .punct ',' :: rest => (parseItems fuel n rest).map fun items => (item.1 :: items.1, items.2)
      | rest => some ([item.1], rest)

/-- `WHERE` and a condition, if it is there. -/
def parseWhere (fuel : Nat) (ts : List Token) : Option (Option Expr × List Token) :=
  match ts with
  | .word w :: rest =>
    if w = "where" then (parse fuel .or rest).map fun e => (some e.1, e.2) else some (none, ts)
  | _ => some (none, ts)

/-- `GROUP BY` and an expression, if it is there. -/
def parseGroupBy (fuel : Nat) (ts : List Token) : Option (Option Expr × List Token) :=
  match ts with
  | .word group :: .word by' :: rest =>
    if group = "group" ∧ by' = "by" then (parse fuel .or rest).map fun e => (some e.1, e.2)
    else some (none, ts)
  | _ => some (none, ts)

/-- The name of a statement in brackets. -/
def parseName (ts : List Token) : Option (String × List Token) :=
  (expect (.word "as") ts).bind fun ts =>
    match ts with
    | .word name :: rest => some (name, rest)
    | _ => none

/-- A statement, and the tokens after it. -/
def parseSelect (fuel : Nat) : Nat → List Token → Option (Select × List Token)
  | 0, _ => none
  | n + 1, ts =>
    (expect (.word "select") ts).bind fun ts =>
      (parseItems fuel fuel ts).bind fun items =>
        (expect (.word "from") items.2).bind fun ts =>
          (source ts (parseSelect fuel n)).bind fun source =>
            (parseWhere fuel source.2).bind fun condition =>
              (parseGroupBy fuel condition.2).map fun groupBy =>
                (.mk items.1 source.1 condition.1 groupBy.1, groupBy.2)
where
  source (ts : List Token) (inner : List Token → Option (Select × List Token)) :
      Option (Source × List Token) :=
    match ts with
    | .quoted name :: rest => some (.table name, rest)
    | .word name :: rest => if isReserved name then none else some (.table name, rest)
    | .punct '(' :: rest =>
      (inner rest).bind fun statement =>
        (expect (.punct ')') statement.2).bind fun ts =>
          (parseName ts).map fun name => (.derived statement.1 name.1, name.2)
    | _ => none

/-- A statement that takes all the tokens. -/
def parseStatement (ts : List Token) : Option Select :=
  (parseSelect (8 * (ts.length + 1)) ts.length ts).bind fun s => if s.2 = [] then some s.1 else none

end Sql
end Curarium
