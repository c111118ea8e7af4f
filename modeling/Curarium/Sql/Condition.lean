import Mathlib.Data.List.Forall2
import Mathlib.Data.List.Infix
import Curarium.Library.Kleene
import Curarium.Sql.Lexer

/-!
# Conditions

The conditions of `where` clauses, as far as the application writes them: how their tokens are
read (`parse`), and what they mean for a row (`eval`).

* `or` binds less than `and`, and that less than `not`; comparisons and `like` come next, then the
  operators, casts and function calls. `and` and `or` are read to the right, which makes no
  difference to their value.
* A condition has one of three truth values; the values that are missing from an `hstore` are
  `NULL`, and so is whatever a function or an operator makes of `NULL`.
* A statement that cannot be read, names an unknown column or mixes up types is an error (`none`).

What `lower` does beyond ASCII depends on the locale of the database, so it is a parameter.
-/

namespace Curarium
namespace Sql

/-! ### Syntax -/

inductive Expr where
  | column (name : String)
  | int (digits : String)
  | str (s : String)
  | call (function : String) (arg : Expr)
  /-- The arguments of a function, from the second on to the right of the first. -/
  | comma (l r : Expr)
  | cast (e : Expr) (type : String)
  | binary (op : String) (l r : Expr)
  | not (e : Expr)
  | and (l r : Expr)
  | or (l r : Expr)
deriving DecidableEq

/-- The levels of precedence, the weakest first. -/
inductive Level where
  | args
  | or
  | and
  | not
  | comparison
  | operator
  | cast
  | primary
deriving DecidableEq

/-- The words that name no column and no function. -/
def isReserved (w : String) : Bool :=
  w ∈ ["and", "or", "not", "like", "as", "both", "from", "group", "select", "where"]

/-- An expression at a level, and the tokens after it. -/
def parse : Nat → Level → List Token → Option (Expr × List Token)
  | 0, _, _ => none
  | n + 1, .args, ts =>
    (parse n .or ts).bind fun l =>
      match l.2 with
      | .punct ',' :: rest => (parse n .args rest).map fun r => (.comma l.1 r.1, r.2)
      | _ => some l
  | n + 1, .or, ts =>
    (parse n .and ts).bind fun l =>
      match l.2 with
      | .word w :: rest =>
        if w = "or" then (parse n .or rest).map fun r => (.or l.1 r.1, r.2) else some l
      | _ => some l
  | n + 1, .and, ts =>
    (parse n .not ts).bind fun l =>
      match l.2 with
      | .word w :: rest =>
        if w = "and" then (parse n .and rest).map fun r => (.and l.1 r.1, r.2) else some l
      | _ => some l
  | n + 1, .not, ts =>
    match ts with
    | .word w :: rest =>
      if w = "not" then (parse n .not rest).map fun e => (.not e.1, e.2)
      else parse n .comparison ts
    | _ => parse n .comparison ts
  | n + 1, .comparison, ts =>
    (parse n .operator ts).bind fun l =>
      match l.2 with
      | .op o :: rest =>
        if o = "=" then (parse n .operator rest).map fun r => (.binary "=" l.1 r.1, r.2)
        else some l
      | .word w :: rest =>
        if w = "like" then (parse n .operator rest).map fun r => (.binary "like" l.1 r.1, r.2)
        else some l
      | _ => some l
  | n + 1, .operator, ts =>
    (parse n .cast ts).bind fun l =>
      match l.2 with
      | .op o :: rest =>
        if o = "->" then (parse n .cast rest).map fun r => (.binary "->" l.1 r.1, r.2) else some l
      | _ => some l
  | n + 1, .cast, ts =>
    (parse n .primary ts).map fun e =>
      match e.2 with
      | .op o :: .word type :: rest => if o = "::" then (.cast e.1 type, rest) else e
      | _ => e
  | n + 1, .primary, ts =>
    match ts with
    | .number .integer digits :: rest => some (.int digits, rest)
    | .str .standard s :: rest => some (.str s, rest)
    | .punct '(' :: rest =>
      (parse n .or rest).bind fun e =>
        match e.2 with
        | .punct ')' :: rest => some (e.1, rest)
        | _ => none
    | .word w :: rest =>
      if isReserved w then none
      else
        match rest with
        | .punct '(' :: rest =>
          (parse n .args (afterBoth w rest)).bind fun e =>
            match e.2 with
            | .punct ')' :: rest => some (.call w e.1, rest)
            | _ => none
        | _ => some (.column w, rest)
    | _ => none
where
  /-- `trim` takes its argument after `both from`. -/
  afterBoth (w : String) : List Token → List Token
    | .word both :: .word from' :: rest =>
      if w = "trim" ∧ both = "both" ∧ from' = "from" then rest
      else .word both :: .word from' :: rest
    | ts => ts

/-- A condition: an expression that takes all the tokens. Every token is read at most once at each
level, so there is fuel for all of them. -/
def parseCondition (ts : List Token) : Option Expr :=
  (parse (8 * (ts.length + 1)) .or ts).bind fun e => if e.2 = [] then some e.1 else none

/-! ### Reading conditions -/

/-- The tokens after which a condition is over. -/
inductive Stops : List Token → Prop where
  | nil : Stops []
  | and (r : List Token) : Stops (.word "and" :: r)
  | or (r : List Token) : Stops (.word "or" :: r)
  | close (r : List Token) : Stops (.punct ')' :: r)

/-- The tokens after which a condition with all its connectives is over. -/
inductive Ends : List Token → Prop where
  | nil : Ends []
  | close (r : List Token) : Ends (.punct ')' :: r)

theorem Ends.stops {r : List Token} (h : Ends r) : Stops r := by
  cases h with
  | nil => exact .nil
  | close r => exact .close r

/-- With enough fuel, the tokens are read as a condition without connectives around it. -/
def ReadsAs (fuel : Nat) (ts : List Token) (e : Expr) : Prop :=
  ∀ r, Stops r → ∀ n, fuel ≤ n → parse n .not (ts ++ r) = some (e, r)

theorem ReadsAs.mono {fuel fuel' : Nat} {ts : List Token} {e : Expr} (h : ReadsAs fuel ts e)
    (hle : fuel ≤ fuel') : ReadsAs fuel' ts e := fun r hr n hn => h r hr n (Nat.le_trans hle hn)

def conjunction (e : Expr) : List Expr → Expr
  | [] => e
  | f :: fs => .and e (conjunction f fs)

def disjunction (e : Expr) : List Expr → Expr
  | [] => e
  | f :: fs => .or e (disjunction f fs)

/-- **Conditions between connectives are read** one by one, at a level that reads the last of them, and
goes on behind a connective. The rest is read with one unit of fuel less. -/
theorem parse_joined {fuel k : Nat} {l : Level} {connective : Token} {join : Expr → List Expr → Expr}
    (hlast : ∀ {ts e r n}, ReadsAs fuel ts e → Ends r → fuel + k ≤ n →
      parse n l (ts ++ r) = some (join e [], r))
    (hnext : ∀ {ts us e f fs r n}, ReadsAs fuel ts e → fuel + k ≤ n → parse n l us = some (join f fs, r) →
      parse (n + 1) l (ts ++ connective :: us) = some (join e (f :: fs), r))
    (c : List Token × Expr) (cs : List (List Token × Expr)) (h : ∀ x ∈ c :: cs, ReadsAs fuel x.1 x.2)
    {r : List Token} (hr : Ends r) {n : Nat} (hn : fuel + k + cs.length ≤ n) :
    parse n l (c.1 ++ (cs.flatMap fun x => connective :: x.1) ++ r) = some (join c.2 (cs.map Prod.snd), r) := by
  -- on the conditions after the first
  induction cs generalizing c n with
  | nil =>
    rw [List.flatMap_nil, List.append_nil]
    exact hlast (h c List.mem_cons_self) hr hn
  | cons d cs ih =>
    rw [List.length_cons] at hn
    obtain ⟨m, rfl⟩ : ∃ m, n = m + 1 := ⟨n - 1, by omega⟩
    obtain ⟨hc, hrest⟩ := List.forall_mem_cons.mp h
    rw [List.flatMap_cons, List.append_assoc, List.cons_append, List.cons_append]
    exact hnext hc (by omega) (ih d hrest (by omega))

/-- **A conjunction is read** condition by condition. -/
theorem parse_conjunction {fuel : Nat} (c : List Token × Expr) (cs : List (List Token × Expr))
    (h : ∀ x ∈ c :: cs, ReadsAs fuel x.1 x.2) {r : List Token} (hr : Ends r) {n : Nat}
    (hn : fuel + 1 + cs.length ≤ n) :
    parse n .and (c.1 ++ (cs.flatMap fun x => .word "and" :: x.1) ++ r)
      = some (conjunction c.2 (cs.map Prod.snd), r) := by
  refine parse_joined ?_ ?_ c cs h hr hn
  · intro ts e r n hts hr hn
    obtain ⟨m, rfl⟩ : ∃ m, n = m + 1 := ⟨n - 1, by omega⟩
    show (parse m .not _).bind _ = _
    rw [hts r hr.stops m (by omega)]
    cases hr <;> rfl
  · intro ts us e f fs r n hts hn hrest
    show (parse n .not _).bind _ = _
    rw [hts _ (.and us) n (by omega)]
    show (parse n .and us).map _ = _
    rw [hrest]
    rfl

/-- **A disjunction is read** condition by condition. -/
theorem parse_disjunction {fuel : Nat} (c : List Token × Expr) (cs : List (List Token × Expr))
    (h : ∀ x ∈ c :: cs, ReadsAs fuel x.1 x.2) {r : List Token} (hr : Ends r) {n : Nat}
    (hn : fuel + 2 + cs.length ≤ n) :
    parse n .or (c.1 ++ (cs.flatMap fun x => .word "or" :: x.1) ++ r)
      = some (disjunction c.2 (cs.map Prod.snd), r) := by
  refine parse_joined ?_ ?_ c cs h hr hn
  · intro ts e r n hts hr hn
    obtain ⟨m, rfl⟩ : ∃ m, n = m + 2 := ⟨n - 2, by omega⟩
    show ((parse m .not _).bind _).bind _ = _
    rw [hts r hr.stops m (by omega)]
    cases hr <;> rfl
  · -- the first member is a conjunction that ends at `or`, and the rest is a disjunction of its own
    intro ts us e f fs r n hts hn hrest
    obtain ⟨m, rfl⟩ : ∃ m, n = m + 1 := ⟨n - 1, by omega⟩
    show ((parse m .not _).bind _).bind _ = _
    rw [hts _ (.or us) m (by omega)]
    show (parse (m + 1) .or us).map _ = _
    rw [hrest]
    rfl

/-- A condition in brackets. -/
theorem readsAs_brackets {fuel : Nat} {ts : List Token} {e : Expr}
    (h : ∀ r n, fuel ≤ n → parse n .or (ts ++ .punct ')' :: r) = some (e, .punct ')' :: r)) :
    ReadsAs (fuel + 5) (.punct '(' :: ts ++ [.punct ')']) e := by
  intro r hr n hn
  obtain ⟨m, rfl⟩ : ∃ m, n = m + 5 := ⟨n - 5, by omega⟩
  rw [List.cons_append, List.cons_append, List.append_assoc, List.singleton_append]
  -- up from the innermost level: a bracket is primary, and nothing after it is an operator
  generalize hts : ts ++ .punct ')' :: r = us
  have hor : parse m .or us = some (e, .punct ')' :: r) := hts ▸ h r m (by omega)
  have hprimary : parse (m + 1) .primary (.punct '(' :: us) = some (e, r) := by
    show (parse m .or us).bind _ = _
    rw [hor]
    rfl
  have hcast : parse (m + 2) .cast (.punct '(' :: us) = some (e, r) := by
    show (parse (m + 1) .primary (.punct '(' :: us)).map _ = _
    rw [hprimary]
    cases hr <;> rfl
  have hoperator : parse (m + 3) .operator (.punct '(' :: us) = some (e, r) := by
    show (parse (m + 2) .cast (.punct '(' :: us)).bind _ = _
    rw [hcast]
    cases hr <;> rfl
  show (parse (m + 3) .operator (.punct '(' :: us)).bind _ = _
  rw [hoperator]
  cases hr <;> rfl

theorem ReadsAs.not {fuel : Nat} {ts : List Token} {e : Expr} (h : ReadsAs fuel ts e) :
    ReadsAs (fuel + 1) (.word "not" :: ts) (.not e) := by
  intro r hr n hn
  obtain ⟨m, rfl⟩ : ∃ m, n = m + 1 := ⟨n - 1, by omega⟩
  show (parse m .not (ts ++ r)).map _ = _
  rw [h r hr m (by omega)]
  rfl

/-- **What no level can read.** Tokens that do not start with `not` and are not the start of a
primary expression are not the start of any expression. -/
theorem parse_eq_none {ts : List Token} (hprimary : ∀ n, parse n .primary ts = none)
    (hnot : ∀ rest, ts ≠ .word "not" :: rest) (n : Nat) (l : Level) : parse n l ts = none := by
  induction n generalizing l with
  | zero => rfl
  | succ n ih =>
    -- every level reads what comes first with the next one
    cases l with
    | args => simp only [parse, ih, Option.bind_none]
    | or => simp only [parse, ih, Option.bind_none]
    | and => simp only [parse, ih, Option.bind_none]
    | not =>
      unfold parse
      split
      · next w rest =>
        have hw : w ≠ "not" := fun hw => hnot rest (by rw [hw])
        rw [if_neg hw, ih]
      · exact ih _
    | comparison => simp only [parse, ih, Option.bind_none]
    | operator => simp only [parse, ih, Option.bind_none]
    | cast => simp only [parse, ih, Option.map_none]
    | primary => exact hprimary (n + 1)

/-- No condition starts with a reserved word, `not` apart. -/
theorem parse_reserved {w : String} (hw : isReserved w = true) (hnot : w ≠ "not") (n : Nat)
    (l : Level) (ts : List Token) : parse n l (.word w :: ts) = none := by
  refine parse_eq_none (fun n => ?_) (fun rest heq => ?_) n l
  · cases n with
    | zero => rfl
    | succ n => simp only [parse, hw, if_true]
  · exact hnot (Token.word.inj (List.cons.inj heq).1)

/-- No condition starts with a closing bracket. -/
theorem parse_close (n : Nat) (l : Level) (ts : List Token) : parse n l (.punct ')' :: ts) = none := by
  refine parse_eq_none (fun n => ?_) (fun rest heq => ?_) n l
  · cases n with
    | zero => rfl
    | succ n => rfl
  · exact absurd (List.cons.inj heq).1 (by simp)

/-- What cannot be read cannot be read in brackets. -/
theorem parse_open {ts : List Token} (h : ∀ n, parse n .or ts = none) (n : Nat) (l : Level) :
    parse n l (.punct '(' :: ts) = none := by
  refine parse_eq_none (fun n => ?_) (fun rest heq => ?_) n l
  · cases n with
    | zero => rfl
    | succ n => simp only [parse, h, Option.bind_none]
  · exact absurd (List.cons.inj heq).1 (by simp)

/-- A condition before something that cannot be read. -/
theorem parse_and_none {fuel : Nat} {ts rest : List Token} {e : Expr} (h : ReadsAs fuel ts e)
    (hrest : ∀ n, parse n .and rest = none) {n : Nat} (hn : fuel + 2 ≤ n) :
    parse n .or (ts ++ .word "and" :: rest) = none := by
  obtain ⟨m, rfl⟩ : ∃ m, n = m + 2 := ⟨n - 2, by omega⟩
  have hfirst := h _ (.and rest) m (by omega)
  show ((parse m .not _).bind _).bind _ = _
  rw [hfirst]
  show ((parse m .and rest).map _).bind _ = _
  rw [hrest]
  rfl

/-! ### Patterns -/

/-- `like`, after an escape character or not. -/
def likeFrom : Bool → List Char → List Char → Bool
  | false, [], s => s.isEmpty
  | true, [], _ => false
  | true, c :: p, s => s.head? == some c && likeFrom false p s.tail
  | false, c :: p, s =>
    if c = '%' then s.tails.any fun t => likeFrom false p t
    else if c = '_' then !s.isEmpty && likeFrom false p s.tail
    else if c = '\\' then likeFrom true p s
    else s.head? == some c && likeFrom false p s.tail

/-- `like`: `%` stands for any text and `_` for any character. -/
def like (pattern s : List Char) : Bool := likeFrom false pattern s

/-- The characters with a meaning in patterns. -/
def isPatternChar (c : Char) : Bool := c == '%' || c == '_' || c == '\\'

theorem likeFrom_percent {v : List Char} (hv : ∀ c ∈ v, isPatternChar c = false) (s : List Char) :
    likeFrom false (v ++ ['%']) s = true ↔ v <+: s := by
  induction v generalizing s with
  | nil =>
    have hnil : likeFrom false ['%'] s = true := by
      rw [likeFrom, if_pos rfl, List.any_eq_true]
      exact ⟨[], (List.mem_tails _ _).mpr List.nil_suffix, rfl⟩
    simp [hnil]
  | cons c v ih =>
    rw [List.forall_mem_cons] at hv
    obtain ⟨hc, hv⟩ := hv
    simp only [isPatternChar, Bool.or_eq_false_iff, beq_eq_false_iff_ne] at hc
    -- a character that is no pattern stands for itself
    rw [List.cons_append, likeFrom, if_neg hc.1.1, if_neg hc.1.2, if_neg hc.2, Bool.and_eq_true, ih hv]
    cases s with
    | nil => simp
    | cons d s => rw [List.cons_prefix_cons, List.head?_cons, beq_iff_eq, Option.some.injEq,
        eq_comm, List.tail_cons]

/-- **A text between two percent signs** matches the texts that contain it. -/
theorem like_contains {v : List Char} (hv : ∀ c ∈ v, isPatternChar c = false) (s : List Char) :
    like ('%' :: v ++ ['%']) s = true ↔ v <:+: s := by
  rw [like, List.cons_append, likeFrom, if_pos rfl, List.any_eq_true, List.infix_iff_prefix_suffix]
  constructor
  · rintro ⟨t, ht, hv'⟩
    exact ⟨t, (likeFrom_percent hv t).mp hv', (List.mem_tails _ _).mp ht⟩
  · rintro ⟨t, hv', ht⟩
    exact ⟨t, (List.mem_tails _ _).mpr ht, (likeFrom_percent hv t).mpr hv'⟩

theorem likeFrom_of_prefix {v : List Char} (hv : '\\' ∉ v) {s : List Char} (h : v <+: s) :
    likeFrom false (v ++ ['%']) s = true := by
  induction v generalizing s with
  | nil =>
    exact (likeFrom_percent (fun c hc => absurd hc List.not_mem_nil) s).mpr List.nil_prefix
  | cons c v ih =>
    rw [List.mem_cons, not_or] at hv
    obtain ⟨s', rfl⟩ := h
    have hrest := ih hv.2 (List.prefix_append v s')
    -- a wildcard may stand for itself
    rw [List.cons_append, List.cons_append, likeFrom, if_neg (Ne.symm hv.1)]
    split
    · rw [List.any_eq_true]
      exact ⟨v ++ s', (List.mem_tails _ _).mpr (List.suffix_cons c _), hrest⟩
    · split
      · exact hrest
      · rw [List.head?_cons, List.tail_cons, hrest]
        simp

/-- A text without escapes is found in the texts that contain it. -/
theorem like_of_infix {v : List Char} (hv : '\\' ∉ v) {s : List Char} (h : v <:+: s) :
    like ('%' :: v ++ ['%']) s = true := by
  obtain ⟨t, hprefix, hsuffix⟩ := List.infix_iff_prefix_suffix.mp h
  rw [like, List.cons_append, likeFrom, if_pos rfl, List.any_eq_true]
  exact ⟨t, (List.mem_tails _ _).mpr hsuffix, likeFrom_of_prefix hv hprefix⟩

/-! ### Values -/

inductive Value where
  | null
  | bool (b : Bool)
  | int (z : Int)
  | text (s : List Char)
  | json (s : List Char)
  /-- Keys and values; a value may be missing. -/
  | hstore (entries : List (String × Option String))
deriving DecidableEq

/-- A value that may be `NULL`. -/
def Value.ofOption {α : Type*} (f : α → Value) (o : Option α) : Value := o.elim .null f

/-- The truth value of a condition. -/
def Value.truth : Value → Option (Option Bool)
  | .null => some none
  | .bool b => some (some b)
  | _ => none

def evalCall (lower : List Char → List Char) (function : String) : Value → Option Value
  | .null => if function = "lower" then some .null else none
  | .text s => if function = "lower" then some (.text (lower s)) else none
  | _ => none

def evalCast (type : String) : Value → Option Value
  | .null => if type = "text" then some .null else none
  | .text s => if type = "text" then some (.text s) else none
  | .json s => if type = "text" then some (.text s) else none
  | _ => none

/-- An operator, of which `NULL` makes `NULL`. -/
def evalBinary (op : String) : Value → Value → Option Value
  | .int y, .int z => if op = "=" then some (.bool (decide (y = z))) else none
  | .text s, .text p => if op = "like" then some (.bool (like p s)) else none
  | .hstore entries, .text key =>
    if op = "->" then
      some (.ofOption (fun s => .text s.toList) (entries.lookup (String.ofList key)).join)
    else none
  | .null, _ => some .null
  | _, .null => some .null
  | _, _ => none

/-- The value of an expression in a row. -/
def eval (lower : List Char → List Char) (row : String → Option Value) : Expr → Option Value
  | .column name => row name
  | .int digits => some (.int (Nat.ofDigitChars 10 digits.toList 0))
  | .str s => some (.text s.toList)
  | .call function arg => (eval lower row arg).bind (evalCall lower function)
  | .comma _ _ => none
  | .cast e type => (eval lower row e).bind (evalCast type)
  | .binary op l r =>
    (eval lower row l).bind fun a => (eval lower row r).bind fun b => evalBinary op a b
  | .not e =>
    ((eval lower row e).bind Value.truth).map fun a => .ofOption .bool (Kleene.not a)
  | .and l r =>
    ((eval lower row l).bind Value.truth).bind fun a =>
      ((eval lower row r).bind Value.truth).map fun b => .ofOption .bool (Kleene.and a b)
  | .or l r =>
    ((eval lower row l).bind Value.truth).bind fun a =>
      ((eval lower row r).bind Value.truth).map fun b => .ofOption .bool (Kleene.or a b)

/-- The rows where a condition is true; `none` if the statement is an error. -/
def select {ρ : Type*} (lower : List Char → List Char) (columns : ρ → String → Option Value)
    (condition : List Char) (rows : List ρ) : Option (List ρ) :=
  (parseCondition (lex condition)).bind fun e =>
    if rows.all fun r => ((eval lower (columns r) e).bind Value.truth).isSome then
      some (rows.filter fun r => eval lower (columns r) e == some (.bool true))
    else none

/-! ### Truth values of conditions -/

/-- The truth value of an expression in a row. -/
def truth (lower : List Char → List Char) (row : String → Option Value) (e : Expr) :
    Option (Option Bool) := (eval lower row e).bind Value.truth

variable {lower : List Char → List Char} {row : String → Option Value}

@[simp] theorem truth_ofOption (a : Option Bool) : (Value.ofOption Value.bool a).truth = some a := by
  rcases a with _ | b
  · rfl
  · rfl

theorem truth_not {e : Expr} {a : Option Bool} (h : truth lower row e = some a) :
    truth lower row (.not e) = some (Kleene.not a) := by
  unfold truth at h
  simp [truth, eval, h]

theorem truth_and {l r : Expr} {a b : Option Bool} (hl : truth lower row l = some a)
    (hr : truth lower row r = some b) : truth lower row (.and l r) = some (Kleene.and a b) := by
  unfold truth at hl hr
  simp [truth, eval, hl, hr]

theorem truth_or {l r : Expr} {a b : Option Bool} (hl : truth lower row l = some a)
    (hr : truth lower row r = some b) : truth lower row (.or l r) = some (Kleene.or a b) := by
  unfold truth at hl hr
  simp [truth, eval, hl, hr]

theorem truth_conjunction {e : Expr} {es : List Expr} {a : Option Bool} {as : List (Option Bool)}
    (he : truth lower row e = some a)
    (hes : List.Forall₂ (fun e a => truth lower row e = some a) es as) :
    truth lower row (conjunction e es) = some (Kleene.all a as) := by
  induction hes generalizing e a with
  | nil => exact he
  | cons hf _ ih => exact truth_and he (ih hf)

theorem truth_disjunction {e : Expr} {es : List Expr} {a : Option Bool} {as : List (Option Bool)}
    (he : truth lower row e = some a)
    (hes : List.Forall₂ (fun e a => truth lower row e = some a) es as) :
    truth lower row (disjunction e es) = some (Kleene.any a as) := by
  induction hes generalizing e a with
  | nil => exact he
  | cons hf _ ih => exact truth_or he (ih hf)

theorem eval_eq_true_iff {e : Expr} {a : Option Bool} (h : truth lower row e = some a) :
    eval lower row e = some (.bool true) ↔ a = some true := by
  unfold truth at h
  cases hv : eval lower row e with
  | none =>
    rw [hv] at h
    cases h
  | some v =>
    rw [hv, Option.bind_some] at h
    -- only `NULL` and a boolean have a truth value
    cases v with
    | null => cases h; simp
    | bool b => cases h; simp
    | int z => cases h
    | text s => cases h
    | json s => cases h
    | hstore entries => cases h

/-- **A selection** by a condition that has a truth value in every row. -/
theorem select_eq {ρ : Type*} {columns : ρ → String → Option Value} {condition : List Char}
    {e : Expr} (he : parseCondition (lex condition) = some e) {t : ρ → Option Bool}
    (ht : ∀ r, truth lower (columns r) e = some (t r)) (rows : List ρ) :
    select lower columns condition rows = some (rows.filter fun r => t r == some true) := by
  have hall : (rows.all fun r => ((eval lower (columns r) e).bind Value.truth).isSome) = true :=
    List.all_eq_true.mpr fun r _ => by
      have hr := ht r
      unfold truth at hr
      rw [hr, Option.isSome_some]
  have hfilter : (fun r => eval lower (columns r) e == some (.bool true))
      = fun r => t r == some true := by
    funext r
    rw [Bool.eq_iff_iff, beq_iff_eq, beq_iff_eq]
    exact eval_eq_true_iff (ht r)
  rw [select, he, Option.bind_some, if_pos hall, hfilter]

end Sql
end Curarium
