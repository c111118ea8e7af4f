import Curarium.Library.Weights
import Curarium.Sql.Lexer

/-!
# How long a text has to be for its tokens

A literal is no longer than the text it is read from: its characters, one more for each quote in it, and the
quotes around it. With the commas and closing brackets between them, this bounds what literals a text can be
read as (`weight_lex_le`). Literals with a prefix and the other tokens are not counted.
-/

namespace Curarium
namespace Sql

/-- What a standard literal takes: its characters, and a quote more for each that it has. -/
def held (kind : StrKind) (acc : List Char) (quotes : Nat) : Nat :=
  if kind = .standard then acc.length + acc.count '\'' + quotes else 0

/-- What a token takes. -/
def Token.length : Token → Nat
  | .str kind s => held kind s.toList 2
  | .punct c => if c = ',' ∨ c = ')' then 1 else 0
  | _ => 0

/-- What has been read of a literal. -/
def Mode.length : Mode → Nat
  | .str kind acc => held kind acc 1
  | .quote kind acc => held kind acc 2
  | .gap kind acc _ _ => held kind acc 2
  | _ => 0

theorem held_le (kind : StrKind) (acc : List Char) {m n : Nat} (h : m ≤ n) : held kind acc m ≤ held kind acc n := by
  unfold held
  split
  · omega
  · exact le_rfl

theorem length_strToken (kind : StrKind) (acc : List Char) : (strToken kind acc).length = held kind acc 2 := by
  rw [strToken, Token.length, String.toList_ofList]

@[simp] theorem length_op (s : String) : (Token.op s).length = 0 := rfl

theorem weight_opTokens (acc : List Char) : weight Token.length (opTokens acc) = 0 := by
  have hop : ∀ l : List Char, weight Token.length (l.map fun c => Token.op (String.singleton c)) = 0 := by
    intro l
    induction l with
    | nil => rfl
    | cons c l ih => rw [List.map_cons, weight_cons, ih, length_op]
  unfold opTokens
  split
  · rfl
  · split
    · rfl
    · show Token.length _ + weight Token.length _ = 0
      rw [hop, length_op]

/-- What is held after a step, and emitted by it, is what was held and one character. -/
def Bounded (held : Nat) (next : Mode × List Token) : Prop := next.1.length + weight Token.length next.2 ≤ held + 1

theorem Bounded.ite {p : Prop} [Decidable p] {n : Nat} {next next' : Mode × List Token} (h : Bounded n next)
    (h' : Bounded n next') : Bounded n (if p then next else next') := by
  split
  · exact h
  · exact h'

theorem bounded_start (c : Char) : Bounded 0 (start c) := by
  have hpunct : (Token.punct c).length ≤ 1 := by
    rw [Token.length]
    split <;> omega
  unfold start
  repeat' apply Bounded.ite
  all_goals first
    | exact Nat.zero_le _
    | exact Nat.le_refl 1
    | exact Nat.le_trans (Nat.le_of_eq (Nat.zero_add _)) hpunct

theorem bounded_leave (toks : List Token) {n : Nat} (h : weight Token.length toks ≤ n) (c : Char) :
    Bounded n (leave toks c) := by
  have hstart : (start c).1.length + weight Token.length (start c).2 ≤ 0 + 1 := bounded_start c
  show (start c).1.length + weight Token.length (toks ++ (start c).2) ≤ n + 1
  rw [weight_append]
  omega

theorem bounded_wordStep (acc : List Char) (c : Char) : Bounded 0 (wordStep acc c) := by
  unfold wordStep
  repeat' apply Bounded.ite
  all_goals first
    | exact Nat.zero_le _
    | exact Nat.le_refl 1
    | exact bounded_leave [wordToken acc] (le_refl 0) c

theorem bounded_opStep (acc : List Char) (c : Char) : Bounded 0 (opStep acc c) := by
  have hcomment : 0 + weight Token.length (opTokens acc.dropLast) ≤ 1 := by
    rw [weight_opTokens]
    omega
  unfold opStep
  split_ifs
  · exact hcomment
  · exact hcomment
  · exact Nat.zero_le _
  · exact bounded_leave _ (Nat.le_of_eq (weight_opTokens acc)) c

theorem bounded_numberStep (kind : NumKind) (acc : List Char) (c : Char) : Bounded 0 (numberStep kind acc c) := by
  unfold numberStep
  repeat' apply Bounded.ite
  all_goals first
    | exact Nat.zero_le _
    | exact bounded_leave [numberToken kind acc] (le_refl 0) c

theorem bounded_gapStep (kind : StrKind) (acc : List Char) (newline : Bool) (c : Char) :
    Bounded (held kind acc 2) (gapStep kind acc newline c) := by
  have hclosed : weight Token.length [strToken kind acc] ≤ held kind acc 2 := by
    rw [weight_cons, weight_nil, length_strToken, Nat.add_zero]
  unfold gapStep
  split_ifs
  · exact Nat.le_succ _
  · exact Nat.le_succ _
  · exact Nat.le_succ _
  · exact Nat.le_succ_of_le (held_le kind acc (Nat.le_succ 1))
  · exact bounded_leave _ hclosed c

theorem bounded_blockStep (depth : Nat) (last : Option Char) (c : Char) : Bounded 0 (blockStep depth last c) := by
  unfold blockStep
  split_ifs <;> exact Nat.zero_le _

/-- A token before a step. -/
theorem Bounded.cons {n m : Nat} {next : Mode × List Token} (h : Bounded n next) (tok : Token)
    (htok : tok.length + n ≤ m) : Bounded m (next.1, tok :: next.2) := by
  unfold Bounded at h
  show next.1.length + (tok.length + weight Token.length next.2) ≤ m + 1
  omega

/-- **One character** adds one at most. -/
theorem bounded_step (m : Mode) (c : Char) : Bounded m.length (step m c) := by
  cases m with
  | idle => exact bounded_start c
  | word acc => exact bounded_wordStep acc c
  | unicodeMark acc =>
    show Bounded 0 (step (.unicodeMark acc) c)
    rw [step]
    split_ifs
    · exact Nat.zero_le _
    · exact Nat.zero_le _
    · exact (bounded_opStep ['&'] c).cons _ (le_refl 0)
  | number kind acc => exact bounded_numberStep kind acc c
  | exponent kind acc e =>
    show Bounded 0 (step (.exponent kind acc e) c)
    rw [step]
    split_ifs
    · exact Nat.zero_le _
    · exact Nat.zero_le _
    · exact (bounded_wordStep [e] c).cons _ (le_refl 0)
  | exponentSign kind acc e sign =>
    show Bounded 0 (step (.exponentSign kind acc e sign) c)
    rw [step]
    split_ifs
    · exact Nat.zero_le _
    · exact ((bounded_opStep [sign] c).cons (wordToken [e]) (le_refl 0)).cons _ (le_refl 0)
  | op acc => exact bounded_opStep acc c
  | colon =>
    show Bounded 0 (step .colon c)
    rw [step]
    split_ifs
    · exact Nat.zero_le _
    · exact Nat.zero_le _
    · exact bounded_leave [.punct ':'] (le_refl 0) c
  | dot =>
    show Bounded 0 (step .dot c)
    rw [step]
    split_ifs
    · exact Nat.zero_le _
    · exact Nat.zero_le _
    · exact bounded_leave [.punct '.'] (le_refl 0) c
  | str kind acc =>
    show Bounded (held kind acc 1) (step (.str kind acc) c)
    rw [step]
    split_ifs with hquote
    · simp only [Bounded, Mode.length, weight_nil]
      unfold held
      split <;> omega
    · exact Nat.zero_le _
    · simp only [Bounded, Mode.length, weight_nil]
      unfold held
      split
      · rw [List.length_append, List.count_append, List.count_singleton, if_neg (by simpa using hquote)]
        simp only [List.length_singleton]
        omega
      · omega
  | escaped acc => exact Nat.zero_le _
  | quote kind acc =>
    show Bounded (held kind acc 2) (step (.quote kind acc) c)
    rw [step]
    split_ifs
    · simp only [Bounded, Mode.length, weight_nil]
      unfold held
      split
      · simp only [List.length_append, List.count_append, List.count_singleton, List.length_singleton]
        simp
        omega
      · omega
    · exact bounded_gapStep kind acc false c
  | gap kind acc newline g =>
    cases g with
    | space => exact bounded_gapStep kind acc newline c
    | dash =>
      show Bounded (held kind acc 2) (step (.gap kind acc newline .dash) c)
      rw [step]
      split_ifs
      · exact Nat.le_succ _
      · exact (bounded_opStep ['-'] c).cons _ (Nat.le_of_eq (length_strToken kind acc))
    | comment =>
      show Bounded (held kind acc 2) (step (.gap kind acc newline .comment) c)
      rw [step]
      split_ifs
      · exact Nat.le_succ _
      · exact Nat.le_succ _
  | ident acc =>
    show Bounded 0 (step (.ident acc) c)
    rw [step]
    split_ifs <;> exact Nat.zero_le _
  | identQuote acc =>
    show Bounded 0 (step (.identQuote acc) c)
    rw [step]
    split_ifs
    · exact Nat.zero_le _
    · exact bounded_leave [.quoted (String.ofList acc)] (le_refl 0) c
  | tag acc =>
    show Bounded 0 (step (.tag acc) c)
    rw [step]
    split_ifs
    · exact Nat.zero_le _
    · exact Nat.zero_le _
    · exact Nat.zero_le _
    · exact bounded_leave [.junk '$'] (le_refl 0) c
    · exact (bounded_wordStep acc c).cons _ (le_refl 0)
  | dollar tag acc =>
    show Bounded 0 (step (.dollar tag acc) c)
    rw [step]
    split_ifs
    · exact Nat.zero_le _
    · exact Nat.zero_le _
  | param acc =>
    show Bounded 0 (step (.param acc) c)
    rw [step]
    split_ifs
    · exact Nat.zero_le _
    · exact bounded_leave [.param (String.ofList acc)] (le_refl 0) c
  | lineComment =>
    show Bounded 0 (step .lineComment c)
    rw [step]
    split_ifs <;> exact Nat.zero_le _
  | blockComment depth last => exact bounded_blockStep depth last c

/-- What is still held at the end. -/
theorem weight_flush_le (m : Mode) : weight Token.length (flush m) ≤ m.length := by
  cases m with
  | idle | lineComment | str | escaped | ident | dollar | blockComment => exact Nat.zero_le _
  | word | unicodeMark | number | exponent | exponentSign | colon | dot | identQuote | param => exact le_refl 0
  | op acc => exact Nat.le_of_eq (weight_opTokens acc)
  | quote kind acc => exact Nat.le_of_eq (length_strToken kind acc)
  | gap kind acc newline g => cases g <;> exact Nat.le_of_eq (length_strToken kind acc)
  | tag acc =>
    rw [flush]
    split_ifs <;> exact le_refl 0

/-- **A text is as long as the literals it is read as.** -/
theorem weight_lex_le (text : List Char) : weight Token.length (lex text) ≤ text.length := by
  have hfeed : ∀ (text : List Char) (m : Mode), weight Token.length (Transducer.output step flush m text) ≤
      m.length + text.length := by
    intro text
    induction text with
    | nil => exact fun m => weight_flush_le m
    | cons c cs ih =>
      intro m
      have hstep : (step m c).1.length + weight Token.length (step m c).2 ≤ m.length + 1 := bounded_step m c
      have hrest := ih (step m c).1
      have hcons : Transducer.output step flush m (c :: cs) =
          (step m c).2 ++ Transducer.output step flush (step m c).1 cs := List.append_assoc _ _ _
      rw [hcons, weight_append, List.length_cons]
      omega
  have hidle : weight Token.length (lex text) ≤ 0 + text.length := hfeed text .idle
  rwa [Nat.zero_add] at hidle

end Sql
end Curarium
