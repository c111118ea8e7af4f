import Curarium.Sql.Lexer

/-!
# Texts inside a literal

A text that stands between two quotes of a statement stays inside one string literal exactly if
its own quotes come in pairs (`feed_str_iff`): two next to each other are one quote of the
contents, and two with a line break and only white space or comments between them close the
literal and go on with it. `Enclosed` says so, and which contents result.

A statement that is put together from fixed texts and texts from outside is a list of parts
(`Part`). `InPlace` says that the lexer meets each text from outside where it should and that the
text does not make it leave: a text for a literal inside one, a number between tokens.
-/

namespace Curarium
namespace Sql

open Transducer

/-! ### The grammar -/

/-- White space and comments up to the end of a line; the flag says if there is a line break. -/
inductive Break : Bool → List Char → Prop where
  | nil : Break false []
  | space {b : Bool} {c : Char} {g : List Char} (hc : isSpace c = true) (h : Break b g) :
      Break (isNewline c || b) (c :: g)
  | comment {b : Bool} {t g : List Char} {c : Char} (ht : ∀ d ∈ t, isNewline d = false)
      (hc : isNewline c = true) (h : Break b g) : Break true ('-' :: '-' :: (t ++ c :: g))

/-- A text that stays inside its literal, and the contents that it stands for. -/
inductive Enclosed : List Char → List Char → Prop where
  | nil : Enclosed [] []
  | char {c : Char} {t s : List Char} (hc : c ≠ '\'') (h : Enclosed t s) :
      Enclosed (c :: t) (c :: s)
  | doubled {t s : List Char} (h : Enclosed t s) : Enclosed ('\'' :: '\'' :: t) ('\'' :: s)
  | continued {g t s : List Char} (hg : Break true g) (h : Enclosed t s) :
      Enclosed ('\'' :: (g ++ '\'' :: t)) s

/-- A text without quotes stands for itself. -/
theorem Enclosed.of_notMem {t : List Char} (h : '\'' ∉ t) : Enclosed t t := by
  induction t with
  | nil => exact .nil
  | cons c t ih =>
    exact .char (fun hc => h (by simp [hc])) (ih fun ht => h (by simp [ht]))

/-! ### The lexer reads it -/

theorem isSpace_of_isNewline {c : Char} (h : isNewline c = true) : isSpace c = true := by
  simp [isSpace, h]

theorem gapStep_space (acc : List Char) (nl : Bool) {c : Char} (hc : isSpace c = true) :
    gapStep .standard acc nl c = (.gap .standard acc (isNewline c || nl) .space, []) := by
  by_cases hn : isNewline c = true
  · simp [gapStep, hn]
  · simp [gapStep, hn, hc]

theorem feed_comment (acc : List Char) (nl : Bool) {t : List Char} {c : Char}
    (ht : ∀ d ∈ t, isNewline d = false) (hc : isNewline c = true) :
    feed step (.gap .standard acc nl .comment) (t ++ [c])
      = (.gap .standard acc true .space, []) := by
  induction t with
  | nil => simp [feed_cons, step, hc]
  | cons d t ih =>
    have hd : isNewline d = false := ht d (by simp)
    rw [List.cons_append, feed_cons]
    simp only [step, hd, Bool.false_eq_true, if_false, List.nil_append]
    exact ih fun e he => ht e (by simp [he])

theorem feed_break {b : Bool} {g : List Char} (h : Break b g) (acc : List Char) (nl : Bool) :
    feed step (.gap .standard acc nl .space) g = (.gap .standard acc (b || nl) .space, []) := by
  induction h generalizing nl with
  | nil => rfl
  | @space b c g hc _ ih =>
    rw [feed_cons_silent, step, gapStep_space acc nl hc]
    refine ⟨rfl, ?_⟩
    rw [ih, Bool.or_left_comm, Bool.or_assoc]
  | @comment b t g c ht hc _ ih =>
    have hdash : feed step (.gap .standard acc nl .space) ['-', '-']
        = (.gap .standard acc nl .comment, []) := rfl
    have hall := feed_append_of_eq _ (feed_append_of_eq _ hdash (feed_comment acc nl ht hc)) (ih true)
    rw [Bool.or_true] at hall
    simpa using hall

/-- After a quote that is not doubled the lexer is in the gap at once. -/
theorem step_quote (acc : List Char) {c : Char} (hc : c ≠ '\'') :
    step (.quote .standard acc) c = step (.gap .standard acc false .space) c := by
  simp [step, hc]

theorem feed_quote_break {g : List Char} (h : Break true g) (acc : List Char) :
    feed step (.quote .standard acc) g = (.gap .standard acc true .space, []) := by
  have hgap := feed_break h acc false
  generalize hb : true = b at h
  cases h with
  | nil => cases hb
  | @space b c g hc _ =>
    have hq : c ≠ '\'' := by rintro rfl; exact absurd hc (by decide)
    rw [feed_cons, step_quote acc hq, ← hb]
    exact hgap
  | comment ht hc h => exact hgap

theorem feed_enclosed {t s : List Char} (h : Enclosed t s) (acc : List Char) :
    feed step (.str .standard acc) t = (.str .standard (acc ++ s), []) := by
  induction h generalizing acc with
  | nil => rw [List.append_nil]; rfl
  | @char c t s hc _ ih =>
    have hstep : step (.str .standard acc) c = (.str .standard (acc ++ [c]), []) := by
      simp [step, hc]
    rw [feed_cons_silent, hstep, ih, List.append_assoc]
    exact ⟨rfl, rfl⟩
  | @doubled t s _ ih =>
    have hpair : feed step (.str .standard acc) ['\'', '\'']
        = (.str .standard (acc ++ ['\'']), []) := rfl
    have hall := feed_append_of_eq _ hpair (ih (acc ++ ['\'']))
    simpa using hall
  | @continued g t s hg _ ih =>
    -- out of the literal, over the break and in again with what was held
    have hclose : feed step (.str .standard acc) ['\''] = (.quote .standard acc, []) := rfl
    have hopen : feed step (.gap .standard acc true .space) ['\''] = (.str .standard acc, []) := rfl
    have hgap := feed_append_of_eq _ (feed_append_of_eq _ hclose (feed_quote_break hg acc)) hopen
    have hall := feed_append_of_eq _ hgap (ih acc)
    simpa using hall

/-! ### And only it -/

/-- A comment inside a gap has to end. -/
theorem comment_of_feed {acc b : List Char} {nl : Bool} {t : List Char}
    (h : feed step (.gap .standard acc nl .comment) t = (.str .standard b, [])) :
    ∃ u c t', t = u ++ c :: t' ∧ (∀ d ∈ u, isNewline d = false) ∧ isNewline c = true ∧
      feed step (.gap .standard acc true .space) t' = (.str .standard b, []) := by
  induction t with
  | nil => cases h
  | cons c t ih =>
    obtain ⟨-, h⟩ := (feed_cons_silent step).mp h
    by_cases hc : isNewline c = true
    · -- the end of the line ends the comment
      refine ⟨[], c, t, rfl, by simp, hc, ?_⟩
      simpa [step, hc] using h
    · obtain ⟨u, d, t', rfl, hu, hd, ht'⟩ := ih (by simpa [step, hc] using h)
      refine ⟨c :: u, d, t', rfl, ?_, hd, ht'⟩
      intro e he
      obtain rfl | he := List.mem_cons.mp he
      · simpa using hc
      · exact hu e he

/-- A literal that was closed and is open again has a line break in between. -/
theorem break_of_feed {acc b : List Char} (n : Nat) {nl : Bool} {t : List Char}
    (hn : t.length ≤ n)
    (h : feed step (.gap .standard acc nl .space) t = (.str .standard b, [])) :
    ∃ br g t', t = g ++ '\'' :: t' ∧ Break br g ∧ (br || nl) = true ∧
      feed step (.str .standard acc) t' = (.str .standard b, []) := by
  -- on a bound for the length, since a comment is skipped as a whole
  induction n generalizing nl t with
  | zero =>
    rw [List.length_eq_zero_iff.mp (Nat.le_zero.mp hn)] at h
    cases h
  | succ n ih =>
    cases t with
    | nil => cases h
    | cons c t =>
      have hn' : t.length ≤ n := Nat.le_of_succ_le_succ hn
      obtain ⟨hsilent, h⟩ := (feed_cons_silent step).mp h
      rw [step] at hsilent h
      by_cases hs : isSpace c = true
      · rw [gapStep_space acc nl hs] at h
        obtain ⟨br, g, t', rfl, hg, hbr, ht'⟩ := ih hn' h
        refine ⟨isNewline c || br, c :: g, t', rfl, .space hs hg, ?_, ht'⟩
        rw [← hbr, Bool.or_left_comm, Bool.or_assoc]
      · have hnl : isNewline c = false := by
          simpa using fun hc => hs (isSpace_of_isNewline hc)
        by_cases hd : c = '-'
        · -- a dash is the first of a comment, or the literal is over
          subst hd
          have hdash : gapStep .standard acc nl '-' = (.gap .standard acc nl .dash, []) := rfl
          rw [hdash] at h
          cases t with
          | nil => cases h
          | cons d t =>
            obtain ⟨hsilent', h⟩ := (feed_cons_silent step).mp h
            by_cases hd : d = '-'
            · subst hd
              obtain ⟨u, e, t', rfl, hu, he, ht'⟩ := comment_of_feed h
              have hlen : t'.length ≤ n := by
                simp only [List.length_cons, List.length_append] at hn'
                omega
              obtain ⟨br, g, t'', rfl, hg, -, ht''⟩ := ih hlen ht'
              exact ⟨true, _, t'', by simp, .comment hu he hg, rfl, ht''⟩
            · simp [step, hd] at hsilent'
        · by_cases hq : c = '\'' ∧ nl = true
          · -- a quote after a line break goes on with the literal
            obtain ⟨rfl, rfl⟩ := hq
            exact ⟨false, [], t, rfl, .nil, rfl, h⟩
          · rw [gapStep, if_neg (by simp [hnl]), if_neg hs, if_neg hd, if_neg hq] at hsilent
            simp [leave] at hsilent

theorem enclosed_of_feed (n : Nat) {t acc b : List Char} (hn : t.length ≤ n)
    (h : feed step (.str .standard acc) t = (.str .standard b, [])) :
    ∃ s, b = acc ++ s ∧ Enclosed t s := by
  -- on the length: a break between two parts of the literal may be long
  induction n generalizing t acc with
  | zero =>
    rw [List.length_eq_zero_iff.mp (Nat.le_zero.mp hn)] at h ⊢
    cases h
    exact ⟨[], (List.append_nil _).symm, .nil⟩
  | succ n ih =>
    cases t with
    | nil =>
      cases h
      exact ⟨[], (List.append_nil _).symm, .nil⟩
    | cons c t =>
      have hn' : t.length ≤ n := Nat.le_of_succ_le_succ hn
      obtain ⟨-, h⟩ := (feed_cons_silent step).mp h
      by_cases hc : c = '\''
      · subst hc
        cases t with
        | nil => cases h
        | cons d t =>
          by_cases hd : d = '\''
          · -- a quote of the contents
            subst hd
            obtain ⟨-, h⟩ := (feed_cons_silent step).mp h
            obtain ⟨s, rfl, hs⟩ := ih (Nat.le_of_succ_le hn') h
            exact ⟨'\'' :: s, by simp, .doubled hs⟩
          · -- the end of the literal, which has to be opened again
            have hgap : feed step (.gap .standard acc false .space) (d :: t)
                = (.str .standard b, []) := by
              rw [feed_cons, ← step_quote acc hd]
              exact h
            obtain ⟨br, g, t', hdt, hg, hbr, ht'⟩ := break_of_feed _ (Nat.le_refl _) hgap
            rw [Bool.or_false] at hbr
            subst hbr
            have hlen : t'.length ≤ n := by
              have := congrArg List.length hdt
              simp only [List.length_cons, List.length_append] at this hn'
              omega
            obtain ⟨s, rfl, hs⟩ := ih hlen ht'
            exact ⟨s, rfl, hdt ▸ .continued hg hs⟩
      · have hstep : step (.str .standard acc) c = (.str .standard (acc ++ [c]), []) := by
          simp [step, hc]
        rw [hstep] at h
        obtain ⟨s, rfl, hs⟩ := ih hn' h
        exact ⟨c :: s, by simp, .char hc hs⟩

/-- **Staying inside a literal.** -/
theorem feed_str_iff {t acc b : List Char} :
    feed step (.str .standard acc) t = (.str .standard b, []) ↔
      ∃ s, b = acc ++ s ∧ Enclosed t s := by
  constructor
  · exact enclosed_of_feed t.length (Nat.le_refl _)
  · rintro ⟨s, rfl, hs⟩
    exact feed_enclosed hs acc

/-! ### Integer literals -/

/-- A text that is one integer literal by itself, maybe with white space and comments around. -/
def IntLiteral (t ds : List Char) : Prop :=
  feed step .idle t = (.idle, [numberToken .integer ds]) ∨
    feed step .idle t = (.number .integer ds, [])

/-- Between tokens, or at the end of an integer. -/
def Settled (s : Mode) : Prop := s = .idle ∨ ∃ ds, s = .number .integer ds

theorem IntLiteral.reads {t ds : List Char} (h : IntLiteral t ds) :
    ∃ s, Settled s ∧ Reads step flush .idle t s [numberToken .integer ds] := by
  obtain h | h := h
  · exact ⟨.idle, .inl rfl, by simp [Reads, h, flush]⟩
  · exact ⟨.number .integer ds, .inr ⟨ds, rfl⟩, by simp [Reads, h, flush]⟩

theorem IntLiteral.settled {t ds : List Char} (h : IntLiteral t ds) :
    Settled (feed step .idle t).1 := by
  obtain ⟨s, hs, hread, -⟩ := h.reads
  exact hread ▸ hs

theorem feed_digits (acc : List Char) {ds : List Char} (h : ∀ c ∈ ds, c.isDigit = true) :
    feed step (.number .integer acc) ds = (.number .integer (acc ++ ds), []) := by
  induction ds generalizing acc with
  | nil => rw [List.append_nil]; rfl
  | cons c ds ih =>
    have hstep : step (.number .integer acc) c = (.number .integer (acc ++ [c]), []) := by
      simp [step, numberStep, h c (by simp)]
    rw [feed_cons_silent, hstep, ih _ fun d hd => h d (by simp [hd]), List.append_assoc]
    exact ⟨rfl, rfl⟩

/-- A digit starts an integer. -/
theorem step_idle_digit {c : Char} (h : c.isDigit = true) :
    step .idle c = (.number .integer [c], []) := by
  have hall : ∀ n < 58, 48 ≤ n →
      step .idle (Char.ofNat n) = (.number .integer [Char.ofNat n], []) := by decide
  simp only [Char.isDigit, Bool.and_eq_true, decide_eq_true_eq, UInt32.le_iff_toNat_le, ge_iff_le] at h
  have hc := hall c.toNat (Nat.lt_succ_of_le h.2) h.1
  rwa [Char.ofNat_toNat] at hc

/-- A run of digits is an integer literal. -/
theorem intLiteral_digits {ds : List Char} (hne : ds ≠ []) (h : ∀ c ∈ ds, c.isDigit = true) :
    IntLiteral ds ds := by
  obtain ⟨c, cs, rfl⟩ := List.exists_cons_of_ne_nil hne
  rw [List.forall_mem_cons] at h
  right
  rw [feed_cons_silent, step_idle_digit h.1]
  exact ⟨rfl, feed_digits [c] h.2⟩

/-- A token without the contents of its string literal or the digits of its integer. -/
def Token.erase : Token → Token
  | .str kind _ => .str kind ""
  | .number .integer _ => .number .integer ""
  | t => t

/-! ### Statements put together from parts -/

/-- A part of a statement. -/
inductive Part where
  | fixed (t : List Char)
  /-- A text from outside, inside a string literal. -/
  | literal (t : List Char)
  /-- A text from outside, as an integer. -/
  | integer (t : List Char)
deriving DecidableEq

def Part.text : Part → List Char
  | .fixed t => t
  | .literal t => t
  | .integer t => t

/-- Read from a state on, every text from outside stays in its place. -/
def InPlace : Mode → List Part → Prop
  | _, [] => True
  | s, .fixed t :: ps => InPlace (feed step s t).1 ps
  | s, .literal t :: ps =>
    (∃ a b, s = .str .standard a ∧ feed step s t = (.str .standard b, [])) ∧
      InPlace (feed step s t).1 ps
  | s, .integer t :: ps =>
    (s = .idle ∧ ∃ ds, IntLiteral t ds) ∧ InPlace (feed step s t).1 ps

theorem inPlace_append (s : Mode) (ps qs : List Part) :
    InPlace s (ps ++ qs) ↔
      InPlace s ps ∧ InPlace (feed step s (ps.flatMap Part.text)).1 qs := by
  induction ps generalizing s with
  | nil => simp [InPlace]
  | cons p ps ih =>
    rw [List.cons_append, List.flatMap_cons, feed_append]
    cases p with
    | fixed t => exact ih _
    | literal t => rw [InPlace, ih, InPlace]; exact and_assoc.symm
    | integer t => rw [InPlace, ih, InPlace]; exact and_assoc.symm

theorem inPlace_literal {a t : List Char} {ps : List Part} :
    InPlace (.str .standard a) (.literal t :: ps) ↔
      ∃ s, Enclosed t s ∧ InPlace (.str .standard (a ++ s)) ps := by
  constructor
  · rintro ⟨⟨a', b, -, h⟩, hps⟩
    obtain ⟨s, rfl, hs⟩ := feed_str_iff.mp h
    rw [h] at hps
    exact ⟨s, hs, hps⟩
  · rintro ⟨s, hs, hps⟩
    have h := feed_enclosed hs a
    exact ⟨⟨a, a ++ s, rfl, h⟩, by rw [h]; exact hps⟩

end Sql
end Curarium
