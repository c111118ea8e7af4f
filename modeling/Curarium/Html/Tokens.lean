import Curarium.Library.Transducer
import Mathlib.Data.List.Infix
import Mathlib.Tactic.Common

/-!
# The markup of an HTML text

The tokenizer of HTML, as far as it finds tags, comments and declarations; what it reads as text it does
not emit. Every character carries a mark, which says where it comes from and stays with it in the names
and values of the tags.

* `step` is one character. Some elements have a content of their own kind, which is up to a parameter.
* `feed_inert`, `output_not_inert` — a text put in the place of some text is text again, unless one of its
  `<` opens markup (`inert`); and then the next markup is not that of the place, but its own.

Character references make no markup, so they are left as they are. Attributes are listed as they are
written, on end tags too.
-/

namespace Curarium
namespace Html

open Transducer

variable {μ : Type}

/-- A text with a mark on each character. -/
abbrev Marked (μ : Type) := List (Char × μ)

/-- A tag as far as it has been read. -/
structure Tag (μ : Type) where
  close : Bool
  name : Marked μ
  attrs : List (Marked μ × Marked μ)
deriving DecidableEq

/-- What is not text. A declaration is a comment or a `DOCTYPE`. -/
inductive Markup (μ : Type) where
  | tag (t : Tag μ)
  | declaration (data : Marked μ)
deriving DecidableEq

inductive State (μ : Type) where
  | data
  | tagOpen
  | endTagOpen
  | tagName (t : Tag μ)
  | beforeAttrName (t : Tag μ)
  | attrName (t : Tag μ) (name : Marked μ)
  | afterAttrName (t : Tag μ) (name : Marked μ)
  | beforeAttrValue (t : Tag μ) (name : Marked μ)
  | attrValue (quote : Char) (t : Tag μ) (name value : Marked μ)
  | unquotedValue (t : Tag μ) (name value : Marked μ)
  | afterAttrValue (t : Tag μ)
  | selfClosing (t : Tag μ)
  | declaration (data : Marked μ)
  | bogusComment (data : Marked μ)
  | raw (name content : Marked μ)
deriving DecidableEq

/-! ### The tokenizer -/

/-- White space in a tag. -/
def isSpace (c : Char) : Bool := c = '\t' || c = '\n' || c = '\x0c' || c = ' '

/-- The elements whose content is not tokenized as other content is. -/
def rawElements : List (List Char) :=
  ["title".toList, "textarea".toList, "style".toList, "xmp".toList, "iframe".toList, "noembed".toList,
    "noframes".toList, "noscript".toList, "script".toList, "plaintext".toList]

def Tag.isRaw (t : Tag μ) : Bool := !t.close && t.name.map (fun c => c.1.toLower) ∈ rawElements

def Tag.attr (t : Tag μ) (name value : Marked μ) : Tag μ := { t with attrs := t.attrs ++ [(name, value)] }

def emit (t : Tag μ) : State μ × List (Markup μ) := (if t.isRaw then .raw t.name [] else .data, [.tag t])

/-- The data of what begins with `<!`, at a `>`: a comment is over only after two dashes. -/
def declarationEnds (data : List Char) : Bool :=
  match data with
  | '-' :: '-' :: rest => rest = [] || rest = ['-'] || "--".toList <:+ rest || "--!".toList <:+ rest
  | _ => true

def stepData (c : Char × μ) : State μ × List (Markup μ) := if c.1 = '<' then (.tagOpen, []) else (.data, [])

/-- Before the name of an attribute, and where this is what a character is taken for. -/
def stepBeforeAttrName (t : Tag μ) (c : Char × μ) : State μ × List (Markup μ) :=
  if isSpace c.1 then (.beforeAttrName t, [])
  else if c.1 = '/' then (.selfClosing t, [])
  else if c.1 = '>' then emit t
  else (.attrName t [c], [])

def step : State μ → Char × μ → State μ × List (Markup μ)
  | .data, c => stepData c
  | .tagOpen, c =>
    if c.1 = '!' then (.declaration [], [])
    else if c.1 = '/' then (.endTagOpen, [])
    else if c.1.isAlpha then (.tagName ⟨false, [c], []⟩, [])
    else if c.1 = '?' then (.bogusComment [c], [])
    else stepData c
  | .endTagOpen, c =>
    if c.1.isAlpha then (.tagName ⟨true, [c], []⟩, [])
    else if c.1 = '>' then (.data, [])
    else (.bogusComment [c], [])
  | .tagName t, c =>
    if isSpace c.1 then (.beforeAttrName t, [])
    else if c.1 = '/' then (.selfClosing t, [])
    else if c.1 = '>' then emit t
    else (.tagName { t with name := t.name ++ [c] }, [])
  | .beforeAttrName t, c => stepBeforeAttrName t c
  | .attrName t name, c =>
    if isSpace c.1 then (.afterAttrName t name, [])
    else if c.1 = '/' then (.selfClosing (t.attr name []), [])
    else if c.1 = '>' then emit (t.attr name [])
    else if c.1 = '=' then (.beforeAttrValue t name, [])
    else (.attrName t (name ++ [c]), [])
  | .afterAttrName t name, c =>
    if isSpace c.1 then (.afterAttrName t name, [])
    else if c.1 = '/' then (.selfClosing (t.attr name []), [])
    else if c.1 = '=' then (.beforeAttrValue t name, [])
    else if c.1 = '>' then emit (t.attr name [])
    else (.attrName (t.attr name []) [c], [])
  | .beforeAttrValue t name, c =>
    if isSpace c.1 then (.beforeAttrValue t name, [])
    else if c.1 = '"' ∨ c.1 = '\'' then (.attrValue c.1 t name [], [])
    else if c.1 = '>' then emit (t.attr name [])
    else (.unquotedValue t name [c], [])
  | .attrValue quote t name value, c =>
    if c.1 = quote then (.afterAttrValue (t.attr name value), [])
    else (.attrValue quote t name (value ++ [c]), [])
  | .unquotedValue t name value, c =>
    if isSpace c.1 then (.beforeAttrName (t.attr name value), [])
    else if c.1 = '>' then emit (t.attr name value)
    else (.unquotedValue t name (value ++ [c]), [])
  | .afterAttrValue t, c => stepBeforeAttrName t c
  | .selfClosing t, c => if c.1 = '>' then emit t else stepBeforeAttrName t c
  | .declaration data, c =>
    if c.1 = '>' ∧ declarationEnds (data.map Prod.fst) then (.data, [.declaration data])
    else (.declaration (data ++ [c]), [])
  | .bogusComment data, c =>
    if c.1 = '>' then (.data, [.declaration data]) else (.bogusComment (data ++ [c]), [])
  | .raw name content, c => (.raw name (content ++ [c]), [])

section Flush

variable (raw : Marked μ → Marked μ → List (Markup μ))

/-- The end of the text. A tag that has not ended is dropped. What is in the content of some elements, and
after them, is up to `raw`. -/
def flush : State μ → List (Markup μ)
  | .declaration data => [.declaration data]
  | .bogusComment data => [.declaration data]
  | .raw name content => raw name content
  | _ => []

/-- The markup of a text. -/
def markup (text : Marked μ) : List (Markup μ) := output step (flush raw) .data text

end Flush

/-! ### Text that is no markup -/

/-- The same mark on all of a text. -/
def mark (m : μ) (text : List Char) : Marked μ := text.map fun c => (c, m)

/-- No `<` opens a tag, a comment or a declaration. An empty end tag is dropped. -/
def inert : List Char → Bool
  | '<' :: '/' :: '>' :: cs => inert cs
  | '<' :: '/' :: _ => false
  | '<' :: c :: cs => !(c.isAlpha || c = '!' || c = '?') && inert (c :: cs)
  | _ :: cs => inert cs
  | [] => true

/-- A change of characters that are none of markup, to characters that are none of it. -/
theorem inert_map {f : Char → Char}
    (hf : ∀ c, f c = c ∨ (c ∉ ['<', '/', '>', '!', '?'] ∧ c.isAlpha = false) ∧
      f c ∉ ['<', '/', '>', '!', '?'] ∧ (f c).isAlpha = false) (text : List Char) :
    inert (text.map f) = inert text := by
  have hkept : ∀ c, c ∈ ['<', '/', '>', '!', '?'] → f c = c := fun c hc =>
    (hf c).resolve_right fun h => h.1.1 hc
  have hmark : ∀ {c d : Char}, d ∈ ['<', '/', '>', '!', '?'] → f c = d → c = d := fun {c d} hd h =>
    (hf c).elim (fun heq => heq.symm.trans h) fun hc => absurd (h ▸ hd) hc.2.1
  have hopens : ∀ c, ((f c).isAlpha || f c = '!' || f c = '?') = (c.isAlpha || c = '!' || c = '?') := by
    intro c
    rcases hf c with h | ⟨⟨hc, halpha⟩, hfc, hfalpha⟩
    · rw [h]
    · simp only [List.mem_cons, not_or] at hc hfc
      rw [halpha, hfalpha, decide_eq_false hc.2.2.2.1, decide_eq_false hc.2.2.2.2.1,
        decide_eq_false hfc.2.2.2.1, decide_eq_false hfc.2.2.2.2.1]
  fun_induction inert text with
  | case1 cs ih =>
    rw [List.map_cons, List.map_cons, List.map_cons, hkept '<' (by decide), hkept '/' (by decide),
      hkept '>' (by decide), inert]
    exact ih
  | case2 cs hend =>
    rw [List.map_cons, List.map_cons, hkept '<' (by decide), hkept '/' (by decide)]
    cases cs with
    | nil => rfl
    | cons d cs =>
      have hd : f d ≠ '>' := fun h => hend cs (by rw [hmark (by decide) h])
      rw [List.map_cons, inert]
      exact fun rest h => hd (List.cons.inj h).1
  | case3 c cs hclose hslash ih =>
    have hc : f c ≠ '/' := fun h => hslash (hmark (by decide) h)
    rw [List.map_cons, List.map_cons, hkept '<' (by decide), inert, hopens, ← List.map_cons, ih]
    · exact fun rest h _ => hc h
    · exact hc
  | case4 c cs _ _ hlast ih =>
    by_cases hc : c = '<'
    · cases cs with
      | nil => rw [hc, List.map_cons, hkept '<' (by decide)]; rfl
      | cons d cs => exact absurd rfl (hlast d cs hc)
    · have hfc : f c ≠ '<' := fun h => hc (hmark (by decide) h)
      rw [List.map_cons, inert, ih]
      · exact fun _ h => absurd h hfc
      · exact fun _ h => absurd h hfc
      · exact fun _ _ h => absurd h hfc
  | case5 => rfl

theorem feed_data_of_notMem {m : μ} {text : List Char} (h : '<' ∉ text) :
    feed step .data (mark m text) = (.data, []) := by
  induction text with
  | nil => rfl
  | cons c text ih =>
    rw [List.mem_cons, not_or] at h
    have hstep : step .data (c, m) = (.data, []) := if_neg (Ne.symm h.1)
    change feed step .data ((c, m) :: mark m text) = _
    rw [feed_cons, hstep, ih h.2]
    rfl

/-- The value of an attribute, up to its quote. -/
theorem feed_attrValue {m : μ} {quote : Char} {text : List Char} (h : quote ∉ text) (t : Tag μ)
    (name value : Marked μ) :
    feed step (.attrValue quote t name value) (mark m text) =
      (.attrValue quote t name (value ++ mark m text), []) := by
  induction text generalizing value with
  | nil => rw [mark, List.map_nil, List.append_nil, feed_nil]
  | cons c text ih =>
    rw [List.mem_cons, not_or] at h
    have hstep : step (.attrValue quote t name value) (c, m) = (.attrValue quote t name (value ++ [(c, m)]), []) :=
      if_neg (Ne.symm h.1)
    change feed step _ ((c, m) :: mark m text) = _
    rw [feed_cons, hstep, ih h.2, List.append_assoc]
    rfl

/-- A character that opens nothing after a `<` is read as if there were none before it. -/
theorem step_tagOpen {c : Char} (m : μ) (hslash : c ≠ '/') (h : (c.isAlpha || c = '!' || c = '?') = false) :
    step (.tagOpen : State μ) (c, m) = step .data (c, m) := by
  simp only [Bool.or_eq_false_iff, decide_eq_false_iff_not] at h
  obtain ⟨⟨halpha, hbang⟩, hquestion⟩ := h
  show (if c = '!' then _ else if c = '/' then _ else if c.isAlpha = true then _ else
    if c = '?' then _ else stepData (c, m)) = stepData (c, m)
  rw [if_neg hbang, if_neg hslash, halpha, if_neg Bool.false_ne_true, if_neg hquestion]

/-- **A text without markup** is read as text; at its end a `<` is read as after any text. -/
theorem feed_inert {text : List Char} (h : inert text = true) (m : μ) :
    ∃ s, feed step .data (mark m text) = (s, []) ∧ ∀ m', step s ('<', m') = (.tagOpen, []) := by
  fun_induction inert text with
  | case1 cs ih =>
    -- the empty end tag
    obtain ⟨s, hs, hopen⟩ := ih h
    exact ⟨s, hs, hopen⟩
  | case2 => cases h
  | case3 c cs _ hslash ih =>
    rw [Bool.and_eq_true, Bool.not_eq_true'] at h
    obtain ⟨s, hs, hopen⟩ := ih h.2
    refine ⟨s, ?_, hopen⟩
    -- the `<` is text, and the next character is read as if there were none before it
    change feed step .tagOpen ((c, m) :: mark m cs) = _
    rw [feed_cons, step_tagOpen m hslash h.1, ← feed_cons]
    exact hs
  | case4 c cs _ _ hlast ih =>
    by_cases hc : c = '<'
    · cases cs with
      | nil =>
        subst hc
        exact ⟨.tagOpen, rfl, fun _ => rfl⟩
      | cons d cs => exact absurd rfl (hlast d cs hc)
    · obtain ⟨s, hs, hopen⟩ := ih h
      refine ⟨s, ?_, hopen⟩
      change feed step .data ((c, m) :: mark m cs) = _
      rw [feed_cons, show step .data (c, m) = (.data, []) from if_neg hc, hs]
      rfl
  | case5 => exact ⟨.data, rfl, fun _ => rfl⟩

/-! ### Text that is markup -/

/-- The tag that is being read. -/
def State.tag : State μ → Option (Tag μ)
  | .tagName t => some t
  | .beforeAttrName t => some t
  | .attrName t _ => some t
  | .afterAttrName t _ => some t
  | .beforeAttrValue t _ => some t
  | .attrValue _ t _ _ => some t
  | .unquotedValue t _ _ => some t
  | .afterAttrValue t => some t
  | .selfClosing t => some t
  | _ => none

/-- The beginning of a tag that has been read, and the tag. -/
def Tag.Begins (t t' : Tag μ) : Prop := t.close = t'.close ∧ t.name <+: t'.name

theorem Tag.Begins.refl (t : Tag μ) : t.Begins t := ⟨rfl, List.prefix_refl _⟩

theorem Tag.Begins.trans {t t' t'' : Tag μ} (h : t.Begins t') (h' : t'.Begins t'') : t.Begins t'' :=
  ⟨h.1.trans h'.1, h.2.trans h'.2⟩

/-- A tag goes on, or it is emitted. -/
def Continues (t : Tag μ) (r : State μ × List (Markup μ)) : Prop :=
  ∃ t', t.Begins t' ∧ (r.1.tag = some t' ∧ r.2 = [] ∨ r.2 = [.tag t'])

theorem continues_emit (t : Tag μ) : Continues t (emit t) := ⟨t, .refl t, .inr rfl⟩

theorem continues_emit_attr (t : Tag μ) (name value : Marked μ) : Continues t (emit (t.attr name value)) :=
  ⟨t.attr name value, ⟨rfl, List.prefix_refl _⟩, .inr rfl⟩

theorem continues_state {t t' : Tag μ} {s : State μ} (hs : s.tag = some t') (h : t.Begins t') :
    Continues t (s, []) := ⟨t', h, .inl ⟨hs, rfl⟩⟩

theorem continues_beforeAttrName (t : Tag μ) (c : Char × μ) : Continues t (stepBeforeAttrName t c) := by
  unfold stepBeforeAttrName
  split
  · exact continues_state rfl (.refl t)
  split
  · exact continues_state rfl (.refl t)
  split
  · exact continues_emit t
  · exact continues_state rfl (.refl t)

/-- **One character of a tag.** -/
theorem continues_step {s : State μ} {t : Tag μ} (h : s.tag = some t) (c : Char × μ) :
    Continues t (step s c) := by
  -- one more attribute changes neither the name nor which kind of tag it is
  have hattr : ∀ name value, t.Begins (t.attr name value) := fun _ _ => ⟨rfl, List.prefix_refl _⟩
  cases s with
  | beforeAttrName t' =>
    obtain rfl := Option.some.inj h
    exact continues_beforeAttrName _ c
  | afterAttrValue t' =>
    obtain rfl := Option.some.inj h
    exact continues_beforeAttrName _ c
  | selfClosing t' =>
    obtain rfl := Option.some.inj h
    show Continues _ (if c.1 = '>' then emit t' else stepBeforeAttrName t' c)
    split
    · exact continues_emit _
    · exact continues_beforeAttrName _ c
  | tagName t' =>
    obtain rfl := Option.some.inj h
    rw [step]
    repeat' split
    · exact continues_state rfl (.refl _)
    · exact continues_state rfl (.refl _)
    · exact continues_emit _
    · -- the only character that goes into the name
      exact continues_state rfl ⟨rfl, List.prefix_append _ _⟩
  | attrName t' name =>
    obtain rfl := Option.some.inj h
    rw [step]
    repeat' split
    · exact continues_state rfl (.refl _)
    · -- the slash of a self-closing tag ends the attribute
      exact continues_state rfl (hattr _ _)
    · exact continues_emit_attr _ _ _
    · exact continues_state rfl (.refl _)
    · exact continues_state rfl (.refl _)
  | afterAttrName t' name =>
    obtain rfl := Option.some.inj h
    rw [step]
    repeat' split
    · exact continues_state rfl (.refl _)
    · exact continues_state rfl (hattr _ _)
    · exact continues_state rfl (.refl _)
    · exact continues_emit_attr _ _ _
    · -- the name before the space has no value, and another one begins
      exact continues_state rfl (hattr _ _)
  | beforeAttrValue t' name =>
    obtain rfl := Option.some.inj h
    rw [step]
    repeat' split
    · exact continues_state rfl (.refl _)
    · exact continues_state rfl (.refl _)
    · exact continues_emit_attr _ _ _
    · exact continues_state rfl (.refl _)
  | attrValue quote t' name value =>
    obtain rfl := Option.some.inj h
    rw [step]
    -- the closing quote, or one more character
    split
    · exact continues_state rfl (hattr _ _)
    · exact continues_state rfl (.refl _)
  | unquotedValue t' name value =>
    obtain rfl := Option.some.inj h
    rw [step]
    repeat' split
    · exact continues_state rfl (hattr _ _)
    · exact continues_emit_attr _ _ _
    · exact continues_state rfl (.refl _)
  | _ => cases h

section Output

variable {raw : Marked μ → Marked μ → List (Markup μ)}

theorem output_cons (s : State μ) (c : Char × μ) (cs : Marked μ) :
    output step (flush raw) s (c :: cs) = (step s c).2 ++ output step (flush raw) (step s c).1 cs := by
  unfold output
  rw [feed_cons, List.append_assoc]

/-- **A tag that has begun** is the next markup, if there is any. -/
theorem output_of_tag {s : State μ} {t : Tag μ} (h : s.tag = some t) (cs : Marked μ) :
    ∀ m ∈ (output step (flush raw) s cs).head?, ∃ t', m = .tag t' ∧ t.Begins t' := by
  induction cs generalizing s t with
  | nil =>
    -- the end of the text drops it
    have hflush : flush raw s = [] := by cases s <;> first | rfl | cases h
    intro m hm
    unfold output at hm
    rw [feed_nil, hflush] at hm
    cases hm
  | cons c cs ih =>
    intro m hm
    rw [output_cons] at hm
    obtain ⟨t', hbegins, ⟨htag, hnone⟩ | hemit⟩ := continues_step h c
    · rw [hnone, List.nil_append] at hm
      obtain ⟨t'', rfl, hbegins'⟩ := ih htag m hm
      exact ⟨t'', rfl, hbegins.trans hbegins'⟩
    · rw [hemit] at hm
      exact ⟨t', (Option.some.inj hm).symm, hbegins⟩

/-- What is read into a declaration, to the end or until it is over, is the next markup. -/
theorem output_read {S : Marked μ → State μ} (hflush : ∀ data, flush raw (S data) = [.declaration data])
    (hstep : ∀ data c, step (S data) c = (.data, [.declaration data]) ∨
      step (S data) c = (S (data ++ [c]), [])) (data : Marked μ) (cs : Marked μ) :
    ∀ m ∈ (output step (flush raw) (S data) cs).head?, ∃ data', m = .declaration data' := by
  induction cs generalizing data with
  | nil =>
    change ∀ m ∈ (flush raw (S data)).head?, _
    rw [hflush]
    exact fun m hm => ⟨data, (Option.some.inj hm).symm⟩
  | cons c cs ih =>
    rw [output_cons]
    rcases hstep data c with h | h
    · rw [h]
      exact fun m hm => ⟨data, (Option.some.inj hm).symm⟩
    · rw [h]
      exact ih _

/-- A declaration that has begun is the next markup. -/
theorem output_declaration (data : Marked μ) (cs : Marked μ) :
    ∀ m ∈ (output step (flush raw) (.declaration data) cs).head?, ∃ data', m = .declaration data' := by
  refine output_read (fun _ => rfl) (fun data c => ?_) data cs
  rw [step]
  split
  · exact .inl rfl
  · exact .inr rfl

theorem output_bogusComment (data : Marked μ) (cs : Marked μ) :
    ∀ m ∈ (output step (flush raw) (.bogusComment data) cs).head?, ∃ data', m = .declaration data' := by
  refine output_read (fun _ => rfl) (fun data c => ?_) data cs
  rw [step]
  split
  · exact .inl rfl
  · exact .inr rfl

/-- A markup that begins with a mark: its name does, if it is an end tag. -/
def Markup.From (m : μ) : Markup μ → Prop
  | .tag t => t.close = true → ∃ c, (c, m) ∈ t.name.head?
  | .declaration _ => True

theorem from_of_declaration {m : μ} {out : List (Markup μ)}
    (h : ∀ x ∈ out.head?, ∃ data, x = .declaration data) : ∀ x ∈ out.head?, x.From m := by
  intro x hx
  obtain ⟨data, rfl⟩ := h x hx
  trivial

/-- A tag whose name begins with a character is from its mark. -/
theorem from_of_tag {c : Char × μ} {close : Bool} (cs : Marked μ) :
    ∀ x ∈ (output step (flush raw) (.tagName ⟨close, [c], []⟩) cs).head?, x.From c.2 := by
  intro x hx
  obtain ⟨t, rfl, -, tail, hname⟩ := output_of_tag rfl cs x hx
  intro _
  refine ⟨c.1, ?_⟩
  rw [← hname]
  rfl

variable (raw) in
/-- **A text with markup**: the next markup is from it, if there is any. -/
theorem output_not_inert {text : List Char} (h : inert text = false) (m m' : μ) (cs : Marked μ) :
    ∀ x ∈ (output step (flush raw) .data (mark m text ++ ('<', m') :: cs)).head?, x.From m := by
  fun_induction inert text with
  | case1 rest ih => exact ih h
  | case2 rest hend =>
    -- it opens an end tag, or what is taken for a comment
    change ∀ x ∈ (output step (flush raw) .endTagOpen (mark m rest ++ ('<', m') :: cs)).head?, _
    cases rest with
    | nil => exact from_of_declaration (output_bogusComment [('<', m')] cs)
    | cons d rest =>
      change ∀ x ∈ (output step (flush raw) .endTagOpen ((d, m) :: (mark m rest ++ ('<', m') :: cs))).head?, _
      rw [output_cons, step]
      split
      · exact from_of_tag _
      · split
        case isTrue hd => exact (hend rest (by rw [show d = '>' from hd])).elim
        case isFalse => exact from_of_declaration (output_bogusComment _ _)
  | case3 c rest _ hslash ih =>
    change ∀ x ∈ (output step (flush raw) .tagOpen ((c, m) :: (mark m rest ++ ('<', m') :: cs))).head?, _
    cases hopen : (c.isAlpha || c = '!' || c = '?') with
    | false =>
      rw [hopen, Bool.not_false, Bool.true_and] at h
      rw [output_cons, step_tagOpen m hslash hopen, ← output_cons]
      exact ih h
    | true =>
      rw [Bool.or_eq_true, Bool.or_eq_true, decide_eq_true_iff, decide_eq_true_iff] at hopen
      rw [output_cons]
      rcases hopen with (halpha | rfl) | rfl
      · have hbang : c ≠ '!' := by
          rintro rfl
          exact absurd halpha (by decide)
        have hstep : step .tagOpen (c, m) = (.tagName ⟨false, [(c, m)], []⟩, []) := by
          rw [step, if_neg hbang, if_neg hslash, if_pos halpha]
        rw [hstep]
        exact from_of_tag _
      · exact from_of_declaration (output_declaration [] _)
      · exact from_of_declaration (output_bogusComment [('?', m)] _)
  | case4 c rest _ _ hlast ih =>
    have hc : c ≠ '<' := by
      rintro rfl
      cases rest with
      | nil => cases h
      | cons d rest => exact hlast d rest rfl rfl
    change ∀ x ∈ (output step (flush raw) .data ((c, m) :: (mark m rest ++ ('<', m') :: cs))).head?, _
    rw [output_cons, show step .data (c, m) = (.data, []) from if_neg hc]
    exact ih h
  | case5 => cases h

end Output

end Html
end Curarium
