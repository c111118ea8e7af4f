import Curarium.Html.Tokens
import Curarium.Library.Delimited
import Curarium.Works.Clause

/-!
# The filter terms of the visualization controls

A filter term is built by a script, as a hidden input with the value `p:v`. Submitted with the form it
reaches the server, which splits it at its colons, and it is in the address of the page that is loaded
then, from which the script builds the inputs anew.

The script has two coders of its own. `escapeSpecialChars` escapes what it writes into the page, and
writes a space for every plus; `init` undoes the encoding of the whole address before it takes it apart
at `&`, `=` and `:`.

* `hiddenInput` is the value of the input that `propHtml` writes for a value (`hiddenInput_eq`, where
  there is no ampersand in it).
* `init` is the loop over the query of the address; it is `none` where the script raises. On its way the
  loop sets the select `#property` (`propertyVal`).

The browser is standard. Its form encoding writes a space as a plus, which `decodeURIComponent` leaves
alone, and a line break as CR LF; what it makes of the HTML of some terms is a parameter.
-/

namespace Curarium
namespace VisControls

open WorksIndex

/-! ### The script -/

/-- The two buttons. -/
inductive Kind where
  | inc
  | exc
deriving DecidableEq

/-- The name that the script gives to a kind. -/
def Kind.className : Kind → Text
  | .inc => "include".toList
  | .exc => "exclude".toList

/-- The name of the input. -/
def Kind.inputName (k : Kind) : Text := k.className ++ "[]".toList

/-- `str.replace( …, by )` for every `c` that there is. -/
def replaceAll (c : Char) (by' : Text) (str : Text) : Text :=
  str.flatMap fun d => if d = c then by' else [d]

def escapeSpecialChars (str : Text) : Text :=
  replaceAll '+' " ".toList <| replaceAll '"' "&quot;".toList <| replaceAll '\'' "&#39;".toList <|
    replaceAll '>' "&gt;".toList <| replaceAll '<' "&lt;".toList str

/-- What `propHtml` writes into its HTML: the value and the text escaped, the name as it is. -/
structure PropHtml where
  kind : Kind
  value : Text
  propName : Text
  text : Text
deriving DecidableEq

/-- `$.visControls.propHtml` -/
def propHtml (kind : Kind) (value propName text : Text) : PropHtml where
  kind := kind
  value := escapeSpecialChars value
  propName := propName
  text := escapeSpecialChars text

/-! ### The browser -/

/-- Line breaks in HTML are line feeds. -/
def htmlNewlines : Text → Text
  | '\r' :: '\n' :: cs => '\n' :: htmlNewlines cs
  | '\r' :: cs => '\n' :: htmlNewlines cs
  | c :: cs => c :: htmlNewlines cs
  | [] => []

/-- Line breaks in a form are sent as CR LF. -/
def formNewlines : Text → Text
  | '\r' :: '\n' :: cs => '\r' :: '\n' :: formNewlines cs
  | '\r' :: cs => '\r' :: '\n' :: formNewlines cs
  | '\n' :: cs => '\r' :: '\n' :: formNewlines cs
  | c :: cs => c :: formNewlines cs
  | [] => []

/-- The value of an attribute, after `skip` characters that belong to a character reference. After an
ampersand `reference` tells which one follows, as the characters for it and its length. -/
def unescape (reference : Text → Option (Text × Nat)) : Nat → Text → Text
  | _, [] => []
  | skip + 1, _ :: cs => unescape reference skip cs
  | 0, c :: cs =>
    if c = '&' then
      match reference cs with
      | some r => r.1 ++ unescape reference r.2 cs
      | none => '&' :: unescape reference 0 cs
    else (if c = '\x00' then '\uFFFD' else c) :: unescape reference 0 cs

/-- The name and value of the input that is written. -/
def PropHtml.input (reference : Text → Option (Text × Nat)) (h : PropHtml) : Text × Text :=
  (h.kind.inputName, unescape reference 0 (htmlNewlines h.value))

/-- What has to be escaped between the quotes of a selector. -/
def selectorEscapes : Text := ['"', '\\', '\n', '\r', '\x0c', '\x00']

/-- What a browser does with the HTML of some terms. -/
structure Browser where
  /-- The character references. -/
  reference : Text → Option (Text × Nat)
  reference_lt : ∀ cs, reference ("lt;".toList ++ cs) = some (['<'], 3)
  reference_gt : ∀ cs, reference ("gt;".toList ++ cs) = some (['>'], 3)
  reference_apos : ∀ cs, reference ("#39;".toList ++ cs) = some (['\''], 4)
  reference_quot : ∀ cs, reference ("quot;".toList ++ cs) = some (['"'], 5)
  /-- The inputs that are in the page then, by name and value. -/
  inputs : List PropHtml → List (Text × Text)
  /-- Without markup in the names these are the inputs that are written. -/
  inputs_of_inert : ∀ hs, (∀ h ∈ hs, Html.inert h.propName = true) →
    inputs hs = hs.map (PropHtml.input reference)
  /-- Markup in a name does nothing to the inputs before it. -/
  inputs_before : ∀ hs h hs', (∀ h ∈ hs, Html.inert h.propName = true) →
    (hs ++ [h]).map (PropHtml.input reference) <+: inputs (hs ++ h :: hs')
  /-- How many of some inputs the selector `input[name="include[]"][value="…"]` finds with a value in its
  quotes; `none` where it cannot be read. -/
  find : List (Text × Text) → Text → Option Nat
  /-- It finds the inputs with this value, unless there is something to escape in it. -/
  find_eq : ∀ inputs value, (∀ c ∈ value, c ∉ selectorEscapes) →
    find inputs value = some (inputs.count (Kind.inc.inputName, value))

/-- The value of the input that is written for a value. -/
def hiddenInput (B : Browser) (value : Text) : Text :=
  unescape B.reference 0 (htmlNewlines (escapeSpecialChars value))

/-- The form encoding of a text, decoded by `decodeURIComponent`. -/
def plus (t : Text) : Text := t.map fun c => if c = ' ' then '+' else c

/-- A name and a value of the form, in the query. -/
def decodedEntry (e : Text × Text) : Text := plus e.1 ++ '=' :: plus e.2

/-- The query of the page after `decodeURIComponent`. -/
def decodedSearch (entries : List (Text × Text)) : Text := ['&'].intercalate (entries.map decodedEntry)

/-! ### `init` -/

/-- What the loop does for a part: the HTML that it adds, and what it sets `#property` to. -/
structure Part where
  html : List PropHtml
  property : Option Text

/-- One of the parts between ampersands. `undefined` cannot be split, nor escaped. -/
def initPart (part : Text) : Option Part :=
  let kv := part.splitOn '='
  kv[1]?.bind fun value =>
    let v := value.splitOn ':'
    let prop := fun kind => v[1]?.map fun text => ⟨[propHtml kind value (v.headD []) text], none⟩
    if kv.headD [] = Kind.inc.inputName then prop .inc
    else if kv.headD [] = Kind.exc.inputName then prop .exc
    else if kv.headD [] = "property".toList then some ⟨[], some (v.headD [])⟩
    else some ⟨[], none⟩

/-- The loop of `init` over the parts: what it adds to `propsHtml`. -/
def initLoop : List Text → Option (List PropHtml)
  | [] => some []
  | part :: vals => (initPart part).bind fun p => (initLoop vals).map (p.html ++ ·)

/-- The loop of `init` over the parts: what it sets `#property` to, one value after the other. Where it
raises, those before have been set. -/
def initProperties : List Text → List Text
  | [] => []
  | part :: vals =>
    match initPart part with
    | none => []
    | some p => p.property.toList ++ initProperties vals

/-- What `init` writes into `props`, from the query. -/
def init (search : Text) : Option (List PropHtml) :=
  if search = [] then some [] else initLoop (search.splitOn '&')

/-- The value of an option: an escaped attribute of the page. -/
def optionValue (property : Text) : Text :=
  (htmlNewlines property).map fun c => if c = '\x00' then '\uFFFD' else c

/-- `$( '#property' ).val()` after `init`, for the options and the query. The first option is selected at
first, and none is after the select has been set to something else. -/
def propertyVal (options : List Text) (search : Text) : Option Text :=
  (if search = [] then [] else initProperties (search.splitOn '&')).foldl
    (fun _ value => if options.contains value then some value else none) options.head?

/-! ### Line breaks -/

/-- Line breaks are all that changes. -/
theorem mem_htmlNewlines {c : Char} (hc : c ≠ '\r' ∧ c ≠ '\n') (t : Text) :
    c ∈ htmlNewlines t ↔ c ∈ t := by
  fun_induction htmlNewlines t <;> simp_all

theorem mem_formNewlines {c : Char} (hc : c ≠ '\r' ∧ c ≠ '\n') (t : Text) :
    c ∈ formNewlines t ↔ c ∈ t := by
  fun_induction formNewlines t <;> simp_all

theorem htmlNewlines_cons {c : Char} (hr : c ≠ '\r') (t : Text) :
    htmlNewlines (c :: t) = c :: htmlNewlines t := by
  rw [htmlNewlines] <;> simp_all

theorem formNewlines_cons {c : Char} (hr : c ≠ '\r') (hn : c ≠ '\n') (t : Text) :
    formNewlines (c :: t) = c :: formNewlines t := by
  rw [formNewlines] <;> simp_all

/-- Texts are taken apart at any other character. -/
theorem htmlNewlines_append_cons {c : Char} (hc : c ≠ '\r' ∧ c ≠ '\n') (s t : Text) :
    htmlNewlines (s ++ c :: t) = htmlNewlines s ++ c :: htmlNewlines t := by
  fun_induction htmlNewlines s with
  | case1 cs ih => simp [htmlNewlines, ih]
  | case2 cs h ih =>
    rw [List.cons_append, htmlNewlines, ih, List.cons_append]
    intro ds hds
    cases cs with
    | nil => exact hc.2 (List.cons.inj hds).1
    | cons d cs => exact h cs (by rw [(List.cons.inj hds).1])
  | case3 d cs h1 h2 ih =>
    rw [List.cons_append, htmlNewlines_cons h2, ih, List.cons_append]
  | case4 => exact htmlNewlines_cons hc.1 t

theorem formNewlines_append_cons {c : Char} (hc : c ≠ '\r' ∧ c ≠ '\n') (s t : Text) :
    formNewlines (s ++ c :: t) = formNewlines s ++ c :: formNewlines t := by
  fun_induction formNewlines s with
  | case1 cs ih => simp [formNewlines, ih]
  | case2 cs h ih =>
    rw [List.cons_append, formNewlines, ih]
    · rfl
    intro ds hds
    cases cs with
    | nil => exact hc.2 (List.cons.inj hds).1
    | cons d cs => exact h cs (by rw [(List.cons.inj hds).1])
  | case3 cs ih => simp [formNewlines, ih]
  | case4 d cs h1 h2 h3 ih =>
    rw [List.cons_append, formNewlines_cons h2 h3, ih, List.cons_append]
  | case5 => exact formNewlines_cons hc.1 hc.2 t

theorem htmlNewlines_append {w : Text} (hw : '\r' ∉ w) (t : Text) :
    htmlNewlines (w ++ t) = w ++ htmlNewlines t := by
  induction w with
  | nil => rfl
  | cons c w ih =>
    rw [List.mem_cons, not_or] at hw
    rw [List.cons_append, htmlNewlines_cons (Ne.symm hw.1), ih hw.2, List.cons_append]

/-- What is put in the place of the characters is put there before or after, if line breaks are left as
they are and none is made. -/
theorem htmlNewlines_flatMap {f : Char → Text} (hr : f '\r' = ['\r']) (hn : f '\n' = ['\n'])
    (hf : ∀ c, c ≠ '\r' → c ≠ '\n' → f c ≠ [] ∧ '\r' ∉ f c ∧ '\n' ∉ f c) (t : Text) :
    htmlNewlines (t.flatMap f) = (htmlNewlines t).flatMap f := by
  fun_induction htmlNewlines t with
  | case1 cs ih =>
    rw [List.flatMap_cons, List.flatMap_cons, List.flatMap_cons, hr, hn, ← ih]
    rfl
  | case2 cs h ih =>
    rw [List.flatMap_cons, List.flatMap_cons, hr, hn, ← ih]
    -- a line feed at the front of the rest is one that was there
    refine htmlNewlines.eq_2 _ fun ds hds => ?_
    cases cs with
    | nil => cases hds
    | cons d cs =>
      by_cases hdn : d = '\n'
      · exact h cs (by rw [hdn])
      · by_cases hdr : d = '\r'
        · rw [hdr, List.flatMap_cons, hr] at hds
          cases hds
        · obtain ⟨hne, -, hnot⟩ := hf d hdr hdn
          obtain ⟨e, w, hw⟩ := List.exists_cons_of_ne_nil hne
          rw [List.flatMap_cons, hw, List.cons_append] at hds
          refine hnot ?_
          rw [hw, (List.cons.inj hds).1]
          exact List.mem_cons_self
  | case3 c cs h hcr ih =>
    rw [List.flatMap_cons, List.flatMap_cons, ← ih]
    by_cases hcn : c = '\n'
    · rw [hcn, hn]
      rfl
    · exact htmlNewlines_append (hf c hcr hcn).2.1 _
  | case4 => rfl

/-! ### The value of an input -/

theorem escapeSpecialChars_append (s t : Text) :
    escapeSpecialChars (s ++ t) = escapeSpecialChars s ++ escapeSpecialChars t := by
  simp only [escapeSpecialChars, replaceAll, List.flatMap_append]

/-- The replacements, character by character. -/
theorem escapeSpecialChars_eq (t : Text) :
    escapeSpecialChars t = t.flatMap fun c => escapeSpecialChars [c] := by
  induction t with
  | nil => rfl
  | cons c t ih => rw [← List.singleton_append, escapeSpecialChars_append, ih, List.flatMap_append,
      List.flatMap_singleton]

/-- The characters that are replaced. -/
theorem escapeSpecialChars_cases (c : Char) :
    (c = '<' ∧ escapeSpecialChars [c] = "&lt;".toList) ∨
    (c = '>' ∧ escapeSpecialChars [c] = "&gt;".toList) ∨
    (c = '\'' ∧ escapeSpecialChars [c] = "&#39;".toList) ∨
    (c = '"' ∧ escapeSpecialChars [c] = "&quot;".toList) ∨ (c = '+' ∧ escapeSpecialChars [c] = [' ']) ∨
    (c ≠ '+' ∧ escapeSpecialChars [c] = [c]) := by
  by_cases h1 : c = '<'
  · exact .inl ⟨h1, by rw [h1]; rfl⟩
  by_cases h2 : c = '>'
  · exact .inr (.inl ⟨h2, by rw [h2]; rfl⟩)
  by_cases h3 : c = '\''
  · exact .inr (.inr (.inl ⟨h3, by rw [h3]; rfl⟩))
  by_cases h4 : c = '"'
  · exact .inr (.inr (.inr (.inl ⟨h4, by rw [h4]; rfl⟩)))
  by_cases h5 : c = '+'
  · exact .inr (.inr (.inr (.inr (.inl ⟨h5, by rw [h5]; rfl⟩))))
  · refine .inr (.inr (.inr (.inr (.inr ⟨h5, ?_⟩))))
    simp only [escapeSpecialChars, replaceAll, List.flatMap_singleton, if_neg h1, if_neg h2, if_neg h3,
      if_neg h4, if_neg h5]

theorem htmlNewlines_escapeSpecialChars (t : Text) :
    htmlNewlines (escapeSpecialChars t) = escapeSpecialChars (htmlNewlines t) := by
  rw [escapeSpecialChars_eq, escapeSpecialChars_eq (htmlNewlines t)]
  refine htmlNewlines_flatMap rfl rfl (fun c hr hn => ?_) t
  obtain ⟨-, h⟩ | ⟨-, h⟩ | ⟨-, h⟩ | ⟨-, h⟩ | ⟨-, h⟩ | ⟨-, h⟩ := escapeSpecialChars_cases c <;> rw [h]
  iterate 5 exact ⟨by decide, by decide, by decide⟩
  exact ⟨List.cons_ne_nil _ _, by simpa using hr.symm, by simpa using hn.symm⟩

/-- The characters of a reference are skipped. -/
theorem unescape_skip (reference : Text → Option (Text × Nat)) (w t : Text) :
    unescape reference w.length (w ++ t) = unescape reference 0 t := by
  induction w with
  | nil => rfl
  | cons c w ih => exact ih

/-- What comes back for a character that is not an ampersand. -/
def readBack (c : Char) : Char := if c = '+' then ' ' else if c = '\x00' then '\uFFFD' else c

theorem unescape_reference {reference : Text → Option (Text × Nat)} {w : Text} {c : Char} (t : Text)
    (h : reference (w ++ t) = some ([c], w.length)) :
    unescape reference 0 ('&' :: w ++ t) = c :: unescape reference 0 t := by
  rw [List.cons_append, unescape, if_pos rfl, h]
  exact congrArg (c :: ·) (unescape_skip reference w t)

theorem unescape_escapeSpecialChars (B : Browser) {c : Char} (hc : c ≠ '&') (t : Text) :
    unescape B.reference 0 (escapeSpecialChars [c] ++ t) = readBack c :: unescape B.reference 0 t := by
  obtain ⟨rfl, h⟩ | ⟨rfl, h⟩ | ⟨rfl, h⟩ | ⟨rfl, h⟩ | ⟨rfl, h⟩ | ⟨hplus, h⟩ := escapeSpecialChars_cases c <;>
    rw [h]
  · exact unescape_reference t (B.reference_lt t)
  · exact unescape_reference t (B.reference_gt t)
  · exact unescape_reference t (B.reference_apos t)
  · exact unescape_reference t (B.reference_quot t)
  · rfl
  · rw [List.singleton_append, unescape, if_neg hc, readBack, if_neg hplus]

/-- **Without an ampersand** the characters come back one by one. -/
theorem hiddenInput_eq (B : Browser) {value : Text} (h : '&' ∉ value) :
    hiddenInput B value = (htmlNewlines value).map readBack := by
  rw [hiddenInput, htmlNewlines_escapeSpecialChars]
  have hamp : '&' ∉ htmlNewlines value := by rwa [mem_htmlNewlines (by decide)]
  generalize htmlNewlines value = t at hamp
  induction t with
  | nil => rfl
  | cons c t ih =>
    rw [List.mem_cons, not_or] at hamp
    rw [← List.singleton_append, escapeSpecialChars_append,
      unescape_escapeSpecialChars B (Ne.symm hamp.1), ih hamp.2]
    rfl

/-! ### The query -/

theorem initLoop_append (vals vals' : List Text) :
    initLoop (vals ++ vals') = (initLoop vals).bind fun hs => (initLoop vals').map (hs ++ ·) := by
  induction vals with
  | nil => simp [initLoop]
  | cons part vals ih =>
    simp only [List.cons_append, initLoop, ih, Option.map_eq_bind, Option.bind_assoc]
    refine Option.bind_congr fun html _ => Option.bind_congr fun hs _ => ?_
    simp

theorem decodedSearch_ne_nil {es : List (Text × Text)} (hes : es ≠ []) : decodedSearch es ≠ [] := by
  obtain ⟨e, es, rfl⟩ := List.exists_cons_of_ne_nil hes
  rw [decodedSearch, List.map_cons]
  cases es with
  | nil => simp [decodedEntry]
  | cons e' es => simp [decodedEntry, List.intercalate_cons_cons]

/-- The query is taken apart entry by entry. -/
theorem splitOn_decodedSearch {es : List (Text × Text)} (hes : es ≠ []) :
    (decodedSearch es).splitOn '&' = es.flatMap fun e => (decodedEntry e).splitOn '&' := by
  rw [decodedSearch, Delimited.splitOn_intercalate_flatMap (by simpa using hes), List.flatMap_map]

theorem init_decodedSearch (es : List (Text × Text)) :
    init (decodedSearch es) = initLoop (es.flatMap fun e => (decodedEntry e).splitOn '&') := by
  cases es with
  | nil => rfl
  | cons e es =>
    have hne : e :: es ≠ [] := List.cons_ne_nil e es
    rw [init, if_neg (decodedSearch_ne_nil hne), splitOn_decodedSearch hne]

/-- A part has a name and, up to the next equals sign, a value. -/
theorem initPart_term (k : Kind) {value w : Text} {ws : List Text} (h : value.splitOn '=' = w :: ws) :
    initPart (k.inputName ++ '=' :: value) = (w.splitOn ':')[1]?.map fun text =>
      ⟨[propHtml k w ((w.splitOn ':').headD []) text], none⟩ := by
  have hkv : (k.inputName ++ '=' :: value).splitOn '=' = k.inputName :: w :: ws := by
    rw [List.splitOn_append_cons_self_of_not_mem (by cases k <;> decide), h]
  cases k with
  | inc => simp [initPart, hkv]
  | exc =>
    have hne : Kind.exc.inputName ≠ Kind.inc.inputName := by decide
    simp [initPart, hkv, hne]

/-- Other parts add nothing, and one of them sets the select. -/
theorem initPart_other {name : Text} (hname : '=' ∉ name) (hk : ∀ k : Kind, name ≠ k.inputName)
    {value w : Text} {ws : List Text} (h : value.splitOn '=' = w :: ws) :
    initPart (name ++ '=' :: value) =
      some ⟨[], if name = "property".toList then some ((w.splitOn ':').headD []) else none⟩ := by
  have hkv : (name ++ '=' :: value).splitOn '=' = name :: w :: ws := by
    rw [List.splitOn_append_cons_self_of_not_mem hname, h]
  simp only [initPart, hkv, List.getElem?_cons_succ, List.getElem?_cons_zero, Option.bind_some,
    List.headD_cons, if_neg (hk _)]
  split <;> rfl

end VisControls
end Curarium
