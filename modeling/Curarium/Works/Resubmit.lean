import Curarium.Works.VisControls

/-!
# Filter terms, submitted and read back

The terms of the filter are in a form with other controls before and after them. The server splits what
it is sent at the colons, and the page that it answers with has the terms in its address.

* `Survives` — the server has the names and values of the terms, and the inputs are built as they were.
* `Term.Plain` is what the two coders leave alone: none of the characters that the address is taken
  apart at, no second colon, nothing that `escapeSpecialChars` or HTML writes otherwise.
* `survives_iff` — the terms survive exactly if they are plain. `propHtml` writes a name into the page as
  it is, so this is said of names in which no `<` opens markup.

What comes back is only ever a piece of the address. A piece has no delimiter in it, so a term with one
is not read back as it was (`reread_clean`), whatever the rest of the address makes of the page.
-/

namespace Curarium
namespace VisControls

open WorksIndex

/-- A term of the filter. -/
structure Term where
  kind : Kind
  name : Text
  value : Text
  name_ne : name ≠ []
  name_colon : ':' ∉ name
  value_ne : value ≠ []
deriving DecidableEq

/-- `sel+":"+val` -/
def Term.text (t : Term) : Text := t.name ++ ':' :: t.value

/-- What a click on a button writes. -/
def Term.prop (t : Term) : PropHtml := propHtml t.kind t.text t.name t.value

/-- The names and values that the form is submitted with: what stands before the terms, the inputs of
the terms, and what stands after them. -/
def entries (B : Browser) (before after : List (Text × Text)) (terms : List Term) : List (Text × Text) :=
  before ++ (B.inputs (terms.map Term.prop)).map (fun i => (i.1, formNewlines i.2)) ++ after

/-- `params[:include]` and `params[:exclude]` -/
def params (entries : List (Text × Text)) (k : Kind) : List Text :=
  entries.filterMap fun e => if e.1 = k.inputName then some e.2 else none

/-- **The terms survive**: the server splits them into their names and values, and the script writes
the inputs as they were. -/
def Survives (B : Browser) (before after : List (Text × Text)) (terms : List Term) : Prop :=
  (∀ k, (params (entries B before after terms) k).map term =
    (terms.filter fun t => t.kind = k).map fun t => some (t.name, t.value)) ∧
  (init (decodedSearch (entries B before after terms))).map B.inputs =
    some (B.inputs (terms.map Term.prop))

/-- The other controls of the form have names of their own, and nothing in them that the query is taken
apart at. -/
structure Control (e : Text × Text) : Prop where
  name : ∀ k : Kind, e.1 ≠ k.inputName
  eq : '=' ∉ e.1
  amp : '&' ∉ e.1 ∧ '&' ∉ e.2

/-- The term has none of the characters that one of the coders loses. -/
structure Term.Plain (t : Term) : Prop where
  amp : '&' ∉ t.text
  eq : '=' ∉ t.text
  plus : '+' ∉ t.text
  nul : '\x00' ∉ t.text
  colon : ':' ∉ t.value
  /-- Line breaks stand as CR LF. -/
  newlines : formNewlines (htmlNewlines t.text) = t.text

/-! ### Characters of the address -/

theorem plus_eq_of_notMem {t : Text} (h : ' ' ∉ t) : plus t = t := by
  refine (List.map_congr_left fun c hc => if_neg ?_).trans (List.map_id t)
  rintro rfl
  exact h hc

theorem mem_plus {c : Char} (hchar : c ≠ ' ' ∧ c ≠ '+') (t : Text) : c ∈ plus t ↔ c ∈ t := by
  rw [plus, List.mem_map]
  constructor
  · rintro ⟨d, hd, rfl⟩
    by_cases hspace : d = ' '
    · rw [if_pos hspace] at hchar
      exact absurd rfl hchar.2
    · rwa [if_neg hspace]
  · exact fun hc => ⟨c, hc, if_neg hchar.1⟩

/-- What is written as a name is read as that name. -/
theorem plus_eq_iff {n t : Text} (hs : ' ' ∉ n) (hp : '+' ∉ n) : plus t = n ↔ t = n := by
  constructor
  · rintro rfl
    refine (plus_eq_of_notMem fun h => hp ?_).symm
    exact List.mem_map.mpr ⟨' ', h, rfl⟩
  · rintro rfl
    exact plus_eq_of_notMem hs

/-- Blanks make no markup, and plus signs do not either. -/
theorem inert_plus (t : Text) : Html.inert (plus t) = Html.inert t := by
  refine Html.inert_map (fun c => ?_) t
  by_cases hc : c = ' '
  · rw [if_pos hc, hc]
    exact .inr (by decide)
  · exact .inl (if_neg hc)

theorem splitOn_plus (t : Text) : (plus t).splitOn ':' = (t.splitOn ':').map plus := by
  refine Delimited.splitOn_map (fun c => ?_) t
  by_cases hc : c = ' '
  · rw [if_pos hc, hc]
    decide
  · rw [if_neg hc]

theorem htmlNewlines_plus (t : Text) : htmlNewlines (plus t) = plus (htmlNewlines t) := by
  rw [plus, plus, List.map_eq_flatMap, List.map_eq_flatMap]
  refine htmlNewlines_flatMap rfl rfl (fun c hr hn => ?_) t
  by_cases hc : c = ' '
  · rw [if_pos hc]
    decide
  · rw [if_neg hc]
    exact ⟨List.cons_ne_nil _ _, by simpa using hr.symm, by simpa using hn.symm⟩

theorem readBack_eq {c : Char} (hp : c ≠ '+') (hz : c ≠ '\x00') : readBack c = c := by
  rw [readBack, if_neg hp, if_neg hz]

theorem map_readBack {t : Text} (hp : '+' ∉ t) (hz : '\x00' ∉ t) : t.map readBack = t :=
  (List.map_congr_left fun _ hc => readBack_eq (ne_of_mem_of_not_mem hc hp)
    (ne_of_mem_of_not_mem hc hz)).trans (List.map_id t)

/-- A plus that stands for a space is read as one. -/
theorem map_readBack_plus {t : Text} (hp : '+' ∉ t) (hz : '\x00' ∉ t) : (plus t).map readBack = t := by
  rw [plus, List.map_map]
  refine (List.map_congr_left fun c hc => ?_).trans (List.map_id t)
  show readBack (if c = ' ' then '+' else c) = c
  by_cases hs : c = ' '
  · rw [if_pos hs, hs]
    rfl
  · rw [if_neg hs]
    exact readBack_eq (ne_of_mem_of_not_mem hc hp) (ne_of_mem_of_not_mem hc hz)

/-! ### One entry of the query -/

theorem Kind.plus_inputName (k : Kind) : VisControls.plus k.inputName = k.inputName := by
  cases k <;> decide

/-- The parts of a query that come from one entry. -/
def entryParts (e : Text × Text) : List Text := (decodedEntry e).splitOn '&'

theorem initLoop_control {e : Text × Text} (he : Control e) : initLoop (entryParts e) = some [] := by
  have hamp : '&' ∉ decodedEntry e := by
    rw [decodedEntry, List.mem_append, List.mem_cons, mem_plus (by decide),
      mem_plus (by decide)]
    rintro (h | h | h)
    · exact he.amp.1 h
    · cases h
    · exact he.amp.2 h
  have heq : '=' ∉ plus e.1 := by
    rw [mem_plus (by decide)]
    exact he.eq
  -- the name of the entry is none of a term, with blanks for its plus signs or not
  have hname : ∀ k : Kind, plus e.1 ≠ k.inputName := fun k h =>
    he.name k ((plus_eq_iff (by cases k <;> decide) (by cases k <;> decide)).mp h)
  obtain ⟨w, ws, hw⟩ := Delimited.exists_splitOn_cons (x := '=') (plus e.2)
  rw [entryParts, List.splitOn_eq_singleton hamp, decodedEntry, initLoop,
    initPart_other heq hname hw, Option.bind_some]
  rfl

theorem initLoop_controls {es : List (Text × Text)} (hes : ∀ e ∈ es, Control e) :
    initLoop (es.flatMap entryParts) = some [] := by
  induction es with
  | nil => rfl
  | cons e es ih =>
    rw [List.forall_mem_cons] at hes
    rw [List.flatMap_cons, initLoop_append, initLoop_control hes.1, ih hes.2]
    rfl

/-- What the select is set to for a value of the form: the piece of it up to a delimiter. -/
def setTo (property : Text) : Text :=
  (((plus property).splitOn '=').headD [] |>.splitOn ':').headD []

/-- Without delimiters it is the value. -/
theorem setTo_eq {property : Text} (heq : '=' ∉ property) (hcolon : ':' ∉ property) :
    setTo property = plus property := by
  have heq' : '=' ∉ plus property := by rwa [mem_plus (by decide)]
  have hcolon' : ':' ∉ plus property := by rwa [mem_plus (by decide)]
  rw [setTo, List.splitOn_eq_singleton heq', List.headD_cons, List.splitOn_eq_singleton hcolon', List.headD_cons]

/-- Where nothing raises, the loop goes on to the rest of the query. -/
theorem initProperties_append {vals : List Text} (h : (initLoop vals).isSome = true) (vals' : List Text) :
    initProperties (vals ++ vals') = initProperties vals ++ initProperties vals' := by
  induction vals with
  | nil => rfl
  | cons part vals ih =>
    rw [initLoop] at h
    rw [List.cons_append, initProperties, initProperties]
    cases hpart : initPart part with
    | none =>
      rw [hpart] at h
      cases h
    | some p =>
      rw [hpart, Option.bind_some, Option.isSome_map] at h
      dsimp only
      rw [ih h, List.append_assoc]

/-- **What the form selects.** The select is set to a piece of the property that the form was submitted
with, if there is nothing after it that sets it again. A blank in it has become a plus. -/
theorem propertyVal_form {options : List Text} {before after : List (Text × Text)} {property : Text}
    (hbefore : ∀ e ∈ before, Control e) (hafter : initProperties (after.flatMap entryParts) = [])
    (hamp : '&' ∉ property) :
    propertyVal options (decodedSearch (before ++ ("property".toList, property) :: after)) =
      if options.contains (setTo property) then some (setTo property) else none := by
  have hne : before ++ ("property".toList, property) :: after ≠ [] :=
    List.append_ne_nil_of_right_ne_nil _ (List.cons_ne_nil _ _)
  have hdecoded : decodedEntry ("property".toList, property) = "property".toList ++ '=' :: plus property :=
    congrArg (· ++ '=' :: plus property) (plus_eq_of_notMem (t := "property".toList) (by decide))
  have hamp' : '&' ∉ "property".toList ++ '=' :: plus property := by
    rw [List.mem_append, List.mem_cons, mem_plus (by decide)]
    rintro (h | h | h)
    · exact absurd h (by decide)
    · cases h
    · exact hamp h
  have hentry : entryParts ("property".toList, property) = ["property".toList ++ '=' :: plus property] := by
    rw [entryParts, hdecoded, List.splitOn_eq_singleton hamp']
  obtain ⟨w, ws, hw⟩ := Delimited.exists_splitOn_cons (x := '=') (plus property)
  have hpart : initPart ("property".toList ++ '=' :: plus property) = some ⟨[], some (setTo property)⟩ := by
    rw [initPart_other (by decide) (fun k => by cases k <;> decide) hw, if_pos rfl, setTo, hw, List.headD_cons]
  have hloop : (initLoop (before.flatMap entryParts)).isSome = true := by
    rw [initLoop_controls hbefore]
    rfl
  have hparts : (decodedSearch (before ++ ("property".toList, property) :: after)).splitOn '&' =
      before.flatMap entryParts ++ ("property".toList ++ '=' :: plus property) :: after.flatMap entryParts := by
    rw [splitOn_decodedSearch hne, List.flatMap_append, List.flatMap_cons, ← List.singleton_append, ← hentry]
    rfl
  -- what comes last is what is selected
  rw [propertyVal, if_neg (decodedSearch_ne_nil hne), hparts, initProperties_append hloop, initProperties, hpart,
    List.foldl_append]
  dsimp only
  rw [hafter]
  rfl

/-- What an entry of a term begins with. -/
theorem entryParts_term (k : Kind) (y : Text) :
    entryParts (k.inputName, y) = ((plus y).splitOn '&').modifyHead (k.inputName ++ '=' :: ·) := by
  have hname : '&' ∉ k.inputName ++ ['='] := by cases k <;> decide
  calc
    entryParts (k.inputName, y) = ((k.inputName ++ ['=']) ++ plus y).splitOn '&' := by
      rw [entryParts, decodedEntry, k.plus_inputName, List.append_assoc, List.singleton_append]
    _ = ((plus y).splitOn '&').modifyHead ((k.inputName ++ ['=']) ++ ·) :=
      Delimited.splitOn_append_of_notMem hname _
    _ = ((plus y).splitOn '&').modifyHead (k.inputName ++ '=' :: ·) := by
      congr 1
      ext w : 1
      rw [List.append_assoc, List.singleton_append]

/-- **What is read back first** from the entry of a term is a value without delimiters. -/
theorem initLoop_term_first {k : Kind} {y : Text} {hs : List PropHtml}
    (h : initLoop (entryParts (k.inputName, y)) = some hs) :
    ∃ q name text rest, hs = propHtml k q name text :: rest ∧ '&' ∉ q ∧ '=' ∉ q := by
  obtain ⟨u, us, hu⟩ := Delimited.exists_splitOn_cons (x := '&') (plus y)
  obtain ⟨q, qs, hq⟩ := Delimited.exists_splitOn_cons (x := '=') u
  rw [entryParts_term, hu, List.modifyHead_cons, initLoop, initPart_term k hq] at h
  simp only [Option.bind_eq_some_iff, Option.map_eq_some_iff] at h
  obtain ⟨_, ⟨text, -, rfl⟩, rest, -, rfl⟩ := h
  have hqu : q ∈ u.splitOn '=' := hq ▸ List.mem_cons_self
  refine ⟨q, _, text, rest, rfl, fun hamp => ?_, Delimited.notMem_of_mem_splitOn hqu⟩
  exact Delimited.notMem_of_mem_splitOn (hu ▸ List.mem_cons_self : u ∈ (plus y).splitOn '&')
    (Delimited.mem_of_mem_splitOn hqu hamp)

/-- An entry without delimiters is read back as a whole. -/
theorem initLoop_term {k : Kind} {y p v : Text} {vs : List Text} (hamp : '&' ∉ y) (heq : '=' ∉ y)
    (hsplit : y.splitOn ':' = p :: v :: vs) :
    initLoop (entryParts (k.inputName, y)) = some [propHtml k (plus y) (plus p) (plus v)] := by
  have hamp' : '&' ∉ plus y := by rwa [mem_plus (by decide)]
  have heq' : '=' ∉ plus y := by rwa [mem_plus (by decide)]
  rw [entryParts_term, List.splitOn_eq_singleton hamp', List.modifyHead_cons, initLoop,
    initPart_term k (List.splitOn_eq_singleton heq'), splitOn_plus, hsplit]
  rfl

/-- **A value without delimiters** has none of them in its input, nor a plus. -/
theorem reread_clean (B : Browser) {q : Text} (hamp : '&' ∉ q) (heq : '=' ∉ q) :
    '&' ∉ hiddenInput B q ∧ '=' ∉ hiddenInput B q ∧ '+' ∉ hiddenInput B q := by
  rw [hiddenInput_eq B hamp]
  -- the input has characters of the value, blanks for its plus signs and replacement characters
  have hmem : ∀ c, c ≠ ' ' ∧ c ≠ '\uFFFD' → c ∈ (htmlNewlines q).map readBack →
      c ≠ '+' ∧ c ∈ htmlNewlines q := by
    rintro c ⟨hspace, hrep⟩ hc
    obtain ⟨d, hd, rfl⟩ := List.mem_map.mp hc
    unfold readBack at *
    split_ifs at * with h1 h2
    · exact absurd rfl hspace
    · exact absurd rfl hrep
    · exact ⟨h1, hd⟩
  refine ⟨fun h => hamp ?_, fun h => heq ?_, fun h => (hmem '+' (by decide) h).1 rfl⟩
  · exact (mem_htmlNewlines (by decide) q).mp (hmem '&' (by decide) h).2
  · exact (mem_htmlNewlines (by decide) q).mp (hmem '=' (by decide) h).2

/-! ### The server -/

/-- The first two pieces are what the server takes for the name and the value. -/
theorem splitOn_of_term {p a b : Text} (h : term p = some (a, b)) :
    ∃ rest, p.splitOn ':' = a :: b :: rest := by
  rw [term, Option.map_eq_some_iff] at h
  obtain ⟨value, hvalue, hpair⟩ := h
  obtain ⟨rest, hrest⟩ : Ruby.split ':' p <+: p.splitOn ':' := List.rdropWhile_prefix _ _
  -- `split` only drops empty pieces at the end, and there are two before them
  cases hs : Ruby.split ':' p with
  | nil =>
    rw [hs] at hvalue
    cases hvalue
  | cons x xs =>
    rw [hs] at hvalue hpair hrest
    cases xs with
    | nil => cases hvalue
    | cons y ys =>
      cases hvalue
      cases hpair
      exact ⟨ys ++ rest, hrest.symm⟩

section RoundTrip

variable (B : Browser)

/-- The value that is sent for a term. -/
def Term.sent (t : Term) : Text := formNewlines (hiddenInput B t.text)

variable {before after : List (Text × Text)} {terms : List Term}

theorem propHtml_input (k : Kind) (value propName text : Text) :
    (propHtml k value propName text).input B.reference = (k.inputName, hiddenInput B value) := rfl

theorem inputs_terms (hmarkup : ∀ t ∈ terms, Html.inert t.name = true) :
    B.inputs (terms.map Term.prop) = terms.map fun t => (t.kind.inputName, hiddenInput B t.text) := by
  rw [B.inputs_of_inert _ (List.forall_mem_map.mpr hmarkup), List.map_map]
  rfl

theorem entries_eq (hmarkup : ∀ t ∈ terms, Html.inert t.name = true) :
    entries B before after terms =
      before ++ terms.map (fun t => (t.kind.inputName, t.sent B)) ++ after := by
  rw [entries, inputs_terms B hmarkup, List.map_map]
  rfl

theorem params_nil (k : Kind) : params [] k = [] := rfl

theorem params_append (es es' : List (Text × Text)) (k : Kind) :
    params (es ++ es') k = params es k ++ params es' k := List.filterMap_append

theorem params_cons_of_eq {e : Text × Text} {k : Kind} (h : e.1 = k.inputName)
    (es : List (Text × Text)) : params (e :: es) k = e.2 :: params es k :=
  List.filterMap_cons_some (if_pos h)

theorem params_cons_of_ne {e : Text × Text} {k : Kind} (h : e.1 ≠ k.inputName)
    (es : List (Text × Text)) : params (e :: es) k = params es k :=
  List.filterMap_cons_none (if_neg h)

theorem params_controls {es : List (Text × Text)} (hes : ∀ e ∈ es, Control e) (k : Kind) :
    params es k = [] := by
  rw [params, List.filterMap_eq_nil_iff]
  exact fun e he => if_neg ((hes e he).name k)

theorem Kind.inputName_inj {k k' : Kind} : k.inputName = k'.inputName ↔ k = k' := by
  cases k <;> cases k' <;> decide

theorem params_terms (terms : List Term) (k : Kind) :
    params (terms.map fun t => (t.kind.inputName, t.sent B)) k =
      (terms.filter fun t => t.kind = k).map (Term.sent B) := by
  induction terms with
  | nil => rfl
  | cons t terms ih =>
    by_cases hk : t.kind = k
    · rw [List.filter_cons_of_pos (p := fun t : Term => decide (t.kind = k)) (decide_eq_true hk),
        List.map_cons, List.map_cons, params_cons_of_eq (congrArg Kind.inputName hk), ih]
    · rw [List.filter_cons_of_neg (p := fun t : Term => decide (t.kind = k)) (by simpa using hk),
        List.map_cons, params_cons_of_ne (mt Kind.inputName_inj.mp hk), ih]

/-- **What the server recovers** is told term by term. -/
theorem params_iff (hmarkup : ∀ t ∈ terms, Html.inert t.name = true) (hbefore : ∀ e ∈ before, Control e)
    (hafter : ∀ e ∈ after, Control e) :
    (∀ k, (params (entries B before after terms) k).map term =
      (terms.filter fun t => t.kind = k).map fun t => some (t.name, t.value)) ↔
    ∀ t ∈ terms, term (t.sent B) = some (t.name, t.value) := by
  -- the other controls of the form send nothing under these names
  have hparams : ∀ k, params (entries B before after terms) k =
      (terms.filter fun t => t.kind = k).map (Term.sent B) := by
    intro k
    calc
      params (entries B before after terms) k
        = params before k ++ params (terms.map fun t => (t.kind.inputName, t.sent B)) k ++
            params after k := by
          rw [entries_eq B hmarkup, params_append, params_append]
      _ = (terms.filter fun t => t.kind = k).map (Term.sent B) := by
          rw [params_controls hbefore, params_controls hafter, params_terms, List.nil_append,
            List.append_nil]
  constructor
  · intro h t ht
    have hmem : t ∈ terms.filter fun u => u.kind = t.kind := List.mem_filter.mpr ⟨ht, by simp⟩
    have hk := h t.kind
    rw [hparams, List.map_map, Function.comp_def, List.map_inj_left] at hk
    exact hk t hmem
  · intro h k
    rw [hparams, List.map_map, Function.comp_def, List.map_inj_left]
    exact fun t ht => h t (List.mem_of_mem_filter ht)

/-! ### The script -/

/-- What the script reads is what it reads from the entries of the terms. -/
theorem init_entries (hmarkup : ∀ t ∈ terms, Html.inert t.name = true) (hbefore : ∀ e ∈ before, Control e)
    (hafter : ∀ e ∈ after, Control e) :
    init (decodedSearch (entries B before after terms)) =
      initLoop (terms.flatMap fun t => entryParts (t.kind.inputName, t.sent B)) := by
  calc
    init (decodedSearch (entries B before after terms))
      = initLoop ((entries B before after terms).flatMap entryParts) := init_decodedSearch _
    _ = initLoop ((terms.map fun t => (t.kind.inputName, t.sent B)).flatMap entryParts) := by
      rw [entries_eq B hmarkup, List.flatMap_append, List.flatMap_append, initLoop_append,
        initLoop_append, initLoop_controls hbefore, initLoop_controls hafter]
      simp
    _ = initLoop (terms.flatMap fun t => entryParts (t.kind.inputName, t.sent B)) := by
      rw [List.flatMap_map]

/-- Without the characters that are written otherwise, only line breaks change. -/
theorem hiddenInput_plain {value : Text} (hamp : '&' ∉ value) (hplus : '+' ∉ value)
    (hnul : '\x00' ∉ value) : hiddenInput B value = htmlNewlines value := by
  rw [hiddenInput_eq B hamp]
  refine map_readBack ?_ ?_
  · rwa [mem_htmlNewlines (by decide)]
  · rwa [mem_htmlNewlines (by decide)]

/-- A term is sent as it is if it is plain. -/
theorem Term.Plain.sent_eq {t : Term} (ht : t.Plain) : t.sent B = t.text := by
  rw [Term.sent, hiddenInput_plain B ht.amp ht.plus ht.nul, ht.newlines]

theorem Term.Plain.splitOn_text {t : Term} (ht : t.Plain) : t.text.splitOn ':' = [t.name, t.value] := by
  rw [Term.text, List.splitOn_append_cons_self_of_not_mem t.name_colon,
    List.splitOn_eq_singleton ht.colon]

theorem Term.Plain.term_sent {t : Term} (ht : t.Plain) : term (t.sent B) = some (t.name, t.value) := by
  have hv : t.value.isEmpty = false := by simpa using t.value_ne
  have hsplit : Ruby.split ':' t.text = [t.name, t.value] := by
    rw [Ruby.split, ht.splitOn_text]
    simp [List.rdropWhile, hv]
  rw [ht.sent_eq B, term, hsplit]
  rfl

/-- What the script writes for a term that is read back as a whole. -/
def Term.reread (t : Term) : PropHtml := propHtml t.kind (plus (t.sent B)) (plus t.name) (plus t.value)

/-- The input is the one that was there. -/
theorem Term.Plain.reread_input {t : Term} (ht : t.Plain) :
    (t.reread B).input B.reference = (t.kind.inputName, hiddenInput B t.text) := by
  have hamp : '&' ∉ VisControls.plus t.text := by
    rw [mem_plus (by decide)]
    exact ht.amp
  rw [Term.reread, propHtml_input, ht.sent_eq B]
  refine congrArg (Prod.mk _) ?_
  calc
    hiddenInput B (VisControls.plus t.text)
      = (htmlNewlines (VisControls.plus t.text)).map readBack := VisControls.hiddenInput_eq B hamp
    _ = (VisControls.plus (htmlNewlines t.text)).map readBack := by rw [htmlNewlines_plus]
    _ = htmlNewlines t.text := by
      refine map_readBack_plus ?_ ?_
      · rw [mem_htmlNewlines (by decide)]
        exact ht.plus
      · rw [mem_htmlNewlines (by decide)]
        exact ht.nul
    _ = hiddenInput B t.text := (hiddenInput_plain B ht.amp ht.plus ht.nul).symm

theorem initLoop_plain (hplain : ∀ t ∈ terms, t.Plain) :
    initLoop (terms.flatMap fun t => entryParts (t.kind.inputName, t.sent B)) =
      some (terms.map (Term.reread B)) := by
  induction terms with
  | nil => rfl
  | cons t terms ih =>
    rw [List.forall_mem_cons] at hplain
    obtain ⟨ht, hplain⟩ := hplain
    have ht' := ht.sent_eq B
    rw [List.flatMap_cons, initLoop_append,
      initLoop_term (ht' ▸ ht.amp) (ht' ▸ ht.eq) (ht' ▸ ht.splitOn_text), ih hplain]
    rfl

/-- **Plain terms survive.** -/
theorem survives_of_plain (hmarkup : ∀ t ∈ terms, Html.inert t.name = true) (hbefore : ∀ e ∈ before, Control e)
    (hafter : ∀ e ∈ after, Control e) (hplain : ∀ t ∈ terms, t.Plain) :
    Survives B before after terms := by
  refine ⟨(params_iff B hmarkup hbefore hafter).mpr fun t ht => (hplain t ht).term_sent B, ?_⟩
  have hnames : ∀ h ∈ terms.map (Term.reread B), Html.inert h.propName = true := by
    rw [List.forall_mem_map]
    intro t ht
    show Html.inert (plus t.name) = true
    rw [inert_plus]
    exact hmarkup t ht
  rw [init_entries B hmarkup hbefore hafter, initLoop_plain B hplain, Option.map_some,
    B.inputs_of_inert _ hnames, inputs_terms B hmarkup, List.map_map]
  exact congrArg some (List.map_congr_left fun t ht => (hplain t ht).reread_input B)

/-- **What is read back as it was** has no delimiter in it, and no plus. The terms are gone through in
their order: as long as they have been read back, the inputs of the page are the ones that are written. -/
theorem hiddenInput_clean {written rest : List PropHtml} (hmarkup : ∀ t ∈ terms, Html.inert t.name = true)
    (hserver : ∀ t ∈ terms, term (t.sent B) = some (t.name, t.value))
    (hwritten : ∀ h ∈ written, Html.inert h.propName = true)
    (hrest : initLoop (terms.flatMap fun t => entryParts (t.kind.inputName, t.sent B)) = some rest)
    (hinputs : B.inputs (written ++ rest) = written.map (PropHtml.input B.reference) ++
      terms.map fun t => (t.kind.inputName, hiddenInput B t.text)) :
    ∀ t ∈ terms,
      '&' ∉ hiddenInput B t.text ∧ '=' ∉ hiddenInput B t.text ∧ '+' ∉ hiddenInput B t.text := by
  induction terms generalizing written rest with
  | nil => exact fun t ht => absurd ht List.not_mem_nil
  | cons t terms ih =>
    rw [List.forall_mem_cons] at hmarkup hserver
    rw [List.flatMap_cons, initLoop_append] at hrest
    simp only [Option.bind_eq_some_iff, Option.map_eq_some_iff] at hrest
    obtain ⟨hs, hhs, rest', hrest', rfl⟩ := hrest
    obtain ⟨q, name, text, more, hfirst, hamp, heq⟩ := initLoop_term_first hhs
    -- the first input after those that were written is the one of this term
    have hq : hiddenInput B q = hiddenInput B t.text := by
      have hprefix := B.inputs_before written (propHtml t.kind q name text) (more ++ rest') hwritten
      rw [hfirst, List.cons_append] at hinputs
      rw [hinputs, List.map_append, List.prefix_append_right_inj, List.map_singleton, List.map_cons,
        List.cons_prefix_cons] at hprefix
      exact congrArg Prod.snd hprefix.1
    have hclean := reread_clean B hamp heq
    rw [hq] at hclean
    -- so it is read back as a whole, and its name is the name of the term
    obtain ⟨vs, hsplit⟩ := splitOn_of_term hserver.1
    have hwhole := initLoop_term (k := t.kind) (y := t.sent B)
      (mt (mem_formNewlines (by decide) _).mp hclean.1)
      (mt (mem_formNewlines (by decide) _).mp hclean.2.1) hsplit
    rw [hhs, Option.some_inj] at hwhole
    rw [hfirst] at hwhole
    obtain ⟨hhead, rfl⟩ := List.cons.inj hwhole
    have hinput : (propHtml t.kind q name text).input B.reference =
        (t.kind.inputName, hiddenInput B t.text) := by rw [propHtml_input, hq]
    rw [hhead] at hinput
    rw [hfirst, hhead] at hinputs
    have hwritten' : ∀ h ∈ written ++ [t.reread B], Html.inert h.propName = true := by
      intro h hmem
      rcases List.mem_append.mp hmem with hmem | hmem
      · exact hwritten h hmem
      · rw [List.mem_singleton.mp hmem]
        exact (inert_plus t.name).trans hmarkup.1
    have hinputs' : B.inputs ((written ++ [t.reread B]) ++ rest') =
        (written ++ [t.reread B]).map (PropHtml.input B.reference) ++
          terms.map fun t => (t.kind.inputName, hiddenInput B t.text) := by
      rw [List.append_assoc, List.map_append, List.append_assoc, List.map_singleton]
      exact hinput ▸ hinputs
    rw [List.forall_mem_cons]
    exact ⟨hclean, ih hmarkup.2 hserver.2 hwritten' hrest' hinputs'⟩

/-- What is in a term that the server recovers is in its input. -/
theorem mem_hiddenInput {t : Term} (hserver : term (t.sent B) = some (t.name, t.value)) {c : Char}
    (hc : (c ≠ '\r' ∧ c ≠ '\n') ∧ c ≠ ':') (htext : c ∈ t.text) : c ∈ hiddenInput B t.text := by
  obtain ⟨vs, hsplit⟩ := splitOn_of_term hserver
  refine (mem_formNewlines hc.1 _).mp ?_
  rcases List.mem_append.mp htext with h | h
  · exact Delimited.mem_of_mem_splitOn (hsplit ▸ List.mem_cons_self) h
  · have hvalue : c ∈ t.value := (List.mem_cons.mp h).resolve_left hc.2
    exact Delimited.mem_of_mem_splitOn (hsplit ▸ List.mem_cons_of_mem _ List.mem_cons_self) hvalue

theorem nul_notMem_hiddenInput {value : Text} (hamp : '&' ∉ value) : '\x00' ∉ hiddenInput B value := by
  rw [hiddenInput_eq B hamp, List.mem_map]
  rintro ⟨c, -, hc⟩
  unfold readBack at hc
  split_ifs at hc with h1 h2
  · cases hc
  · cases hc
  · exact h2 hc

/-- Where line breaks are all that changes, the first colon is the one between name and value. If the
term is recovered, then there is no other, and nothing has changed. -/
theorem newlines_of_splitOn {t : Term} {vs : List Text}
    (h : (formNewlines (htmlNewlines t.text)).splitOn ':' = t.name :: t.value :: vs) :
    ':' ∉ t.value ∧ formNewlines (htmlNewlines t.text) = t.text := by
  have hname : ':' ∉ formNewlines (htmlNewlines t.name) := by
    rw [mem_formNewlines (by decide), mem_htmlNewlines (by decide)]
    exact t.name_colon
  rw [Term.text, htmlNewlines_append_cons (by decide), formNewlines_append_cons (by decide)] at h ⊢
  rw [List.splitOn_append_cons_self_of_not_mem hname] at h
  obtain ⟨hname', hvalue⟩ := List.cons.inj h
  -- the value is one piece, so there is no colon in it
  have hcolon : ':' ∉ t.value := Delimited.notMem_of_mem_splitOn (hvalue ▸ List.mem_cons_self)
  have hvalue' : formNewlines (htmlNewlines t.value) = t.value := by
    rw [List.splitOn_eq_singleton] at hvalue
    · exact (List.cons.inj hvalue).1
    · rwa [mem_formNewlines (by decide), mem_htmlNewlines (by decide)]
  exact ⟨hcolon, by rw [hname', hvalue']⟩

/-- A term that the server recovers from an input without delimiters is plain. -/
theorem plain_of_clean {t : Term} (hserver : term (t.sent B) = some (t.name, t.value))
    (hclean : '&' ∉ hiddenInput B t.text ∧ '=' ∉ hiddenInput B t.text ∧ '+' ∉ hiddenInput B t.text) :
    t.Plain := by
  have hamp : '&' ∉ t.text := mt (mem_hiddenInput B hserver (by decide)) hclean.1
  have heq : '=' ∉ t.text := mt (mem_hiddenInput B hserver (by decide)) hclean.2.1
  have hplus : '+' ∉ t.text := mt (mem_hiddenInput B hserver (by decide)) hclean.2.2
  have hnul : '\x00' ∉ t.text :=
    mt (mem_hiddenInput B hserver (by decide)) (nul_notMem_hiddenInput B hamp)
  obtain ⟨vs, hsplit⟩ := splitOn_of_term hserver
  rw [Term.sent, hiddenInput_plain B hamp hplus hnul] at hsplit
  obtain ⟨hcolon, hnewlines⟩ := newlines_of_splitOn hsplit
  exact ⟨hamp, heq, hplus, hnul, hcolon, hnewlines⟩

/-- **Filter terms survive the round trip exactly if they are plain**, where no name has markup in it. -/
theorem survives_iff (hmarkup : ∀ t ∈ terms, Html.inert t.name = true) (hbefore : ∀ e ∈ before, Control e)
    (hafter : ∀ e ∈ after, Control e) :
    Survives B before after terms ↔ ∀ t ∈ terms, t.Plain := by
  constructor
  · rintro ⟨hparams, hinit⟩
    -- the server has every term, and the script only reads back inputs without delimiters
    have hserver := (params_iff B hmarkup hbefore hafter).mp hparams
    rw [init_entries B hmarkup hbefore hafter, inputs_terms B hmarkup, Option.map_eq_some_iff] at hinit
    obtain ⟨rest, hrest, hinputs⟩ := hinit
    have hclean := hiddenInput_clean B hmarkup hserver
      (fun _ h => absurd h List.not_mem_nil) hrest hinputs
    exact fun t ht => plain_of_clean B (hserver t ht) (hclean t ht)
  · exact survives_of_plain B hmarkup hbefore hafter

end RoundTrip

/-! ### A browser -/

/-- Five of the character references. -/
def fiveReferences : Text → Option (Text × Nat)
  | 'l' :: 't' :: ';' :: _ => some (['<'], 3)
  | 'g' :: 't' :: ';' :: _ => some (['>'], 3)
  | '#' :: '3' :: '9' :: ';' :: _ => some (['\''], 4)
  | 'q' :: 'u' :: 'o' :: 't' :: ';' :: _ => some (['"'], 5)
  | 'a' :: 'm' :: 'p' :: ';' :: _ => some (['&'], 4)
  | _ => none

/-- A browser that looks for nothing but the inputs. -/
def Browser.simple : Browser where
  reference := fiveReferences
  reference_lt _ := rfl
  reference_gt _ := rfl
  reference_apos _ := rfl
  reference_quot _ := rfl
  inputs := List.map (PropHtml.input fiveReferences)
  inputs_of_inert _ _ := rfl
  inputs_before hs h hs' _ := by
    rw [List.map_append, List.map_append, List.prefix_append_right_inj]
    exact List.prefix_iff_eq_take.mpr rfl
  find inputs value :=
    if value.all fun c => !selectorEscapes.contains c then some (inputs.count (Kind.inc.inputName, value)) else none
  find_eq _ _ h := if_pos (List.all_eq_true.mpr fun c hc => by simp [h c hc])

theorem survives_two :
    Survives .simple [("vis".toList, "list".toList)] [("per_page".toList, "200".toList)]
      [⟨.inc, "title".toList, "Mona Lisa".toList, by decide, by decide, by decide⟩,
        ⟨.exc, "artist".toList, "<unknown>".toList, by decide, by decide, by decide⟩] := by
  refine (survives_iff .simple ?_ ?_ ?_).mpr ?_
  · rw [List.forall_mem_cons, List.forall_mem_singleton]
    decide +kernel
  · rw [List.forall_mem_singleton]
    exact ⟨fun k => by cases k <;> decide, by decide, by decide⟩
  · rw [List.forall_mem_singleton]
    exact ⟨fun k => by cases k <;> decide, by decide, by decide⟩
  · rw [List.forall_mem_cons, List.forall_mem_singleton]
    exact ⟨⟨by decide, by decide, by decide, by decide, by decide, by decide +kernel⟩,
      ⟨by decide, by decide, by decide, by decide, by decide, by decide +kernel⟩⟩

/-- The page for a value with an ampersand is not set up at all: the part after it has no equals
sign. -/
theorem survives_not_ampersand :
    ¬ Survives .simple [("vis".toList, "list".toList)] []
      [⟨.inc, "genre".toList, "R&B".toList, by decide, by decide, by decide⟩] := by
  rintro ⟨-, hinit⟩
  revert hinit
  decide +kernel

end VisControls
end Curarium
