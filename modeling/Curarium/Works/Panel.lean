import Curarium.Html.Tokens
import Curarium.Works.VisControls

/-!
# What the filter panel inserts

`$.visControls.init` puts a piece of HTML into the page for every filter term of the address. Values and
texts are escaped for it, the names of the properties are not.

* `PropHtml.html` is the HTML, with a mark on what comes from the address; `html` is taken to parse it as
  it is.
* `panel_iff` — its markup is that of the template, with nothing from the address but the values of the
  inputs, exactly if no name of a property has a `<` that opens a tag, a comment or a declaration.
-/

namespace Curarium
namespace VisControls

open WorksIndex Html Transducer

/-! ### The template -/

/-- Where a character of the panel comes from. -/
inductive Origin where
  | script
  | user
deriving DecidableEq

def script (s : String) : Marked Origin := mark .script s.toList

def user (t : Text) : Marked Origin := mark .user t

/-- `alertType` -/
def Kind.alertType : Kind → String
  | .inc => "success"
  | .exc => "danger"

/-- The template, up to the value of the input. -/
def Kind.front (k : Kind) : Marked Origin :=
  script "<div class=\"alert alert-" ++ script k.alertType ++
    script "\"> <button type=\"button\" class=\"close\">&times;</button><input type=\"hidden\" name=\"" ++
    mark .script k.className ++ script "[]\" value=\""

/-- The HTML of a term. -/
def PropHtml.html (h : PropHtml) : Marked Origin :=
  h.kind.front ++ (user h.value ++ (script "\"><b>" ++ (user h.propName ++ (script "</b>: " ++
    (user h.text ++ script "</div>")))))

/-- A start tag with its attributes. -/
def startTag (name : String) (attrs : List (String × Marked Origin)) : Tag Origin where
  close := false
  name := script name
  attrs := attrs.map fun a => (script a.1, a.2)

def endTag (name : String) : Markup Origin := .tag ⟨true, script name, []⟩

/-- The input, without its value. -/
def Kind.inputTag (k : Kind) : Tag Origin :=
  startTag "input" [("type", script "hidden"), ("name", mark .script k.inputName)]

/-- The elements of the template. -/
def PropHtml.markup (h : PropHtml) : List (Markup Origin) :=
  [.tag (startTag "div" [("class", script ("alert alert-" ++ h.kind.alertType))]),
    .tag (startTag "button" [("type", script "button"), ("class", script "close")]), endTag "button",
    .tag (h.kind.inputTag.attr (script "value") (user h.value)), .tag (startTag "b" []),
    endTag "b", endTag "div"]

/-- What `init` inserts, from the address: `window.location.search.replace("?","")`, decoded. -/
def initPage (decodeURIComponent : Text → Option Text) (search : Text) : Option (List PropHtml) :=
  (decodeURIComponent (search.erase '?')).bind init

/-! ### Escaped texts -/

theorem notMem_escapeSpecialChars {c : Char} (hc : c = '<' ∨ c = '"') (t : Text) :
    c ∉ escapeSpecialChars t := by
  rw [escapeSpecialChars_eq, List.mem_flatMap]
  rintro ⟨d, -, hd⟩
  rcases hc with rfl | rfl
  · obtain ⟨rfl, h⟩ | ⟨rfl, h⟩ | ⟨rfl, h⟩ | ⟨rfl, h⟩ | ⟨rfl, h⟩ | ⟨-, h⟩ := escapeSpecialChars_cases d
    iterate 5 exact absurd (h ▸ hd) (by decide)
    -- what stays as it is is not what is replaced
    rw [h] at hd
    obtain rfl := List.mem_singleton.mp hd
    exact absurd h (by decide)
  · obtain ⟨rfl, h⟩ | ⟨rfl, h⟩ | ⟨rfl, h⟩ | ⟨rfl, h⟩ | ⟨rfl, h⟩ | ⟨-, h⟩ := escapeSpecialChars_cases d
    iterate 5 exact absurd (h ▸ hd) (by decide)
    rw [h] at hd
    obtain rfl := List.mem_singleton.mp hd
    exact absurd h (by decide)

/-- What the value and the text of a term may not have in them. -/
def PropHtml.Escaped (h : PropHtml) : Prop := '"' ∉ h.value ∧ '<' ∉ h.text

theorem escaped_propHtml (kind : Kind) (value propName text : Text) :
    (propHtml kind value propName text).Escaped :=
  ⟨notMem_escapeSpecialChars (.inr rfl) value, notMem_escapeSpecialChars (.inl rfl) text⟩

theorem escaped_of_initPart {part : Text} {p : Part} (h : initPart part = some p) :
    ∀ x ∈ p.html, x.Escaped := by
  obtain ⟨value, -, h⟩ := Option.bind_eq_some_iff.mp h
  have hprop : ∀ {kind : Kind} {p : Part}, ((value.splitOn ':')[1]?.map fun text =>
      (⟨[propHtml kind value ((value.splitOn ':').headD []) text], none⟩ : Part)) = some p →
        ∀ x ∈ p.html, x.Escaped := by
    intro kind p h x hx
    obtain ⟨text, -, rfl⟩ := Option.map_eq_some_iff.mp h
    obtain rfl := List.mem_singleton.mp hx
    exact escaped_propHtml _ _ _ _
  have hnone : ∀ {property : Option Text}, some (⟨[], property⟩ : Part) = some p → ∀ x ∈ p.html, x.Escaped := by
    intro property h x hx
    obtain rfl := Option.some.inj h
    exact absurd hx List.not_mem_nil
  dsimp only at h
  split at h
  · exact hprop h
  split at h
  · exact hprop h
  -- the other parts add no HTML
  split at h
  · exact hnone h
  · exact hnone h

theorem escaped_of_initLoop {vals : List Text} {hs : List PropHtml} (h : initLoop vals = some hs) :
    ∀ x ∈ hs, x.Escaped := by
  induction vals generalizing hs with
  | nil =>
    obtain rfl := Option.some.inj h
    exact fun x hx => absurd hx List.not_mem_nil
  | cons part vals ih =>
    obtain ⟨p, hp, h⟩ := Option.bind_eq_some_iff.mp h
    obtain ⟨rest, hrest, rfl⟩ := Option.map_eq_some_iff.mp h
    intro x hx
    rcases List.mem_append.mp hx with hx | hx
    · exact escaped_of_initPart hp x hx
    · exact ih hrest x hx

theorem escaped_of_init {search : Text} {hs : List PropHtml} (h : init search = some hs) :
    ∀ x ∈ hs, x.Escaped := by
  unfold init at h
  split at h
  · obtain rfl := Option.some.inj h
    exact fun x hx => absurd hx List.not_mem_nil
  · exact escaped_of_initLoop h

/-! ### The markup of a term -/

section Term

variable (raw : Marked Origin → Marked Origin → List (Markup Origin))

theorem feed_front (k : Kind) :
    feed step .data k.front =
      (.attrValue '"' k.inputTag (script "value") [],
        [.tag (startTag "div" [("class", script ("alert alert-" ++ k.alertType))]),
          .tag (startTag "button" [("type", script "button"), ("class", script "close")]), endTag "button"]) := by
  cases k <;> decide +kernel

theorem feed_bold (k : Kind) (value : Marked Origin) :
    feed step (.attrValue '"' k.inputTag (script "value") value) (script "\"><b>") =
      (.data, [.tag (k.inputTag.attr (script "value") value), .tag (startTag "b" [])]) := by
  cases k <;> rfl

theorem feed_end : feed step .data (script "</div>") = (.data, [endTag "div"]) := by decide +kernel

/-- After a `<` that is text, or is not there. -/
theorem feed_boldEnd : feed step .tagOpen (script "/b>: ") = (.data, [endTag "b"]) := by decide +kernel

theorem script_boldEnd : script "</b>: " = ('<', .script) :: script "/b>: " := rfl

/-- The beginning of a term. -/
theorem output_front {h : PropHtml} (hvalue : '"' ∉ h.value) (rest : Marked Origin) :
    output step (flush raw) .data (h.kind.front ++ (user h.value ++ (script "\"><b>" ++ rest))) =
      h.markup.take 5 ++ output step (flush raw) .data rest := by
  have hread : feed step (.attrValue '"' h.kind.inputTag (script "value") []) (user h.value) =
      (.attrValue '"' h.kind.inputTag (script "value") (user h.value), []) := feed_attrValue hvalue _ _ _
  rw [output_append_of_eq (feed_front h.kind), output_append_of_eq hread, List.nil_append,
    output_append_of_eq (feed_bold h.kind _)]
  rfl

theorem html_append (h : PropHtml) (rest : Marked Origin) :
    h.html ++ rest = h.kind.front ++ (user h.value ++ (script "\"><b>" ++ (user h.propName ++
      ('<', .script) :: (script "/b>: " ++ (user h.text ++ (script "</div>" ++ rest)))))) := by
  unfold PropHtml.html
  rw [script_boldEnd]
  simp only [List.append_assoc, List.cons_append]

/-- **A name without markup** in it: the term is that of the template. -/
theorem output_of_inert {h : PropHtml} (hescaped : h.Escaped) (hname : inert h.propName = true)
    (rest : Marked Origin) :
    output step (flush raw) .data (h.html ++ rest) = h.markup ++ output step (flush raw) .data rest := by
  obtain ⟨s, hs, hopen⟩ := feed_inert hname Origin.user
  have hname' : feed step .data (user h.propName) = (s, []) := hs
  have htext : feed step .data (user h.text) = (.data, []) := feed_data_of_notMem hescaped.2
  rw [html_append, output_front raw hescaped.1, output_append_of_eq hname', List.nil_append, output_cons,
    hopen, List.nil_append, output_append_of_eq feed_boldEnd, output_append_of_eq htext, List.nil_append,
    output_append_of_eq feed_end]
  rfl

/-- **A name with markup** in it: the end of the bold text is not the next markup. -/
theorem output_of_not_inert {h : PropHtml} (hescaped : h.Escaped) (hname : inert h.propName = false)
    (rest : Marked Origin) (ms : List (Markup Origin)) :
    output step (flush raw) .data (h.html ++ rest) ≠ h.markup ++ ms := by
  rw [html_append, output_front raw hescaped.1]
  intro heq
  have hnext : output step (flush raw) .data (mark .user h.propName ++
      ('<', .script) :: (script "/b>: " ++ (user h.text ++ (script "</div>" ++ rest)))) =
      endTag "b" :: endTag "div" :: ms := List.append_cancel_left heq
  have hfrom := output_not_inert raw hname Origin.user .script
    (script "/b>: " ++ (user h.text ++ (script "</div>" ++ rest)))
  rw [hnext] at hfrom
  -- but that one is from the script
  obtain ⟨c, hc⟩ := hfrom (endTag "b") rfl rfl
  exact absurd (Prod.mk.inj (Option.some.inj hc)).2 (by decide)

/-- **The panel has the markup of the template** exactly if no name of a property has any. -/
theorem markup_panel_iff {hs : List PropHtml} (hescaped : ∀ h ∈ hs, h.Escaped) :
    markup raw (hs.flatMap PropHtml.html) = hs.flatMap PropHtml.markup ↔ ∀ h ∈ hs, inert h.propName = true := by
  unfold markup
  induction hs with
  | nil => exact ⟨fun _ h hh => absurd hh List.not_mem_nil, fun _ => rfl⟩
  | cons h hs ih =>
    obtain ⟨hh, hhs⟩ := List.forall_mem_cons.mp hescaped
    rw [List.flatMap_cons, List.flatMap_cons, List.forall_mem_cons, ← ih hhs]
    cases hname : inert h.propName with
    | true =>
      rw [output_of_inert raw hh hname, List.append_cancel_left_eq]
      exact (and_iff_right rfl).symm
    | false =>
      constructor
      · exact fun heq => absurd heq (output_of_not_inert raw hh hname _ _)
      · exact fun hnot => absurd hnot.1 Bool.false_ne_true

end Term

/-- **The filter panel injects no markup** exactly if no name of a property in the address has a `<` that
opens a tag, a comment or a declaration. -/
theorem panel_iff (raw : Marked Origin → Marked Origin → List (Markup Origin))
    (decodeURIComponent : Text → Option Text) (search : Text) {hs : List PropHtml}
    (h : initPage decodeURIComponent search = some hs) :
    markup raw (hs.flatMap PropHtml.html) = hs.flatMap PropHtml.markup ↔ ∀ h ∈ hs, inert h.propName = true := by
  obtain ⟨decoded, -, h⟩ := Option.bind_eq_some_iff.mp h
  exact markup_panel_iff raw (escaped_of_init h)

/-- A term without markup: the panel is that of the template. -/
theorem panel_iff_plain :
    ∃ hs, initPage some "?include[]=artist:a<b".toList = some hs ∧
      markup (fun _ _ => []) (hs.flatMap PropHtml.html) = hs.flatMap PropHtml.markup := by
  have hinit : initPage some "?include[]=artist:a<b".toList =
      some [propHtml .inc "artist:a<b".toList "artist".toList "a<b".toList] := by decide +kernel
  refine ⟨_, hinit, (panel_iff (fun _ _ => []) some _ hinit).mpr ?_⟩
  exact List.forall_mem_singleton.mpr (by decide)

/-- A name with an element in it. -/
theorem panel_injected :
    ∃ hs, initPage some "?include[]=<img onerror>:b".toList = some hs ∧
      markup (fun _ _ => []) (hs.flatMap PropHtml.html) ≠ hs.flatMap PropHtml.markup := by
  have hinit : initPage some "?include[]=<img onerror>:b".toList =
      some [propHtml .inc "<img onerror>:b".toList "<img onerror>".toList "b".toList] := by decide +kernel
  refine ⟨_, hinit, ?_⟩
  rw [Ne, markup_panel_iff _ (by simpa using escaped_propHtml _ _ _ _)]
  exact fun h => absurd (h _ (List.mem_singleton_self _)) (by decide)

end VisControls
end Curarium
