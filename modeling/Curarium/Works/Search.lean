import Curarium.Collections.Originals
import Curarium.Works.Decode

/-!
# From the archive to the search

What the works index finds, in terms of the records that were uploaded. The works of an archive are created
with the texts of their records; jobs configure them, any number of times; and the index searches what the
last of them has stored.

* `infix_listText` — letters and digits are found in the text of a list exactly where they are found in one
  of its values.
* `property_configured` — the text that is searched is that of the list that the configuration extracts from
  the record.
* `search_finds` — so a search for plain terms finds the works whose records show every include, and have
  the field of every exclude and do not show it.

The values have to be numbers, and strings that `inspect` writes as they are: in the text of any other value
letters stand that are none of the value.
-/

namespace Curarium
namespace Search

open Work ConfigureWork Collections WorksIndex Treemap

/-! ### What is found in the text of a list -/

section Text

variable {v : Text} (hv : ∀ c ∈ marked, c ∉ v)

include hv

theorem infix_text_append (x : Item) {m : Char} (hm : m ∈ marked) (rest : Text) :
    v <:+: x.text ++ m :: rest ↔ v <:+: x.value ∨ v <:+: m :: rest := by
  have hquote : '"' ∉ v := hv _ (by decide)
  cases x with
  | bare t =>
    show v <:+: t ++ m :: rest ↔ _
    rw [Lists.infix_append_cons_iff (hv m hm), Lists.infix_cons_iff (hv m hm)]
    rfl
  | quoted t =>
    show v <:+: '"' :: (t ++ ['"']) ++ m :: rest ↔ _
    rw [List.cons_append, List.append_assoc, List.singleton_append, Lists.infix_cons_iff hquote,
      Lists.infix_append_cons_iff hquote]
    rfl

theorem infix_tailText (hne : v ≠ []) (xs : List Item) : v <:+: tailText xs ↔ ∃ x ∈ xs, v <:+: x.value := by
  have hclose : ¬v <:+: [']'] := by
    rw [Lists.infix_cons_iff (hv _ (by decide)), List.infix_nil]
    exact hne
  induction xs with
  | nil => simpa [tailText] using hclose
  | cons x xs ih =>
    obtain ⟨m, rest, hm, htail⟩ : ∃ m rest, m ∈ marked ∧ tailText xs = m :: rest := by
      cases xs with
      | nil => exact ⟨_, _, by decide, rfl⟩
      | cons y ys => exact ⟨_, _, by decide, rfl⟩
    rw [tailText, Lists.infix_cons_iff (hv _ (by decide)), Lists.infix_cons_iff (hv _ (by decide)), htail,
      infix_text_append hv x hm, ← htail]
    simp only [ih, List.mem_cons, exists_eq_or_imp]

/-- **Letters and digits** are found in the text of a list where they are found in a value of it. -/
theorem infix_listText (hne : v ≠ []) (xs : List Item) : v <:+: listText xs ↔ ∃ x ∈ xs, v <:+: x.value := by
  cases xs with
  | nil =>
    rw [listText, Lists.infix_cons_iff (hv _ (by decide)), Lists.infix_cons_iff (hv _ (by decide)),
      List.infix_nil]
    simpa using hne
  | cons x xs =>
    -- a comma and a space before the first value would change nothing
    have htail := infix_tailText hv hne (x :: xs)
    rw [tailText, Lists.infix_cons_iff (hv _ (by decide)), Lists.infix_cons_iff (hv _ (by decide))] at htail
    rw [listText, Lists.infix_cons_iff (hv _ (by decide)), htail]

end Text

/-! ### What a record shows -/

section Record

variable (printable : Char → Bool) (low : Char → Char)

/-- The values of a field that is searched, as a configuration extracts them from a document. -/
def fieldValues (c : Configuration) (document : Json) (name : Text) : Option (List Json) :=
  if String.ofList name ∈ extractedKeys then none else ((c.parse document).lookup (String.ofList name)).join

/-- A value of the field has the text of the term in it, but for case. -/
def Shows (c : Configuration) (document : Json) (t : FilterTerm) : Prop :=
  ∃ L, fieldValues c document t.name = some L ∧
    ∃ x ∈ L, Ruby.downcase t.value <:+: (x.toS printable).map low

/-- Numbers, and strings that are written as they are. -/
def Unescaped (L : List Json) : Prop :=
  ∃ xs : List Scalar, L = xs.map Scalar.json ∧
    ∀ s, Scalar.str s ∈ xs → inspectBody printable s.toList = s.toList

variable {printable low}

/-- A field with one value shows the text that is in it. -/
theorem shows_iff_of_single {c : Configuration} {document x : Json} {t : FilterTerm}
    (h : fieldValues c document t.name = some [x]) :
    Shows printable low c document t ↔ Ruby.downcase t.value <:+: (x.toS printable).map low := by
  constructor
  · rintro ⟨L, hL, y, hy, hpart⟩
    obtain rfl := Option.some.inj (h.symm.trans hL)
    rwa [List.mem_singleton.mp hy] at hpart
  · exact fun hpart => ⟨[x], h, x, List.mem_singleton_self x, hpart⟩

theorem marked_notMem_downcase {t : Text} (h : Alphanumeric t) : ∀ c ∈ marked, c ∉ Ruby.downcase t := by
  intro d hd hmem
  obtain ⟨c, hc, hcd⟩ := List.mem_map.mp hmem
  -- a letter or a digit does not become one of these
  obtain rfl := (lowers_toLower.fixes c d hd).mp hcd
  have hall : (marked.all fun c => !c.isAlphanum) = true := rfl
  have hno := List.all_eq_true.mp hall c hd
  rw [h.2 c hc] at hno
  exact absurd hno Bool.false_ne_true

/-- What the database looks for is in a value. -/
theorem infix_inspect_iff (hlow : Lowers low) {t : Text} (ht : Alphanumeric t) {L : List Json}
    (hL : Unescaped printable L) :
    Ruby.downcase t <:+: (Field.toS printable (.list L)).toList.map low ↔
      ∃ x ∈ L, Ruby.downcase t <:+: (x.toS printable).map low := by
  obtain ⟨xs, rfl, hstr⟩ := hL
  have hne : Ruby.downcase t ≠ [] := fun h => ht.1 (List.map_eq_nil_iff.mp h)
  have hvalue : ∀ x ∈ xs, ((x.item printable).lower low).value = (x.json.toS printable).map low := by
    intro x hx
    rw [Item.value_lower]
    cases x with
    | int z => simp [Scalar.item, Item.value, Scalar.json, Json.toS, Json.inspect]
    | float f => simp [Scalar.item, Item.value, Scalar.json, Json.toS, Json.inspect]
    | str s => rw [Scalar.item, Item.value, hstr s hx]; rfl
  have htext : (Field.toS printable (.list (xs.map Scalar.json))).toList
      = listText (xs.map (Scalar.item printable)) := toList_storedList printable xs
  rw [htext, listText_lower hlow, infix_listText (marked_notMem_downcase ht) hne, List.map_map]
  constructor
  · rintro ⟨y, hmem, hinfix⟩
    obtain ⟨x, hx, rfl⟩ := List.mem_map.mp hmem
    rw [Function.comp_apply, hvalue x hx] at hinfix
    exact ⟨x.json, List.mem_map_of_mem hx, hinfix⟩
  · rintro ⟨y, hmem, hinfix⟩
    obtain ⟨x, hx, rfl⟩ := List.mem_map.mp hmem
    rw [← hvalue x hx] at hinfix
    exact ⟨_, List.mem_map_of_mem hx, hinfix⟩

end Record

/-! ### The search -/

section Search

variable {D : Type} (A : Adapter D)

/-- A work of the archive after its jobs, the last of them with the configuration of the collection. -/
def configured (c : Configuration) (earlier : ArchiveWork → List Job) (thumb : ArchiveWork → Thumb)
    (w : ArchiveWork) : Record D :=
  run A (earlier w ++ [⟨c, thumb w⟩]) (uploaded w.original)

/-- What the index reads of it. -/
def rowOf (cid : Nat) (colors : List Color → String) (r : Record D) : Row where
  collectionId := some cid
  parsed := r.parsed.getD []
  topColors := r.topColors.map colors

/-- The works that a request selects. -/
def search (lower : Text → Text) (ids : List Int) (q : Query) (row : ArchiveWork → Row)
    (works : List ArchiveWork) : Option (List ArchiveWork) :=
  (whereClause ids q).bind fun sql => Sql.select lower (fun w => (row w).columns) sql works

theorem search_eq (lower : Text → Text) {ids : List Int} {cid : Nat} (hcid : (cid : Int) ∈ ids)
    (includes excludes : List FilterTerm) (row : ArchiveWork → Row) (works : List ArchiveWork) :
    search lower ids (filterQuery cid includes excludes) row works =
      some (works.filter fun w => clauseTruth lower cid includes excludes (row w) == some true) := by
  obtain ⟨sql, hsql, hlex⟩ := lex_filterQuery hcid includes excludes
  have hparse : Sql.parseCondition (Sql.lex sql) = some (Sql.conjunction (collectionExpr (Nat.toDigits 10 cid))
      ((filterContents cid includes excludes).readings.map Prod.snd)) := by
    rw [hlex]
    exact parseCondition_tokens rfl rfl
  rw [search, hsql, Option.bind_some]
  exact Sql.select_eq hparse (fun w => truth_clause cid includes excludes (row w)) works

variable {A}

/-- **The text that is searched.** -/
theorem property_configured {c : Configuration} {earlier : ArchiveWork → List Job} {thumb : ArchiveWork → Thumb}
    {w : ArchiveWork} (hsave : (yield A c (.str w.original)).isSome = true) (cid : Nat)
    (colors : List Color → String) (name : Text) :
    (rowOf cid colors (configured A c earlier thumb w)).property name =
      (fieldValues c (.str w.original) name).map fun L => Field.toS A.printable (.list L) := by
  obtain ⟨y, hy⟩ := Option.isSome_iff_exists.mp hsave
  have hlast : writes A (.str w.original) (parsedColumn A) ⟨c, thumb w⟩
      = some (some (extraction A c (.str w.original))) := by
    rw [writes, hy, Option.bind_some, parsedColumn, stored_yield A hy]
  have hparsed : (configured A c earlier thumb w).parsed = some (extraction A c (.str w.original)) := by
    have hdoc : (uploaded (D := D) w.original).document = .str w.original := rfl
    rw [configured, (run_columns A _ hdoc).1, List.map_append, Cells.run_append, List.map_singleton, hlast]
    rfl
  rw [Row.property, rowOf, hparsed, Option.getD_some, extraction, Lists.lookup_map_snd,
    Lists.lookup_filter_fst (fun k => !extractedKeys.contains k), fieldValues]
  by_cases hk : String.ofList name ∈ extractedKeys
  · rw [if_neg (by simpa using hk), if_pos hk]
    rfl
  · rw [if_pos (by simpa using hk), if_neg hk]
    rcases (c.parse (.str w.original)).lookup (String.ofList name) with _ | _ | L
    · rfl
    · rfl
    · rfl

/-- A term matches the row of a work if the record shows it. -/
theorem matches_iff_shows {low : Char → Char} (hlow : Lowers low) {c : Configuration} {document : Json}
    {t : FilterTerm} {r : Row} (hproperty : r.property t.name =
      (fieldValues c document t.name).map fun L => Field.toS A.printable (.list L))
    (hvalues : ∀ L, fieldValues c document t.name = some L → Unescaped A.printable L) :
    t.Matches (List.map low) r ↔ Shows A.printable low c document t := by
  constructor
  · rintro ⟨s, hs, hinfix⟩
    rw [hproperty] at hs
    obtain ⟨L, hL, rfl⟩ := Option.map_eq_some_iff.mp hs
    exact ⟨L, hL, (infix_inspect_iff hlow t.value_plain (hvalues L hL)).mp hinfix⟩
  · rintro ⟨L, hL, hshown⟩
    refine ⟨Field.toS A.printable (.list L), ?_, (infix_inspect_iff hlow t.value_plain (hvalues L hL)).mpr hshown⟩
    rw [hproperty, hL, Option.map_some]

variable {storable : ArchiveWork → Bool} {d : Ruby.Directory} {entries : List Entry}

/-- **What a search finds in an archive.** Of the works that an upload has created, a request for plain terms
selects those whose records show every include, and have the field of every exclude and do not show it. Any
jobs may have run on the works; the last ones were of the present configuration, and went through. -/
theorem search_finds {low : Char → Char} (hlow : Lowers low) {ids : List Int} {cid : Nat} (hcid : (cid : Int) ∈ ids)
    {c : Configuration} (earlier : ArchiveWork → List Job) (thumb : ArchiveWork → Thumb)
    (colors : List Color → String) (includes excludes : List FilterTerm) {works : List ArchiveWork}
    (hworks : ∀ w ∈ works, w ∈ (extractAll Json.toJson storable d entries).works)
    (hsave : ∀ w ∈ works, (yield A c (.str w.original)).isSome = true)
    (hvalues : ∀ w ∈ works, ∀ t ∈ includes ++ excludes,
      ∀ L, fieldValues c (.str w.original) t.name = some L → Unescaped A.printable L) :
    ∃ found, search (List.map low) ids (filterQuery cid includes excludes)
        (fun w => rowOf cid colors (configured A c earlier thumb w)) works = some found ∧
      found.Sublist works ∧
      ∀ w ∈ works, w ∈ found ↔
        ∃ j, ReadsAs D entries w j ∧ (∀ t ∈ includes, Shows A.printable low c j.settle t) ∧
          ∀ t ∈ excludes, (fieldValues c j.settle t.name).isSome = true ∧ ¬Shows A.printable low c j.settle t := by
  refine ⟨_, search_eq _ hcid includes excludes _ works, List.filter_sublist, fun w hw => ?_⟩
  have hproperty := @property_configured D A c earlier thumb w (hsave w hw) cid colors
  obtain ⟨j, hj⟩ := exists_readsAs (D := D) (hworks w hw)
  -- the text is read as the document
  have hparse : c.parse (.str w.original) = c.parse j.settle := hj.configured c
  have hfield : ∀ name, fieldValues c (.str w.original) name = fieldValues c j.settle name := by
    intro name
    rw [fieldValues, hparse]
    rfl
  have hmatch : ∀ t ∈ includes ++ excludes,
      t.Matches (List.map low) (rowOf cid colors (configured A c earlier thumb w)) ↔
        Shows A.printable low c j.settle t := by
    intro t ht
    refine matches_iff_shows hlow ?_ fun L hL => hvalues w hw t ht L ((hfield t.name).trans hL)
    rw [hproperty, hfield]
  have hpresent : ∀ t : FilterTerm,
      ((rowOf cid colors (configured A c earlier thumb w)).property t.name).isSome = true ↔
        (fieldValues c j.settle t.name).isSome = true := by
    intro t
    rw [hproperty, hfield, Option.isSome_map]
  have hshown : (w ∈ works.filter fun w => clauseTruth (List.map low) cid includes excludes
        (rowOf cid colors (configured A c earlier thumb w)) == some true) ↔
      (∀ t ∈ includes, Shows A.printable low c j.settle t) ∧
        ∀ t ∈ excludes, (fieldValues c j.settle t.name).isSome = true ∧ ¬Shows A.printable low c j.settle t := by
    rw [List.mem_filter, beq_iff_eq, clauseTruth_eq_true, Wanted]
    constructor
    · rintro ⟨-, ⟨-, hincludes, hexcludes⟩, hall⟩
      refine ⟨fun t ht => (hmatch t (List.mem_append_left _ ht)).mp (hincludes t ht), fun t ht => ?_⟩
      exact ⟨(hpresent t).mp (hall t ht), fun h => hexcludes t ht ((hmatch t (List.mem_append_right _ ht)).mpr h)⟩
    · rintro ⟨hincludes, hexcludes⟩
      refine ⟨hw, ⟨rfl, fun t ht => (hmatch t (List.mem_append_left _ ht)).mpr (hincludes t ht), fun t ht h => ?_⟩,
        fun t ht => (hpresent t).mpr (hexcludes t ht).1⟩
      exact (hexcludes t ht).2 ((hmatch t (List.mem_append_right _ ht)).mp h)
  rw [hshown]
  constructor
  · exact fun h => ⟨j, hj, h⟩
  · rintro ⟨j', hj', h⟩
    have heq : j'.settle = j.settle := Option.some.inj (hj'.read.symm.trans hj.read)
    rwa [heq] at h

/-- Works with a title, as they are created from their records. -/
def monaLisaWork : ArchiveWork := ⟨"a.json".toList, "\x7b\"title\":\"Mona Lisa\"\x7d"⟩

def monaVannaWork : ArchiveWork := ⟨"b.json".toList, "\x7b\"title\":\"Mona Vanna\"\x7d"⟩

def sunflowersWork : ArchiveWork := ⟨"c.json".toList, "\x7b\"title\":\"Sunflowers\"\x7d"⟩

def threeWorks : List ArchiveWork := [monaLisaWork, monaVannaWork, sunflowersWork]

/-- Their archive. -/
def threeRecords : List Entry :=
  [⟨"a.json".toList, .file, some "\x7b \"title\": \"Mona Lisa\" \x7d", .done⟩,
    ⟨"b.json".toList, .file, some "\x7b \"title\": \"Mona Vanna\" \x7d", .done⟩,
    ⟨"c.json".toList, .file, some "\x7b \"title\": \"Sunflowers\" \x7d", .done⟩]

def titles : Configuration := oneField "title" [.str "title"]

def lisaTerm : FilterTerm where
  name := titleTerm.name
  value := "lisa".toList
  name_plain := titleTerm.name_plain
  value_plain := .of_all (by decide) rfl
  value_ne := by decide

theorem mem_works_threeRecords : ∀ w ∈ threeWorks, w ∈ (extractAll Json.toJson (fun _ => true)
    ⟨[], fun _ h => absurd h List.not_mem_nil⟩ threeRecords).works := by
  have hworks : (extractAll Json.toJson (fun _ => true) ⟨[], fun _ h => absurd h List.not_mem_nil⟩
      threeRecords).works = threeWorks := by decide +kernel
  rw [hworks]
  exact fun _ h => h

/-- A job for another field has run on each of three works, and then one for the titles. A search for one word
without another finds the one of them. -/
theorem search_finds_titles :
    ∃ found, search (List.map Char.toLower) [1] (filterQuery 1 [titleTerm] [lisaTerm])
        (fun w => rowOf 1 (fun _ => "") (configured (.plain true) titles
          (fun _ => [⟨oneField "artist" [.str "title"], .notCached⟩]) (fun _ => .notCached) w))
        threeWorks = some found ∧
      ∀ w ∈ threeWorks, w ∈ found ↔ w = monaVannaWork := by
  have hsave : ∀ w ∈ threeWorks, (yield (.plain true) titles (.str w.original)).isSome = true := by
    decide +kernel
  -- each record has one title
  have htitle : ∀ w ∈ threeWorks, ∃ s, Json.parse w.original = some (.obj [("title", .str s)]) ∧
      (w = monaVannaWork ↔ "mona".toList <:+: s.toList.map Char.toLower ∧
        ¬"lisa".toList <:+: s.toList.map Char.toLower) ∧
      fieldValues titles (.str w.original) "title".toList = some [.str s] ∧
      fieldValues titles (.obj [("title", .str s)]) "title".toList = some [.str s] ∧
      inspectBody (Adapter.plain true).printable s.toList = s.toList := by
    intro w hw
    simp only [threeWorks, List.mem_cons, List.not_mem_nil, or_false] at hw
    rcases hw with rfl | rfl | rfl
    · exact ⟨"Mona Lisa", by decide +kernel, by decide +kernel, by decide +kernel, by decide +kernel,
        by decide +kernel⟩
    · exact ⟨"Mona Vanna", by decide +kernel, by decide +kernel, by decide +kernel, by decide +kernel,
        by decide +kernel⟩
    · exact ⟨"Sunflowers", by decide +kernel, by decide +kernel, by decide +kernel, by decide +kernel,
        by decide +kernel⟩
  have hname : ∀ t ∈ [titleTerm] ++ [lisaTerm], t.name = "title".toList := by
    simp [titleTerm, lisaTerm]
  have hvalues : ∀ w ∈ threeWorks, ∀ t ∈ [titleTerm] ++ [lisaTerm], ∀ L,
      fieldValues titles (.str w.original) t.name = some L → Unescaped (Adapter.plain true).printable L := by
    intro w hw t ht L hL
    obtain ⟨s, -, -, hfield, -, hbody⟩ := htitle w hw
    rw [hname t ht, hfield] at hL
    obtain rfl := Option.some.inj hL
    refine ⟨[.str s], rfl, fun s' hs => ?_⟩
    obtain rfl := Scalar.str.inj (List.mem_singleton.mp hs)
    exact hbody
  obtain ⟨found, hfound, -, hiff⟩ := search_finds lowers_toLower (List.mem_singleton_self (1 : Int))
    (fun _ => [⟨oneField "artist" [.str "title"], .notCached⟩]) (fun _ => .notCached) (fun _ => "") [titleTerm]
    [lisaTerm] mem_works_threeRecords hsave hvalues
  refine ⟨found, hfound, fun w hw => ?_⟩
  obtain ⟨s, hread, hvanna, -, hfield, -⟩ := htitle w hw
  have hshows : ∀ t ∈ [titleTerm] ++ [lisaTerm],
      (Shows (Adapter.plain true).printable Char.toLower titles (.obj [("title", .str s)]) t ↔
        Ruby.downcase t.value <:+: s.toList.map Char.toLower) :=
    fun t ht => shows_iff_of_single ((hname t ht).symm ▸ hfield)
  have hpresent : (fieldValues titles (.obj [("title", .str s)]) lisaTerm.name).isSome = true := by
    rw [hname lisaTerm (by simp), hfield]
    rfl
  have hmona := hshows titleTerm (by simp)
  have hlisa := hshows lisaTerm (by simp)
  rw [hiff w hw, hvanna]
  constructor
  · rintro ⟨j, hj, hincludes, hexcludes⟩
    rw [Option.some.inj (hj.read.symm.trans hread)] at hincludes hexcludes
    exact ⟨hmona.mp (hincludes titleTerm (List.mem_singleton_self _)),
      fun h => (hexcludes lisaTerm (List.mem_singleton_self _)).2 (hlisa.mpr h)⟩
  · rintro ⟨hpart, hnot⟩
    obtain ⟨j, hj⟩ := exists_readsAs (D := String) (mem_works_threeRecords w hw)
    refine ⟨j, hj, ?_⟩
    rw [Option.some.inj (hj.read.symm.trans hread), List.forall_mem_singleton, List.forall_mem_singleton]
    exact ⟨hmona.mpr hpart, hpresent, fun h => hnot (hlisa.mp h)⟩

end Search

end Search
end Curarium
