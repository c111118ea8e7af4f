import Curarium.Workers.Pairing

/-!
# The special fields of a work

`Collection#init` declares six fields that are more than metadata: an identifier, a title, images,
thumbnails and two dates. `extract_attributes` reads six keys of `parsed`, and four of them are these.
The dates are declared as `date_start` and `date_end` and read as `datestart` and `dateend`.

* `Reaches` — every attribute of a row holds what its field was extracted as.
* `special_fields_iff` — after the save of a new work they all do exactly when the two fields of the
  dates denote none, and what an `hstore` that casts on write has to read back is readable.
-/

namespace Curarium
namespace Work

open Images

variable {D : Type} (A : Adapter D)

/-- The fields of `Collection#init`. -/
def specialFields : List String :=
  ["unique_identifier", "title", "image", "thumbnail", "date_start", "date_end"]

/-- The values extracted for a field. -/
def values (c : Configuration) (d : Json) (k : String) : List Json :=
  (((c.parse d).lookup k).bind id).getD []

/-- **Every special field reaches its attribute.** -/
structure Reaches (c : Configuration) (d : Json) (row : Record D) : Prop where
  uniqueIdentifier : column A .uniqueIdentifier (values c d "unique_identifier").head? = some row.uniqueIdentifier
  title : column A .title (values c d "title").head? = some row.title
  images : (Pairing.join (values c d "image") (values c d "thumbnail")).mapM (imageRow A) =
    some row.images
  datestart : row.datestart = dateOf A (values c d "date_start").head?
  dateend : row.dateend = dateOf A (values c d "date_end").head?

/-- The fields of the dates denote none. -/
def NoDates (c : Configuration) (d : Json) : Prop :=
  dateOf A (values c d "date_start").head? = none ∧ dateOf A (values c d "date_end").head? = none

/-- What the attributes are read from survives the text that an `hstore` casts it to: the first
identifier and title, the images, and the thumbnails of as many images as there are. -/
def ReadsSpecial (c : Configuration) (d : Json) : Prop :=
  A.castsOnWrite = true →
    (∀ x ∈ (values c d "unique_identifier").head?, x.readable A.printable = true) ∧
    (∀ x ∈ (values c d "title").head?, x.readable A.printable = true) ∧
    (∀ x ∈ values c d "image", x.readable A.printable = true) ∧
    ∀ x ∈ (values c d "thumbnail").take (values c d "image").length, x.readable A.printable = true

/-! ### Lists that were read back -/

/-- A list and what is read where it was written. -/
def ReadFrom (xs ys : List Json) : Prop :=
  List.Forall₂ (fun x y => x.Alike y ∧ (x = y ↔ (A.castsOnWrite = true → x.readable A.printable = true)))
    xs ys

theorem readFrom_of_readUrls {xs ys : List Json} (h : readUrls A xs = some ys) :
    ReadFrom A xs ys := by
  by_cases hcast : A.castsOnWrite = true
  · rw [readUrls, if_pos hcast, Field.toS, Json.parse, String.toList_ofList] at h
    obtain ⟨j, hj, helems⟩ := Option.bind_eq_some_iff.mp h
    -- each element reads as one of its kind, and as itself exactly if it is readable
    have hboth : ∀ x, ReadsTo A.printable (fun x y => x.Alike y ∧ x.ReadExactly A.printable y) x :=
      fun x => ReadsTo.and A.printable (readsAlike A.printable x) (readsExactly A.printable x)
    obtain ⟨zs, rfl, hall⟩ := parseText_inspect_readsTo A.printable hboth hj
    obtain rfl := Option.some.inj helems
    refine hall.imp ?_
    rintro x y ⟨halike, hexact⟩
    exact ⟨halike, hexact.trans ⟨fun h _ => h, fun h => h hcast⟩⟩
  · rw [readUrls, if_neg hcast] at h
    obtain rfl := Option.some.inj h
    refine List.forall₂_same.mpr fun x _ => ⟨Or.inl rfl, ?_⟩
    exact iff_of_true rfl fun h => absurd h hcast

/-- A value of one kind is stored alike exactly if it is the same. -/
theorem column_iff {c : Column} {x y : Json} {t : Option String} (halike : x.Alike y)
    (hy : column A c (some y) = some t) : column A c (some x) = some t ↔ x = y :=
  ⟨fun hx => eq_of_column A halike hx hy, fun h => h ▸ hy⟩

theorem column_head_iff {c : Column} {xs ys : List Json} {t : Option String} (h : ReadFrom A xs ys)
    (ht : column A c ys.head? = some t) :
    column A c xs.head? = some t ↔
      (A.castsOnWrite = true → ∀ x ∈ xs.head?, x.readable A.printable = true) := by
  cases h with
  | nil => exact iff_of_true ht fun _ x hx => nomatch hx
  | cons hxy _ =>
    rw [List.head?_cons, column_iff A hxy.1 ht, hxy.2]
    simp only [Option.mem_some_iff, forall_eq']

theorem imageRow_iff {p : Json × Option Json} {row : Image} :
    imageRow A p = some row ↔
      column A .imageUrl (some p.1) = some row.imageUrl ∧ column A .thumbnailUrl p.2 = some row.thumbnailUrl := by
  constructor
  · intro h
    obtain ⟨imageUrl, hurl, h⟩ := Option.bind_eq_some_iff.mp h
    obtain ⟨thumbnailUrl, hthumb, rfl⟩ := Option.map_eq_some_iff.mp h
    exact ⟨hurl, hthumb⟩
  · rintro ⟨hurl, hthumb⟩
    rw [imageRow, hurl, hthumb]
    rfl

/-- **The rows of two lists that were read back** are those of the lists themselves exactly if the
images are readable, and the thumbnails that are joined to them. -/
theorem mapM_join_iff {I I' T T' : List Json} {rows : List Image} (hI : ReadFrom A I I')
    (hT : ReadFrom A T T') (h : (Pairing.join I' T').mapM (imageRow A) = some rows) :
    (Pairing.join I T).mapM (imageRow A) = some rows ↔
      (A.castsOnWrite = true → (∀ x ∈ I, x.readable A.printable = true) ∧
        ∀ x ∈ T.take I.length, x.readable A.printable = true) := by
  rw [Lists.mapM_eq_some_iff] at h ⊢
  induction hI generalizing T T' rows with
  | nil => simpa [Pairing.join] using h
  | @cons x y I I' hxy _ ih =>
    cases hT with
    | nil =>
      -- an image without a thumbnail
      rw [Pairing.join] at h
      cases h with | cons hrow hrows =>
      rw [Pairing.join, List.forall₂_cons, ih .nil hrows]
      obtain ⟨hurl, hthumb⟩ := (imageRow_iff A).mp hrow
      rw [imageRow_iff, and_iff_left hthumb, column_iff A hxy.1 hurl, hxy.2]
      rw [← imp_and, List.take_nil, List.take_nil, List.forall_mem_cons]
      exact imp_congr_right fun _ => and_assoc.symm
    | cons htu hT =>
      rw [Pairing.join] at h
      cases h with | cons hrow hrows =>
      rw [Pairing.join, List.forall₂_cons, ih hT hrows]
      obtain ⟨hurl, hthumb⟩ := (imageRow_iff A).mp hrow
      rw [imageRow_iff, column_iff A hxy.1 hurl, hxy.2, column_iff A htu.1 hthumb, htu.2]
      rw [← imp_and, ← imp_and, List.length_cons, List.take_succ_cons, List.forall_mem_cons,
        List.forall_mem_cons]
      exact imp_congr_right fun _ => and_and_and_comm

/-! ### The attributes after a save -/

/-- What an assigned field gives its column, in terms of the list as it is read. -/
theorem firstColumn_assigned {c : Column} {L : Option (List Json)} {o : Option (Option String)}
    (h : firstColumn A c (L.map fun xs => if A.castsOnWrite then Field.text (Field.toS A.printable (.list xs))
      else .list xs) = some o) :
    ∃ read, readUrls A (L.getD []) = some read ∧ column A c read.head? = some (o.getD none) := by
  have hnil : readUrls A [] = some [] := (readUrls_iff A []).mpr fun _ => ⟨by simp, by decide⟩
  cases L with
  | none =>
    obtain rfl := Option.some.inj h
    exact ⟨[], hnil, rfl⟩
  | some xs =>
    rw [Option.map_some] at h
    rw [Option.getD_some]
    by_cases hcast : A.castsOnWrite = true
    · -- the text of the list starts with a bracket, and is parsed
      rw [if_pos hcast, firstColumn, if_pos (present_toS A xs)] at h
      obtain ⟨v, hv, h⟩ := Option.bind_eq_some_iff.mp h
      obtain ⟨t, ht, rfl⟩ := Option.map_eq_some_iff.mp h
      have hbracket : (Field.toS A.printable (.list xs)).toList.head? = some '[' := by
        obtain ⟨cs, hcs⟩ := inspect_arr_head A.printable xs
        rw [Field.toS, String.toList_ofList, hcs]
        rfl
      rw [firstValue, if_pos hbracket] at hv
      obtain ⟨j, hj, rfl⟩ := Option.map_eq_some_iff.mp hv
      have htext : Json.parseText ((Json.arr xs).inspect A.printable) = some j := by
        rwa [Json.parse, Field.toS, String.toList_ofList] at hj
      obtain ⟨ys, rfl, -⟩ := parseText_inspect_alike A.printable htext
      refine ⟨ys, ?_, ?_⟩
      · rw [readUrls, if_pos hcast, hj]
        rfl
      · have hfirst : (Json.arr ys).index (.int 0) = ys.head? := by
          rw [Json.index, List.head?_eq_getElem?]
          exact Json.arrayAt_nat ys 0
        rw [← hfirst]
        exact ht
    · rw [if_neg hcast] at h
      rw [readUrls, if_neg hcast]
      refine ⟨xs, rfl, ?_⟩
      cases xs with
      | nil =>
        obtain rfl := Option.some.inj h
        rfl
      | cons x xs =>
        obtain ⟨t, ht, rfl⟩ := Option.map_eq_some_iff.mp h
        exact ht

theorem lookup_parse_eq_none {c : Configuration} {d : Json} {k : String}
    (h : ∀ f ∈ c.fields, f.1 ≠ k) : (c.parse d).lookup k = none := by
  rw [List.lookup_eq_none_iff]
  intro p hp
  obtain ⟨f, hf, rfl⟩ := List.mem_map.mp hp
  simpa using fun hk : k = f.1 => h f hf hk.symm

/-- A work that no save has filled in yet. -/
structure Unfilled (row : Record D) : Prop where
  uniqueIdentifier : row.uniqueIdentifier = none
  title : row.title = none
  datestart : row.datestart = none
  dateend : row.dateend = none
  images : row.images = []

/-- **Where the special fields reach their attributes.** For every document, every configuration over
the special fields and every new work: after a save with what was extracted, all attributes hold what
their fields denote exactly when the two fields of the dates denote no date, and what is read from an
`hstore` that casts on write is readable. -/
theorem special_fields_iff (c : Configuration) (d : Json) (row : Record D) (w : Work D)
    (hspecial : ∀ f ∈ c.fields, f.1 ∈ specialFields) (hrow : Unfilled row)
    (hsave : save A (assignParsed A (load row) (c.parse d)) = some w) :
    Reaches A c d w.row ↔ NoDates A c d ∧ ReadsSpecial A c d := by
  rw [save_assigned] at hsave
  obtain ⟨y, hy, rfl⟩ := Option.map_eq_some_iff.mp hsave
  obtain ⟨hiurls, hturls, huid, htitle, hstart, hend⟩ := yieldOf_spec A hy
  rw [get_assigned] at huid htitle hstart hend hiurls hturls
  -- no special field has the name that a date is read under
  have hnostart : (c.parse d).lookup "datestart" = none :=
    lookup_parse_eq_none fun f hf hk => absurd (hk ▸ hspecial f hf) (by decide)
  have hnoend : (c.parse d).lookup "dateend" = none :=
    lookup_parse_eq_none fun f hf hk => absurd (hk ▸ hspecial f hf) (by decide)
  rw [hnostart] at hstart
  rw [hnoend] at hend
  have hdatestart : (y.work A row).row.datestart = none := by
    show y.datestart.getD row.datestart = none
    rw [hrow.datestart]
    exact (Option.some.inj hstart).symm
  have hdateend : (y.work A row).row.dateend = none := by
    show y.dateend.getD row.dateend = none
    rw [hrow.dateend]
    exact (Option.some.inj hend).symm
  -- the identifier and the title are the first of the lists that are read
  obtain ⟨uids, huids, hfirst⟩ := firstColumn_assigned A huid
  obtain ⟨titles, htitles, hfirst'⟩ := firstColumn_assigned A htitle
  have hu := column_head_iff A (readFrom_of_readUrls A huids) hfirst
  have ht := column_head_iff A (readFrom_of_readUrls A htitles) hfirst'
  rw [← hrow.uniqueIdentifier] at hu
  rw [← hrow.title] at ht
  -- the images and the thumbnails are all of them
  obtain ⟨images, himages, hI⟩ := urls_assigned A hiurls
  obtain ⟨thumbs, hthumbs, hT⟩ := urls_assigned A hturls
  have hrows := imageRows_of_yield A hy
  rw [imageRows_eq_join A hI hT] at hrows
  have hi := mapM_join_iff A (readFrom_of_readUrls A himages) (readFrom_of_readUrls A hthumbs) hrows
  have hrowimages : (y.work A row).row.images = y.rows := by
    show row.images ++ y.rows = y.rows
    rw [hrow.images, List.nil_append]
  constructor
  · intro h
    refine ⟨⟨h.datestart.symm.trans hdatestart, h.dateend.symm.trans hdateend⟩, fun hcast => ?_⟩
    have hjoin := hi.mp (h.images.trans (congrArg some hrowimages)) hcast
    exact ⟨hu.mp h.uniqueIdentifier hcast, ht.mp h.title hcast, hjoin.1, hjoin.2⟩
  · rintro ⟨⟨hnodate, hnodate'⟩, hread⟩
    refine ⟨hu.mpr fun hcast => (hread hcast).1, ht.mpr fun hcast => (hread hcast).2.1, ?_,
      hdatestart.trans hnodate.symm, hdateend.trans hnodate'.symm⟩
    rw [hrowimages]
    exact hi.mpr fun hcast => (hread hcast).2.2

/-- A new work, before anything is saved. -/
def newWork : Record String := ConfigureWork.uploaded "\x7b\"title\":\"a\",\"from\":\"1889-06-18\"\x7d"

/-- A title and an unconfigured date. -/
def titleConfiguration : Configuration where
  fields := [("title", .steps [.str "title"]), ("date_start", .text "")]
  nodup := by decide

/-- A title and the day a work was begun. -/
def dateConfiguration : Configuration where
  fields := [("title", .steps [.str "title"]), ("date_start", .steps [.str "from"])]
  nodup := by decide

/-- Without a date the special fields reach their attributes. -/
theorem special_fields_title :
    ∃ w, save (.plain true) (assignParsed (.plain true) (load newWork)
        (titleConfiguration.parse newWork.document)) = some w ∧
      Reaches (.plain true) titleConfiguration newWork.document w.row := by
  have hsome : (save (.plain true) (assignParsed (.plain true) (load newWork)
      (titleConfiguration.parse newWork.document))).isSome = true := by decide +kernel
  obtain ⟨w, hw⟩ := Option.isSome_iff_exists.mp hsome
  refine ⟨w, hw, (special_fields_iff (.plain true) titleConfiguration newWork.document newWork w
    (by decide) ⟨rfl, rfl, rfl, rfl, rfl⟩ hw).mpr ⟨⟨?_, ?_⟩, fun _ => ?_⟩⟩
  · decide +kernel
  · decide +kernel
  · decide +kernel

/-- The day in `date_start` reaches no attribute. -/
theorem special_fields_date :
    (save (.plain true) (assignParsed (.plain true) (load newWork)
        (dateConfiguration.parse newWork.document))).map (fun w => w.row.datestart) = some none ∧
      ¬∀ w, save (.plain true) (assignParsed (.plain true) (load newWork)
          (dateConfiguration.parse newWork.document)) = some w →
        Reaches (.plain true) dateConfiguration newWork.document w.row := by
  have hnone : (save (.plain true) (assignParsed (.plain true) (load newWork)
      (dateConfiguration.parse newWork.document))).map (fun w => w.row.datestart) = some none := by
    decide +kernel
  refine ⟨hnone, fun h => ?_⟩
  obtain ⟨w, hw, hdate⟩ := Option.map_eq_some_iff.mp hnone
  have hreach := (h w hw).datestart
  rw [hdate] at hreach
  exact absurd hreach (by decide +kernel)

end Work
end Curarium
