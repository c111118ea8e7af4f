import Curarium.Collections.Listing
import Curarium.Library.Pages
import Mathlib.Algebra.Order.BigOperators.Group.List
import Mathlib.Data.List.Find

/-!
# What hidden collections change

A collection that is not approved should leave no trace on the pages for other users. Two databases
differ only in hidden collections if their visible parts are the same (`Database.visible`). A
request is `Safe` if its response is that of the visible part (`respond_visible`).

* The home page and the list of collections gather approved collections and their works only. They
  are safe unless a collection has for its cover a work that is not visible.
* The works index gathers all works, and the properties of all collections. It is safe only where
  it raises anyway. The list does if, wherever its page can begin, a visible work is on it that it cannot
  show (`ListRaises`).
* The collection in the cookie is looked up among all collections.
-/

namespace Curarium
namespace Listing

open Tables WorksIndex

/-! ### The visible part -/

def Collection.hidden (c : Collection) : Bool := c.approved = some false

/-- Is the work in a hidden collection? -/
def hiddenWork (db : Database) (w : Work) : Bool :=
  db.collections.any fun c => c.hidden && w.collectionId = some c.id

/-- A database without the hidden collections, their works and the images of these. Images of no
work are on no page, and left out too. -/
def Database.visible (db : Database) : Database where
  collections := db.collections.filter fun c => !c.hidden
  works := db.works.filter fun w => !hiddenWork db w
  images := db.images.filter fun i => db.works.any fun w => !hiddenWork db w && i.workId = some w.id
  collectionIds := db.collectionIds.sublist (List.filter_sublist.map _)
  workIds := db.workIds.sublist (List.filter_sublist.map _)

variable {db : Database}

theorem Database.eq_of_lists {db db' : Database} (hc : db.collections = db'.collections)
    (hw : db.works = db'.works) (hi : db.images = db'.images) : db = db' := by
  obtain ⟨collections, works, images, _, _⟩ := db
  obtain ⟨collections', works', images', _, _⟩ := db'
  subst hc hw hi
  rfl

theorem mem_visible_collections {c : Collection} :
    c ∈ db.visible.collections ↔ c ∈ db.collections ∧ c.hidden = false := by
  rw [Database.visible, List.mem_filter, Bool.not_eq_true']

theorem mem_visible_works {w : Work} :
    w ∈ db.visible.works ↔ w ∈ db.works ∧ hiddenWork db w = false := by
  rw [Database.visible, List.mem_filter, Bool.not_eq_true']

theorem hiddenWork_visible (w : Work) : hiddenWork db.visible w = false := by
  rw [hiddenWork, List.any_eq_false]
  intro c hc hhidden
  rw [(mem_visible_collections.mp hc).2, Bool.false_and] at hhidden
  exact Bool.false_ne_true hhidden

/-- Nothing of the visible part is hidden. -/
@[simp] theorem Database.visible_visible : db.visible.visible = db.visible := by
  refine Database.eq_of_lists ?_ ?_ ?_
  · rw [Database.visible, List.filter_eq_self]
    intro c hc
    rw [(mem_visible_collections.mp hc).2]
    rfl
  · rw [Database.visible, List.filter_eq_self]
    intro w _
    rw [hiddenWork_visible]
    rfl
  · rw [Database.visible, List.filter_eq_self]
    intro i hi
    -- the work of the image is visible, also in the visible part
    obtain ⟨w, hw, hvisible⟩ := List.any_eq_true.mp (List.mem_filter.mp hi).2
    rw [Bool.and_eq_true, Bool.not_eq_true'] at hvisible
    rw [List.any_eq_true]
    refine ⟨w, mem_visible_works.mpr ⟨hw, hvisible.1⟩, ?_⟩
    rw [hiddenWork_visible, hvisible.2]
    rfl

/-- The works of a collection that is not hidden are visible: its id is its own. -/
theorem hiddenWork_of_visible {c : Collection} (hc : c ∈ db.visible.collections) {w : Work}
    (hw : w.collectionId = some c.id) : hiddenWork db w = false := by
  obtain ⟨hmem, hvisible⟩ := mem_visible_collections.mp hc
  rw [hiddenWork, List.any_eq_false]
  intro c' hc' hhidden
  -- a hidden collection with the same id would be the same collection
  rw [Bool.and_eq_true, decide_eq_true_iff, hw, Option.some_inj] at hhidden
  have heq : c = c' := List.inj_on_of_nodup_map db.collectionIds hmem hc' hhidden.2
  rw [← heq, hvisible] at hhidden
  exact absurd hhidden.1 (by simp)

theorem visible_of_approved {c : Collection} (hc : c ∈ db.collections) (h : c.approved = some true) :
    c ∈ db.visible.collections :=
  mem_visible_collections.mpr ⟨hc, by rw [Collection.hidden, h]; rfl⟩

/-- A condition that holds only where another one does filters the same rows after it. -/
theorem filter_filter_of_imp {α : Type*} {p q : α → Bool} {xs : List α}
    (h : ∀ x ∈ xs, q x = true → p x = true) : (xs.filter p).filter q = xs.filter q := by
  rw [List.filter_filter]
  refine List.filter_congr fun x hx => ?_
  cases hq : q x with
  | false => rfl
  | true => rw [h x hx hq]; rfl

theorem any_filter_of_imp {α : Type*} {p q : α → Bool} {xs : List α}
    (h : ∀ x ∈ xs, q x = true → p x = true) : (xs.filter p).any q = xs.any q := by
  rw [Bool.eq_iff_iff, List.any_eq_true, List.any_eq_true]
  constructor
  · rintro ⟨x, hx, hq⟩
    exact ⟨x, List.mem_of_mem_filter hx, hq⟩
  · rintro ⟨x, hx, hq⟩
    exact ⟨x, List.mem_filter.mpr ⟨hx, h x hx hq⟩, hq⟩

theorem find?_filter_of_imp {α : Type*} {p q : α → Bool} {xs : List α}
    (h : ∀ x ∈ xs, q x = true → p x = true) : (xs.filter p).find? q = xs.find? q := by
  rw [List.find?_filter]
  induction xs with
  | nil => rfl
  | cons x xs ih =>
    rw [List.forall_mem_cons] at h
    rw [List.find?_cons, List.find?_cons, ih h.2]
    cases hq : q x with
    | false => simp
    | true => rw [h.1 hq]; rfl

/-! ### The scopes on the visible part -/

theorem approvedCollections_visible : approvedCollections db.visible = approvedCollections db := by
  refine filter_filter_of_imp fun c _ h => ?_
  rw [decide_eq_true_iff] at h
  rw [Collection.hidden, h]
  rfl

theorem approved_visible (w : Work) : approved db.visible w = approved db w := by
  refine any_filter_of_imp fun c _ h => ?_
  rw [Bool.and_eq_true, decide_eq_true_iff] at h
  rw [Collection.hidden, h.1]
  rfl

theorem hiddenWork_of_approved {w : Work} (h : approved db w = true) : hiddenWork db w = false := by
  obtain ⟨c, hc, hok⟩ := List.any_eq_true.mp h
  rw [Bool.and_eq_true, decide_eq_true_iff, decide_eq_true_iff] at hok
  exact hiddenWork_of_visible (visible_of_approved hc hok.1) hok.2

/-- The images of a visible work are visible. -/
theorem image_visible {w : Work} (hw : w ∈ db.visible.works) {i : Image} (hi : i.workId = some w.id) :
    (db.works.any fun w => !hiddenWork db w && i.workId = some w.id) = true := by
  obtain ⟨hmem, hvisible⟩ := mem_visible_works.mp hw
  rw [List.any_eq_true]
  exact ⟨w, hmem, by rw [hvisible, decide_eq_true hi]; rfl⟩

theorem withThumb_visible {w : Work} (hw : w ∈ db.visible.works) :
    withThumb db.visible w = withThumb db w := by
  refine any_filter_of_imp fun i _ h => image_visible hw ?_
  rw [Bool.and_eq_true, decide_eq_true_iff] at h
  exact h.1

theorem thumbnailCacheUrl_visible {w : Work} (hw : w ∈ db.visible.works) :
    thumbnailCacheUrl db.visible w = thumbnailCacheUrl db w := by
  have hfind : (db.visible.images.find? fun i => i.workId = some w.id) =
      db.images.find? fun i => i.workId = some w.id :=
    find?_filter_of_imp fun i _ h => image_visible hw (of_decide_eq_true h)
  rw [thumbnailCacheUrl, hfind]
  rfl

theorem withWorks_visible {c : Collection} (hc : c ∈ db.visible.collections) :
    withWorks db.visible c = withWorks db c := by
  refine any_filter_of_imp fun w _ h => ?_
  rw [hiddenWork_of_visible hc (of_decide_eq_true h)]
  rfl

/-- The collection of a visible work is visible, so that the list shows the work on both sides or on
neither. -/
theorem metadataRaises_visible {w : Work} (hw : w ∈ db.visible.works) :
    metadataRaises db.visible w = metadataRaises db w := by
  have hcollection : (db.visible.collections.any fun c => w.collectionId = some c.id) =
      db.collections.any fun c => w.collectionId = some c.id := by
    refine any_filter_of_imp fun c hc hid => ?_
    have hnone := List.any_eq_false.mp (mem_visible_works.mp hw).2 c hc
    rw [hid, Bool.and_true, Bool.not_eq_true] at hnone
    rw [hnone]
    rfl
  rw [metadataRaises, metadataRaises, hcollection]

/-- The cover of a collection, if it is set, is one of the works. -/
def CoverThere (v : Database) (c : Collection) : Prop :=
  ∀ id, c.coverId = some id → (find Work.id id v.works).isSome = true

/-- A work that is found in the visible part is the one that is found. -/
theorem find_visible {id : Nat} {w : Work} (h : find Work.id id db.visible.works = some w) :
    find Work.id id db.works = some w := by
  obtain ⟨w', hw'⟩ : ∃ w', find Work.id id db.works = some w' := by
    rw [← Option.isSome_iff_exists, find, List.find?_isSome]
    exact ⟨w, (mem_visible_works.mp (find_mem h)).1, decide_eq_true (find_key h)⟩
  rw [hw', Option.some_inj]
  exact List.inj_on_of_nodup_map db.workIds (find_mem hw') (mem_visible_works.mp (find_mem h)).1
    ((find_key hw').trans (find_key h).symm)

theorem cover_visible {c : Collection} (hc : c ∈ db.visible.collections)
    (hcover : CoverThere db.visible c) : cover db.visible c = cover db c ∧
      ∀ w, cover db.visible c = some (some w) → w ∈ db.visible.works := by
  cases hid : c.coverId with
  | some id =>
    -- the cover that was set is visible
    obtain ⟨w, hw⟩ := Option.isSome_iff_exists.mp (hcover id hid)
    have hvisible : cover db.visible c = some (some w) := by
      rw [cover, hid]
      exact congrArg (Option.map some) hw
    have hall : cover db c = some (some w) := by
      rw [cover, hid]
      exact congrArg (Option.map some) (find_visible hw)
    refine ⟨hvisible.trans hall.symm, fun w' hw' => ?_⟩
    obtain rfl := Option.some.inj (Option.some.inj (hvisible.symm.trans hw'))
    exact find_mem hw
  | none =>
    -- the first work with a thumbnail, which is one of the collection
    have hsame : cover db.visible c = cover db c := by
      rw [cover, cover, hid]
      refine congrArg some ?_
      have hpred : ∀ w ∈ db.visible.works,
          (decide (w.collectionId = some c.id) && withThumb db.visible w) =
            (decide (w.collectionId = some c.id) && withThumb db w) :=
        fun w hw => by rw [withThumb_visible hw]
      rw [List.find?_congr hpred]
      refine find?_filter_of_imp fun w _ h => ?_
      rw [Bool.and_eq_true, decide_eq_true_iff] at h
      rw [hiddenWork_of_visible hc h.1]
      rfl
    refine ⟨hsame, fun w hw => ?_⟩
    rw [cover, hid] at hw
    exact List.mem_of_find?_eq_some (Option.some.inj hw)

theorem coverUrl_visible {c : Collection} (hc : c ∈ db.visible.collections)
    (hcover : CoverThere db.visible c) : coverUrl db.visible c = coverUrl db c := by
  obtain ⟨hsame, hmem⟩ := cover_visible hc hcover
  rw [coverUrl, coverUrl, ← hsame]
  cases hshown : cover db.visible c with
  | none => rfl
  | some shown =>
    cases shown with
    | none => rfl
    | some w => exact congrArg some (thumbnailCacheUrl_visible (hmem w hshown))

/-! ### The works index without a collection -/

/-- A part of the clause is empty or comes after a connective. -/
def Joined (t : Text) : Prop := t = [] ∨ ∃ rest, t = " AND ".toList ++ rest

theorem Joined.append {s t : Text} (hs : Joined s) (ht : Joined t) : Joined (s ++ t) := by
  obtain rfl | ⟨rest, rfl⟩ := hs
  · rwa [List.nil_append]
  · exact .inr ⟨rest ++ t, List.append_assoc ..⟩

theorem joined_includeClause {clause : Text} {ps : List Text}
    (h : includeClause ps = some clause) : Joined clause := by
  rw [includeClause] at h
  split at h
  · exact .inl (Option.some.inj h).symm
  · obtain ⟨acc, -, h⟩ := Option.bind_eq_some_iff.mp h
    split at h
    · exact .inl (Option.some.inj h).symm
    · obtain ⟨sql, -, rfl⟩ := Option.map_eq_some_iff.mp h
      exact .inr ⟨_, rfl⟩

theorem joined_excludeClause {clause : Text} {ps : List Text}
    (h : excludeClause ps = some clause) : Joined clause := by
  rw [excludeClause] at h
  split at h
  · exact .inl (Option.some.inj h).symm
  · obtain ⟨acc, -, h⟩ := Option.bind_eq_some_iff.mp h
    obtain ⟨sql, -, rfl⟩ := Option.map_eq_some_iff.mp h
    exact .inr ⟨_, rfl⟩

theorem joined_colorClause {clause : Text} {color : Option Text}
    (h : colorClause color = some clause) : Joined clause := by
  rw [colorClause] at h
  split at h
  · exact .inl (Option.some.inj h).symm
  · obtain ⟨sql, -, rfl⟩ := Option.map_eq_some_iff.mp h
    exact .inr ⟨_, rfl⟩

/-- Without a collection the clause is empty or starts with a connective. -/
theorem joined_whereClause {q : Query} (hq : present q.collectionId = none) {clause : Text}
    (h : whereClause [] q = some clause) : Joined clause := by
  rw [whereClause, collectionClause, hq, Option.bind_some] at h
  obtain ⟨includes, hincludes, h⟩ := Option.bind_eq_some_iff.mp h
  obtain ⟨excludes, hexcludes, h⟩ := Option.bind_eq_some_iff.mp h
  obtain ⟨color, hcolor, rfl⟩ := Option.map_eq_some_iff.mp h
  exact ((joined_includeClause hincludes).append (joined_excludeClause hexcludes)).append
    (joined_colorClause hcolor)

/-- A request without a filter; the value `Other` of an include is not a filter. -/
def Unfiltered (q : Query) : Prop :=
  (∀ p ∈ q.includes, isOther p = true) ∧ q.excludes = [] ∧ present q.colorfilter = none

theorem terms_eq_nil_iff {skip : Text → Bool} {ps : List Text} :
    terms skip ps = some [] ↔ ∀ p ∈ ps, skip p = true := by
  induction ps with
  | nil => simp [terms]
  | cons p ps ih =>
    rw [terms, List.forall_mem_cons]
    cases hp : skip p with
    | true => simpa using ih
    | false =>
      cases term p with
      | none => simp
      | some t => simp

/-- A list of terms has no clause if all of them are skipped. -/
theorem group_eq_nil_iff {skip : Text → Bool} {ps : List Text} {opening sep : Text} {lead : Bool}
    (hopening : opening ≠ []) :
    ((terms skip ps).bind fill).map (groupText opening sep lead) = some [] ↔
      ∀ p ∈ ps, skip p = true := by
  rw [← terms_eq_nil_iff, Option.map_eq_some_iff]
  constructor
  · rintro ⟨us, hus, htext⟩
    obtain ⟨ts, hts, hfill⟩ := Option.bind_eq_some_iff.mp hus
    -- a term would come with the text before the group
    have hnil : us = [] := by
      by_contra hne
      rw [groupText, if_neg hne] at htext
      exact hopening (List.append_eq_nil_iff.mp (List.append_eq_nil_iff.mp htext).1).1
    have hlength := length_fill hfill
    rw [hnil, List.length_nil] at hlength
    rw [hts, List.length_eq_zero_iff.mp hlength.symm]
  · intro hts
    exact ⟨[], by rw [hts, Option.bind_some, fill_nil], rfl⟩

/-- Without a collection the clause is empty if there is no filter. -/
theorem whereClause_eq_nil_iff {q : Query} (hq : present q.collectionId = none) :
    whereClause [] q = some [] ↔ Unfiltered q := by
  -- each of the three parts is empty by itself
  have hincludes : includeClause q.includes = some [] ↔ ∀ p ∈ q.includes, isOther p = true := by
    rw [includeClause_eq]
    exact group_eq_nil_iff (by decide)
  have hexcludes : excludeClause q.excludes = some [] ↔ q.excludes = [] := by
    rw [excludeClause_eq, group_eq_nil_iff (by decide), List.eq_nil_iff_forall_not_mem]
    exact forall₂_congr fun p _ => by simp
  have hcolor : colorClause q.colorfilter = some [] ↔ present q.colorfilter = none := by
    rw [colorClause_eq, colorSlot]
    cases present q.colorfilter with
    | none => simp
    | some color => simp
  rw [Unfiltered, ← hincludes, ← hexcludes, ← hcolor, whereClause, collectionClause, hq,
    Option.bind_some]
  constructor
  · intro h
    obtain ⟨includes, hi, h⟩ := Option.bind_eq_some_iff.mp h
    obtain ⟨excludes, he, h⟩ := Option.bind_eq_some_iff.mp h
    obtain ⟨color, hc, h⟩ := Option.map_eq_some_iff.mp h
    obtain ⟨⟨rfl, rfl⟩, rfl⟩ : (includes = [] ∧ excludes = []) ∧ color = [] := by
      simpa only [List.append_eq_nil_iff, List.nil_append] using h
    exact ⟨hi, he, hc⟩
  · rintro ⟨hi, he, hc⟩
    rw [hi, Option.bind_some, he, Option.bind_some, hc]
    rfl

section Pages

variable {lower : List Char → List Char}
  {execute : Sql.Select → Database → List (Option String × Nat)} {render : Body → Response}

/-- A clause that starts with a connective is refused. -/
theorem matching_joined (rest : Text) (works : List Work) :
    matching lower Work.row (" AND ".toList ++ rest) works = none := by
  have hlex : ∃ ts, Sql.lex (" AND ".toList ++ rest) = .word "and" :: ts := by
    have hand : Transducer.feed Sql.step .idle " AND ".toList = (.idle, [.word "and"]) := rfl
    rw [Sql.lex, Transducer.output, Transducer.feed_append, hand]
    exact ⟨_, rfl⟩
  obtain ⟨ts, hts⟩ := hlex
  have hblank : Ruby.blank (" AND ".toList ++ rest) = false := by
    rw [Bool.eq_false_iff]
    intro hall
    -- a letter is not white space
    have hA := List.all_eq_true.mp hall 'A' (by simp)
    revert hA
    decide
  rw [matching, hblank, if_neg Bool.false_ne_true, Sql.select, hts, Sql.parseCondition,
    Sql.parse_reserved rfl (by decide)]
  rfl

/-- **A filter without a collection raises**, whatever is in the database. -/
theorem worksIndex_filter {r : WorksRequest} (h : ¬ Unfiltered r.query) (db : Database) :
    worksIndex lower execute db r render = .serverError := by
  have hnone : ((whereClause [] r.query).bind fun clause => matching lower Work.row clause db.works) = none := by
    cases hclause : whereClause [] r.query with
    | none => rfl
    | some clause =>
      -- the clause is not empty, so it starts with the connective
      obtain rfl | ⟨rest, rfl⟩ := joined_whereClause r.absent hclause
      · exact absurd ((whereClause_eq_nil_iff r.absent).mp hclause) h
      · exact matching_joined rest db.works
  rw [worksIndex, hnone]
  cases properties db.collections [] with
  | none => rfl
  | some ps => rfl

/-- Without a filter the treemap statement has an empty condition. -/
theorem treemapSql_empty {q : Query} (h : whereClause [] q = some []) :
    ((treemapSql [] q).bind fun sql => Sql.parseStatement (Sql.lex sql)) = none := by
  have hstands : (⟨none, false, [], [], none⟩ : Clause).StandsFor ⟨none, false, [], [], none⟩ :=
    ⟨.none, rfl, .nil, .nil, .none⟩
  have hlex : Sql.lex (treemapHead ++ Rails.quoteString (q.property.getD []) ++ treemapBody ++ []
      ++ treemapTail) = treemapTokens (q.property.getD []) [] :=
    treemapFrame.lex_eq hstands (q.property.getD [])
  rw [treemapSql, h, Option.bind_some, Rails.sanitizeSqlArray_single, Option.map_some,
    Option.bind_some, hlex]
  exact parseStatement_treemap_nil _

/-- A configuration without keys stops the list of properties. -/
theorem properties_eq_none {cs : List Collection} {c : Collection} (hc : c ∈ cs)
    (hkeys : c.configuration = none) (ps : List String) : properties cs ps = none := by
  induction cs generalizing ps with
  | nil => exact absurd hc List.not_mem_nil
  | cons d cs ih =>
    rw [properties]
    obtain rfl | hc := List.mem_cons.mp hc
    · rw [hkeys]
      rfl
    · cases d.configuration with
      | none => rfl
      | some keys => exact ih hc _

theorem properties_append (cs ds : List Collection) (ps : List String) :
    properties (cs ++ ds) ps = (properties cs ps).bind (properties ds) := by
  induction cs generalizing ps with
  | nil => rfl
  | cons c cs ih =>
    rw [List.cons_append, properties, properties]
    cases c.configuration with
    | none => rfl
    | some keys => exact ih _

theorem properties_isSome {cs : List Collection} (h : ∀ c ∈ cs, c.configuration ≠ none)
    (ps : List String) : ∃ ps', properties cs ps = some ps' := by
  induction cs generalizing ps with
  | nil => exact ⟨ps, rfl⟩
  | cons c cs ih =>
    rw [List.forall_mem_cons] at h
    obtain ⟨keys, hkeys⟩ := Option.ne_none_iff_exists'.mp h.1
    rw [properties, hkeys]
    exact ih h.2 _

theorem matching_unfiltered {r : WorksRequest} (h : Unfiltered r.query) {works : List Work} :
    ((whereClause [] r.query).bind fun clause => matching lower Work.row clause works) = some works := by
  rw [(whereClause_eq_nil_iff r.absent).mpr h]
  rfl

/-- Without a filter the treemap of a single work redirects to it, and any other treemap raises. -/
theorem worksIndex_treemap {r : WorksRequest} (h : Unfiltered r.query)
    (hvis : r.vis = some "treemap") {db : Database} {ps : List String}
    (hps : properties db.collections [] = some ps) :
    worksIndex lower execute db r render =
      match db.works with
      | [w] => .redirect w.id
      | _ => .serverError := by
  rw [worksIndex, hps, matching_unfiltered h, hvis]
  show (match db.works with | [w] => _ | _ => _) = _
  split
  · rfl
  · rw [treemapSql_empty ((whereClause_eq_nil_iff r.absent).mpr h)]

/-- `@vis` is a visualization other than the default one if it was asked for. -/
theorem getD_vis_eq_iff {r : WorksRequest} {vis : String} (hne : vis ≠ "objectmap") :
    r.vis.getD "objectmap" = vis ↔ r.vis = some vis := by
  cases r.vis with
  | none => exact ⟨fun h => absurd h.symm hne, fun h => (nomatch h)⟩
  | some v => exact (Option.some_inj (a := v) (b := vis)).symm

/-- The visualizations that show one page of their works. -/
def Paged (r : WorksRequest) : Prop := ∃ vis ∈ ["thumbnails", "list", "colorfilter"], r.vis = some vis

theorem paged_iff {r : WorksRequest} :
    Paged r ↔ r.vis.getD "objectmap" ∈ ["thumbnails", "list", "colorfilter"] := by
  constructor
  · rintro ⟨vis, hmem, hvis⟩
    rwa [hvis]
  · intro hmem
    refine ⟨_, hmem, (getD_vis_eq_iff ?_).mp rfl⟩
    intro heq
    rw [heq] at hmem
    exact absurd hmem (by decide)

/-- The works that a page of the list shows. -/
def listed (db : Database) (r : WorksRequest) : List Work := rows r db.works.length db.works

/-- The database refuses the limit of the page, or the list cannot show one of its works. -/
def Raises (db : Database) (r : WorksRequest) : Prop :=
  (Paged r ∧ limitBound ≤ perPage r) ∨
    r.vis = some "list" ∧ (listed db r).any (metadataRaises db) = true

/-- A paged visualization without a filter. -/
theorem worksIndex_paged {r : WorksRequest} (h : Unfiltered r.query) (hpaged : Paged r) {db : Database}
    {ps : List String} (hps : properties db.collections [] = some ps) :
    (Raises db r → worksIndex lower execute db r render = .serverError) ∧
      (¬ Raises db r → ∃ num works, worksIndex lower execute db r render = render (.works ps num works)) := by
  obtain ⟨vis, hmem, hvis⟩ := hpaged
  have hne : vis ≠ "treemap" := by
    rintro rfl
    exact absurd hmem (by decide)
  rw [worksIndex, hps, matching_unfiltered h, hvis]
  simp only [Option.getD_some]
  rw [if_neg hne, if_pos hmem]
  -- what the action tests is whether the page raises
  by_cases hlist : vis = "list"
  · subst hlist
    have hiff : Raises db r ↔ limitBound ≤ perPage r ∨ (listed db r).any (metadataRaises db) = true := by
      rw [Raises, and_iff_right ⟨"list", hmem, hvis⟩, and_iff_right hvis]
    simp only [hiff, true_and]
    exact ⟨fun hr => if_pos hr, fun hr => ⟨_, _, if_neg hr⟩⟩
  · have hiff : Raises db r ↔ limitBound ≤ perPage r := by
      rw [Raises, and_iff_right ⟨vis, hmem, hvis⟩, hvis, Option.some_inj, or_iff_left fun h => hlist h.1]
    simp only [hiff, hlist, false_and, or_false]
    exact ⟨fun hr => if_pos hr, fun hr => ⟨_, _, if_neg hr⟩⟩

/-- A page that raises without a filter. -/
theorem worksIndex_raises {r : WorksRequest} (h : Unfiltered r.query) {db : Database} (hraises : Raises db r) :
    worksIndex lower execute db r render = .serverError := by
  have hpaged : Paged r := hraises.elim And.left fun hlist => ⟨"list", by decide, hlist.1⟩
  cases hps : properties db.collections [] with
  | none => rw [worksIndex, hps]
  | some ps => exact (worksIndex_paged h hpaged hps).1 hraises

/-- Without a filter any page that does not raise shows the properties. -/
theorem worksIndex_page {r : WorksRequest} (h : Unfiltered r.query)
    (hvis : r.vis ≠ some "treemap") {db : Database} {ps : List String}
    (hps : properties db.collections [] = some ps) (hraises : ¬ Raises db r) :
    ∃ num works, worksIndex lower execute db r render = render (.works ps num works) := by
  by_cases hpaged : Paged r
  · exact (worksIndex_paged h hpaged hps).2 hraises
  · have hne : r.vis.getD "objectmap" ≠ "treemap" := by rwa [Ne, getD_vis_eq_iff (by decide)]
    rw [paged_iff] at hpaged
    rw [worksIndex, hps, matching_unfiltered h]
    simp only
    rw [if_neg hne, if_neg hpaged]
    -- the others differ in the works they show, not in the properties
    exact (ite_eq_or_eq _ _ _).elim (fun heq => ⟨_, _, heq⟩) fun heq => ⟨_, _, heq⟩

/-! ### A list that cannot be shown -/

/-- The page that is asked for. -/
def requested (r : WorksRequest) : Nat := if toI r.page ≤ 0 then 1 else (toI r.page).toNat

/-- How many works there are on the pages before. -/
def before (r : WorksRequest) : Nat := (requested r - 1) * perPage r

/-- **Wherever the page can begin**, one of the ids that follow is that of a visible work that the list
cannot show. The works on the pages before have ids below where it begins, and the visible ones among
these works are not more than there are. -/
def ListRaises (v : Database) (r : WorksRequest) : Prop :=
  ∀ start, before r ≤ start → v.works.countP (fun w => w.id < start) ≤ before r →
    ∃ w ∈ v.works, metadataRaises v w = true ∧ start ≤ w.id ∧ w.id < start + perPage r

theorem perPage_pos (r : WorksRequest) : 0 < perPage r := by
  unfold perPage
  split <;> omega

/-- The page that is asked for is there if there are more works than on the pages before. -/
theorem page_eq_requested {r : WorksRequest} {num : Nat} (h : before r < num) : page r num = requested r := by
  have hpos := perPage_pos r
  unfold page
  by_cases hpage : toI r.page ≤ 0
  · rw [if_pos (.inl hpage), requested, if_pos hpage]
  · have hrequested : requested r = (toI r.page).toNat := if_neg hpage
    rw [if_neg, hrequested]
    rintro (hle | hlt)
    · exact hpage hle
    · -- the works fill more than the pages before
      have hle : num ≤ (requested r - 1) * perPage r := by
        rw [← hrequested] at hlt
        have hceil : (num ⌈/⌉ perPage r : Nat) ≤ requested r - 1 := Nat.le_sub_one_of_lt hlt
        rw [Nat.mul_comm]
        exact (ceilDiv_le_iff_le_mul hpos).mp hceil
      exact absurd h (Nat.not_lt.mpr hle)

theorem orderById_ascending (db : Database) : (orderById db.works).Pairwise fun v w => v.id < w.id :=
  List.pairwise_map.mp (sortedLT_insertionSort db.workIds).pairwise

theorem mem_orderById {w : Work} {ws : List Work} : w ∈ orderById ws ↔ w ∈ ws :=
  (List.perm_insertionSort _ ws).mem_iff

theorem countP_orderById (p : Work → Bool) (ws : List Work) : (orderById ws).countP p = ws.countP p :=
  (List.perm_insertionSort _ ws).countP_eq p

/-- There are more visible works than on the pages before: beyond all of them a page could begin. -/
theorem ListRaises.before_lt {v : Database} {r : WorksRequest} (h : ListRaises v r) :
    before r < v.works.length := by
  by_contra hle
  have hbelow : ∀ w ∈ v.works, w.id < before r + (v.works.map Work.id).sum + 1 := by
    intro w hw
    have hsum : w.id ≤ (v.works.map Work.id).sum := List.le_sum_of_mem (List.mem_map_of_mem hw)
    omega
  obtain ⟨w, hw, -, hstart, -⟩ := h (before r + (v.works.map Work.id).sum + 1) (by omega)
    (List.countP_le_length.trans (Nat.le_of_not_lt hle))
  exact absurd (hbelow w hw) (Nat.not_lt.mpr hstart)

/-- The list raises then, whatever is hidden. -/
theorem listed_raises {r : WorksRequest} (h : ListRaises db.visible r) :
    (listed db r).any (metadataRaises db) = true := by
  have hlen : before r < db.works.length :=
    Nat.lt_of_lt_of_le h.before_lt (List.length_filter_le _ _)
  have hsorted := orderById_ascending db
  have hlt : before r < (orderById db.works).length := by
    rwa [orderById, List.length_insertionSort]
  -- the page begins with the work after those on the pages before
  have hcount : db.visible.works.countP (fun w => w.id < (orderById db.works)[before r].id) ≤ before r := by
    have hall := Pages.countP_getElem hsorted hlt
    rw [countP_orderById] at hall
    exact List.filter_sublist.countP_le.trans (Nat.le_of_eq hall)
  obtain ⟨w, hw, hraises, hstart, hend⟩ := h _ (Pages.le_key_getElem hsorted hlt) hcount
  rw [List.any_eq_true]
  refine ⟨w, ?_, (metadataRaises_visible hw).symm.trans hraises⟩
  rw [listed, rows, page_eq_requested hlen]
  exact Pages.mem_window hsorted hlt (mem_orderById.mpr (mem_visible_works.mp hw).1) hstart hend

/-! ### Where nothing is seen -/

/-- The pages whose response does not depend on hidden collections, given the visible part. -/
def PageSafe (v : Database) : Page → Prop
  | .home => ∀ c ∈ v.collections, withWorks v c = true → c.approved = some true → CoverThere v c
  | .collections => ∀ c ∈ v.collections, c.approved = some true → CoverThere v c
  | .works r =>
    ¬ Unfiltered r.query ∨ (∃ c ∈ v.collections, c.configuration = none) ∨
      (r.vis = some "treemap" ∧ 2 ≤ v.works.length) ∨
      (Paged r ∧ limitBound ≤ perPage r) ∨ r.vis = some "list" ∧ ListRaises v r

/-- The requests whose response does not depend on hidden collections. The collection in the cookie
is visible, or it cannot be there: a work that has its id is visible. -/
def Safe (v : Database) (r : Request) : Prop :=
  (∃ id, r.activeCollection = some id ∧ find Collection.id id v.collections = none ∧
    ∃ w ∈ v.works, w.collectionId = some id) ∨
  (∀ id, r.activeCollection = some id → (find Collection.id id v.collections).isSome = true) ∧
    PageSafe v r.page

/-- The works index raises on a safe request. -/
theorem worksIndex_safe {r : WorksRequest} (h : PageSafe db.visible (.works r)) :
    worksIndex lower execute db r render = .serverError := by
  rcases h with hfilter | ⟨c, hc, hkeys⟩ | ⟨hvis, hlength⟩ | ⟨hpaged, hlimit⟩ | ⟨hvis, hraises⟩
  · exact worksIndex_filter hfilter db
  · rw [worksIndex, properties_eq_none (mem_visible_collections.mp hc).1 hkeys]
  · -- two works or more: the treemap raises with a filter and without
    by_cases hclause : Unfiltered r.query
    · cases hps : properties db.collections [] with
      | none => rw [worksIndex, hps]
      | some ps =>
        rw [worksIndex_treemap hclause hvis hps]
        have hle : db.visible.works.length ≤ db.works.length := List.length_filter_le ..
        match hworks : db.works with
        | [] => rfl
        | [w] =>
          rw [hworks, List.length_singleton] at hle
          omega
        | _ :: _ :: _ => rfl
    · exact worksIndex_filter hclause db
  · by_cases hclause : Unfiltered r.query
    · exact worksIndex_raises hclause (.inl ⟨hpaged, hlimit⟩)
    · exact worksIndex_filter hclause db
  · by_cases hclause : Unfiltered r.query
    · exact worksIndex_raises hclause (.inr ⟨hvis, listed_raises hraises⟩)
    · exact worksIndex_filter hclause db

theorem home_visible (h : PageSafe db.visible .home) : home db.visible render = home db render := by
  have hworks : (db.visible.works.filter fun w => approved db.visible w && withThumb db.visible w) =
      db.works.filter fun w => approved db w && withThumb db w := by
    have hpred : ∀ w ∈ db.visible.works, (approved db.visible w && withThumb db.visible w) =
        (approved db w && withThumb db w) :=
      fun w hw => by rw [approved_visible, withThumb_visible hw]
    rw [List.filter_congr hpred]
    -- approved works are visible
    refine filter_filter_of_imp fun w _ hw => ?_
    rw [hiddenWork_of_approved (Bool.and_eq_true_iff.mp hw).1]
    rfl
  have hcollections : (db.visible.collections.filter fun c =>
      withWorks db.visible c && c.approved = some true) =
      db.collections.filter fun c => withWorks db c && c.approved = some true := by
    have hpred : ∀ c ∈ db.visible.collections,
        (withWorks db.visible c && decide (c.approved = some true)) =
          (withWorks db c && decide (c.approved = some true)) :=
      fun c hc => by rw [withWorks_visible hc]
    rw [List.filter_congr hpred]
    refine filter_filter_of_imp fun c _ hc => ?_
    rw [Bool.and_eq_true, decide_eq_true_iff] at hc
    rw [Collection.hidden, hc.2]
    rfl
  have hcovers : ∀ c ∈ db.visible.collections.filter fun c =>
      withWorks db.visible c && c.approved = some true,
      (c, coverUrl db.visible c) = (c, coverUrl db c) := by
    intro c hc
    obtain ⟨hmem, hshown⟩ := List.mem_filter.mp hc
    rw [Bool.and_eq_true, decide_eq_true_iff] at hshown
    rw [coverUrl_visible hmem (h c hmem hshown.1 hshown.2)]
  rw [home, home, hworks, List.map_congr_left hcovers, hcollections]

theorem collectionsIndex_visible (h : PageSafe db.visible .collections) :
    collectionsIndex db.visible render = collectionsIndex db render := by
  -- the covers of approved collections are the same
  have hcovers : ∀ c ∈ approvedCollections db, coverUrl db.visible c = coverUrl db c := by
    intro c hc
    obtain ⟨hmem, happroved⟩ := List.mem_filter.mp hc
    rw [decide_eq_true_iff] at happroved
    have hvisible := visible_of_approved hmem happroved
    exact coverUrl_visible hvisible (h c hvisible happroved)
  have hall : ((approvedCollections db).all fun c => (coverUrl db.visible c).isSome) =
      (approvedCollections db).all fun c => (coverUrl db c).isSome := by
    rw [Bool.eq_iff_iff, List.all_eq_true, List.all_eq_true]
    exact forall₂_congr fun c hc => by rw [hcovers c hc]
  have hmap : ((approvedCollections db).map fun c => (c, (coverUrl db.visible c).getD none)) =
      (approvedCollections db).map fun c => (c, (coverUrl db c).getD none) :=
    List.map_congr_left fun c hc => by rw [hcovers c hc]
  rw [collectionsIndex, collectionsIndex, approvedCollections_visible, hall, hmap]

/-- A collection that is found in the visible part is found. -/
theorem find_isSome_of_visible {id : Nat}
    (h : (find Collection.id id db.visible.collections).isSome = true) :
    (find Collection.id id db.collections).isSome = true := by
  rw [find, List.find?_isSome] at h ⊢
  obtain ⟨c, hc, hid⟩ := h
  exact ⟨c, (mem_visible_collections.mp hc).1, hid⟩

/-- A collection that is not visible is not there if one of its works is visible. -/
theorem find_eq_none_of_work {id : Nat} (h : find Collection.id id db.visible.collections = none)
    {w : Work} (hw : w ∈ db.visible.works) (hid : w.collectionId = some id) :
    find Collection.id id db.collections = none := by
  rw [find, List.find?_eq_none] at h ⊢
  intro c hc hkey
  rw [decide_eq_true_iff] at hkey
  cases hhidden : c.hidden with
  | false => exact h c (mem_visible_collections.mpr ⟨hc, hhidden⟩) (decide_eq_true hkey)
  | true =>
    -- a hidden collection hides its works
    have hwork : hiddenWork db w = true := by
      rw [hiddenWork, List.any_eq_true]
      exact ⟨c, hc, by rw [hhidden, hid, hkey, decide_eq_true rfl]; rfl⟩
    exact absurd ((mem_visible_works.mp hw).2.symm.trans hwork) Bool.false_ne_true

/-- The response to a request whose cookie is found. -/
theorem respond_found {r : Request} (h : ∀ id, r.activeCollection = some id →
    (find Collection.id id db.collections).isSome = true) :
    respond lower execute db r =
      match r.page with
      | .home => home db (.page r.viewer (approvedCollections db))
      | .collections => collectionsIndex db (.page r.viewer (approvedCollections db))
      | .works w => worksIndex lower execute db w (.page r.viewer (approvedCollections db)) := by
  have hfound : (r.activeCollection.any fun id => (find Collection.id id db.collections).isNone) =
      false := by
    cases hr : r.activeCollection with
    | none => rfl
    | some id => rw [Option.any_some, ← Option.not_isSome, h id hr]; rfl
  rw [respond]
  exact if_neg (by rw [hfound]; exact Bool.false_ne_true)

/-- **A safe request** gets the response of the visible part. -/
theorem respond_visible {r : Request} (h : Safe db.visible r) :
    respond lower execute db r = respond lower execute db.visible r := by
  rcases h with ⟨id, hcookie, hnone, w, hw, hid⟩ | ⟨hcookie, hpage⟩
  · -- not found in either
    have hnone' := find_eq_none_of_work hnone hw hid
    rw [respond, respond, hcookie, Option.any_some, Option.any_some, hnone, hnone']
    rfl
  · rw [respond_found fun id hid => find_isSome_of_visible (hcookie id hid), respond_found hcookie,
      approvedCollections_visible]
    cases hr : r.page with
    | home => exact (home_visible (hr ▸ hpage)).symm
    | collections => exact (collectionsIndex_visible (hr ▸ hpage)).symm
    | works w =>
      -- the index raises in both
      rw [hr] at hpage
      have hpage' : PageSafe db.visible.visible (.works w) := by rwa [Database.visible_visible]
      exact (worksIndex_safe hpage).trans (worksIndex_safe hpage').symm

end Pages

end Listing
end Curarium
