import Curarium.Collections.Hidden
import Mathlib.Data.List.Dedup
import Mathlib.Data.Finset.Basic
import Mathlib.Data.Fintype.EquivFin

/-!
# Where hidden collections are seen

A request that is not safe tells a database from its visible part: some hidden collection with some
works, added to the visible part, changes the response (`exists_leak`). So the safe requests are
those whose response never depends on hidden collections (`hidden_iff`).
-/

namespace Curarium
namespace Listing

open Tables WorksIndex

/-! ### Adding a hidden collection -/

/-- A collection and works that can be added to a database. -/
structure Fresh (v : Database) (h : Nat) (ids : List Nat) : Prop where
  collection : h ∉ v.collections.map Collection.id
  noWork : ∀ w ∈ v.works, w.collectionId ≠ some h
  nodup : ids.Nodup
  works : ∀ id ∈ ids, id ∉ v.works.map Work.id

/-- A work of the added collection. -/
def addedWork (h id : Nat) : Work where
  id := id
  collectionId := some h
  title := none
  parsed := some []
  topColors := none

/-- The hidden collection that is added. -/
def addedCollection (h : Nat) (keys : List String) : Collection where
  id := h
  name := none
  approved := some false
  configuration := some keys
  coverId := none

/-- A database with one more collection, hidden, and its works. -/
def extend (v : Database) {h : Nat} (keys : List String) {ids : List Nat} (hf : Fresh v h ids) :
    Database where
  collections := v.collections ++ [addedCollection h keys]
  works := v.works ++ ids.map (addedWork h)
  images := v.images
  collectionIds := by
    rw [List.map_append, List.nodup_append]
    refine ⟨v.collectionIds, List.nodup_singleton _, fun a ha b hb heq => ?_⟩
    obtain rfl := List.mem_singleton.mp hb
    exact hf.collection (heq ▸ ha)
  workIds := by
    have hids : (ids.map (addedWork h)).map Work.id = ids := by
      rw [List.map_map]
      exact List.map_id ids
    rw [List.map_append, hids, List.nodup_append]
    refine ⟨v.workIds, hf.nodup, fun a ha b hb heq => ?_⟩
    exact hf.works b hb (heq ▸ ha)

section Extend

variable {v : Database} {h : Nat} {keys : List String} {ids : List Nat}

theorem hiddenWork_extend (hv : v.visible = v) (hf : Fresh v h ids) (w : Work) :
    hiddenWork (extend v keys hf) w = decide (w.collectionId = some h) := by
  have hnone : hiddenWork v w = false := hv ▸ hiddenWork_visible w
  rw [hiddenWork] at hnone
  rw [hiddenWork, extend, List.any_append, hnone, Bool.false_or, List.any_cons, List.any_nil,
    Bool.or_false]
  rfl

/-- What is added is not visible. -/
theorem visible_extend (hv : v.visible = v) (hf : Fresh v h ids) :
    (extend v keys hf).visible = v := by
  refine Database.eq_of_lists ?_ ?_ ?_
  · show (v.collections ++ [addedCollection h keys]).filter _ = _
    -- nothing that was there is hidden, and what is added is
    have hsame : v.collections.filter (fun c => !c.hidden) = v.collections :=
      congrArg Database.collections hv
    rw [List.filter_append, hsame]
    exact List.append_nil _
  · show (v.works ++ ids.map (addedWork h)).filter _ = _
    have hsame : v.works.filter (fun w => !hiddenWork (extend v keys hf) w) = v.works := by
      rw [List.filter_eq_self]
      intro w hw
      rw [hiddenWork_extend hv, decide_eq_false (hf.noWork w hw)]
      rfl
    have hadded : (ids.map (addedWork h)).filter (fun w => !hiddenWork (extend v keys hf) w) = [] := by
      rw [List.filter_eq_nil_iff]
      intro w hw
      obtain ⟨id, -, rfl⟩ := List.mem_map.mp hw
      rw [hiddenWork_extend hv, addedWork, decide_eq_true rfl]
      exact Bool.false_ne_true
    rw [List.filter_append, hsame, hadded, List.append_nil]
  · show v.images.filter _ = _
    rw [List.filter_eq_self]
    intro i hi
    rw [← hv] at hi
    -- an image of the visible part belongs to one of its works
    obtain ⟨w, hw, hvisible⟩ := List.any_eq_true.mp (List.mem_filter.mp hi).2
    rw [Bool.and_eq_true, Bool.not_eq_true'] at hvisible
    rw [List.any_eq_true]
    refine ⟨w, List.mem_append_left _ hw, ?_⟩
    rw [hiddenWork_extend hv, decide_eq_false (hf.noWork w hw), hvisible.2]
    rfl

theorem exists_fresh (v : Database) {ids : List Nat} (hnodup : ids.Nodup)
    (hids : ∀ id ∈ ids, id ∉ v.works.map Work.id) : ∃ h, Fresh v h ids := by
  obtain ⟨h, hfresh⟩ := Infinite.exists_notMem_finset
    (v.collections.map Collection.id ++ v.works.filterMap Work.collectionId).toFinset
  rw [List.mem_toFinset, List.mem_append, not_or] at hfresh
  refine ⟨h, hfresh.1, fun w hw heq => hfresh.2 ?_, hnodup, hids⟩
  exact List.mem_filterMap.mpr ⟨w, hw, heq⟩

end Extend

/-! ### The list on a larger database -/

section List

variable {v : Database} {r : WorksRequest} {start : Nat}

/-- Ids of hidden works that fill the pages before and, together with the visible works, the page that
begins at an id. -/
def filling (v : Database) (r : WorksRequest) (start : Nat) : List Nat :=
  ((List.range start).filter fun id => id ∉ v.works.map Work.id).take
      (before r - v.works.countP fun w => w.id < start) ++
    (List.range' start (perPage r)).filter fun id => id ∉ v.works.map Work.id

theorem mem_filling {id : Nat} (h : id ∈ filling v r start) : id ∉ v.works.map Work.id := by
  rcases List.mem_append.mp h with h | h
  · exact of_decide_eq_true (List.mem_filter.mp (List.mem_of_mem_take h)).2
  · exact of_decide_eq_true (List.mem_filter.mp h).2

theorem nodup_filling : (filling v r start).Nodup := by
  refine List.Nodup.append ((List.nodup_range.filter _).sublist (List.take_sublist ..))
    (List.Nodup.filter _ List.nodup_range') fun id hlow hhigh => ?_
  have hlt := List.mem_range.mp (List.mem_filter.mp (List.mem_of_mem_take hlow)).1
  have hle := (List.mem_range'_1.mp (List.mem_filter.mp hhigh).1).1
  exact absurd hlt (Nat.not_lt.mpr hle)

/-- Below an id there is room for all that is missing on the pages before. -/
theorem le_length_free (hstart : before r ≤ start) :
    (before r - v.works.countP fun w => w.id < start) ≤
      ((List.range start).filter fun id => id ∉ v.works.map Work.id).length := by
  -- the ids that are taken are those of the visible works below
  have htaken : ((List.range start).filter fun id => id ∈ v.works.map Work.id).length ≤
      v.works.countP fun w => w.id < start := by
    have hsub : ((List.range start).filter fun id => id ∈ v.works.map Work.id) ⊆
        (v.works.map Work.id).filter fun id => id < start := by
      intro id hid
      obtain ⟨hlt, hmem⟩ := List.mem_filter.mp hid
      exact List.mem_filter.mpr ⟨of_decide_eq_true hmem, decide_eq_true (List.mem_range.mp hlt)⟩
    have hle := ((List.nodup_range.filter _).subperm hsub).length_le
    rwa [← List.countP_eq_length_filter (l := v.works.map Work.id), List.countP_map] at hle
  have hsplit := List.length_eq_length_filter_add (l := List.range start) fun id =>
    decide (id ∈ v.works.map Work.id)
  rw [List.length_range] at hsplit
  simp only [decide_not]
  omega

theorem countP_filling (hstart : before r ≤ start) :
    (filling v r start).countP (fun id => id < start) = before r - v.works.countP fun w => w.id < start := by
  have hlow : ∀ id ∈ ((List.range start).filter fun id => id ∉ v.works.map Work.id).take
      (before r - v.works.countP fun w => w.id < start), decide (id < start) = true := by
    intro id hid
    exact decide_eq_true (List.mem_range.mp (List.mem_of_mem_filter (List.mem_of_mem_take hid)))
  have hhigh : ∀ id ∈ (List.range' start (perPage r)).filter fun id => id ∉ v.works.map Work.id,
      ¬ decide (id < start) = true := by
    intro id hid hlt
    have hle := (List.mem_range'_1.mp (List.mem_of_mem_filter hid)).1
    exact absurd (of_decide_eq_true hlt) (Nat.not_lt.mpr hle)
  rw [filling, List.countP_append, List.countP_eq_length.mpr hlow, List.countP_eq_zero.mpr hhigh,
    Nat.add_zero, List.length_take, Nat.min_eq_left (le_length_free hstart)]

variable {h : Nat} {keys : List String} {hf : Fresh v h (filling v r start)}

variable (keys hf) in
/-- Every id from there on, for a page, is that of a work. -/
theorem exists_work {id : Nat} (hle : start ≤ id) (hlt : id < start + perPage r) :
    ∃ w ∈ (extend v keys hf).works, w.id = id := by
  by_cases hid : id ∈ v.works.map Work.id
  · obtain ⟨w, hw, rfl⟩ := List.mem_map.mp hid
    exact ⟨w, List.mem_append_left _ hw, rfl⟩
  · refine ⟨addedWork h id, List.mem_append_right _ (List.mem_map_of_mem ?_), rfl⟩
    refine List.mem_append_right _ (List.mem_filter.mpr ⟨?_, decide_eq_true hid⟩)
    exact List.mem_range'_1.mpr ⟨hle, hlt⟩

theorem metadataRaises_extend (hv : v.visible = v) {w : Work} (hw : w ∈ (extend v keys hf).works) :
    metadataRaises (extend v keys hf) w = false ∨
      w ∈ v.works ∧ metadataRaises (extend v keys hf) w = metadataRaises v w := by
  rcases List.mem_append.mp hw with hw | hw
  · have hsame : (extend v keys hf).visible = v := visible_extend hv hf
    have hvisible : w ∈ (extend v keys hf).visible.works := by rwa [hsame]
    have heq := metadataRaises_visible hvisible
    rw [hsame] at heq
    exact .inr ⟨hw, heq.symm⟩
  · -- an added work has its collection, and no metadata
    obtain ⟨id, -, rfl⟩ := List.mem_map.mp hw
    refine .inl ?_
    have hcollection : ((extend v keys hf).collections.any fun c =>
        (addedWork h id).collectionId = some c.id) = true :=
      List.any_eq_true.mpr
        ⟨addedCollection h keys, List.mem_append_right _ List.mem_cons_self, decide_eq_true rfl⟩
    rw [metadataRaises, hcollection]
    rfl

/-- With hidden works on these ids the page that is asked for begins there, and can be shown. -/
theorem listed_extend (hv : v.visible = v) (hstart : before r ≤ start)
    (hcount : v.works.countP (fun w => w.id < start) ≤ before r)
    (hshown : ∀ w ∈ v.works, metadataRaises v w = true → start ≤ w.id → ¬ w.id < start + perPage r) :
    (listed (extend v keys hf) r).any (metadataRaises (extend v keys hf)) = false := by
  have hsorted := orderById_ascending (extend v keys hf)
  have hbefore : (orderById (extend v keys hf).works).countP (fun w => w.id < start) = before r := by
    have hadded : ((filling v r start).map (addedWork h)).countP (fun w => w.id < start) =
        (filling v r start).countP fun id => id < start := List.countP_map ..
    rw [countP_orderById, extend, List.countP_append, hadded, countP_filling hstart]
    omega
  -- the works after those on the pages before are those from the id on
  have hmem : ∀ w, w ∈ (orderById (extend v keys hf).works).drop (before r) ↔
      w ∈ (extend v keys hf).works ∧ start ≤ w.id := by
    intro w
    have hdrop := Pages.mem_drop_countP (x := w) (a := start) hsorted
    rwa [hbefore, mem_orderById] at hdrop
  have hlen : before r < (extend v keys hf).works.length := by
    obtain ⟨w, hw, hid⟩ := exists_work keys hf (Nat.le_refl start)
      (Nat.lt_add_of_pos_right (perPage_pos r))
    have hpos := List.length_pos_of_mem ((hmem w).mpr ⟨hw, Nat.le_of_eq hid.symm⟩)
    rw [List.length_drop, orderById, List.length_insertionSort] at hpos
    exact Nat.lt_of_sub_pos hpos
  rw [List.any_eq_false]
  intro w hw hraises
  rw [listed, rows, page_eq_requested hlen] at hw
  have hlt : w.id < start + perPage r := by
    refine Pages.key_lt_of_mem_take (hsorted.sublist (List.drop_sublist (before r) _))
      (fun w hw => ((hmem w).mp hw).2) (fun id hle hlt => ?_) hw
    obtain ⟨w', hw', rfl⟩ := exists_work keys hf hle hlt
    exact ⟨w', (hmem w').mpr ⟨hw', hle⟩, rfl⟩
  obtain ⟨hw, hle⟩ := (hmem w).mp (List.mem_of_mem_take hw)
  rcases metadataRaises_extend hv hw with hnot | ⟨hvisible, heq⟩
  · exact absurd hraises (by rw [hnot]; exact Bool.false_ne_true)
  · exact hshown w hvisible (heq.symm.trans hraises) hle hlt

end List

/-! ### The pages on the larger database -/

/-- The works that are set as a cover and not there. -/
def missing (v : Database) : List Nat :=
  ((v.collections.filterMap Collection.coverId).filter fun id =>
    (find Work.id id v.works).isNone).dedup

theorem missing_notMem (v : Database) : ∀ id ∈ missing v, id ∉ v.works.map Work.id := by
  intro id hid hmem
  have hnone := (List.mem_filter.mp (List.mem_dedup.mp hid)).2
  rw [Option.isNone_iff_eq_none, find, List.find?_eq_none] at hnone
  obtain ⟨w, hw, rfl⟩ := List.mem_map.mp hmem
  exact hnone w hw (decide_eq_true rfl)

/-- With the missing works every cover is there. -/
theorem coverThere_extend {v : Database} {h : Nat} {keys : List String} (hf : Fresh v h (missing v))
    {c : Collection} (hc : c ∈ v.collections) : CoverThere (extend v keys hf) c := by
  intro id hid
  rw [find, List.find?_isSome]
  cases hfind : find Work.id id v.works with
  | some w => exact ⟨w, List.mem_append_left _ (find_mem hfind), decide_eq_true (find_key hfind)⟩
  | none =>
    -- the work is missing, so it is one of those that were added
    refine ⟨addedWork h id, List.mem_append_right _ (List.mem_map_of_mem ?_), decide_eq_true rfl⟩
    rw [missing, List.mem_dedup, List.mem_filter]
    exact ⟨List.mem_filterMap.mpr ⟨c, hc, hid⟩, by rw [hfind]; rfl⟩

theorem coverUrl_isSome_iff {db : Database} {c : Collection} :
    (coverUrl db c).isSome = true ↔ CoverThere db c := by
  rw [coverUrl, Option.isSome_map, cover, CoverThere]
  cases c.coverId with
  | none => simp
  | some id => simp

section Pages

variable {lower : List Char → List Char}
  {execute : Sql.Select → Database → List (Option String × Nat)} {v : Database}

/-- A collection of the home page whose cover is not there is told from one whose cover is. -/
theorem home_leak {viewer : Option Nat} {header : List Collection} (hv : v.visible = v)
    (h : ¬ PageSafe v .home) : ∃ db : Database, db.visible = v ∧
      home db (.page viewer header) ≠ home v (.page viewer header) := by
  obtain ⟨h', hf⟩ := exists_fresh v (List.nodup_dedup _) (missing_notMem v)
  refine ⟨extend v [] hf, visible_extend hv hf, fun heq => h fun c hc hworks happroved => ?_⟩
  have hlists := (Body.home.inj (Response.page.inj heq).2.2).2
  have hmem : (c, coverUrl v c) ∈ (v.collections.filter fun c =>
      withWorks v c && c.approved = some true).map fun c => (c, coverUrl v c) := by
    refine List.mem_map_of_mem (List.mem_filter.mpr ⟨hc, ?_⟩)
    rw [hworks, happroved]
    rfl
  -- the same pair is on the other page, and there the cover is found
  rw [← hlists] at hmem
  obtain ⟨c', -, hpair⟩ := List.mem_map.mp hmem
  obtain ⟨rfl, hcover⟩ := Prod.mk.inj hpair
  rw [← coverUrl_isSome_iff, ← hcover, coverUrl_isSome_iff]
  exact coverThere_extend hf hc

/-- The list of collections raises if a cover is not there. -/
theorem collectionsIndex_leak {viewer : Option Nat} {header : List Collection} (hv : v.visible = v)
    (h : ¬ PageSafe v .collections) : ∃ db : Database, db.visible = v ∧
      collectionsIndex db (.page viewer header) ≠ collectionsIndex v (.page viewer header) := by
  obtain ⟨h', hf⟩ := exists_fresh v (List.nodup_dedup _) (missing_notMem v)
  refine ⟨extend v [] hf, visible_extend hv hf, ?_⟩
  -- the visible part raises
  have hraises : ((approvedCollections v).all fun c => (coverUrl v c).isSome) ≠ true := by
    intro hall
    refine h fun c hc happroved => coverUrl_isSome_iff.mp (List.all_eq_true.mp hall c ?_)
    exact List.mem_filter.mpr ⟨hc, decide_eq_true happroved⟩
  have hsame : approvedCollections (extend v [] hf) = approvedCollections v := by
    rw [← approvedCollections_visible, visible_extend hv]
  -- with the missing works the page is shown
  have hshows : ((approvedCollections v).all fun c => (coverUrl (extend v [] hf) c).isSome) = true :=
    List.all_eq_true.mpr fun c hc =>
      coverUrl_isSome_iff.mpr (coverThere_extend hf (List.mem_of_mem_filter hc))
  rw [collectionsIndex, collectionsIndex, if_neg hraises, hsame, if_pos hshows]
  exact Response.noConfusion

/-- A key that is not among the properties. -/
theorem exists_key (ps : List String) : ∃ k, k ∉ excludeProps ∧ k ∉ ps := by
  obtain ⟨k, hk⟩ := Infinite.exists_notMem_finset (excludeProps ++ ps).toFinset
  rw [List.mem_toFinset, List.mem_append, not_or] at hk
  exact ⟨k, hk⟩

/-- Hidden works with which the page can be shown. -/
theorem exists_shown {r : WorksRequest} (hv : v.visible = v)
    (h : ¬ (r.vis = some "list" ∧ ListRaises v r)) : ∃ ids : List Nat, ids.Nodup ∧
      (∀ id ∈ ids, id ∉ v.works.map Work.id) ∧
      ∀ {h : Nat} {keys : List String} (hf : Fresh v h ids), r.vis = some "list" →
        (listed (extend v keys hf) r).any (metadataRaises (extend v keys hf)) = false := by
  by_cases hvis : r.vis = some "list"
  · -- from some id on, the list can show the next visible works
    have hraises : ¬ ListRaises v r := fun hraises => h ⟨hvis, hraises⟩
    unfold ListRaises at hraises
    push Not at hraises
    obtain ⟨start, hstart, hcount, hshown⟩ := hraises
    refine ⟨filling v r start, nodup_filling, fun _ => mem_filling, fun hf _ => ?_⟩
    exact listed_extend hv hstart hcount fun w hw hraises hle => Nat.not_lt.mpr (hshown w hw hraises hle)
  · exact ⟨[], List.nodup_nil, fun _ hid => absurd hid List.not_mem_nil, fun _ hlist => absurd hlist hvis⟩

/-- A key of a hidden collection is one of the properties. -/
theorem properties_extend {h : Nat} {ids : List Nat} {k : String} {ps : List String} (hf : Fresh v h ids)
    (hps : properties v.collections [] = some ps) (hexclude : k ∉ excludeProps) (hk : k ∉ ps) :
    properties (extend v [k] hf).collections [] = some (ps ++ [k]) := by
  show properties (v.collections ++ [addedCollection h [k]]) [] = _
  rw [properties_append, hps]
  show some (if k ∈ excludeProps ∨ k ∈ ps then ps else ps ++ [k]) = _
  rw [if_neg (not_or.mpr ⟨hexclude, hk⟩)]

/-- The treemap without a filter, which raises unless there is one work, counts the hidden works. -/
theorem treemap_leak {r : WorksRequest} {viewer : Option Nat} {header : List Collection}
    (hv : v.visible = v) (hclause : Unfiltered r.query) (hvis : r.vis = some "treemap") {ps : List String}
    (hps : properties v.collections [] = some ps) (hfew : v.works.length < 2) :
    ∃ db : Database, db.visible = v ∧
      worksIndex lower execute db r (.page viewer header) ≠
        worksIndex lower execute v r (.page viewer header) := by
  obtain ⟨k, hexclude, hk⟩ := exists_key ps
  obtain ⟨id, hid⟩ := Infinite.exists_notMem_finset (v.works.map Work.id).toFinset
  rw [List.mem_toFinset] at hid
  obtain ⟨h', hf⟩ := exists_fresh v (List.nodup_singleton id) (List.forall_mem_singleton.mpr hid)
  refine ⟨extend v [k] hf, visible_extend hv hf, ?_⟩
  rw [worksIndex_treemap hclause hvis hps,
    worksIndex_treemap hclause hvis (properties_extend hf hps hexclude hk)]
  have hadded : (extend v [k] hf).works = v.works ++ [addedWork h' id] := rfl
  rw [hadded]
  cases hlist : v.works with
  | nil =>
    -- none, which raises, becomes one
    exact Response.noConfusion
  | cons w rest =>
    cases rest with
    | nil =>
      -- one becomes two, which raises
      exact Response.noConfusion
    | cons w' rest =>
      rw [hlist, List.length_cons, List.length_cons] at hfew
      omega

/-- The other visualizations show the keys of a hidden collection, where they can be shown. -/
theorem page_leak {r : WorksRequest} {viewer : Option Nat} {header : List Collection}
    (hv : v.visible = v) (hclause : Unfiltered r.query) (hvis : r.vis ≠ some "treemap") {ps : List String}
    (hps : properties v.collections [] = some ps) (hlimit : ¬ (Paged r ∧ limitBound ≤ perPage r))
    (hlist : ¬ (r.vis = some "list" ∧ ListRaises v r)) : ∃ db : Database, db.visible = v ∧
      worksIndex lower execute db r (.page viewer header) ≠
        worksIndex lower execute v r (.page viewer header) := by
  obtain ⟨k, hexclude, hk⟩ := exists_key ps
  obtain ⟨ids, hnodup, hids, hshown⟩ := exists_shown hv hlist
  obtain ⟨h', hf⟩ := exists_fresh v hnodup hids
  refine ⟨extend v [k] hf, visible_extend hv hf, ?_⟩
  have hshows : ∃ num works, worksIndex lower execute (extend v [k] hf) r (.page viewer header) =
      .page viewer header (.works (ps ++ [k]) num works) := by
    refine worksIndex_page hclause hvis (properties_extend hf hps hexclude hk) (not_or.mpr ⟨hlimit, ?_⟩)
    rintro ⟨hlist, hraises⟩
    exact Bool.false_ne_true ((hshown hf hlist).symm.trans hraises)
  obtain ⟨num', works', hext⟩ := hshows
  rw [hext]
  by_cases hraises : Raises v r
  · rw [worksIndex_raises hclause hraises]
    exact Response.noConfusion
  · have hpage : ∃ num works, worksIndex lower execute v r (.page viewer header) =
        .page viewer header (.works ps num works) := worksIndex_page hclause hvis hps hraises
    obtain ⟨num, works, hpage⟩ := hpage
    rw [hpage]
    intro heq
    -- the key is on one of the pages only
    have hprops := (Body.works.inj (Response.page.inj heq).2.2).1
    exact absurd hprops (by simp)

/-- The works index tells hidden collections where it is not safe. -/
theorem worksIndex_leak {r : WorksRequest} {viewer : Option Nat} {header : List Collection}
    (hv : v.visible = v) (h : ¬ PageSafe v (.works r)) : ∃ db : Database, db.visible = v ∧
      worksIndex lower execute db r (.page viewer header) ≠
        worksIndex lower execute v r (.page viewer header) := by
  obtain ⟨hclause, h⟩ := not_or.mp h
  obtain ⟨hconfigured, h⟩ := not_or.mp h
  obtain ⟨hworks, h⟩ := not_or.mp h
  obtain ⟨hlimit, hlist⟩ := not_or.mp h
  rw [not_not] at hclause
  obtain ⟨ps, hps⟩ := properties_isSome (fun c hc hnone => hconfigured ⟨c, hc, hnone⟩) []
  by_cases hvis : r.vis = some "treemap"
  · exact treemap_leak hv hclause hvis hps (Nat.lt_of_not_le fun hle => hworks ⟨hvis, hle⟩)
  · exact page_leak hv hclause hvis hps hlimit hlist

theorem worksIndex_ne_notFound {db : Database} {r : WorksRequest} {viewer : Option Nat}
    {header : List Collection} :
    worksIndex lower execute db r (.page viewer header) ≠ .notFound := by
  unfold worksIndex
  intro h
  split at h
  · exact Response.noConfusion h
  · split at h
    · exact Response.noConfusion h
    · dsimp only at h
      split_ifs at h
      -- the treemap is left
      split at h
      · exact Response.noConfusion h
      · split at h
        · exact Response.noConfusion h
        · exact Response.noConfusion h

/-- The cookie is the only record that is looked up. -/
theorem respond_ne_notFound {db : Database} {r : Request} (h : ∀ id, r.activeCollection = some id →
    (find Collection.id id db.collections).isSome = true) :
    respond lower execute db r ≠ .notFound := by
  rw [respond_found h]
  cases r.page with
  | home => exact Response.noConfusion
  | collections =>
    show collectionsIndex db _ ≠ _
    rw [collectionsIndex]
    split_ifs
    · exact Response.noConfusion
    · exact Response.noConfusion
  | works w => exact worksIndex_ne_notFound

variable (lower execute) in
/-- **A request that is not safe** tells some database from its visible part. -/
theorem exists_leak {r : Request} (hv : v.visible = v) (h : ¬ Safe v r) :
    ∃ db : Database, db.visible = v ∧ respond lower execute db r ≠ respond lower execute v r := by
  obtain ⟨hdangling, hsafe⟩ := not_or.mp h
  by_cases hcookie : ∀ id, r.activeCollection = some id →
      (find Collection.id id v.collections).isSome = true
  · -- the cookie is found on both sides, so the pages decide
    have hpage : ¬ PageSafe v r.page := fun hpage => hsafe ⟨hcookie, hpage⟩
    have hcookie' : ∀ db : Database, db.visible = v → ∀ id, r.activeCollection = some id →
        (find Collection.id id db.collections).isSome = true :=
      fun db hdb id hid => find_isSome_of_visible (hdb ▸ hcookie id hid)
    have hheader : ∀ db : Database, db.visible = v → approvedCollections db = approvedCollections v :=
      fun db hdb => hdb ▸ approvedCollections_visible.symm
    cases hr : r.page with
    | home =>
      obtain ⟨db, hdb, hne⟩ := home_leak hv (hr ▸ hpage)
      refine ⟨db, hdb, ?_⟩
      rw [respond_found (hcookie' db hdb), respond_found hcookie, hr, hheader db hdb]
      exact hne
    | collections =>
      obtain ⟨db, hdb, hne⟩ := collectionsIndex_leak hv (hr ▸ hpage)
      refine ⟨db, hdb, ?_⟩
      rw [respond_found (hcookie' db hdb), respond_found hcookie, hr, hheader db hdb]
      exact hne
    | works w =>
      obtain ⟨db, hdb, hne⟩ := worksIndex_leak hv (hr ▸ hpage)
      refine ⟨db, hdb, ?_⟩
      rw [respond_found (hcookie' db hdb), respond_found hcookie, hr, hheader db hdb]
      exact hne
  · -- a hidden collection with the id in the cookie makes the difference between found and not
    obtain ⟨id, hid⟩ := not_forall.mp hcookie
    obtain ⟨hid, hnone⟩ := Classical.not_imp.mp hid
    rw [Bool.not_eq_true, Option.isSome_eq_false_iff, Option.isNone_iff_eq_none] at hnone
    have hfresh : Fresh v id [] := by
      refine ⟨fun hmem => ?_, fun w hw heq => hdangling ⟨id, hid, hnone, w, hw, heq⟩, List.nodup_nil,
        fun id' hid' => absurd hid' List.not_mem_nil⟩
      obtain ⟨c, hc, hkey⟩ := List.mem_map.mp hmem
      exact List.find?_eq_none.mp hnone c hc (decide_eq_true hkey)
    have hfound : ∀ id', r.activeCollection = some id' →
        (find Collection.id id' (extend v [] hfresh).collections).isSome = true := by
      intro id' hid'
      obtain rfl := Option.some.inj (hid.symm.trans hid')
      rw [find, List.find?_isSome]
      exact ⟨addedCollection id [], List.mem_append_right _ List.mem_cons_self, decide_eq_true rfl⟩
    have hnotFound : respond lower execute v r = .notFound := by
      rw [respond, hid, Option.any_some, hnone]
      rfl
    refine ⟨extend v [] hfresh, visible_extend hv hfresh, ?_⟩
    rw [hnotFound]
    exact respond_ne_notFound hfound

/-- **Hidden collections stay hidden** exactly from the safe requests: their response is the same on
all databases with the same visible part. -/
theorem hidden_iff (r : Request) (db : Database) :
    (∀ db' : Database, db'.visible = db.visible →
      respond lower execute db' r = respond lower execute db r) ↔ Safe db.visible r := by
  constructor
  · intro hsame
    by_contra hnot
    -- the database that is told from the visible part is told from this one, or this one from it
    obtain ⟨db', hdb', hne⟩ := exists_leak lower execute Database.visible_visible hnot
    exact hne ((hsame db' hdb').trans (hsame db.visible Database.visible_visible).symm)
  · intro hsafe db' hdb'
    rw [respond_visible hsafe, respond_visible (hdb'.symm ▸ hsafe), hdb']

end Pages

def noRows : Database := ⟨[], [], [], List.nodup_nil, List.nodup_nil⟩

theorem fresh_noRows : Fresh noRows 1 [1] where
  collection := List.not_mem_nil
  noWork _ hw := absurd hw List.not_mem_nil
  nodup := List.nodup_singleton 1
  works _ _ := List.not_mem_nil

/-- The list of all works. -/
def listRequest : Request where
  viewer := none
  activeCollection := none
  page := .works
    { vis := some "list", page := none, perPage := none, query := ⟨none, [], [], none, none⟩
      known := fun _ hv => Option.some.inj hv ▸ List.mem_cons_self
      absent := rfl }

/-- The work of a hidden collection is on the page of an anonymous visitor. -/
theorem not_hidden_list : ¬ ∀ (r : Request) (db db' : Database), db'.visible = db.visible →
    respond id (fun _ _ => []) db' r = respond id (fun _ _ => []) db r := by
  intro hall
  have hsame := hall listRequest noRows (extend noRows [] fresh_noRows) rfl
  have hbody := (Response.page.inj hsame).2.2
  have hworks : [addedWork 1 1] = [] := (Body.works.inj hbody).2.2
  exact absurd hworks (by simp)

end Listing
end Curarium
