import Curarium.Trays.Requests
import Mathlib.Data.List.Perm.Basic
import Mathlib.Data.List.Count

/-!
# A tray as a set

Nothing in the table keeps an image from being in a tray twice. The toggle looks before it
inserts, but another toggle may insert in between; `move` and `copy` do not look.

* `isSet_iff` — after one step the trays are sets exactly when what arrives in a tray was not there.
* `toggle_twice` — where trays are sets, two toggles in a row give back what the trays hold.
* `always_isSet_iff` — the same for whole runs.
-/

namespace Curarium
namespace Trays

open Tables Runs

/-- **Trays are sets**: no tray holds an image or an annotation twice. -/
def IsSet (items : List TrayItem) : Prop :=
  ∀ tray k r, items.countP (isIn tray k (some r)) ≤ 1

/-- What a tray holds: the two columns of its rows. -/
def contents (items : List TrayItem) (tray : Nat) : List (Option Nat × Option Nat) :=
  (items.filter (fun x => x.trayId = some tray)).map fun x => (x.imageId, x.annotationId)

/-- Two toggles in a row of something that is there give back what the trays hold. -/
def TogglesBack (db : Records) (s : Table) : Prop :=
  ∀ type tip g r, check db s.items type tip = some g → db.findRef g.column g.id = some r →
    ∀ tray, (contents (create db (create db s type tip) type tip).items tray).Perm
      (contents s.items tray)

/-- The condition on a step: what arrives in a tray is not in it. -/
def Unoccupied (db : Records) (s : State) : Event → Prop
  | .move id tip => ∀ x tray, find TrayItem.id id s.table.items = some x →
      db.findTray tip.trayId = some tray → x.trayId = some tray ∨
        ∀ k r, x.ref k = some r → hasId s.table.items tray k (some r) = false
  | .copy id tip => ∀ x tray im, find TrayItem.id id s.table.items = some x →
      db.findTray tip.trayId = some tray → db.image x = some im →
        hasImageId s.table.items tray (some im) = false
  | .act i => ∀ g r, s.toggles[i]? = some g → g.found = false → db.findRef g.column g.id = some r →
      hasId s.table.items g.tray g.column (some r) = false
  | _ => True

/-! ### Counting the rows of an item -/

theorem hasId_eq_false {items : List TrayItem} {tray : Nat} {k : Column} {id : Option Nat} :
    hasId items tray k id = false ↔ items.countP (isIn tray k id) = 0 := by
  rw [hasId, decide_eq_false_iff_not, Nat.not_lt, Nat.le_zero]

/-- A row counts for a tray, a column and a value when it has them. -/
theorem isIn_iff {tray : Nat} {k : Column} {id : Option Nat} {x : TrayItem} :
    isIn tray k id x = true ↔ x.trayId = some tray ∧ x.ref k = id := by
  rw [isIn, Bool.and_eq_true, decide_eq_true_iff, decide_eq_true_iff]

/-- Rows that are deleted do not make a tray less of a set. -/
theorem IsSet.filter {items : List TrayItem} (h : IsSet items) (p : TrayItem → Bool) :
    IsSet (items.filter p) := by
  intro tray k r
  exact Nat.le_trans (List.filter_sublist.countP_le) (h tray k r)

/-- **A row that arrives.** The trays stay sets exactly when the tray of the row does not hold what
the row refers to. -/
theorem isSet_insert_iff {before after : List TrayItem} {x : TrayItem} {tray : Nat}
    (hset : IsSet (before ++ after)) (hx : x.trayId = some tray) :
    IsSet (before ++ x :: after) ↔
      ∀ k r, x.ref k = some r → (before ++ after).countP (isIn tray k (some r)) = 0 := by
  -- the rows with the new one among them, counted
  have hcount : ∀ tray' k r, (before ++ x :: after).countP (isIn tray' k (some r)) =
      (before ++ after).countP (isIn tray' k (some r)) +
        if isIn tray' k (some r) x = true then 1 else 0 := by
    intro tray' k r
    rw [List.countP_append, List.countP_cons, List.countP_append, Nat.add_assoc]
  constructor
  · intro h k r hr
    have hle := h tray k r
    rw [hcount, if_pos (isIn_iff.mpr ⟨hx, hr⟩)] at hle
    omega
  · intro h tray' k r
    rw [hcount]
    split
    · next hin =>
      obtain ⟨htray, hr⟩ := isIn_iff.mp hin
      obtain rfl := Option.some.inj (hx.symm.trans htray)
      exact Nat.le_of_eq (congrArg (· + 1) (h k r hr))
    · exact hset tray' k r

/-- The same for a row at the end. -/
theorem isSet_append_iff {items : List TrayItem} {x : TrayItem} {tray : Nat} (hset : IsSet items)
    (hx : x.trayId = some tray) : IsSet (items ++ [x]) ↔
      ∀ k r, x.ref k = some r → items.countP (isIn tray k (some r)) = 0 := by
  rw [← List.append_nil items] at hset
  rw [isSet_insert_iff hset hx, List.append_nil]

/-- The row that a toggle inserts. -/
theorem createRef_items (s : Table) (tray r : Nat) (k : Column) :
    ∃ y, (s.createRef tray r k).items = s.items ++ [y] ∧ y.trayId = some tray ∧
      ∀ k' r', y.ref k' = some r' ↔ k' = k ∧ r' = r := by
  cases k with
  | imageId =>
    refine ⟨_, rfl, rfl, fun k' r' => ?_⟩
    cases k' with
    | imageId => simp [TrayItem.ref, eq_comm]
    | annotationId => simp [TrayItem.ref]
  | annotationId =>
    refine ⟨_, rfl, rfl, fun k' r' => ?_⟩
    cases k' with
    | imageId => simp [TrayItem.ref]
    | annotationId => simp [TrayItem.ref, eq_comm]

/-! ### One step -/

/-- The row of a copy refers to the image of the source, if that is there. -/
theorem isSet_copy_iff {db : Records} {s : Table} (hset : IsSet s.items) {id : Nat} {tip : Params} :
    IsSet (copy db s id tip).items ↔ ∀ x tray im, find TrayItem.id id s.items = some x →
      db.findTray tip.trayId = some tray → db.image x = some im →
        hasImageId s.items tray (some im) = false := by
  rw [copy]
  split
  · next x tray hx htray =>
    refine (isSet_append_iff hset rfl).trans ⟨?_, ?_⟩
    · intro h x' tray' im hx' htray' him
      obtain rfl := Option.some.inj (hx.symm.trans hx')
      obtain rfl := Option.some.inj (htray.symm.trans htray')
      exact hasId_eq_false.mpr (h .imageId im him)
    · intro h k r hr
      -- the new row has no annotation
      cases k with
      | imageId => exact hasId_eq_false.mp (h x tray r hx htray hr)
      | annotationId => exact absurd hr (by simp [TrayItem.ref])
  · next hno => exact iff_of_true hset fun x tray _ hx htray => absurd htray (hno x tray hx)

/-- A move takes the row out of its tray and puts it into the other one. -/
theorem isSet_move_iff {db : Records} {s : Table} (hwf : s.Wf) (hset : IsSet s.items) {id : Nat}
    {tip : Params} : IsSet (move db s id tip).items ↔
      ∀ x tray, find TrayItem.id id s.items = some x → db.findTray tip.trayId = some tray →
        x.trayId = some tray ∨
          ∀ k r, x.ref k = some r → hasId s.items tray k (some r) = false := by
  rw [move]
  split
  · next x tray hx htray =>
    obtain ⟨before, after, hsplit, -, hupdate⟩ := exists_split hwf.distinct hx
    change IsSet (update TrayItem.id id _ s.items) ↔ _
    rw [hupdate]
    -- the rows other than the moved one
    have hrest : IsSet (before ++ after) := by
      intro tray' k r
      refine Nat.le_trans (List.Sublist.countP_le ?_) (hset tray' k r)
      rw [hsplit]
      exact (List.Sublist.refl before).append (List.sublist_cons_self x after)
    rw [isSet_insert_iff hrest rfl]
    by_cases hown : x.trayId = some tray
    · -- the item is in the tray already, and the table does not change
      refine iff_of_true ?_ fun x' tray' hx' htray' => ?_
      · refine (isSet_insert_iff hrest hown).mp ?_
        rwa [← hsplit]
      · obtain rfl := Option.some.inj (hx.symm.trans hx')
        obtain rfl := Option.some.inj (htray.symm.trans htray')
        exact Or.inl hown
    · -- the item is in another tray, so the rows of the tray are all among the rest
      have hsame : ∀ k r, s.items.countP (isIn tray k (some r)) =
          (before ++ after).countP (isIn tray k (some r)) := by
        intro k r
        have hnot : isIn tray k (some r) x ≠ true := fun h => hown (isIn_iff.mp h).1
        rw [hsplit, List.countP_append, List.countP_cons_of_neg hnot, List.countP_append]
      constructor
      · intro h x' tray' hx' htray'
        obtain rfl := Option.some.inj (hx.symm.trans hx')
        obtain rfl := Option.some.inj (htray.symm.trans htray')
        refine Or.inr fun k r hr => hasId_eq_false.mpr ?_
        rw [hsame]
        exact h k r hr
      · intro h k r hr
        rw [← hsame]
        exact hasId_eq_false.mp ((h x tray hx htray).resolve_left hown k r hr)
  · next hno => exact iff_of_true hset fun x tray hx htray => absurd htray (hno x tray hx)

/-- A toggle that found nothing inserts, whatever the tray holds by then. -/
theorem isSet_act_iff {db : Records} {s : Table} (hset : IsSet s.items) {g : Toggle} :
    IsSet (act db s g).items ↔ ∀ r, g.found = false → db.findRef g.column g.id = some r →
      hasId s.items g.tray g.column (some r) = false := by
  rw [act]
  split
  · next hfound =>
    -- rows go
    exact iff_of_true (hset.filter _) fun _ hnot => absurd hfound (by rw [hnot]; exact Bool.false_ne_true)
  · next hfound =>
    split
    · next hnone => exact iff_of_true hset fun r _ hr => absurd (hnone.symm.trans hr) (by simp)
    · next r hr =>
      -- one row comes, and it must not be there yet
      obtain ⟨y, hy, htray, hrefs⟩ := createRef_items s g.tray r g.column
      rw [hy, isSet_append_iff hset htray]
      constructor
      · intro h r' _ hr'
        obtain rfl := Option.some.inj (hr.symm.trans hr')
        exact hasId_eq_false.mpr (h g.column r ((hrefs _ _).mpr ⟨rfl, rfl⟩))
      · intro h k r' hyr
        obtain ⟨rfl, rfl⟩ := (hrefs k r').mp hyr
        exact hasId_eq_false.mp (h r' (by simpa using hfound) hr)

/-- **One step.** The trays stay sets exactly when what arrives in a tray was not there. -/
theorem isSet_iff {db : Records} {s t : State} {e : Event} (hwf : s.table.Wf)
    (hset : IsSet s.table.items) (h : step db s e = some t) :
    IsSet t.table.items ↔ Unoccupied db s e := by
  cases e with
  | move id tip =>
    obtain rfl := Option.some.inj h
    exact isSet_move_iff hwf hset
  | copy id tip =>
    obtain rfl := Option.some.inj h
    exact isSet_copy_iff hset
  | destroy id =>
    obtain rfl := Option.some.inj h
    exact iff_of_true (hset.filter _) trivial
  | check type tip =>
    obtain rfl := Option.some.inj h
    exact iff_of_true hset trivial
  | act i =>
    obtain ⟨g, hg, rfl⟩ := Option.map_eq_some_iff.mp h
    -- the condition is about the toggle that is under way
    refine (isSet_act_iff hset).trans ⟨fun hr g' r hg' => ?_, fun hr r => hr g r hg⟩
    obtain rfl := Option.some.inj (hg.symm.trans hg')
    exact hr r

/-! ### Two toggles in a row -/

/-- No item has both an image and an annotation. -/
def TrayItem.NotBoth (x : TrayItem) : Prop := x.imageId = none ∨ x.annotationId = none

/-- **Every write** keeps items from having both. -/
theorem Write.notBoth {db : Records} {s t : Table} {e : Event} (h : Write db s e t)
    (hs : ∀ x ∈ s.items, x.NotBoth) : ∀ x ∈ t.items, x.NotBoth := by
  cases h with
  | none => exact hs
  | moved hx htray =>
    -- the references of a row stay with it
    intro y hy
    obtain ⟨x, hmem, rfl⟩ := mem_update.mp hy
    split
    · exact hs x hmem
    · exact hs x hmem
  | copied hx htray => exact List.forall_mem_append.mpr ⟨hs, List.forall_mem_singleton.mpr (Or.inr rfl)⟩
  | deleted p => exact fun x hx => hs x (List.mem_of_mem_filter hx)
  | inserted tray k =>
    cases k with
    | imageId => exact List.forall_mem_append.mpr ⟨hs, List.forall_mem_singleton.mpr (Or.inr rfl)⟩
    | annotationId => exact List.forall_mem_append.mpr ⟨hs, List.forall_mem_singleton.mpr (Or.inl rfl)⟩

theorem contents_append (xs ys : List TrayItem) (tray : Nat) :
    contents (xs ++ ys) tray = contents xs tray ++ contents ys tray := by
  rw [contents, List.filter_append, List.map_append]
  rfl

theorem contents_perm {xs ys : List TrayItem} (h : xs.Perm ys) (tray : Nat) :
    (contents xs tray).Perm (contents ys tray) :=
  (h.filter _).map _

theorem contents_singleton (x : TrayItem) (tray : Nat) :
    contents [x] tray = if x.trayId = some tray then [(x.imageId, x.annotationId)] else [] := by
  by_cases h : x.trayId = some tray
  · simp [contents, h]
  · simp [contents, h]

/-- The row that a toggle inserts holds what any row does that it counts. -/
theorem contents_createRef {s : Table} {tray r : Nat} {k : Column} {x : TrayItem} (hx : x.NotBoth)
    (hin : isIn tray k (some r) x = true) :
    ∃ y, (s.createRef tray r k).items = s.items ++ [y] ∧ isIn tray k (some r) y = true ∧
      ∀ tray', contents [y] tray' = contents [x] tray' := by
  obtain ⟨id, trayId, imageId, annotationId⟩ := x
  obtain ⟨rfl, href⟩ := isIn_iff.mp hin
  cases k with
  | imageId =>
    -- the row has one reference, so the new row has the same
    obtain rfl : imageId = some r := href
    obtain rfl : annotationId = none := hx.resolve_left (by simp)
    exact ⟨_, rfl, isIn_iff.mpr ⟨rfl, rfl⟩, fun tray' => by rw [contents_singleton, contents_singleton]⟩
  | annotationId =>
    obtain rfl : annotationId = some r := href
    obtain rfl : imageId = none := hx.resolve_right (by simp)
    exact ⟨_, rfl, isIn_iff.mpr ⟨rfl, rfl⟩, fun tray' => by rw [contents_singleton, contents_singleton]⟩

/-- What a toggle is about does not depend on the table, and its count does. -/
theorem check_eq {db : Records} {items : List TrayItem} {type : Option String} {tip : Params}
    {g : Toggle} (h : check db items type tip = some g) :
    g.found = hasId items g.tray g.column g.id ∧ ∀ items', check db items' type tip =
      some { g with found := hasId items' g.tray g.column g.id } := by
  obtain ⟨tray, htray, hg⟩ := Option.bind_eq_some_iff.mp h
  -- the two kinds of toggle
  split at hg
  · next htype =>
    obtain rfl := Option.some.inj hg
    refine ⟨rfl, fun items' => ?_⟩
    rw [check, htray, Option.bind_some, if_pos htype]
    rfl
  · split at hg
    · next hnot htype =>
      obtain rfl := Option.some.inj hg
      refine ⟨rfl, fun items' => ?_⟩
      rw [check, htray, Option.bind_some, if_neg hnot, if_pos htype]
      rfl
    · exact absurd hg (by simp)

/-- A request that nothing interrupts writes what it has counted. -/
theorem create_eq {db : Records} {s : Table} {type : Option String} {tip : Params} {g : Toggle}
    (h : check db s.items type tip = some g) : create db s type tip = act db s g := by
  rw [create, h]

section Toggles

variable {db : Records} {s : Table} {g : Toggle} {r : Nat}

/-- The first toggle deletes the one row of the item, and the second inserts one. -/
theorem toggle_deleted (hset : IsSet s.items) (hboth : ∀ x ∈ s.items, x.NotBoth) (hid : g.id = some r)
    (hr : db.findRef g.column g.id = some r) (hfound : g.found = hasId s.items g.tray g.column g.id)
    (hin : hasId s.items g.tray g.column g.id = true) (tray' : Nat) :
    (contents (act db (act db s g)
      { g with found := hasId (act db s g).items g.tray g.column g.id }).items tray').Perm
        (contents s.items tray') := by
  obtain ⟨x, hx⟩ : ∃ x, s.items.filter (isIn g.tray g.column g.id) = [x] := by
    rw [← List.length_eq_one_iff, ← List.countP_eq_length_filter]
    have hle := hset g.tray g.column r
    rw [hasId, decide_eq_true_iff] at hin
    rw [← hid] at hle
    omega
  have hmem : x ∈ s.items.filter (isIn g.tray g.column g.id) := by
    rw [hx]
    exact List.mem_singleton_self x
  obtain ⟨hxs, hxin⟩ := List.mem_filter.mp hmem
  rw [hid] at hxin
  have hfirst : act db s g =
      { s with items := s.items.filter fun x => !isIn g.tray g.column g.id x } := by
    rw [act, hfound, if_pos hin]
  obtain ⟨y, hy, -, hcontents⟩ := contents_createRef (s := act db s g) (hboth x hxs) hxin
  have hnone : hasId (act db s g).items g.tray g.column g.id = false := by
    rw [hasId_eq_false, hfirst, List.countP_filter, List.countP_eq_zero]
    intro x _
    simp
  rw [hnone, act, if_neg (by simp), hr]
  change (contents ((act db s g).createRef g.tray r g.column).items tray').Perm _
  rw [hy, contents_append, hcontents, ← contents_append, hfirst]
  -- the rows without the deleted one, and then that one again
  refine contents_perm ?_ tray'
  rw [← hx]
  exact List.perm_append_comm.trans (List.filter_append_perm _ _)

/-- The first toggle inserts a row, and the second deletes it. -/
theorem toggle_inserted (hid : g.id = some r) (hr : db.findRef g.column g.id = some r)
    (hfound : g.found = hasId s.items g.tray g.column g.id)
    (hin : hasId s.items g.tray g.column g.id = false) :
    (act db (act db s g) { g with found := hasId (act db s g).items g.tray g.column g.id }).items = s.items := by
  have hnot : g.found = false := hfound.trans hin
  have hfirst : act db s g = s.createRef g.tray r g.column := by
    rw [act, hnot, if_neg (by simp), hr]
  obtain ⟨y, hy, htray, hrefs⟩ := createRef_items s g.tray r g.column
  have hyin : isIn g.tray g.column g.id y = true := by
    rw [hid]
    exact isIn_iff.mpr ⟨htray, (hrefs _ _).mpr ⟨rfl, rfl⟩⟩
  have hsome : hasId (act db s g).items g.tray g.column g.id = true := by
    rw [hasId, hfirst, hy, List.countP_append, List.countP_cons_of_pos hyin, decide_eq_true_iff]
    omega
  have hkeep : s.items.filter (fun x => !isIn g.tray g.column g.id x) = s.items := by
    rw [List.filter_eq_self]
    intro x hx
    simpa using List.countP_eq_zero.mp (hasId_eq_false.mp hin) x hx
  rw [hsome, act, if_pos rfl]
  change ((act db s g).items.filter fun x => !isIn g.tray g.column g.id x) = _
  rw [hfirst, hy, List.filter_append, hkeep, List.filter_cons_of_neg (by simp [hyin]), List.filter_nil,
    List.append_nil]

end Toggles

/-- **Two toggles in a row** give back what the trays hold, where these are sets. -/
theorem toggle_twice {db : Records} {s : Table} (hset : IsSet s.items)
    (hboth : ∀ x ∈ s.items, x.NotBoth) : TogglesBack db s := by
  intro type tip g r hg hr tray'
  obtain ⟨hfound, hcheck⟩ := check_eq hg
  have hid : g.id = some r := (Option.filter_eq_some_iff.mp hr).1
  rw [create_eq hg, create_eq (hcheck _)]
  by_cases hin : hasId s.items g.tray g.column g.id = true
  · exact toggle_deleted hset hboth hid hr hfound hin tray'
  · rw [toggle_inserted hid hr hfound (Bool.eq_false_iff.mpr hin)]

/-! ### Runs -/

/-- What holds after a step that keeps the trays sets. -/
structure KeepsSets (db : Records) (_s : State) (_e : Event) (t : State) : Prop where
  isSet : IsSet t.table.items
  togglesBack : TogglesBack db t.table

/-- What every run keeps. -/
structure Sound (s : State) : Prop where
  wf : s.table.Wf
  notBoth : ∀ x ∈ s.table.items, x.NotBoth

theorem Sound.step {db : Records} {s t : State} {e : Event} (hs : Sound s)
    (h : step db s e = some t) : Sound t where
  wf := (step_write h).wf hs.wf
  notBoth := (step_write h).notBoth hs.notBoth

/-- The trays are empty. -/
def State.empty (next : Nat) : State := .idle { items := [], next := next }

/-- **A tray is a set of items** all along a run from empty trays, and two toggles in a row change
nothing, exactly when nothing arrives in a tray that already holds it. -/
theorem always_isSet_iff (db : Records) (next : Nat) {t : State} {es : List Event}
    (h : exec (step db) (State.empty next) es = some t) :
    Always (step db) (KeepsSets db) (State.empty next) es ↔
      Meets (step db) (Unoccupied db) (State.empty next) es := by
  -- the ids and the references are kept by every step, the sets by those that meet the condition
  refine always_iff_meets (J := Sound) (I := fun s => IsSet s.table.items) ?_ ?_ ?_ ?_ ?_ h
  · exact fun s e t hs ht => hs.step ht
  · exact fun s e t hkeeps => hkeeps.isSet
  · intro s e t hs hset ht
    rw [← isSet_iff hs.wf hset ht]
    exact ⟨fun hkeeps => hkeeps.isSet, fun hset' =>
      ⟨hset', toggle_twice hset' (hs.step ht).notBoth⟩⟩
  · exact ⟨Keyed.nil, fun x hx => absurd hx List.not_mem_nil⟩
  · exact fun tray k r => Nat.zero_le 1

/-- One tray and one image. -/
def oneTray : Records where
  trays := [1]
  images := [7]
  annotations := []

/-- The toggle of the image in the tray. -/
def toggleImage : Event := .check (some "Image") { trayId := some 1, imageId := some 7, annotationId := none }

/-- One toggle after the other. -/
theorem always_isSet_sequential :
    Always (step oneTray) (KeepsSets oneTray) (State.empty 1) [toggleImage, .act 0, toggleImage, .act 0] := by
  refine (always_isSet_iff oneTray 1 (t := State.empty 2) (by decide)).mpr ⟨trivial, fun s hs => ⟨?_,
    fun s' hs' => ⟨trivial, fun s'' hs'' => ⟨?_, fun _ _ => trivial⟩⟩⟩⟩
  · obtain rfl := Option.some.inj hs
    rintro g r hg - -
    obtain rfl := Option.some.inj hg
    cases r <;> rfl
  · obtain rfl := Option.some.inj hs
    obtain rfl := Option.some.inj hs'
    obtain rfl := Option.some.inj hs''
    rintro g r hg hfound -
    obtain rfl := Option.some.inj hg
    exact absurd hfound (by decide)

/-- Two toggles that both count before either writes put the image into the tray twice. -/
theorem not_always_isSet_concurrent :
    ¬ Always (step oneTray) (KeepsSets oneTray) (State.empty 1) [toggleImage, toggleImage, .act 0, .act 0] := by
  intro halways
  have hset := ((((halways _ rfl).2 _ rfl).2 _ rfl).2 _ rfl).1.isSet 1 .imageId 7
  revert hset
  decide

end Trays
end Curarium
