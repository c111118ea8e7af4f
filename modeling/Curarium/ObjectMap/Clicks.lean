import Curarium.Library.Grid
import Curarium.ObjectMap.Requests

/-!
# The clicks on the object map

The page of the object map loads `ids.json` and counts its entries to find how many columns the
picture `5.jpg` has; `Work.write_montage` has counted the works. A click is at a point of the canvas,
and the page opens the work that it takes to be there.

How `montage` lays out the files is assumed (`LaysOut`), and of the square root that its ceiling is
right. The coordinates of a point are of any ordered field with a floor.

* `index_iff` — the page asks for the work whose tile was clicked.
* `objectmap_clicks` — so it opens what the picture shows there, and every work can be opened.
-/

namespace Curarium
namespace ObjectMap

open Grid

/-! ### The picture -/

/-- `work_dimension` -/
def workDimension (ws : List Work) : ℕ := ceilSqrt ws.length

/-- `montage` lays out the files row by row on the grid that it is given. What does not fit goes to
another sheet. -/
def LaysOut (montage : ℕ → List ℕ → ℕ → ℕ → Option ℕ) : Prop :=
  ∀ dim files k, k < dim * dim → montage dim files (k / dim) (k % dim) = files[k]?

/-! ### The page -/

/-- `baseThumbSize` -/
def baseThumbSize : ℕ := 128

/-- The page, once it has loaded the ids. -/
structure Page where
  workIds : List Json
  loaded : 0 < workIds.length

/-- What the page does with `ids.json`: without an array that has entries there is no map. -/
def Page.load : Json → Option Page
  | .arr (id :: ids) => some ⟨id :: ids, Nat.succ_pos _⟩
  | _ => none

theorem load_arr {ids : List Json} (h : 0 < ids.length) : Page.load (.arr ids) = some ⟨ids, h⟩ := by
  cases ids with
  | nil => cases h
  | cons id ids => rfl

namespace Page

variable (p : Page)

/-- `workDimension` -/
def dimension : ℕ := ceilSqrt p.workIds.length

/-- The width of `bigCanvas`, and its height. -/
def canvasSize : ℕ := baseThumbSize * p.dimension

section Points

variable {K : Type*} [Coordinates K] [LinearOrder K] [IsStrictOrderedRing K] [FloorRing K] (x y : K)

/-- The coordinates that `click` accepts. -/
def OnCanvas : Prop := 0 ≤ x ∧ 0 ≤ y ∧ x < p.canvasSize ∧ y < p.canvasSize

instance : Decidable (p.OnCanvas x y) := inferInstanceAs (Decidable (_ ∧ _))

/-- `tileXY` -/
def tile (x : K) : ℤ := ⌊x / baseThumbSize⌋

/-- The index that `click` asks for, if it asks for any. -/
def index : Option ℕ :=
  if p.OnCanvas x y then
    let index := tile y * p.dimension + tile x
    if index < p.workIds.length then some index.toNat else none
  else none

/-- `click`: the id of the work that is opened. -/
def click : Option Json := (p.index x y).bind fun k => p.workIds[k]?

end Points

end Page

section Clicks

variable {K : Type*} [Coordinates K] [LinearOrder K] [IsStrictOrderedRing K] [FloorRing K] {p : Page} {x y : K}

/-- A point of the canvas is in a cell of the grid. -/
theorem exists_cells (h : p.OnCanvas x y) :
    ∃ row column : ℕ, row < p.dimension ∧ column < p.dimension ∧
      Page.tile y = row ∧ Page.tile x = column := by
  obtain ⟨hx, hy, hwidth, hheight⟩ := h
  have hsize : (0 : K) < (baseThumbSize : ℕ) := Nat.cast_pos.mpr (by decide)
  unfold Page.canvasSize at hwidth hheight
  rw [Nat.cast_mul] at hwidth hheight
  obtain ⟨column, hcolumn, htx⟩ := exists_cell hsize hx hwidth
  obtain ⟨row, hrow, hty⟩ := exists_cell hsize hy hheight
  exact ⟨row, column, hrow, hcolumn, hty, htx⟩

omit [IsStrictOrderedRing K] in
/-- The index of a cell, if there is a work with this index. -/
theorem index_eq (h : p.OnCanvas x y) {row column : ℕ} (hy : Page.tile y = row) (hx : Page.tile x = column) :
    p.index x y = if row * p.dimension + column < p.workIds.length
      then some (row * p.dimension + column) else none := by
  have hindex : Page.tile y * p.dimension + Page.tile x = ((row * p.dimension + column : ℕ) : ℤ) := by
    rw [hy, hx, Nat.cast_add, Nat.cast_mul]
  unfold Page.index
  rw [if_pos h, hindex]
  simp only [Nat.cast_lt, Int.toNat_natCast]

/-- **A click asks for the work whose tile it is on**, and on an empty cell for none. -/
theorem index_iff (h : p.OnCanvas x y) {k : ℕ} :
    p.index x y = some k ↔
      k < p.workIds.length ∧ Page.tile y = ↑(k / p.dimension) ∧ Page.tile x = ↑(k % p.dimension) := by
  obtain ⟨row, column, -, hcolumn, hy, hx⟩ := exists_cells h
  rw [index_eq h hy hx, hy, hx, Nat.cast_inj, Nat.cast_inj, ← index_eq_iff hcolumn,
    Option.ite_none_right_eq_some, Option.some.injEq]
  exact and_congr_left fun hk => by rw [hk]

omit [IsStrictOrderedRing K] in
/-- The entry of the ids that a click opens. -/
theorem click_eq (h : p.OnCanvas x y) {row column : ℕ} (hy : Page.tile y = row) (hx : Page.tile x = column) :
    p.click x y = p.workIds[row * p.dimension + column]? := by
  unfold Page.click
  rw [index_eq h hy hx]
  split
  case isTrue => rfl
  case isFalse hk => exact (List.getElem?_eq_none (not_lt.mp hk)).symm

omit [IsStrictOrderedRing K] in
/-- On an empty cell it opens nothing. -/
theorem click_empty (h : p.OnCanvas x y) {k : ℕ} (hk : p.workIds.length ≤ k)
    (hy : Page.tile y = ↑(k / p.dimension)) (hx : Page.tile x = ↑(k % p.dimension)) : p.click x y = none := by
  rw [click_eq h hy hx, Nat.div_add_mod']
  exact List.getElem?_eq_none hk

/-- The corner of a tile is on the tile. -/
theorem corner_onCanvas {row column : ℕ} (hrow : row < p.dimension) (hcolumn : column < p.dimension) :
    p.OnCanvas ((baseThumbSize : K) * column) ((baseThumbSize : K) * row) := by
  have hsize : (0 : K) < (baseThumbSize : ℕ) := Nat.cast_pos.mpr (by decide)
  have hlt : ∀ {c : ℕ}, c < p.dimension → (baseThumbSize : K) * c < p.canvasSize := by
    intro c hc
    unfold Page.canvasSize
    rw [Nat.cast_mul]
    exact mul_lt_mul_of_pos_left (Nat.cast_lt.mpr hc) hsize
  exact ⟨mul_nonneg hsize.le (Nat.cast_nonneg _), mul_nonneg hsize.le (Nat.cast_nonneg _), hlt hcolumn, hlt hrow⟩

/-- **Every work is opened** by the click on a corner of its tile. -/
theorem exists_click (K : Type*) [Coordinates K] [LinearOrder K] [IsStrictOrderedRing K] [FloorRing K]
    (p : Page) {k : ℕ} (hk : k < p.workIds.length) :
    ∃ x y : K, p.OnCanvas x y ∧ p.index x y = some k := by
  have hdim : 0 < p.dimension := ceilSqrt_pos p.loaded
  have hsize : (0 : K) < (baseThumbSize : ℕ) := Nat.cast_pos.mpr (by decide)
  have hrow : k / p.dimension < p.dimension :=
    Nat.div_lt_of_lt_mul (hk.trans_le (le_ceilSqrt_mul_self _))
  have h := corner_onCanvas (K := K) hrow (Nat.mod_lt k hdim)
  exact ⟨_, _, h, (index_iff h).mpr ⟨hk, floor_corner hsize _, floor_corner hsize _⟩⟩

end Clicks

/-! ### The picture and the page -/

/-- What a click opens is what is drawn there: the page of some ids, over a sheet. -/
structure OpensWhatIsDrawn (K : Type*) [Coordinates K] [LinearOrder K] [IsStrictOrderedRing K] [FloorRing K]
    (p : Page) (ids : List ℕ) (sheet : ℕ → ℕ → Option ℕ) : Prop where
  /-- The tiles are on one sheet. -/
  fits : ids.length ≤ p.dimension * p.dimension
  /-- A click asks for the work whose tile it is on. -/
  asks : ∀ x y : K, p.OnCanvas x y → ∀ k, p.index x y = some k ↔
    k < ids.length ∧ Page.tile y = ↑(k / p.dimension) ∧ Page.tile x = ↑(k % p.dimension)
  /-- It opens the work that is drawn there. -/
  opens : ∀ x y : K, p.OnCanvas x y →
    p.click x y = (sheet (Page.tile y).toNat (Page.tile x).toNat).map fun id : ℕ => Json.int id
  /-- On an empty cell it opens nothing. -/
  empty : ∀ x y : K, p.OnCanvas x y → ∀ k, ids.length ≤ k →
    Page.tile y = ↑(k / p.dimension) → Page.tile x = ↑(k % p.dimension) → p.click x y = none
  /-- Every work is opened by some click. -/
  every : ∀ k (hk : k < ids.length), ∃ x y : K, p.OnCanvas x y ∧ p.click x y = some (.int ids[k])

/-- **Object map clicks open what is drawn there**, for every list of works that the map is written
for. -/
theorem objectmap_clicks (K : Type*) [Coordinates K] [LinearOrder K] [IsStrictOrderedRing K] [FloorRing K]
    {montage : ℕ → List ℕ → ℕ → ℕ → Option ℕ} (hmontage : LaysOut montage) {ws : List Work}
    (hws : ws ≠ []) {f : Folder} (hf : f.picture = none) (made : Bool) :
    workDimension ws = ⌈√(ws.length : ℝ)⌉₊ ∧
      ∃ ids picture page, (writeMontage ws false made f).ids = some ids ∧
        (writeMontage ws false made f).picture = some picture ∧
        Page.load ids = some page ∧ page.dimension = workDimension ws ∧
        OpensWhatIsDrawn K page (ws.map Work.id) (montage (workDimension ws) picture.thumbnails) := by
  refine ⟨ceilSqrt_eq_ceil _, ?_⟩
  obtain ⟨ids, hids⟩ : ∃ ids, ids = ws.map (entry .objectmap) := ⟨_, rfl⟩
  have hlen : ids.length = (ws.map Work.id).length := by rw [hids, List.length_map, List.length_map]
  have hpos : 0 < ids.length := by
    rw [hlen, List.length_map]
    exact List.length_pos_iff.mpr hws
  have hwrite : writeMontage ws false made f = ⟨some (.arr ids), some ⟨.objectmap, ws.map Work.id⟩⟩ := by
    have hmade : (made || !ws.isEmpty) = true := by
      rw [List.isEmpty_eq_false_iff.mpr hws, Bool.not_false, Bool.or_true]
    unfold writeMontage Folder.write
    rw [hf, hmade, hids]
    rfl
  have hget : ∀ k : ℕ, ids[k]? = ((ws.map Work.id)[k]?).map fun id : ℕ => Json.int id := by
    intro k
    rw [hids, List.getElem?_map, List.getElem?_map, Option.map_map]
    rfl
  let p : Page := ⟨ids, hpos⟩
  have hdim : p.dimension = workDimension ws := by
    unfold Page.dimension workDimension
    rw [hlen, List.length_map]
  refine ⟨.arr ids, ⟨.objectmap, ws.map Work.id⟩, p, by rw [hwrite], by rw [hwrite], load_arr hpos, hdim, ?_⟩
  refine
    { fits := hlen ▸ le_ceilSqrt_mul_self _
      asks := fun x y h k => hlen ▸ index_iff h
      opens := fun x y h => ?_
      empty := fun x y h k hk => click_empty h (hlen ▸ hk)
      every := fun k hk => ?_ }
  · obtain ⟨row, column, hrow, hcolumn, hy, hx⟩ := exists_cells h
    -- the cell is that of the item with its index, be there one or not
    obtain ⟨hdiv, hmod⟩ := (index_eq_iff hcolumn).mp rfl
    have hcell := hmontage p.dimension (ws.map Work.id) (row * p.dimension + column) <|
      calc row * p.dimension + column
          < row * p.dimension + p.dimension := Nat.add_lt_add_left hcolumn _
        _ = (row + 1) * p.dimension := (Nat.succ_mul _ _).symm
        _ ≤ p.dimension * p.dimension := Nat.mul_le_mul_right _ hrow
    rw [← hdiv, ← hmod, hdim] at hcell
    rw [click_eq h hy hx, hy, hx, Int.toNat_natCast, Int.toNat_natCast, hcell, ← hdim]
    exact hget _
  · obtain ⟨x, y, h, hindex⟩ := exists_click K p (hlen ▸ hk)
    refine ⟨x, y, h, ?_⟩
    unfold Page.click
    rw [hindex, Option.bind_some]
    change ids[k]? = _
    rw [hget, List.getElem?_eq_getElem hk, Option.map_some]

/-- Three works: two rows of two, with the last cell empty. -/
theorem objectmap_clicks_three :
    let work (id : ℕ) : Work :=
      { id := id, row := { collectionId := none, parsed := [], topColors := none }, datestart := none, dateend := none }
    let montage (dim : ℕ) (files : List ℕ) (row column : ℕ) : Option ℕ := files[row * dim + column]?
    let ws := [work 5, work 7, work 8]
    workDimension ws = ⌈√(ws.length : ℝ)⌉₊ ∧
      ∃ ids picture page, (writeMontage ws false true ⟨none, none⟩).ids = some ids ∧
        (writeMontage ws false true ⟨none, none⟩).picture = some picture ∧
        Page.load ids = some page ∧ page.dimension = workDimension ws ∧
        OpensWhatIsDrawn ℚ page (ws.map Work.id) (montage (workDimension ws) picture.thumbnails) := by
  intro work montage ws
  have hmontage : LaysOut montage := by
    intro dim files k _
    change files[k / dim * dim + k % dim]? = files[k]?
    rw [Nat.div_add_mod']
  have hws : ws ≠ [] := List.cons_ne_nil _ _
  exact objectmap_clicks ℚ hmontage hws (f := ⟨none, none⟩) rfl true

end ObjectMap
end Curarium
