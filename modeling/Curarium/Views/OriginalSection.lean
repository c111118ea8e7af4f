import Curarium.Collection.Lookup
import Curarium.Library.Lists

/-!
# Dragging a value of the sample record

The configuration page shows the sample record as a tree (`works/_original_section`) whose leaves
can be dragged onto a field; what is dropped is the path of the leaf, and the import follows that
path. The view knows what it renders: a member is reached by its name, an element by its number
as text. `followJson` only has the texts, and takes a numeral for an index.

* `originalSection` collects the draggable items of the view, with `none` where rendering raises:
  everything but a hash lacks `each_pair`, and so does an array element that is neither a string
  nor a hash.
* Every item shows the value that its path leads to in the standard reading (`lookup_of_item`).
* So the import finds the value shown, exactly when no member name on the path is a numeral
  (`originalSection_followJson_iff`).
-/

namespace Curarium

open Json (Step)

namespace Views

/-- A draggable item: its `data-path` and the value it displays. -/
structure Item where
  path : List String
  value : Json
deriving DecidableEq

/-- `i.to_s`. -/
def indexText (i : Nat) : String := String.ofList (Ruby.toS i)

mutual
/-- `works/_original_section` at a path. -/
def originalSection : Json → List String → Option (List Item)
  | .obj ms, path => sectionMembers ms path
  | _, _ => none

/-- `json.each_pair`. -/
def sectionMembers : List (String × Json) → List String → Option (List Item)
  | [], _ => some []
  | (k, v) :: ms, path =>
    (sectionMember k v path).bind fun items =>
      (sectionMembers ms path).map fun rest => items ++ rest

/-- One member: a section of its own, an array, or an item (`works/_original_item`). -/
def sectionMember : String → Json → List String → Option (List Item)
  | k, .obj ms, path => sectionMembers ms (path ++ [k])
  | k, .arr xs, path => sectionElems xs 0 (path ++ [k])
  | k, v, path => some [⟨path ++ [k], v⟩]

/-- `v.each_with_index`, from the element numbered `i` on. -/
def sectionElems : List Json → Nat → List String → Option (List Item)
  | [], _, _ => some []
  | x :: xs, i, path =>
    (sectionElem x i path).bind fun items =>
      (sectionElems xs (i + 1) path).map fun rest => items ++ rest

/-- One element of an array: a string is an item, anything else a section. -/
def sectionElem : Json → Nat → List String → Option (List Item)
  | .str s, i, path => some [⟨path ++ [indexText i], .str s⟩]
  | .obj ms, i, path => sectionMembers ms (path ++ [indexText i])
  | _, _, _ => none
end

/-- The partial as the page calls it, on a work. -/
def original (text : String) : Option (List Item) := (Json.parse text).bind fun j => originalSection j []

/-! ### Every item shows what its path leads to -/

/-- A `data-path` as a path of `followJson`. -/
def stepsOf (path : List String) : List Step := path.map .str

/-- The items were rendered below a value, each at the path that leads to it from there. -/
def ItemsAt (j : Json) (path : List String) (items : List Item) : Prop :=
  ∀ it ∈ items, ∃ p, it.path = path ++ p ∧ Collection.lookup j (stepsOf p) = some it.value

/-- The same, one step further down at least: the items of a section or of an array. -/
def ItemsBelow (j : Json) (path : List String) (items : List Item) : Prop :=
  ∀ it ∈ items, ∃ k p, it.path = path ++ k :: p ∧
    Collection.lookup j (stepsOf (k :: p)) = some it.value

theorem ItemsBelow.itemsAt {j : Json} {path : List String} {items : List Item}
    (h : ItemsBelow j path items) : ItemsAt j path items := by
  intro it hit
  obtain ⟨k, p, hp, hlook⟩ := h it hit
  exact ⟨k :: p, hp, hlook⟩

theorem ItemsBelow.append {j : Json} {path : List String} {items rest : List Item}
    (h : ItemsBelow j path items) (hrest : ItemsBelow j path rest) :
    ItemsBelow j path (items ++ rest) := by
  intro it hit
  rcases List.mem_append.mp hit with hit | hit
  · exact h it hit
  · exact hrest it hit

theorem isI_indexText (i : Nat) : Collection.isI (indexText i) = true := by
  simp [Collection.isI, indexText, Ruby.toI_toS]

theorem lookupStep_indexText (xs : List Json) (i : Nat) :
    Collection.lookupStep (.arr xs) (.str (indexText i)) = xs[i]? := by
  have hval : Ruby.toI (indexText i).toList = i := by
    simp [indexText, Ruby.toI_toS]
  rw [Collection.lookupStep, hval, if_pos ⟨isI_indexText i, by omega⟩, Int.toNat_natCast]

/-- Items of a part of the value, seen from the value. -/
theorem ItemsAt.lift {j w : Json} {k : String} {path : List String} {items : List Item}
    (h : ItemsAt w (path ++ [k]) items) (hk : Collection.lookupStep j (.str k) = some w) :
    ItemsBelow j path items := by
  intro it hit
  obtain ⟨p, hp, hlook⟩ := h it hit
  refine ⟨k, p, by rw [hp, List.append_assoc, List.singleton_append], ?_⟩
  change (Collection.lookupStep j (.str k)).bind _ = _
  rw [hk, Option.bind_some]
  exact hlook

/-- The statement of the induction: whatever is rendered below a value shows what its path leads
to. -/
def Shows (j : Json) : Prop :=
  j.wellFormed = true → ∀ path items, originalSection j path = some items → ItemsBelow j path items

theorem sectionElems_itemsBelow {all : List Json} {path : List String} (xs : List Json) (i : Nat)
    (hall : ∀ n x, xs[n]? = some x → all[i + n]? = some x) (hshow : ∀ x ∈ xs, Shows x)
    (hwf : ∀ x ∈ xs, x.wellFormed = true) {items : List Item}
    (h : sectionElems xs i path = some items) : ItemsBelow (.arr all) path items := by
  induction xs generalizing i items with
  | nil =>
    obtain rfl : [] = items := by simpa [sectionElems] using h
    exact fun it hit => absurd hit List.not_mem_nil
  | cons x xs ih =>
    rw [sectionElems] at h
    obtain ⟨here, hhere, hrest⟩ := Option.bind_eq_some_iff.mp h
    obtain ⟨rest, htail, rfl⟩ := Option.map_eq_some_iff.mp hrest
    -- the element stands at its number in the whole array
    have hx : all[i]? = some x := hall 0 x rfl
    have hstep : Collection.lookupStep (.arr all) (.str (indexText i)) = some x := by
      rw [lookupStep_indexText, hx]
    have hfront : ItemsBelow (.arr all) path here := by
      refine ItemsAt.lift ?_ hstep
      -- an element is shown as an item or as a section; the view raises on any other
      cases x with
      | str s =>
        obtain rfl : [⟨path ++ [indexText i], .str s⟩] = here := by simpa [sectionElem] using hhere
        intro it hit
        obtain rfl := List.mem_singleton.mp hit
        exact ⟨[], by simp, rfl⟩
      | obj ms =>
        have hsec : originalSection (.obj ms) (path ++ [indexText i]) = some here := hhere
        exact (hshow _ (by simp) (hwf _ (by simp)) _ _ hsec).itemsAt
      | null => exact absurd hhere (by simp [sectionElem])
      | bool b => exact absurd hhere (by simp [sectionElem])
      | int z => exact absurd hhere (by simp [sectionElem])
      | float f => exact absurd hhere (by simp [sectionElem])
      | arr ys => exact absurd hhere (by simp [sectionElem])
    -- the other elements are one further on
    have hback : ItemsBelow (.arr all) path rest := by
      refine ih (i + 1) (fun n y hy => ?_) (fun y hy => hshow y (by simp [hy]))
        (fun y hy => hwf y (by simp [hy])) htail
      rw [show i + 1 + n = i + (n + 1) by omega]
      exact hall (n + 1) y hy
    exact hfront.append hback

theorem sectionMember_itemsAt {k : String} {v : Json} {path : List String} {items : List Item}
    (hobj : Shows v) (helems : ∀ xs, v = .arr xs → ∀ x ∈ xs, Shows x) (hwf : v.wellFormed = true)
    (h : sectionMember k v path = some items) : ItemsAt v (path ++ [k]) items := by
  -- a value that is neither a hash nor an array is an item of its own
  have hleaf : [⟨path ++ [k], v⟩] = items → ItemsAt v (path ++ [k]) items := by
    rintro rfl it hit
    obtain rfl := List.mem_singleton.mp hit
    exact ⟨[], by simp, rfl⟩
  cases v with
  | obj ms => exact (hobj hwf _ _ h).itemsAt
  | arr xs =>
    rw [Json.wellFormed, Json.wellFormedElems_iff] at hwf
    exact (sectionElems_itemsBelow xs 0 (fun n x hx => by rwa [Nat.zero_add]) (helems xs rfl) hwf
      h).itemsAt
  | null => exact hleaf (Option.some.inj h)
  | bool b => exact hleaf (Option.some.inj h)
  | int z => exact hleaf (Option.some.inj h)
  | float f => exact hleaf (Option.some.inj h)
  | str s => exact hleaf (Option.some.inj h)

theorem sectionMembers_itemsBelow {all : List (String × Json)} {path : List String}
    (hnd : (all.map Prod.fst).Nodup) (ms : List (String × Json)) (hsub : ∀ m ∈ ms, m ∈ all)
    (hshow : ∀ m ∈ ms, Shows m.2) (helems : ∀ m ∈ ms, ∀ xs, m.2 = .arr xs → ∀ x ∈ xs, Shows x)
    (hwf : ∀ m ∈ ms, m.2.wellFormed = true) {items : List Item}
    (h : sectionMembers ms path = some items) : ItemsBelow (.obj all) path items := by
  induction ms generalizing items with
  | nil =>
    obtain rfl : [] = items := by simpa [sectionMembers] using h
    exact fun it hit => absurd hit List.not_mem_nil
  | cons m ms ih =>
    obtain ⟨k, v⟩ := m
    rw [sectionMembers] at h
    obtain ⟨here, hhere, hrest⟩ := Option.bind_eq_some_iff.mp h
    obtain ⟨rest, htail, rfl⟩ := Option.map_eq_some_iff.mp hrest
    have hhead : (k, v) ∈ (k, v) :: ms := List.mem_cons_self
    -- names are distinct, so the name alone leads back to this member
    have hfront : ItemsBelow (.obj all) path here :=
      (sectionMember_itemsAt (hshow _ hhead) (helems _ hhead) (hwf _ hhead) hhere).lift
        (Lists.lookup_of_mem hnd (hsub _ hhead))
    have hback : ItemsBelow (.obj all) path rest := by
      have hmem : ∀ m ∈ ms, m ∈ (k, v) :: ms := fun m hm => List.mem_cons_of_mem _ hm
      exact ih (fun m hm => hsub m (hmem m hm)) (fun m hm => hshow m (hmem m hm))
        (fun m hm => helems m (hmem m hm)) (fun m hm => hwf m (hmem m hm)) htail
    exact hfront.append hback

/-- The induction of the view: a value, and the elements of an array. The view never starts a
section on an array, so its elements are carried along beside it. -/
theorem shows_and_elems (j : Json) : Shows j ∧ ∀ xs, j = .arr xs → ∀ x ∈ xs, Shows x := by
  -- an array is not shown by itself, so its elements are carried along
  induction j using Json.induction with
  | obj ms ih =>
    refine ⟨fun hwf path items h => ?_, fun xs hxs => by cases hxs⟩
    rw [Json.wellFormed, Bool.and_eq_true, decide_eq_true_eq, Json.wellFormedMembers_iff] at hwf
    exact sectionMembers_itemsBelow hwf.1 ms (fun m hm => hm) (fun m hm => (ih m hm).1)
      (fun m hm => (ih m hm).2) hwf.2 h
  | arr xs ih =>
    refine ⟨fun _ path items h => absurd h (by simp [originalSection]), ?_⟩
    rintro _ ⟨⟩ x hx
    exact (ih x hx).1
  | null => exact ⟨fun _ path items h => absurd h (by simp [originalSection]), nofun⟩
  | bool b => exact ⟨fun _ path items h => absurd h (by simp [originalSection]), nofun⟩
  | int z => exact ⟨fun _ path items h => absurd h (by simp [originalSection]), nofun⟩
  | float f => exact ⟨fun _ path items h => absurd h (by simp [originalSection]), nofun⟩
  | str s => exact ⟨fun _ path items h => absurd h (by simp [originalSection]), nofun⟩

/-- **Every item shows what its path leads to**, and the path is not empty. -/
theorem lookup_of_item {d : Document} {items : List Item} {it : Item}
    (h : originalSection d.val [] = some items) (hit : it ∈ items) :
    stepsOf it.path ≠ [] ∧ Collection.lookup d.val (stepsOf it.path) = some it.value := by
  obtain ⟨k, p, hp, hlook⟩ := (shows_and_elems d.val).1 d.wf [] items h it hit
  rw [hp, List.nil_append]
  exact ⟨by simp [stepsOf], hlook⟩

/-- **What is dragged is what is imported, up to numerals.** For an item that shows a present
value, the import returns that value alone exactly when no member name on the path of the item is
a numeral. -/
theorem originalSection_followJson_iff (d : Document) (items : List Item) (it : Item)
    (h : originalSection d.val [] = some items) (hit : it ∈ items)
    (hv : it.value.present = true) :
    Collection.followJson d.val (.steps (stepsOf it.path)) = some [it.value]
      ↔ Collection.NamesPlain d.val (stepsOf it.path) :=
  Collection.followSteps_lookup_iff (lookup_of_item h hit).1 (lookup_of_item h hit).2 hv

/-- A record of the shape the help page shows. -/
def sampleRecord : Document where
  val := .obj [("title", .str "Starry Night"),
    ("image", .arr [.obj [("url", .str "http://x/1.jpg")]])]
  wf := by decide

/-- The item below the array, by member name, element number and member name. -/
theorem followJson_sampleRecord_url :
    Collection.followJson sampleRecord.val (.steps (stepsOf ["image", "0", "url"]))
      = some [.str "http://x/1.jpg"] :=
  (originalSection_followJson_iff sampleRecord
    [⟨["title"], .str "Starry Night"⟩, ⟨["image", "0", "url"], .str "http://x/1.jpg"⟩]
    ⟨["image", "0", "url"], .str "http://x/1.jpg"⟩ (by decide) (by decide) (by decide)).mpr (by
      intro q k r ms hp hq
      rcases q with _ | ⟨a, _ | ⟨b, _ | ⟨c, q⟩⟩⟩ <;> simp [stepsOf] at hp
      · obtain ⟨rfl, -⟩ := hp
        decide
      · -- the second step selects in an array
        obtain ⟨rfl, -, -⟩ := hp
        exact absurd hq (by simp [Collection.lookup, Collection.lookupStep, sampleRecord, List.lookup_cons])
      · obtain ⟨-, -, rfl, -⟩ := hp
        decide)

/-- A record with a year for a member name. -/
def numeralRecord : Document where
  val := .obj [("1889", .str "Starry Night")]
  wf := by decide

/-- The item of that member is rendered, and the import finds nothing at its path. -/
theorem followJson_numeralRecord :
    originalSection numeralRecord.val [] = some [⟨["1889"], .str "Starry Night"⟩] ∧
      (Json.str "Starry Night").present = true ∧
      Collection.followJson numeralRecord.val (.steps (stepsOf ["1889"]))
        ≠ some [.str "Starry Night"] := by
  decide

end Views
end Curarium
