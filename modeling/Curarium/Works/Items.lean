import Curarium.Library.Weights
import Curarium.Works.Blocks

/-!
# Lists in a stored text

What the treemap statement makes of a stored list whose values have no quotes and no brackets in
them.

The statement cuts the text at `", "`. Between two quoted values that is the closing quote of the
first, the separator and the opening quote of the second; but a quoted `, ` is another, if its
opening quote has not been cut off already. So there are two places in the text to be in behind a
value (`cut`):

* behind a quoted value, whose closing quote is still there;
* behind a value without quotes or behind a quoted `, ` that was taken for a separator. Here a
  value is not separated from what is before it.

`kept` are the lists that come out as they went in. For all others something is lost, and what is
lost at one list is not made up for at another: `balance` weighs the commas and the values that are
a comma and nothing else, and only the lists that are `kept` are in balance.
-/

namespace Curarium
namespace Treemap

open WorksIndex Sql

/-! ### Texts of lists -/

/-- A value of a list: a number, or a string with its quotes. -/
inductive Item where
  | bare (value : Text)
  | quoted (value : Text)
deriving DecidableEq

def Item.value : Item → Text
  | .bare value => value
  | .quoted value => value

def Item.text : Item → Text
  | .bare value => value
  | .quoted value => '"' :: (value ++ ['"'])

/-- The values behind the first, and the closing bracket. -/
def tailText : List Item → Text
  | [] => [']']
  | x :: xs => ',' :: ' ' :: (x.text ++ tailText xs)

def listText : List Item → Text
  | [] => ['[', ']']
  | x :: xs => '[' :: (x.text ++ tailText xs)

/-- What the statement cuts at. -/
def separator : Text := ['"', ',', ' ', '"']

/-- The characters that it removes. -/
def removed : Text := ['[', ']', '"']

/-- Between two values. -/
def comma : Text := [',', ' ']

/-- A value with none of the characters that are removed. A value without quotes is more than spaces
and commas. -/
structure Item.Clean (x : Item) : Prop where
  notMem : ∀ c ∈ removed, c ∉ x.value
  solid : ∀ value, x = .bare value → ∃ c ∈ value, c ≠ ' ' ∧ c ≠ ','

theorem value_infix_text (x : Item) : x.value <:+: x.text := by
  cases x with
  | bare t => exact List.infix_rfl
  | quoted t => exact ⟨['"'], ['"'], rfl⟩

theorem text_infix_listText {x : Item} {xs : List Item} (hx : x ∈ xs) : x.text <:+: listText xs := by
  -- behind the first value each has a comma before it
  have htail : ∀ ys : List Item, x ∈ ys → x.text <:+: tailText ys := by
    intro ys hys
    induction ys with
    | nil => cases hys
    | cons y ys ih =>
      rw [tailText]
      refine List.infix_cons (List.infix_cons ?_)
      rcases List.mem_cons.mp hys with rfl | hys
      · exact (List.prefix_append _ _).isInfix
      · exact (ih hys).trans (List.suffix_append _ _).isInfix
  cases xs with
  | nil => cases hx
  | cons y ys =>
    rw [listText]
    refine List.infix_cons ?_
    rcases List.mem_cons.mp hx with rfl | hx
    · exact (List.prefix_append _ _).isInfix
    · exact (htail ys hx).trans (List.suffix_append _ _).isInfix

/-! ### How they are cut -/

/-- The values behind a text, with the closing quote before them or without. -/
def cut : Bool → Text → List Item → List Text
  | _, u, [] => [u]
  | _, u, .bare t :: xs => cut false (u ++ comma ++ t) xs
  | true, u, .quoted t :: xs => u :: cut true t xs
  | false, u, .quoted t :: xs =>
    if t = comma then (u ++ comma) :: cut false [] xs else cut true (u ++ comma ++ t) xs

/-- A value behind a text without quotes, and the values behind it. -/
def cutItem (u : Text) : Item → List Item → List Text
  | .bare t, xs => cut false (u ++ t) xs
  | .quoted t, xs => if t = comma then u :: cut false [] xs else cut true (u ++ t) xs

/-- The values of a list. -/
def cutList : List Item → List Text
  | [] => [[]]
  | x :: xs => cutItem [] x xs

theorem cut_false_cons (u : Text) (x : Item) (xs : List Item) :
    cut false u (x :: xs) = cutItem (u ++ comma) x xs := by
  cases x with
  | bare t => rfl
  | quoted t => rfl

theorem cut_bare (q : Bool) (u t : Text) (xs : List Item) :
    cut q u (.bare t :: xs) = cut false (u ++ comma ++ t) xs := by
  cases q with
  | false => rfl
  | true => rfl

theorem cut_append (q : Bool) (u v : Text) (xs : List Item) :
    cut q (u ++ v) xs = (cut q v xs).modifyHead (u ++ ·) := by
  induction xs generalizing q v with
  | nil => cases q <;> rfl
  | cons x xs ih =>
    cases x with
    | bare t => rw [cut_bare, cut_bare, List.append_assoc, List.append_assoc, ih, List.append_assoc]
    | quoted t =>
      cases q with
      | true => rfl
      | false =>
        -- only a separator ends the piece
        rw [cut, cut]
        split
        · rw [List.modifyHead_cons, List.append_assoc]
        · rw [List.append_assoc, List.append_assoc, ih, List.append_assoc]

theorem map_modifyHead_append (p : Text) (ps : List Text) :
    (ps.modifyHead (p ++ ·)).map (regexpRemove removed)
      = (ps.map (regexpRemove removed)).modifyHead (regexpRemove removed p ++ ·) := by
  cases ps with
  | nil => rfl
  | cons q ps => rw [List.modifyHead_cons, List.map_cons, regexpRemove_append, List.map_cons, List.modifyHead_cons]

theorem regexpRemove_comma : regexpRemove removed comma = comma := by decide

theorem separator_ne_nil : separator ≠ [] := List.cons_ne_nil _ _

theorem quote_notMem_comma : '"' ∉ comma := by decide

/-- A separator begins at a quote only before `, "`, and this is a value between quotes. -/
theorem not_prefix_separator {t : Text} (hquote : '"' ∉ t) (ht : t ≠ comma) (rest : Text) :
    ¬ separator <+: '"' :: (t ++ '"' :: rest) := by
  intro h
  have hquoted : comma ++ ['"'] <+: t ++ '"' :: rest := (List.cons_prefix_cons.mp h).2
  obtain ⟨rest', hrest⟩ := hquoted
  -- the first quote ends both
  have hidx := congrArg (List.idxOf '"') hrest
  rw [List.append_assoc, List.idxOf_append_of_notMem quote_notMem_comma,
    List.idxOf_append_of_notMem hquote] at hidx
  have hlen : comma.length = t.length := by simpa using hidx
  rw [List.append_assoc] at hrest
  exact ht (List.append_inj hrest hlen).1.symm

/-- A text without quotes stays in one piece. -/
theorem pieces_front {p : Text} (hp : '"' ∉ p) (rest : Text) :
    pieces separator (p ++ rest) = (pieces separator rest).modifyHead (p ++ ·) :=
  pieces_append_of_notMem hp rest

section Clean

variable {xs : List Item}

theorem Item.Clean.removed_value {x : Item} (h : x.Clean) : regexpRemove removed x.value = x.value :=
  regexpRemove_eq_self h.notMem

theorem Item.Clean.quote_notMem {x : Item} (h : x.Clean) : '"' ∉ x.value := h.notMem _ (by decide)

/-- A value behind a text without quotes. -/
theorem pieces_item {x : Item} (hx : x.Clean) {p : Text} (hp : '"' ∉ p)
    (hquoted : (pieces separator ('"' :: tailText xs)).map (regexpRemove removed) = cut true [] xs)
    (hbare : (pieces separator (tailText xs)).map (regexpRemove removed) = cut false [] xs) :
    (pieces separator (p ++ (x.text ++ tailText xs))).map (regexpRemove removed)
      = cutItem (regexpRemove removed p) x xs := by
  rw [pieces_front hp, map_modifyHead_append]
  cases x with
  | bare t =>
    have hstrip : regexpRemove removed t = t := hx.removed_value
    have hquote : '"' ∉ t := hx.quote_notMem
    rw [Item.text, pieces_front hquote, map_modifyHead_append, hbare, hstrip, ← cut_append, ← cut_append,
      List.append_nil, cutItem]
  | quoted t =>
    have hquote : '"' ∉ t := hx.quote_notMem
    have htext : (Item.quoted t).text ++ tailText xs = '"' :: (t ++ '"' :: tailText xs) := by
      rw [Item.text, List.cons_append, List.append_assoc, List.singleton_append]
    rw [htext]
    by_cases ht : t = comma
    · -- the value with its quotes is a separator
      have hsep : '"' :: (t ++ '"' :: tailText xs) = separator ++ tailText xs := by
        rw [ht]
        rfl
      rw [hsep, pieces_sep_append separator_ne_nil, List.map_cons, hbare, List.modifyHead_cons]
      rw [cutItem, if_pos ht, show regexpRemove removed [] = [] from rfl, List.append_nil]
    · rw [pieces_cons_of_not (not_prefix_separator hquote ht _), pieces_front hquote]
      have hopen : (List.modifyHead (t ++ ·) (pieces separator ('"' :: tailText xs))).modifyHead ('"' :: ·)
          = (pieces separator ('"' :: tailText xs)).modifyHead (('"' :: t) ++ ·) := by
        rw [List.modifyHead_modifyHead]
        rfl
      have hstrip : regexpRemove removed ('"' :: t) = t := hx.removed_value
      rw [hopen, map_modifyHead_append, hquoted, hstrip, ← cut_append, ← cut_append, List.append_nil,
        cutItem, if_neg ht]

/-- **The pieces of the rest of a list**, behind a closing quote and behind anything else. -/
theorem pieces_tailText (hxs : ∀ x ∈ xs, x.Clean) :
    (pieces separator ('"' :: tailText xs)).map (regexpRemove removed) = cut true [] xs ∧
      (pieces separator (tailText xs)).map (regexpRemove removed) = cut false [] xs := by
  induction xs with
  | nil => exact ⟨by decide, by decide⟩
  | cons x xs ih =>
    obtain ⟨hx, hxs⟩ := List.forall_mem_cons.mp hxs
    obtain ⟨hquoted, hbare⟩ := ih hxs
    have htail : tailText (x :: xs) = comma ++ (x.text ++ tailText xs) := rfl
    have hsecond := pieces_item hx quote_notMem_comma hquoted hbare
    rw [regexpRemove_comma] at hsecond
    rw [htail, hsecond, cut_false_cons, List.nil_append]
    refine ⟨?_, rfl⟩
    cases x with
    | bare t =>
      have hquote : '"' ∉ t := hx.quote_notMem
      -- no quote follows, so the closing quote does not begin a separator
      have hnot : ¬ separator <+: '"' :: (comma ++ ((Item.bare t).text ++ tailText xs)) := by
        intro h
        obtain ⟨c, hc, -⟩ := hx.solid t rfl
        obtain ⟨d, t, rfl⟩ := List.exists_cons_of_ne_nil (List.ne_nil_of_mem hc)
        have hd : '"' = d := (List.cons_prefix_cons.mp
          (List.cons_prefix_cons.mp (List.cons_prefix_cons.mp (List.cons_prefix_cons.mp h).2).2).2).1
        exact hquote (hd ▸ List.mem_cons_self)
      have hopen : ∀ ps : List Text, (ps.modifyHead ('"' :: ·)).map (regexpRemove removed)
          = ps.map (regexpRemove removed) := fun ps => by
        cases ps <;> rfl
      rw [pieces_cons_of_not hnot, hopen, hsecond, cut_bare, List.nil_append, cutItem]
    | quoted t =>
      have hquote : '"' ∉ t := hx.quote_notMem
      have hsep : '"' :: (comma ++ ((Item.quoted t).text ++ tailText xs))
          = separator ++ (t ++ '"' :: tailText xs) := by
        rw [Item.text, List.cons_append, List.append_assoc]
        rfl
      have hstrip : regexpRemove removed t = t := hx.removed_value
      rw [hsep, pieces_sep_append separator_ne_nil, pieces_front hquote, List.map_cons,
        map_modifyHead_append, hquoted, hstrip, ← cut_append, List.append_nil, cut]
      rfl

/-- **The pieces of a list.** -/
theorem pieces_listText (hxs : ∀ x ∈ xs, x.Clean) :
    (pieces separator (listText xs)).map (regexpRemove removed) = cutList xs := by
  cases xs with
  | nil => decide
  | cons x xs =>
    obtain ⟨hx, hxs⟩ := List.forall_mem_cons.mp hxs
    obtain ⟨hquoted, hbare⟩ := pieces_tailText hxs
    have hfront : '"' ∉ ['['] := by decide
    have hall := pieces_item hx hfront hquoted hbare
    rwa [show regexpRemove removed ['['] = [] from rfl] at hall

end Clean

/-! ### Lists that come out as they went in -/

def Item.isQuoted : Item → Bool
  | .bare _ => false
  | .quoted _ => true

/-- Nothing but spaces. -/
def isSpaces (t : Text) : Bool := t.all fun c => c == ' '

/-- Behind a first value `, `, which is taken for a separator, the same value has to come again, and
in the place of the last one a blank value. -/
def refilled : List Item → Bool
  | [] => false
  | .bare _ :: _ => false
  | .quoted t :: xs => if t = comma then refilled xs else isSpaces t && xs.all Item.isQuoted

/-- A single value without quotes, or values with quotes only. -/
def kept : List Item → Bool
  | [] => true
  | .bare _ :: xs => xs.isEmpty
  | .quoted t :: xs => if t = comma then refilled xs else xs.all Item.isQuoted

/-! ### What is lost -/

/-- The commas of a value. -/
def commas (t : Text) : Nat := t.count ','

/-- A value that is a comma and nothing else, when it is trimmed. -/
def lone (t : Text) : Nat := if trim t = [','] then 1 else 0

/-- A text that is more than spaces and commas. -/
def Solid (t : Text) : Prop := ∃ c ∈ t, c ≠ ' ' ∧ c ≠ ','

theorem Solid.append_left {t : Text} (h : Solid t) (u : Text) : Solid (u ++ t) :=
  let ⟨c, hc, hne⟩ := h
  ⟨c, List.mem_append_right u hc, hne⟩

theorem Solid.append_right {t : Text} (h : Solid t) (u : Text) : Solid (t ++ u) :=
  let ⟨c, hc, hne⟩ := h
  ⟨c, List.mem_append_left u hc, hne⟩

theorem commas_append (t u : Text) : commas (t ++ u) = commas t + commas u := List.count_append

theorem commas_comma : commas comma = 1 := by decide

theorem lone_comma : lone comma = 1 := by decide

theorem lone_nil : lone [] = 0 := by decide

theorem lone_of_solid {t : Text} (h : Solid t) : lone t = 0 := by
  obtain ⟨c, hc, hspace, hcomma⟩ := h
  refine if_neg fun heq => hcomma ?_
  exact List.mem_singleton.mp (heq ▸ mem_trim hc hspace)

theorem commas_of_lone {t : Text} (h : trim t = [',']) : commas t = 1 := by
  rw [commas, ← count_trim (by decide), h]
  rfl

theorem commas_of_isSpaces {t : Text} (h : isSpaces t = true) : commas t = 0 := by
  refine List.count_eq_zero.mpr fun hmem => ?_
  have hc := List.all_eq_true.mp h _ hmem
  exact absurd hc (by decide)

theorem lone_of_isSpaces {t : Text} (h : isSpaces t = true) : lone t = 0 := by
  refine if_neg fun heq => ?_
  have hcommas := commas_of_lone heq
  rw [commas_of_isSpaces h] at hcommas
  exact absurd hcommas (by decide)

theorem lone_comma_append_of_isSpaces {t : Text} (h : isSpaces t = true) : lone (comma ++ t) = 1 := by
  refine if_pos (trim_cons_append (by decide) fun c hc => ?_)
  rcases List.mem_cons.mp hc with rfl | hc
  · rfl
  · exact beq_iff_eq.mp (List.all_eq_true.mp h c hc)

theorem lone_comma_append {t : Text} (h : isSpaces t = false) : lone (comma ++ t) = 0 := by
  refine if_neg fun heq => ?_
  -- the one comma is in front
  have hcommas := commas_of_lone heq
  rw [commas_append, commas_comma] at hcommas
  obtain ⟨c, hc, hspace⟩ := List.all_eq_false.mp h
  have hne : c ≠ ',' := by
    rintro rfl
    have hpos := List.count_pos_iff.mpr hc
    rw [commas] at hcommas
    omega
  have hsolid : Solid (comma ++ t) := Solid.append_left ⟨c, hc, by simpa using hspace, hne⟩ comma
  have hlone := lone_of_solid hsolid
  rw [lone, if_pos heq] at hlone
  exact absurd hlone (by decide)

/-- The weights of the values of a list. -/
def commasOf (xs : List Item) : Nat := weight (fun x => commas x.value) xs

def loneOf (xs : List Item) : Nat := weight (fun x => lone x.value) xs

@[simp] theorem commasOf_cons (x : Item) (xs : List Item) :
    commasOf (x :: xs) = commas x.value + commasOf xs := rfl

@[simp] theorem loneOf_cons (x : Item) (xs : List Item) : loneOf (x :: xs) = lone x.value + loneOf xs := rfl

/-- `l` against `r`: not above it, and below it if something is lost. -/
def Loses (kept : Bool) (l r : Nat) : Prop := kept = true ∧ l ≤ r ∨ l < r

theorem Loses.le {kept : Bool} {l r : Nat} (h : Loses kept l r) : l ≤ r :=
  h.elim And.right Nat.le_of_lt

/-- The same with more on both sides. -/
theorem Loses.of_le {kept : Bool} {l r l' r' : Nat} (h : Loses kept l r) (hle : l' + r ≤ l + r') :
    Loses kept l' r' := by
  rcases h with ⟨hkept, h⟩ | h
  · exact .inl ⟨hkept, by omega⟩
  · exact .inr (by omega)

/-- The commas of the values, and the commas that stand alone of what they are cut to, against the same
the other way round. -/
structure Balance (xs : List Item) : Prop where
  /-- Behind a text with its closing quote. -/
  closing : ∀ u, Loses (xs.all Item.isQuoted)
    (commas u + commasOf xs + 2 * weight lone (cut true u xs))
    (weight commas (cut true u xs) + 2 * (lone u + loneOf xs))
  /-- Behind a text that is more than spaces and commas. -/
  behind : ∀ u, Solid u → Loses xs.isEmpty
    (commas u + commasOf xs + 2 * weight lone (cut false u xs))
    (weight commas (cut false u xs) + 2 * loneOf xs)
  /-- Behind a `, ` that was taken for a separator. -/
  refilled : Loses (refilled xs) (commasOf xs + 2 * weight lone (cut false [] xs))
    (weight commas (cut false [] xs) + 2 * loneOf xs + 1)

theorem balance_nil : Balance [] where
  closing u := by
    refine .inl ⟨rfl, ?_⟩
    simp only [cut, commasOf, loneOf, weight_cons, weight_nil]
    omega
  behind u hu := by
    refine .inl ⟨rfl, ?_⟩
    simp only [cut, commasOf, loneOf, weight_cons, weight_nil, lone_of_solid hu]
    omega
  refilled := .inr (by decide)

/-- A value without quotes is run together with what is before it. -/
theorem balance_bare {t : Text} (ht : Solid t) {xs : List Item} (h : Balance xs) :
    Balance (.bare t :: xs) where
  closing u := by
    have hle := (h.behind (u ++ comma ++ t) (ht.append_left _)).le
    rw [commas_append, commas_append, commas_comma] at hle
    simp only [cut, commasOf_cons, loneOf_cons, Item.value]
    exact .inr (by omega)
  behind u _ := by
    have hle := (h.behind (u ++ comma ++ t) (ht.append_left _)).le
    rw [commas_append, commas_append, commas_comma] at hle
    simp only [cut, commasOf_cons, loneOf_cons, Item.value]
    exact .inr (by omega)
  refilled := by
    have hle := (h.behind ([] ++ comma ++ t) (ht.append_left _)).le
    rw [List.nil_append, commas_append, commas_comma] at hle
    simp only [cut, commasOf_cons, loneOf_cons, Item.value, List.nil_append]
    exact .inr (by omega)

/-- A quoted value that is no separator is run together with what is before it, if no closing quote
is. -/
theorem balance_quoted {t : Text} (ht : t ≠ comma) {xs : List Item} (h : Balance xs) :
    Balance (.quoted t :: xs) where
  closing u := by
    simp only [cut, commasOf_cons, loneOf_cons, Item.value, weight_cons]
    exact (h.closing t).of_le (by omega)
  behind u hu := by
    have hle := (h.closing (u ++ comma ++ t)).le
    rw [commas_append, commas_append, commas_comma,
      lone_of_solid ((hu.append_right comma).append_right t)] at hle
    simp only [cut, if_neg ht, commasOf_cons, loneOf_cons, Item.value]
    exact .inr (by omega)
  refilled := by
    have hclosing := h.closing ([] ++ comma ++ t)
    rw [List.nil_append, commas_append, commas_comma] at hclosing
    simp only [cut, if_neg ht, commasOf_cons, loneOf_cons, Item.value, List.nil_append, Treemap.refilled]
    cases hspaces : isSpaces t with
    | true =>
      -- with the comma before it, a blank value stands for the one that was cut away
      rw [lone_comma_append_of_isSpaces hspaces, commas_of_isSpaces hspaces] at hclosing
      rw [lone_of_isSpaces hspaces, commas_of_isSpaces hspaces, Bool.true_and]
      exact hclosing.of_le (by omega)
    | false =>
      have hle := hclosing.le
      rw [lone_comma_append hspaces] at hle
      exact .inr (by omega)

/-- A quoted `, ` is cut away, if no closing quote is before it. -/
theorem balance_comma {xs : List Item} (h : Balance xs) : Balance (.quoted comma :: xs) where
  closing u := by
    simp only [cut, commasOf_cons, loneOf_cons, Item.value, weight_cons]
    exact (h.closing comma).of_le (by omega)
  behind u hu := by
    have hle := h.refilled.le
    simp only [cut, if_true, commasOf_cons, loneOf_cons, Item.value, weight_cons, commas_append,
      commas_comma, lone_comma, lone_of_solid (hu.append_right comma)]
    exact .inr (by omega)
  refilled := by
    simp only [cut, if_true, commasOf_cons, loneOf_cons, Item.value, weight_cons, List.nil_append,
      commas_comma, lone_comma, Treemap.refilled]
    exact h.refilled.of_le (by omega)

theorem balance {xs : List Item} (hxs : ∀ x ∈ xs, x.Clean) : Balance xs := by
  induction xs with
  | nil => exact balance_nil
  | cons x xs ih =>
    have hx := hxs x List.mem_cons_self
    have hbalance := ih fun y hy => hxs y (List.mem_cons_of_mem _ hy)
    cases x with
    | bare t => exact balance_bare (hx.solid t rfl) hbalance
    | quoted t =>
      -- the separator itself is a value that is cut away
      by_cases ht : t = comma
      · rw [ht]
        exact balance_comma hbalance
      · exact balance_quoted ht hbalance

/-- **What a list loses**: nothing only if it is kept. -/
theorem loses_cutList {xs : List Item} (hxs : ∀ x ∈ xs, x.Clean) : Loses (kept xs)
    (commasOf xs + 2 * weight lone (cutList xs)) (weight commas (cutList xs) + 2 * loneOf xs) := by
  cases xs with
  | nil => exact .inl ⟨rfl, Nat.le_refl _⟩
  | cons x xs =>
    have hx := hxs x List.mem_cons_self
    have hbalance := balance fun y hy => hxs y (List.mem_cons_of_mem _ hy)
    cases x with
    | bare t =>
      have hsolid : Solid t := hx.solid t rfl
      simp only [cutList, cutItem, List.nil_append, commasOf_cons, loneOf_cons, Item.value,
        lone_of_solid hsolid, Nat.zero_add]
      exact hbalance.behind t hsolid
    | quoted t =>
      by_cases ht : t = comma
      · -- the first value is cut away, and what is behind it has to make up for it
        have hcommas : commas [] = 0 := rfl
        rw [ht]
        simp only [cutList, cutItem, if_true, commasOf_cons, loneOf_cons, Item.value, weight_cons, lone_nil,
          commas_comma, lone_comma, hcommas, kept]
        exact hbalance.refilled.of_le (by omega)
      · simp only [cutList, cutItem, if_neg ht, List.nil_append, commasOf_cons, loneOf_cons, Item.value, kept]
        exact hbalance.closing t

/-! ### What is kept -/

/-- With all quotes in place each value is a piece. -/
theorem cut_quoted {xs : List Item} (h : xs.all Item.isQuoted = true) (u : Text) :
    cut true u xs = u :: xs.map Item.value := by
  induction xs generalizing u with
  | nil => rfl
  | cons x xs ih =>
    rw [List.all_cons, Bool.and_eq_true] at h
    cases x with
    | bare t => exact absurd h.1 Bool.false_ne_true
    | quoted t => rw [cut, ih h.2, List.map_cons, Item.value]

theorem trim_of_isSpaces {t : Text} (h : isSpaces t = true) : trim t = [] := by
  have hfront : t.dropWhile (fun c => c == ' ') = [] :=
    List.dropWhile_eq_nil_iff.mpr fun c hc => List.all_eq_true.mp h c hc
  rw [trim, hfront]
  rfl

theorem trim_comma_append {t : Text} (h : isSpaces t = true) : trim (comma ++ t) = trim comma := by
  have hlone := lone_comma_append_of_isSpaces h
  rw [lone] at hlone
  split at hlone
  · next heq => rw [heq]; decide
  · cases hlone

/-- The pieces behind a first `, `, in another order. -/
theorem refilled_perm {xs : List Item} (h : refilled xs = true) :
    (([] :: cut false [] xs).map trim).Perm ((comma :: xs.map Item.value).map trim) := by
  induction xs with
  | nil => cases h
  | cons x xs ih =>
    cases x with
    | bare t => cases h
    | quoted t =>
      rw [refilled] at h
      by_cases ht : t = comma
      · -- one more separator: the empty piece moves on
        rw [if_pos ht] at h
        simp only [cut, List.nil_append, List.map_cons, Item.value, ht]
        exact (List.Perm.swap _ _ _).trans ((ih h).cons _)
      · -- a blank value keeps the comma before it, which trimmed is the value that was cut away
        rw [if_neg ht, Bool.and_eq_true] at h
        rw [cut, if_neg ht, List.nil_append, cut_quoted h.2]
        simp only [List.map_cons, Item.value, trim_comma_append h.1, trim_of_isSpaces h.1]
        exact List.Perm.swap _ _ _

/-- **The pieces of a list that is kept** are its values. -/
theorem kept_perm {xs : List Item} (h : kept xs = true) (hne : xs ≠ []) :
    ((cutList xs).map trim).Perm (xs.map fun x => trim x.value) := by
  cases xs with
  | nil => exact absurd rfl hne
  | cons x xs =>
    cases x with
    | bare t =>
      obtain rfl := List.isEmpty_iff.mp h
      exact List.Perm.refl _
    | quoted t =>
      rw [kept] at h
      rw [cutList, cutItem]
      by_cases ht : t = comma
      · have hvalues : (comma :: xs.map Item.value).map trim
            = (Item.quoted comma :: xs).map fun x => trim x.value := by
          rw [List.map_cons, List.map_map]
          rfl
        rw [if_pos ht] at h
        rw [if_pos ht, ht, ← hvalues]
        exact refilled_perm h
      · rw [if_neg ht] at h
        rw [if_neg ht, cut_quoted h, List.nil_append, List.map_cons, List.map_map]
        exact List.Perm.refl _

/-! ### Many lists -/

/-- The values that the statement makes of a list. A text of which nothing is left makes an empty
array. -/
def decoded (xs : List Item) : List Text :=
  if cutList xs = [[]] then [] else (cutList xs).map trim

/-- The values of a list, trimmed. -/
def trimmed (xs : List Item) : List Text := xs.map fun x => trim x.value

/-- Is a value a comma? -/
def loneTrimmed (t : Text) : Nat := if t = [','] then 1 else 0

theorem commas_trim (t : Text) : commas (trim t) = commas t := count_trim (by decide) t

theorem weight_commas_decoded (xs : List Item) :
    weight commas (decoded xs) = weight commas (cutList xs) := by
  rw [decoded]
  split
  · next h => rw [h]; rfl
  · rw [weight_map]
    exact weight_congr fun t _ => commas_trim t

theorem weight_lone_decoded (xs : List Item) :
    weight loneTrimmed (decoded xs) = weight lone (cutList xs) := by
  rw [decoded]
  split
  · next h => rw [h]; rfl
  · rw [weight_map]
    rfl

theorem weight_commas_trimmed (xs : List Item) : weight commas (trimmed xs) = commasOf xs := by
  rw [trimmed, weight_map]
  exact weight_congr fun x _ => commas_trim x.value

theorem weight_lone_trimmed (xs : List Item) : weight loneTrimmed (trimmed xs) = loneOf xs := by
  rw [trimmed, weight_map]
  rfl

/-- Nothing is left of the empty list, and of a list with the empty string only. -/
theorem cutList_eq_iff {xs : List Item} (hxs : ∀ x ∈ xs, x.Clean) (h : kept xs = true) :
    cutList xs = [[]] ↔ xs = [] ∨ xs = [.quoted []] := by
  constructor
  · intro hcut
    by_cases hne : xs = []
    · exact .inl hne
    right
    have hperm := kept_perm h hne
    have hlen := hperm.length_eq
    rw [hcut, List.map_singleton, List.length_singleton, List.length_map] at hlen
    obtain ⟨x, rfl⟩ := List.length_eq_one_iff.mp hlen.symm
    cases x with
    | bare t =>
      -- a value without quotes is not empty
      obtain ⟨c, hc, -⟩ := (hxs _ List.mem_cons_self).solid t rfl
      have ht : t = [] := (List.cons.inj hcut).1
      exact absurd (ht ▸ hc) List.not_mem_nil
    | quoted t =>
      rw [cutList, cutItem] at hcut
      split at hcut
      · cases hcut
      · have ht : t = [] := (List.cons.inj hcut).1
        rw [ht]
  · rintro (rfl | rfl)
    · rfl
    · rfl

theorem decoded_perm {xs : List Item} (hxs : ∀ x ∈ xs, x.Clean) (h : kept xs = true)
    (hempty : xs ≠ [.quoted []]) : (decoded xs).Perm (trimmed xs) := by
  by_cases hne : xs = []
  · rw [hne]
    exact List.Perm.refl _
  · have hcut : cutList xs ≠ [[]] := fun hcut => ((cutList_eq_iff hxs h).mp hcut).elim hne hempty
    rw [decoded, if_neg hcut]
    exact kept_perm h hne

/-- **The lists whose values the statement finds**: nothing that is lost at one is made up for at
another. -/
theorem decoded_perm_iff {lists : List (List Item)} (hlists : ∀ xs ∈ lists, ∀ x ∈ xs, x.Clean) :
    (lists.flatMap decoded).Perm (lists.flatMap trimmed) ↔
      ∀ xs ∈ lists, kept xs = true ∧ xs ≠ [.quoted []] := by
  constructor
  · intro hperm
    -- the balance of all lists is even, and so is that of each
    have hcommas : weight (fun xs => weight commas (cutList xs)) lists = weight commasOf lists := by
      have htotal := weight_perm (m := commas) hperm
      rw [weight_flatMap, weight_flatMap] at htotal
      rwa [weight_congr fun xs _ => weight_commas_decoded xs, weight_congr fun xs _ => weight_commas_trimmed xs]
        at htotal
    have hlone : weight (fun xs => weight lone (cutList xs)) lists = weight loneOf lists := by
      have htotal := weight_perm (m := loneTrimmed) hperm
      rw [weight_flatMap, weight_flatMap] at htotal
      rwa [weight_congr fun xs _ => weight_lone_decoded xs, weight_congr fun xs _ => weight_lone_trimmed xs]
        at htotal
    have hle : ∀ xs ∈ lists, commasOf xs + (weight lone (cutList xs) + weight lone (cutList xs))
        ≤ weight commas (cutList xs) + (loneOf xs + loneOf xs) := fun xs hxs => by
      have hloses := (loses_cutList (hlists xs hxs)).le
      omega
    have htotal : weight (fun xs => weight commas (cutList xs) + (loneOf xs + loneOf xs)) lists
        ≤ weight (fun xs => commasOf xs + (weight lone (cutList xs) + weight lone (cutList xs))) lists := by
      rw [weight_add, weight_add, weight_add, weight_add, hcommas, hlone]
    have hkept : ∀ xs ∈ lists, kept xs = true := by
      intro xs hxs
      have heq := eq_of_weight_le hle htotal xs hxs
      rcases loses_cutList (hlists xs hxs) with ⟨hkept, -⟩ | hlt
      · exact hkept
      · omega
    -- then only empty strings are missing
    have hlength := weight_perm (m := fun _ => 1) hperm
    rw [weight_flatMap, weight_flatMap] at hlength
    have hshort : ∀ xs ∈ lists, weight (fun _ => 1) (decoded xs) ≤ weight (fun _ => 1) (trimmed xs) := by
      intro xs hxs
      by_cases hempty : xs = [.quoted []]
      · rw [hempty]
        decide
      · exact (weight_perm (decoded_perm (hlists xs hxs) (hkept xs hxs) hempty)).le
    refine fun xs hxs => ⟨hkept xs hxs, ?_⟩
    rintro rfl
    have heq := eq_of_weight_le hshort hlength.ge _ hxs
    exact absurd heq (by decide)
  · intro hkept
    exact List.Perm.flatMap_left lists fun xs hxs =>
      decoded_perm (hlists xs hxs) (hkept xs hxs).1 (hkept xs hxs).2

end Treemap
end Curarium
