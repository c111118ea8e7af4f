import Mathlib.Data.List.Infix
import Mathlib.Data.List.Perm.Subperm
import Curarium.Library.Runs
import Curarium.Ruby.Text
import Curarium.Sql.Lengths
import Curarium.Sql.Literal

/-!
# The fields that can be added

The page that configures a collection offers the fields that are not configured yet.
`CollectionField.available_for` joins the names of the configured fields into the literals of a condition,
as they are, and anybody can create a field with any name.

* `step` — fields are created, added to the configuration and removed from it.
* `offered_eq_iff` — the condition is read as names that leave the other fields exactly if no configured
  field has an apostrophe in its name: names with one are too long for the text they would be read from.
* `always_offers_iff` — so the page offers what it should all along a run exactly if no such field is added.
-/

namespace Curarium
namespace Fields

open Sql Runs

/-! ### The condition -/

structure Field where
  name : String
  displayName : String
deriving DecidableEq

/-- The condition of `available_for`. -/
def availableFor (keys : List String) : List Char :=
  "NOT name IN ('".toList ++ ("','".toList.intercalate (keys.map String.toList) ++ "')".toList)

/-- Literals with commas between them, and the closing bracket. -/
def readNames : List Token → Option (List String)
  | [.str .standard name, .punct ')'] => some [name]
  | .str .standard name :: .punct ',' :: ts => (readNames ts).map (name :: ·)
  | _ => none

def nameIn : List Token := [.word "not", .word "name", .word "in", .punct '(']

/-- The names that a condition excludes; `none` if it is no such condition. -/
def readIn (ts : List Token) : Option (List String) :=
  if ts.take 4 = nameIn then readNames (ts.drop 4) else none

/-! ### The system -/

/-- The fields, and the names of those that a collection has in its configuration. -/
structure State where
  fields : List Field
  keys : List String
  nodup : keys.Nodup
  named : ∀ k ∈ keys, k ∈ fields.map Field.name
  nonempty : "" ∉ fields.map Field.name

/-- What the page offers; `none` if the condition is no list of names, and the query raises or asks
something else. -/
def offered (s : State) : Option (List Field) :=
  (readIn (lex (availableFor s.keys))).map fun names => s.fields.filter fun f => !names.contains f.name

inductive Event where
  /-- `CollectionFieldsController#create` -/
  | create (name displayName : Option String)
  /-- A field is dragged into the configuration, whose object keeps it at `i`. -/
  | add (name : String) (i : Nat)
  | remove (i : Nat)

variable (underscore : List Char → List Char)

/-- The name of a new field; `none` if the request raises. -/
def nameOf (name displayName : Option String) : Option String :=
  match name with
  | some name => some name
  | none => displayName.map fun d => String.ofList (underscore (d.toList.filter (· ≠ ' ')))

/-- Is the field valid? -/
def valid (fields : List Field) (f : Field) : Bool :=
  !Ruby.blank f.name.toList && !Ruby.blank f.displayName.toList &&
    fields.all fun g => g.name ≠ f.name && g.displayName ≠ f.displayName

/-- A new field. -/
def State.save (s : State) (f : Field) : State :=
  if h : valid s.fields f = true then
    { s with
      fields := s.fields ++ [f]
      named := fun k hk => by
        rw [List.map_append]
        exact List.mem_append_left _ (s.named k hk)
      nonempty := by
        rw [List.map_append, List.mem_append, not_or]
        refine ⟨s.nonempty, fun hempty => ?_⟩
        rw [List.map_singleton, List.mem_singleton] at hempty
        rw [valid, ← hempty] at h
        exact absurd h (by simp [Ruby.blank]) }
  else s

/-- `config[ name ] = ''` -/
def State.insert (s : State) (name : String) (i : Nat) (h : name ∈ s.fields.map Field.name) : State :=
  if hname : name ∈ s.keys then s
  else
    have hperm : (s.keys.insertIdx (min i s.keys.length) name).Perm (name :: s.keys) :=
      List.perm_insertIdx name s.keys (Nat.min_le_right _ _)
    { s with
      keys := s.keys.insertIdx (min i s.keys.length) name
      nodup := hperm.nodup_iff.mpr (List.nodup_cons.mpr ⟨hname, s.nodup⟩)
      named := fun k hk => (List.mem_cons.mp (hperm.mem_iff.mp hk)).elim (fun heq => heq ▸ h) (s.named k) }

def State.remove (s : State) (i : Nat) : State :=
  { s with
    keys := s.keys.eraseIdx i
    nodup := s.nodup.sublist (List.eraseIdx_sublist _ _)
    named := fun k hk => s.named k (List.mem_of_mem_eraseIdx hk) }

/-- A field without a display name is not valid. -/
def step (s : State) : Event → Option State
  | .create name displayName =>
    (nameOf underscore name displayName).map fun n => (displayName.map fun d => s.save ⟨n, d⟩).getD s
  | .add name i => if h : name ∈ s.fields.map Field.name then some (s.insert name i h) else none
  | .remove i => some (s.remove i)

/-- The page offers the fields that are not configured. -/
def Offers (s : State) : Prop := offered s = some (s.fields.filter fun f => !s.keys.contains f.name)

/-- No field is added with an apostrophe in its name. -/
def Plain (e : Event) : Prop := ∀ name i, e = .add name i → '\'' ∉ name.toList

/-! ### How the condition is read -/

/-- The condition behind `IN (`. -/
def literals (keys : List String) : List Char :=
  '\'' :: ("','".toList.intercalate (keys.map String.toList) ++ ['\'', ')'])

theorem readIn_availableFor (keys : List String) :
    readIn (lex (availableFor keys)) = readNames (lex (literals keys)) := by
  have hhead : Transducer.feed Sql.step .idle "NOT name IN (".toList = (.idle, nameIn) := by decide +kernel
  have hlex : lex (availableFor keys) = nameIn ++ lex (literals keys) :=
    Transducer.output_append_of_eq hhead (literals keys)
  rw [hlex, readIn]
  exact if_pos rfl

theorem literals_cons_cons (k k' : String) (ks : List String) :
    literals (k :: k' :: ks) = '\'' :: (k.toList ++ '\'' :: ',' :: literals (k' :: ks)) := by
  simp [literals, List.intercalate]

theorem literals_singleton (k : String) : literals [k] = '\'' :: (k.toList ++ '\'' :: ')' :: []) := by
  simp [literals, List.intercalate]

theorem length_literals {keys : List String} (h : keys ≠ []) :
    (literals keys).length = weight (fun k => k.toList.length + 3) keys := by
  match keys with
  | [k] =>
    rw [literals_singleton]
    simp
  | k :: k' :: ks =>
    rw [literals_cons_cons, weight_cons, ← length_literals (List.cons_ne_nil k' ks)]
    simp
    omega

/-- A name without an apostrophe is read as it is. -/
theorem lex_literal {k : List Char} (hk : '\'' ∉ k) {c : Char} (hc : c = ',' ∨ c = ')') (rest : List Char) :
    lex ('\'' :: (k ++ '\'' :: c :: rest)) = .str .standard (String.ofList k) :: .punct c :: lex rest := by
  have hopen : Transducer.feed Sql.step .idle ['\''] = (.str .standard [], []) := rfl
  have hclose : Transducer.feed Sql.step (.str .standard ([] ++ k)) ['\'', c] =
      (.idle, [strToken .standard k, .punct c]) := by
    rcases hc with rfl | rfl
    · rfl
    · rfl
  have hall := Transducer.feed_append_of_eq _
    (Transducer.feed_append_of_eq _ hopen (feed_enclosed (.of_notMem hk) [])) hclose
  have hlex : lex (['\''] ++ k ++ ['\'', c] ++ rest) = [] ++ [] ++ [strToken .standard k, .punct c] ++ lex rest :=
    Transducer.output_append_of_eq hall rest
  rw [List.append_assoc, List.append_assoc] at hlex
  exact hlex

theorem readNames_literals {keys : List String} (hne : keys ≠ []) (h : ∀ k ∈ keys, '\'' ∉ k.toList) :
    readNames (lex (literals keys)) = some keys := by
  match keys with
  | [k] =>
    rw [literals_singleton, lex_literal (h k List.mem_cons_self) (.inr rfl), String.ofList_toList]
    rfl
  | k :: k' :: ks =>
    rw [literals_cons_cons, lex_literal (h k List.mem_cons_self) (.inl rfl), String.ofList_toList, readNames,
      readNames_literals (List.cons_ne_nil k' ks) fun k hk => h k (List.mem_cons_of_mem _ hk)]
    rfl

/-- The names that are read take their characters, and their apostrophes twice. -/
theorem weight_of_readNames {ts : List Token} {names : List String} (h : readNames ts = some names) :
    weight Token.length ts = weight (fun n => n.toList.length + n.toList.count '\'' + 3) names := by
  fun_induction readNames ts generalizing names with
  | case1 name =>
    obtain rfl := Option.some.inj h
    simp [Token.length, held]
  | case2 name ts ih =>
    obtain ⟨rest, hrest, rfl⟩ := Option.map_eq_some_iff.mp h
    rw [weight_cons, weight_cons, weight_cons, ih hrest]
    simp only [Token.length, held, if_true, true_or]
    omega
  | case3 => exact absurd h (by simp)

/-- **What the page offers** is what it should exactly if no configured field has an apostrophe in its
name. -/
theorem offered_eq_iff (s : State) : Offers s ↔ ∀ k ∈ s.keys, '\'' ∉ k.toList := by
  constructor
  · intro h
    obtain ⟨names, hnames, hfilter⟩ := Option.map_eq_some_iff.mp h
    rw [readIn_availableFor] at hnames
    by_cases hne : s.keys = []
    · rw [hne]
      exact List.forall_mem_nil _
    -- a configured field is not offered, so its name is among those that are read
    have hsub : s.keys ⊆ names := by
      intro k hk
      obtain ⟨f, hf, rfl⟩ := List.mem_map.mp (s.named k hk)
      by_contra hno
      have hmem : f ∈ s.fields.filter fun f => !names.contains f.name :=
        List.mem_filter.mpr ⟨hf, by simpa using hno⟩
      rw [hfilter] at hmem
      exact absurd (List.mem_filter.mp hmem).2 (by simpa using hk)
    have hle : weight (fun k => k.toList.length + k.toList.count '\'' + 3) s.keys ≤
        weight (fun k => k.toList.length + 3) s.keys :=
      calc weight (fun k => k.toList.length + k.toList.count '\'' + 3) s.keys
          ≤ weight (fun k => k.toList.length + k.toList.count '\'' + 3) names :=
            weight_subperm (s.nodup.subperm hsub)
        _ = weight Token.length (lex (literals s.keys)) := (weight_of_readNames hnames).symm
        _ ≤ (literals s.keys).length := weight_lex_le _
        _ = weight (fun k => k.toList.length + 3) s.keys := length_literals hne
    intro k hk
    have heq := eq_of_weight_le (fun k _ => by omega) hle k hk
    exact List.count_eq_zero.mp (by omega)
  · intro h
    show offered s = _
    rw [offered, readIn_availableFor]
    by_cases hne : s.keys = []
    · have hempty : readNames (lex (literals [])) = some [""] := by decide +kernel
      rw [hne, hempty, Option.map_some]
      refine congrArg some (List.filter_congr fun f hf => ?_)
      have hname : f.name ≠ "" := fun h => s.nonempty (h ▸ List.mem_map_of_mem hf)
      simpa using hname
    · rw [readNames_literals hne h]
      rfl

/-! ### Runs -/

theorem keys_save (s : State) (f : Field) : (s.save f).keys = s.keys := by
  unfold State.save
  split
  · rfl
  · rfl

theorem offers_save_iff (s : State) (f : Field) : Offers (s.save f) ↔ Offers s := by
  rw [offered_eq_iff, offered_eq_iff, keys_save]

/-- A field that is configured already is not added again. -/
theorem mem_keys_insert {s : State} {name : String} (i : Nat) (h : name ∈ s.fields.map Field.name) {k : String} :
    k ∈ (s.insert name i h).keys ↔ k = name ∨ k ∈ s.keys := by
  unfold State.insert
  by_cases hname : name ∈ s.keys
  · rw [dif_pos hname]
    exact ⟨.inr, fun hk => hk.elim (fun heq => heq ▸ hname) id⟩
  · rw [dif_neg hname]
    exact (List.perm_insertIdx name s.keys (Nat.min_le_right _ _)).mem_iff.trans List.mem_cons

theorem offers_insert_iff {s : State} (hs : Offers s) (name : String) (i : Nat)
    (h : name ∈ s.fields.map Field.name) : Offers (s.insert name i h) ↔ '\'' ∉ name.toList := by
  rw [offered_eq_iff] at hs ⊢
  constructor
  · intro hall
    exact hall name ((mem_keys_insert i h).mpr (.inl rfl))
  · intro hplain k hk
    obtain rfl | hk := (mem_keys_insert i h).mp hk
    · exact hplain
    · exact hs k hk

theorem offers_step_iff {s t : State} {e : Event} (hs : Offers s) (h : step underscore s e = some t) :
    Offers t ↔ Plain e := by
  cases e with
  | create name displayName =>
    obtain ⟨n, -, rfl⟩ := Option.map_eq_some_iff.mp h
    refine iff_of_true ?_ fun _ _ he => nomatch he
    cases displayName with
    | none => exact hs
    | some d => exact (offers_save_iff s _).mpr hs
  | add name i =>
    rw [step] at h
    split at h
    case isTrue hname =>
      obtain rfl := Option.some.inj h
      rw [offers_insert_iff hs]
      exact ⟨fun hplain _ _ he => (Event.add.inj he).1 ▸ hplain, fun hplain => hplain name i rfl⟩
    case isFalse => exact absurd h (by simp)
  | remove i =>
    obtain rfl := Option.some.inj h
    rw [offered_eq_iff] at hs ⊢
    exact iff_of_true (fun k hk => hs k (List.mem_of_mem_eraseIdx hk)) fun _ _ he => nomatch he

/-- **When the page offers what it should**: all along a run, exactly if no field is added that has an
apostrophe in its name. -/
theorem always_offers_iff {s t : State} (hs : ∀ k ∈ s.keys, '\'' ∉ k.toList) {es : List Event}
    (h : exec (step underscore) s es = some t) :
    Always (step underscore) (fun _ _ t => Offers t) s es ↔
      ∀ name i, .add name i ∈ es → '\'' ∉ name.toList := by
  have hmeets : Always (step underscore) (fun _ _ t => Offers t) s es ↔
      Meets (step underscore) (fun _ e => Plain e) s es :=
    always_iff_meets (J := fun _ => True) (I := Offers) (fun _ _ _ _ _ => trivial) (fun _ _ _ h => h)
      (fun _ _ _ _ hs hstep => offers_step_iff underscore hs hstep) trivial ((offered_eq_iff s).mpr hs) h
  rw [hmeets, meets_iff_forall_mem h]
  exact ⟨fun hall name i hmem => hall _ hmem name i rfl, fun hall e he name i heq => hall name i (heq ▸ he)⟩

/-- A title is configured. -/
def titleOnly : State where
  fields := [⟨"title", "Title"⟩]
  keys := ["title"]
  nodup := by decide
  named := by decide
  nonempty := by decide

/-- A field is created and configured; one with an apostrophe in its name hides them all. -/
theorem always_offers_titleOnly :
    Always (step (List.map Char.toLower)) (fun _ _ t => Offers t) titleOnly
        [.create none (some "Painter"), .add "painter" 1, .remove 0] ∧
      ¬Always (step (List.map Char.toLower)) (fun _ _ t => Offers t) titleOnly
        [.create none (some "Painter's name"), .add "painter'sname" 1] := by
  have hkeys : ∀ k ∈ titleOnly.keys, '\'' ∉ k.toList := List.forall_mem_singleton.mpr (by decide)
  constructor
  · refine (always_offers_iff _ hkeys rfl).mpr fun name i hmem => ?_
    obtain ⟨rfl, -⟩ : name = "painter" ∧ i = 1 := by simpa using hmem
    decide
  · intro halways
    exact (always_offers_iff _ hkeys rfl).mp halways "painter'sname" 1 (by simp) (by decide)

end Fields
end Curarium
