import Curarium.Library.Checksums
import Curarium.ObjectMap.Coherence

/-!
# Which queries share an object map

A filtered object map is kept under the checksum of its `where` clause, and nothing else tells two
clauses apart. There are more clauses than checksums, so some of them share a directory, and the second
one to be asked for is answered with the picture of the first.

* `crc32_eq` — `Zlib.crc32` is the checksum of `Curarium.Checksums` for its polynomial.
* `crc32_ne_of_near` — clauses that differ in one window of at most four bytes (`Near`) do not share a
  directory; such are those of two collections whose ids have as many digits, up to four
  (`near_of_collections`).
* `queries_untouched` — so whatever is asked for in between, if it is near, and whatever happens to the
  tables, the files of a clause are left as they are.
-/

namespace Curarium
namespace ObjectMap

open Runs WorksIndex Checksums

/-! ### The checksum -/

/-- The polynomial of `Zlib.crc32`, reflected. -/
def polynomial : BitVec 32 := 0xEDB88320#32

/-- The lowest bit is looked at. -/
theorem and_one_eq_one_iff (c : UInt32) : c &&& 1 = 1 ↔ c.toBitVec.getLsbD 0 = true := by
  rw [← UInt32.toBitVec_inj, UInt32.toBitVec_and]
  change c.toBitVec &&& 1#32 = 1#32 ↔ _
  rw [BitVec.and_one_eq_setWidth_ofBool_getLsbD]
  cases c.toBitVec.getLsbD 0
  · exact iff_of_false (by decide) Bool.false_ne_true
  · exact iff_of_true (by decide) rfl

theorem crcBit_toBitVec (c : UInt32) : (crcBit c).toBitVec = shift polynomial c.toBitVec := by
  unfold crcBit shift
  by_cases hlow : c &&& 1 = 1
  · rw [if_pos hlow, if_pos ((and_one_eq_one_iff c).mp hlow)]
    rfl
  · rw [if_neg hlow, if_neg fun h => hlow ((and_one_eq_one_iff c).mpr h)]
    rfl

theorem crcByte_toBitVec (c : UInt32) (b : UInt8) :
    (crcByte c b).toBitVec = add polynomial c.toBitVec b := by
  have hbits : ∀ n, ∀ d : UInt32, (crcBit^[n] d).toBitVec = (shift polynomial)^[n] d.toBitVec := by
    intro n
    induction n with
    | zero => exact fun _ => rfl
    | succ n ih => exact fun d => (ih (crcBit d)).trans (by rw [crcBit_toBitVec]; rfl)
  have hbyte : b.toUInt32.toBitVec = BitVec.ofNat 32 b.toNat := by
    refine BitVec.eq_of_toNat_eq ?_
    rw [UInt32.toNat_toBitVec, UInt8.toNat_toUInt32, BitVec.toNat_ofNat,
      Nat.mod_eq_of_lt (b.toNat_lt.trans (by decide))]
  rw [crcByte, hbits, UInt32.toBitVec_xor, hbyte]
  rfl

/-- **The checksum of a text.** -/
theorem crc32_eq (t : Text) :
    (crc32 t).toBitVec = feed polynomial (BitVec.allOnes 32) (utf8 t) ^^^ BitVec.allOnes 32 := by
  have hfeed : ∀ bytes : List UInt8, ∀ c : UInt32,
      (bytes.foldl crcByte c).toBitVec = feed polynomial c.toBitVec bytes := by
    intro bytes
    induction bytes with
    | nil => exact fun _ => rfl
    | cons b bytes ih => exact fun c => (ih (crcByte c b)).trans (by rw [crcByte_toBitVec]; rfl)
  rw [crc32, UInt32.toBitVec_xor, hfeed]
  rfl

theorem crc32_inj_iff (t u : Text) :
    crc32 t = crc32 u ↔
      feed polynomial (BitVec.allOnes 32) (utf8 t) = feed polynomial (BitVec.allOnes 32) (utf8 u) := by
  rw [← UInt32.toBitVec_inj, crc32_eq, crc32_eq]
  exact BitVec.xor_left_inj _

/-! ### Bytes of texts -/

theorem utf8_append (t u : Text) : utf8 (t ++ u) = utf8 t ++ utf8 u := List.flatMap_append

/-- Different texts have different bytes. -/
theorem utf8_injective : Function.Injective utf8 := by
  intro t u h
  have hbytes : ∀ v : Text, (String.ofList v).toByteArray = (utf8 v).toByteArray := fun _ => rfl
  have hstrings : String.ofList t = String.ofList u :=
    String.toByteArray_inj.mp (by rw [hbytes, hbytes, h])
  rw [← String.toList_ofList (l := t), hstrings, String.toList_ofList]

/-! ### Clauses that are near each other -/

/-- One differs from the other in one window, of as many bytes and at most four. -/
def Near (c c' : Text) : Prop :=
  ∃ pre a b post, c = pre ++ a ++ post ∧ c' = pre ++ b ++ post ∧ a ≠ b ∧
    (utf8 a).length = (utf8 b).length ∧ (utf8 a).length ≤ 4

/-- **Near clauses have directories of their own.** -/
theorem crc32_ne_of_near {c c' : Text} (h : Near c c') : crc32 c ≠ crc32 c' := by
  obtain ⟨pre, a, b, post, rfl, rfl, hne, hlen, hfour⟩ := h
  rw [ne_eq, crc32_inj_iff, utf8_append, utf8_append, utf8_append, utf8_append,
    feed_window_iff (by decide) _ _ _ hlen (by omega)]
  exact fun heq => hne (utf8_injective heq)

/-- The part of a clause that does not depend on the collection. -/
def filterClause (q : Query) : Option Text :=
  (includeClause q.includes).bind fun includes =>
    (excludeClause q.excludes).bind fun excludes =>
      (colorClause q.colorfilter).map fun color => includes ++ excludes ++ color

/-- The clause of a request for a collection, which is named by a number. -/
theorem whereClause_of_digits {ids : List Int} {q : Query} {cid c : Text} (hne : cid ≠ [])
    (hdigits : ∀ d ∈ cid, d.isDigit = true) (h : whereClause ids { q with collectionId := some cid } = some c) :
    ∃ rest, filterClause q = some rest ∧ c = " collection_id = ".toList ++ cid ++ rest := by
  obtain ⟨first, hfirst, h⟩ := Option.bind_eq_some_iff.mp h
  obtain ⟨includes, hincludes, h⟩ := Option.bind_eq_some_iff.mp h
  obtain ⟨excludes, hexcludes, h⟩ := Option.bind_eq_some_iff.mp h
  obtain ⟨color, hcolor, rfl⟩ := Option.map_eq_some_iff.mp h
  -- digits are present, and have no quotes to double
  have hquote : '\'' ∉ cid := fun hmem => absurd (hdigits _ hmem) (by decide)
  simp only [collectionClause_eq, collectionSlot, present_digits hne hdigits,
    quoteString_of_notMem hquote] at hfirst
  obtain ⟨slot, hslot, rfl⟩ := Option.map_eq_some_iff.mp hfirst
  obtain ⟨-, hsome⟩ := Option.ite_none_right_eq_some.mp hslot
  obtain rfl := Option.some.inj hsome
  refine ⟨includes ++ excludes ++ color, ?_, ?_⟩
  · rw [filterClause, hincludes, Option.bind_some, hexcludes, Option.bind_some, hcolor]
    rfl
  · simp only [Option.elim_some, List.append_assoc]

/-- A digit is one byte. -/
theorem length_utf8_digits {cid : Text} (h : ∀ d ∈ cid, d.isDigit = true) :
    (utf8 cid).length = cid.length := by
  induction cid with
  | nil => rfl
  | cons d cid ih =>
    rw [List.forall_mem_cons] at h
    have hone : (String.utf8EncodeChar d).length = 1 := by
      have hd := h.1
      simp only [Char.isDigit, Bool.and_eq_true, decide_eq_true_eq] at hd
      rw [String.length_utf8EncodeChar, Char.utf8Size_eq_one_iff]
      exact UInt32.le_trans hd.2 (by decide)
    have hcons : utf8 (d :: cid) = String.utf8EncodeChar d ++ utf8 cid := List.flatMap_cons
    rw [hcons, List.length_append, hone, ih h.2, List.length_cons, Nat.add_comm]

/-- **The same filter on two collections**, whose ids have as many digits, and at most four. -/
theorem near_of_collections {ids : List Int} {q : Query} {cid cid' c c' : Text} (hne : cid ≠ cid')
    (hdigits : ∀ d ∈ cid, d.isDigit = true) (hdigits' : ∀ d ∈ cid', d.isDigit = true)
    (hlen : cid.length = cid'.length) (hfour : cid.length ≤ 4)
    (h : whereClause ids { q with collectionId := some cid } = some c)
    (h' : whereClause ids { q with collectionId := some cid' } = some c') : Near c c' := by
  have hnil : cid ≠ [] := by
    rintro rfl
    exact hne (List.length_eq_zero_iff.mp hlen.symm).symm
  have hnil' : cid' ≠ [] := by
    rintro rfl
    exact hne (List.length_eq_zero_iff.mp hlen)
  obtain ⟨rest, hrest, rfl⟩ := whereClause_of_digits hnil hdigits h
  obtain ⟨rest', hrest', rfl⟩ := whereClause_of_digits hnil' hdigits' h'
  obtain rfl := Option.some.inj (hrest.symm.trans hrest')
  refine ⟨_, cid, cid', rest, rfl, rfl, hne, ?_, ?_⟩
  · rw [length_utf8_digits hdigits, length_utf8_digits hdigits', hlen]
  · rw [length_utf8_digits hdigits]
    exact hfour

/-! ### Runs -/

/-- Is the map of the request kept with those of the queries? -/
def filtered (db : Database) (q : Query) : Bool := haveQuery q || (collection db q).isNone

/-- The event does not ask for the map of the clause, or for one that may share its directory: the clause
of a filtered request is near. -/
def Elsewhere (c : Text) (s : State) : Event → Prop
  | .index _ q _ => filtered s.db q = true → ∀ c',
      whereClause (s.db.collections.map fun c => (c.id : Int)) q = some c' → Near c c'
  | _ => True

variable {lower : List Char → List Char}

/-- The directory of a request: that of its clause if it is filtered. -/
theorem target_directory {db : Database} {q : Query} {t : Target} (h : target lower db q = some t) :
    ∃ c, whereClause (db.collections.map fun c => (c.id : Int)) q = some c ∧
      ((filtered db q = true ∧ t.directory = .queries (crc32 c)) ∨ ∃ id, t.directory = .collections id) := by
  rw [target] at h
  split at h
  case isFalse => exact absurd h (by simp)
  case isTrue =>
    obtain ⟨c, hc, h⟩ := Option.bind_eq_some_iff.mp h
    obtain ⟨works, -, rfl⟩ := Option.map_eq_some_iff.mp h
    refine ⟨c, hc, ?_⟩
    unfold filtered
    cases collection db q with
    | none => exact Or.inl ⟨Bool.or_true _, rfl⟩
    | some found =>
      cases haveQuery q with
      | true => exact Or.inl ⟨rfl, rfl⟩
      | false => exact Or.inr ⟨found.id, rfl⟩

/-- What is asked for elsewhere has another directory. -/
theorem ne_target_directory {c : Text} {s : State} {vis : Vis} {q : Query} {made : Bool} {t : Target}
    (helse : Elsewhere c s (.index vis q made)) (h : target lower s.db q = some t) :
    Directory.queries (crc32 c) ≠ t.directory := by
  obtain ⟨c', hc', ⟨hfiltered, hdir⟩ | ⟨id, hdir⟩⟩ := target_directory h
  · rw [hdir]
    intro heq
    exact crc32_ne_of_near (helse hfiltered c' hc') (Directory.queries.inj heq)
  · rw [hdir]
    exact Directory.noConfusion

/-- A directory that is not rewritten is left as it is. -/
theorem rewrite_files_of_ne (s : State) {d d' : Directory} (f : Folder → Folder) (h : d ≠ d') :
    (s.rewrite d' f).files d = s.files d := Function.update_of_ne h ..

/-- **One event.** -/
theorem step_files {c : Text} {s : State} {e : Event} (h : Elsewhere c s e) :
    (step lower s e).files (.queries (crc32 c)) = s.files (.queries (crc32 c)) := by
  cases e with
  | change ch => rfl
  | reconfigure id =>
    -- only the directory of a collection is deleted
    rw [ObjectMap.step]
    split
    · exact rewrite_files_of_ne s _ Directory.noConfusion
    · rfl
  | index vis q made =>
    rw [ObjectMap.step]
    split
    · rfl
    · next t ht =>
      have hne := ne_target_directory h ht
      cases vis with
      | objectmap => exact rewrite_files_of_ne s _ hne
      | geochrono => exact rewrite_files_of_ne s _ hne

/-- **The files of a clause are left alone** by every run in which all filtered requests are for clauses
that are near it: their maps are drawn in directories of their own. -/
theorem queries_untouched (lower : List Char → List Char) (c : Text) (s t : State) (es : List Event)
    (h : exec (next lower) s es = some t) (helse : Meets (next lower) (Elsewhere c) s es) :
    t.files (.queries (crc32 c)) = s.files (.queries (crc32 c)) := by
  refine exec_invariant (I := fun u => u.files (.queries (crc32 c)) = s.files (.queries (crc32 c)))
    (fun u e v hu hC hstep => ?_) rfl helse h
  rw [← Option.some.inj hstep, step_files hC, hu]

/-- Two collections, and the request for the works of one of them whose titles have a text. -/
def twoCollections : Database := ⟨[⟨12, true, false⟩, ⟨17, true, false⟩], [], [], by decide⟩

def titled (cid value : Text) : Query := ⟨some cid, ["title:".toList ++ value], [], none, none⟩

def starsOf12 : Text := " collection_id = 12 AND ( lower(parsed->'title') like '%star%' )".toList

/-- A search in collection 17 does not touch the map of the same search in collection 12. -/
theorem queries_untouched_collections :
    whereClause [12, 17] (titled "12".toList "star".toList) = some starsOf12 ∧
      ∃ t, exec (next id) ⟨twoCollections, noFiles⟩ [.index .objectmap (titled "17".toList "star".toList) true]
        = some t ∧ t.files (.queries (crc32 starsOf12)) = ⟨none, none⟩ := by
  have hclause : whereClause [12, 17] (titled "12".toList "star".toList) = some starsOf12 := by decide +kernel
  refine ⟨hclause, _, rfl, queries_untouched id starsOf12 ⟨twoCollections, noFiles⟩ _
    [.index .objectmap (titled "17".toList "star".toList) true] rfl ⟨fun _ c' hc' => ?_, fun _ _ => trivial⟩⟩
  exact @near_of_collections _ (titled [] "star".toList) "12".toList "17".toList _ _
    (by decide) (List.all_eq_true.mp rfl) (List.all_eq_true.mp rfl) rfl (by decide) hclause hc'

/-- Two searches that are not near, and share a directory. -/
example : ((whereClause [] ⟨none, ["title:hvowytx".toList], [], none, none⟩).map crc32 =
    (whereClause [] ⟨none, ["title:kxxgobg".toList], [], none, none⟩).map crc32) := by decide +kernel

end ObjectMap
end Curarium
