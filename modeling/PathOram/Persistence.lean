/-
Storing the position map and the stash in files (`storeToFile` and `loadFromFile` of both in-memory adapters), and the key
(`storeKey` and `loadKey`), for the controlled crash of the tests.

The file of the map is its array. The file of the stash has a record for each block, the ID and then the payload, in the
order in which the hash table is iterated; all records have the size that the first one gives. `loadFromFile` keeps the
size of the file in an `int`.

- `loadMap_storeMap`: an array of 64-bit numbers is loaded as it was stored.
- `remakeStash_keeps`: **a stash of payloads of one size is loaded as it was stored if its file is shorter than 2^31 bytes.**
- `remakeStash_differs`: **if the file is longer, the stash that is loaded is another one**, or loading throws.
- `loadKey_storeKey_iff`: a key is loaded as it was stored if it has the size of one.
-/
import PathOram.FileSystem

namespace PathOram

open Lib

/-! ## The position map -/

section Map

variable {capacity : ℕ}

/-- the memory of the array -/
def PositionArray.bytes (map : PositionArray capacity) : Bytes := map.toList.flatMap (leBytes 8)

/-- `InMemoryPositionMapAdapter::storeToFile`, which returns the contents of the file -/
def storeMap : Run (PositionArray capacity) Bytes := do return (← Prog.read).bytes

/-- `InMemoryPositionMapAdapter::loadFromFile`: the file is read over the memory of the array -/
def loadMap (file : Bytes) : Run (PositionArray capacity) Unit :=
  Prog.modify fun map => Vector.ofFn fun i => leNumber (slice (patch map.bytes 0 file) (i * 8) 8)

theorem PositionArray.length_bytes (map : PositionArray capacity) : map.bytes.length = capacity * 8 := by
  have hlen : ∀ c ∈ map.toList.map (leBytes 8), c.length = 8 := by
    intro c hc
    obtain ⟨leaf, -, rfl⟩ := List.mem_map.1 hc
    exact length_leBytes 8 leaf
  rw [bytes, List.flatMap_def, length_flatten hlen]
  simp

/-- the map is stored, and loaded into a new one -/
def remakeMap (fresh : PositionArray capacity) : Run (PositionArray capacity) Unit := do
  let file ← storeMap
  Prog.modify fun _ => fresh
  loadMap file

/-- **The map round trip.** Whatever was in the memory of the new array, it is the array that was stored. -/
theorem loadMap_storeMap {map : PositionArray capacity} (h : ∀ leaf ∈ map, leaf < 2 ^ 64) (w : World)
    (fresh : PositionArray capacity) : (loadMap map.bytes).exec w fresh = (.ok (), w, map) := by
  have hmemory : patch fresh.bytes 0 map.bytes = map.bytes := patch_zero (by
    rw [PositionArray.length_bytes, PositionArray.length_bytes])
  have hentry : ∀ i (hi : i < capacity), leNumber (slice map.bytes (i * 8) 8) = map[i] := by
    intro i hi
    have hslice : slice map.bytes (i * 8) 8 = leBytes 8 (map.toList.get ⟨i, by simpa using hi⟩) :=
      slice_flatMap (fun leaf _ => length_leBytes 8 leaf) _
    rw [hslice, leNumber_leBytes, List.get_eq_getElem, Vector.getElem_toList]
    exact Nat.mod_eq_of_lt (h _ (Vector.getElem_mem hi))
  refine Prod.ext rfl (Prod.ext rfl (Vector.ext fun i hi => ?_))
  change (Vector.ofFn fun i : Fin capacity => leNumber (slice (patch fresh.bytes 0 map.bytes) (i * 8) 8))[i] = map[i]
  rw [Vector.getElem_ofFn, hmemory]
  exact hentry i hi

theorem remakeMap_exec {map : PositionArray capacity} (h : ∀ leaf ∈ map, leaf < 2 ^ 64) (w : World)
    (fresh : PositionArray capacity) : (remakeMap fresh).exec w map = (.ok (), w, map) := loadMap_storeMap h w fresh

end Map

/-! ## The stash -/

/-- memory that was not written, of any size -/
abbrev Memory := (n : ℕ) → Buffer n

/-- copy the records into an array of records of one size, from the i-th on -/
def copyRecords (recordSize : ℕ) : ℕ → List Block → Bytes → Except Exception Bytes
  | _, [], buffer => .ok buffer
  | i, record :: rest, buffer =>
    if buffer.length < recordSize * i + 8 + record.2.length then .error .writePastEnd
    else copyRecords recordSize (i + 1) rest
      (patch (patch buffer (recordSize * i) (leBytes 8 record.1)) (recordSize * i + 8) record.2)

/-- the file of a stash that is iterated in a given order -/
def stashFile (memory : Memory) : List Block → Except Exception Bytes
  | [] => .ok []
  | first :: rest =>
    let blockSize := first.2.length
    let recordSize := 8 + blockSize
    copyRecords recordSize 0 (first :: rest) (memory ((rest.length + 1) * recordSize)).1

/-- `InMemoryStashAdapter::storeToFile`, which returns the contents of the file. The array of the records is not
initialised, and has the size that the first payload gives it; it lies on the stack, which is taken to have room for it. -/
def storeStash (memory : Memory) : Run Stash Bytes := do
  let stash ← Prog.read
  let records ← iterate stash.toList
  Prog.ofExcept (stashFile memory records)

/-- the body of the loop of `loadFromFile`, at an offset of the array that the file was read into -/
def loadRecord (buffer : Bytes) (blockSize : ℤ) (i : ℕ) : Run Stash Unit :=
  if buffer.length < i + 8 then throw .readPastEnd
  else if blockSize < 0 then throw .lengthError
  else if buffer.length < i + 8 + blockSize.toNat then throw .readPastEnd
  else Prog.modify fun stash => stash.emplace (leNumber (slice buffer i 8)) (slice buffer (i + 8) blockSize.toNat)

/-- `InMemoryStashAdapter::loadFromFile`. The size of the file is an `int`, and so is the size of a payload; the offset
is one, too, and stays below the size of the file as long as no record reaches past it. The stack is taken to have room for
the array of the file. -/
def loadStash (file : Bytes) (blockSize : ℤ) : Run Stash Unit := do
  let size := toInt file.length
  if 0 < size then do
    let buffer := file.take size.toNat
    let recordSize := 8 + blockSize.toNat
    (List.range ((size.toNat + recordSize - 1) / recordSize)).forM fun i => loadRecord buffer blockSize (i * recordSize)
  else pure ()

/-- the stash is stored, and loaded into a new one -/
def remakeStash (memory : Memory) (blockSize : ℤ) : Run Stash Unit := do
  let file ← storeStash memory
  Prog.modify fun _ => ∅
  loadStash file blockSize

/-! ## The file of a stash -/

section Stash

/-- one record of the file -/
def recordBytes (record : Block) : Bytes := leBytes 8 record.1 ++ record.2

/-- records one after the other -/
def fileBytes (records : List Block) : Bytes := records.flatMap recordBytes

variable {blockSize : ℕ} {records : List Block}

theorem length_recordBytes {record : Block} (h : record.2.length = blockSize) :
    (recordBytes record).length = 8 + blockSize := by
  rw [recordBytes, List.length_append, length_leBytes, h]

/-- records of one size fill the array -/
theorem copyRecords_eq (h : ∀ record ∈ records, record.2.length = blockSize) {i : ℕ} {front back : Bytes}
    (hfront : (8 + blockSize) * i = front.length) (hback : back.length = records.length * (8 + blockSize)) :
    copyRecords (8 + blockSize) i records (front ++ back) = .ok (front ++ fileBytes records) := by
  induction records generalizing i front back with
  | nil =>
    have hnil : back = [] := List.eq_nil_of_length_eq_zero (by simpa using hback)
    rw [copyRecords, hnil]
    rfl
  | cons record rest ih =>
    have hsize := h record List.mem_cons_self
    rw [List.length_cons, Nat.succ_mul] at hback
    have hid : patch (front ++ back) ((8 + blockSize) * i) (leBytes 8 record.1) =
        (front ++ leBytes 8 record.1) ++ back.drop 8 := by
      rw [patch_append hfront (by rw [length_leBytes]; omega), length_leBytes, List.append_assoc]
    have hdata : patch ((front ++ leBytes 8 record.1) ++ back.drop 8) ((8 + blockSize) * i + 8) record.2 =
        (front ++ recordBytes record) ++ back.drop (8 + blockSize) := by
      rw [patch_append (by rw [List.length_append, length_leBytes, hfront]) (by rw [hsize, List.length_drop]; omega),
        List.drop_drop, hsize, recordBytes]
      simp only [List.append_assoc]
    have hfits : ¬ (front ++ back).length < (8 + blockSize) * i + 8 + record.2.length := by
      rw [List.length_append, hback, hsize]
      omega
    rw [copyRecords, if_neg hfits, hid, hdata, ih (fun r hr => h r (List.mem_cons_of_mem _ hr)) ?_ ?_,
      List.append_assoc]
    · rfl
    · rw [List.length_append, length_recordBytes hsize, ← hfront, Nat.mul_succ]
    · rw [List.length_drop]
      omega

/-- **The file of a stash** of payloads of one size, whatever was in the memory of the array -/
theorem stashFile_eq (memory : Memory) (h : ∀ record ∈ records, record.2.length = blockSize) :
    stashFile memory records = .ok (fileBytes records) := by
  cases records with
  | nil => rfl
  | cons first rest =>
    have hsize := h first List.mem_cons_self
    have hlen := (memory ((rest.length + 1) * (8 + blockSize))).2
    have hcopy := copyRecords_eq h (show (8 + blockSize) * 0 = ([] : Bytes).length from rfl) hlen
    rw [stashFile, hsize]
    exact hcopy

theorem length_fileBytes (h : ∀ record ∈ records, record.2.length = blockSize) :
    (fileBytes records).length = records.length * (8 + blockSize) := by
  have hlen : ∀ c ∈ records.map recordBytes, c.length = 8 + blockSize := by
    intro c hc
    obtain ⟨record, hr, rfl⟩ := List.mem_map.1 hc
    exact length_recordBytes (h record hr)
  rw [fileBytes, List.flatMap_def, length_flatten hlen, List.length_map]

/-- the records are found at their offsets -/
theorem slice_fileBytes (h : ∀ record ∈ records, record.2.length = blockSize) {i : ℕ} (hi : i < records.length) :
    slice (fileBytes records) (i * (8 + blockSize)) 8 = leBytes 8 records[i].1 ∧
      slice (fileBytes records) (i * (8 + blockSize) + 8) blockSize = records[i].2 := by
  have hsize := h _ (List.getElem_mem hi)
  have hrecord : slice (fileBytes records) (i * (8 + blockSize)) (8 + blockSize) = recordBytes records[i] :=
    slice_flatMap (fun record hr => length_recordBytes (h record hr)) hi
  constructor
  · rw [← Nat.add_zero (i * (8 + blockSize)), ← slice_slice (show 0 + 8 ≤ 8 + blockSize by omega), hrecord, slice,
      List.drop_zero, recordBytes, List.take_left' (length_leBytes 8 _)]
  · rw [← slice_slice (show 8 + blockSize ≤ 8 + blockSize from le_rfl), hrecord, slice, recordBytes,
      List.drop_left' (length_leBytes 8 _), List.take_of_length_le hsize.le]

/-- **The stash round trip.** If the file is shorter than 2^31 bytes, an empty stash is loaded with its records. -/
theorem loadStash_triple (h : ∀ record ∈ records, record.2.length = blockSize)
    (hids : ∀ record ∈ records, record.1 < 2 ^ 64) (hnodup : (records.map Prod.fst).Nodup)
    (hsmall : records.length * (8 + blockSize) < 2 ^ 31) :
    Triple (fun stash => stash = ∅) (loadStash (fileBytes records) (toInt blockSize))
      (fun _ stash => ∀ k d, stash.lookup k = some d ↔ (k, d) ∈ records) (fun _ _ => False) := by
  have hlen := length_fileBytes h
  have hsize : toInt (fileBytes records).length = (records.length * (8 + blockSize) : ℕ) := by
    rw [hlen]
    exact toInt_of_lt hsmall
  unfold loadStash
  rw [hsize]
  refine Triple.ite (fun hpos => ?_) fun hzero => Triple.pure ?_
  · have hcount : 0 < records.length := Nat.pos_of_ne_zero fun hzero => by simp [hzero] at hpos
    have hblock : toInt blockSize = blockSize := toInt_of_lt (by
      have := Nat.le_mul_of_pos_left (8 + blockSize) hcount
      omega)
    have hrounds : (records.length * (8 + blockSize) + (8 + blockSize) - 1) / (8 + blockSize) = records.length := by
      rw [Nat.add_sub_assoc (by omega), Nat.mul_comm, Nat.mul_add_div (by omega), Nat.div_eq_of_lt (by omega), Nat.add_zero]
    dsimp only
    rw [hblock, Int.toNat_natCast, Int.toNat_natCast, hrounds, List.take_of_length_le hlen.le]
    refine ((Triple.forM (fun rest stash => ∃ done, done ++ rest = List.range records.length ∧
      ∀ k d, stash.lookup k = some d ↔ ∃ i ∈ done, records[i]? = some (k, d)) ?_).pre ?_).post ?_
    · intro i rest _ w stash hI
      obtain ⟨done, hdone, hstash⟩ := hI
      have hi : i < records.length := List.mem_range.1 (hdone ▸ by simp)
      have hnotin : i ∉ done := by
        have hn : (done ++ i :: rest).Nodup := hdone ▸ List.nodup_range
        exact fun hm => (List.nodup_append'.1 hn).2.2 hm List.mem_cons_self
      obtain ⟨hid, hdata⟩ := slice_fileBytes h hi
      have hend : i * (8 + blockSize) + (8 + blockSize) ≤ records.length * (8 + blockSize) :=
        (Nat.succ_mul i _).symm.trans_le (Nat.mul_le_mul_right _ hi)
      have hnumber : leNumber (slice (fileBytes records) (i * (8 + blockSize)) 8) = records[i].1 := by
        rw [hid, leNumber_leBytes]
        exact Nat.mod_eq_of_lt (hids _ (List.getElem_mem hi))
      rw [loadRecord, if_neg (by omega), if_neg (by omega), if_neg (by rw [Int.toNat_natCast]; omega), Int.toNat_natCast,
        hnumber, hdata]
      refine ⟨done ++ [i], by simpa using hdone, fun k d => ?_⟩
      -- the ID is a new one
      have hnew : records[i].1 ∉ stash := by
        intro hm
        obtain ⟨d', hd'⟩ := UnorderedMap.mem_iff_lookup.1 hm
        obtain ⟨j, hj, hget⟩ := (hstash _ _).1 hd'
        obtain ⟨hjlt, hget⟩ := List.getElem?_eq_some_iff.1 hget
        have hsame : (records.map Prod.fst).get ⟨j, by simpa using hjlt⟩ =
            (records.map Prod.fst).get ⟨i, by simpa using hi⟩ := by
          rw [List.get_eq_getElem, List.get_eq_getElem, List.getElem_map, List.getElem_map, hget]
        have hji : j = i := congrArg Fin.val (hnodup.injective_get hsame)
        exact hnotin (hji ▸ hj)
      change (UnorderedMap.emplace stash records[i].1 records[i].2).lookup k = some d ↔ _
      rw [UnorderedMap.lookup_emplace]
      by_cases hk : k = records[i].1
      · subst hk
        rw [if_pos ⟨rfl, hnew⟩]
        constructor
        · intro hd
          cases hd
          exact ⟨i, by simp, List.getElem?_eq_getElem hi⟩
        · rintro ⟨j, hj, hget⟩
          rcases List.mem_append.1 hj with hj | hj
          · exact absurd (UnorderedMap.mem_iff_lookup.2 ⟨d, (hstash _ _).2 ⟨j, hj, hget⟩⟩) hnew
          · rw [List.mem_singleton.1 hj, List.getElem?_eq_getElem hi] at hget
            rw [Option.some.inj hget]
      · rw [if_neg fun hc => hk hc.1, hstash]
        constructor
        · rintro ⟨j, hj, hget⟩
          exact ⟨j, List.mem_append_left _ hj, hget⟩
        · rintro ⟨j, hj, hget⟩
          rcases List.mem_append.1 hj with hj | hj
          · exact ⟨j, hj, hget⟩
          · rw [List.mem_singleton.1 hj, List.getElem?_eq_getElem hi] at hget
            exact absurd (congrArg Prod.fst (Option.some.inj hget)).symm hk
    · rintro stash rfl
      exact ⟨[], rfl, by simp⟩
    · rintro _ stash ⟨done, hdone, hstash⟩ k d
      rw [List.append_nil] at hdone
      rw [hstash, hdone]
      constructor
      · rintro ⟨i, -, hget⟩
        exact List.mem_of_getElem? hget
      · intro hm
        obtain ⟨i, hi, hget⟩ := List.mem_iff_getElem.1 hm
        exact ⟨i, List.mem_range.2 hi, List.getElem?_eq_some_iff.2 ⟨hi, hget⟩⟩
  · rintro stash rfl k d
    have hnil : records = [] := by
      by_contra hne
      have := Nat.mul_pos (List.length_pos_of_ne_nil hne) (show 0 < 8 + blockSize by omega)
      omega
    simp [hnil]

/-- what a round of the loop can do to the stash: it grows by one record at most, of the size that was asked for -/
theorem loadRecord_triple (buffer : Bytes) (size : ℤ) (i n : ℕ) :
    Triple (fun stash : Stash => stash.size ≤ n ∧ ∀ k d, stash.lookup k = some d → d.length = size.toNat)
      (loadRecord buffer size i)
      (fun _ stash => 0 ≤ size ∧ stash.size ≤ n + 1 ∧ ∀ k d, stash.lookup k = some d → d.length = size.toNat)
      (fun _ _ => True) := by
  unfold loadRecord
  apply Triple.ite (fun _ => Triple.throw fun _ _ => trivial)
  intro _
  apply Triple.ite (fun _ => Triple.throw fun _ _ => trivial)
  intro hsize
  apply Triple.ite (fun _ => Triple.throw fun _ _ => trivial)
  intro hend
  refine Triple.modify fun stash hs => ⟨not_lt.1 hsize, ?_, fun k d hd => ?_⟩
  · exact (UnorderedMap.size_emplace_le _ _ _).trans (Nat.succ_le_succ hs.1)
  · rw [UnorderedMap.lookup_emplace] at hd
    split_ifs at hd
    · cases hd
      exact length_slice (not_lt.1 hend)
    · exact hs.2 k d hd

/-- **A file that is too long.** If it has 2^31 bytes or more, loading it throws or leaves out a record. -/
theorem loadStash_differs (h : ∀ record ∈ records, record.2.length = blockSize)
    (hnodup : (records.map Prod.fst).Nodup) (hlarge : 2 ^ 31 ≤ records.length * (8 + blockSize)) :
    Triple (fun stash => stash = ∅) (loadStash (fileBytes records) (toInt blockSize))
      (fun _ stash => ∃ record ∈ records, stash.lookup record.1 ≠ some record.2) (fun _ _ => True) := by
  have hcount : 0 < records.length := by
    apply Nat.pos_of_ne_zero
    intro hzero
    rw [hzero, Nat.zero_mul] at hlarge
    norm_num at hlarge
  -- the size that `loadFromFile` sees
  have hless : toInt (fileBytes records).length + 2 ^ 32 ≤ (records.length * (8 + blockSize) : ℕ) := by
    rw [length_fileBytes h]
    exact toInt_le hlarge
  unfold loadStash
  dsimp only
  generalize toInt (fileBytes records).length = size at hless
  refine Triple.ite (fun hpos => ?_) fun _ => Triple.pure ?_
  · set recordSize := 8 + (toInt blockSize).toNat with hrecord
    set rounds := (size.toNat + recordSize - 1) / recordSize with hrounds
    have hround : 0 < rounds := Nat.div_pos (by omega) (by omega)
    refine ((Triple.forM (fun rest stash => (rest.length < rounds → 0 ≤ toInt blockSize) ∧
      stash.size ≤ rounds - rest.length ∧ ∀ k d, stash.lookup k = some d → d.length = (toInt blockSize).toNat)
      ?_).pre ?_).post ?_
    · intro i rest hsuffix
      have hlen : rest.length < rounds := by
        have := hsuffix.length_le
        rwa [List.length_cons, List.length_range] at this
      refine (loadRecord_triple _ (toInt blockSize) (i * recordSize) (rounds - (rest.length + 1))).conseq
        (fun stash hs => hs.2) (fun _ stash hs => ⟨fun _ => hs.1, hs.2.1.trans (by omega), hs.2.2⟩) fun _ _ _ => trivial
    · rintro stash rfl
      simp
    · rintro _ stash ⟨hsigned, hcard, hlengths⟩
      have hnonneg := hsigned hround
      by_contra hall
      push Not at hall
      -- a loaded payload has the right size, so the size of a payload is no different from the `int`
      have hsame : (toInt blockSize).toNat = blockSize := by
        have hfirst := hall _ (List.getElem_mem hcount)
        rw [← hlengths _ _ hfirst, h _ (List.getElem_mem hcount)]
      have hblock : blockSize < 2 ^ 31 := by
        by_contra hbig
        have := toInt_le (not_lt.1 hbig)
        omega
      -- all records are there, but there were fewer rounds than records
      have hkeys : records.length ≤ stash.size := by
        have hle := UnorderedMap.length_le_size (m := stash) hnodup fun k hk => by
          obtain ⟨record, hr, rfl⟩ := List.mem_map.1 hk
          exact UnorderedMap.mem_iff_lookup.2 ⟨_, hall record hr⟩
        rwa [List.length_map] at hle
      have hfew : rounds < records.length := by
        rw [hrounds, Nat.div_lt_iff_lt_mul (by omega), hrecord, hsame]
        omega
      have hall' : stash.size ≤ rounds := hcard
      omega
  · rintro stash rfl
    exact ⟨records[0], List.getElem_mem hcount, by simp⟩

/-- a record that is longer than the file is read past the end -/
theorem loadRecord_short {buffer : Bytes} {blockSize : ℤ} (h : (buffer.length : ℤ) < 8 + blockSize) (i : ℕ)
    {P Q : Stash → Prop} : Triple P (loadRecord buffer blockSize i) (fun _ => Q) (fun _ _ => True) := by
  unfold loadRecord
  apply Triple.ite (fun _ => Triple.throw fun _ _ => trivial)
  intro _
  apply Triple.ite (fun _ => Triple.throw fun _ _ => trivial)
  intro hsigned
  exact Triple.ite (fun _ => Triple.throw fun _ _ => trivial) fun hend => absurd hend (by omega)

/-- **A file whose size comes out too small.** If the `int` is less than one record, nothing is loaded, or the first record
is read past the end. -/
theorem loadStash_short {file : Bytes} {blockSize : ℤ} (h : toInt file.length < 8 + blockSize) :
    Triple (fun stash => stash = ∅) (loadStash file blockSize) (fun _ stash => stash = ∅) (fun _ _ => True) := by
  unfold loadStash
  dsimp only
  generalize toInt file.length = size at h
  refine Triple.ite (fun hpos => ?_) fun _ => Triple.pure fun _ hstash => hstash
  have hlen : (file.take size.toNat).length ≤ size.toNat := List.length_take_le _ _
  -- no round returns
  exact (Triple.forM (fun _ stash => stash = ∅) fun i _ _ => loadRecord_short (by omega) _).post fun _ _ hstash => hstash

-- programs are compared without computing what a conversion gives
attribute [local irreducible] toInt

section

variable {stash : Stash} (hfull : ∀ k d, stash.lookup k = some d → k < 2 ^ 64 ∧ d.length = blockSize) (memory : Memory)

include hfull

/-- the records of a stash of payloads of one size -/
theorem records_of_perm {records : List Block} (hperm : records.Perm stash.toList) :
    (∀ record ∈ records, stash.lookup record.1 = some record.2 ∧ record.1 < 2 ^ 64 ∧ record.2.length = blockSize) ∧
      (records.map Prod.fst).Nodup ∧ records.length = stash.size := by
  refine ⟨fun record hr => ?_, ((hperm.map Prod.fst).nodup_iff).2 stash.nodup_keys, ?_⟩
  · have hlookup := UnorderedMap.mem_toList.1 (hperm.mem_iff.1 hr)
    exact ⟨hlookup, hfull _ _ hlookup⟩
  · rw [hperm.length_eq, UnorderedMap.length_toList]

/-- the crash of a stash is a way through its file, in some order of the records -/
theorem remakeStash_triple (size : ℤ) {Q : Stash → Prop} {E : Exception → Prop}
    (h : ∀ records, records.Perm stash.toList → Triple (fun st => st = ∅) (loadStash (fileBytes records) size)
      (fun _ => Q) (fun e _ => E e)) :
    Triple (fun st => st = stash) (remakeStash memory size) (fun _ => Q) (fun e _ => E e) := by
  have hstore : Triple (fun st => st = stash) (storeStash memory)
      (fun file _ => ∃ records, records.Perm stash.toList ∧ file = fileBytes records) (fun e _ => E e) := by
    unfold storeStash
    apply Triple.bind (Q := fun st _ => st = stash) (Triple.read fun st hst => hst)
    intro st
    refine Triple.bind (Q := fun records _ => records.Perm stash.toList)
      ((iterate_triple (P := fun _ => st = stash) _).post fun records _ hr => hr.2 ▸ hr.1) fun records => ?_
    intro w st hperm
    obtain ⟨hrecords, -⟩ := records_of_perm hfull hperm
    rw [stashFile_eq memory fun r hr => (hrecords r hr).2.2]
    exact ⟨records, hperm, rfl⟩
  unfold remakeStash
  refine hstore.bind fun file =>
    Triple.bind (Q := fun _ st => (∃ records, records.Perm stash.toList ∧ file = fileBytes records) ∧ st = ∅)
      (Triple.modify fun _ hfile => ⟨hfile, rfl⟩) fun _ => Triple.of_pure fun hfile => ?_
  obtain ⟨records, hperm, rfl⟩ := hfile
  exact h records hperm

/-- **A stash whose file is shorter than 2^31 bytes survives.** -/
theorem remakeStash_keeps (hsmall : stash.size * (8 + blockSize) < 2 ^ 31) :
    Triple (fun st => st = stash) (remakeStash memory (toInt blockSize)) (fun _ st => ∀ k, stash.lookup k = st.lookup k)
      (fun _ _ => False) := by
  apply remakeStash_triple hfull memory (E := fun _ => False) _
  intro records hperm
  obtain ⟨hrecords, hnodup, hlen⟩ := records_of_perm hfull hperm
  refine (loadStash_triple (fun r hr => (hrecords r hr).2.2) (fun r hr => (hrecords r hr).2.1) hnodup
    (by rwa [hlen])).post fun _ st h k => Option.ext fun d => ?_
  rw [h k d, hperm.mem_iff, UnorderedMap.mem_toList]

/-- **Any other does not**: it is another stash that is loaded, if loading returns. -/
theorem remakeStash_differs (hlarge : 2 ^ 31 ≤ stash.size * (8 + blockSize)) :
    Triple (fun st => st = stash) (remakeStash memory (toInt blockSize)) (fun _ st => ¬ ∀ k, stash.lookup k = st.lookup k)
      (fun _ _ => True) := by
  apply remakeStash_triple hfull memory (E := fun _ => True) _
  intro records hperm
  obtain ⟨hrecords, hnodup, hlen⟩ := records_of_perm hfull hperm
  apply (loadStash_differs (fun r hr => (hrecords r hr).2.2) hnodup (by rwa [hlen])).post
  intro _ st h hsame
  obtain ⟨record, hr, hne⟩ := h
  exact hne ((hsame record.1).symm.trans (hrecords record hr).1)

/-- A stash is lost, or loading throws, if the size of its file comes out as less than one record. -/
theorem remakeStash_loses (hshort : toInt (stash.size * (8 + blockSize)) < 8 + toInt blockSize) :
    Triple (fun st => st = stash) (remakeStash memory (toInt blockSize)) (fun _ st => st = ∅) (fun _ _ => True) := by
  refine remakeStash_triple hfull memory (E := fun _ => True) _ fun records hperm => loadStash_short ?_
  obtain ⟨hrecords, -, hlen⟩ := records_of_perm hfull hperm
  rwa [length_fileBytes fun r hr => (hrecords r hr).2.2, hlen]

end

end Stash

/-! ## The key -/

/-- `storeKey`, which returns the contents of the file. The key is copied into an array of its size. -/
def storeKey (memory : Memory) (key : Bytes) : Except Exception Bytes :=
  if keySize < key.length then .error .writePastEnd
  else .ok (patch (memory keySize).1 0 key)

/-- `loadKey`: a file that is too short leaves the end of the array as it was -/
def loadKey (memory : Memory) (file : Bytes) : Bytes := patch (memory keySize).1 0 (file.take keySize)

/-- **A key is loaded as it was stored**, whatever the two arrays held, if and only if it is a key of AES. -/
theorem loadKey_storeKey_iff {key : Bytes} :
    (∀ memory memory', (storeKey memory key).map (loadKey memory') = .ok key) ↔ key.length = keySize := by
  constructor
  · intro h
    have hzeros := h (fun n => ⟨List.replicate n 0, List.length_replicate⟩) fun n => ⟨List.replicate n 0, List.length_replicate⟩
    rw [storeKey] at hzeros
    split_ifs at hzeros
    · cases hzeros
    · rw [← Except.ok.inj hzeros, loadKey, length_patch, List.length_replicate]
  · intro h memory memory'
    have hlength : ∀ m : Memory, key.length = (m keySize).1.length := fun m => h.trans (m keySize).2.symm
    rw [storeKey, if_neg (by omega), patch_zero (hlength memory), Except.map, loadKey,
      List.take_of_length_le h.le, patch_zero (hlength memory')]

end PathOram
