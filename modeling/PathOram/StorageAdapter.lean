/-
The storage adapter (`storage-adapter.cpp`): `AbsStorageAdapter` over a storage provider, and the in-memory provider.

A bucket is stored as an IV followed by the encryption of its Z records, each an ID of 8 bytes padded to 16 and a
payload padded to `userBlockSize`. `get` and `set` check their arguments, split long lists into batches, and report
what they did to a subscriber. A provider is the table of virtual methods (`Backend`); a batch method it does not
override runs through the single ones.

Besides the fields of the class the state keeps `calls`, the arguments of the calls that passed their checks: it is
what the server sees, and no method reads it.
-/
import PathOram.Utility

namespace PathOram

open Lib

/-- the constant fields of `AbsStorageAdapter`, as its constructor lets them through -/
structure AbsStorageAdapter where
  key : Bytes
  Z : ℕ
  batchLimit : ℕ
  capacity : ℕ
  userBlockSize : ℕ
  key_length : key.length = keySize
  two_blocks : 2 * aesBlockSize ≤ userBlockSize
  whole_blocks : userBlockSize % aesBlockSize = 0
  Z_ne_zero : Z ≠ 0

/-- size of a stored bucket: IV + Z * (ID + PAYLOAD) -/
def AbsStorageAdapter.blockSize (A : AbsStorageAdapter) : ℕ := (A.userBlockSize + aesBlockSize) * A.Z + aesBlockSize

/-- the constructor of `AbsStorageAdapter` -/
def AbsStorageAdapter.construct {σ : Type} (capacity userBlockSize : ℕ) (key : Bytes) (Z batchLimit : ℕ) :
    Run σ AbsStorageAdapter := do
  let key : {b : Bytes // b.length = keySize} ←
    if h : key.length = keySize then pure ⟨key, h⟩ else getRandomBlock keySize
  if h2 : userBlockSize < 2 * aesBlockSize then throw (.blockTooSmall userBlockSize)
  else if hm : userBlockSize % aesBlockSize ≠ 0 then throw (.blockNotMultiple userBlockSize)
  else if hZ : Z = 0 then throw (.zeroZ Z)
  else return ⟨key.1, Z, batchLimit, capacity, userBlockSize, key.2, not_lt.1 h2, not_not.1 hm, hZ⟩

/-- the virtual methods of a storage provider with state β -/
structure Backend (β : Type) where
  getInternal : ℕ → Run β Bytes
  setInternal : ℕ → Bytes → Run β Unit
  /-- the batch methods, where the provider overrides them; a batch read extends the response it is given -/
  getInternalBatch : Option (List ℕ → List Bytes → Run β (List Bytes))
  setInternalBatch : Option (List (ℕ × Bytes) → Run β Unit)
  supportsBatchGet : Bool
  supportsBatchSet : Bool

/-- what is passed to a subscriber, less the time -/
structure StorageEvent where
  read : Bool
  batch : ℕ
  size : ℕ
deriving DecidableEq, Repr

/-- a call of `get` or `set` that passed its checks; a `set` with the bytes it sends -/
inductive StorageCall where
  | get (locations : List ℕ)
  | set (writes : List (ℕ × Bytes))
deriving DecidableEq, Repr

structure StorageState (β : Type) where
  backend : β
  subscribed : Bool
  events : List StorageEvent
  calls : List StorageCall

def StorageState.backendLens (β : Type) : Lens (StorageState β) β where
  get s := s.backend
  set b s := { s with backend := b }
  get_set _ _ := rfl
  set_get _ := rfl
  set_set _ _ _ := rfl

structure StorageAdapter (β : Type) extends AbsStorageAdapter where
  crypto : Crypto
  backend : Backend β

namespace StorageAdapter

variable {β : Type} (S : StorageAdapter β)

def checkCapacity (location : ℕ) : Run (StorageState β) Unit :=
  if S.capacity ≤ location then throw (.idOutOfBound location S.capacity) else pure ()

def checkBlockSize (dataLength : ℕ) : Run (StorageState β) Unit :=
  if S.userBlockSize < dataLength then throw (.dataTooLong dataLength S.userBlockSize) else pure ()

/-- emit an event if there is a subscriber and the condition of `RECORD_AND_EXECUTE` lets it -/
def emit (supported : Bool) (event : StorageEvent) : Run (StorageState β) Unit :=
  Prog.modify fun s => if s.subscribed && supported then { s with events := s.events ++ [event] } else s

def logCall (call : StorageCall) : Run (StorageState β) Unit :=
  Prog.modify fun s => { s with calls := s.calls ++ [call] }

/-- the size of a batch, accumulated in an `int` -/
def sumSizes (raws : List Bytes) : ℕ := ofInt (raws.foldl (fun size raw => (size + raw.length).bmod (2 ^ 32)) 0)

def getAndRecord (location : ℕ) : Run (StorageState β) Bytes := do
  let raw ← Prog.zoom (StorageState.backendLens β) (S.backend.getInternal location)
  emit true ⟨true, 1, raw.length⟩
  return raw

def setAndRecord (location : ℕ) (raw : Bytes) : Run (StorageState β) Unit := do
  Prog.zoom (StorageState.backendLens β) (S.backend.setInternal location raw)
  emit true ⟨false, 1, raw.length⟩

/-- the loop of the default of `getInternal` on a batch, from an index on, with a fuel: it fills the tail of the response.
The index is an `unsigned int`, which starts again at zero where there are 2^32 locations or more. -/
def getInternalLoop (locations : List ℕ) : ℕ → ℕ → List Bytes → Run (StorageState β) (List Bytes)
  | 0, _, _ => throw .diverges
  | fuel + 1, i, response =>
    if i < locations.length then do
      let raw ← S.getAndRecord (locations.getD i 0)
      getInternalLoop locations fuel ((i + 1) % 2 ^ 32) (response.set (response.length - locations.length + i) raw)
    else return response

/-- `getInternal` on a batch, with the default that a provider may override -/
def getInternalBatch (locations : List ℕ) (response : List Bytes) : Run (StorageState β) (List Bytes) :=
  match S.backend.getInternalBatch with
  | some get => Prog.zoom (StorageState.backendLens β) (get locations response)
  | none =>
    S.getInternalLoop locations (locations.length + 1) 0 (response ++ List.replicate locations.length [])

def setInternalBatch (requests : List (ℕ × Bytes)) : Run (StorageState β) Unit :=
  match S.backend.setInternalBatch with
  | some set => Prog.zoom (StorageState.backendLens β) (set requests)
  | none => requests.forM fun request => S.setAndRecord request.1 request.2

def getAndRecordBatch (locations : List ℕ) (response : List Bytes) : Run (StorageState β) (List Bytes) := do
  let response ← S.getInternalBatch locations response
  -- the buffers of this batch are at the end of the response
  let raws := response.drop (response.length - locations.length)
  emit S.backend.supportsBatchGet ⟨true, locations.length, sumSizes raws⟩
  return response

def setAndRecordBatch (requests : List (ℕ × Bytes)) : Run (StorageState β) Unit := do
  S.setInternalBatch requests
  emit S.backend.supportsBatchSet ⟨false, requests.length, sumSizes (requests.map Prod.snd)⟩

/-- the loop over batches of `batchLimit` elements, from a position on, with the response so far -/
def getSlices (locations : List ℕ) (pointer : ℕ) (response : List Bytes) : Run (StorageState β) (List Bytes) :=
  if pointer < locations.length ∧ 0 < S.batchLimit then do
    let response ← S.getAndRecordBatch ((locations.drop pointer).take S.batchLimit) response
    getSlices locations (pointer + S.batchLimit) response
  else return response
termination_by locations.length - pointer

def setSlices (writes : List (ℕ × Bytes)) (pointer : ℕ) : Run (StorageState β) Unit :=
  if pointer < writes.length ∧ 0 < S.batchLimit then do
    S.setAndRecordBatch ((writes.drop pointer).take S.batchLimit)
    setSlices writes (pointer + S.batchLimit)
  else pure ()
termination_by writes.length - pointer

/-- split a raw bucket into IV and ciphertext, decrypt, and cut the result into Z records -/
def decodeBucket (raw : Bytes) : Except Exception Bucket := do
  let decrypted ← encrypt S.crypto S.key (raw.take aesBlockSize) (raw.drop aesBlockSize) [] .decrypt
  let length := decrypted.length / S.Z
  return (List.range S.Z).map fun i =>
    (leNumber ((decrypted.drop (i * length)).take 8),
      (decrypted.drop (i * length + aesBlockSize)).take (length - aesBlockSize))

/-- the three ways of `get`: a single item, one batch, or batches of at most `batchLimit` -/
def download : List ℕ → Run (StorageState β) (List Bytes)
  | [location] => do
    let raw ← S.getAndRecord location
    return [raw]
  | locations =>
    if S.batchLimit = 0 ∨ locations.length ≤ S.batchLimit then S.getAndRecordBatch locations []
    else S.getSlices locations 0 []

/-- `AbsStorageAdapter::get` -/
def get (locations : List ℕ) : Run (StorageState β) (List Block) := do
  locations.forM S.checkCapacity
  logCall (.get locations)
  let raws ← S.download locations
  let buckets ← Prog.ofExcept (raws.mapM S.decodeBucket)
  return buckets.flatten

/-- one record: the ID in 16 bytes and the payload, padded if necessary -/
def encodeBlock (block : Block) : Run (StorageState β) Bytes := do
  S.checkBlockSize block.2.length
  return leBytes 8 block.1 ++ List.replicate (aesBlockSize - 8) 0 ++ zeroPad S.userBlockSize block.2

/-- the body of the first loop of `set` -/
def encodeRequest (request : ℕ × Bucket) : Run (StorageState β) (ℕ × Bytes) := do
  S.checkCapacity request.1
  if request.2.length ≠ S.Z then throw (.notZBlocks S.Z request.2.length)
  else do
    let records ← request.2.mapM S.encodeBlock
    let iv ← getRandomBlock aesBlockSize
    -- the ciphertext is appended to the IV
    let encrypted ← Prog.ofExcept (encrypt S.crypto S.key iv.1 records.flatten iv.1 .encrypt)
    return (request.1, encrypted)

/-- the three ways of `set` -/
def upload : List (ℕ × Bytes) → Run (StorageState β) Unit
  | [write] => S.setAndRecord write.1 write.2
  | writes =>
    if S.batchLimit = 0 ∨ writes.length ≤ S.batchLimit then S.setAndRecordBatch writes
    else S.setSlices writes 0

/-- `AbsStorageAdapter::set` -/
def set (requests : List (ℕ × Bucket)) : Run (StorageState β) Unit := do
  let writes ← requests.mapM S.encodeRequest
  logCall (.set writes)
  S.upload writes

/-- `set` pads the payloads in the range it is given; what is left in one bucket -/
def padBucket : Bucket → Bucket
  | [] => []
  | b :: rest => if S.userBlockSize < b.2.length then b :: rest else (b.1, zeroPad S.userBlockSize b.2) :: padBucket rest

/-- what `set` leaves in the range it is given: padded up to the request whose check fails -/
def padRange : List (ℕ × Bucket) → List (ℕ × Bucket)
  | [] => []
  | r :: rest =>
    if S.capacity ≤ r.1 ∨ r.2.length ≠ S.Z then r :: rest
    else if ∃ b ∈ r.2, S.userBlockSize < b.2.length then (r.1, S.padBucket r.2) :: rest
    else (r.1, S.padBucket r.2) :: padRange rest

/-- `AbsStorageAdapter::fillWithZeroes` -/
def fillWithZeroes : Run (StorageState β) Unit :=
  S.set ((List.range S.capacity).map fun i => (i, List.replicate S.Z (ulongMax, [])))

end StorageAdapter

/-! ## The in-memory provider -/

/-- a buffer of n bytes -/
abbrev Buffer (n : ℕ) := {b : Bytes // b.length = n}

/-- copy bytes to the front of a buffer -/
def Buffer.overwrite {n : ℕ} (old : Buffer n) (raw : Bytes) : Buffer n :=
  ⟨(raw ++ old.1.drop raw.length).take n, by have := old.2; simp; omega⟩

theorem Buffer.overwrite_val {n : ℕ} (old : Buffer n) {raw : Bytes} (h : raw.length = n) :
    (old.overwrite raw).1 = raw := by
  have hd : old.1.drop raw.length = [] := List.drop_eq_nil_of_le (by rw [old.2, h])
  simp [Buffer.overwrite, hd, ← h]

/-- the array of `InMemoryStorageAdapter`: one buffer for each location below the capacity. The adapter checks every
location, so the provider is never asked for one past the end. -/
abbrev BlockArray (capacity blockSize : ℕ) := Vector (Buffer blockSize) capacity

def BlockArray.read {capacity blockSize : ℕ} (blocks : BlockArray capacity blockSize) (location : ℕ) : Bytes :=
  (blocks[location]?.map Subtype.val).getD []

def BlockArray.write {capacity blockSize : ℕ} (blocks : BlockArray capacity blockSize) (location : ℕ) (raw : Bytes) :
    BlockArray capacity blockSize :=
  match blocks[location]? with
  | some old => blocks.setIfInBounds location (old.overwrite raw)
  | none => blocks

/-- `InMemoryStorageAdapter` -/
def inMemoryBackend (capacity blockSize : ℕ) : Backend (BlockArray capacity blockSize) where
  getInternal location := do return (← Prog.read).read location
  setInternal location raw := Prog.modify fun blocks => blocks.write location raw
  getInternalBatch := none
  setInternalBatch := none
  supportsBatchGet := false
  supportsBatchSet := false

end PathOram
