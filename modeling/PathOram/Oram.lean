/-
The ORAM (`oram.cpp`): its fields, its constructor and its methods.

`Oram` holds the constant fields and the adapters' methods, `OramState` what changes. The loops are structural: over
the elements of a vector, over the levels from leaf to root (`writeLevels`), over the slots of a bucket (`fillBucket`).
Two have a fuel, because their counters are of 32 bits: the one over a batch (`batchLoop`) and the padding (`padLoop`).
The eviction keeps the source's three vectors: the blocks to insert, the IDs to delete, which are `int`s, and the
indices to erase from the local copy of the stash.
-/
import PathOram.StorageAdapter
import PathOram.StashAdapter
import PathOram.PositionMapAdapter

namespace PathOram

open Lib

/-- the constant fields of an ORAM over a storage with state β and a position map with state μ -/
structure Oram (β μ : Type) where
  storage : StorageAdapter β
  map : PositionMapAdapter μ
  stash : InMemoryStashAdapter
  dataSize : ℕ
  Z : ℕ
  height : ℕ
  batchSize : ℕ

structure OramState (β μ : Type) where
  storage : StorageState β
  map : μ
  stash : Stash
  cache : UnorderedMap ℕ Bucket

namespace OramState

variable (β μ : Type)

def storageLens : Lens (OramState β μ) (StorageState β) where
  get s := s.storage
  set t s := { s with storage := t }
  get_set _ _ := rfl
  set_get _ := rfl
  set_set _ _ _ := rfl

def mapLens : Lens (OramState β μ) μ where
  get s := s.map
  set t s := { s with map := t }
  get_set _ _ := rfl
  set_get _ := rfl
  set_set _ _ _ := rfl

def stashLens : Lens (OramState β μ) Stash where
  get s := s.stash
  set t s := { s with stash := t }
  get_set _ _ := rfl
  set_get _ := rfl
  set_set _ _ _ := rfl

end OramState

namespace Oram

variable {β μ : Type} (O : Oram β μ)

/-- total number of blocks, in 64-bit arithmetic -/
def blocks : ℕ := 2 ^ (O.height % 64) * O.Z % 2 ^ 64

def onStorage {α : Type} (m : Run (StorageState β) α) : Run (OramState β μ) α :=
  Prog.zoom (OramState.storageLens β μ) m

def onMap {α : Type} (m : Run μ α) : Run (OramState β μ) α := Prog.zoom (OramState.mapLens β μ) m

def onStash {α : Type} (m : Run Stash α) : Run (OramState β μ) α := Prog.zoom (OramState.stashLens β μ) m

/-! ## Tree arithmetic -/

/-- the location of the bucket of a level on the path to a leaf -/
def bucketForLevelLeaf (level leaf : ℕ) : ℕ :=
  (leaf + shlOne (O.height - 1)) % 2 ^ 64 / 2 ^ (sub64 (sub64 O.height 1) level % 64)

/-- on this level, do these paths share the same bucket -/
def canInclude (pathLeaf blockPosition level : ℕ) : Bool :=
  O.bucketForLevelLeaf level pathLeaf == O.bucketForLevelLeaf level blockPosition

/-- the first and the last leaf whose paths meet a location -/
def leavesForLocation (location : ℕ) : ℕ × ℕ :=
  let level := location.log2
  let toLeaves := sub64 (sub64 O.height level) 1
  (sub64 (location * shlOne toLeaves % 2 ^ 64) (shlOne (O.height - 1)),
    sub64 (sub64 ((location + 1) * shlOne toLeaves % 2 ^ 64) 1) (shlOne (O.height - 1)))

/-! ## The cache -/

/-- cut the downloaded blocks back into buckets of Z and put them into the cache -/
def cacheDownloaded (toGet : List ℕ) : List Block → ℕ → Bucket → UnorderedMap ℕ Bucket → UnorderedMap ℕ Bucket
  | [], _, _, cache => cache
  | b :: rest, i, bucket, cache =>
    if i % O.Z = O.Z - 1 then
      cacheDownloaded toGet rest (i + 1) [] (cache.insert (toGet.getD (i / O.Z) 0) (bucket ++ [b]))
    else cacheDownloaded toGet rest (i + 1) (bucket ++ [b]) cache

def getCache (locations : List ℕ) (dryRun : Bool) : Run (OramState β μ) (List Block) := do
  let cache := (← Prog.read).cache
  let order ← iterate locations
  -- those locations not present in the cache
  let toGet := order.filter fun location => location ∉ cache
  -- a cached bucket is put in front of the response
  let cached := order.foldl (fun response location => (cache.lookup location).getD [] ++ response) []
  let response := if dryRun then [] else cached
  if 0 < toGet.length then do
    let downloaded ← onStorage (O.storage.get toGet)
    Prog.modify fun s => { s with cache := O.cacheDownloaded toGet downloaded 0 [] s.cache }
    return if dryRun then response else response ++ downloaded
  else return response

def setCache (requests : List (ℕ × Bucket)) : Run (OramState β μ) Unit :=
  Prog.modify fun s => { s with cache := s.cache.assignAll requests }

/-- upload all cache content to the storage and empty the cache. The storage pads the buckets of the cache in place,
also when it throws, and then the cache stays. -/
def syncCache : Run (OramState β μ) Unit := do
  let range ← iterate (← Prog.read).cache.toList
  Prog.modify fun s => { s with cache := s.cache.assignAll (O.storage.padRange range) }
  onStorage (O.storage.set range)
  Prog.modify fun s => { s with cache := ∅ }

/-! ## Paths -/

/-- add the locations of the path to a leaf to a set -/
def pathLocations (leaf : ℕ) (path : List ℕ) : List ℕ :=
  (List.range O.height).foldl (fun path level => path.insert (O.bucketForLevelLeaf level leaf)) path

/-- add the blocks to the stash, skip "empty" ones -/
def addBlocks (blocks : List Block) : Run (OramState β μ) Unit :=
  blocks.forM fun b => if b.1 ≠ ulongMax then onStash (O.stash.add b.1 b.2) else pure ()

/-- `readPath`, which also returns the set of locations -/
def readPath (leaf : ℕ) (path : List ℕ) (putInStash : Bool) : Run (OramState β μ) (List ℕ) := do
  let path := O.pathLocations leaf path
  if putInStash then do
    let blocks ← O.getCache path false
    O.addBlocks blocks
    return path
  -- we may only want to populate cache
  else return path

/-- the local vectors of one level of the eviction, and the IDs to delete of all levels -/
structure Scan where
  toInsert : List Block
  toDelete : List ℤ
  toDeleteLocal : List ℕ

/-- the scan of the local stash for one bucket, from an index on -/
def scanStash (leaf level : ℕ) : List Block → ℕ → Scan → Run (OramState β μ) Scan
  | [], _, acc => return acc
  | entry :: rest, i, acc => do
    let entryLeaf ← onMap (O.map.get entry.1)
    if O.canInclude entryLeaf leaf level then
      let acc : Scan := ⟨acc.toInsert ++ [entry], acc.toDelete ++ [toInt entry.1], acc.toDeleteLocal ++ [i]⟩
      -- look up to Z
      if acc.toInsert.length = O.Z then return acc else scanStash leaf level rest (i + 1) acc
    else scanStash leaf level rest (i + 1) acc

/-- erase the elements at some indices, the last one first because the vector shrinks -/
def eraseLocal (currentStash : List Block) (toDeleteLocal : List ℕ) : List Block :=
  (toDeleteLocal.insertionSort (· ≥ ·)).foldl List.eraseIdx currentStash

/-- fill n slots from the back of the blocks to insert, then with dummies -/
def fillBucket : ℕ → List Block → Run (OramState β μ) Bucket
  | 0, _ => return []
  | n + 1, toInsert =>
    match toInsert.getLast? with
    | some b => do
      let rest ← fillBucket n toInsert.dropLast
      return b :: rest
    | none => do
      let data ← getRandomBlock O.dataSize
      let rest ← fillBucket n []
      return (ulongMax, data.1) :: rest

/-- the local variables of `writePath` -/
structure Eviction where
  currentStash : List Block
  toDelete : List ℤ
  requests : List (ℕ × Bucket)

/-- one level of the eviction -/
def writeLevel (leaf level : ℕ) (e : Eviction) : Run (OramState β μ) Eviction := do
  let scan ← O.scanStash leaf level e.currentStash 0 ⟨[], e.toDelete, []⟩
  let bucket ← O.fillBucket O.Z scan.toInsert
  return ⟨eraseLocal e.currentStash scan.toDeleteLocal, scan.toDelete,
    e.requests ++ [(O.bucketForLevelLeaf level leaf, bucket)]⟩

/-- the levels below n, from leaf to root (greedy) -/
def writeLevels (leaf : ℕ) : ℕ → Eviction → Run (OramState β μ) Eviction
  | 0, e => return e
  | level + 1, e => do
    let e ← O.writeLevel leaf level e
    writeLevels leaf level e

def writePath (leaf : ℕ) : Run (OramState β μ) Unit := do
  let currentStash ← onStash InMemoryStashAdapter.getAll
  let e ← O.writeLevels leaf O.height ⟨currentStash, [], []⟩
  setCache e.requests
  -- update the stash adapter, remove newly inserted blocks
  e.toDelete.forM fun removed => onStash (InMemoryStashAdapter.remove (ofInt removed))

/-! ## Requests -/

def access (read : Bool) (block : ℕ) (data response : Bytes) : Run (OramState β μ) Bytes := do
  -- step 1 from paper: remap block
  let previousPosition ← onMap (O.map.get block)
  let leaf ← getRandomULong (shlOne (O.height - 1))
  onMap (O.map.set block leaf)
  -- step 2 from paper: read path
  let _ ← O.readPath previousPosition [] true
  -- step 3 from paper: update block
  if !read then onStash (O.stash.update block data) else pure ()
  let response ← onStash (InMemoryStashAdapter.get block response)
  -- step 4 from paper: write path
  O.writePath previousPosition
  return response

def get (block : ℕ) (response : Bytes) : Run (OramState β μ) Bytes := do
  let response ← O.access true block [] response
  O.syncCache
  return response

def put (block : ℕ) (data : Bytes) : Run (OramState β μ) Unit := do
  let _ ← O.access false block data []
  O.syncCache

/-- the union of the paths of the requests' blocks -/
def prefetch (requests : List Block) : Run (OramState β μ) (List ℕ) :=
  requests.foldlM (fun locations request => do
    let leaf ← onMap (O.map.get request.1)
    O.readPath leaf locations false) []

/-- the loop of `multiple` over the requests with a fuel, whose index is an `uint` -/
def batchLoop (requests : List Block) : ℕ → ℕ → List Bytes → Run (OramState β μ) (List Bytes)
  | 0, _, _ => throw .diverges
  | fuel + 1, i, response =>
    if i < requests.length then do
      let request := requests.getD i (0, [])
      let answer ← O.access (request.2.length == 0) request.1 request.2 (response.getD i [])
      batchLoop requests fuel ((i + 1) % 2 ^ 32) (response.set i answer)
    else return response

/-- `multiple`, with the response vector as it is passed in -/
def multiple (requests : List Block) (response : List Bytes) : Run (OramState β μ) (List Bytes) := do
  if O.batchSize < requests.length then throw (.tooManyRequests requests.length O.batchSize)
  else do
    -- populate cache
    let locations ← O.prefetch requests
    let _ ← O.getCache locations true
    -- run ORAM protocol (will use cache)
    let response := response.take requests.length ++ List.replicate (requests.length - response.length) []
    let response ← O.batchLoop requests (requests.length + 1) 0 response
    -- upload resulting new data
    O.syncCache
    return response

/-! ## Construction and bulk load -/

/-- the body of the constructor, for an ORAM that is initialised -/
def construct : Run (OramState β μ) Unit := do
  -- fill all blocks with random bits, marks them as "empty"
  onStorage O.storage.fillWithZeroes
  -- generate random position map
  (List.range O.blocks).forM fun i => do
    let leaf ← getRandomULong (shlOne (O.height - 1))
    onMap (O.map.set i leaf)

/-- the padding loop of `load` with a fuel: its bound is recomputed in each round and wraps, its counter is an `uint` -/
def padLoop : ℕ → ℕ → Bucket → Option Bucket
  | 0, _, _ => none
  | fuel + 1, i, bucket =>
    if i < sub64 bucket.length O.Z then padLoop fuel ((i + 1) % 2 ^ 32) (bucket ++ [(ulongMax, [])]) else some bucket

/-- the location of the bucket of an iteration, `floor(1 + iteration * step)`, in exact arithmetic. The code's step is a
rounded `long double`, which may take a product that is a whole number to the location before. -/
def loadLocation (bucketCount iteration : ℕ) : ℕ := 1 + iteration * shlOne O.height / bucketCount

/-- the local variables of the loop of `load` -/
structure Loading where
  iteration : ℕ
  bucket : Bucket
  writeRequests : List (ℕ × Bucket)

/-- one record of `load` -/
def loadRecord (bucketCount : ℕ) (l : Loading) (record : Block) : Run (OramState β μ) Loading := do
  let location := O.loadLocation bucketCount l.iteration
  let (first, last) := O.leavesForLocation location
  let leaf ← getRandomULong ((sub64 last first + 1) % 2 ^ 64)
  onMap (O.map.set record.1 ((leaf + first) % 2 ^ 64))
  let bucket := if l.bucket.length < O.Z then l.bucket ++ [record] else l.bucket
  if bucket.length = O.Z then return ⟨l.iteration + 1, [], l.writeRequests ++ [(location, bucket)]⟩
  else return ⟨l.iteration, bucket, l.writeRequests⟩

/-- `load`, which also returns the data in the order it leaves it -/
def load (data : List Block) : Run (OramState β μ) (List Block) := do
  let maxLocation := shlOne O.height
  let bucketCount := (data.length + O.Z - 1) / O.Z -- for rounding errors
  if maxLocation < bucketCount then throw .tooMuchData
  else do
    let data ← shuffle data
    let l ← data.foldlM (O.loadRecord bucketCount) ⟨0, [], []⟩
    if 0 < l.bucket.length then
      match O.padLoop (O.Z + 1) 0 l.bucket with
      | some bucket =>
        onStorage (O.storage.set (l.writeRequests ++ [(O.loadLocation bucketCount l.iteration, bucket)]))
      | none => throw .diverges
    else onStorage (O.storage.set l.writeRequests)
    return data

end Oram

/-! ## Calls -/

/-- a call of a public method, with empty response vectors -/
inductive Call where
  | get (block : ℕ)
  | put (block : ℕ) (data : Bytes)
  | multiple (requests : List Block)
deriving DecidableEq, Repr

inductive Reply where
  | got (response : Bytes)
  | done
  | many (response : List Bytes)
deriving DecidableEq, Repr

def Oram.exec {β μ : Type} (O : Oram β μ) : Call → Run (OramState β μ) Reply
  | .get block => do return .got (← O.get block [])
  | .put block data => do
    O.put block data
    return .done
  | .multiple requests => do return .many (← O.multiple requests [])

/-- a sequence of calls, up to the first that throws -/
def Oram.run {β μ : Type} (O : Oram β μ) (calls : List Call) : Run (OramState β μ) (List Reply) := calls.mapM O.exec

/-- a sequence of calls by a caller that goes on after an exception -/
def Oram.attempts {β μ : Type} (O : Oram β μ) (calls : List Call) : Run (OramState β μ) (List (Except Exception Reply)) :=
  calls.mapM fun call => Prog.attempt (O.exec call)

/-- an ORAM that is constructed with `initialize` and then called -/
def Oram.session {β μ : Type} (O : Oram β μ) (calls : List Call) : Run (OramState β μ) (List Reply) := do
  O.construct
  O.run calls

end PathOram
