/-
What the methods leave alone, whatever their arguments, the contents and the outcome.

The results here need no invariant: they hold from every state and also when a method throws. `Steady P` says that P is a
property of which the storage and the cache are no part, and that reading the map and every method of the stash keep it;
such a property survives every part of an access but the remapping, and a call if it survives that (`Steady.exec`).
`Kept P` is the case in which the stash is no part of the property either.

`attempts_keeps`: a property of the map that survives remapping to a leaf holds after any sequence of calls, valid or not.
-/
import PathOram.InMemory

namespace PathOram

open Lib

variable {β μ : Type} {O : Oram β μ} {P : OramState β μ → Prop}

/-! ## Parts -/

theorem onStorage_keeps (hP : ∀ t s, P s → P { s with storage := t }) {α : Type} (m : Run (StorageState β) α) :
    Triple P (Oram.onStorage m : Run (OramState β μ) α) (fun _ => P) (fun _ => P) :=
  Triple.zoom_keeps (OramState.storageLens β μ) hP m

theorem onStash_keeps (hP : ∀ t s, P s → P { s with stash := t }) {α : Type} (m : Run Stash α) :
    Triple P (Oram.onStash m : Run (OramState β μ) α) (fun _ => P) (fun _ => P) :=
  Triple.zoom_keeps (OramState.stashLens β μ) hP m

/-- reading an array changes nothing -/
theorem arrayGet_keeps {capacity : ℕ} {P : OramState β (PositionArray capacity) → Prop} (i : ℕ) :
    Triple P (Oram.onMap ((inMemoryPositionMap capacity).get i) : Run (OramState β (PositionArray capacity)) ℕ)
      (fun _ => P) (fun _ => P) := by
  intro w s hs
  rw [Oram.onMap, Prog.exec_zoom, exec_arrayGet]
  split_ifs
  · exact hs
  · exact hs

/-- the leaf that the next access draws -/
def Oram.drawnLeaf (O : Oram β μ) (w : World) : ℕ := w.rand 0 % 2 ^ 64 % shlOne (O.height - 1)

/-- the first step of an access over an array -/
theorem exec_remap {capacity : ℕ} {O : Oram β (PositionArray capacity)} (hmap : O.map = inMemoryPositionMap capacity)
    (block : ℕ) (w : World) (s : OramState β (PositionArray capacity)) :
    (O.remap block).exec w s =
      if capacity ≤ block then (.error (.blockOutOfBound block capacity), w, s)
      else (.ok (s.map[block]?.getD 0), { w with rand := fun n => w.rand (n + 1) },
        { s with map := s.map.setIfInBounds block (O.drawnLeaf w) }) := by
  have hget : (Oram.onMap (O.map.get block)).exec w s =
      (if capacity ≤ block then .error (.blockOutOfBound block capacity) else .ok (s.map[block]?.getD 0), w, s) := by
    rw [Oram.onMap, Prog.exec_zoom, hmap, exec_arrayGet]
    rfl
  split_ifs at hget ⊢ with hblock
  · exact Prog.exec_bind_error hget
  · have hset : ∀ w, (Oram.onMap (O.map.set block (O.drawnLeaf w))).exec { w with rand := fun n => w.rand (n + 1) } s =
        (.ok (), { w with rand := fun n => w.rand (n + 1) }, { s with map := s.map.setIfInBounds block (O.drawnLeaf w) }) := by
      intro w
      rw [Oram.onMap, Prog.exec_zoom, hmap, exec_arraySet, if_neg hblock]
      rfl
    have hdraw : Prog.exec (getRandomULong (shlOne (O.height - 1)) : Run (OramState β (PositionArray capacity)) ℕ) w s =
        (.ok (O.drawnLeaf w), { w with rand := fun n => w.rand (n + 1) }, s) := rfl
    rw [Oram.remap, Prog.exec_bind_ok hget, Prog.exec_bind_ok hdraw, Prog.exec_bind_ok (hset w), Prog.exec_pure]

theorem fillBucket_keeps {E : Exception → OramState β μ → Prop} (n : ℕ) (toInsert : List Block) :
    Triple P (O.fillBucket n toInsert) (fun _ => P) E := by
  induction n generalizing toInsert with
  | zero => exact Triple.pure fun _ hs => hs
  | succ n ih =>
    rw [Oram.fillBucket]
    cases toInsert.getLast? with
    | some b => exact (ih _).bind fun rest => Triple.pure fun _ hs => hs
    | none => exact (getRandomBlock_triple _).bind fun data => (ih _).bind fun rest => Triple.pure fun _ hs => hs

section Scan

variable (hget : ∀ i, Triple P (Oram.onMap (O.map.get i)) (fun _ => P) (fun _ => P))

include hget

theorem scanStash_keeps (leaf level : ℕ) (l : List Block) (i : ℕ) (acc : Oram.Scan) :
    Triple P (O.scanStash leaf level l i acc) (fun _ => P) (fun _ => P) := by
  induction l generalizing i acc with
  | nil => exact Triple.pure fun _ hs => hs
  | cons b l ih =>
    rw [Oram.scanStash]
    apply (hget b.1).bind
    intro entryLeaf
    exact Triple.ite (fun _ => Triple.ite (fun _ => Triple.pure fun _ hs => hs) fun _ => ih _ _) fun _ => ih _ _

/-- the eviction writes one bucket for each level, whatever the stash holds -/
theorem writeLevels_keeps (leaf levels : ℕ) (e : Oram.Eviction) :
    Triple P (O.writeLevels leaf levels e)
      (fun e' s => e'.requests.map Prod.fst =
        e.requests.map Prod.fst ++ (List.range levels).reverse.map (fun level => O.bucketForLevelLeaf level leaf) ∧ P s)
      (fun _ => P) := by
  induction levels generalizing e with
  | zero => exact Triple.pure fun _ hs => ⟨by simp, hs⟩
  | succ level ih =>
    rw [Oram.writeLevels, Oram.writeLevel]
    refine Triple.bind (Q := fun e' s => e'.requests.map Prod.fst =
      e.requests.map Prod.fst ++ [O.bucketForLevelLeaf level leaf] ∧ P s) ?_ fun e' => Triple.of_pure fun he' => ?_
    · apply (scanStash_keeps hget leaf level _ _ _).bind
      intro scan
      exact (fillBucket_keeps _ _).bind fun bucket => Triple.pure fun _ hs => ⟨by simp, hs⟩
    · refine (ih e').post fun e'' s hs => ⟨?_, hs.2⟩
      rw [hs.1, he', List.range_succ, List.reverse_append, List.append_assoc]
      rfl

end Scan

/-- the cache and the storage are all that `getCache` changes -/
theorem getCache_keeps (hstorage : ∀ t s, P s → P { s with storage := t }) (hcache : ∀ t s, P s → P { s with cache := t })
    (locations : List ℕ) (dryRun : Bool) : Triple P (O.getCache locations dryRun) (fun _ => P) (fun _ => P) := by
  unfold Oram.getCache
  apply Triple.bind (Q := fun _ => P) (Triple.read fun _ hs => hs)
  intro a
  apply Triple.bind (Q := fun _ => P) ((iterate_triple locations).post fun _ _ hs => hs.2)
  intro order
  refine Triple.ite (fun _ => ?_) fun _ => Triple.pure fun _ hs => hs
  apply (onStorage_keeps hstorage _).bind
  intro downloaded
  exact Triple.bind (Q := fun _ => P) (Triple.modify fun s hs => hcache _ s hs) fun _ => Triple.pure fun _ hs => hs

theorem addBlocks_keeps (hadd : ∀ block data, Triple P (Oram.onStash (O.stash.add block data)) (fun _ => P) (fun _ => P))
    (blocks : List Block) : Triple P (O.addBlocks blocks) (fun _ => P) (fun _ => P) :=
  Triple.forM (fun _ => P) fun b _ _ => Triple.ite (fun _ => hadd b.1 b.2) fun _ => Triple.pure fun _ hs => hs

/-- reading a path adds to the stash and does not touch the map -/
theorem readPath_keeps (hstorage : ∀ t s, P s → P { s with storage := t })
    (hadd : ∀ block data, Triple P (Oram.onStash (O.stash.add block data)) (fun _ => P) (fun _ => P))
    (hcache : ∀ t s, P s → P { s with cache := t }) (leaf : ℕ) (path : List ℕ) (putInStash : Bool) :
    Triple P (O.readPath leaf path putInStash) (fun _ => P) (fun _ => P) := by
  unfold Oram.readPath
  refine Triple.ite (fun _ => ?_) fun _ => Triple.pure fun _ hs => hs
  apply (getCache_keeps hstorage hcache _ _).bind
  intro blocks
  exact (addBlocks_keeps hadd blocks).bind fun _ => Triple.pure fun _ hs => hs

/-- neither does an upload -/
theorem syncCache_keeps (hstorage : ∀ t s, P s → P { s with storage := t }) (hcache : ∀ t s, P s → P { s with cache := t }) :
    Triple P O.syncCache (fun _ => P) (fun _ => P) := by
  unfold Oram.syncCache
  apply Triple.bind (Q := fun _ => P) (Triple.read fun _ hs => hs)
  intro a
  apply Triple.bind (Q := fun _ => P) ((iterate_triple _).post fun _ _ hs => hs.2)
  intro range
  apply Triple.bind (Q := fun _ => P) (Triple.modify fun s hs => hcache _ s hs)
  intro _
  exact (onStorage_keeps hstorage _).bind fun _ => Triple.modify fun s hs => hcache _ s hs

/-! ## Accesses and calls -/

/-- the storage and the cache are no part of the property, and reading the map and the methods of the stash keep it -/
structure Steady (O : Oram β μ) (P : OramState β μ → Prop) : Prop where
  storage : ∀ t s, P s → P { s with storage := t }
  cache : ∀ t s, P s → P { s with cache := t }
  get : ∀ i, Triple P (Oram.onMap (O.map.get i)) (fun _ => P) (fun _ => P)
  getAll : Triple P (Oram.onStash InMemoryStashAdapter.getAll) (fun _ => P) (fun _ => P)
  add : ∀ block data, Triple P (Oram.onStash (O.stash.add block data)) (fun _ => P) (fun _ => P)
  update : ∀ block data, Triple P (Oram.onStash (O.stash.update block data)) (fun _ => P) (fun _ => P)
  stashGet : ∀ block response, Triple P (Oram.onStash (InMemoryStashAdapter.get block response)) (fun _ => P) (fun _ => P)
  remove : ∀ block, Triple P (Oram.onStash (InMemoryStashAdapter.remove block)) (fun _ => P) (fun _ => P)

namespace Steady

variable (h : Steady O P)

include h

theorem writePath (leaf : ℕ) : Triple P (O.writePath leaf) (fun _ => P) (fun _ => P) := by
  unfold Oram.writePath
  apply h.getAll.bind
  intro currentStash
  apply Triple.bind (Q := fun _ => P) ((writeLevels_keeps h.get leaf O.height _).post fun _ _ hs => hs.2)
  intro e
  apply Triple.bind (Q := fun _ => P) (Triple.modify fun s hs => h.cache _ s hs)
  intro _
  exact Triple.forM (fun _ => P) fun removed _ _ => h.remove _

theorem finishAccess (read : Bool) (block : ℕ) (data response : Bytes) (previousPosition : ℕ) :
    Triple P (O.finishAccess read block data response previousPosition) (fun _ => P) (fun _ => P) := by
  unfold Oram.finishAccess
  have hrest : Triple P (do
      let response ← Oram.onStash (InMemoryStashAdapter.get block response)
      O.writePath previousPosition
      return response : Run (OramState β μ) Bytes) (fun _ => P) (fun _ => P) :=
    (h.stashGet _ _).bind fun response => (h.writePath _).bind fun _ => Triple.pure fun _ hs => hs
  exact Triple.ite (fun _ => (h.update _ _).bind fun _ => hrest) fun _ => by simpa using hrest

/-- an access after its remapping -/
theorem accessPath (read : Bool) (block : ℕ) (data response : Bytes) (previousPosition : ℕ) :
    Triple P (do
      let _ ← O.readPath previousPosition [] true
      O.finishAccess read block data response previousPosition) (fun _ => P) (fun _ => P) :=
  (readPath_keeps h.storage h.add h.cache _ _ _).bind fun _ => h.finishAccess _ _ _ _ _

/-- what a batch does before its accesses -/
theorem prepare (requests : List Block) : Triple P (O.prepare requests) (fun _ => P) (fun _ => P) := by
  unfold Oram.prepare
  apply Triple.bind (Triple.foldlM (fun _ _ => P) (fun locations request _ _ => (h.get request.1).bind fun leaf =>
    readPath_keeps h.storage h.add h.cache leaf locations false) [])
  intro locations
  exact getCache_keeps h.storage h.cache _ _

variable (hset : ∀ i leaf, leaf < shlOne (O.height - 1) → Triple P (Oram.onMap (O.map.set i leaf)) (fun _ => P) (fun _ => P))
  (hpos : 0 < shlOne (O.height - 1))

include hset hpos

theorem access (read : Bool) (block : ℕ) (data response : Bytes) :
    Triple P (O.access read block data response) (fun _ => P) (fun _ => P) := by
  rw [access_eq]
  refine Triple.bind (Q := fun _ => P) ?_ fun previousPosition => h.accessPath _ _ _ _ _
  unfold Oram.remap
  apply (h.get block).bind
  intro previousPosition
  apply (getRandomULong_triple hpos).bind
  intro leaf
  apply Triple.of_pure
  intro hleaf
  exact (hset block leaf hleaf).bind fun _ => Triple.pure fun _ hs => hs

theorem accesses (call : Call) : Triple P (O.accesses call) (fun _ => P) (fun _ => P) := by
  cases call with
  | get block => exact (h.access hset hpos _ _ _ _).bind fun _ => Triple.pure fun _ hs => hs
  | put block data => exact (h.access hset hpos _ _ _ _).bind fun _ => Triple.pure fun _ hs => hs
  | multiple requests =>
    refine Triple.ite (fun _ => Triple.throw fun _ hs => hs) fun _ => ?_
    have hprefetch : Triple P (O.prefetch requests) (fun _ => P) (fun _ => P) :=
      Triple.foldlM (fun _ _ => P) (fun locations request _ _ =>
        (h.get request.1).bind fun leaf => readPath_keeps h.storage h.add h.cache leaf locations false) []
    refine Triple.bind (Q := fun _ => P) ?_ fun _ => ?_
    · exact hprefetch.bind fun locations => getCache_keeps h.storage h.cache _ _
    · exact (serve_triple (fun r _ response => h.access hset hpos _ _ _ response) fun _ _ hs => hs).post fun _ _ hs => hs.1

theorem exec (call : Call) : Triple P (O.exec call) (fun _ => P) (fun _ => P) := by
  rw [exec_eq]
  apply (h.accesses hset hpos call).bind
  intro rs
  exact (syncCache_keeps h.storage h.cache).bind fun _ => Triple.pure fun _ hs => hs

end Steady

/-! ## What only the map can change -/

/-- the storage, the stash and the cache are no part of the property, and reading the map keeps it -/
structure Kept (O : Oram β μ) (P : OramState β μ → Prop) : Prop where
  storage : ∀ t s, P s → P { s with storage := t }
  stash : ∀ t s, P s → P { s with stash := t }
  cache : ∀ t s, P s → P { s with cache := t }
  get : ∀ i, Triple P (Oram.onMap (O.map.get i)) (fun _ => P) (fun _ => P)

theorem Kept.steady (h : Kept O P) : Steady O P where
  storage := h.storage
  cache := h.cache
  get := h.get
  getAll := onStash_keeps h.stash _
  add _ _ := onStash_keeps h.stash _
  update _ _ := onStash_keeps h.stash _
  stashGet _ _ := onStash_keeps h.stash _
  remove _ := onStash_keeps h.stash _

/-- remapping a block to a leaf keeps the property too -/
structure Remaps (O : Oram β μ) (P : OramState β μ → Prop) : Prop extends Kept O P where
  set : ∀ i leaf, leaf < shlOne (O.height - 1) → Triple P (Oram.onMap (O.map.set i leaf)) (fun _ => P) (fun _ => P)

section Remaps

variable (h : Remaps O P) (hpos : 0 < shlOne (O.height - 1))

include h hpos

theorem exec_keeps (call : Call) : Triple P (O.exec call) (fun _ => P) (fun _ => P) := h.steady.exec h.set hpos call

/-- **A property that remapping keeps holds after any sequence of calls**, valid or not, whatever their outcomes. -/
theorem attempts_keeps (calls : List Call) {E : Exception → OramState β μ → Prop} :
    Triple P (O.attempts calls) (fun _ => P) E :=
  (Triple.mapM_inv (fun _ _ => P) (fun call _ _ _ => (exec_keeps h hpos call).attempt) []).post fun _ _ hs => hs

end Remaps

/-! ## An array of leaves -/

/-- every entry of an ID of the ORAM is a leaf of the tree -/
def Leaves {capacity : ℕ} (O : Oram β (PositionArray capacity)) (s : OramState β (PositionArray capacity)) : Prop :=
  ∀ id < 2 ^ O.height * O.Z, ∃ leaf < 2 ^ (O.height - 1), s.map[id]? = some leaf

theorem leaves_remaps {S : StorageAdapter β} {mapCapacity stashCapacity height batchSize : ℕ} (hh : height ≤ 31) :
    Remaps (arrayOram S mapCapacity stashCapacity height batchSize)
      (Leaves (arrayOram S mapCapacity stashCapacity height batchSize)) where
  storage _ _ hs := hs
  stash _ _ hs := hs
  cache _ _ hs := hs
  get i := arrayGet_keeps i
  set i leaf hleaf := by
    intro w s hs
    have hleaf : leaf < 2 ^ (height - 1) := by
      rw [← shlOne_of_le (show height - 1 ≤ 30 by omega)]
      exact hleaf
    change Outcome _ _ (Prog.exec (Oram.onMap ((inMemoryPositionMap mapCapacity).set i leaf)) w s)
    rw [Oram.onMap, Prog.exec_zoom, exec_arraySet]
    split_ifs with hi
    · exact hs
    · intro id hid
      change ∃ leaf' < 2 ^ (height - 1), (s.map.setIfInBounds i leaf)[id]? = some leaf'
      rw [Vector.getElem?_setIfInBounds]
      by_cases he : i = id
      · subst he
        exact ⟨leaf, hleaf, by simp [not_le.1 hi]⟩
      · rw [if_neg he]
        exact hs id hid

/-! ## Reachable states -/

/-- the states of an initialised ORAM: after its construction and any sequence of calls, whether they return or throw -/
def Reached (O : Oram β μ) (s : OramState β μ) : Prop :=
  ∃ s₀ w₀ w₁ s₁ calls outcomes w, Fresh s₀ ∧ O.construct.exec w₀ s₀ = (.ok (), w₁, s₁) ∧
    (O.attempts calls).exec w₁ s₁ = (.ok outcomes, w, s)

theorem exec_attempts_cons {β μ : Type} {O : Oram β μ} {call : Call} {calls : List Call} {w w₁ w' : World}
    {s s₁ s' : OramState β μ} {r : Except Exception Reply} {outcomes : List (Except Exception Reply)}
    (hcall : (O.exec call).exec w s = (r, w₁, s₁)) (hcalls : (O.attempts calls).exec w₁ s₁ = (.ok outcomes, w', s')) :
    (O.attempts (call :: calls)).exec w s = (.ok (r :: outcomes), w', s') := by
  have hattempt : (Prog.attempt (O.exec call)).exec w s = (.ok r, w₁, s₁) := by rw [Prog.exec_attempt, hcall]
  unfold Oram.attempts at hcalls ⊢
  rw [List.mapM_cons, Prog.exec_bind_ok hattempt, Prog.exec_bind_ok hcalls, Prog.exec_pure]

/-- attempts do not throw -/
theorem exists_outcomes (O : Oram β μ) (calls : List Call) (w : World) (s : OramState β μ) :
    ∃ outcomes, ((O.attempts calls).exec w s).1 = .ok outcomes := by
  have hattempt : ∀ call, Triple (fun _ => True) (Prog.attempt (O.exec call)) (fun _ _ => True) (fun _ _ => False) :=
    fun call => (Triple.trivial _ (O.exec call)).attempt
  have h : Triple (fun _ => True) (O.attempts calls) (fun _ _ => True) (fun _ _ => False) :=
    Triple.mapM_inv (fun _ _ _ => True) (fun call _ _ _ => hattempt call) []
  have hout := h w s trivial
  rcases hr : (O.attempts calls).exec w s with ⟨e | outcomes, w', s'⟩
  · rw [hr] at hout
    exact hout.elim
  · exact ⟨outcomes, rfl⟩

/-- in every reachable state the array holds leaves -/
theorem leaves_of_reached {S : StorageAdapter β} {mapCapacity stashCapacity height batchSize : ℕ}
    (h : Sizes S.toAbsStorageAdapter S.crypto mapCapacity height) (L : LawfulBackend S.backend S.capacity S.blockSize)
    {s : OramState β (PositionArray mapCapacity)} (hs : Reached (arrayOram S mapCapacity stashCapacity height batchSize) s) :
    Leaves (arrayOram S mapCapacity stashCapacity height batchSize) s := by
  obtain ⟨s₀, w₀, w₁, s₁, calls, outcomes, w, hfresh, hconstruct, hattempts⟩ := hs
  obtain ⟨v, hv, -, -, hsees⟩ := (LawfulOram.construct_triple (arrayOram_lawful h L stashCapacity batchSize)).ok
    (arrayOram_fresh h L stashCapacity batchSize hfresh) hconstruct
  have hleaves : Leaves (arrayOram S mapCapacity stashCapacity height batchSize) s₁ := fun id hid =>
    ⟨v.pos id, hv.pos_lt id hid, arrayOram_position h L stashCapacity batchSize hsees hid⟩
  have hpos : 0 < shlOne (height - 1) := by
    have hle := h.height_le
    rw [shlOne_of_le (by omega)]
    exact Nat.two_pow_pos _
  exact (attempts_keeps (leaves_remaps h.height_le) hpos calls (E := fun _ _ => True)).ok hleaves hattempts

/-! ## Reaching a state by evaluation -/

/-- the state of an ORAM over in-memory adapters after its construction from zeroes -/
def builtState (A : AbsStorageAdapter) (mapCapacity stashCapacity height batchSize : ℕ) :
    OramState (BlockArray A.capacity A.blockSize) (PositionArray mapCapacity) :=
  ((inMemoryOram A plainCrypto mapCapacity stashCapacity height batchSize).construct.exec zeroWorld (zeroState A mapCapacity)).2.2

/-- the state after some more calls -/
def calledState (A : AbsStorageAdapter) (mapCapacity stashCapacity height batchSize : ℕ) (calls : List Call) :
    OramState (BlockArray A.capacity A.blockSize) (PositionArray mapCapacity) :=
  (((inMemoryOram A plainCrypto mapCapacity stashCapacity height batchSize).attempts calls).exec
    ((inMemoryOram A plainCrypto mapCapacity stashCapacity height batchSize).construct.exec zeroWorld
      (zeroState A mapCapacity)).2.1 (builtState A mapCapacity stashCapacity height batchSize)).2.2

theorem reached_calledState {A : AbsStorageAdapter} {mapCapacity stashCapacity height batchSize : ℕ} {calls : List Call}
    (hconstruct : ((inMemoryOram A plainCrypto mapCapacity stashCapacity height batchSize).construct.exec zeroWorld
      (zeroState A mapCapacity)).1 = .ok ()) :
    Reached (inMemoryOram A plainCrypto mapCapacity stashCapacity height batchSize)
      (calledState A mapCapacity stashCapacity height batchSize calls) := by
  obtain ⟨outcomes, houtcomes⟩ := exists_outcomes (inMemoryOram A plainCrypto mapCapacity stashCapacity height batchSize) calls
    ((inMemoryOram A plainCrypto mapCapacity stashCapacity height batchSize).construct.exec zeroWorld
      (zeroState A mapCapacity)).2.1 (builtState A mapCapacity stashCapacity height batchSize)
  exact ⟨_, zeroWorld, _, _, calls, outcomes, _, zeroState_fresh A mapCapacity, Prog.exec_eq hconstruct, Prog.exec_eq houtcomes⟩

end PathOram
