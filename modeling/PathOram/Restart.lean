/-
A controlled crash (`ORAMBigTest::disaster`), between any two calls of an ORAM over a file: every component is written to
its file and made again from it, and so is the ORAM, without `initialize`.

The cache is not stored. It is empty between calls, so that the files hold the whole state, except that `loadFromFile`
keeps the size of the stash's file in an `int`.

- `disaster_triple`: the state after the crash, but for the stash, is the one before it.
- `recovers_iff`: **the crash is invisible if and only if the file of the stash is shorter than 2^31 bytes.**
- `restart_answers`: at sizes at which the ORAM is a map, the new ORAM is the same map.
- `disaster_loses`: of four blocks of 2^30 bytes, those that are in the stash are lost.
-/
import PathOram.Persistence
import PathOram.Payloads
import PathOram.Twins
import PathOram.BulkLoad
import PathOram.Overflow

namespace PathOram

open Lib

-- programs are compared without computing what a conversion gives
attribute [local irreducible] toInt

/-! ## The crash -/

section

variable {A : AbsStorageAdapter} {crypto : Crypto} {mapCapacity stashCapacity height batchSize : ℕ}

/-- the file is closed and opened again, without `override` -/
def reopenStorage (A : AbsStorageAdapter) : Run (StorageState (StorageFile A.capacity A.blockSize)) Unit := do
  let _ ← AbsStorageAdapter.construct A.capacity A.userBlockSize A.key A.Z A.batchLimit
  Prog.modify fun s => ⟨s.backend, false, [], []⟩

/-- `ORAMBigTest::disaster`. The array of the new map and the buffer of the records are not initialised. -/
def disaster (A : AbsStorageAdapter) (memory : Memory) (fresh : PositionArray mapCapacity) :
    Run (OramState (StorageFile A.capacity A.blockSize) (PositionArray mapCapacity)) Unit := do
  Oram.onStorage (reopenStorage A)
  Oram.onMap (remakeMap fresh)
  Oram.onStash (remakeStash memory (toInt A.userBlockSize))
  -- the new ORAM has an empty cache
  Prog.modify fun s => { s with cache := ∅ }

/-- the state after the crash, if the stash that was loaded is a given one -/
def restored {β μ : Type} (s : OramState β μ) (stash : Stash) : OramState β μ :=
  ⟨⟨s.storage.backend, false, [], []⟩, s.map, stash, ∅⟩

/-- **The crash** changes nothing but the stash, as long as the leaves are 64-bit numbers. -/
theorem disaster_triple {s : OramState (StorageFile A.capacity A.blockSize) (PositionArray mapCapacity)} (memory : Memory)
    (fresh : PositionArray mapCapacity) (hmap : ∀ leaf ∈ s.map, leaf < 2 ^ 64) {Q : Stash → Prop} {E : Exception → Prop}
    (hstash : Triple (fun stash => stash = s.stash) (remakeStash memory (toInt A.userBlockSize)) (fun _ => Q)
      (fun e _ => E e)) :
    Triple (fun s' => s' = s) (disaster A memory fresh) (fun _ s' => ∃ stash, Q stash ∧ s' = restored s stash)
      (fun e _ => E e) := by
  have hreopen : ∀ w, (Oram.onStorage (reopenStorage A)).exec w s =
      (.ok (), w, { s with storage := ⟨s.storage.backend, false, [], []⟩ }) := by
    intro w
    have hstorage : (reopenStorage A).exec w s.storage = (.ok (), w, ⟨s.storage.backend, false, [], []⟩) :=
      Prog.exec_bind_ok (construct_explicit A w s.storage)
    rw [Oram.onStorage, Prog.exec_zoom]
    change (((reopenStorage A).exec w s.storage).1, ((reopenStorage A).exec w s.storage).2.1,
      { s with storage := ((reopenStorage A).exec w s.storage).2.2 }) = _
    rw [hstorage]
  have hremake : ∀ w, (Oram.onMap (remakeMap fresh)).exec w { s with storage := ⟨s.storage.backend, false, [], []⟩ } =
      (.ok (), w, { s with storage := ⟨s.storage.backend, false, [], []⟩ }) := by
    intro w
    rw [Oram.onMap, Prog.exec_zoom]
    change (((remakeMap fresh).exec w s.map).1, ((remakeMap fresh).exec w s.map).2.1,
      { s with storage := ⟨s.storage.backend, false, [], []⟩, map := ((remakeMap fresh).exec w s.map).2.2 }) = _
    rw [remakeMap_exec hmap]
  have hrest := Triple.bind (f := fun _ => Prog.modify fun s' => { s' with cache := ∅ })
    (R := fun _ s' => ∃ stash, Q stash ∧ s' = restored s stash) ((Triple.zoom
      (OramState.stashLens (StorageFile A.capacity A.blockSize) (PositionArray mapCapacity)) hstash
      { s with storage := ⟨s.storage.backend, false, [], []⟩ }).conseq (fun s' h => ⟨h, by rw [h]; rfl⟩) (fun _ _ h => h)
      fun _ _ h => h.choose_spec.2) fun _ => Triple.modify (by
        rintro s' ⟨stash, rfl, hQ⟩
        exact ⟨stash, hQ, rfl⟩)
  rintro w s' rfl
  rw [disaster, Prog.exec_bind_ok (hreopen w), Prog.exec_bind_ok (hremake w)]
  exact hrest w _ rfl

/-! ## What the new ORAM answers -/

/-- from the state, runs that return reply like the map c -/
def Oram.AnswersLike {β μ : Type} (O : Oram β μ) (c : Contents) (s : OramState β μ) : Prop :=
  ∀ calls, (∀ call ∈ calls, call.Valid O) → ∀ replies, .ok replies ∈ (O.run calls).outcomes s → c.RepliesAll calls replies

/-- the new state holds what the old one did, and every further sequence of calls has the same outcomes from both, as it
does from the same logical map -/
structure Resumes {β μ : Type} (O : Oram β μ) (s s' : OramState β μ) : Prop where
  state : Twin s s'
  outcomes : ∀ calls, (O.attempts calls).outcomes s = (O.attempts calls).outcomes s'
  contents : ∀ c, O.AnswersLike c s ↔ O.AnswersLike c s'

/-- the crash returns, whatever the order of the tables, and leaves a state from which the ORAM goes on -/
def Recovers (O : Oram (StorageFile A.capacity A.blockSize) (PositionArray mapCapacity)) (memory : Memory)
    (fresh : PositionArray mapCapacity) (s : OramState (StorageFile A.capacity A.blockSize) (PositionArray mapCapacity)) :
    Prop :=
  Triple (fun s' => s' = s) (disaster A memory fresh) (fun _ s' => Resumes O s s') (fun _ _ => False)

/-- twins are alike for every caller -/
theorem Twin.resumes {β : Type} {O : Oram β (PositionArray mapCapacity)} (hmap : O.map = inMemoryPositionMap mapCapacity)
    (hb : O.storage.backend.Plain) {s s' : OramState β (PositionArray mapCapacity)} (h : Twin s s') : Resumes O s s' where
  state := h
  outcomes calls := attempts_outcomes hmap hb h calls
  contents c := by
    unfold Oram.AnswersLike
    simp only [run_outcomes hmap hb h]

/-! ## Histories -/

/-- the initial load, if there is one -/
def Oram.loadInitial {β μ : Type} (O : Oram β μ) : Option (List Block) → Run (OramState β μ) Unit
  | some data => do
    let _ ← O.load data
  | none => pure ()

/-- an ORAM that is constructed with `initialize`, loaded if there is an initial load, and called -/
def Oram.history {β μ : Type} (O : Oram β μ) (initial : Option (List Block)) (calls : List Call) :
    Run (OramState β μ) (List Reply) := do
  O.construct
  O.loadInitial initial
  O.run calls

/-- every payload of a history is as long as a block -/
structure FullHistory (n : ℕ) (initial : Option (List Block)) (calls : List Call) : Prop where
  initial : ∀ data, initial = some data → ∀ x ∈ data, FullBlock n x
  calls : ∀ call ∈ calls, call.FullPayloads n

/-- between the calls of a history nothing is cached and all payloads are as long as a block -/
theorem history_payloads {β : Type} {O : Oram β (PositionArray mapCapacity)}
    {L : LawfulBackend O.storage.backend O.storage.capacity O.storage.blockSize}
    (hmap : O.map = inMemoryPositionMap mapCapacity) (hdata : O.dataSize = O.storage.userBlockSize)
    (hc : O.storage.crypto.Lawful) {initial : Option (List Block)} {calls : List Call}
    (hfull : FullHistory O.storage.userBlockSize initial calls) :
    Triple (fun s => Fresh s ∧ ∀ leaf ∈ s.map, leaf < 2 ^ 64) (O.history initial calls)
      (fun _ s => s.cache = ∅ ∧ Payloads L s) (fun _ _ => True) := by
  apply (construct_payloads (L := L) hmap hc).bind
  intro _
  refine Triple.bind (Q := fun _ s => s.cache = ∅ ∧ Payloads L s) ?_ fun _ => run_payloads hmap hdata hc hfull.calls
  cases initial with
  | none => exact Triple.pure fun _ hs => hs
  | some data => exact (load_payloads hmap hc (hfull.initial data rfl)).bind fun _ => Triple.pure fun _ hs => hs

/-! ## The result -/

section Results

variable {s₀ s : OramState (StorageFile A.capacity A.blockSize) (PositionArray mapCapacity)} {w₀ w : World}
  {initial : Option (List Block)} {calls : List Call} {replies : List Reply}

/-- a state between calls whose stash fits into its file -/
theorem recovers_of_lt (hcache : s.cache = ∅)
    (hs : Payloads (O := fileOram A crypto mapCapacity stashCapacity height batchSize)
      (fileBackend_lawful A.capacity A.blockSize) s)
    (hfile : s.stash.size * (8 + A.userBlockSize) < 2 ^ 31) (memory : Memory) (fresh : PositionArray mapCapacity) :
    Recovers (fileOram A crypto mapCapacity stashCapacity height batchSize) memory fresh s := by
  refine (disaster_triple (E := fun _ => False) memory fresh hs.map (remakeStash_keeps hs.stash memory hfile)).post ?_
  rintro _ s' ⟨stash, hsame, rfl⟩
  exact Twin.resumes rfl (fileBackend_plain _ _) ⟨rfl, rfl, hsame, hcache⟩

/-- **When the crash is invisible.** An ORAM over a file, with an explicit key and an in-memory map and stash, is
constructed, loaded if there is an initial load, and called, with payloads as long as a block, and nothing throws. Then
the ORAM that is made again from the files has the same state and answers every further sequence of calls as the old one,
whatever the choices of the hash tables and of the random generator, if and only if the file of the stash has less than
2^31 bytes. -/
theorem recovers_iff (hc : crypto.Lawful) (hfresh : Fresh s₀) (hleaves : ∀ leaf ∈ s₀.map, leaf < 2 ^ 64)
    (hfull : FullHistory A.userBlockSize initial calls)
    (hrun : ((fileOram A crypto mapCapacity stashCapacity height batchSize).history initial calls).exec w₀ s₀ =
      (.ok replies, w, s)) (memory : Memory) (fresh : PositionArray mapCapacity) :
    Recovers (fileOram A crypto mapCapacity stashCapacity height batchSize) memory fresh s ↔
      s.stash.size * (8 + A.userBlockSize) < 2 ^ 31 := by
  obtain ⟨hcache, hs⟩ := (history_payloads (O := fileOram A crypto mapCapacity stashCapacity height batchSize)
    (L := fileBackend_lawful A.capacity A.blockSize) rfl rfl hc hfull).ok ⟨hfresh, hleaves⟩ hrun
  refine ⟨fun hrecovers => ?_, fun hfile => recovers_of_lt hcache hs hfile memory fresh⟩
  by_contra hlarge
  have hdiffers := disaster_triple (E := fun _ => True) memory fresh hs.map
    (remakeStash_differs hs.stash memory (not_lt.1 hlarge)) w s rfl
  have hresumes := hrecovers w s rfl
  rcases hexec : (disaster A memory fresh).exec w s with ⟨e | _, w', s'⟩
  · rw [hexec] at hresumes
    exact hresumes
  · rw [hexec] at hresumes hdiffers
    obtain ⟨stash, hne, rfl⟩ := hdiffers
    exact hne hresumes.state.stash

/-- On the tiny ORAM, with one block loaded and another put: one of them is in the stash, and the crash is invisible. -/
theorem recovers_iff_tiny : ∃ s, s.stash.size = 1 ∧
    ∀ memory fresh, Recovers (fileOram tinyStorage plainCrypto 2 6 1 4) memory fresh s := by
  have hfull : FullHistory tinyStorage.userBlockSize (some [(1, List.replicate 32 5)]) [.put 0 (List.replicate 32 7)] := by
    refine ⟨fun data hdata x hx => ?_, fun call hcall op hop => ?_⟩
    · rw [← Option.some.inj hdata, List.mem_singleton] at hx
      rw [hx]
      exact ⟨by norm_num, rfl⟩
    · rw [List.mem_singleton.1 hcall] at hop
      rw [List.mem_singleton.1 hop]
      exact ⟨by norm_num, fun _ => rfl⟩
  set run := ((fileOram tinyStorage plainCrypto 2 6 1 4).history (some [(1, List.replicate 32 5)])
    [.put 0 (List.replicate 32 7)]).exec zeroWorld (emptyFile tinyStorage 2) with hrun
  have hreturned : run.1 = .ok [.done] := by
    rw [hrun]
    decide +kernel
  have hsize : run.2.2.stash.size = 1 := by
    rw [hrun]
    decide +kernel
  clear_value run
  refine ⟨run.2.2, hsize, fun memory fresh => (recovers_iff plainCrypto_lawful (emptyFile_fresh tinyStorage 2)
    (emptyFile_map tinyStorage 2) hfull (hrun.symm.trans (Prod.ext hreturned rfl)) memory fresh).2 ?_⟩
  rw [hsize]
  decide

/-- what a history holds -/
def contentsAfter (initial : Option (List Block)) (calls : List Call) : Contents :=
  (Contents.after (fun _ => none) (puts (initial.getD []))).after (calls.flatMap Call.ops)

/-- a history of an ORAM of exact sizes -/
theorem history_triple {β μ : Type} {O : Oram β μ} (L : LawfulOram O) (hsmall : O.Small)
    (hinitial : ∀ data, initial = some data →
      O.height ≤ 30 ∧ LawfulOram.Loadable O data ∧ O.bucketCount data < 2 ^ O.height)
    (hcalls : ∀ call ∈ calls, call.Valid O) :
    Triple L.Fresh (O.history initial calls) (fun _ => L.HoldsOnce (contentsAfter initial calls))
      (fun e _ => L.Stops calls e) := by
  apply ((LawfulOram.construct_triple L).conseq (fun _ h => h) (fun _ _ h => h) fun _ _ he => Or.inl he).bind
  intro _
  refine Triple.bind (Q := fun _ => L.HoldsOnce (Contents.after (fun _ => none) (puts (initial.getD [])))) ?_ fun _ =>
    (LawfulOram.run_triple hsmall hcalls).post fun _ _ hs => hs.2
  cases initial with
  | none => exact Triple.pure fun _ hs => hs
  | some data =>
    obtain ⟨hh, hd, hcount⟩ := hinitial data rfl
    have hload := (LawfulOram.load_triple L hh hd hcount).conseq (fun _ h => h) (fun _ _ h => h) fun e s he =>
      (Or.inl he : L.Stops calls e)
    exact hload.bind fun _ => Triple.pure fun _ hs => hs

/-- **The same map.** At the sizes at which an ORAM is a map, the ORAM that is made again from the files replies to every
sequence of calls that returns like the map of what was loaded and put before the crash. -/
theorem restart_answers (h : Sizes A crypto mapCapacity height) (hsmall : 2 ^ height * A.Z ≤ 2 ^ 31) (hfresh : Fresh s₀)
    (hleaves : ∀ leaf ∈ s₀.map, leaf < 2 ^ 64) (hfull : FullHistory A.userBlockSize initial calls)
    (hinitial : ∀ data, initial = some data → height ≤ 30 ∧
      LawfulOram.Loadable (fileOram A crypto mapCapacity stashCapacity height batchSize) data ∧
      (fileOram A crypto mapCapacity stashCapacity height batchSize).bucketCount data < 2 ^ height)
    (hcalls : ∀ call ∈ calls, call.Valid (fileOram A crypto mapCapacity stashCapacity height batchSize))
    (hrun : ((fileOram A crypto mapCapacity stashCapacity height batchSize).history initial calls).exec w₀ s₀ =
      (.ok replies, w, s)) (hfile : s.stash.size * (8 + A.userBlockSize) < 2 ^ 31) (memory : Memory)
    (fresh : PositionArray mapCapacity) :
    Triple (fun s' => s' = s) (disaster A memory fresh)
      (fun _ s' => (fileOram A crypto mapCapacity stashCapacity height batchSize).AnswersLike (contentsAfter initial calls) s')
      (fun _ _ => False) := by
  obtain ⟨hcache, hs⟩ := (history_payloads (O := fileOram A crypto mapCapacity stashCapacity height batchSize)
    (L := fileBackend_lawful A.capacity A.blockSize) rfl rfl h.crypto hfull).ok ⟨hfresh, hleaves⟩ hrun
  set L := arrayOram_lawful (S := fileStorage A crypto) h (fileBackend_lawful A.capacity A.blockSize) stashCapacity batchSize
    with hL
  have hholds := (history_triple L hsmall hinitial hcalls).ok (arrayOram_fresh (S := fileStorage A crypto) h
    (fileBackend_lawful A.capacity A.blockSize) stashCapacity batchSize hfresh) hrun
  have hanswers : (fileOram A crypto mapCapacity stashCapacity height batchSize).AnswersLike (contentsAfter initial calls) s := by
    rintro calls hvalid replies ⟨w, hout⟩
    exact ((LawfulOram.run_triple (L := L) hsmall hvalid).ok hholds (Prog.exec_eq hout)).1
  exact (recovers_of_lt hcache hs hfile memory fresh).post fun _ s' h => (h.contents _).1 hanswers

end Results

end

/-! ## A stash that is too large -/

namespace LawfulOram

variable {β μ : Type} {O : Oram β μ} {L : LawfulOram O} {c : Contents} {s : OramState β μ}

/-- what the tree has no room for is in the stash -/
theorem card_le_size (hs : L.HoldsOnce c s) (ids : Finset ℕ) (hids : ∀ id ∈ ids, c id ≠ none) :
    ids.card ≤ s.stash.size + (2 ^ O.height - 1) * O.Z := by
  obtain ⟨v, hv, -, -, hs⟩ := hs
  set buckets := (List.range' 1 (2 ^ O.height - 1)).flatMap fun ℓ => realIds (v.tree ℓ) with hbuckets
  have hcovered : ids ⊆ s.stash.keySet ∪ buckets.toFinset := by
    intro id hid
    obtain ⟨p, hp⟩ := Option.ne_none_iff_exists'.1 (hids id hid)
    rw [Finset.mem_union, UnorderedMap.mem_keySet, List.mem_toFinset]
    rcases hv.copy id p hp with ⟨d, hd⟩ | ⟨ℓ, x, hx, rfl⟩
    · exact Or.inl (UnorderedMap.mem_iff_lookup.2 ⟨d, (congrFun hs.stash id).symm.trans hd⟩)
    · have hlt := hv.id_lt _ p hp
      have hne := ne_ulongMax L hlt
      obtain ⟨hone, hle⟩ := mem_path_lt (hv.pos_lt _ hlt) (hv.tree_path ℓ x hx hne)
      refine Or.inr (List.mem_flatMap.2 ⟨ℓ, List.mem_range'_1.2 ⟨hone, by omega⟩, (mem_realIds hne).2 ⟨x, hx, rfl⟩⟩)
  have hlength : buckets.length ≤ (2 ^ O.height - 1) * O.Z := by
    rw [hbuckets, List.length_flatMap]
    refine (List.sum_le_card_nsmul _ O.Z fun n hn => ?_).trans (by rw [List.length_map, List.length_range', smul_eq_mul])
    obtain ⟨ℓ, hℓ, rfl⟩ := List.mem_map.1 hn
    have hlt : ℓ < O.storage.capacity := by
      have hcapacity := L.capacity_ge
      have hrange := List.mem_range'_1.1 hℓ
      omega
    rw [realIds, List.length_map]
    exact (List.length_filter_le _ _).trans (hv.bucket_length ℓ hlt).le
  calc ids.card ≤ (s.stash.keySet ∪ buckets.toFinset).card := Finset.card_le_card hcovered
    _ ≤ s.stash.keySet.card + buckets.toFinset.card := Finset.card_union_le _ _
    _ ≤ s.stash.size + (2 ^ O.height - 1) * O.Z := by
      rw [UnorderedMap.card_keySet]
      exact Nat.add_le_add_left ((List.toFinset_card_le buckets).trans hlength) _

/-- **A crash that loses the stash** leaves an ORAM that holds everything else. -/
theorem HoldsOnce.restored_empty (hs : L.HoldsOnce c s) :
    L.HoldsOnce (fun k => if k ∈ s.stash then none else c k) (restored s ∅) := by
  obtain ⟨v, hv, hu, hcached, hs⟩ := hs
  obtain ⟨hempty, hdecode⟩ := hs.decode hcached
  have hstash : ∀ k, k ∈ s.stash ↔ ∃ d, v.stash k = some d := fun k => by
    rw [UnorderedMap.mem_iff_lookup, hs.stash]
  -- a block of the tree is not in the stash
  have hkept : ∀ {ℓ x}, x ∈ v.tree ℓ → x.1 ∉ s.stash := by
    intro ℓ x hx hmem
    obtain ⟨d, hd⟩ := (hstash _).1 hmem
    exact hu.stash _ d hd ℓ x hx rfl
  have hinv : Inv O (fun k => if k ∈ s.stash then none else c k) { v with stash := fun _ => none, calls := [] } :=
    { hv with
      stash_id := fun k d hd => by cases hd
      stash_data := fun k d hd => by cases hd
      stash_good := fun k d hd => by cases hd
      tree_good := fun ℓ x hx hne => by
        obtain ⟨p, hp, hpad⟩ := hv.tree_good ℓ x hx hne
        exact ⟨p, (if_neg (hkept hx)).trans hp, hpad⟩
      id_lt := fun k p hp => by
        split_ifs at hp
        exact hv.id_lt k p hp
      copy := fun k p hp => by
        split_ifs at hp with hk
        exact Or.inr ((hv.copy k p hp).resolve_left fun h => hk ((hstash k).2 h)) }
  have hunique : Unique { v with stash := fun _ => none, calls := [] } := { hu with stash := fun k d hd => by cases hd }
  refine ⟨_, hinv, hunique, hcached, hs.map, rfl, ?_, ?_⟩
  · obtain ⟨store, hstore, htree⟩ := hs.tree
    refine ⟨store, ⟨hstore.1, hstore.2.1, rfl⟩, ?_⟩
    change v.tree = _
    rw [htree, hempty]
    rfl
  · change v.cached = _
    rw [hcached]
    funext ℓ
    exact (decide_eq_false (AList.notMem_empty ℓ)).symm

end LawfulOram

section

variable {β : Type} {mapCapacity : ℕ} {O : Oram β (PositionArray mapCapacity)} {L : LawfulOram O} {c : Contents}
  {s : OramState β (PositionArray mapCapacity)}

/-- **A lost block.** If the stash that is lost has a block with a payload, the ORAM that is left does not answer like the
map. -/
theorem LawfulOram.not_answersLike_restored (hL : L.OnArray) (hsmall : O.Small) (hfault : ∀ e, ¬ L.storage.fault e)
    (hroom : 2 ^ O.height * O.Z + O.height * O.Z + 1 ≤ O.stash.capacity) (hs : L.HoldsOnce c s) {id : ℕ} (hid : id ∈ s.stash)
    (hpayload : c id ≠ some []) : ¬ O.AnswersLike c (restored s ∅) := by
  intro hanswers
  obtain ⟨p, hp, hlt⟩ : ∃ p, c id = some p ∧ id < 2 ^ O.height * O.Z := by
    obtain ⟨v, hv, -, -, hsees⟩ := hs
    obtain ⟨d, hd⟩ := UnorderedMap.mem_iff_lookup.1 hid
    obtain ⟨p, hp, -⟩ := hv.stash_good id d ((congrFun hsees.stash id).trans hd)
    exact ⟨p, hp, hv.id_lt id p hp⟩
  have hop : Op.Valid O ⟨true, id, []⟩ := ⟨hlt, Nat.zero_le _⟩
  have hvalid : ∀ call ∈ [Call.get id], call.Valid O := by
    intro call hcall
    rw [List.mem_singleton.1 hcall]
    exact ⟨fun op hm => List.mem_singleton.1 hm ▸ hop, Nat.zero_le _⟩
  have hlost := hs.restored_empty
  obtain ⟨replies, hreplies⟩ := run_returns (w := zeroWorld) hL hsmall hlost hfault hroom hvalid
    fun call hcall => ⟨⟨true, id, []⟩, by rw [List.mem_singleton.1 hcall]; exact ⟨rfl, rfl⟩⟩
  -- the block is not found, although the map has it
  obtain ⟨hnothing, -⟩ := (run_triple hsmall hvalid).ok hlost (Prog.exec_eq hreplies)
  have hfound := hanswers _ hvalid replies ⟨zeroWorld, hreplies⟩
  match replies, hnothing, hfound with
  | .got r :: _, hnothing, hfound =>
    have hr : r = [] := by
      have hmissing := hnothing.1
      simp only [Contents.Replies, Contents.Answers, if_pos hid] at hmissing
      exact hmissing
    have hpadded : ZeroPadded p r := by
      have hanswer := hfound.1
      simp only [Contents.Replies, Contents.Answers, hp] at hanswer
      exact hanswer
    obtain ⟨k, hk⟩ := hpadded
    rw [hr] at hk
    exact hpayload (hp.trans (congrArg some (List.append_eq_nil_iff.1 hk.symm).1))

end

section Losses

variable {A : AbsStorageAdapter} {crypto : Crypto} {mapCapacity stashCapacity height batchSize : ℕ}
  {s₀ s : OramState (StorageFile A.capacity A.blockSize) (PositionArray mapCapacity)} {w₀ w : World} {calls : List Call}
  {replies : List Reply}

/-- **An ORAM over a file** whose stash has room for all blocks never throws, and answers like the map. -/
theorem history_returns (h : Sizes A crypto mapCapacity height) (hsmall : 2 ^ height * A.Z ≤ 2 ^ 31) (w₀ : World)
    (hfresh : Fresh s₀) (hroom : 2 ^ height * A.Z + height * A.Z + 1 ≤ stashCapacity)
    (hcalls : ∀ call ∈ calls, call.Valid (fileOram A crypto mapCapacity stashCapacity height batchSize))
    (hone : ∀ call ∈ calls, ∃ op, call.ops = [op] ∧ call.batch = []) :
    ∃ replies w s, ((fileOram A crypto mapCapacity stashCapacity height batchSize).history none calls).exec w₀ s₀ =
        (.ok replies, w, s) ∧
      (fileOram A crypto mapCapacity stashCapacity height batchSize).AnswersLike (contentsAfter none calls) s ∧
      (arrayOram_lawful (S := fileStorage A crypto) h (fileBackend_lawful A.capacity A.blockSize) stashCapacity
        batchSize).HoldsOnce (contentsAfter none calls) s := by
  set O := fileOram A crypto mapCapacity stashCapacity height batchSize
  set L := arrayOram_lawful (S := fileStorage A crypto) h (fileBackend_lawful A.capacity A.blockSize) stashCapacity batchSize
  have hL : L.OnArray := arrayOram_onArray (S := fileStorage A crypto) h (fileBackend_lawful A.capacity A.blockSize)
    stashCapacity batchSize
  have hstart : L.Fresh s₀ := arrayOram_fresh (S := fileStorage A crypto) h (fileBackend_lawful A.capacity A.blockSize)
    stashCapacity batchSize hfresh
  -- neither the file nor the array throws
  obtain ⟨w₁, s₁, hconstruct⟩ : ∃ w₁ s₁, O.construct.exec w₀ s₀ = (.ok (), w₁, s₁) := by
    rcases hexec : O.construct.exec w₀ s₀ with ⟨e | u, w₁, s₁⟩
    · exact ((LawfulOram.construct_faults L).error hstart hexec).elim False.elim False.elim
    · exact ⟨w₁, s₁, rfl⟩
  obtain ⟨replies, hreplies⟩ := LawfulOram.run_returns (w := w₁) hL hsmall
    ((LawfulOram.construct_triple L).ok hstart hconstruct) (fun _ hfault => hfault) hroom hcalls hone
  have hhistory : (O.history none calls).exec w₀ s₀ = (.ok replies, _, _) :=
    (Prog.exec_bind_ok hconstruct).trans (Prog.exec_eq hreplies)
  have hholds := (history_triple L hsmall (fun _ hnone => (Option.some_ne_none _ hnone.symm).elim) hcalls).ok hstart hhistory
  refine ⟨replies, _, _, hhistory, fun calls hvalid replies hout => ?_, hholds⟩
  obtain ⟨w, hout⟩ := hout
  exact ((LawfulOram.run_triple (L := L) hsmall hvalid).ok hholds (Prog.exec_eq hout)).1

/-- **A lost stash.** If the stash has a block, and the size of its file comes out as less than one record, then after the
crash the ORAM does not answer like the map, or the crash has thrown. -/
theorem not_answersLike_of_short (h : Sizes A crypto mapCapacity height) (hsmall : 2 ^ height * A.Z ≤ 2 ^ 31)
    (hfresh : Fresh s₀) (hleaves : ∀ leaf ∈ s₀.map, leaf < 2 ^ 64)
    (hroom : 2 ^ height * A.Z + height * A.Z + 1 ≤ stashCapacity) (hfull : FullHistory A.userBlockSize none calls)
    (hrun : ((fileOram A crypto mapCapacity stashCapacity height batchSize).history none calls).exec w₀ s₀ =
      (.ok replies, w, s))
    (hholds : (arrayOram_lawful (S := fileStorage A crypto) h (fileBackend_lawful A.capacity A.blockSize) stashCapacity
      batchSize).HoldsOnce (contentsAfter none calls) s)
    (hpayloads : ∀ id, contentsAfter none calls id ≠ some []) (hblock : 0 < s.stash.size)
    (hshort : toInt (s.stash.size * (8 + A.userBlockSize)) < 8 + toInt A.userBlockSize) (memory : Memory)
    (fresh : PositionArray mapCapacity) :
    ¬ Triple (fun s' => s' = s) (disaster A memory fresh)
      (fun _ s' => (fileOram A crypto mapCapacity stashCapacity height batchSize).AnswersLike (contentsAfter none calls) s')
      (fun _ _ => False) := by
  intro hanswers
  obtain ⟨-, hs⟩ := (history_payloads (O := fileOram A crypto mapCapacity stashCapacity height batchSize)
    (L := fileBackend_lawful A.capacity A.blockSize) rfl rfl h.crypto hfull).ok ⟨hfresh, hleaves⟩ hrun
  have hlost := disaster_triple memory fresh hs.map (remakeStash_loses hs.stash memory hshort) w s rfl
  have hreturned := hanswers w s rfl
  rcases hexec : (disaster A memory fresh).exec w s with ⟨e | _, w', s'⟩
  · rw [hexec] at hreturned
    exact hreturned
  rw [hexec] at hlost hreturned
  obtain ⟨_, rfl, rfl⟩ := hlost
  rw [← UnorderedMap.card_keySet, Finset.card_pos] at hblock
  obtain ⟨id, hid⟩ := hblock
  exact LawfulOram.not_answersLike_restored (arrayOram_onArray (S := fileStorage A crypto) h
    (fileBackend_lawful A.capacity A.blockSize) stashCapacity batchSize) hsmall (fun _ hfault => hfault) hroom hholds
    (UnorderedMap.mem_keySet.1 hid) (hpayloads id) hreturned

end Losses

/-- two buckets of two blocks of 2^30 bytes -/
def bigStorage : AbsStorageAdapter :=
  ⟨List.replicate 32 0, 2, 0, 2, 2 ^ 30, zeroKey_length, by norm_num [aesBlockSize], by norm_num [aesBlockSize], two_slots⟩

/-- four IDs, of which the only bucket of the tree has room for two -/
def bigOram : Oram (StorageFile bigStorage.capacity bigStorage.blockSize) (PositionArray 4) :=
  fileOram bigStorage plainCrypto 4 7 1 4

theorem big_sizes : Sizes bigStorage plainCrypto 4 1 :=
  ⟨by decide, by decide, by decide, by decide, by decide, plainCrypto_lawful⟩

/-- a put of each ID -/
def fourPuts (data : Bytes) : List Call := (List.range 4).map fun id => .put id data

theorem of_mem_fourPuts {data : Bytes} {call : Call} (h : call ∈ fourPuts data) : ∃ id < 4, call = .put id data := by
  obtain ⟨id, hid, rfl⟩ := List.mem_map.1 h
  exact ⟨id, List.mem_range.1 hid, rfl⟩

theorem contentsAfter_fourPuts (data : Bytes) (id : ℕ) :
    contentsAfter none (fourPuts data) id = if id < 4 then some data else none := by
  split_ifs with hid
  · interval_cases id <;> rfl
  · simp only [contentsAfter, fourPuts, puts, List.range, List.range.loop, List.map_cons, List.map_nil, List.flatMap_cons,
      List.flatMap_nil, Option.getD_none, Call.ops, List.append_nil, List.cons_append, List.nil_append, Contents.after_nil,
      Contents.after_cons]
    iterate 4 rw [Contents.apply_of_ne _ _ (by dsimp only; omega)]

theorem big_history {data : Bytes} (hdata : data.length = 2 ^ 30) :
    FullHistory bigStorage.userBlockSize none (fourPuts data) ∧ ∀ call ∈ fourPuts data, call.Valid bigOram := by
  refine ⟨⟨fun _ h => (Option.some_ne_none _ h.symm).elim, fun call hcall => ?_⟩, fun call hcall => ?_⟩
  · obtain ⟨id, hid, rfl⟩ := of_mem_fourPuts hcall
    intro op hop
    rw [List.mem_singleton.1 hop]
    exact ⟨hid.trans (by norm_num), fun _ => hdata⟩
  · obtain ⟨id, hid, rfl⟩ := of_mem_fourPuts hcall
    refine ⟨fun op hop => ?_, Nat.zero_le _⟩
    rw [List.mem_singleton.1 hop]
    exact ⟨hid, hdata.le⟩

/-- Four blocks of 2^30 bytes are put into a tree that has room for two of them. The ORAM answers like the map of the four
payloads. After the crash it does not, or the crash has not returned: the file of two or three blocks has a negative size
as an `int`, and the one of four blocks a size of 32. -/
theorem disaster_loses : ∃ replies w s,
    FullHistory bigStorage.userBlockSize none (fourPuts (List.replicate (2 ^ 30) 7)) ∧
    (bigOram.history none (fourPuts (List.replicate (2 ^ 30) 7))).exec zeroWorld (emptyFile bigStorage 4) =
      (.ok replies, w, s) ∧
    bigOram.AnswersLike (contentsAfter none (fourPuts (List.replicate (2 ^ 30) 7))) s ∧
    ∀ memory fresh, ¬ Triple (fun s' => s' = s) (disaster bigStorage memory fresh)
      (fun _ s' => bigOram.AnswersLike (contentsAfter none (fourPuts (List.replicate (2 ^ 30) 7))) s')
      (fun _ _ => False) := by
  have hdata : (List.replicate (2 ^ 30) (7 : UInt8)).length = 2 ^ 30 := List.length_replicate
  generalize List.replicate (2 ^ 30) (7 : UInt8) = data at hdata
  obtain ⟨hfull, hvalid⟩ := big_history hdata
  obtain ⟨replies, w, s, hrun, hanswers, hholds⟩ := history_returns big_sizes (by decide) zeroWorld
    (emptyFile_fresh bigStorage 4) (by decide) hvalid fun call hcall => by
      obtain ⟨id, -, rfl⟩ := of_mem_fourPuts hcall
      exact ⟨_, rfl, rfl⟩
  refine ⟨replies, w, s, hfull, hrun, hanswers, fun memory fresh => ?_⟩
  -- at least two of the four blocks are in the stash
  have htwo : 4 ≤ s.stash.size + (2 ^ 1 - 1) * 2 := by
    have hcard := LawfulOram.card_le_size hholds (Finset.range 4) fun id hid => by
      rw [contentsAfter_fourPuts data id, if_pos (Finset.mem_range.1 hid)]
      exact Option.some_ne_none _
    rwa [Finset.card_range] at hcard
  have hfour : s.stash.size ≤ 2 ^ 1 * 2 := LawfulOram.size_le_blocks hholds
  refine not_answersLike_of_short big_sizes (by decide) (emptyFile_fresh bigStorage 4) (emptyFile_map bigStorage 4) (by decide)
    hfull hrun hholds (fun id hid => ?_) (by omega) ?_ memory fresh
  · rw [contentsAfter_fourPuts] at hid
    split_ifs at hid
    have hnil : data = [] := Option.some.inj hid
    rw [hnil] at hdata
    norm_num at hdata
  · change toInt (s.stash.size * (8 + 2 ^ 30)) < 8 + toInt (2 ^ 30)
    generalize s.stash.size = n at htwo hfour
    unfold toInt
    have : n = 2 ∨ n = 3 ∨ n = 4 := by omega
    rcases this with rfl | rfl | rfl <;> norm_num [Int.bmod]

end PathOram
