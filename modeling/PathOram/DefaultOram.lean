/-
The constructor with three arguments (`oram.cpp`).

It gives the array of the map 2^logCapacity * Z + Z entries and initialises the first 2^logCapacity * Z of them. The last Z
IDs pass the check of the map and find what was in the array when it was allocated.

- `default_led_iff`: **a run is led to buckets of the tree if and only if the IDs that the map accepts are below
  2^logCapacity * Z, or find leaves in the array that was allocated.**
- `default_strays`: the first ID past the blocks, with an entry that is no leaf.
-/
import PathOram.AcceptedIds

namespace PathOram

open Lib

variable {A : AbsStorageAdapter} {crypto : Crypto} {logCapacity : ℕ}

/-- the storage of the constructor, which draws a key because it is given none of the right length -/
def defaultStorage {σ : Type} (logCapacity blockSize Z : ℕ) : Run σ AbsStorageAdapter :=
  AbsStorageAdapter.construct (shlOne logCapacity) blockSize [] Z 0

def defaultMapCapacity (logCapacity Z : ℕ) : ℕ := (shlOne logCapacity * Z + Z) % 2 ^ 64

def defaultStashCapacity (logCapacity Z : ℕ) : ℕ := 3 * logCapacity * Z % 2 ^ 64

/-- the ORAM of the constructor, over a storage that has its Z and its block size, and with the default size of a batch -/
def defaultOram (A : AbsStorageAdapter) (crypto : Crypto) (logCapacity : ℕ) :
    Oram (BlockArray A.capacity A.blockSize) (PositionArray (defaultMapCapacity logCapacity A.Z)) :=
  inMemoryOram A crypto (defaultMapCapacity logCapacity A.Z) (defaultStashCapacity logCapacity A.Z) logCapacity 1

/-- what the constructor of a storage returns has its arguments -/
theorem construct_args {σ : Type} (capacity userBlockSize : ℕ) (key : Bytes) (Z batchLimit : ℕ) {P : σ → Prop}
    {E : Exception → σ → Prop} (hE : ∀ e s, E e s) :
    Triple P (AbsStorageAdapter.construct capacity userBlockSize key Z batchLimit)
      (fun A _ => A.capacity = capacity ∧ A.userBlockSize = userBlockSize ∧ A.Z = Z ∧ A.batchLimit = batchLimit) E := by
  unfold AbsStorageAdapter.construct
  extract_lets checks
  have hchecks : ∀ key, Triple P (checks key)
      (fun A _ => A.capacity = capacity ∧ A.userBlockSize = userBlockSize ∧ A.Z = Z ∧ A.batchLimit = batchLimit) E := by
    intro key
    unfold checks
    split_ifs
    · exact Triple.throw fun s _ => hE _ s
    · exact Triple.throw fun s _ => hE _ s
    · exact Triple.throw fun s _ => hE _ s
    · exact Triple.pure fun _ _ => ⟨rfl, rfl, rfl, rfl⟩
  split_ifs
  · exact Triple.bind (Q := fun _ => P) (Triple.pure fun _ hs => hs) hchecks
  · exact (getRandomBlock_triple _).bind hchecks

/-- the sizes of the constructor, where the shifts do not leave the range of an `int` -/
theorem default_sizes (hpos : 1 ≤ logCapacity) (hle : logCapacity ≤ 30) (hsize : 2 ^ logCapacity * A.Z ≤ 2 ^ 31)
    (hcapacity : A.capacity = shlOne logCapacity) (hc : crypto.Lawful) :
    Sizes A crypto (defaultMapCapacity logCapacity A.Z) logCapacity := by
  have hshift : shlOne logCapacity = 2 ^ logCapacity := shlOne_of_le hle
  have hZ : A.Z ≤ 2 ^ 31 := (Nat.le_mul_of_pos_left _ (Nat.two_pow_pos _)).trans hsize
  refine ⟨hpos, by omega, by omega, by rw [hcapacity, hshift], ?_, hc⟩
  rw [defaultMapCapacity, hshift, Nat.mod_eq_of_lt (by omega)]
  exact Nat.le_add_right _ _

/-- the construction leaves the entries past the blocks alone -/
theorem construct_entries {β : Type} {S : StorageAdapter β} {mapCapacity height : ℕ} (stashCapacity batchSize : ℕ)
    (h : Sizes S.toAbsStorageAdapter S.crypto mapCapacity height) (L : LawfulBackend S.backend S.capacity S.blockSize)
    (entries : PositionArray mapCapacity) {E : Exception → OramState β (PositionArray mapCapacity) → Prop} (hE : ∀ e s, E e s) :
    Triple (fun s => ∀ id, 2 ^ height * S.Z ≤ id → s.map[id]? = entries[id]?)
      (arrayOram S mapCapacity stashCapacity height batchSize).construct
      (fun _ s => ∀ id, 2 ^ height * S.Z ≤ id → s.map[id]? = entries[id]?) E := by
  unfold Oram.construct
  refine Triple.bind (Q := fun _ s => ∀ id, 2 ^ height * S.Z ≤ id → s.map[id]? = entries[id]?) ?_ fun _ => ?_
  · exact (onStorage_keeps (fun _ _ hs => hs) _).conseq (fun _ hs => hs) (fun _ _ hs => hs) fun e s _ => hE e s
  · refine Triple.forM (fun _ (s : OramState β (PositionArray mapCapacity)) =>
      ∀ id, 2 ^ height * S.Z ≤ id → s.map[id]? = entries[id]?) fun i rest hm => ?_
    have hi : i < 2 ^ height * S.Z := by
      have hi := List.mem_range.1 (hm.subset List.mem_cons_self)
      rwa [(arrayOram_lawful h L stashCapacity batchSize).blocks_eq] at hi
    apply (getRandomULong_triple shlOne_pos).bind
    intro leaf
    apply Triple.of_pure
    intro _ w s hs
    change Outcome _ _ (Prog.exec (Oram.onMap ((inMemoryPositionMap mapCapacity).set i leaf)) w s)
    rw [Oram.onMap, Prog.exec_zoom, exec_arraySet]
    split_ifs
    · exact hE _ _
    · intro id hid
      change (s.map.setIfInBounds i leaf)[id]? = _
      rw [Vector.getElem?_setIfInBounds_ne (by omega)]
      exact hs id hid

/-- an ORAM that is built is within the guard of the tree -/
theorem construct_inTree {β : Type} {S : StorageAdapter β} {mapCapacity stashCapacity height batchSize : ℕ}
    (h : Sizes S.toAbsStorageAdapter S.crypto mapCapacity height) (L : LawfulBackend S.backend S.capacity S.blockSize)
    {w₀ w₁ : World} {s₀ s₁ : OramState β (PositionArray mapCapacity)} (hfresh : Fresh s₀)
    (hconstruct : (arrayOram S mapCapacity stashCapacity height batchSize).construct.exec w₀ s₀ = (.ok (), w₁, s₁)) :
    (treeGuard L height s₁.storage.calls.length s₀.map).Holds s₁ := by
  have hmapCapacity := h.mapCapacity_ge
  obtain ⟨o, ho, hnone⟩ := (LawfulOram.construct_outlined (arrayOram_lawful h L stashCapacity batchSize)).ok
    (arrayOram_fresh h L stashCapacity batchSize hfresh) hconstruct
  have hentries := (construct_entries stashCapacity batchSize h L s₀.map
    (E := fun _ _ => True) fun _ _ => trivial).ok (fun _ _ => rfl) hconstruct
  obtain ⟨mapCalls, p, hp, hpos⟩ := ho.map
  have hempty : ∀ ℓ, ℓ ∉ s₁.cache := fun ℓ => of_decide_eq_false (congrFun (hnone.symm.trans ho.cached) ℓ).symm
  have hown : ∀ {id}, (arrayOram S mapCapacity stashCapacity height batchSize).OwnId id → id = ulongMax ∨ id < mapCapacity :=
    fun hid => hid.imp_right fun hid => hid.trans_le hmapCapacity
  refine ⟨⟨fun ℓ hℓ => ?_, le_refl _, fun call hcall => ?_⟩, fun id hid => ⟨fun hproper => ?_, fun hproper => ?_⟩,
    fun k d hd => ?_, fun ℓ hℓ => absurd hℓ (hempty ℓ), fun ℓ b hb => ?_⟩
  · obtain ⟨b, hdec, hlen, hids⟩ := ho.storage_id ℓ hℓ
    exact ⟨b, hdec, hlen, fun x hx => hown (hids x hx)⟩
  · rw [List.drop_length] at hcall
    exact absurd hcall List.not_mem_nil
  · by_cases hblock : id < 2 ^ height * S.Z
    · exact ⟨o.pos id, ho.pos_lt id hblock, hp _ _ hblock (hpos _ hblock)⟩
    · rw [hentries id (not_lt.1 hblock)]
      exact hproper.resolve_left hblock
  · exact hentries id (not_lt.1 fun hblock => hproper (Or.inl hblock))
  · exact (ho.stash_id k (UnorderedMap.mem_iff_lookup.2 ⟨d, hd⟩)).trans_le hmapCapacity
  · exact absurd (UnorderedMap.mem_iff_lookup.2 ⟨b, hb⟩) (hempty ℓ)

/-! ## Runs -/

/-- **Accepted IDs and the tree.** After the constructor, for every world and whatever was in the arrays, and whatever is
called. -/
theorem default_led_iff {blockSize Z : ℕ} (hpos : 1 ≤ logCapacity) (hle : logCapacity ≤ 30) (hsize : 2 ^ logCapacity * Z ≤ 2 ^ 31)
    (hc : crypto.Lawful) {w w₀ : World}
    (hA : (defaultStorage logCapacity blockSize Z : Run Unit AbsStorageAdapter).exec w () = (.ok A, w₀, ()))
    {s₀ : OramState (BlockArray A.capacity A.blockSize) (PositionArray (defaultMapCapacity logCapacity A.Z))} (hfresh : Fresh s₀)
    (hentries : ∀ entry ∈ s₀.map, entry < 2 ^ 64) (calls : List Call) :
    ∃ w₁ s₁ outcomes w₂ s₂, (defaultOram A crypto logCapacity).construct.exec w₀ s₀ = (.ok (), w₁, s₁) ∧
      ((defaultOram A crypto logCapacity).attempts calls).exec w₁ s₁ = (.ok outcomes, w₂, s₂) ∧
      (LedToTree (defaultOram A crypto logCapacity) s₁.storage.calls.length calls outcomes s₂ ↔
        AcceptsProper (defaultOram A crypto logCapacity) s₀.map calls) := by
  obtain ⟨hcapacity, -, rfl, -⟩ := (construct_args (P := fun _ => True) (E := fun _ _ => True) (shlOne logCapacity) blockSize
    [] Z 0 fun _ _ => trivial).ok trivial hA
  have h := default_sizes hpos hle hsize hcapacity hc
  obtain ⟨w₁, s₁, hconstruct⟩ : ∃ w₁ s₁, (defaultOram A crypto logCapacity).construct.exec w₀ s₀ = (.ok (), w₁, s₁) := by
    have hfaults := LawfulOram.construct_faults (inMemoryOram_lawful h (defaultStashCapacity logCapacity A.Z) 1) w₀ s₀
      (inMemoryOram_fresh h _ _ hfresh)
    rcases hr : (defaultOram A crypto logCapacity).construct.exec w₀ s₀ with ⟨e | u, w₁, s₁⟩
    · change Outcome _ _ ((defaultOram A crypto logCapacity).construct.exec w₀ s₀) at hfaults
      rw [hr] at hfaults
      exact (hfaults.elim id id).elim
    · exact ⟨w₁, s₁, rfl⟩
  have hholds := construct_inTree h (inMemoryBackend_lawful A.capacity A.blockSize) hfresh hconstruct
  obtain ⟨outcomes, w₂, s₂, hattempts, hiff⟩ := attempts_led_iff h (Nat.mod_lt _ (by norm_num)).le (fun _ => False.elim)
    hentries calls w₁ hholds
  exact ⟨w₁, s₁, outcomes, w₂, s₂, hconstruct, hattempts, hiff⟩

/-- a tree of one bucket of one block, and an array of three entries of which two are initialised -/
def threeEntries (entry : ℕ) :
    OramState (BlockArray tinyStorage.capacity tinyStorage.blockSize) (PositionArray (defaultMapCapacity 1 1)) :=
  { zeroState tinyStorage (defaultMapCapacity 1 1) with map := (Vector.replicate _ 0).setIfInBounds 2 entry }

/-- with a zero in the last entry, its ID is led to a bucket of the tree, too -/
theorem default_led_tiny : ∃ w₁ s₁ outcomes w₂ s₂,
    (defaultOram tinyStorage plainCrypto 1).construct.exec zeroWorld (threeEntries 0) = (.ok (), w₁, s₁) ∧
      ((defaultOram tinyStorage plainCrypto 1).attempts [.put 0 [1], .get 2, .get 3]).exec w₁ s₁ = (.ok outcomes, w₂, s₂) ∧
      LedToTree (defaultOram tinyStorage plainCrypto 1) s₁.storage.calls.length [.put 0 [1], .get 2, .get 3] outcomes s₂ := by
  have hA : (defaultStorage 1 32 1 : Run Unit AbsStorageAdapter).exec zeroWorld () = (.ok tinyStorage, zeroWorld, ()) := rfl
  have hfresh : Fresh (threeEntries 0) := ⟨rfl, rfl⟩
  obtain ⟨w₁, s₁, outcomes, w₂, s₂, hconstruct, hattempts, hiff⟩ := default_led_iff (by norm_num) (by norm_num) (by norm_num)
    plainCrypto_lawful hA hfresh (by decide) [.put 0 [1], .get 2, .get 3]
  refine ⟨w₁, s₁, outcomes, w₂, s₂, hconstruct, hattempts, hiff.2 ?_⟩
  simp only [AcceptsProper, List.forall_mem_cons]
  refine ⟨fun _ op hop => ?_, fun _ op hop => ?_, fun hscreen => absurd (by decide) hscreen,
    fun _ hm => absurd hm List.not_mem_nil⟩
  · rw [List.mem_singleton.1 hop]
    exact Or.inl (by decide)
  · rw [List.mem_singleton.1 hop]
    exact Or.inr ⟨0, by decide, by decide⟩

/-- **An ID that the map accepts and that leads out of the tree.** The map has three entries for two blocks. Where the third
was 1 when the array was allocated, which is no leaf, a get of block 2 asks the storage for bucket 2, past the end of the
tree, and throws. -/
theorem default_strays : ∃ w₁ s₁ w₂ s₂,
    (defaultStorage 1 32 1 : Run Unit AbsStorageAdapter).exec zeroWorld () = (.ok tinyStorage, zeroWorld, ()) ∧
      Fresh (threeEntries 1) ∧
      (defaultOram tinyStorage plainCrypto 1).construct.exec zeroWorld (threeEntries 1) = (.ok (), w₁, s₁) ∧
      ((defaultOram tinyStorage plainCrypto 1).attempts [.get 2]).exec w₁ s₁ = (.ok [.error (.idOutOfBound 2 2)], w₂, s₂) ∧
      ¬ (Call.get 2).Screened (defaultOram tinyStorage plainCrypto 1) ∧
      ¬ LedToTree (defaultOram tinyStorage plainCrypto 1) s₁.storage.calls.length [.get 2] [.error (.idOutOfBound 2 2)] s₂ := by
  set built := (defaultOram tinyStorage plainCrypto 1).construct.exec zeroWorld (threeEntries 1) with hbuilt
  have hconstruct : built.1 = .ok () := by
    rw [hbuilt]
    decide +kernel
  have hattempts : (((defaultOram tinyStorage plainCrypto 1).attempts [.get 2]).exec built.2.1 built.2.2).1 =
      .ok [.error (.idOutOfBound 2 2)] := by
    rw [hbuilt]
    decide +kernel
  clear_value built
  refine ⟨built.2.1, built.2.2, _, _, rfl, ⟨rfl, rfl⟩, Prod.ext hconstruct rfl, Prod.ext hattempts rfl, by decide,
    fun hled => ?_⟩
  exact hled.2 _ List.mem_cons_self (by decide) _ rfl trivial

end PathOram
