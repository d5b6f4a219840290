/-
What a session moves on average.

The positions are uniform and independent, so the buckets that a call moves are those on the paths of as many uniform leaves as
it makes accesses. On each level of the tree their number is that of different values among uniform ones.

- `averageLists_nodes`: the number of nodes on the paths of uniform leaves.
- `moved_callTrace`: a call downloads each of its buckets once, and uploads it.
- `mean_bandwidth`: **the buckets that a session reads and writes, on average.** Only the number of accesses of each call
  counts.
-/
import PathOram.StashSizing

namespace PathOram

open Lib
open scoped ENNReal

/-! ## The nodes on random paths -/

section Nodes

variable {height : ℕ}

/-- the number of nodes on the paths of k uniform leaves -/
noncomputable def meanNodes (height k : ℕ) : ℝ≥0∞ :=
  ∑ level ∈ Finset.range height, 2 ^ level * (1 - (1 - (2 ^ level)⁻¹) ^ k)

/-- the nodes of a level are numbered by the leaves from its left end on -/
theorem node_eq_div_add {level leaf : ℕ} (hl : level < height) :
    node height level leaf = leaf / 2 ^ (height - 1 - level) + 2 ^ level := by
  rw [node, ← two_pow_level hl, Nat.add_mul_div_right _ _ (Nat.two_pow_pos _)]

/-- the nodes, level by level -/
theorem card_nodes {leaves : List ℕ} (h : ∀ leaf ∈ leaves, leaf < 2 ^ (height - 1)) :
    (nodes height leaves).card =
      ∑ level ∈ Finset.range height, (leaves.map fun leaf => leaf / 2 ^ (height - 1 - level)).toFinset.card := by
  have hlevels : nodes height leaves =
      (Finset.range height).biUnion fun level => leaves.toFinset.image fun leaf => node height level leaf := by
    ext ℓ
    simp only [mem_nodes, mem_path, Finset.mem_biUnion, Finset.mem_range, Finset.mem_image, List.mem_toFinset]
    exact ⟨fun ⟨leaf, hleaf, level, hl, he⟩ => ⟨level, hl, leaf, hleaf, he⟩,
      fun ⟨level, hl, leaf, hleaf, he⟩ => ⟨leaf, hleaf, level, hl, he⟩⟩
  have hdisjoint : (↑(Finset.range height) : Set ℕ).PairwiseDisjoint fun level =>
      leaves.toFinset.image fun leaf => node height level leaf := by
    intro level hl level' hl' hne
    apply Finset.disjoint_left.2
    intro ℓ hℓ hℓ'
    obtain ⟨leaf, hleaf, rfl⟩ := Finset.mem_image.1 hℓ
    obtain ⟨leaf', hleaf', he⟩ := Finset.mem_image.1 hℓ'
    exact hne (node_level_inj (Finset.mem_range.1 hl) (Finset.mem_range.1 hl') (h leaf (List.mem_toFinset.1 hleaf))
      (h leaf' (List.mem_toFinset.1 hleaf')) he.symm)
  rw [hlevels, Finset.card_biUnion hdisjoint]
  apply Finset.sum_congr rfl
  intro level hl
  have himage : leaves.toFinset.image (fun leaf => node height level leaf) =
      (leaves.map fun leaf => leaf / 2 ^ (height - 1 - level)).toFinset.image fun x => x + 2 ^ level := by
    ext ℓ
    simp [node_eq_div_add (Finset.mem_range.1 hl)]
  rw [himage, Finset.card_image_of_injective _ (add_left_injective _)]

/-- **The nodes on the paths of uniform leaves.** -/
theorem averageLists_nodes (k : ℕ) :
    averageLists (2 ^ (height - 1)) k (fun leaves => ((nodes height leaves).card : ℝ≥0∞)) = meanNodes height k := by
  have hlevel : ∀ level < height, ∀ f : ℕ → ℝ≥0∞,
      average (2 ^ (height - 1)) (fun leaf => f (leaf / 2 ^ (height - 1 - level))) = average (2 ^ level) f := by
    intro level hl f
    rw [← two_pow_level hl]
    exact average_div (Nat.two_pow_pos _) f
  calc averageLists (2 ^ (height - 1)) k (fun leaves => ((nodes height leaves).card : ℝ≥0∞))
      = averageLists (2 ^ (height - 1)) k fun leaves => ∑ level ∈ Finset.range height,
          ((leaves.map fun leaf => leaf / 2 ^ (height - 1 - level)).toFinset.card : ℝ≥0∞) := by
        apply averageLists_congr
        intro leaves _ hleaves
        rw [card_nodes hleaves]
        push_cast
        rfl
    _ = ∑ level ∈ Finset.range height, averageLists (2 ^ (height - 1)) k fun leaves =>
          ((leaves.map fun leaf => leaf / 2 ^ (height - 1 - level)).toFinset.card : ℝ≥0∞) := averageLists_sum _ k _
    _ = ∑ level ∈ Finset.range height, averageLists (2 ^ level) k fun xs => (xs.toFinset.card : ℝ≥0∞) := by
        apply Finset.sum_congr rfl
        intro level hl
        exact averageLists_map (hlevel level (Finset.mem_range.1 hl)) k fun xs => (xs.toFinset.card : ℝ≥0∞)
    _ = meanNodes height k := by
        apply Finset.sum_congr rfl
        intro level _
        rw [averageLists_card_toFinset]
        push_cast
        rfl

theorem nodes_append (a b : List ℕ) : nodes height (a ++ b) = nodes height a ∪ nodes height b := by
  ext ℓ
  simp [mem_nodes, or_and_right, exists_or]

theorem card_nodes_le (leaves : List ℕ) : (nodes height leaves).card ≤ leaves.length * height := by
  have hpath : ∀ leaf ∈ leaves.toFinset, (path height leaf).toFinset.card ≤ height := fun leaf _ =>
    (List.toFinset_card_le _).trans_eq path_length
  exact (Finset.card_biUnion_le_card_mul _ _ _ hpath).trans (Nat.mul_le_mul_right _ (List.toFinset_card_le _))

end Nodes

/-! ## The buckets of a trace -/

/-- the buckets that a trace reads from the storage, or writes to it -/
def moved (read : Bool) (trace : List Observation) : ℕ := ((trace.filter fun o => o.1 == read).map fun o => o.2.1.card).sum

section Moved

variable {height blockSize : ℕ} (read : Bool)

@[simp] theorem moved_nil : moved read [] = 0 := rfl

@[simp] theorem moved_append (a b : List Observation) : moved read (a ++ b) = moved read a + moved read b := by
  simp [moved]

@[simp] theorem moved_downloads (locations : Finset ℕ) :
    moved read (downloads locations) = if read then locations.card else 0 := by
  rw [downloads]
  split_ifs with hempty hread
  · simp [hempty]
  · simp
  · simp [moved, *]
  · simp [moved, *]

@[simp] theorem moved_uploads (locations : Finset ℕ) :
    moved read [uploads blockSize locations] = if read then 0 else locations.card := by
  cases read <;> simp [moved, uploads]

theorem moved_pathDownloads_false (cached : Finset ℕ) (leaves : List ℕ) :
    moved false (pathDownloads height cached leaves) = 0 := by
  induction leaves generalizing cached with
  | nil => rfl
  | cons leaf leaves ih => simp [pathDownloads, ih]

/-- what is cached is not downloaded again -/
theorem moved_pathDownloads (cached : Finset ℕ) (leaves : List ℕ) :
    cached.card + moved true (pathDownloads height cached leaves) = (cached ∪ nodes height leaves).card := by
  induction leaves generalizing cached with
  | nil => simp [pathDownloads, nodes]
  | cons leaf leaves ih =>
    have hunion : cached ∪ (path height leaf).toFinset ∪ nodes height leaves = cached ∪ nodes height (leaf :: leaves) := by
      rw [← List.singleton_append, nodes_append, Finset.union_assoc]
      simp [nodes]
    have hcached : cached.card + ((path height leaf).toFinset \ cached).card = (cached ∪ (path height leaf).toFinset).card := by
      rw [add_comm, Finset.card_sdiff_add_card, Finset.union_comm]
    rw [pathDownloads, moved_append, moved_downloads, if_pos rfl, ← add_assoc, hcached, ih, hunion]

/-- **A call** downloads each of its buckets once, and uploads it. -/
theorem moved_callTrace (first later : List ℕ) :
    moved read (callTrace height blockSize first later) = (nodes height (first ++ later)).card := by
  cases read with
  | true =>
    rw [callTrace, moved_append, moved_append, moved_downloads, moved_uploads, if_pos rfl, if_pos rfl, add_zero,
      moved_pathDownloads, nodes_append]
  | false => simp [callTrace, moved_pathDownloads_false]

/-- the buckets of calls, of which each makes as many accesses as its shape says -/
theorem moved_runTrace_le (shapes : List (ℕ × ℕ)) (leaves : List ℕ) :
    moved read (runTrace height blockSize shapes leaves) ≤ accessCount shapes * height := by
  induction shapes generalizing leaves with
  | nil => exact Nat.zero_le _
  | cons shape shapes ih =>
    have hlen : (leaves.take shape.1 ++ (leaves.drop shape.1).take shape.2).length ≤ shape.1 + shape.2 := by
      rw [List.length_append]
      exact Nat.add_le_add (List.length_take_le _ _) (List.length_take_le _ _)
    have hcall := (card_nodes_le _).trans (Nat.mul_le_mul_right height hlen)
    rw [runTrace, moved_append, moved_callTrace, accessCount, List.map_cons, List.sum_cons, Nat.add_mul]
    exact Nat.add_le_add hcall (ih _)

/-- **The buckets that calls move**, with uniform leaves. -/
theorem averageLists_moved (shapes : List (ℕ × ℕ)) :
    averageLists (2 ^ (height - 1)) (accessCount shapes)
        (fun leaves => (moved read (runTrace height blockSize shapes leaves) : ℝ≥0∞)) =
      (shapes.map fun shape => meanNodes height (shape.1 + shape.2)).sum := by
  induction shapes with
  | nil => simp [accessCount, averageLists, runTrace]
  | cons shape shapes ih =>
    have hn : 0 < 2 ^ (height - 1) := Nat.two_pow_pos _
    have hcount : accessCount (shape :: shapes) = shape.1 + shape.2 + accessCount shapes := by simp [accessCount]
    have hsplit : ∀ xs ys : List ℕ, xs.length = shape.1 + shape.2 →
        (moved read (runTrace height blockSize (shape :: shapes) (xs ++ ys)) : ℝ≥0∞) =
          (nodes height xs).card + moved read (runTrace height blockSize shapes ys) := by
      intro xs ys hlen
      have htake : (xs ++ ys).take shape.1 ++ ((xs ++ ys).drop shape.1).take shape.2 = xs := by
        rw [← List.take_add, List.take_left' hlen]
      rw [runTrace, moved_append, moved_callTrace, htake, List.drop_left' hlen]
      push_cast
      rfl
    calc averageLists (2 ^ (height - 1)) (accessCount (shape :: shapes))
          (fun leaves => (moved read (runTrace height blockSize (shape :: shapes) leaves) : ℝ≥0∞))
        = averageLists (2 ^ (height - 1)) (shape.1 + shape.2) fun xs =>
            averageLists (2 ^ (height - 1)) (accessCount shapes) fun ys =>
              ((nodes height xs).card : ℝ≥0∞) + moved read (runTrace height blockSize shapes ys) := by
          rw [hcount, averageLists_append]
          apply averageLists_congr
          intro xs hlen _
          apply averageLists_congr
          intro ys _ _
          exact hsplit xs ys hlen
      _ = averageLists (2 ^ (height - 1)) (shape.1 + shape.2) fun xs =>
            ((nodes height xs).card : ℝ≥0∞) + (shapes.map fun shape => meanNodes height (shape.1 + shape.2)).sum := by
          simp only [averageLists_add, averageLists_const hn, ih]
      _ = ((shape :: shapes).map fun shape => meanNodes height (shape.1 + shape.2)).sum := by
          rw [averageLists_add, averageLists_const hn, averageLists_nodes, List.map_cons, List.sum_cons]

end Moved

/-! ## Sessions -/

namespace LawfulOram

variable {β : Type} {mapCapacity : ℕ} {O : Oram β (PositionArray mapCapacity)} {L : LawfulOram O}
  {s : OramState β (PositionArray mapCapacity)} {M : ℕ} [NeZero M]

/-- **What a session is expected to show**, if it does not throw: the mean over uniform leaves. -/
theorem session_value (hM : 2 ^ 64 ∣ M) (hL : L.OnArray) (D : SamplingOram O) (hs : L.Fresh s) {calls : List Call}
    (hcalls : ∀ call ∈ calls, ∀ op ∈ call.ops, op.block < 2 ^ O.height * O.Z) (orders : ℕ → ℕ)
    (hnever : chance worldTape M (O.session calls) orders s Follows.Threw = 0) (f : List Observation → ℕ) {bound : ℕ}
    (hbound : ∀ leaves, f (s.storage.calls.map StorageCall.observed ++
      [uploads O.storage.blockSize (Finset.range O.storage.capacity)] ++
      runTrace O.height O.storage.blockSize (calls.map Call.shape) leaves) ≤ bound) :
    expect worldTape M (O.session calls) orders s (worth look fun l => (f l.seen : ℝ≥0∞)) =
      averageLists (2 ^ (O.height - 1)) (accessCount (calls.map Call.shape)) fun leaves =>
        (f (s.storage.calls.map StorageCall.observed ++
          [uploads O.storage.blockSize (Finset.range O.storage.capacity)] ++
          runTrace O.height O.storage.blockSize (calls.map Call.shape) leaves) : ℝ≥0∞) := by
  have hn : 0 < 2 ^ (O.height - 1) := Nat.two_pow_pos _
  have hfollows := session_follows hM hL D hcalls
  let shown : List ℕ → List Observation := fun leaves => (look s).seen ++
    [uploads O.storage.blockSize (Finset.range O.storage.capacity)] ++
    runTrace O.height O.storage.blockSize (calls.map Call.shape) leaves
  -- what is cut off at the bound, and what is missing to it, add up to the bound
  have hsum : ∀ trace, ((min (f trace) bound : ℕ) : ℝ≥0∞) + ((bound - f trace : ℕ) : ℝ≥0∞) = bound := by
    intro trace
    rw [← Nat.cast_add]
    congr 1
    omega
  apply le_antisymm
  · calc expect worldTape M (O.session calls) orders s (worth look fun l => (f l.seen : ℝ≥0∞))
        ≤ averageLists (2 ^ (O.height - 1)) (accessCount (calls.map Call.shape)) fun leaves =>
            redrawAll (2 ^ (O.height - 1)) (List.range (2 ^ O.height * O.Z)) (fun _ => (f (shown leaves) : ℝ≥0∞))
              (look s).pos := hfollows.le (fun l => (f l.seen : ℝ≥0∞)) orders s hs
      _ = averageLists (2 ^ (O.height - 1)) (accessCount (calls.map Call.shape)) fun leaves => (f (shown leaves) : ℝ≥0∞) := by
          simp only [redrawAll_const hn]
  · have hle := hfollows.le_expect_add (k := orders) hs (ENNReal.natCast_ne_top bound) (fun l => hsum l.seen) (by
      simp only [redrawAll_const hn]
      exact averageLists_add_eq hn _ fun leaves => hsum (shown leaves))
    rw [hnever, mul_zero, add_zero] at hle
    calc averageLists (2 ^ (O.height - 1)) (accessCount (calls.map Call.shape)) (fun leaves => (f (shown leaves) : ℝ≥0∞))
        = averageLists (2 ^ (O.height - 1)) (accessCount (calls.map Call.shape)) fun leaves =>
            redrawAll (2 ^ (O.height - 1)) (List.range (2 ^ O.height * O.Z))
              (fun _ => ((min (f (shown leaves)) bound : ℕ) : ℝ≥0∞)) (look s).pos := by
          simp only [redrawAll_const hn]
          congr 1
          funext leaves
          have hmin : min (f (shown leaves)) bound = f (shown leaves) := min_eq_left (hbound leaves)
          rw [hmin]
      _ ≤ expect worldTape M (O.session calls) orders s (worth look fun l => ((min (f l.seen) bound : ℕ) : ℝ≥0∞)) := hle
      _ ≤ expect worldTape M (O.session calls) orders s (worth look fun l => (f l.seen : ℝ≥0∞)) := by
          apply expect_mono
          intro r k s'
          cases r with
          | error e => exact le_rfl
          | ok replies => exact Nat.cast_le.2 (min_le_left _ _)

end LawfulOram

/-- **The buckets that a session moves on average**, with room for the blocks that are put and batches of fewer than 2^32
requests: those that the constructor writes, and for each call the nodes on the paths of as many uniform leaves as it makes
accesses, read and written alike. -/
theorem mean_bandwidth {β : Type} {S : StorageAdapter β} {mapCapacity stashCapacity height batchSize M : ℕ} [NeZero M]
    (hM : 2 ^ 64 ∣ M) (h : Sizes S.toAbsStorageAdapter S.crypto mapCapacity height) (hsmall : 2 ^ height * S.Z ≤ 2 ^ 31)
    (L : LawfulBackend S.backend S.capacity S.blockSize) (hfault : ∀ e, ¬ L.fault e) (B : SamplingBackend S.backend)
    {s₀ : OramState β (PositionArray mapCapacity)} (hfresh : Fresh s₀) (orders : ℕ → ℕ) {calls : List Call}
    (hcalls : ∀ call ∈ calls, call.Valid (arrayOram S mapCapacity stashCapacity height batchSize))
    (hshort : ∀ call ∈ calls, call.batch.length < 2 ^ 32) (hroom : (putIds calls).card ≤ stashCapacity) (read : Bool) :
    expect worldTape M ((arrayOram S mapCapacity stashCapacity height batchSize).session calls) orders s₀
        (fun _ _ s => (moved read (s.storage.calls.map StorageCall.observed) : ℝ≥0∞)) =
      moved read (s₀.storage.calls.map StorageCall.observed) + (if read then 0 else S.capacity : ℕ) +
        (calls.map fun call => meanNodes height call.ops.length).sum := by
  set O := arrayOram S mapCapacity stashCapacity height batchSize with hO
  have hL := arrayOram_onArray h L stashCapacity batchSize
  have D := arrayOram_samples B mapCapacity stashCapacity height batchSize
  have hstart := arrayOram_fresh h L stashCapacity batchSize hfresh
  have hown : ∀ call ∈ calls, ∀ op ∈ call.ops, op.block < 2 ^ height * S.Z := fun call hcall op hop =>
    ((hcalls call hcall).1 op hop).block_lt
  have hreturns : Triple _ (O.session calls) _ _ := session_returns h hsmall L hfault hcalls hshort hroom
  have hnever : chance worldTape M (O.session calls) orders s₀ Follows.Threw = 0 := by
    rw [threw_eq_failed]
    exact never_fails h hsmall L hfault hfresh orders hcalls hshort hroom
  have hshown : ∀ leaves, moved read (s₀.storage.calls.map StorageCall.observed ++
      [uploads S.blockSize (Finset.range S.capacity)] ++ runTrace height S.blockSize (calls.map Call.shape) leaves) =
      moved read (s₀.storage.calls.map StorageCall.observed) + (if read then 0 else S.capacity) +
        moved read (runTrace height S.blockSize (calls.map Call.shape) leaves) := by
    intro leaves
    rw [moved_append, moved_append, moved_uploads, Finset.card_range]
  have hvalue := LawfulOram.session_value hM hL D hstart hown orders hnever (moved read) fun leaves =>
    (hshown leaves).trans_le (Nat.add_le_add_left (moved_runTrace_le read _ _) _)
  calc expect worldTape M (O.session calls) orders s₀
        (fun _ _ s => (moved read (s.storage.calls.map StorageCall.observed) : ℝ≥0∞))
      = expect worldTape M (O.session calls) orders s₀ (worth look fun l => (moved read l.seen : ℝ≥0∞)) :=
        expect_congr_of_triple hreturns hfresh (fun _ _ _ _ => rfl) fun _ _ _ he => he.elim
    _ = averageLists (2 ^ (height - 1)) (accessCount (calls.map Call.shape)) fun leaves =>
          ((moved read (s₀.storage.calls.map StorageCall.observed) + (if read then 0 else S.capacity) : ℕ) : ℝ≥0∞) +
            moved read (runTrace height S.blockSize (calls.map Call.shape) leaves) := by
        rw [hvalue]
        congr 1
        funext leaves
        rw [← Nat.cast_add, ← hshown leaves]
        rfl
    _ = moved read (s₀.storage.calls.map StorageCall.observed) + (if read then 0 else S.capacity : ℕ) +
          (calls.map fun call => meanNodes height call.ops.length).sum := by
        rw [averageLists_add, averageLists_const (Nat.two_pow_pos _), averageLists_moved, List.map_map, Nat.cast_add]
        simp only [Function.comp_def, shape_ops]

/-- at the small tree: a put, which reads a path, and a batch of two reads, which may share the lower bucket -/
theorem mean_bandwidth_small :
    expect worldTape (2 ^ 64) ((inMemoryOram smallStorage plainCrypto 4 1 2 4).session [.put 0 [7], .multiple [(0, []), (1, [])]])
        (fun _ => 0) (zeroState smallStorage 4)
        (fun _ _ s => (moved true (s.storage.calls.map StorageCall.observed) : ℝ≥0∞)) =
      (0 : ℕ) + (0 : ℕ) + (meanNodes 2 1 + (meanNodes 2 2 + 0)) :=
  mean_bandwidth (dvd_refl _) small_sizes (by decide) (inMemoryBackend_lawful 4 64) (fun _ hfault => hfault)
    (inMemoryBackend_samples 4 64) (zeroState_fresh smallStorage 4) (fun _ => 0) (by decide) (by decide) (by decide) true

end PathOram
