/-
What the server sees of an ORAM, as an abstract program.

A `Look` is all that decides what the storage is asked for: the positions, the locations in the cache, and what was shown so
far. An access draws a leaf, moves its block there, and shows the path of the leaf that the block had. The abstract programs
are given by the expectations they lead to.

- `calls_reveal`: **with uniform positions, calls show uniform leaves.** What they show is a function of independent uniform
  leaves, one for each access, and of the number of blocks in each call and the number of its accesses that repeat one. The
  positions they leave are uniform and independent of it.
-/
import PathOram.Lib.Redraw
import PathOram.Lib.Tree

namespace PathOram

open Lib
open scoped ENNReal

/-- what a call of the storage shows: its kind, its locations and the sizes of its buffers, in no order -/
abbrev Observation := Bool × Multiset ℕ × Multiset ℕ

/-- what decides which locations are asked for, and what was shown -/
structure Look where
  pos : ℕ → ℕ
  cached : Finset ℕ
  seen : List Observation

/-- a download of the locations, if there are any -/
def downloads (missing : Finset ℕ) : List Observation := if missing = ∅ then [] else [(true, missing.val, 0)]

/-- an upload of the locations -/
def uploads (blockSize : ℕ) (locations : Finset ℕ) : Observation :=
  (false, locations.val, Multiset.replicate locations.card blockSize)

@[simp] theorem downloads_empty : downloads ∅ = [] := if_pos rfl

namespace Look

/-- the locations are downloaded unless they are cached -/
def fetch (l : Look) (locations : Finset ℕ) : Look :=
  { l with cached := l.cached ∪ locations, seen := l.seen ++ downloads (locations \ l.cached) }

/-- the cache is uploaded -/
def upload (blockSize : ℕ) (l : Look) : Look :=
  { l with cached := ∅, seen := l.seen ++ [uploads blockSize l.cached] }

/-- the block is moved to the leaf, and its old path is fetched -/
def access (height : ℕ) (l : Look) (block leaf : ℕ) : Look :=
  { l with pos := Function.update l.pos block leaf }.fetch (path height (l.pos block)).toFinset

/-- the paths of the blocks -/
def paths (height : ℕ) (pos : ℕ → ℕ) (ids : List ℕ) : Finset ℕ := ids.toFinset.biUnion fun id => (path height (pos id)).toFinset

/-- locations that are cached are not downloaded -/
theorem fetch_fetch (l : Look) {a b : Finset ℕ} (h : b ⊆ a) : (l.fetch a).fetch b = l.fetch a := by
  have hcached : b \ (l.cached ∪ a) = ∅ := Finset.sdiff_eq_empty_iff_subset.2 (h.trans Finset.subset_union_right)
  have hunion : l.cached ∪ a ∪ b = l.cached ∪ a := Finset.union_eq_left.2 (h.trans Finset.subset_union_right)
  simp only [fetch, hcached, hunion, downloads_empty, List.append_nil]

end Look

/-! ## The abstract programs -/

section

variable (height blockSize : ℕ)

/-- accesses to the blocks in turn -/
noncomputable def lookAccesses : List ℕ → (Look → ℝ≥0∞) → Look → ℝ≥0∞
  | [], Φ, l => Φ l
  | id :: ids, Φ, l => average (2 ^ (height - 1)) fun leaf => lookAccesses ids Φ (l.access height id leaf)

/-- a call: the paths of its blocks are fetched, it makes its accesses and an upload -/
noncomputable def lookCall (ids : List ℕ) (Φ : Look → ℝ≥0∞) (l : Look) : ℝ≥0∞ :=
  lookAccesses height ids (fun l => Φ (l.upload blockSize)) (l.fetch (Look.paths height l.pos ids))

/-- calls in turn -/
noncomputable def lookCalls : List (List ℕ) → (Look → ℝ≥0∞) → Look → ℝ≥0∞
  | [], Φ, l => Φ l
  | ids :: rest, Φ, l => lookCall height blockSize ids (lookCalls rest Φ) l

/-- a call of one access fetches nothing before it -/
theorem lookCall_single (id : ℕ) (Φ : Look → ℝ≥0∞) (l : Look) :
    lookCall height blockSize [id] Φ l = lookAccesses height [id] (fun l => Φ (l.upload blockSize)) l := by
  apply average_congr
  intro leaf _
  have hpaths : Look.paths height l.pos [id] = (path height (l.pos id)).toFinset := by simp [Look.paths]
  have hfetch : (l.fetch (Look.paths height l.pos [id])).access height id leaf = l.access height id leaf := by
    rw [hpaths]
    exact Look.fetch_fetch { l with pos := Function.update l.pos id leaf } (Finset.Subset.refl _)
  rw [hfetch]

/-! ## What they show -/

/-- the accesses of a call in turn: each downloads what is not cached of the path of its leaf -/
def pathDownloads : Finset ℕ → List ℕ → List Observation
  | _, [] => []
  | cached, leaf :: leaves =>
    downloads ((path height leaf).toFinset \ cached) ++ pathDownloads (cached ∪ (path height leaf).toFinset) leaves

/-- the nodes on the paths of leaves -/
def nodes (leaves : List ℕ) : Finset ℕ := leaves.toFinset.biUnion fun leaf => (path height leaf).toFinset

/-- What a call shows: the paths of the leaves that its blocks have are read at once, those of the leaves that are drawn for
blocks to come again one after the other, as far as they are not read yet, and all are written. -/
def callTrace (first later : List ℕ) : List Observation :=
  downloads (nodes height first) ++ pathDownloads height (nodes height first) later ++
    [uploads blockSize (nodes height (first ++ later))]

/-- what calls show, by the numbers of their blocks and of the accesses that repeat one -/
def runTrace : List (ℕ × ℕ) → List ℕ → List Observation
  | [], _ => []
  | (distinct, repeated) :: rest, leaves =>
    callTrace height blockSize (leaves.take distinct) ((leaves.drop distinct).take repeated) ++
      runTrace rest (leaves.drop (distinct + repeated))

variable {height blockSize}

theorem lookAccesses_reveal (ids : List ℕ) (Φ : Look → ℝ≥0∞) (l : Look) :
    lookAccesses height ids Φ l = reveal (2 ^ (height - 1)) ids (fun leaves pos =>
      Φ ⟨pos, l.cached ∪ nodes height leaves, l.seen ++ pathDownloads height l.cached leaves⟩) l.pos := by
  induction ids generalizing l with
  | nil => simp [lookAccesses, reveal, nodes, pathDownloads]
  | cons id ids ih =>
    apply average_congr
    intro leaf _
    rw [ih]
    have hunion : ∀ leaves, l.cached ∪ (path height (l.pos id)).toFinset ∪ nodes height leaves =
        l.cached ∪ nodes height (l.pos id :: leaves) := by
      intro leaves
      simp [nodes, Finset.union_assoc]
    simp only [Look.access, Look.fetch, hunion, pathDownloads, List.append_assoc]

/-- the numbers of the blocks of a call and of the accesses that repeat one -/
def shape (ids : List ℕ) : ℕ × ℕ := (ids.toFinset.card, ids.length - ids.toFinset.card)

theorem shape_news (ids : List ℕ) : shape ids = ((news [] ids).count true, (news [] ids).count false) := by
  have hdistinct : (news [] ids).count true = ids.toFinset.card := by simp [count_news]
  have hboth := List.count_true_add_count_false (news [] ids)
  rw [length_news] at hboth
  rw [shape, ← hdistinct, ← hboth, Nat.add_sub_cancel_left]

theorem shape_sum (ids : List ℕ) : (shape ids).1 + (shape ids).2 = ids.length :=
  Nat.add_sub_of_le (List.toFinset_card_le ids)

theorem mem_nodes {leaves : List ℕ} {ℓ : ℕ} : ℓ ∈ nodes height leaves ↔ ∃ leaf ∈ leaves, ℓ ∈ path height leaf := by
  simp [nodes]

/-- the leaves that are shown and those that are marked -/
theorem mem_marked_or {marks : List Bool} {leaves : List ℕ} (hlen : leaves.length = marks.length) (x : ℕ) :
    x ∈ leaves ↔ x ∈ marked true marks leaves ∨ x ∈ marked false marks leaves := by
  induction marks generalizing leaves with
  | nil => simp [List.eq_nil_of_length_eq_zero hlen, marked]
  | cons mark marks ih =>
    obtain ⟨leaf, leaves, rfl⟩ := List.exists_cons_of_length_eq_add_one hlen
    have hlen' : leaves.length = marks.length := by simpa using hlen
    have hrest := ih hlen'
    cases mark with
    | true => simp [marked, hrest, or_assoc]
    | false => simp [marked, hrest, or_left_comm]

/-- the paths that are read at once are not read again -/
theorem pathDownloads_marked {cached : Finset ℕ} {marks : List Bool} {leaves : List ℕ} (hlen : leaves.length = marks.length)
    (hfirst : nodes height (marked true marks leaves) ⊆ cached) :
    pathDownloads height cached leaves = pathDownloads height cached (marked false marks leaves) := by
  induction marks generalizing leaves cached with
  | nil => simp [List.eq_nil_of_length_eq_zero hlen, marked]
  | cons mark marks ih =>
    obtain ⟨leaf, leaves, rfl⟩ := List.exists_cons_of_length_eq_add_one hlen
    have hlen' : leaves.length = marks.length := by simpa using hlen
    cases mark with
    | true =>
      have hpath : (path height leaf).toFinset ⊆ cached := by
        intro ℓ hℓ
        exact hfirst (mem_nodes.2 ⟨leaf, by simp [marked], List.mem_toFinset.1 hℓ⟩)
      have hrest : nodes height (marked true marks leaves) ⊆ cached := by
        intro ℓ hℓ
        obtain ⟨x, hx, hp⟩ := mem_nodes.1 hℓ
        exact hfirst (mem_nodes.2 ⟨x, by simp [marked, hx], hp⟩)
      rw [pathDownloads, Finset.sdiff_eq_empty_iff_subset.2 hpath, Finset.union_eq_left.2 hpath, ih hlen' hrest]
      simp [marked]
    | false =>
      have hrest : nodes height (marked true marks leaves) ⊆ cached ∪ (path height leaf).toFinset := by
        intro ℓ hℓ
        obtain ⟨x, hx, hp⟩ := mem_nodes.1 hℓ
        exact Finset.mem_union_left _ (hfirst (mem_nodes.2 ⟨x, by simpa [marked] using hx, hp⟩))
      have hmarked : marked false (false :: marks) (leaf :: leaves) = leaf :: marked false marks leaves := by simp [marked]
      rw [hmarked, pathDownloads, pathDownloads, ih hlen' hrest]

/-- **A call** shows the leaves of its accesses, those of new blocks first. -/
theorem lookCall_reveal (ids : List ℕ) (Φ : Look → ℝ≥0∞) (pos : ℕ → ℕ) (seen : List Observation) :
    lookCall height blockSize ids Φ ⟨pos, ∅, seen⟩ = reveal (2 ^ (height - 1)) ids (fun leaves pos =>
      Φ ⟨pos, ∅, seen ++ callTrace height blockSize (marked true (news [] ids) leaves) (marked false (news [] ids) leaves)⟩)
        pos := by
  rw [lookCall, lookAccesses_reveal]
  apply reveal_congr []
  intro leaves q hlen hfirst
  have hmarks : leaves.length = (news [] ids).length := by rw [length_news, hlen]
  have hpaths : Look.paths height pos ids = nodes height (marked true (news [] ids) leaves) := by
    ext ℓ
    have hmarked : ∀ x, x ∈ marked true (news [] ids) leaves ↔ ∃ id ∈ ids, id ∉ [] ∧ pos id = x := hfirst
    simp [Look.paths, mem_nodes, hmarked]
  have hall : nodes height (marked true (news [] ids) leaves) ∪ nodes height leaves =
      nodes height (marked true (news [] ids) leaves ++ marked false (news [] ids) leaves) := by
    ext ℓ
    simp only [Finset.mem_union, mem_nodes, List.mem_append, mem_marked_or hmarks]
    constructor
    · rintro (⟨x, hx, hp⟩ | h)
      · exact ⟨x, Or.inl hx, hp⟩
      · exact h
    · exact Or.inr
  simp only [Look.fetch, Look.upload, hpaths, Finset.empty_union, Finset.sdiff_empty, hall, callTrace, List.append_assoc,
    pathDownloads_marked hmarks (Finset.Subset.refl _)]

/-- **Calls with uniform positions** show independent uniform leaves, one for each access, and leave uniform positions. -/
theorem calls_reveal {all : List ℕ} (calls : List (List ℕ)) (hall : ∀ ids ∈ calls, ∀ id ∈ ids, id ∈ all)
    (Φ : Look → ℝ≥0∞) (pos : ℕ → ℕ) (seen : List Observation) :
    redrawAll (2 ^ (height - 1)) all (fun pos => lookCalls height blockSize calls Φ ⟨pos, ∅, seen⟩) pos =
      averageLists (2 ^ (height - 1)) (calls.map List.length).sum fun leaves =>
        redrawAll (2 ^ (height - 1)) all (fun pos =>
          Φ ⟨pos, ∅, seen ++ runTrace height blockSize (calls.map shape) leaves⟩) pos := by
  induction calls generalizing seen with
  | nil => simp [lookCalls, runTrace, averageLists]
  | cons ids calls ih =>
    have hrest : ∀ ids ∈ calls, ∀ id ∈ ids, id ∈ all := fun ids hm => hall ids (List.mem_cons_of_mem _ hm)
    set L := 2 ^ (height - 1) with hL
    obtain ⟨d, r, hshape⟩ : ∃ d r, shape ids = (d, r) := ⟨_, _, rfl⟩
    have hnews := shape_news ids
    rw [hshape, Prod.mk.injEq] at hnews
    have hsum : ((ids :: calls).map List.length).sum = d + (r + (calls.map List.length).sum) := by
      rw [List.map_cons, List.sum_cons, ← shape_sum ids, hshape, Nat.add_assoc]
    -- what the call is followed by
    let later : List ℕ → List ℕ → ℝ≥0∞ := fun a b => redrawAll L all (fun pos => lookCalls height blockSize calls Φ
      ⟨pos, ∅, seen ++ callTrace height blockSize a b⟩) pos
    let shown : List ℕ → ℝ≥0∞ := fun leaves => redrawAll L all (fun pos =>
      Φ ⟨pos, ∅, seen ++ runTrace height blockSize ((ids :: calls).map shape) leaves⟩) pos
    calc redrawAll L all (fun pos => lookCalls height blockSize (ids :: calls) Φ ⟨pos, ∅, seen⟩) pos
        = redrawAll L all (reveal L ids fun leaves pos => lookCalls height blockSize calls Φ ⟨pos, ∅, seen ++
            callTrace height blockSize (marked true (news [] ids) leaves) (marked false (news [] ids) leaves)⟩) pos := by
          congr 1
          funext pos
          exact lookCall_reveal ids (lookCalls height blockSize calls Φ) pos seen
      _ = averageLists L ids.length fun leaves =>
            later (marked true (news [] ids) leaves) (marked false (news [] ids) leaves) :=
          redrawAll_reveal (hall ids List.mem_cons_self) _ pos
      _ = averageLists L d fun a => averageLists L r fun b => later a b := by
          rw [hnews.1, hnews.2, ← averageLists_marked, length_news]
      _ = averageLists L d fun a => averageLists L r fun b =>
            averageLists L (calls.map List.length).sum fun c => shown (a ++ (b ++ c)) := by
          apply averageLists_congr
          intro a ha _
          apply averageLists_congr
          intro b hb _
          have hsplit : ∀ c, runTrace height blockSize ((ids :: calls).map shape) (a ++ (b ++ c)) =
              callTrace height blockSize a b ++ runTrace height blockSize (calls.map shape) c := by
            intro c
            rw [List.map_cons, hshape, runTrace, List.take_left' ha, List.drop_left' ha, List.take_left' hb,
              ← List.drop_drop, List.drop_left' ha, List.drop_left' hb]
          simp only [later, shown, ih hrest, hsplit, List.append_assoc]
      _ = averageLists L ((ids :: calls).map List.length).sum shown := by
          rw [hsum, averageLists_append]
          simp only [averageLists_append]

end

end PathOram
