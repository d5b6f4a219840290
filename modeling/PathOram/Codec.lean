/-
The storage adapter decodes what it encodes.

A bucket goes to the provider as an IV and the encryption of its records. The results are for any lawful provider, in
any of the cipher modes, for any batch limit and whatever the provider held before: only the locations that were written
are read.

- `sets_triple`: a sequence of `set`s leaves the encodings of all its requests, the last one of a location on top.
- `sets_get`: **a `get` of written locations** returns, in the order of its list, the blocks last written, with their
  payloads padded, exactly when the list is not too long for the default batch read. Every buffer that was sent has the
  size of a bucket.
- `sets_get_endless`: a list of 2^32 locations, which the default reads again and again.
-/
import PathOram.InMemory

namespace PathOram

open Lib

namespace StorageAdapter

variable {β : Type} {S : StorageAdapter β} {L : LawfulBackend S.backend S.capacity S.blockSize}

/-- where a location was written, the bytes on top decode to the bucket on top -/
theorem decodeBucket_writeAll {requests : List (ℕ × Bucket)} {writes : List (ℕ × Bytes)}
    (h : List.Forall₂ (Encodes S) requests writes) (f : ℕ → Bytes) (g : ℕ → Bucket) {ℓ : ℕ}
    (hℓ : ℓ ∈ requests.map Prod.fst ∨ S.decodeBucket (f ℓ) = .ok (S.stored (g ℓ))) :
    S.decodeBucket (writeAll f writes ℓ) = .ok (S.stored (writeAll g requests ℓ)) := by
  induction h generalizing f g with
  | nil => exact hℓ.resolve_left List.not_mem_nil
  | @cons r w requests writes hrw _ ih =>
    refine ih (Function.update f w.1 w.2) (Function.update g r.1 r.2) ?_
    rw [hrw.1]
    rcases eq_or_ne ℓ r.1 with rfl | hne
    · refine Or.inr ?_
      rw [Function.update_self, Function.update_self]
      exact hrw.2.2
    · rw [Function.update_of_ne hne, Function.update_of_ne hne]
      exact hℓ.imp_left fun hm => (List.mem_cons.1 hm).resolve_left hne

/-- **A sequence of `set`s.** One call is recorded for each, with a buffer of a bucket's size for each of its requests. -/
theorem sets_triple (hc : S.crypto.Lawful) {sets : List (List (ℕ × Bucket))}
    (hsets : ∀ requests ∈ sets, ∀ r ∈ requests, S.Accepts r) {f : ℕ → Bytes} {calls : List StorageCall} :
    Triple (RawIs L f calls) (sets.forM S.set)
      (fun _ s => ∃ writes sent, List.Forall₂ (Encodes S) sets.flatten writes ∧ List.Forall₂ (IsSetOf S) sets sent ∧
        RawIs L (writeAll f writes) (calls ++ sent) s) (fun e _ => L.fault e) := by
  induction sets generalizing f calls with
  | nil => exact Triple.pure fun s hs => ⟨[], [], List.Forall₂.nil, List.Forall₂.nil, by simpa [writeAll] using hs⟩
  | cons requests sets ih =>
    change Triple _ (S.set requests >>= fun _ => sets.forM S.set) _ _
    have hset : Triple (RawIs L f calls) (S.set requests) _ _ :=
      set_encodes hc (hsets requests List.mem_cons_self) f
    apply Triple.bind (hset.conseq (fun _ h => h) (fun _ _ h => h) fun _ _ h => h.1)
    intro _
    apply Triple.exists_pre
    intro writes
    apply Triple.of_pure
    intro hwrites
    apply (ih fun requests hm => hsets requests (List.mem_cons_of_mem _ hm)).post
    intro _ s hs
    obtain ⟨rest, sent, hrest, hsent, hraw⟩ := hs
    refine ⟨writes ++ rest, .set writes :: sent, ?_, List.Forall₂.cons (isSetOf_of_encodes hwrites) hsent, ?_⟩
    · rw [List.flatten_cons]
      exact List.rel_append hwrites hrest
    · rw [writeAll_append]
      rwa [List.append_assoc] at hraw

/-- what a `get` of some locations must return after some `set`s, and what the provider was sent -/
structure Decoded (S : StorageAdapter β) (calls : List StorageCall) (sets : List (List (ℕ × Bucket)))
    (locations : List ℕ) (blocks : List Block) (s : StorageState β) : Prop where
  /-- for each location the blocks last written there, with the same IDs and padded payloads -/
  blocks_eq : blocks = locations.flatMap fun ℓ =>
    (writeAll (fun _ => []) sets.flatten ℓ).map fun b => (b.1, zeroPad S.userBlockSize b.2)
  /-- one buffer of a bucket's size for each request -/
  sent : ∃ sent, s.calls = calls ++ sent ++ [.get locations] ∧
    List.Forall₂ (fun requests call => ∃ writes, call = .set writes ∧
      writes.map Prod.fst = requests.map Prod.fst ∧
      ∀ write ∈ writes, write.2.length = (S.userBlockSize + 16) * S.Z + 16) sets sent

theorem sets_get_triple (hc : S.crypto.Lawful) {sets : List (List (ℕ × Bucket))}
    (hsets : ∀ requests ∈ sets, ∀ r ∈ requests, S.Accepts r) {locations : List ℕ}
    (hl : ∀ ℓ ∈ locations, ∃ requests ∈ sets, ∃ r ∈ requests, r.1 = ℓ) (hn : S.Ends locations.length)
    (calls : List StorageCall) :
    Triple (fun s : StorageState β => s.calls = calls) (do
        sets.forM S.set
        S.get locations)
      (fun blocks s => Decoded S calls sets locations blocks s) (fun e _ => L.fault e) := by
  intro w s hs
  have hmem : ∀ ℓ ∈ locations, ℓ ∈ sets.flatten.map Prod.fst := by
    intro ℓ hℓ
    obtain ⟨requests, hrequests, r, hr, rfl⟩ := hl ℓ hℓ
    exact List.mem_map_of_mem (List.mem_flatten_of_mem hrequests hr)
  have hlt : ∀ ℓ ∈ locations, ℓ < S.capacity := by
    intro ℓ hℓ
    obtain ⟨requests, hrequests, r, hr, rfl⟩ := hl ℓ hℓ
    exact (hsets requests hrequests r hr).location_lt
  have hstart : RawIs L (L.raw s.backend) calls s := ⟨rfl, hs⟩
  refine Triple.bind (sets_triple hc hsets) (fun _ => ?_) w s hstart
  refine Triple.exists_pre fun writes => Triple.exists_pre fun sent => Triple.of_pure fun hwrites =>
    Triple.of_pure fun hsent => ?_
  have hget : Triple (RawIs L (writeAll (L.raw s.backend) writes) (calls ++ sent)) (S.get locations) _ _ :=
    get_decodes (g := fun ℓ => S.stored (writeAll (fun _ => []) sets.flatten ℓ)) hlt hn fun ℓ hℓ =>
      decodeBucket_writeAll hwrites _ _ (Or.inl (hmem ℓ hℓ))
  exact hget.conseq (fun _ h => h) (fun blocks s' h => ⟨h.1, sent, h.2.2, hsent⟩) fun _ _ h => h.1

theorem sets_get_diverges (sets : List (List (ℕ × Bucket))) {locations : List ℕ} (hn : ¬ S.Ends locations.length)
    (w : World) (s : StorageState β) : ¬ ∃ blocks w' s',
      (do
        sets.forM S.set
        S.get locations : Run (StorageState β) (List Block)).exec w s = (.ok blocks, w', s') := by
  rintro ⟨blocks, w', s', hexec⟩
  have hnever : Triple (fun _ : StorageState β => True) (sets.forM S.set >>= fun _ => S.get locations)
      (fun _ _ => False) (fun _ _ => True) := (Triple.trivial _ _).bind fun _ => get_diverges hn
  exact hnever.ok trivial hexec

/-- **The storage decodes what it encodes**, exactly when the download ends. Over a provider that returns what was last
written, any `set`s of accepted requests and then a `get` of written locations return those, whatever the draws, if and
only if the list of locations is not too long for the default batch read. -/
theorem sets_get (hc : S.crypto.Lawful) (hfault : ∀ e, ¬ L.fault e) {sets : List (List (ℕ × Bucket))}
    (hsets : ∀ requests ∈ sets, ∀ r ∈ requests, S.Accepts r) {locations : List ℕ}
    (hl : ∀ ℓ ∈ locations, ∃ requests ∈ sets, ∃ r ∈ requests, r.1 = ℓ) (s : StorageState β) :
    (∀ w, ∃ blocks w' s',
      (do
        sets.forM S.set
        S.get locations : Run (StorageState β) (List Block)).exec w s = (.ok blocks, w', s') ∧
      Decoded S s.calls sets locations blocks s') ↔ S.Ends locations.length := by
  constructor
  · intro h
    by_contra hn
    obtain ⟨blocks, w', s', hexec, -⟩ := h ⟨fun _ => 0, fun _ => 0⟩
    exact sets_get_diverges sets hn _ s ⟨blocks, w', s', hexec⟩
  · intro hn w
    have hrun := sets_get_triple (L := L) hc hsets hl hn s.calls w s rfl
    rcases hexec : (do
        sets.forM S.set
        S.get locations : Run (StorageState β) (List Block)).exec w s with ⟨e | blocks, w', s'⟩
    · rw [hexec] at hrun
      exact absurd hrun (hfault e)
    · rw [hexec] at hrun
      exact ⟨blocks, w', s', rfl, hrun⟩

end StorageAdapter

/-- two writes to one location, and one of an empty block -/
def tinyWrites : List (List (ℕ × Bucket)) := [[(1, [(5, [1])]), (1, [(6, [2])])], [(0, [(ulongMax, [])])]]

theorem tinyWrites_accepted :
    ∀ requests ∈ tinyWrites, ∀ r ∈ requests, (inMemoryOram tinyStorage plainCrypto 2 6 1 4).storage.Accepts r := by
  have hdecide : ∀ requests ∈ tinyWrites, ∀ r ∈ requests, r.1 < 2 ∧ r.2.length = 1 ∧ (∀ x ∈ r.2, x.2.length ≤ 32) ∧
      ∀ x ∈ r.2, x.1 < 2 ^ 64 := by decide
  intro requests hrequests r hr
  obtain ⟨h1, h2, h3, h4⟩ := hdecide requests hrequests r hr
  exact ⟨h1, h2, h3, h4⟩

theorem sets_get_tiny : ∃ w s blocks,
    ((do
      tinyWrites.forM (inMemoryOram tinyStorage plainCrypto 2 6 1 4).storage.set
      (inMemoryOram tinyStorage plainCrypto 2 6 1 4).storage.get [1, 0, 1] :
        Run (StorageState (BlockArray 2 64)) (List Block)).exec zeroWorld (zeroState tinyStorage 2).storage =
      (.ok blocks, w, s)) ∧
    blocks = [1, 0, 1].flatMap fun ℓ =>
      (writeAll (fun _ => []) tinyWrites.flatten ℓ).map fun b => (b.1, zeroPad 32 b.2) := by
  have hwritten : ∀ ℓ ∈ [1, 0, 1], ∃ requests ∈ tinyWrites, ∃ r ∈ requests, r.1 = ℓ := by decide
  obtain ⟨blocks, w, s, hexec, hdecoded⟩ :=
    (StorageAdapter.sets_get (S := (inMemoryOram tinyStorage plainCrypto 2 6 1 4).storage)
      (L := inMemoryBackend_lawful 2 64) plainCrypto_lawful (fun _ h => h) tinyWrites_accepted
      hwritten (zeroState tinyStorage 2).storage).2 (StorageAdapter.ends_of_lt (by decide)) zeroWorld
  exact ⟨w, s, blocks, hexec, hdecoded.blocks_eq⟩

/-- a download of as many locations as an `unsigned int` has values is still going on after any number of rounds -/
theorem sets_get_endless :
    (∀ ℓ ∈ List.replicate (2 ^ 32) 1, ∃ requests ∈ tinyWrites, ∃ r ∈ requests, r.1 = ℓ) ∧
    ∀ w s, ¬ ∃ blocks w' s',
      (do
        tinyWrites.forM (inMemoryOram tinyStorage plainCrypto 2 6 1 4).storage.set
        (inMemoryOram tinyStorage plainCrypto 2 6 1 4).storage.get (List.replicate (2 ^ 32) 1) :
          Run (StorageState (BlockArray 2 64)) (List Block)).exec w s = (.ok blocks, w', s') := by
  have hlength : (List.replicate (2 ^ 32) 1).length = 2 ^ 32 := List.length_replicate
  have hmem : ∀ n, ∀ ℓ ∈ List.replicate n 1, ℓ = 1 := fun n ℓ hℓ => List.eq_of_mem_replicate hℓ
  have hones := hmem (2 ^ 32)
  generalize List.replicate (2 ^ 32) 1 = locations at hlength hones ⊢
  constructor
  · intro ℓ hℓ
    rw [hones ℓ hℓ]
    decide
  · intro w s
    have hlong : ¬ (inMemoryOram tinyStorage plainCrypto 2 6 1 4).storage.Ends locations.length := by
      rw [hlength]
      unfold StorageAdapter.Ends
      decide
    exact StorageAdapter.sets_get_diverges (S := (inMemoryOram tinyStorage plainCrypto 2 6 1 4).storage) tinyWrites hlong
      w s

end PathOram
