/-
A storage write is all or nothing with respect to its checks.

`set` checks, pads and encrypts one request after the other and sends nothing before it is through with all of them. A
request it rejects therefore leaves the storage alone, wherever it stands in the range; and where none is rejected the
checks of `encrypt` pass, by the constructor's constraints on the key, on Z and on the block size.

- `Rejects`: the three reasons for which a request is rejected; `IsRejection`: what is thrown.
- `encodeRequests_checks`: the loop over the requests.
- `set_checks`: **`set`**, over any provider, for any cipher and any batch limit.
-/
import PathOram.Batching

namespace PathOram

open Lib

namespace StorageAdapter

variable {β : Type} {S : StorageAdapter β}

/-- a location past the capacity, a bucket that has not Z blocks, or a block that is too long -/
def Rejects (S : StorageAdapter β) (r : ℕ × Bucket) : Prop :=
  S.capacity ≤ r.1 ∨ r.2.length ≠ S.Z ∨ ∃ b ∈ r.2, S.userBlockSize < b.2.length

/-- what the checks of `set` throw for these requests -/
def IsRejection (S : StorageAdapter β) (requests : List (ℕ × Bucket)) (e : Exception) : Prop :=
  ∃ r ∈ requests, S.capacity ≤ r.1 ∧ e = .idOutOfBound r.1 S.capacity ∨
    r.2.length ≠ S.Z ∧ e = .notZBlocks S.Z r.2.length ∨
    ∃ b ∈ r.2, S.userBlockSize < b.2.length ∧ e = .dataTooLong b.2.length S.userBlockSize

/-- a rejection is the rejection of a request -/
theorem IsRejection.rejects {requests : List (ℕ × Bucket)} {e : Exception} (h : S.IsRejection requests e) :
    ∃ r ∈ requests, S.Rejects r := by
  obtain ⟨r, hr, ⟨hc, -⟩ | ⟨hZ, -⟩ | ⟨b, hb, hlen, -⟩⟩ := h
  · exact ⟨r, hr, Or.inl hc⟩
  · exact ⟨r, hr, Or.inr (Or.inl hZ)⟩
  · exact ⟨r, hr, Or.inr (Or.inr ⟨b, hb, hlen⟩)⟩

/-- the input of `encrypt` for a bucket that passed: Z records, whole AES blocks -/
theorem encrypt_passes {records : List Bytes} {iv : Bytes} (hlen : records.length = S.Z)
    (hrecords : ∀ c ∈ records, c.length = S.userBlockSize + aesBlockSize) (hiv : iv.length = aesBlockSize)
    (output : Bytes) : ∃ raw, encrypt S.crypto S.key iv records.flatten output .encrypt = .ok raw := by
  have hflat : records.flatten.length = S.Z * (S.userBlockSize + aesBlockSize) := by
    rw [length_flatten hrecords, hlen]
  have hpos : records.flatten.length ≠ 0 := by
    rw [hflat]
    exact Nat.mul_ne_zero S.Z_ne_zero (by norm_num [aesBlockSize])
  have hmul : records.flatten.length % aesBlockSize = 0 := by
    rw [hflat, Nat.mul_mod, Nat.add_mod, S.whole_blocks]
    norm_num [aesBlockSize]
  cases he : encrypt S.crypto S.key iv records.flatten output .encrypt with
  | ok raw => exact ⟨raw, rfl⟩
  | error e =>
    rcases encrypt_error he with ⟨hkey, -⟩ | ⟨hinput, -⟩ | ⟨hbad, -⟩
    · exact absurd S.key_length hkey
    · exact (hinput.elim hpos fun h => h hmul).elim
    · exact absurd hiv hbad

/-- **One request**: encoded if it is not rejected, and nothing else is done -/
theorem encodeRequest_checks (s₀ : StorageState β) {requests : List (ℕ × Bucket)} {r : ℕ × Bucket} (hr : r ∈ requests) :
    Triple (fun s => s = s₀) (S.encodeRequest r) (fun x s => s = s₀ ∧ ¬ S.Rejects r ∧ x.1 = r.1)
      (fun e s => S.IsRejection requests e ∧ s = s₀) := by
  unfold encodeRequest
  refine Triple.bind (Q := fun _ s => ¬ S.capacity ≤ r.1 ∧ s = s₀) ?_ fun _ => Triple.of_pure fun hcapacity => ?_
  · exact Triple.ite (fun h => Triple.throw fun s hs => ⟨⟨r, hr, Or.inl ⟨h, rfl⟩⟩, hs⟩) fun h =>
      Triple.pure fun s hs => ⟨h, hs⟩
  apply Triple.ite (fun h => Triple.throw fun s hs => ⟨⟨r, hr, Or.inr (Or.inl ⟨h, rfl⟩)⟩, hs⟩)
  intro hZ
  have hblock : ∀ b ∈ r.2, Triple (fun s => s = s₀) (S.encodeBlock b)
      (fun record s => s = s₀ ∧ b.2.length ≤ S.userBlockSize ∧ record.length = S.userBlockSize + aesBlockSize)
      (fun e s => S.IsRejection requests e ∧ s = s₀) := by
    intro b hb
    refine Triple.bind (Q := fun _ s => b.2.length ≤ S.userBlockSize ∧ s = s₀) (Triple.ite (fun h => ?_) fun h => ?_)
      fun _ => Triple.of_pure fun hle => Triple.pure fun s hs => ⟨hs, hle, length_record S hle⟩
    · exact Triple.throw fun s hs => ⟨⟨r, hr, Or.inr (Or.inr ⟨b, hb, h, rfl⟩)⟩, hs⟩
    · exact Triple.pure fun s hs => ⟨not_lt.1 h, hs⟩
  apply (Triple.mapM hblock).bind
  intro records
  refine Triple.pre (P := fun s => List.Forall₂ (fun b record => b.2.length ≤ S.userBlockSize ∧
    record.length = S.userBlockSize + aesBlockSize) r.2 records ∧ s = s₀) (Triple.of_pure fun hall => ?_) fun s hs =>
      ⟨hs.2, hs.1⟩
  have hpass : ¬ S.Rejects r := by
    rintro (h | h | ⟨b, hb, hlong⟩)
    · exact hcapacity h
    · exact hZ h
    · obtain ⟨record, -, hle, -⟩ := exists_of_mem_right hall.flip hb
      omega
  apply (getRandomBlock_triple aesBlockSize).bind
  intro iv
  obtain ⟨raw, henc⟩ := encrypt_passes (S := S) (hall.length_eq.symm.trans (not_not.1 hZ)) (fun c hc => by
    obtain ⟨b, -, -, hlen⟩ := exists_of_mem_right hall hc
    exact hlen) iv.2 iv.1
  rw [henc]
  apply Triple.bind (Q := fun _ s => s = s₀) (Triple.ofExcept (fun _ _ _ hs => hs) fun _ _ h => by cases h)
  intro encrypted
  exact Triple.pure fun s hs => ⟨hs, hpass, rfl⟩

/-- **The loop over the requests**: all of them are encoded if none is rejected, and the storage is left alone -/
theorem encodeRequests_checks (requests : List (ℕ × Bucket)) (w : World) (s : StorageState β) :
    (∃ writes w', (requests.mapM S.encodeRequest).exec w s = (.ok writes, w', s) ∧ (∀ r ∈ requests, ¬ S.Rejects r) ∧
      writes.map Prod.fst = requests.map Prod.fst) ∨
    ∃ e w', (requests.mapM S.encodeRequest).exec w s = (.error e, w', s) ∧ S.IsRejection requests e := by
  have hloop := (Triple.mapM fun r hr => encodeRequest_checks (S := S) s hr :
    Triple (fun s' => s' = s) (requests.mapM S.encodeRequest) _ _) w s rfl
  rcases hexec : (requests.mapM S.encodeRequest).exec w s with ⟨e | writes, w', s'⟩
  · rw [hexec] at hloop
    obtain ⟨hreject, rfl⟩ := hloop
    exact Or.inr ⟨e, w', rfl, hreject⟩
  · rw [hexec] at hloop
    obtain ⟨rfl, hall⟩ := hloop
    refine Or.inl ⟨writes, w', rfl, fun r hr => ?_, ?_⟩
    · obtain ⟨x, -, hpass, -⟩ := exists_of_mem_right hall.flip hr
      exact hpass
    · rw [← List.forall₂_eq_eq_eq, List.forall₂_map_left_iff, List.forall₂_map_right_iff]
      exact hall.flip.imp fun _ _ h => h.2

/-- **A write is all or nothing with respect to its checks.** If some request is rejected, `set` throws what the checks
throw, and the storage, its events and its calls are what they were. If none is, all checks and `encrypt` pass, and `set`
goes on to send the requests. So over a provider that does not throw, `set` throws if and only if it rejects a request. -/
theorem set_checks (S : StorageAdapter β) (requests : List (ℕ × Bucket)) (w : World) (s : StorageState β) :
    ((∃ r ∈ requests, S.Rejects r) →
      ∃ e w', (S.set requests).exec w s = (.error e, w', s) ∧ S.IsRejection requests e) ∧
    ((∀ r ∈ requests, ¬ S.Rejects r) → ∃ writes w', writes.map Prod.fst = requests.map Prod.fst ∧
      (S.set requests).exec w s = (S.upload writes).exec w' { s with calls := s.calls ++ [.set writes] }) ∧
    (S.backend.ThrowsOnly (fun _ => False) →
      ((∃ e, ((S.set requests).exec w s).1 = .error e) ↔ ∃ r ∈ requests, S.Rejects r)) := by
  rcases encodeRequests_checks (S := S) requests w s with ⟨writes, w', hexec, hpass, hfst⟩ | ⟨e, w', hexec, hreject⟩
  · have hset : (S.set requests).exec w s = (S.upload writes).exec w' { s with calls := s.calls ++ [.set writes] } :=
      Prog.exec_bind_ok hexec
    refine ⟨fun ⟨r, hr, h⟩ => absurd h (hpass r hr), fun _ => ⟨writes, w', hfst, hset⟩, fun hB => ⟨?_, ?_⟩⟩
    · rintro ⟨e, he⟩
      rw [hset] at he
      exact ((upload_throws hB writes).outcome he).elim
    · rintro ⟨r, hr, h⟩
      exact absurd h (hpass r hr)
  · have hset : (S.set requests).exec w s = (.error e, w', s) := Prog.exec_bind_error hexec
    refine ⟨fun _ => ⟨e, w', hset, hreject⟩, fun hpass => ?_, fun _ => ⟨fun _ => hreject.rejects, fun _ => ⟨e, ?_⟩⟩⟩
    · obtain ⟨r, hr, h⟩ := hreject.rejects
      exact absurd h (hpass r hr)
    · rw [hset]

theorem set_checks_tiny : ∃ e, (((limitedStorage 2).set [(0, [(5, [1])]), (1, [(6, [2])]), (2, [(7, [3])])]).exec zeroWorld
    (zeroState tinyStorage 2).storage).1 = .error e :=
  ((set_checks (limitedStorage 2) [(0, [(5, [1])]), (1, [(6, [2])]), (2, [(7, [3])])] zeroWorld
    (zeroState tinyStorage 2).storage).2.2 (inMemoryBackend_throws 2 64 _)).2
    ⟨(2, [(7, [3])]), by simp, Or.inl (by decide)⟩

end StorageAdapter

end PathOram
