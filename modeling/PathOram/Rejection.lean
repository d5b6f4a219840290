/-
Calls that an input check rejects.

The three checks stand in three places. The size of a batch and the block IDs are checked before anything has changed:
such a call is `Screened`, and it leaves the ORAM and even the world as they were (`exec_screened`). The size of a payload
is checked by the storage in the upload, after the access, so a call with a payload that is too long (`Oversized`) throws
with the payload in the cache, and every later upload throws with it (`oversized_noticed`).

- `rejected_unnoticed`: **in every run in which no payload is too long, rejected calls are as good as not made.** The
  other calls have the outcomes that they have without them, whatever the state, the storage and the other calls.
-/
import PathOram.Frame

namespace PathOram

open Lib

/-! ## The input checks -/

section

variable {β : Type} {mapCapacity : ℕ} (O : Oram β (PositionArray mapCapacity))

/-- the size of the batch or a block ID is rejected -/
def Call.Screened (call : Call) : Prop :=
  O.batchSize < call.batch.length ∨ ∃ op ∈ call.ops, mapCapacity ≤ op.block

/-- a payload is rejected -/
def Call.Oversized (call : Call) : Prop := ∃ op ∈ call.ops, O.storage.userBlockSize < op.data.length

def Call.Rejected (call : Call) : Prop := call.Screened O ∨ call.Oversized O

instance (call : Call) : Decidable (call.Screened O) :=
  inferInstanceAs (Decidable (O.batchSize < call.batch.length ∨ ∃ op ∈ call.ops, mapCapacity ≤ op.block))

instance (call : Call) : Decidable (call.Oversized O) :=
  inferInstanceAs (Decidable (∃ op ∈ call.ops, O.storage.userBlockSize < op.data.length))

instance (call : Call) : Decidable (call.Rejected O) :=
  inferInstanceAs (Decidable (call.Screened O ∨ call.Oversized O))

/-- the calls that no check rejects have the outcomes that they have when the others are not made -/
def Unnoticed (w : World) (s : OramState β (PositionArray mapCapacity)) (calls : List Call) : Prop :=
  ∃ outcomes w₁ s₁ w₂ s₂, (O.attempts calls).exec w s = (.ok outcomes, w₁, s₁) ∧
    (O.attempts (calls.filter fun call => ¬ call.Rejected O)).exec w s =
      (.ok (((calls.zip outcomes).filter fun x => ¬ x.1.Rejected O).map Prod.snd), w₂, s₂)

end

/-! ## One call -/

section

variable {β : Type} {mapCapacity : ℕ} {O : Oram β (PositionArray mapCapacity)} (hmap : O.map = inMemoryPositionMap mapCapacity)

include hmap

/-- an access to a block that the map rejects stops at its first step -/
theorem access_screened {block : ℕ} (h : mapCapacity ≤ block) (read : Bool) (data response : Bytes) (w : World)
    (s : OramState β (PositionArray mapCapacity)) :
    (O.access read block data response).exec w s = (.error (.blockOutOfBound block mapCapacity), w, s) := by
  have hremap : (O.remap block).exec w s = (.error (.blockOutOfBound block mapCapacity), w, s) := by
    rw [exec_remap hmap, if_pos h]
  rw [access_eq]
  exact Prog.exec_bind_error hremap

/-- collecting the paths of a batch changes nothing, and it throws at the first block that the map rejects -/
theorem prefetch_screened {requests : List Block} (h : ∃ request ∈ requests, mapCapacity ≤ request.1) (w : World)
    (s : OramState β (PositionArray mapCapacity)) :
    ∃ block, (O.prefetch requests).exec w s = (.error (.blockOutOfBound block mapCapacity), w, s) := by
  have hgen : ∀ (requests : List Block) (locations : List ℕ), (∃ request ∈ requests, mapCapacity ≤ request.1) →
      ∃ block, Prog.exec (requests.foldlM (fun locations request => do
        let leaf ← Oram.onMap (O.map.get request.1)
        O.readPath leaf locations false) locations) w s = (.error (.blockOutOfBound block mapCapacity), w, s) := by
    intro requests
    induction requests with
    | nil => simp
    | cons request requests ih =>
      intro locations hreject
      rw [List.foldlM_cons]
      by_cases hblock : mapCapacity ≤ request.1
      · refine ⟨request.1, Prog.exec_bind_error (Prog.exec_bind_error ?_)⟩
        rw [Oram.onMap, Prog.exec_zoom, hmap, exec_arrayGet, if_pos hblock]
        rfl
      · have hget : (Oram.onMap (O.map.get request.1)).exec w s = (.ok (s.map[request.1]?.getD 0), w, s) := by
          rw [Oram.onMap, Prog.exec_zoom, hmap, exec_arrayGet, if_neg hblock]
          rfl
        have hstep := Prog.exec_bind_ok (f := fun leaf => O.readPath leaf locations false) hget
        obtain ⟨request', hmem, hblock'⟩ := hreject
        rcases List.mem_cons.1 hmem with rfl | hmem
        · exact absurd hblock' hblock
        · rw [Prog.exec_bind_ok (hstep.trans rfl)]
          exact ih _ ⟨request', hmem, hblock'⟩
  exact hgen requests [] h

/-- **A screened call changes nothing**: it throws with the state and the world that it found. -/
theorem exec_screened {call : Call} (h : call.Screened O) (w : World) (s : OramState β (PositionArray mapCapacity)) :
    ∃ e, (O.exec call).exec w s = (.error e, w, s) := by
  cases call with
  | get block =>
    have hblock : mapCapacity ≤ block := by simpa [Call.Screened, Call.batch, Call.ops] using h
    exact ⟨_, Prog.exec_bind_error (Prog.exec_bind_error (access_screened hmap hblock _ _ _ w s))⟩
  | put block data =>
    have hblock : mapCapacity ≤ block := by simpa [Call.Screened, Call.batch, Call.ops] using h
    exact ⟨_, Prog.exec_bind_error (Prog.exec_bind_error (access_screened hmap hblock _ _ _ w s))⟩
  | multiple requests =>
    by_cases hbatch : O.batchSize < requests.length
    · refine ⟨.tooManyRequests requests.length O.batchSize, Prog.exec_bind_error ?_⟩
      rw [Oram.multiple, if_pos hbatch]
      rfl
    · have hblock : ∃ request ∈ requests, mapCapacity ≤ request.1 := by
        simpa [Call.Screened, Call.batch, Call.ops, hbatch] using h
      obtain ⟨block, hprefetch⟩ := prefetch_screened hmap hblock w s
      refine ⟨.blockOutOfBound block mapCapacity, Prog.exec_bind_error ?_⟩
      rw [Oram.multiple, if_neg hbatch]
      exact Prog.exec_bind_error hprefetch

end

/-! ## Runs -/

/-- **Rejected calls are unnoticed**, in every run in which a payload is too long only where another check comes first. -/
theorem rejected_unnoticed {β : Type} {mapCapacity : ℕ} {O : Oram β (PositionArray mapCapacity)}
    (hmap : O.map = inMemoryPositionMap mapCapacity) {calls : List Call}
    (hcalls : ∀ call ∈ calls, call.Oversized O → call.Screened O) (w : World) (s : OramState β (PositionArray mapCapacity)) :
    Unnoticed O w s calls := by
  induction calls generalizing w s with
  | nil => exact ⟨[], w, s, w, s, rfl, rfl⟩
  | cons call calls ih =>
    have hrest : ∀ c ∈ calls, c.Oversized O → c.Screened O := fun c hc => hcalls c (List.mem_cons_of_mem _ hc)
    by_cases hreject : call.Rejected O
    · -- the rejected call hands its state and world on
      obtain ⟨e, he⟩ := exec_screened hmap (hreject.elim id (hcalls call List.mem_cons_self)) w s
      obtain ⟨outcomes, w₁, s₁, w₂, s₂, hall, hothers⟩ := ih hrest w s
      refine ⟨.error e :: outcomes, w₁, s₁, w₂, s₂, exec_attempts_cons he hall, ?_⟩
      simpa [hreject] using hothers
    · rcases hcall : (O.exec call).exec w s with ⟨r, w', s'⟩
      obtain ⟨outcomes, w₁, s₁, w₂, s₂, hall, hothers⟩ := ih hrest w' s'
      refine ⟨r :: outcomes, w₁, s₁, w₂, s₂, exec_attempts_cons hcall hall, ?_⟩
      have hcons := exec_attempts_cons hcall hothers
      simpa [hreject] using hcons

/-- an ID out of bounds on the tiny ORAM, between a put and a get -/
theorem rejected_unnoticed_tiny :
    Unnoticed (inMemoryOram tinyStorage plainCrypto 2 6 1 4) zeroWorld (zeroState tinyStorage 2)
      [.put 0 [1], .put 2 [5], .get 0] := rejected_unnoticed rfl (by decide) zeroWorld (zeroState tinyStorage 2)

/-- **A payload that is too long is noticed.** On the tiny ORAM, whose blocks have 32 bytes, a put of 33 bytes is rejected,
and a get of another block throws after it, as it does not without it. -/
theorem oversized_noticed : ∃ s, Reached (inMemoryOram tinyStorage plainCrypto 2 6 1 4) s ∧
    (((inMemoryOram tinyStorage plainCrypto 2 6 1 4).attempts [.put 0 (List.replicate 33 1)]).exec zeroWorld s).1 =
      .ok [.error (.dataTooLong 33 32)] ∧
    ¬ Unnoticed (inMemoryOram tinyStorage plainCrypto 2 6 1 4) zeroWorld s [.put 0 (List.replicate 33 1), .get 1] := by
  refine ⟨calledState tinyStorage 2 6 1 4 [], reached_calledState (by decide +kernel), by decide +kernel, ?_⟩
  rintro ⟨outcomes, w₁, s₁, w₂, s₂, hall, hothers⟩
  have hboth : (((inMemoryOram tinyStorage plainCrypto 2 6 1 4).attempts [.put 0 (List.replicate 33 1), .get 1]).exec
      zeroWorld (calledState tinyStorage 2 6 1 4 [])).1 =
        .ok [.error (.dataTooLong 33 32), .error (.dataTooLong 33 32)] := by decide +kernel
  have halone : (((inMemoryOram tinyStorage plainCrypto 2 6 1 4).attempts ([.put 0 (List.replicate 33 1), .get 1].filter
      fun call => ¬ call.Rejected (inMemoryOram tinyStorage plainCrypto 2 6 1 4))).exec
        zeroWorld (calledState tinyStorage 2 6 1 4 [])).1 = .ok [.ok (.got [])] := by decide +kernel
  rw [hall] at hboth
  cases hboth
  rw [hothers] at halone
  exact absurd (Except.ok.inj halone) (by decide +kernel)

end PathOram
