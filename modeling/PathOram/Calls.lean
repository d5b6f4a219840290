/-
The public methods as steps between views.

A call is its accesses followed by an upload (`exec_eq`). One that returns is `CallStep`: a preparation that leaves the
blocks alone (the download of `multiple`), its accesses in order (`AccessRun`), and an upload of the cache.

- `batchLoop_eq`: the loop over fewer than 2^32 requests makes one access after the other. `batchLoop_triple`: it keeps
  what each access keeps, and **over more requests it never returns** (`multiple_ends`).
- `exec_refines`: **every valid call that returns is a `CallStep`**, from any view that has the `Shape`. One that does not
  stops with a `CallFault`.
-/
import PathOram.Access

namespace PathOram

open Lib

/-- an ID of the ORAM and a payload that fits -/
structure Op.Valid {β μ : Type} (O : Oram β μ) (op : Op) : Prop where
  block_lt : op.block < 2 ^ O.height * O.Z
  data_le : op.data.length ≤ O.storage.userBlockSize

instance {β μ : Type} (O : Oram β μ) (op : Op) : Decidable (op.Valid O) :=
  decidable_of_iff (op.block < 2 ^ O.height * O.Z ∧ op.data.length ≤ O.storage.userBlockSize)
    ⟨fun h => ⟨h.1, h.2⟩, fun h => ⟨h.block_lt, h.data_le⟩⟩

/-- the requests of a batch -/
def Call.batch : Call → List Block
  | .multiple requests => requests
  | _ => []

/-- a batch whose 32-bit index cannot reach its end -/
def Call.Endless (c : Call) : Prop := 2 ^ 32 ≤ c.batch.length

theorem Call.not_endless {c : Call} (h : c.batch = []) : ¬ c.Endless := by
  rw [Call.Endless, h]
  exact Nat.not_succ_le_zero _

/-- IDs of the ORAM, payloads that fit, and a batch that is not too long -/
def Call.Valid {β μ : Type} (O : Oram β μ) (c : Call) : Prop :=
  (∀ op ∈ c.ops, op.Valid O) ∧ c.batch.length ≤ O.batchSize

instance {β μ : Type} (O : Oram β μ) (c : Call) : Decidable (c.Valid O) :=
  inferInstanceAs (Decidable ((∀ op ∈ c.ops, op.Valid O) ∧ c.batch.length ≤ O.batchSize))

section

variable {β μ : Type} (O : Oram β μ)

/-- what a batch does before its accesses: it caches the paths of its blocks -/
def Oram.prepare (requests : List Block) : Run (OramState β μ) (List Block) := do
  let locations ← O.prefetch requests
  O.getCache locations true

/-- the accesses of a batch -/
def Oram.serve (requests : List Block) : Run (OramState β μ) (List Bytes) :=
  O.batchLoop requests (requests.length + 1) 0 (List.replicate requests.length [])

theorem multiple_eq (requests : List Block) :
    O.multiple requests [] = if O.batchSize < requests.length then throw (.tooManyRequests requests.length O.batchSize)
      else do
        let _ ← O.prepare requests
        let answers ← O.serve requests
        O.syncCache
        return answers := by
  simp [Oram.multiple, Oram.prepare, Oram.serve]

/-- a call up to its upload -/
def Oram.accesses : Call → Run (OramState β μ) (List Bytes)
  | .get block => do return [← O.access true block [] []]
  | .put block data => do return [← O.access false block data []]
  | .multiple requests =>
    if O.batchSize < requests.length then throw (.tooManyRequests requests.length O.batchSize)
    else do
      let _ ← O.prepare requests
      O.serve requests

/-- a call is its accesses followed by an upload -/
theorem exec_eq (call : Call) : O.exec call = (do
    let rs ← O.accesses call
    O.syncCache
    return call.reply rs) := by
  cases call with
  | get block => simp [Oram.exec, Oram.get, Oram.accesses, Call.reply]
  | put block data => simp [Oram.exec, Oram.put, Oram.accesses, Call.reply]
  | multiple requests =>
    rw [Oram.exec, multiple_eq, Oram.accesses]
    split_ifs
    · rfl
    · simp [Call.reply]

/-- a get and a put make one access -/
theorem accesses_single {call : Call} {op : Op} (hops : call.ops = [op]) (hbatch : call.batch = []) :
    O.accesses call = do return [← O.access op.read op.block op.data []] := by
  cases call with
  | get block =>
    cases hops
    rfl
  | put block data =>
    cases hops
    rfl
  | multiple requests =>
    cases hbatch
    cases hops

/-! ## The loop of a batch -/

variable {O}

/-- a round of the loop -/
theorem batchLoop_round {requests : List Block} {i : ℕ} {request : Block} (h : requests[i]? = some request) (fuel : ℕ)
    (response : List Bytes) :
    O.batchLoop requests (fuel + 1) i response = (do
      let answer ← O.access (request.2.length == 0) request.1 request.2 (response.getD i [])
      O.batchLoop requests fuel ((i + 1) % 2 ^ 32) (response.set i answer)) := by
  obtain ⟨hi, rfl⟩ := List.getElem?_eq_some_iff.1 h
  have hrequest : requests.getD i (0, []) = requests[i] := by
    rw [List.getD_eq_getElem?_getD, h, Option.getD_some]
  rw [Oram.batchLoop, if_pos hi]
  simp only [hrequest]

/-- its end -/
theorem batchLoop_end {requests : List Block} {i : ℕ} (h : requests[i]? = none) (fuel : ℕ) (response : List Bytes) :
    O.batchLoop requests (fuel + 1) i response = pure response := by
  rw [Oram.batchLoop, if_neg (not_lt.2 (List.getElem?_eq_none_iff.1 h))]

/-- the loop in the middle of a batch -/
theorem batchLoop_append (done rest : List Block) {answers response : List Bytes} (hanswers : answers.length = done.length)
    (hresponse : response.length = rest.length) (hshort : (done ++ rest).length < 2 ^ 32) :
    O.batchLoop (done ++ rest) (rest.length + 1) done.length (answers ++ response) = (do
      let rs ← (rest.zip response).mapM fun r => O.access (r.1.2.length == 0) r.1.1 r.1.2 r.2
      return answers ++ rs) := by
  induction rest generalizing done answers response with
  | nil =>
    have hnil := List.eq_nil_of_length_eq_zero hresponse
    subst hnil
    rw [batchLoop_end (by simp)]
    simp
  | cons request rest ih =>
    obtain ⟨old, response, rfl⟩ := List.exists_of_length_succ response hresponse
    have hlt : done.length + 1 < 2 ^ 32 := by
      simp only [List.length_append, List.length_cons] at hshort
      omega
    have hrequest : (done ++ request :: rest)[done.length]? = some request := by simp
    have hold : (answers ++ old :: response).getD done.length [] = old := by simp [← hanswers]
    rw [batchLoop_round hrequest, hold, Nat.mod_eq_of_lt hlt, List.zip_cons_cons, List.mapM_cons, bind_assoc]
    congr 1
    funext answer
    have hset : (answers ++ old :: response).set done.length answer = (answers ++ [answer]) ++ response := by
      simp [← hanswers]
    have hrest := @ih (done ++ [request]) (answers ++ [answer]) response (by simp [hanswers]) (Nat.succ.inj hresponse)
      (by simpa using hshort)
    rw [List.append_assoc, List.singleton_append, List.length_append, List.length_singleton] at hrest
    rw [hset, List.length_cons, hrest]
    simp

/-- fewer than 2^32 requests are served one after the other -/
theorem batchLoop_eq {requests : List Block} (hshort : requests.length < 2 ^ 32) {response : List Bytes}
    (hresponse : response.length = requests.length) :
    O.batchLoop requests (requests.length + 1) 0 response =
      (requests.zip response).mapM fun r => O.access (r.1.2.length == 0) r.1.1 r.1.2 r.2 := by
  have h := @batchLoop_append _ _ O [] requests [] response rfl hresponse hshort
  simpa using h

/-- the loop keeps what each access keeps; it returns only if its index can reach the end -/
theorem batchLoop_triple {I : OramState β μ → Prop} {E : Exception → OramState β μ → Prop} {requests : List Block}
    (haccess : ∀ r ∈ requests, ∀ response, Triple I (O.access (r.2.length == 0) r.1 r.2 response) (fun _ => I) E)
    (hendless : 2 ^ 32 ≤ requests.length → ∀ s, I s → E .diverges s) :
    ∀ fuel i, i < 2 ^ 32 → (requests.length < 2 ^ 32 → i ≤ requests.length ∧ requests.length < fuel + i) → ∀ response,
      Triple I (O.batchLoop requests fuel i response) (fun _ s => I s ∧ requests.length < 2 ^ 32) E
  | 0, i, hi, hfuel, response => by
    refine Triple.throw fun s hs => hendless (not_lt.1 fun hshort => ?_) s hs
    have := hfuel hshort
    omega
  | fuel + 1, i, hi, hfuel, response => by
    rcases h : requests[i]? with _ | request
    · rw [batchLoop_end h]
      have hend := List.getElem?_eq_none_iff.1 h
      exact Triple.pure fun s hs => ⟨hs, by omega⟩
    · rw [batchLoop_round h]
      have hlt := (List.getElem?_eq_some_iff.1 h).1
      refine (haccess request (List.mem_of_getElem? h) _).bind fun answer =>
        batchLoop_triple haccess hendless fuel _ (Nat.mod_lt _ (by norm_num)) (fun hshort => ?_) _
      rw [Nat.mod_eq_of_lt (by omega)]
      have := hfuel hshort
      omega

theorem serve_triple {I : OramState β μ → Prop} {E : Exception → OramState β μ → Prop} {requests : List Block}
    (haccess : ∀ r ∈ requests, ∀ response, Triple I (O.access (r.2.length == 0) r.1 r.2 response) (fun _ => I) E)
    (hendless : 2 ^ 32 ≤ requests.length → ∀ s, I s → E .diverges s) :
    Triple I (O.serve requests) (fun _ s => I s ∧ requests.length < 2 ^ 32) E :=
  batchLoop_triple haccess hendless _ _ (by norm_num) (fun _ => ⟨Nat.zero_le _, Nat.lt_succ_self _⟩) _

/-- fewer than 2^32 accesses come to an end -/
theorem serve_eq {requests : List Block} (hshort : requests.length < 2 ^ 32) :
    O.serve requests = (requests.zip (List.replicate requests.length [])).mapM fun r =>
      O.access (r.1.2.length == 0) r.1.1 r.1.2 r.2 := batchLoop_eq hshort List.length_replicate

/-- whatever its fuel, a loop that returns is over fewer than 2^32 requests -/
theorem batchLoop_ends (requests : List Block) (fuel : ℕ) (response : List Bytes) :
    Triple (fun _ => True) (O.batchLoop requests fuel 0 response) (fun _ _ => requests.length < 2 ^ 32) (fun _ _ => True) := by
  rcases lt_or_ge requests.length (2 ^ 32) with hshort | hlong
  · exact (Triple.trivial _ _).post fun _ _ _ => hshort
  · have hloop : Triple (fun _ => True) (O.batchLoop requests fuel 0 response) (fun _ _ => True ∧ requests.length < 2 ^ 32)
        (fun _ _ => True) := batchLoop_triple (fun _ _ _ => Triple.trivial _ _) (fun _ _ _ => trivial) fuel 0 (by norm_num)
      (fun hshort => absurd hlong (not_le.2 hshort)) response
    exact hloop.post fun _ _ hs => hs.2

/-- **A loop without end.** Over 2^32 requests no number of rounds is enough. -/
theorem batchLoop_endless {requests : List Block} (hlong : 2 ^ 32 ≤ requests.length) (fuel : ℕ) (response answers : List Bytes)
    (w : World) (s : OramState β μ) : ((O.batchLoop requests fuel 0 response).exec w s).1 ≠ .ok answers := by
  intro h
  exact absurd ((batchLoop_ends requests fuel response).ok trivial (Prog.exec_eq h)) (not_lt.2 hlong)

/-- a batch that returns has an end -/
theorem multiple_ends (requests : List Block) (response : List Bytes) :
    Triple (fun _ => True) (O.multiple requests response) (fun _ _ => requests.length < 2 ^ 32) (fun _ _ => True) := by
  have hloop : ∀ response, Triple (fun _ => True) (O.batchLoop requests (requests.length + 1) 0 response)
      (fun _ _ => requests.length < 2 ^ 32 ∧ True) (fun _ _ => True) := fun response =>
    (batchLoop_ends requests _ response).post fun _ _ hshort => ⟨hshort, trivial⟩
  unfold Oram.multiple
  refine Triple.ite (fun _ => Triple.throw fun _ _ => trivial) fun _ => (Triple.trivial _ _).bind fun _ =>
    (Triple.trivial _ _).bind fun _ => (hloop _).bind fun _ => Triple.of_pure fun hshort => ?_
  exact (Triple.trivial _ _).post fun _ _ _ => hshort

/-- a call that returns is not endless -/
theorem exec_ends (call : Call) : Triple (fun _ => True) (O.exec call) (fun _ _ => ¬ call.Endless) (fun _ _ => True) := by
  cases call with
  | get block => exact (Triple.trivial _ _).post fun _ _ _ => Call.not_endless rfl
  | put block data => exact (Triple.trivial _ _).post fun _ _ _ => Call.not_endless rfl
  | multiple requests => exact (multiple_ends requests []).bind fun _ => Triple.pure fun _ hs => not_le.2 hs

end

namespace LawfulOram

variable {β μ : Type} {O : Oram β μ} {L : LawfulOram O} {v v' : View}

/-! ## Sequences of accesses -/

/-- accesses in turn, with their responses -/
inductive AccessRun (O : Oram β μ) : View → List Op → List Bytes → View → Prop
  | nil (v : View) : AccessRun O v [] [] v
  | cons {v v₁ v₂ : View} {op : Op} {ops : List Op} {r : Bytes} {rs : List Bytes} :
      Accessed O v op [] r v₁ → AccessRun O v₁ ops rs v₂ → AccessRun O v (op :: ops) (r :: rs) v₂

theorem shape_accessRun (L : LawfulOram O) {ops : List Op} {rs : List Bytes} (h : AccessRun O v ops rs v')
    (hv : Shape O v) (hops : ∀ op ∈ ops, op.Valid O) : Shape O v' := by
  induction h with
  | nil => exact hv
  | cons ha _ ih =>
    have hop := hops _ List.mem_cons_self
    exact ih (shape_accessed L hv hop.block_lt hop.data_le ha) fun op hm => hops op (List.mem_cons_of_mem _ hm)

/-- what a call stops with: what an access throws, or never, which only an endless batch does -/
def CallFault (L : LawfulOram O) (c : Call) (e : Exception) : Prop := AccessFault L e ∨ e = .diverges ∧ c.Endless

/-- one access after the other -/
theorem accesses_refines (hv : Shape O v) (c : Call) (requests : List Block)
    (hr : ∀ r ∈ requests, Op.Valid O ⟨r.2.length == 0, r.1, r.2⟩) :
    Refines L.Sees v ((requests.zip (List.replicate requests.length [])).mapM fun r =>
        O.access (r.1.2.length == 0) r.1.1 r.1.2 r.2)
      (AccessRun O v (requests.map fun r => ⟨r.2.length == 0, r.1, r.2⟩)) (L.Fails fun e _ => CallFault L c e) := by
  induction requests generalizing v with
  | nil => exact Refines.pure (AccessRun.nil v)
  | cons r requests ih =>
    have hvalid := hr r List.mem_cons_self
    rw [List.length_cons, List.replicate_succ, List.zip_cons_cons, List.mapM_cons]
    have haccess := access_refines (L := L) hv hvalid.block_lt []
    refine Refines.bind (refines_mono haccess (fun _ _ h => h) fun _ _ he => Or.inl he.1) fun a v₁ ha => ?_
    have hrest := ih (shape_accessed L hv hvalid.block_lt hvalid.data_le ha) fun r hm => hr r (List.mem_cons_of_mem _ hm)
    exact hrest.bind fun rs v₂ hrs => Refines.pure (AccessRun.cons ha hrs)

/-- the accesses of a batch, which come to an end if they are fewer than 2^32 -/
theorem serve_refines (hv : Shape O v) {requests : List Block}
    (hr : ∀ r ∈ requests, Op.Valid O ⟨r.2.length == 0, r.1, r.2⟩) :
    Refines L.Sees v (O.serve requests) (AccessRun O v (requests.map fun r => ⟨r.2.length == 0, r.1, r.2⟩))
      (L.Fails fun e _ => CallFault L (.multiple requests) e) := by
  rcases lt_or_ge requests.length (2 ^ 32) with hshort | hlong
  · rw [serve_eq hshort]
    exact accesses_refines hv _ requests hr
  · have haccess : ∀ r ∈ requests, ∀ response, Triple (fun s => ∃ v', Shape O v' ∧ L.Sees v' s)
        (O.access (r.2.length == 0) r.1 r.2 response) (fun _ s => ∃ v', Shape O v' ∧ L.Sees v' s)
        (L.Fails fun e _ => CallFault L (.multiple requests) e) := by
      intro r hm response
      apply Triple.exists_pre
      intro v'
      apply Triple.of_pure
      intro hv'
      have hvalid := hr r hm
      refine Triple.conseq (access_refines (L := L) hv' hvalid.block_lt response) (fun _ h => h) (fun a s h => ?_) fun e s he =>
        Fails.mono (fun _ _ he => Or.inl he.1) he
      obtain ⟨v₁, ha, hs⟩ := h
      exact ⟨v₁, shape_accessed L hv' hvalid.block_lt hvalid.data_le ha, hs⟩
    have hserve := serve_triple haccess fun _ s ⟨v', _, hs⟩ => Or.inr ⟨v', Or.inr ⟨rfl, hlong⟩, hs⟩
    exact hserve.conseq (fun s hs => ⟨v, hv, hs⟩) (fun _ s hs => absurd hs.2 (not_lt.2 hlong)) fun _ _ he => he

/-! ## Calls -/

/-- positions, stash and tree are left alone, and valid locations are cached -/
def Prepared (O : Oram β μ) (v v' : View) : Prop :=
  ∃ cached mapCalls calls, (∀ ℓ, cached ℓ = true → v.cached ℓ = true ∨ ℓ < O.storage.capacity) ∧
    v' = { v with cached := cached, mapCalls := mapCalls, calls := calls }

theorem Prepared.refl (v : View) : Prepared O v v := ⟨v.cached, v.mapCalls, v.calls, fun _ h => Or.inl h, rfl⟩

theorem shape_prepared (h : Shape O v) (hp : Prepared O v v') : Shape O v' := by
  obtain ⟨cached, mapCalls, calls, hc, rfl⟩ := hp
  exact ⟨h.pos_lt, h.bucket_length, h.tree_id, h.tree_data, h.stash_id, h.stash_data,
    fun ℓ hℓ => (hc ℓ hℓ).elim (h.cached_lt ℓ) id⟩

/-- a call that returns -/
def CallStep (O : Oram β μ) (v : View) (ops : List Op) (rs : List Bytes) (v' : View) : Prop :=
  ∃ v₁ v₂, Prepared O v v₁ ∧ AccessRun O v₁ ops rs v₂ ∧ Synced O v₂ v'

theorem prefetch_refines (hv : Shape O v) {requests : List Block} (hr : ∀ r ∈ requests, r.1 < 2 ^ O.height * O.Z)
    {F : Exception → View → Prop} :
    Refines L.Sees v (O.prefetch requests)
      (fun locations v' => (locations.Nodup ∧ ∀ ℓ ∈ locations, ℓ < 2 ^ O.height) ∧
        ∃ mapCalls, v' = { v with mapCalls := mapCalls })
      (L.Fails F) := by
  refine Refines.foldlM (fun _ (locations : List ℕ) v' => (locations.Nodup ∧ ∀ ℓ ∈ locations, ℓ < 2 ^ O.height) ∧
    ∃ mapCalls, v' = { v with mapCalls := mapCalls }) ?_ [] ⟨⟨List.nodup_nil, by simp⟩, v.mapCalls, rfl⟩
  · rintro locations r rest v₁ hm ⟨⟨hnodup, hlt⟩, mapCalls, rfl⟩
    have hid := hr r (hm.subset List.mem_cons_self)
    refine (map_get_refines hid).bind fun leaf v₂ ⟨hleaf, hv₂⟩ => ?_
    subst hleaf hv₂
    obtain ⟨hnodup', hmem'⟩ := L.pathLocations_spec (hv.pos_lt _ hid) hnodup
    refine Refines.pure ⟨⟨hnodup', fun ℓ hℓ => ?_⟩, _, rfl⟩
    rcases (hmem' ℓ).1 hℓ with hℓ | hℓ
    · exact hlt ℓ hℓ
    · exact (mem_path_lt (hv.pos_lt _ hid) hℓ).2

/-- what a batch does before its accesses -/
theorem prepare_refines (L : LawfulOram O) (hv : Shape O v) {requests : List Block}
    (hr : ∀ r ∈ requests, r.1 < 2 ^ O.height * O.Z) :
    Refines L.Sees v (O.prepare requests) (fun _ v' => Prepared O v v')
      (L.Fails fun e v' => L.storage.fault e ∧ Prepared O v v') := by
  refine (prefetch_refines hv hr).bind ?_
  rintro locations v₁ ⟨⟨hnodup, htree⟩, mapCalls, rfl⟩
  have hlt : ∀ ℓ ∈ locations, ℓ < O.storage.capacity := fun ℓ hℓ => (htree ℓ hℓ).trans_le L.capacity_ge
  refine refines_mono (getCache_refines true hlt (L.locations_length hnodup htree) fun ℓ hℓ =>
    hv.bucket_length ℓ (hlt ℓ hℓ)) ?_ ?_
  · rintro _ v' ⟨⟨missing, -, rfl⟩, -⟩
    refine ⟨_, _, _, fun ℓ h => ?_, rfl⟩
    rcases (Bool.or_eq_true _ _).mp h with hc | hm
    · exact Or.inl hc
    · exact Or.inr (hlt ℓ (of_decide_eq_true hm))
  · rintro e v' ⟨he, call, rfl⟩
    exact ⟨he, v.cached, _, _, fun ℓ h => Or.inl h, rfl⟩

/-- the accesses of a call were made -/
def Served (O : Oram β μ) (v : View) (ops : List Op) (rs : List Bytes) (v' : View) : Prop :=
  ∃ v₁, Prepared O v v₁ ∧ AccessRun O v₁ ops rs v'

/-- the access of `get` and `put` -/
theorem single_refines (hv : Shape O v) {op : Op} (hop : op.Valid O) (c : Call) :
    Refines L.Sees v (O.access op.read op.block op.data []) (fun r v' => Served O v [op] [r] v')
      (L.Fails fun e _ => CallFault L c e) :=
  refines_mono (access_refines hv hop.block_lt []) (fun _ v₁ ha => ⟨v, Prepared.refl v, AccessRun.cons ha (AccessRun.nil v₁)⟩)
    fun _ _ he => Or.inl he.1

/-- **Before its upload a call is a sequence of accesses.** -/
theorem accesses_served (hv : Shape O v) {c : Call} (hc : c.Valid O) :
    Refines L.Sees v (O.accesses c) (Served O v c.ops) (L.Fails fun e _ => CallFault L c e) := by
  cases c with
  | get block =>
    have haccess := single_refines (L := L) hv (hc.1 _ List.mem_cons_self) (.get block)
    exact haccess.bind fun r v' h => Refines.pure h
  | put block data =>
    have haccess := single_refines (L := L) hv (hc.1 _ List.mem_cons_self) (.put block data)
    exact haccess.bind fun r v' h => Refines.pure h
  | multiple requests =>
    have hr : ∀ r ∈ requests, Op.Valid O ⟨r.2.length == 0, r.1, r.2⟩ := fun r hm => hc.1 _ (List.mem_map.2 ⟨r, hm, rfl⟩)
    apply Triple.ite (fun h => absurd hc.2 (not_le.2 h))
    intro _
    refine Refines.bind (refines_mono (prepare_refines L hv fun r hm => (hr r hm).block_lt) (fun _ _ h => h)
      fun _ _ he => Or.inl (Or.inl he.1)) fun _ v₁ hp => ?_
    exact Refines.post (serve_refines (shape_prepared hv hp) hr) fun _ _ h => ⟨v₁, hp, h⟩

theorem shape_served (L : LawfulOram O) (hv : Shape O v) {ops : List Op} (hops : ∀ op ∈ ops, op.Valid O) {rs : List Bytes}
    (h : Served O v ops rs v') : Shape O v' := by
  obtain ⟨v₁, hp, hr⟩ := h
  exact shape_accessRun L hr (shape_prepared hv hp) hops

/-- **Every valid call is a sequence of accesses followed by an upload.** -/
theorem exec_refines (hv : Shape O v) {c : Call} (hc : c.Valid O) :
    Refines L.Sees v (O.exec c) (fun reply v' => ∃ rs, reply = c.reply rs ∧ CallStep O v c.ops rs v')
      (L.Fails fun e _ => CallFault L c e) := by
  rw [exec_eq]
  apply (accesses_served hv hc).bind
  intro rs v₂ hserved
  obtain ⟨v₁, hp, hr⟩ := id hserved
  have hsync := syncCache_refines (L := L) ((shape_served L hv hc.1 hserved).flushable L)
  exact Refines.bind (refines_mono hsync (fun _ _ h => h) fun _ _ h => Or.inl (Or.inl h.1)) fun _ v₃ h =>
    Refines.pure ⟨rs, rfl, v₁, v₂, hp, hr, h⟩

theorem get_refines (hv : Shape O v) {block : ℕ} (hop : Op.Valid O ⟨true, block, []⟩) :
    Refines L.Sees v (O.get block []) (fun r v' => CallStep O v [⟨true, block, []⟩] [r] v')
      (L.Fails fun e _ => CallFault L (.get block) e) := by
  apply (single_refines hv hop _).bind
  intro r v₂ hserved
  obtain ⟨v₁, hp, hr⟩ := id hserved
  have hv₂ := shape_served L hv (List.forall_mem_singleton.2 hop) hserved
  have hsync := syncCache_refines (L := L) (hv₂.flushable L)
  exact Refines.bind (refines_mono hsync (fun _ _ h => h) fun _ _ h => Or.inl (Or.inl h.1)) fun _ v₃ h =>
    Refines.pure ⟨v₁, v₂, hp, hr, h⟩

end LawfulOram

end PathOram
