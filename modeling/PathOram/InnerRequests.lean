/-
What a request costs the ORAM that holds the positions.

Every call of an ORAM's position map is one `get` or `put` of the inner ORAM, and the record of the map's calls counts
them. The results hold from any state and ask nothing of the inner ORAM: it may even answer two questions for one block
differently, which is why a `Consultation` has an answer for each level.

- `request_recorded`: **a request that returns** reads and remaps its block once, and then reads one position for each
  entry of the stash that a level of the eviction looks at.
- `inner_requests`: the number of those is a function of the leaf of the path and of the leaves answered for the
  entries of the stash, in the order of the scan. It is the same for two requests if these are, whatever else differs.
- `inner_requests_differ`: they differ between a get and a put of one block in one state.
-/
import PathOram.Frame
import PathOram.Recursion

namespace PathOram

open Lib

/-! ## Records of questions -/

/-- an access as a call: `get` or `put` -/
def Op.call (op : Op) : Call := if op.read then .get op.block else .put op.block op.data

/-- a call that reads a position: one `get` of the inner ORAM. The others are one `put`. -/
def MapCall.isGet : MapCall → Bool
  | .get _ _ => true
  | .set _ _ => false

/-- what an eviction consults: the leaf of its path, the entries of the stash in the order of the scan, and the leaf
answered on each level for each ID -/
structure Consultation where
  leaf : ℕ
  entries : List Block
  answers : ℕ → ℕ → ℕ

namespace Consultation

/-- for each entry the leaves answered, level by level -/
def leaves (x : Consultation) : List (ℕ → ℕ) := x.entries.map fun b level => x.answers level b.1

end Consultation

section

variable {β β' μ' : Type} (O : Oram β (OramMapState β' μ'))

/-- the block goes to the bucket of a level if the leaf answered for it lets it -/
def Oram.admits (answers : ℕ → ℕ → ℕ) (leaf level : ℕ) (b : Block) : Bool := O.canInclude (answers level b.1) leaf level

/-- the questions of the levels of an eviction, from the leaf to the root -/
def Oram.questions (answers : ℕ → ℕ → ℕ) (leaf : ℕ) : ℕ → List Block → List MapCall
  | 0, _ => []
  | level + 1, l =>
    ((visits (O.admits answers leaf level) O.Z l).map fun b => .get b.1 (answers level b.1)) ++
      questions answers leaf level (pick (O.admits answers leaf level) O.Z l).2

/-- how many entries an eviction looks at, once for each level that looks at them -/
def Oram.looks (leaf : ℕ) (leaves : List (ℕ → ℕ)) : ℕ :=
  (evictVisits (fun level answer => O.canInclude (answer level) leaf level) O.Z O.height leaves).length

/-- x is what the access consults: the leaf read from the map, and the stash after the path was read and a write has put
its payload in -/
structure Consultation.Describes (x : Consultation) (op : Op) (w : World) (s s' : OramState β (OramMapState β' μ')) :
    Prop where
  entries : ∃ w₁ s₁ path w₂ s₂, (O.remap op.block).exec w s = (.ok x.leaf, w₁, s₁) ∧
    (O.readPath x.leaf [] true).exec w₁ s₁ = (.ok path, w₂, s₂) ∧
    LawfulOram.Lists x.entries fun k => (if op.read then s₂.stash else s₂.stash.insert op.block op.data).lookup k
  record : ∃ leaf, s'.map.calls = s.map.calls ++ [.get op.block x.leaf, .set op.block leaf] ++
    O.questions x.answers x.leaf O.height x.entries

theorem length_questions (answers : ℕ → ℕ → ℕ) (leaf levels : ℕ) (l : List Block) :
    (O.questions answers leaf levels l).length = (evictVisits (O.admits answers leaf) O.Z levels l).length := by
  induction levels generalizing l with
  | zero => rfl
  | succ level ih => rw [Oram.questions, evictVisits, List.length_append, List.length_map, List.length_append, ih]

/-- the number of questions is a function of the leaves -/
theorem length_questions_eq (x : Consultation) :
    (O.questions x.answers x.leaf O.height x.entries).length = O.looks x.leaf x.leaves := by
  have hmap := evictVisits_map O.Z (fun level (answer : ℕ → ℕ) => O.canInclude (answer level) x.leaf level)
    (fun (b : Block) level => x.answers level b.1) O.height x.entries
  rw [length_questions, Oram.looks, Consultation.leaves, ← hmap, List.length_map]
  rfl

theorem questions_isGet (answers : ℕ → ℕ → ℕ) (leaf levels : ℕ) (l : List Block) :
    ∀ call ∈ O.questions answers leaf levels l, call.isGet = true := by
  induction levels generalizing l with
  | zero => simp [Oram.questions]
  | succ level ih =>
    intro call hcall
    rcases List.mem_append.1 hcall with h | h
    · obtain ⟨b, -, rfl⟩ := List.mem_map.1 h
      rfl
    · exact ih _ call h

/-- answers of the levels below are all that the questions below depend on -/
theorem questions_congr {answers answers' : ℕ → ℕ → ℕ} (leaf levels : ℕ) (l : List Block)
    (h : ∀ level < levels, answers level = answers' level) :
    O.questions answers leaf levels l = O.questions answers' leaf levels l := by
  induction levels generalizing l with
  | zero => rfl
  | succ level ih =>
    have hlevel := h level (Nat.lt_succ_self level)
    have hadmits : O.admits answers leaf level = O.admits answers' leaf level := by
      funext b
      rw [Oram.admits, Oram.admits, hlevel]
    rw [Oram.questions, Oram.questions, hadmits, hlevel, ih _ fun k hk => h k (hk.trans (Nat.lt_succ_self level))]

end

/-! ## The record of a request -/

section

variable {β β' μ' : Type} {O : Oram β (OramMapState β' μ')} {I : Oram β' μ'}

/-- the record of the map, in front of any state -/
def Recorded (calls : List MapCall) (s : OramState β (OramMapState β' μ')) : Prop := s.map.calls = calls

theorem mapGet_recorded (hmap : O.map = oramPositionMap I) (block : ℕ) (calls : List MapCall) :
    Triple (Recorded calls) (Oram.onMap (O.map.get block) : Run (OramState β (OramMapState β' μ')) ℕ)
      (fun leaf => Recorded (calls ++ [.get block leaf])) (fun _ _ => True) := by
  have hget : Triple (fun m : OramMapState β' μ' => m.calls = calls) ((oramPositionMap I).get block)
      (fun leaf m => m.calls = calls ++ [.get block leaf]) (fun _ _ => True) := by
    refine Triple.bind (Q := fun _ m => m.calls = calls) ?_ fun returned => ?_
    · exact (Triple.zoom_keeps (OramMapState.oramLens β' μ') (P := fun m => m.calls = calls) (fun _ _ h => h) _).conseq
        (fun _ h => h) (fun _ _ h => h) fun _ _ _ => trivial
    refine Triple.bind (Q := fun _ m => m.calls = calls) ?_ fun leaf => ?_
    · exact Triple.ite (fun _ => Triple.throw fun _ _ => trivial) fun _ => Triple.pure fun _ h => h
    refine Triple.bind (Q := fun _ m => m.calls = calls ++ [.get block leaf]) ?_ fun _ => Triple.pure fun _ h => h
    exact Triple.modify fun m h => by rw [h]
  rw [hmap]
  exact (Triple.zoom_frame (OramState.mapLens β (OramMapState β' μ')) hget (F := fun _ => True) fun _ _ h => h).conseq
    (fun _ h => ⟨h, trivial⟩) (fun _ _ h => h.1) fun _ _ _ => trivial

theorem mapSet_recorded (hmap : O.map = oramPositionMap I) (block leaf : ℕ) (calls : List MapCall) :
    Triple (Recorded calls) (Oram.onMap (O.map.set block leaf) : Run (OramState β (OramMapState β' μ')) Unit)
      (fun _ => Recorded (calls ++ [.set block leaf])) (fun _ _ => True) := by
  have hset : Triple (fun m : OramMapState β' μ' => m.calls = calls) ((oramPositionMap I).set block leaf)
      (fun _ m => m.calls = calls ++ [.set block leaf]) (fun _ _ => True) := by
    refine Triple.bind (Q := fun _ m => m.calls = calls) ?_ fun _ => Triple.modify fun m h => by rw [h]
    exact (Triple.zoom_keeps (OramMapState.oramLens β' μ') (P := fun m => m.calls = calls) (fun _ _ h => h) _).conseq
      (fun _ h => h) (fun _ _ h => h) fun _ _ _ => trivial
  rw [hmap]
  exact (Triple.zoom_frame (OramState.mapLens β (OramMapState β' μ')) hset (F := fun _ => True) fun _ _ h => h).conseq
    (fun _ h => ⟨h, trivial⟩) (fun _ _ h => h.1) fun _ _ _ => trivial

/-- the first step of an access: one question and one entry -/
theorem remap_recorded (hmap : O.map = oramPositionMap I) (block : ℕ) (calls : List MapCall) :
    Triple (Recorded calls) (O.remap block)
      (fun previous s => ∃ leaf, Recorded (calls ++ [.get block previous, .set block leaf]) s) (fun _ _ => True) := by
  unfold Oram.remap
  apply (mapGet_recorded hmap block calls).bind
  intro previous
  refine Triple.bind (Q := fun _ => Recorded (calls ++ [.get block previous])) ?_ fun leaf => ?_
  · exact randBytes_triple.bind fun _ => Triple.pure fun _ h => h
  refine (mapSet_recorded hmap block leaf _).bind fun _ => Triple.pure fun s h => ⟨leaf, ?_⟩
  simpa using h

/-- the scan of one level: its answers, and what they select -/
theorem scanStash_recorded (hmap : O.map = oramPositionMap I) {leaf level : ℕ} {l : List Block}
    (hl : (l.map Prod.fst).Nodup) (i : ℕ) (acc : Oram.Scan) {n : ℕ} (hn : acc.toInsert.length + n = O.Z) (hpos : 0 < n)
    (calls : List MapCall) :
    Triple (Recorded calls) (O.scanStash leaf level l i acc)
      (fun scan s => ∃ answers : ℕ → ℕ, ∃ fits : Block → Bool, (fits = fun b => O.canInclude (answers b.1) leaf level) ∧
        scan.toInsert = acc.toInsert ++ (pick fits n l).1 ∧
        scan.toDeleteLocal = acc.toDeleteLocal ++ (pickIdx fits n l).map (· + i) ∧
        Recorded (calls ++ (visits fits n l).map fun b => .get b.1 (answers b.1)) s) (fun _ _ => True) := by
  obtain ⟨n, rfl⟩ := Nat.exists_eq_succ_of_ne_zero hpos.ne'
  induction l generalizing i acc n calls with
  | nil => exact Triple.pure fun s h => ⟨fun _ => 0, _, rfl, by simp [pick], by simp [pickIdx], by simpa [visits] using h⟩
  | cons b l ih =>
    rw [List.map_cons, List.nodup_cons] at hl
    rw [Oram.scanStash]
    apply (mapGet_recorded hmap b.1 calls).bind
    intro entryLeaf
    -- the answers for the rest, and this one for b
    have hcons : ∀ (answers : ℕ → ℕ) (x : Block), x ∈ l → Function.update answers b.1 entryLeaf x.1 = answers x.1 := by
      intro answers x hx
      have hx : x.1 ∈ l.map Prod.fst := List.mem_map_of_mem hx
      exact Function.update_of_ne (fun he : x.1 = b.1 => hl.1 (he ▸ hx)) _ _
    have hrest : ∀ (answers : ℕ → ℕ) (m : ℕ), _ := fun answers m =>
      pick_congr (p := fun x => O.canInclude (Function.update answers b.1 entryLeaf x.1) leaf level)
        (q := fun x => O.canInclude (answers x.1) leaf level) m (l := l) fun x hx => by rw [hcons answers x hx]
    have hvisited : ∀ (answers : ℕ → ℕ) (fits : Block → Bool) (m : ℕ),
        ((visits fits m l).map fun x => MapCall.get x.1 (Function.update answers b.1 entryLeaf x.1)) =
          (visits fits m l).map fun x => .get x.1 (answers x.1) := by
      intro answers fits m
      apply List.map_congr_left
      intro x hx
      rw [hcons answers x (visits_subset _ hx)]
    refine Triple.ite (fun hfit => ?_) fun hfit => ?_
    · refine Triple.ite (fun hfull => ?_) fun hmore => ?_
      · have hzero : n = 0 := by simp at hfull; omega
        subst hzero
        refine Triple.pure fun s h => ⟨fun _ => entryLeaf, _, rfl, ?_, ?_, ?_⟩
        · simp [pick, hfit]
        · simp [pickIdx, hfit]
        · simpa [visits, hfit] using h
      · obtain ⟨n, rfl⟩ := Nat.exists_eq_succ_of_ne_zero (show n ≠ 0 by rintro rfl; simp at hmore; omega)
        apply (ih hl.2 (i + 1) _ _ n (by simp; omega) (Nat.succ_pos n)).post
        intro scan s hs
        obtain ⟨answers, fits, rfl, hinsert, hlocal, hrecord⟩ := hs
        refine ⟨Function.update answers b.1 entryLeaf, _, rfl, ?_, ?_, ?_⟩
        · rw [hinsert, pick]
          simp [hfit, (hrest answers (n + 1)).1]
        · rw [hlocal, pickIdx]
          simp [hfit, (hrest answers (n + 1)).2.1, Function.comp_def, Nat.add_assoc, Nat.add_comm 1]
        · rw [visits]
          simp only [Function.update_self, hfit, if_true, List.map_cons, (hrest answers (n + 1)).2.2, hvisited]
          simpa using hrecord
    · apply (ih hl.2 (i + 1) acc _ n hn (Nat.succ_pos n)).post
      intro scan s hs
      obtain ⟨answers, fits, rfl, hinsert, hlocal, hrecord⟩ := hs
      refine ⟨Function.update answers b.1 entryLeaf, _, rfl, ?_, ?_, ?_⟩
      · rw [hinsert, pick]
        simp [hfit, (hrest answers (n + 1)).1]
      · rw [hlocal, pickIdx]
        simp [hfit, (hrest answers (n + 1)).2.1, Function.comp_def, Nat.add_assoc, Nat.add_comm 1]
      · rw [visits]
        simp only [Function.update_self, hfit, Bool.false_eq_true, if_false, List.map_cons, (hrest answers (n + 1)).2.2,
          hvisited]
        simpa using hrecord

/-- the levels of an eviction ask their questions, and nothing else is asked -/
theorem writeLevels_recorded (hmap : O.map = oramPositionMap I) (hZ : 0 < O.Z) {leaf : ℕ} (levels : ℕ) (e : Oram.Eviction)
    (he : (e.currentStash.map Prod.fst).Nodup) (calls : List MapCall) :
    Triple (Recorded calls) (O.writeLevels leaf levels e)
      (fun _ s => ∃ answers : ℕ → ℕ → ℕ, Recorded (calls ++ O.questions answers leaf levels e.currentStash) s)
      (fun _ _ => True) := by
  induction levels generalizing e calls with
  | zero => exact Triple.pure fun s h => ⟨fun _ _ => 0, by simpa [Oram.questions] using h⟩
  | succ level ih =>
    rw [Oram.writeLevels, Oram.writeLevel]
    refine Triple.bind (Q := fun e' s => ∃ answers : ℕ → ℕ, ∃ fits : Block → Bool,
      (fits = fun b => O.canInclude (answers b.1) leaf level) ∧ e'.currentStash = (pick fits O.Z e.currentStash).2 ∧
      Recorded (calls ++ (visits fits O.Z e.currentStash).map fun b => .get b.1 (answers b.1)) s) ?_ fun e' => ?_
    · apply (scanStash_recorded hmap he 0 ⟨[], e.toDelete, []⟩ (by simp) hZ calls).bind
      intro scan
      apply (fillBucket_keeps O.Z scan.toInsert).bind
      intro bucket
      apply Triple.pure
      intro s hs
      obtain ⟨answers, fits, hfits, -, hlocal, hrecord⟩ := hs
      refine ⟨answers, fits, hfits, ?_, hrecord⟩
      rw [hlocal]
      simpa using eraseLocal_pickIdx fits O.Z e.currentStash
    · refine Triple.exists_pre fun answers => Triple.exists_pre fun fits => Triple.of_pure fun hfits =>
        Triple.of_pure fun hstash => ?_
      have hnodup : (e'.currentStash.map Prod.fst).Nodup := by
        rw [hstash]
        have hperm := ((pick_perm fits O.Z e.currentStash).map Prod.fst).nodup_iff.2 he
        rw [List.map_append] at hperm
        exact hperm.of_append_right
      apply (ih e' hnodup _).post
      intro _ s hs
      obtain ⟨below, hrecord⟩ := hs
      refine ⟨Function.update below level answers, ?_⟩
      have hbelow : O.questions (Function.update below level answers) leaf level (pick fits O.Z e.currentStash).2 =
          O.questions below leaf level (pick fits O.Z e.currentStash).2 :=
        questions_congr O leaf level _ fun k hk => Function.update_of_ne hk.ne _ _
      have hadmits : O.admits (Function.update below level answers) leaf level = fits := by
        rw [hfits]
        funext b
        rw [Oram.admits, Function.update_self]
      rw [hstash, ← hbelow] at hrecord
      rw [Oram.questions, hadmits, Function.update_self, ← List.append_assoc]
      exact hrecord

/-- the stash in which an eviction scans is the one it starts from -/
theorem writePath_recorded (hmap : O.map = oramPositionMap I) (hZ : 0 < O.Z) (leaf : ℕ) (stash : Stash)
    (calls : List MapCall) :
    Triple (fun s => s.stash = stash ∧ Recorded calls s) (O.writePath leaf)
      (fun _ s => ∃ entries answers, LawfulOram.Lists entries (fun k => stash.lookup k) ∧
        Recorded (calls ++ O.questions answers leaf O.height entries) s) (fun _ _ => True) := by
  unfold Oram.writePath
  refine Triple.bind (Q := fun entries s => LawfulOram.Lists entries (fun k => stash.lookup k) ∧ Recorded calls s) ?_
    fun entries => Triple.of_pure fun hentries => ?_
  · refine (Triple.zoom_frame (OramState.stashLens β (OramMapState β' μ')) (LawfulOram.getAll_triple stash)
      (E := fun _ _ => True) (F := Recorded calls) fun _ _ h => h).conseq (fun _ h => h) ?_ fun _ _ _ => trivial
    exact fun entries s h => ⟨h.1.1, h.2⟩
  apply (writeLevels_recorded hmap hZ O.height ⟨entries, [], []⟩ hentries.1 calls).bind
  intro e
  apply Triple.exists_pre
  intro answers
  refine Triple.bind (Q := fun _ => Recorded (calls ++ O.questions answers leaf O.height entries))
    (Triple.modify fun s h => h) fun _ => ?_
  refine Triple.post (Triple.forM (fun _ => Recorded (calls ++ O.questions answers leaf O.height entries))
    fun removed _ _ => ?_) fun _ s h => ⟨entries, answers, hentries, h⟩
  exact (onStash_keeps (P := Recorded (calls ++ O.questions answers leaf O.height entries)) (fun _ _ h => h) _).conseq
    (fun _ h => h) (fun _ _ h => h) fun _ _ _ => trivial

/-- the third and the fourth step of an access -/
theorem finishAccess_recorded (hmap : O.map = oramPositionMap I) (hZ : 0 < O.Z) (op : Op) (response : Bytes) (leaf : ℕ)
    (stash : Stash) (calls : List MapCall) :
    Triple (fun s => s.stash = stash ∧ Recorded calls s) (O.finishAccess op.read op.block op.data response leaf)
      (fun _ s => ∃ entries answers,
        LawfulOram.Lists entries (fun k => (if op.read then stash else stash.insert op.block op.data).lookup k) ∧
          Recorded (calls ++ O.questions answers leaf O.height entries) s) (fun _ _ => True) := by
  have hrest : ∀ stash' : Stash, Triple (fun s => s.stash = stash' ∧ Recorded calls s) (do
      let response ← Oram.onStash (InMemoryStashAdapter.get op.block response)
      O.writePath leaf
      return response : Run (OramState β (OramMapState β' μ')) Bytes)
      (fun _ s => ∃ entries answers, LawfulOram.Lists entries (fun k => stash'.lookup k) ∧
        Recorded (calls ++ O.questions answers leaf O.height entries) s) (fun _ _ => True) := by
    intro stash'
    refine Triple.bind (Q := fun _ s => s.stash = stash' ∧ Recorded calls s) ?_ fun _ => ?_
    · have hget : Triple (fun st => st = stash') (InMemoryStashAdapter.get op.block response) (fun _ st => st = stash')
          (fun _ _ => True) := by
        unfold InMemoryStashAdapter.get
        apply Triple.bind (Q := fun _ st => st = stash') (Triple.read fun _ h => h)
        intro st
        cases st.lookup op.block with
        | some data => exact Triple.pure fun _ h => h
        | none => exact Triple.pure fun _ h => h
      exact (Triple.zoom_frame (OramState.stashLens β (OramMapState β' μ')) hget (F := Recorded calls)
        fun _ _ h => h).conseq (fun _ h => h) (fun _ _ h => h) fun _ _ _ => trivial
    · exact (writePath_recorded hmap hZ leaf stash' calls).bind fun _ => Triple.pure fun _ h => h
  unfold Oram.finishAccess
  cases hread : op.read with
  | true => simpa using hrest stash
  | false =>
    refine Triple.bind (Q := fun _ s => s.stash = stash.insert op.block op.data ∧ Recorded calls s) ?_ fun _ =>
      by simpa using hrest (stash.insert op.block op.data)
    have hupdate : Triple (fun st => st = stash) (O.stash.update op.block op.data)
        (fun _ st => st = stash.insert op.block op.data) (fun _ _ => True) := by
      refine ((LawfulOram.checkOverflow_triple O.stash op.block).conseq (fun _ h => h) (fun _ _ h => h)
        fun _ _ _ => trivial).bind fun _ => Triple.modify fun st h => by rw [h]
    exact (Triple.zoom_frame (OramState.stashLens β (OramMapState β' μ')) hupdate (F := Recorded calls)
      fun _ _ h => h).conseq (fun _ h => h) (fun _ _ h => h) fun _ _ _ => trivial

/-- **The record of a request that returns.** -/
theorem request_recorded (hmap : O.map = oramPositionMap I) (hZ : 0 < O.Z) {op : Op} {w w' : World}
    {s s' : OramState β (OramMapState β' μ')} {reply : Reply} (hrun : (O.exec op.call).exec w s = (.ok reply, w', s')) :
    ∃ x : Consultation, x.Describes O op w s s' := by
  -- the run ends with an upload, which asks nothing
  have haccess : ∃ response w₃ s₃, (O.access op.read op.block op.data []).exec w s = (.ok response, w₃, s₃) ∧
      s'.map = s₃.map := by
    have hsync : ∀ {w₃ w₄ s₃ s₄}, O.syncCache.exec w₃ s₃ = (.ok (), w₄, s₄) → s₄.map = s₃.map := fun {w₃ w₄ s₃ s₄} h =>
      (syncCache_keeps (P := fun t : OramState β (OramMapState β' μ') => t.map = s₃.map) (fun _ _ h => h)
        (fun _ _ h => h)).ok rfl h
    unfold Op.call at hrun
    cases hread : op.read with
    | true =>
      rw [hread, if_pos rfl] at hrun
      obtain ⟨response, w₁, s₁, hget, hpure⟩ := Prog.exec_bind_inv hrun
      obtain ⟨response', w₃, s₃, ha, hget⟩ := Prog.exec_bind_inv hget
      obtain ⟨_, w₄, s₄, hs, hret⟩ := Prog.exec_bind_inv hget
      cases hpure
      cases hret
      exact ⟨_, w₃, s₃, ha, hsync hs⟩
    | false =>
      rw [hread, if_neg (by simp)] at hrun
      obtain ⟨_, w₁, s₁, hput, hpure⟩ := Prog.exec_bind_inv hrun
      obtain ⟨response, w₃, s₃, ha, hs⟩ := Prog.exec_bind_inv hput
      cases hpure
      exact ⟨response, w₃, s₃, ha, hsync hs⟩
  obtain ⟨response, w₃, s₃, ha, hmap'⟩ := haccess
  rw [access_eq] at ha
  obtain ⟨previous, w₁, s₁, hremap, ha⟩ := Prog.exec_bind_inv ha
  obtain ⟨path, w₂, s₂, hread, hfinish⟩ := Prog.exec_bind_inv ha
  obtain ⟨leaf, hrecord⟩ := (remap_recorded hmap op.block s.map.calls).ok rfl hremap
  have hkeeps : s₂.map = s₁.map := (readPath_keeps (P := fun t : OramState β (OramMapState β' μ') => t.map = s₁.map)
    (fun _ _ h => h) (fun _ _ => onStash_keeps (fun _ _ h => h) _) (fun _ _ h => h) _ _ _).ok rfl hread
  obtain ⟨entries, answers, hlists, hquestions⟩ := (finishAccess_recorded hmap hZ op [] previous s₂.stash
    (s.map.calls ++ [.get op.block previous, .set op.block leaf])).ok ⟨rfl, by rw [Recorded, hkeeps]; exact hrecord⟩ hfinish
  exact ⟨⟨previous, entries, answers⟩, ⟨w₁, s₁, path, w₂, s₂, hremap, hread, hlists⟩, leaf, hmap' ▸ hquestions⟩

end

/-! ## What it costs -/

/-- the operations of the inner ORAM -/
def OramMapState.gets {β μ : Type} (m : OramMapState β μ) : ℕ := m.calls.countP MapCall.isGet

def OramMapState.puts {β μ : Type} (m : OramMapState β μ) : ℕ := m.calls.countP fun call => !call.isGet

/-- a request cost one `put` and so many `get`s of the inner ORAM -/
def Costs {β β' μ' : Type} (s s' : OramState β (OramMapState β' μ')) (gets : ℕ) : Prop :=
  s'.map.puts = s.map.puts + 1 ∧ s'.map.gets = s.map.gets + gets

theorem Consultation.Describes.costs {β β' μ' : Type} {O : Oram β (OramMapState β' μ')} {x : Consultation} {op : Op}
    {w : World} {s s' : OramState β (OramMapState β' μ')} (h : x.Describes O op w s s') :
    Costs s s' (1 + O.looks x.leaf x.leaves) := by
  obtain ⟨leaf, hrecord⟩ := h.record
  have hgets : (O.questions x.answers x.leaf O.height x.entries).countP MapCall.isGet = O.looks x.leaf x.leaves := by
    rw [List.countP_eq_length.2 (questions_isGet O x.answers x.leaf O.height x.entries), length_questions_eq]
  have hputs : (O.questions x.answers x.leaf O.height x.entries).countP (fun call => !call.isGet) = 0 :=
    List.countP_eq_zero.2 fun call hcall => by simp [questions_isGet O _ _ _ _ call hcall]
  constructor
  · rw [OramMapState.puts, hrecord, List.countP_append, List.countP_append, hputs]
    rfl
  · rw [OramMapState.gets, hrecord, List.countP_append, List.countP_append, hgets, Nat.add_assoc]
    rfl

/-- **The cost of two requests.** Each that returns costs one `put` and one `get` for its own block, and a `get` for each
entry of the stash that a level of its eviction looks at. How many these are is a function of the leaf of its path and of
the leaves answered for the entries of the stash: two requests cost the same if they agree in these. -/
theorem inner_requests {β₁ β₁' μ₁' β₂ β₂' μ₂' : Type} {O₁ : Oram β₁ (OramMapState β₁' μ₁')} {I₁ : Oram β₁' μ₁'}
    {O₂ : Oram β₂ (OramMapState β₂' μ₂')} {I₂ : Oram β₂' μ₂'} (hmap₁ : O₁.map = oramPositionMap I₁)
    (hmap₂ : O₂.map = oramPositionMap I₂) (hheight : O₁.height = O₂.height) (hZ : O₁.Z = O₂.Z) (hpos : 0 < O₁.Z)
    {op₁ op₂ : Op} {w₁ w₁' w₂ w₂' : World} {s₁ s₁' : OramState β₁ (OramMapState β₁' μ₁')}
    {s₂ s₂' : OramState β₂ (OramMapState β₂' μ₂')} {reply₁ reply₂ : Reply}
    (hrun₁ : (O₁.exec op₁.call).exec w₁ s₁ = (.ok reply₁, w₁', s₁'))
    (hrun₂ : (O₂.exec op₂.call).exec w₂ s₂ = (.ok reply₂, w₂', s₂')) :
    ∃ x₁ x₂ : Consultation, x₁.Describes O₁ op₁ w₁ s₁ s₁' ∧ x₂.Describes O₂ op₂ w₂ s₂ s₂' ∧
      Costs s₁ s₁' (1 + O₁.looks x₁.leaf x₁.leaves) ∧ Costs s₂ s₂' (1 + O₂.looks x₂.leaf x₂.leaves) ∧
      (x₁.leaf = x₂.leaf → x₁.leaves = x₂.leaves →
        O₁.looks x₁.leaf x₁.leaves = O₂.looks x₂.leaf x₂.leaves) := by
  obtain ⟨x₁, hx₁⟩ := request_recorded hmap₁ hpos hrun₁
  obtain ⟨x₂, hx₂⟩ := request_recorded hmap₂ (hZ ▸ hpos) hrun₂
  refine ⟨x₁, x₂, hx₁, hx₂, hx₁.costs, hx₂.costs, fun hleaf hleaves => ?_⟩
  have hbucket : ∀ level leaf, O₁.bucketForLevelLeaf level leaf = O₂.bucketForLevelLeaf level leaf := fun level leaf => by
    rw [Oram.bucketForLevelLeaf, Oram.bucketForLevelLeaf, hheight]
  have hinclude : ∀ a b level, O₁.canInclude a b level = O₂.canInclude a b level := fun a b level => by
    rw [Oram.canInclude, Oram.canInclude, hbucket, hbucket]
  simp only [Oram.looks, hleaf, hleaves, hheight, hZ, hinclude]

/-- a get and a put of one block after the construction of both levels -/
theorem tinyRecursive_requests : ∃ s₀ w s w₁ s₁ w₂ s₂, Fresh s₀ ∧ tinyMap.Initialised s₀.map ∧
    tinyRecursive.construct.exec zeroWorld s₀ = (.ok (), w, s) ∧
    (tinyRecursive.exec (Op.call ⟨true, 0, []⟩)).exec zeroWorld s = (.ok (.got []), w₁, s₁) ∧
    (tinyRecursive.exec (Op.call ⟨false, 0, [1]⟩)).exec zeroWorld s = (.ok .done, w₂, s₂) ∧ Costs s s₁ 1 ∧ Costs s s₂ 2 := by
  set built := (inMemoryOram tinyStorage plainCrypto 2 6 1 4).construct.exec zeroWorld (zeroState tinyStorage 2) with hbuilt
  have hinner : built.1 = .ok () := by
    rw [hbuilt]
    decide +kernel
  set outer := tinyRecursive.construct.exec zeroWorld ⟨(zeroState tinyStorage 2).storage, ⟨built.2.2, []⟩, ∅, ∅⟩ with houter
  have hconstruct : outer.1 = .ok () := by
    rw [houter, hbuilt]
    decide +kernel
  have hget : ((tinyRecursive.exec (Op.call ⟨true, 0, []⟩)).exec zeroWorld outer.2.2).1 = .ok (.got []) := by
    rw [houter, hbuilt]
    decide +kernel
  have hput : ((tinyRecursive.exec (Op.call ⟨false, 0, [1]⟩)).exec zeroWorld outer.2.2).1 = .ok .done := by
    rw [houter, hbuilt]
    decide +kernel
  have hcosts : Costs outer.2.2 ((tinyRecursive.exec (Op.call ⟨true, 0, []⟩)).exec zeroWorld outer.2.2).2.2 1 ∧
      Costs outer.2.2 ((tinyRecursive.exec (Op.call ⟨false, 0, [1]⟩)).exec zeroWorld outer.2.2).2.2 2 := by
    unfold Costs
    rw [houter, hbuilt]
    decide +kernel
  clear_value outer
  have hfresh : tinyMap.Initialised (⟨built.2.2, []⟩ : OramMapState (BlockArray 2 64) (PositionArray 2)) := by
    clear_value built
    exact ⟨rfl, zeroState tinyStorage 2, zeroWorld, built.2.1, zeroState_fresh tinyStorage 2, trivial,
      hbuilt.symm.trans (Prod.ext hinner rfl)⟩
  exact ⟨⟨(zeroState tinyStorage 2).storage, ⟨built.2.2, []⟩, ∅, ∅⟩, outer.2.1, outer.2.2, _, _, _, _, ⟨rfl, rfl⟩, hfresh,
    houter.symm.trans (Prod.ext hconstruct rfl), Prog.exec_eq hget, Prog.exec_eq hput, hcosts⟩

theorem inner_requests_tiny : ∃ w₁ w₂ s s₁ s₂, ∃ x₁ x₂ : Consultation,
    x₁.Describes tinyRecursive ⟨true, 0, []⟩ w₁ s s₁ ∧ x₂.Describes tinyRecursive ⟨false, 0, [1]⟩ w₂ s s₂ ∧
      Costs s s₁ (1 + tinyRecursive.looks x₁.leaf x₁.leaves) ∧ Costs s s₂ (1 + tinyRecursive.looks x₂.leaf x₂.leaves) ∧
      (x₁.leaf = x₂.leaf → x₁.leaves = x₂.leaves →
        tinyRecursive.looks x₁.leaf x₁.leaves = tinyRecursive.looks x₂.leaf x₂.leaves) := by
  obtain ⟨_, _, s, _, s₁, _, s₂, -, -, -, hget, hput, -, -⟩ := tinyRecursive_requests
  have hmap : tinyRecursive.map = oramPositionMap (inMemoryOram tinyStorage plainCrypto 2 6 1 4) := rfl
  exact ⟨zeroWorld, zeroWorld, s, s₁, s₂, inner_requests hmap hmap rfl rfl (by decide) hget hput⟩

/-- the put costs one more `get` than the get, in a state of an initialised ORAM -/
theorem inner_requests_differ : ∃ s₀ w s w₁ s₁ w₂ s₂, Fresh s₀ ∧ tinyMap.Initialised s₀.map ∧
    tinyRecursive.construct.exec zeroWorld s₀ = (.ok (), w, s) ∧
    (tinyRecursive.exec (.get 0)).exec zeroWorld s = (.ok (.got []), w₁, s₁) ∧
    (tinyRecursive.exec (.put 0 [1])).exec zeroWorld s = (.ok .done, w₂, s₂) ∧
    ∃ n₁ n₂, Costs s s₁ n₁ ∧ Costs s s₂ n₂ ∧ n₁ ≠ n₂ := by
  obtain ⟨s₀, w, s, w₁, s₁, w₂, s₂, hfresh, hmap, hconstruct, hget, hput, h₁, h₂⟩ := tinyRecursive_requests
  exact ⟨s₀, w, s, w₁, s₁, w₂, s₂, hfresh, hmap, hconstruct, hget, hput, 1, 2, h₁, h₂, by decide⟩

end PathOram
