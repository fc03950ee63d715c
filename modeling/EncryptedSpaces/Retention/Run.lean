import EncryptedSpaces.Retention.Reduce
import EncryptedSpaces.Retention.Terms

/-!
# Runs of retention operations

A run starts with `new` and performs any number of operations in any order,
each by a member holding any key at all: an operation whose key does not reach
the current head fails.  Next to the store a run keeps the key material
created for each sequence number.  `Simulates` relates a run to the abstract
chain; `runFrom_simulates` carries it over every run.
-/

namespace EncryptedSpaces.Retention

open Lib Crypto

/-- One operation with the key the member holds and the randomness it draws.
Applying a generated group key writes nothing: it only means that the member
acts with `newGroupKey` from then on. -/
inductive RetentionOp (K : Type) where
  | new (hgk d0 : K)
  | extend (localHgk : K)
  | rekey (localHgk newGroupKey newDHead : K)
  | reduce (localHgk : K) (before : Nat) (fresh : Nat → K)

/-- The store, and the key material created for each sequence number. -/
structure RunState (K V P : Type) where
  store : Builder V P
  created : List K

section Run

variable {K C E V P : Type} [DecidableEq C]
variable (S : KeySuite K C E V) (prover : RuntimeProver K C E P)

/-- Run one operation.  The key created by an extend is the derivation of the
key the operation itself resolves for the last sequence number. -/
def RunState.step (st : RunState K V P) : RetentionOp K → Option (RunState K V P)
  | .new hgk d0 => some { store := (SpaceKey.new S hgk d0 st.store).2, created := [d0] }
  | .extend localHgk => do
      let currentD ← resolveDKey S localHgk (← currentKeyId S st.store.get) st.store.get
      let (_, store) ← SpaceKey.extend S prover { hgk := localHgk } st.store
      return { store, created := st.created ++ [S.derive currentD .dDerive] }
  | .rekey localHgk newGroupKey newDHead => do
      let (_, store) ←
        SpaceKey.generateGroupKey S prover { hgk := localHgk } newGroupKey newDHead st.store
      return { store, created := st.created ++ [newDHead] }
  | .reduce localHgk before fresh => do
      let store ← SpaceKey.reduce S prover { hgk := localHgk } before fresh st.store
      return { st with store }

/-- A space freshly created over any storage. -/
def RunState.new (hgk d0 : K) (b : Builder V P) : RunState K V P :=
  { store := (SpaceKey.new S hgk d0 b).2, created := [d0] }

/-- Run a list of operations; a failing operation ends the run. -/
def RunState.runFrom (st : RunState K V P) (ops : List (RetentionOp K)) :
    Option (RunState K V P) :=
  ops.foldlM (RunState.step S prover) st

/-- The abstract effect of an operation. -/
def Chain.step (c : Chain K) : RetentionOp K → Chain K
  | .new hgk d0 => Chain.initial hgk d0
  | .extend _ => c.extended S
  | .rekey _ newGroupKey newDHead => c.rekeyed newGroupKey newDHead
  | .reduce _ before fresh => c.reducedFresh S before fresh

variable {S prover}

/-- The store represents the chain and the created keys are the chain's. -/
structure Simulates (S : KeySuite K C E V) (st : RunState K V P) (c : Chain K) : Prop where
  wf : c.WF S
  represents : Represents S st.store.get c
  created : st.created = (List.range c.dNext).map c.dKey

omit [DecidableEq C] in
theorem simulates_new (hS : S.Lawful) (hgk d0 : K) (b : Builder V P) :
    Simulates S (RunState.new S hgk d0 b) (Chain.initial hgk d0) where
  wf := Chain.initial_wf S hgk d0
  represents := represents_new hS hgk d0 b
  created := rfl

/-- Appending the key of the next number extends the list of created keys. -/
private theorem created_snoc {c : Chain K} {created : List K} (key : K)
    (h : created = (List.range c.dNext).map c.dKey) :
    created ++ [key] =
      (List.range (c.dNext + 1)).map (Function.update c.dKey c.dNext key) := by
  rw [List.range_succ, List.map_append, h]
  congr 1
  · apply List.map_congr_left
    intro s hs
    rw [Function.update_of_ne (Nat.ne_of_lt (List.mem_range.mp hs))]
  · simp

/-- Every operation moves the chain by its abstract effect. -/
theorem step_simulates (hS : S.Lawful) {st st' : RunState K V P} {c : Chain K}
    (hSim : Simulates S st c) {op : RetentionOp K} (h : st.step S prover op = some st') :
    Simulates S st' (c.step S op) := by
  obtain ⟨hWF, hRep, hCreated⟩ := hSim
  cases op with
  | new hgk d0 =>
    cases h
    exact simulates_new hS hgk d0 st.store
  | extend localHgk =>
    simp only [RunState.step, Option.bind_eq_some] at h
    obtain ⟨last, hLast, currentD, hResolve, ⟨id, store⟩, hExtend, hRet⟩ := h
    cases hRet
    obtain ⟨rfl, hLt, proof, rfl⟩ := extend_eq hS hWF hRep hExtend
    have hMin := hWF.dMin_lt
    simp only [currentKeyId, hRep.layout.dNext, Option.bind_eq_bind, Option.bind_some] at hLast
    rw [if_neg (by omega)] at hLast
    cases hLast
    have hHgk := resolveCurrentHgk_of_resolveDKey hS hRep hResolve
    rw [resolveDKey_eq hWF hRep hHgk, if_pos (by omega)] at hResolve
    cases hResolve
    exact ⟨hWF.extended hLt, represents_afterExtend hS hWF hRep hLt proof,
      created_snoc _ hCreated⟩
  | rekey localHgk newGroupKey newDHead =>
    simp only [RunState.step, Option.bind_eq_some] at h
    obtain ⟨⟨out, store⟩, hRekey, hRet⟩ := h
    cases hRet
    obtain ⟨_, hFgkLt, hDLt, proof, rfl⟩ := generateGroupKey_eq hS hWF hRep hRekey
    exact ⟨hWF.rekeyed newGroupKey newDHead hDLt,
      represents_afterRekey hS hWF hRep hFgkLt hDLt newGroupKey newDHead proof,
      created_snoc _ hCreated⟩
  | reduce localHgk before fresh =>
    simp only [RunState.step, Option.bind_eq_some] at h
    obtain ⟨store, hReduce, hRet⟩ := h
    cases hRet
    obtain ⟨hLo, hHi, hDgkLt, proof, rfl⟩ := reduce_eq hS hWF hRep hReduce
    exact ⟨hWF.reducedFresh hLo hHi fresh,
      represents_afterReduce hS hWF hRep hLo hHi hDgkLt fresh proof, hCreated⟩

/-- Every run is simulated by its abstract effects. -/
theorem runFrom_simulates (hS : S.Lawful) :
    ∀ (ops : List (RetentionOp K)) {st st' : RunState K V P} {c : Chain K},
      Simulates S st c → st.runFrom S prover ops = some st' →
      Simulates S st' (ops.foldl (Chain.step S) c) := by
  intro ops
  induction ops with
  | nil =>
    intro st st' c hSim h
    cases h
    exact hSim
  | cons op ops ih =>
    intro st st' c hSim h
    simp only [RunState.runFrom, List.foldlM_cons, Option.bind_eq_some] at h
    obtain ⟨mid, hStep, hRest⟩ := h
    exact ih (step_simulates hS hSim hStep) hRest

/-! ## Data-key stability -/

/-- At every point of every run the live sequence numbers are exactly
`[d_min, d_next)`: each resolves, for a member whose key is the current head
group key, to the key material created for it, every other number fails, and
the reconstructed chain tiles the live range. -/
theorem resolveDKey_stable (hS : S.Lawful) (prover : RuntimeProver K C E P)
    (hgk d0 : K) (b : Builder V P)
    (ops : List (RetentionOp K)) (st : RunState K V P)
    (hRun : (RunState.new S hgk d0 b).runFrom S prover ops = some st) :
    ∃ dMin dNext chain,
      loadDMin S st.store.get = some dMin ∧ loadDNext S st.store.get = some dNext ∧
      dMin < dNext ∧ st.created.length = dNext ∧
      (∃ head, currentHgkCommitment S st.store.get = some (S.commit head)) ∧
      (∀ member, currentHgkCommitment S st.store.get = some (S.commit member) →
        ∀ dSeq, resolveDKey S member dSeq st.store.get =
          if dMin ≤ dSeq ∧ dSeq < dNext then st.created[dSeq]? else none) ∧
      reconstructLiveChain S st.store.get = some chain ∧ Layout.Tiles dMin dNext chain := by
  have hSim := runFrom_simulates hS ops (simulates_new hS hgk d0 b) hRun
  generalize ops.foldl (Chain.step S) (Chain.initial hgk d0) = c at hSim
  obtain ⟨hWF, hRep, hCreated⟩ := hSim
  have hTiles := hWF.layout.tiles_nodes c.fgkNext (Nat.le_refl _)
  have hMin := hWF.dMin_lt
  rw [Layout.bound_fgkNext, Nat.max_eq_left (Nat.le_of_lt hMin)] at hTiles
  refine ⟨c.dMin, c.dNext, _, hRep.layout.dMin, hRep.layout.dNext, hMin, by simp [hCreated],
    ⟨c.hgk, hRep.hgkCommitment⟩, ?_, reconstructLiveChain_eq hWF.layout hRep.layout, hTiles⟩
  intro member hMember dSeq
  have hHead : member = c.hgk := by
    rw [hRep.hgkCommitment] at hMember
    exact hS.commit_injective (Option.some.inj hMember).symm
  subst hHead
  rw [resolveDKey_eq hWF hRep (resolveCurrentHgk_self hRep)]
  split
  · next hRange => simp [hCreated, hRange.2]
  · rfl

end Run

section Sample

open Symbolic

/-- A space over terms that is extended, rekeyed, reduced and extended again. -/
def sampleRun : Option (RunState Key Stored (List UInt8)) :=
  (RunState.new suite (.group 0 0) (.data 0) Builder.noop).runFrom suite noProver
    [.extend (.group 0 0), .rekey (.group 0 0) (.group 1 0) (.data 1),
      .reduce (.group 1 0) 1 (.group 2), .extend (.group 1 0)]

/-- The head is derived from the key of the rekey, and resolves the last three keys. -/
theorem resolveDKey_stable_terms : ∃ st, sampleRun = some st ∧
    st.created = [.data 0, .derive (.data 0) .dDerive, .data 1, .derive (.data 1) .dDerive] ∧
    ∀ dSeq, resolveDKey suite (.derive (.group 1 0) .hgkDerive) dSeq st.store.get =
      if 1 ≤ dSeq ∧ dSeq < 4 then st.created[dSeq]? else none := by
  have hEnd : sampleRun.map (fun st => (st.created, loadDMin suite st.store.get,
      currentHgkCommitment suite st.store.get)) =
      some ([.data 0, .derive (.data 0) .dDerive, .data 1, .derive (.data 1) .dDerive], some 1,
        some (suite.commit (.derive (.group 1 0) .hgkDerive))) := by
    decide +kernel
  obtain ⟨st, hRun, hSt⟩ := Option.map_eq_some_iff.mp hEnd
  obtain ⟨hCreated, hEnd⟩ := Prod.mk.inj hSt
  obtain ⟨hMin, hHead⟩ := Prod.mk.inj hEnd
  obtain ⟨dMin, dNext, _, hLoaded, _, _, hLength, _, hResolve, _⟩ :=
    resolveDKey_stable suite_lawful noProver _ _ _ _ st hRun
  obtain rfl : 1 = dMin := Option.some.inj (hMin.symm.trans hLoaded)
  obtain rfl : 4 = dNext := by rw [← hLength, hCreated]; rfl
  exact ⟨st, hRun, hCreated, hResolve _ hHead⟩

end Sample

end EncryptedSpaces.Retention
