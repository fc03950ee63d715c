import EncryptedSpaces.Ops.RefreshKeys
import EncryptedSpaces.Server.State

/-!
# Applying a submitted change

`handle_change` checks a change, applies it to the tree, appends it to the
changelog and may then extend the fast-forward proof.  A deletion that finds
none of its rows is answered as a success that changes nothing.

The function returns the state it leaves also when it fails.  From the write of
the tree on an error leaves a changed space: the tracer's root may not be the
tree's, its witness may not serialize or not replay, and the proof comes after
the change is committed.  `handleChangeTraced` takes what the tracer does as an
argument; `handleChange` is the server whose tracer agrees with its tree, and
`handleChange_cases` says what a call of it can do.
-/

namespace EncryptedSpaces.Server

open Encoding Changelog Ops Lib Acl FastForward Lib.Except

/-- `DeleteValidationOutcome`. -/
inductive DeleteValidationOutcome where
  | proceed
  | noMatchingRows
  deriving DecidableEq, Repr

section HandleChange

variable {T V : Type} (P : ServerParams T V) (st : SpaceState T)

/-! ## Checks of an operation -/

/-- `check_concurrent_conflict`: no change after the parent touches one of the
keys. -/
def checkConcurrentConflict (entry : ChangelogEntry) : Except ServerError Unit :=
  ensure
    (∀ existing ∈ st.changelog.changes.drop entry.parentChange,
      existing.message.treePath = entry.message.treePath →
        ∀ old ∈ existing.message.entries, ∀ new ∈ entry.message.entries, old.key ≠ new.key)
    s!"Update conflict after parent change {entry.parentChange}"

/-- The first column key of every row an entry names, among the tables `p`
admits. -/
def probeKeys (p : String → Bool) (entries : List KvData) : List Bytes :=
  (entries.foldl
    (fun (seen, keys) kv =>
      match parsedColumn? kv.key with
      | some (table, rowId, _) =>
        if p table ∧ rowId ∉ seen then (rowId :: seen, keys ++ [kv.key]) else (seen, keys)
      | none => (seen, keys))
    (([], []) : List Int × List Bytes)).2

/-- Whether all probed rows are absent. -/
def probeOutcome (keys : List Bytes) : DeleteValidationOutcome :=
  if keys = [] ∨ ∃ key ∈ keys, (st.db P)[key]?.isSome then .proceed else .noMatchingRows

def serverValidationDelete (entry : ChangelogEntry) : DeleteValidationOutcome :=
  probeOutcome P st (probeKeys (fun _ => true) entry.message.entries)

def actionOutcome (entry : ChangelogEntry) (primaryTable : String) (body : ActionBody) :
    Except ServerError DeleteValidationOutcome :=
  match body.legs with
  | [] => .error (.generic "action has no legs")
  | .delete _ :: _ =>
    .ok (probeOutcome P st (probeKeys (· = primaryTable) entry.message.entries))
  | _ :: _ => .ok .proceed

def serverValidationAction (entry : ChangelogEntry) :
    Except ServerError DeleteValidationOutcome := do
  let marker ← orGeneric entry.message.entries.head? "Action entry has no kvs"
  let primaryTable ← orGeneric (markerTable? marker.key)
    "Action entry's first kv is not an action marker"
  let name ← orGeneric (fromUtf8 marker.value) "Action action-marker is not utf8"
  let body ← storedActionBody P st primaryTable name
  match body with
  | none => return .proceed
  | some body => actionOutcome P st entry primaryTable body

/-- Insert, update and delete name a table of the application. -/
def ensureUserTable (entry : ChangelogEntry) : Except ServerError Unit := do
  let table ← orGeneric (entry.message.entries.findSome? fun kv => dataTable? kv.key)
    "entry has no parseable column key to derive its target table"
  ensure (¬ isInternalTable table)
    s!"table '{table}' is reserved and cannot be modified — use the dedicated op instead"

def deleteOutcome (entry : ChangelogEntry) : Except ServerError DeleteValidationOutcome := do
  ensureUserTable entry
  checkConcurrentConflict st entry
  return serverValidationDelete P st entry

def actionChecks (entry : ChangelogEntry) : Except ServerError DeleteValidationOutcome := do
  checkConcurrentConflict st entry
  serverValidationAction P st entry

/-- The branches of `do_query_with_pruned_merkle_tree`. -/
def opValidation (entry : ChangelogEntry) : Except ServerError DeleteValidationOutcome :=
  match entry.message.opType with
  | .noop => .error (.generic "Noop changes are only supported by the FF prover benchmark")
  | .insert => do
      ensureUserTable entry
      return .proceed
  | .update => do
      ensureUserTable entry
      checkConcurrentConflict st entry
      return .proceed
  | .delete => deleteOutcome P st entry
  | .action => actionChecks P st entry
  | .removeUser => do
      checkConcurrentConflict st entry
      return .proceed
  | _ => .ok .proceed

/-- `apply_change_with_pruned_tree` up to the write: the tree after the operation. -/
def applyChangeToTree (entry : ChangelogEntry) : Except ServerError T := do
  let writes ← ofChangelog
    ((dispatchExtractAndValidate (st.changelog.numChanges + 1) entry).eval
      (plain P.codec (P.merk.read st.tree)))
  ensure (writes ≠ []) "extract_and_validate produced no write operations"
  let after ← ofChangelog (P.merk.applyBatch st.tree writes)
  orGeneric after "Main tree is empty"

def runOutcome (entry : ChangelogEntry) :
    DeleteValidationOutcome → Except ServerError (Option T)
  | .noMatchingRows => .ok none
  | .proceed => (applyChangeToTree P st entry).map some

/-- `do_query_with_pruned_merkle_tree`; `none` is the graceful no-op. -/
def doQueryWithPrunedMerkleTree (entry : ChangelogEntry) : Except ServerError (Option T) := do
  ensure (entry.message.treePath = rootPath) "Op requires tree_path \"/\""
  let outcome ← opValidation P st entry
  runOutcome P st entry outcome

/-! ## Acceptance -/

/-- Everything `handle_change` checks before it touches the tree; the hashes the
change refers to. -/
def acceptanceChecks (change : Change) (auth : AuthContext) (now : Nat) :
    Except ServerError (List Digest) := do
  let uid ← orGeneric auth.uid "Missing user's UID"
  ensure (uid = change.entry.uid) "Change not signed by the authenticated user"
  validateHashedValues st change.hashedValues
  verifyChangeSignature P st change
  ensureChangeApplies P st change.entry
  enforceProvisionalRestrictions P st change.entry
  validateParentWindow st change.entry
  validateParentRoot st change.entry
  ofChangelog (checkSigrefContinuity change.entry (st.sigrefMap[change.entry.uid]?.getD 0))
  ofChangelog (validateChangeTimestampAtAcceptance change.entry.timestamp now)
  let referenced ← requireHashedValuesForChange P st change
  validateHashedValuesReferences change.hashedValues referenced
  return referenced

/-- `rows_affected`. -/
def rowsAffected (entry : ChangelogEntry) : Nat :=
  match entry.message.opType with
  | .update | .delete | .refreshKeys | .action =>
    max 1 (entry.message.entries.filterMap fun kv =>
      (parsedColumn? kv.key).map fun (_, rowId, _) => rowId).dedup.length
  | .noop => 0
  | _ => 1

/-- `ChangeLog::new`: the initial leaf carries the data commitment. -/
def ChangeLog.new (H : Bytes → Digest) (initialDc : Digest) : ChangeLog :=
  { tree := MmrTree.initialized H initialDc, rootsByChangeId := [hInit H initialDc], initialDc,
    changes := [], ffProof := [], provenUpTo := 0 }

/-- Append a change to the log; `none` at the size limit, where the source
aborts. -/
def ChangeLog.append (H : Bytes → Digest) (log : ChangeLog) (entry : ChangelogEntry) :
    Option ChangeLog := do
  let tree ← log.tree.append H entry.toBytes
  let root ← tree.root H
  return { log with
    tree, rootsByChangeId := log.rootsByChangeId ++ [root], changes := log.changes ++ [entry] }

/-- `ChangeLog::add_change`: replay on the witness, then append. -/
def ChangeLog.addChange (log : ChangeLog) (entry : ChangelogEntry) (witness : Witness T)
    (oldRoot newRoot : Digest) : Except ServerError ChangeLog := do
  let _ ← ofChangelog (verifyProofAndValidate P.merk P.codec entry witness oldRoot newRoot
    (log.numChanges + 1))
  orGeneric (log.append P.H entry) "MmrTree::append: tree is full"

/-- The snapshot that the next proof starts from. -/
def SpaceState.takeSnapshot : SpaceState T :=
  if st.changelog.numChanges = st.changelog.provenUpTo then { st with treeSnapshot := some st.tree }
  else st

/-- What `maybe_generate_ff_proof` meets: proofs switched off, a log that
`extract_input_steps` refuses, a prover that fails, where `prove_ff_chunk` unwraps
the error, or a proof, which may not deserialize. -/
inductive ProverOutcome where
  | skipped
  | refused (msg : String)
  | failed
  | undecodable (proof : Bytes)
  | proved (proof : Bytes)

/-- `ChangeLog::set_ff_proof`, up to the last change. -/
def ChangeLog.setFfProof (log : ChangeLog) (proof : Bytes) : ChangeLog :=
  { log with ffProof := proof, provenUpTo := log.numChanges }

/-- The proof of a batch that starts at the snapshot. -/
def updateFfProof (outcome : ProverOutcome) : Except ServerError Unit × SpaceState T :=
  match outcome with
  | .skipped => (.ok (), st)
  | .refused msg => (.error (.generic s!"fast-forward proof generation failed: {msg}"), st)
  | .failed => (.error (.panicked "called Result::unwrap on an Err value"), st)
  | .undecodable proof =>
    (.error (.generic "failed to deserialize newly generated FF proof"),
      { st with changelog := st.changelog.setFfProof proof })
  | .proved proof =>
    (.ok (), { st with
      changelog := st.changelog.setFfProof proof, treeSnapshot := some st.tree })

/-- `maybe_generate_ff_proof`. -/
def maybeGenerateFfProof (outcome : ProverOutcome) : Except ServerError Unit × SpaceState T :=
  match outcome with
  | .skipped => (.ok (), st)
  | _ =>
    if st.changelog.provenUpTo + st.ffBatchSize ≤ st.changelog.numChanges then
      match st.treeSnapshot with
      | none =>
          (.error (.generic "cannot generate FF proof: missing batch-start tree snapshot"), st)
      | some _ => updateFfProof st outcome
    else (.ok (), st)

/-- The answer to a change that matched no rows. -/
def noopResponse (now : Nat) : ChangeResponse T :=
  { oldRoot := P.merk.hash st.tree, newRoot := P.merk.hash st.tree, prunedMerkleTree := .absent,
    changeId := st.changelog.numChanges, rowsAffected := 0, acceptedAtServerTime := now,
    hashedValues := ∅ }

/-- The answer to an applied change; `tree` is the tree after it. -/
def appliedResponse (change : Change) (hashStore : HashedValues) (tree : T)
    (prunedMerkleTree : Witness T) (now : Nat) : ChangeResponse T :=
  { oldRoot := P.merk.hash st.tree, newRoot := P.merk.hash tree,
    prunedMerkleTree, changeId := st.changelog.numChanges + 1,
    rowsAffected := rowsAffected change.entry, acceptedAtServerTime := now,
    hashedValues := collectHashedValuesForChange P { st with tree } hashStore change.entry }

/-- The state after the change is appended. -/
def committedState (change : Change) (hashStore : HashedValues) (tree : T) (witness : Witness T)
    (log : ChangeLog) (now : Nat) : SpaceState T :=
  { st with
    tree, hashStore, changelog := log
    sigrefMap := st.sigrefMap.insert change.entry.uid (st.changelog.numChanges + 1)
    changeResponses :=
      st.changeResponses ++ [appliedResponse P st change hashStore tree witness now] }

/-- What `create_trace` returns: the root it ends in, and the pruned tree, `none` if
that does not serialize. -/
structure Trace (T : Type) where
  expectedEndRoot : Digest
  prunedTree : Option (Witness T)

/-- `apply_change_with_pruned_tree` after the write. -/
def emitWitness (trace : Trace T) (tree : T) : Except ServerError (Witness T) := do
  ensure (P.merk.hash tree = trace.expectedEndRoot)
    "Root after apply does not match expected end root from trace proof"
  orGeneric trace.prunedTree "Failed to serialize proof"

/-- The end of `handle_change`, with the tree written: emit the witness, append,
answer, and extend the proof. -/
def commitChange (trace : Trace T) (change : Change) (referenced : List Digest) (tree : T)
    (now : Nat) (prover : ProverOutcome) : Except ServerError (ChangeResponse T) × SpaceState T :=
  match emitWitness P trace tree with
  | .error e => (.error e, { st with tree })
  | .ok witness =>
    let hashStore := insertReferencedHashedValues st.hashStore change.hashedValues referenced
    match st.changelog.addChange P change.entry witness (P.merk.hash st.tree)
        (P.merk.hash tree) with
    | .error e => (.error e, { st with tree, hashStore })
    | .ok log =>
      match maybeGenerateFfProof (committedState P st change hashStore tree witness log now)
          prover with
      | (.error e, st') => (.error e, st')
      | (.ok _, st') => (.ok (appliedResponse P st change hashStore tree witness now), st')

/-- `handle_change`; `trace` is the tracer's result, by the tree after the write. -/
def handleChangeTraced (trace : T → Trace T) (change : Change) (auth : AuthContext) (now : Nat)
    (prover : ProverOutcome) : Except ServerError (ChangeResponse T) × SpaceState T :=
  match acceptanceChecks P st change auth now with
  | .error e => (.error e, st)
  | .ok referenced =>
    match doQueryWithPrunedMerkleTree P st.takeSnapshot change.entry with
    | .error e => (.error e, st.takeSnapshot)
    | .ok none => (.ok (noopResponse P st.takeSnapshot now), st.takeSnapshot)
    | .ok (some tree) =>
        commitChange P st.takeSnapshot (trace tree) change referenced tree now prover

/-- A tracer that computes what the storage computes, and prunes nothing. -/
def ownTrace (tree : T) : Trace T :=
  { expectedEndRoot := P.merk.hash tree, prunedTree := some (.pruned st.tree) }

/-- `handle_change`, where tracer and storage agree. -/
def handleChange (change : Change) (auth : AuthContext) (now : Nat) (prover : ProverOutcome) :
    Except ServerError (ChangeResponse T) × SpaceState T :=
  handleChangeTraced P st (ownTrace P st) change auth now prover

/-! ## What a call can do -/

variable {P st}

@[simp] theorem SpaceState.takeSnapshot_tree : st.takeSnapshot.tree = st.tree := by
  unfold SpaceState.takeSnapshot
  split <;> rfl

@[simp] theorem SpaceState.takeSnapshot_changelog : st.takeSnapshot.changelog = st.changelog := by
  unfold SpaceState.takeSnapshot
  split <;> rfl

@[simp] theorem SpaceState.takeSnapshot_sigrefMap : st.takeSnapshot.sigrefMap = st.sigrefMap := by
  unfold SpaceState.takeSnapshot
  split <;> rfl

@[simp] theorem SpaceState.takeSnapshot_changeResponses :
    st.takeSnapshot.changeResponses = st.changeResponses := by
  unfold SpaceState.takeSnapshot
  split <;> rfl

@[simp] theorem SpaceState.takeSnapshot_hashStore : st.takeSnapshot.hashStore = st.hashStore := by
  unfold SpaceState.takeSnapshot
  split <;> rfl

/-- A change that was applied and appended: the writes, the tree and the log
after it. -/
structure Committed (P : ServerParams T V) (st : SpaceState T) (change : Change)
    (auth : AuthContext) (now : Nat) (referenced : List Digest) (writes : Batch) (tree : T)
    (log : ChangeLog) : Prop where
  checks : acceptanceChecks P st change auth now = .ok referenced
  treePath : change.entry.message.treePath = rootPath
  outcome : opValidation P st.takeSnapshot change.entry = .ok .proceed
  dispatch : (dispatchExtractAndValidate (st.changelog.numChanges + 1) change.entry).eval
    (plain P.codec (P.merk.read st.tree)) = .ok writes
  writes_ne : writes ≠ []
  applyBatch : P.merk.applyBatch st.tree writes = .ok (some tree)
  append : st.changelog.append P.H change.entry = some log

variable {u : Unit} {entry : ChangelogEntry}

theorem ensure_eq_ok {c : Prop} [Decidable c] {msg : String} :
    ensure c msg = .ok u ↔ c := by
  unfold ensure
  by_cases hc : c
  · simp [hc]
  · simp [hc]

theorem orGeneric_eq_ok {α : Type} {x : Option α} {msg : String} {a : α} :
    orGeneric x msg = .ok a ↔ x = some a := by
  unfold orGeneric
  cases x with
  | none => simp
  | some b => simp

theorem ofChangelog_eq_ok {α : Type} {x : Except ChangelogError α} {a : α} :
    ofChangelog x = .ok a ↔ x = .ok a := by
  unfold ofChangelog
  split <;> simp

/-- A query that applied its change. -/
theorem doQuery_eq_some {tree : T} (h : doQueryWithPrunedMerkleTree P st entry = .ok (some tree)) :
    entry.message.treePath = rootPath ∧ opValidation P st entry = .ok .proceed ∧
      ∃ writes, (dispatchExtractAndValidate (st.changelog.numChanges + 1) entry).eval
          (plain P.codec (P.merk.read st.tree)) = .ok writes ∧
        writes ≠ [] ∧ P.merk.applyBatch st.tree writes = .ok (some tree) := by
  obtain ⟨_, hPath, h⟩ := bind_eq_ok.mp h
  obtain ⟨outcome, hOutcome, h⟩ := bind_eq_ok.mp h
  cases outcome with
  | noMatchingRows => cases h
  | proceed =>
    obtain ⟨tree', hApply, hTree⟩ := map_eq_ok.mp h
    obtain rfl : tree' = tree := Option.some.inj hTree
    obtain ⟨writes, hWrites, hApply⟩ := bind_eq_ok.mp hApply
    obtain ⟨_, hNe, hApply⟩ := bind_eq_ok.mp hApply
    obtain ⟨after, hAfter, hApply⟩ := bind_eq_ok.mp hApply
    obtain rfl : after = some tree' := orGeneric_eq_ok.mp hApply
    exact ⟨ensure_eq_ok.mp hPath, hOutcome, writes, ofChangelog_eq_ok.mp hWrites,
      ensure_eq_ok.mp hNe, ofChangelog_eq_ok.mp hAfter⟩

/-- The proof step only writes the proof, the snapshot and how far it reaches. -/
theorem maybeGenerateFfProof_frame {outcome : ProverOutcome} {r : Except ServerError Unit}
    {st' : SpaceState T} (h : maybeGenerateFfProof st outcome = (r, st')) :
    st'.tree = st.tree ∧ st'.sigrefMap = st.sigrefMap ∧ st'.hashStore = st.hashStore ∧
      st'.keyDeliverySlots = st.keyDeliverySlots ∧ st'.changeResponses = st.changeResponses ∧
      st'.changelog = { st.changelog with
        ffProof := st'.changelog.ffProof, provenUpTo := st'.changelog.provenUpTo } := by
  have hSame : ∀ {r' : Except ServerError Unit}, (r', st) = (r, st') → st = st' := fun h' =>
    (Prod.mk.inj h').2
  have hUpdate : updateFfProof st outcome = (r, st') → st'.tree = st.tree ∧
      st'.sigrefMap = st.sigrefMap ∧ st'.hashStore = st.hashStore ∧
      st'.keyDeliverySlots = st.keyDeliverySlots ∧ st'.changeResponses = st.changeResponses ∧
      st'.changelog = { st.changelog with
        ffProof := st'.changelog.ffProof, provenUpTo := st'.changelog.provenUpTo } := by
    intro h
    unfold updateFfProof at h
    cases outcome with
    | skipped | refused | failed | undecodable | proved =>
      obtain ⟨-, rfl⟩ := Prod.mk.inj h
      exact ⟨rfl, rfl, rfl, rfl, rfl, rfl⟩
  unfold maybeGenerateFfProof at h
  split at h
  · obtain rfl := hSame h
    exact ⟨rfl, rfl, rfl, rfl, rfl, rfl⟩
  · split at h
    · split at h
      · obtain rfl := hSame h
        exact ⟨rfl, rfl, rfl, rfl, rfl, rfl⟩
      · exact hUpdate h
    · obtain rfl := hSame h
      exact ⟨rfl, rfl, rfl, rfl, rfl, rfl⟩

/-- A failed or idle call: only the snapshot may be taken. -/
def Idle (st st' : SpaceState T) : Prop := st' = st ∨ st' = st.takeSnapshot

/-- The tree, the log, the signature chains, the stored answers and the hash store
are unchanged. -/
structure NoTrace (st st' : SpaceState T) : Prop where
  tree : st'.tree = st.tree
  changelog : st'.changelog = st.changelog
  sigrefMap : st'.sigrefMap = st.sigrefMap
  changeResponses : st'.changeResponses = st.changeResponses
  hashStore : st'.hashStore = st.hashStore

theorem NoTrace.of_idle (h : Idle st st') : NoTrace st st' := by
  rcases h with rfl | rfl
  · exact ⟨rfl, rfl, rfl, rfl, rfl⟩
  · exact ⟨by simp, by simp, by simp, by simp, by simp⟩

/-- A call that ends in an error after the tree was written: the log is full. -/
structure LogFull (P : ServerParams T V) (st : SpaceState T) (change : Change)
    (st' : SpaceState T) (writes : Batch) : Prop where
  append : st.changelog.append P.H change.entry = none
  dispatch : (dispatchExtractAndValidate (st.changelog.numChanges + 1) change.entry).eval
    (plain P.codec (P.merk.read st.tree)) = .ok writes
  applyBatch : P.merk.applyBatch st.tree writes = .ok (some st'.tree)

/-- The state a committed change leaves before the proof step. -/
def afterCommit (P : ServerParams T V) (st : SpaceState T) (change : Change)
    (referenced : List Digest) (tree : T) (log : ChangeLog) (now : Nat) : SpaceState T :=
  committedState P st.takeSnapshot change
    (insertReferencedHashedValues st.hashStore change.hashedValues referenced) tree
    (.pruned st.tree) log now

/-- On the tree it was applied to, a change passes the replay. -/
theorem verifyProofAndValidate_own {change : ChangelogEntry} {writes : Batch} {tree : T}
    {n : Nat} (hParent : validateParentChange change.parentChange n = true)
    (hDispatch : (dispatchExtractAndValidate n change).eval
      (plain P.codec (P.merk.read st.tree)) = .ok writes)
    (hApply : P.merk.applyBatch st.tree writes = .ok (some tree)) :
    verifyProofAndValidate P.merk P.codec change (.pruned st.tree) (P.merk.hash st.tree)
      (P.merk.hash tree) n = .ok writes :=
  verifyProofAndValidate_eq_ok.mpr ⟨st.tree, some tree, rfl, hParent, rfl, hDispatch, hApply, rfl⟩

/-- The checks that the log depends on. -/
structure LogChecks (st : SpaceState T) (entry : ChangelogEntry) (now : Nat) : Prop where
  parentChange : validateParentChange entry.parentChange (st.changelog.numChanges + 1) = true
  parentClc : st.changelog.rootAt entry.parentChange = some entry.parentClc
  sigRef : entry.sigRef = st.sigrefMap[entry.uid]?.getD 0
  timestamp : validateChangeTimestampAtAcceptance entry.timestamp now = .ok ()

theorem validateParentWindow_eq_ok (h : validateParentWindow st entry = .ok u) :
    validateParentChange entry.parentChange (st.changelog.numChanges + 1) = true := by
  unfold validateParentWindow at h
  split at h
  · assumption
  · cases h

theorem validateParentRoot_eq_ok (h : validateParentRoot st entry = .ok u) :
    st.changelog.rootAt entry.parentChange = some entry.parentClc := by
  unfold validateParentRoot at h
  split at h
  · cases h
  · next expected hRoot =>
      split at h
      · next hClc => rw [hRoot, hClc]
      · cases h

theorem acceptanceChecks_logChecks {change : Change} {auth : AuthContext} {now : Nat}
    {referenced : List Digest} (h : acceptanceChecks P st change auth now = .ok referenced) :
    LogChecks st change.entry now := by
  iterate 6 obtain ⟨_, _, h⟩ := bind_eq_ok.mp h
  obtain ⟨_, hWindow, h⟩ := bind_eq_ok.mp h
  obtain ⟨_, hRoot, h⟩ := bind_eq_ok.mp h
  obtain ⟨_, hSigref, h⟩ := bind_eq_ok.mp h
  obtain ⟨_, hTime, h⟩ := bind_eq_ok.mp h
  refine ⟨validateParentWindow_eq_ok hWindow, validateParentRoot_eq_ok hRoot, ?_,
    ofChangelog_eq_ok.mp hTime⟩
  have hCheck := ofChangelog_eq_ok.mp hSigref
  unfold checkSigrefContinuity at hCheck
  by_contra hNe
  rw [if_pos hNe] at hCheck
  cases hCheck

/-- The call reaches the tree. -/
abbrev Applies (P : ServerParams T V) (st : SpaceState T) (change : Change) (auth : AuthContext)
    (now : Nat) : Prop :=
  ∃ referenced tree, acceptanceChecks P st change auth now = .ok referenced ∧
    doQueryWithPrunedMerkleTree P st.takeSnapshot change.entry = .ok (some tree)

variable {change : Change} {auth : AuthContext} {now : Nat} {prover : ProverOutcome}
  {referenced : List Digest} {tree : T} {st' : SpaceState T}

theorem emitWitness_own : emitWitness P (ownTrace P st tree) tree = .ok (.pruned st.tree) := by
  unfold emitWitness ownTrace ensure
  rw [if_pos rfl]
  rfl

/-- A call with no applied change is idle. -/
theorem idle_of_not_applied {trace : T → Trace T} {r : Except ServerError (ChangeResponse T)}
    (h : handleChangeTraced P st trace change auth now prover = (r, st'))
    (hNot : ¬ Applies P st change auth now) : Idle st st' := by
  unfold handleChangeTraced at h
  cases hChecks : acceptanceChecks P st change auth now with
  | error e =>
    rw [hChecks] at h
    obtain ⟨-, rfl⟩ := Prod.mk.inj h
    exact .inl rfl
  | ok referenced =>
    rw [hChecks] at h
    cases hQuery : doQueryWithPrunedMerkleTree P st.takeSnapshot change.entry with
    | error e =>
      rw [hQuery] at h
      obtain ⟨-, rfl⟩ := Prod.mk.inj h
      exact .inr rfl
    | ok applied =>
      rw [hQuery] at h
      cases applied with
      | none =>
        obtain ⟨-, rfl⟩ := Prod.mk.inj h
        exact .inr rfl
      | some tree => exact absurd ⟨referenced, tree, hChecks, hQuery⟩ hNot

section

variable (hChecks : acceptanceChecks P st change auth now = .ok referenced)
  (hQuery : doQueryWithPrunedMerkleTree P st.takeSnapshot change.entry = .ok (some tree))
include hChecks hQuery

/-- A change that was applied passes the replay of `add_change`. -/
theorem addChange_applied :
    st.takeSnapshot.changelog.addChange P change.entry (.pruned st.tree)
      (P.merk.hash st.takeSnapshot.tree) (P.merk.hash tree) =
        orGeneric (st.changelog.append P.H change.entry) "MmrTree::append: tree is full" := by
  obtain ⟨_, _, writes, hDispatch, _, hApply⟩ := doQuery_eq_some hQuery
  have hParent : validateParentChange change.entry.parentChange
      (st.takeSnapshot.changelog.numChanges + 1) = true := by
    rw [SpaceState.takeSnapshot_changelog]
    exact (acceptanceChecks_logChecks hChecks).parentChange
  have hReplay := verifyProofAndValidate_own hParent hDispatch hApply
  rw [SpaceState.takeSnapshot_tree] at hReplay
  unfold ChangeLog.addChange
  rw [SpaceState.takeSnapshot_tree, hReplay, SpaceState.takeSnapshot_changelog]
  rfl

/-- Once the tree is written, the call goes on to the log. -/
theorem handleChangeTraced_applied (trace : T → Trace T) :
    handleChangeTraced P st trace change auth now prover =
      commitChange P st.takeSnapshot (trace tree) change referenced tree now prover := by
  unfold handleChangeTraced
  rw [hChecks]
  dsimp only
  rw [hQuery]

/-- A call that applies its change, on a log with room: what is left is the proof. -/
theorem handleChange_applied {log : ChangeLog}
    (hAppend : st.changelog.append P.H change.entry = some log) :
    handleChange P st change auth now prover =
      match maybeGenerateFfProof (afterCommit P st change referenced tree log now) prover with
      | (.error e, st') => (.error e, st')
      | (.ok _, st') => (.ok (appliedResponse P st.takeSnapshot change
          (insertReferencedHashedValues st.hashStore change.hashedValues referenced) tree
          (.pruned st.tree) now), st') := by
  unfold handleChange
  rw [handleChangeTraced_applied hChecks hQuery, commitChange, emitWitness_own]
  dsimp only
  rw [addChange_applied hChecks hQuery, hAppend, SpaceState.takeSnapshot_hashStore]
  rfl

/-- A call that applies its change, on a full log: tree and hash store are written. -/
theorem handleChange_full (hFull : st.changelog.append P.H change.entry = none) :
    ∃ e, handleChange P st change auth now prover = (.error e, { st.takeSnapshot with
      tree
      hashStore := insertReferencedHashedValues st.hashStore change.hashedValues referenced }) := by
  unfold handleChange
  rw [handleChangeTraced_applied hChecks hQuery, commitChange, emitWitness_own]
  dsimp only
  rw [addChange_applied hChecks hQuery, hFull, SpaceState.takeSnapshot_hashStore]
  exact ⟨_, rfl⟩

end

/-- Every call is idle, fails on a full log, or commits. -/
theorem handleChange_cases {r : Except ServerError (ChangeResponse T)}
    (h : handleChange P st change auth now prover = (r, st')) :
    Idle st st' ∨
      (∃ writes, LogFull P st change st' writes ∧
        (∃ tree hashStore, st' = { st.takeSnapshot with tree, hashStore }) ∧ ∃ e, r = .error e) ∨
      ∃ referenced writes tree log, Committed P st change auth now referenced writes tree log ∧
        ∃ proved, maybeGenerateFfProof (afterCommit P st change referenced tree log now) prover =
          (proved, st') := by
  by_cases hApplied : Applies P st change auth now
  · obtain ⟨referenced, tree, hChecks, hQuery⟩ := hApplied
    obtain ⟨hPath, hOutcome, writes, hDispatch, hNe, hApply⟩ := doQuery_eq_some hQuery
    rw [SpaceState.takeSnapshot_changelog, SpaceState.takeSnapshot_tree] at hDispatch
    rw [SpaceState.takeSnapshot_tree] at hApply
    cases hAppend : st.changelog.append P.H change.entry with
    | none =>
      obtain ⟨e, hFull⟩ : ∃ e, handleChange P st change auth now prover = (.error e, _) :=
        handleChange_full hChecks hQuery hAppend
      obtain ⟨rfl, rfl⟩ := Prod.mk.inj (h.symm.trans hFull)
      exact .inr (.inl ⟨writes, ⟨hAppend, hDispatch, hApply⟩, ⟨_, _, rfl⟩, e, rfl⟩)
    | some log =>
      refine .inr (.inr ⟨referenced, writes, tree, log,
        ⟨hChecks, hPath, hOutcome, hDispatch, hNe, hApply, hAppend⟩, ?_⟩)
      rw [handleChange_applied hChecks hQuery hAppend] at h
      cases hProof : maybeGenerateFfProof (afterCommit P st change referenced tree log now)
          prover with
      | mk proved st₁ =>
        rw [hProof] at h
        cases proved with
        | error e =>
          obtain ⟨-, rfl⟩ := Prod.mk.inj h
          exact ⟨_, rfl⟩
        | ok u =>
          obtain ⟨-, rfl⟩ := Prod.mk.inj h
          exact ⟨_, rfl⟩
  · exact .inl (idle_of_not_applied h hApplied)

end HandleChange

/-! ## A concrete server -/

/-- The internal tables with their column types. -/
def internalSchema (table : String) : Option Schema :=
  let columns : List ColumnDef :=
    match table with
    | "_users" => [⟨"update_key", .blob⟩, ⟨"auth_key", .blob⟩, ⟨"status", .integer⟩]
    | "_access_control" =>
      [⟨"resource_name", .string⟩, ⟨"operation", .string⟩, ⟨"rule_json", .string⟩]
    | "_key_history" =>
      [⟨"uid", .integer⟩, ⟨"old_auth_key", .blob⟩, ⟨"valid_from_change_id", .integer⟩,
        ⟨"valid_to_change_id", .integer⟩]
    | "_retention" => [⟨"key", .string⟩, ⟨"value", .string⟩]
    | "_lists" =>
      [⟨"list_number", .integer⟩, ⟨"prev_id", .integer⟩, ⟨"next_id", .integer⟩, ⟨"value", .blob⟩]
    | _ => []
  if columns = [] then none else some { columns := ⟨"id", .integer⟩ :: columns }

/-- A server over maps, with one signature key and a constant log hash. -/
def sampleServer : ServerParams Db Unit where
  H _ := hashCell 7
  merk := mapTrees fun db => List.replicate 32 (UInt8.ofNat db.size)
  contents := id
  codec := noRules
  getSchema _ := internalSchema
  parseAuthKey _ := some ()
  verifySignature _ _ := true

def sampleSpace : SpaceState Db where
  tree := internalDb
  changelog := ChangeLog.new sampleServer.H (sampleServer.merk.hash internalDb)
  changeResponses := []
  treeSnapshot := none
  ffBatchSize := 10
  keyDeliverySlots := ∅
  sigrefMap := ∅
  hashStore := ∅

/-- The values behind the hash cells of sample users: base64 texts. -/
def sampleSidecar (bytes : List UInt8) : HashedValues :=
  Std.ExtTreeMap.ofList (bytes.map fun byte => (hashCell byte, stringToValueBytes "AAAA")) compare

/-- A sample entry with a timestamp, the constant parent root and a signature. -/
def signedSample (entry : ChangelogEntry) (now : Nat) : ChangelogEntry :=
  { entry with timestamp := now, parentClc := hashCell 7, signature := [1] }

end EncryptedSpaces.Server
