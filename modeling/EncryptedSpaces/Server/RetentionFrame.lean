import EncryptedSpaces.Server.ServerLog
import EncryptedSpaces.Server.Requests

/-!
# Changes without a retention proof

Four types of operations carry a retention proof.  An accepted change of any
other type should leave the retention state alone.  It does unless it creates a
space or invites a user with `_retention` cells in the entry, or invokes an action
that cascades into that table.  The invitation of a user is where the code asks for
no proof: its verifier writes `_retention` cells of the entry.
-/

namespace EncryptedSpaces.Server

open Encoding Changelog Ops Lib FastForward Retention

/-- The operation types with a retention proof. -/
def requiresRetentionProof : OpType → Bool
  | .removeUser | .rekey | .extend | .reduce => true
  | _ => false

/-- The entry brings `_retention` cells to an operation that writes them. -/
def BringsRetention (entry : ChangelogEntry) : Prop :=
  (entry.message.opType = .inviteUser ∨ entry.message.opType = .createSpace) ∧
    CarriesRetention entry

/-- The entry invokes an action that deletes `_retention` rows by a cascade. -/
inductive CascadesRetention (codec : RuleCodec) (db : Db) (entry : ChangelogEntry) : Prop where
  | intro (primaryTable name opName : String) (kvs : List KvData) (action : Acl.Action)
      (leg : Acl.ActionLeg) (hType : entry.message.opType = .action)
      (hMarker : extractActionMarker entry = .ok (primaryTable, name, kvs))
      (hAction : loadStatic codec db.reader opName (.action primaryTable name) = .ok (some action))
      (hLeg : leg ∈ action.legs) (hKind : leg.isCascade = true)
      (hTable : leg.table = retentionTable)

theorem invokedCascades_of_not {codec : RuleCodec} {db : Db} {entry : ChangelogEntry}
    (h : ¬ CascadesRetention codec db entry) {q : Query} {a : Answer q}
    (hAnswer : plain codec db.reader q = .ok a) :
    InvokedCascades entry (· ≠ retentionTable) q a := by
  unfold InvokedCascades
  split
  · next primaryTable name opName action =>
      rintro hType ⟨kvs, hMarker⟩ leg hLeg hKind hTable
      exact h ⟨primaryTable, name, opName, kvs, action, leg, hType, hMarker, hAnswer, hLeg, hKind,
        hTable⟩
  · trivial

/-- `_retention` is not among the tables such a change may write. -/
theorem not_tablesOf_retention {entry : ChangelogEntry}
    (hProofless : requiresRetentionProof entry.message.opType = false)
    (hEntry : ¬ BringsRetention entry) :
    ¬ tablesOf (· ≠ retentionTable) entry retentionTable := by
  have hApplication : ¬ Application retentionTable := by
    decide
  have hUsers : retentionTable ≠ usersTable := by decide
  have hHistory : retentionTable ≠ keyHistoryTable := by decide
  have hLists : retentionTable ≠ listsTable := by decide
  unfold tablesOf
  cases hType : entry.message.opType with
  | insert => exact hApplication
  | update => exact hApplication
  | delete => exact hApplication
  | listInsert => exact hLists
  | listUpdate => exact hLists
  | listDelete => exact hLists
  | listAppend => exact hLists
  | createSpace => exact fun h => h.elim hUsers fun h => hEntry ⟨.inr hType, h.2⟩
  | inviteUser => exact fun h => h.elim hUsers fun h => hEntry ⟨.inl hType, h.2⟩
  | refreshKeys => exact fun h => h.elim hUsers hHistory
  | action => exact fun h => h.elim hApplication fun h => h rfl
  | noop => exact id
  | removeUser | extend | reduce | rekey =>
    rw [hType] at hProofless
    cases hProofless

/-- A batch that stays out of `_retention` keeps what the reader sees. -/
theorem retentionRead_applyBatch {tables : String → Prop} {db : Db} {batch : Batch}
    (h : Touches tables batch) (hTables : ¬ tables retentionTable) :
    retentionRead (db.applyBatch batch) = retentionRead db := by
  apply retentionRead_congr
  intro tag key hTag hFront
  apply Db.getElem?_applyBatch_of_ne
  rintro op hOp rfl
  exact hTables (h.owner hOp hFront hTag)

section Frame

variable {T V K C E Pf PK : Type} [DecidableEq C]
variable {P : ServerParams T V} {D : DeliveryParams K C E Pf PK} {st st' : SpaceState T}

/-- The effect of an accepted operation on the reader. -/
theorem retentionRead_of_dispatch {entry : ChangelogEntry} {n : Nat} {writes : Batch} {tree : T}
    (hM : CompleteTrees P.merk P.contents)
    (hProofless : requiresRetentionProof entry.message.opType = false)
    (hEntry : ¬ BringsRetention entry) (hAction : ¬ CascadesRetention P.codec (st.db P) entry)
    (hDispatch : (dispatchExtractAndValidate n entry).eval
      (plain P.codec (P.merk.read st.tree)) = .ok writes)
    (hApply : P.merk.applyBatch st.tree writes = .ok (some tree)) :
    retentionRead (P.contents tree) = retentionRead (st.db P) := by
  rw [hM.read] at hDispatch
  have hTouches :=
    dispatch_touches.of_eval (fun q a hq => invokedCascades_of_not hAction hq) hDispatch
  rw [hM.contents_eq hApply]
  exact retentionRead_applyBatch hTouches (not_tablesOf_retention hProofless hEntry)

/-- A change without a retention proof that brings no `_retention` cells and invokes no
cascade into `_retention` leaves the retention state as it is, on every route and
whatever the answer. -/
theorem processRequest_retentionRead (hM : CompleteTrees P.merk P.contents) {env : Surroundings}
    {request : Request C Pf} {r : Except ServerError (ChangeResponse T)}
    (h : processRequest P D st env request = (r, st'))
    (hProofless : requiresRetentionProof request.signed.entry.message.opType = false)
    (hEntry : ¬ BringsRetention request.signed.entry)
    (hAction : ¬ CascadesRetention P.codec (st.db P) request.signed.entry) :
    retentionRead (st'.db P) = retentionRead (st.db P) := by
  rcases processRequest_cases h with ⟨-, rfl⟩ | ⟨r₁, st₁, hHandle, hSlots⟩
  · rfl
  · have hTree : st'.db P = st₁.db P := by rw [hSlots]; rfl
    rw [hTree]
    rcases handleChange_cases hHandle with hIdle | ⟨writes, hFull, -⟩ |
      ⟨referenced, writes, tree, log, hCommit, proved, hProof⟩
    · unfold SpaceState.db
      rw [(NoTrace.of_idle hIdle).tree]
    · exact retentionRead_of_dispatch hM hProofless hEntry hAction hFull.dispatch hFull.applyBatch
    · have hTree₁ := (after_of_proofStep hProof).tree_eq
      unfold SpaceState.db at hAction ⊢
      rw [hTree₁]
      exact retentionRead_of_dispatch hM hProofless hEntry hAction hCommit.dispatch
        hCommit.applyBatch

end Frame

/-! ## An invitation with a retention row -/

section Sample

open Crypto.KoalaBear

/-- The space after user 1 created it with a fresh key chain. -/
def spaceWithRetention : Option (SpaceState Db) :=
  acceptCalls sampleServer sampleSpace
    [sampleCall (signedSample sampleCreateWithRetention 50) [1] (by constructor <;> decide +kernel)]

/-- User 1 invites user 2; the cells of `rows` travel with the entry. -/
def inviteEntry (rows : List (String × Bytes)) : ChangelogEntry :=
  signedSample (sampleEntry .inviteUser 1 1 1 (appendRetentionToChangelog rows ++
    sampleUser 2 0)) 60

def sampleEnv : Surroundings := { auth := { uid := some 1 }, now := 60, prover := .skipped }

/-- An invitation on the plain change route. -/
def inviteRequest (rows : List (String × Bytes)) (fits : (inviteEntry rows).FitsWidths) :
    Request Limbs (List Limbs) :=
  .change { entry := inviteEntry rows, hashedValues := sampleSidecar [2], fits } []

/-- The counter of derived group keys, set to seven. -/
def forgedRow : List (String × Bytes) := [(Cell.dgkNext.key, u64ToBytes 7)]

def plainInvite : Request Limbs (List Limbs) :=
  inviteRequest [] (by constructor <;> decide +kernel)

def forgedInvite : Request Limbs (List Limbs) :=
  inviteRequest forgedRow (by constructor <;> decide +kernel)

/-- What the server answers and what the reader sees of the counter before and
after. -/
def inviteEffect (request : Request Limbs (List Limbs)) :
    Option (Bool × Option (Option Bytes) × Option (Option Bytes)) := do
  let st ← spaceWithRetention
  let out := processRequest sampleServer sampleDelivery st sampleEnv request
  return (out.1.isOk, retentionRead (st.db sampleServer) Cell.dgkNext.key,
    retentionRead (out.2.db sampleServer) Cell.dgkNext.key)

/-- A request of user 1 on the sample space that succeeds with effect `p`. -/
theorem exists_of_inviteEffect
    {request : Request Limbs (List Limbs)}
    {before after : Option (Option Bytes)}
    (h : inviteEffect request = some (true, before, after)) :
    ∃ st response st', spaceWithRetention = some st ∧
      processRequest sampleServer sampleDelivery st sampleEnv request = (.ok response, st') ∧
      retentionRead (st.db sampleServer) Cell.dgkNext.key = before ∧
      retentionRead (st'.db sampleServer) Cell.dgkNext.key = after := by
  unfold inviteEffect at h
  obtain ⟨st, hSt, h⟩ := Option.bind_eq_some_iff.mp h
  simp only [Option.pure_def, Option.some.injEq, Prod.mk.injEq] at h
  obtain ⟨hOk, hBefore, hAfter⟩ := h
  cases hRun : processRequest sampleServer sampleDelivery st sampleEnv request with
  | mk r st' =>
    rw [hRun] at hOk hAfter
    cases r with
    | error e => cases hOk
    | ok response => exact ⟨st, response, st', hSt, hRun, hBefore, hAfter⟩

/-- An invitation without `_retention` cells. -/
theorem plainInvite_keeps_retention : ∃ st response st', spaceWithRetention = some st ∧
    processRequest sampleServer sampleDelivery st sampleEnv plainInvite = (.ok response, st') ∧
    retentionRead (st'.db sampleServer) = retentionRead (st.db sampleServer) := by
  have hEffect : inviteEffect plainInvite = some (true,
      some (some (u64ToBytes 0)), some (some (u64ToBytes 0))) := by
    decide +kernel
  obtain ⟨st, response, st', hSt, hRun, -, -⟩ := exists_of_inviteEffect hEffect
  have hEntry : ¬ BringsRetention plainInvite.signed.entry := by
    rintro ⟨-, kv, hkv, hColumn⟩
    have hMem := mem_tableKvs.mpr ⟨hkv, hColumn⟩
    cases hMem
  have hCascade : ¬ CascadesRetention sampleServer.codec (st.db sampleServer)
      plainInvite.signed.entry := by
    rintro ⟨-, -, -, -, -, -, hType, -⟩
    cases hType
  exact ⟨st, response, st', hSt, hRun, processRequest_retentionRead (mapTrees_complete _) hRun rfl
    hEntry hCascade⟩

/-- An invitation with one `_retention` row is accepted without a proof and
resets the counter of derived keys. -/
theorem forgedInvite_rewrites_retention : ∃ st response st', spaceWithRetention = some st ∧
    forgedInvite.signed.entry.message.opType = .inviteUser ∧
    processRequest sampleServer sampleDelivery st sampleEnv forgedInvite = (.ok response, st') ∧
    retentionRead (st'.db sampleServer) ≠ retentionRead (st.db sampleServer) := by
  have hEffect : inviteEffect forgedInvite = some (true,
      some (some (u64ToBytes 0)), some (some (u64ToBytes 7))) := by
    decide +kernel
  obtain ⟨st, response, st', hSt, hRun, hBefore, hAfter⟩ := exists_of_inviteEffect hEffect
  refine ⟨st, response, st', hSt, rfl, hRun, fun hSame => ?_⟩
  have hKey := congrFun hSame Cell.dgkNext.key
  rw [hBefore, hAfter] at hKey
  exact absurd hKey (by decide +kernel)

end Sample

end EncryptedSpaces.Server
