import EncryptedSpaces.Server.HandleChange
import EncryptedSpaces.Server.RetentionWrites

/-!
# Request routes

A signed change reaches `handle_change` through four routes.  Every route checks
the retention proofs that the type of the operation calls for; the membership
routes also check an encrypted key envelope and update the key-delivery slots
after the change is committed.  No route looks at the type of the operation it
carries beyond that.

Multi-recipient encryption, the JSON forms of keys and envelopes, and the
retention proof system are parameters.
-/

namespace EncryptedSpaces.Server

open Encoding Changelog Ops Lib FastForward Retention Crypto

structure InviteRequest (C : Type) where
  rootCommitment : C
  payload : Bytes

structure RekeyRequest (C : Type) where
  newRootCommitment : C
  payload : Bytes

/-- What the routes take from libraries: the key suite, the retention prover and
the verifiable encryption of group keys to public keys `PK`. -/
structure DeliveryParams (K C E Pf PK : Type) where
  suite : KeySuite K C E Bytes
  prover : RuntimeProver K C E Pf
  parsePk : Bytes → Option PK
  verifyInvite : PK → InviteRequest C → Option (List Bytes)
  verifyRekey : List PK → RekeyRequest C → Option (List Bytes)
  /-- `serde_json::to_vec` of a `GkDeliveryEnvelope`. -/
  encodeEnvelope : C → Bytes → Bytes

section Routes

variable {T V K C E Pf PK : Type} [DecidableEq C]
variable (P : ServerParams T V) (D : DeliveryParams K C E Pf PK) (st : SpaceState T)

/-! ## Members -/

/-- A stored public key: the JSON form in base64. -/
def publicKeyOfText (b64 : String) : Option PK := do
  let json ← decodeBase64 b64
  D.parsePk json

/-- `reassemble_row_resolving_hashes` for one cell of a table. -/
def resolvedCell (schema : Schema) (hashStore : HashedValues) (column : String) (bytes : Bytes) :
    Except String Value := do
  let hashBacked := ((schema.columns.find? (·.name = column)).map
    (·.columnType.isHashBacked)).getD false
  if hashBacked then
    match hashStore[bytes]? with
    | some full => if bytes.length = 32 then bytesToValue full else .error "not a hash"
    | none => .error s!"Missing hashed value for hash-backed column {column}"
  else bytesToValue bytes

def resolvedRow (schema : Schema) (hashStore : HashedValues) (rowId : Int) (cells : ReadResult) :
    Except String Row :=
  cells.foldlM
    (fun row (key, bytes) =>
      match parsedColumn? key with
      | some (_, _, column) =>
        match resolvedCell schema hashStore column bytes with
        | .ok value => .ok ((column, value) :: row)
        | .error e => .error e
      | none => .ok row)
    [("id", .int rowId)]

/-- `select_table_rows_resolving_hashes` for `_users`. -/
def userRows : Except ServerError (List Row) := do
  let schema ← orGeneric (P.getSchema (st.db P) usersTable) "Table not found: _users"
  let groups := groupCells (iterPrefix (st.db P) (rowPrefix usersTable))
  orGeneric ((groups.mapM fun (rowId, cells) =>
    resolvedRow schema st.hashStore rowId cells).toOption)
    "failed to resolve hash-backed columns for _users"

/-- The users of a list of rows whose update key parses. -/
def membersOfRows (rows : List Row) : List (Int × PK) :=
  rows.filterMap fun row => do
    let id ← (row.get "id").bind Value.asI64
    let b64 ← (row.get "update_key").bind Value.asStr
    let pk ← publicKeyOfText D b64
    return (id, pk)

def members : Except ServerError (List (Int × PK)) :=
  (userRows P st).map (membersOfRows D)

/-- `removed_user_ids_in_change`. -/
def removedUserIds (entry : ChangelogEntry) : List Int :=
  btreeSetInt (entry.message.entries.filterMap fun kv =>
    match parseKey kv.key with
    | .ok (.column table rowId _) | .ok (.row table rowId) =>
      if table = usersTable then some rowId else none
    | _ => none)

/-! ## Retention checks -/

def pendingOf (change : Change) : Reader Bytes :=
  pendingWritesView (extractRetentionWritesFromChange change.entry.message.entries)

def verifyRetentionProofsFromChange (change : Change) (proofs : List Pf) :
    Except ServerError Unit :=
  orGeneric (verifyRetentionProofs D.suite D.prover change.entry.message.opType proofs
    (retentionReader (st.db P)) (pendingOf change)) "retention proof verification failed"

def verifyRekeyNewRootCommitment (change : Change) (expected : C) : Except ServerError Unit := do
  let canonical ← orGeneric (currentHgkCommitment D.suite (pendingOf change))
    "failed to load canonical group-key commitment from rekey writes"
  ensure (canonical = expected)
    "rekey new_root_commitment does not match canonical post-rekey group-key commitment"

/-! ## Routes -/

/-- The surroundings of a request: who sends it, when, and what the prover does. -/
structure Surroundings where
  auth : AuthContext
  now : Nat
  prover : ProverOutcome

/-- Run the change after the checks of a route; `slots` is what the route does
with the slots of a committed change, and may fail after the commit. -/
def routed {α : Type} (checks : Except ServerError α) (change : Change) (env : Surroundings)
    (slots : α → ChangeResponse T → SpaceState T → Except ServerError Unit × SpaceState T) :
    Except ServerError (ChangeResponse T) × SpaceState T :=
  match checks with
  | .error e => (.error e, st)
  | .ok a =>
    match handleChange P st change env.auth env.now env.prover with
    | (.error e, st') => (.error e, st')
    | (.ok response, st') =>
      match slots a response st' with
      | (.error e, st'') => (.error e, st'')
      | (.ok _, st'') => (.ok response, st'')

/-- Slots of recipients in order; a recipient without a ciphertext ends the
writes with an error. -/
def putEnvelopes (commitment : C) :
    List Int → List Bytes → SpaceState T → Except ServerError Unit × SpaceState T
  | [], _, st => (.ok (), st)
  | uid :: uids, ciphertext :: ciphertexts, st =>
    putEnvelopes commitment uids ciphertexts { st with
      keyDeliverySlots := st.keyDeliverySlots.insert uid (D.encodeEnvelope commitment ciphertext) }
  | _ :: _, [], st => (.error (.generic "missing ciphertext for member"), st)

/-- `handle_change_with_proofs`. -/
def handleChangeWithProofs (change : Change) (proofs : List Pf) (env : Surroundings) :
    Except ServerError (ChangeResponse T) × SpaceState T :=
  routed P st (verifyRetentionProofsFromChange P D st change proofs) change env
    fun _ _ st' => (.ok (), st')

def newMemberPk (change : Change) : Except ServerError PK := do
  let bytes ← orGeneric (columnValueForTable change usersTable "update_key")
    "missing _users.update_key entry in invite_user change"
  let json ← orGeneric (bytesToValue bytes).toOption "decode _users.update_key bytes"
  let b64 ← orGeneric json.asStr "_users.update_key is not a base64 string"
  orGeneric (publicKeyOfText D b64) "deserialize update_key"

def addMemberChecks (request : InviteRequest C) (change : Change) (proofs : List Pf) :
    Except ServerError (List Bytes) := do
  validateHashedValues st change.hashedValues
  let pk ← newMemberPk D change
  let canonical ← orGeneric (currentHgkCommitment D.suite (retentionReader (st.db P)))
    "failed to load canonical group-key commitment"
  ensure (canonical = request.rootCommitment)
    "invite root_commitment does not match canonical current group-key commitment"
  let ciphertexts ← orGeneric (D.verifyInvite pk request) "invite MVE verification failed"
  verifyRetentionProofsFromChange P D st change proofs
  return ciphertexts

/-- The one `_users` row an invitation writes. -/
def extractRowIdFromInviteUserProof (entry : ChangelogEntry) (response : ChangeResponse T) :
    Except ServerError Int := do
  ensure (entry.message.opType = .inviteUser) "Expected InviteUser proof"
  let writes ← ofChangelog (verifyProofAndValidate P.merk P.codec entry response.prunedMerkleTree
    response.oldRoot response.newRoot response.changeId)
  let rowIds := btreeSetInt (writes.filterMap fun op =>
    match op with
    | .put key _ => (parsedColumn? key).bind fun (table, rowId, _) =>
      if table = usersTable then some rowId else none
    | .delete _ => none)
  match rowIds with
  | [rowId] => return rowId
  | _ => .error (.generic "InviteUser proof did not write exactly one _users row")

def addMemberSlots (request : InviteRequest C) (change : Change) (ciphertexts : List Bytes)
    (response : ChangeResponse T) (st' : SpaceState T) : Except ServerError Unit × SpaceState T :=
  match extractRowIdFromInviteUserProof P change.entry response with
  | .error e => (.error e, st')
  | .ok uid => putEnvelopes D request.rootCommitment [uid] (ciphertexts.take 1) st'

/-- `handle_add_member`. -/
def handleAddMember (request : InviteRequest C) (change : Change) (proofs : List Pf)
    (env : Surroundings) : Except ServerError (ChangeResponse T) × SpaceState T :=
  routed P st (addMemberChecks P D st request change proofs) change env
    fun ciphertexts response st' => addMemberSlots P D request change ciphertexts response st'

def removeMemberChecks (request : RekeyRequest C) (remainingUids : List Int) (change : Change)
    (proofs : List Pf) : Except ServerError (List Bytes) := do
  let members ← members P D st
  let expected := (members.map Prod.fst).filter (· ∉ removedUserIds change.entry)
  ensure (∀ uid, uid ∈ remainingUids ++ expected → uid ∈ remainingUids ∧ uid ∈ expected)
    "remaining_uids does not match authoritative survivor set"
  let pks ← orGeneric (remainingUids.mapM fun uid => members.lookup uid) "uid not found in _users"
  let ciphertexts ← orGeneric (D.verifyRekey pks request) "rekey MVE verification failed"
  verifyRetentionProofsFromChange P D st change proofs
  verifyRekeyNewRootCommitment D change request.newRootCommitment
  return ciphertexts

def removeMemberSlots (request : RekeyRequest C) (remainingUids : List Int) (change : Change)
    (ciphertexts : List Bytes) (st' : SpaceState T) : Except ServerError Unit × SpaceState T :=
  putEnvelopes D request.newRootCommitment remainingUids ciphertexts { st' with
    keyDeliverySlots := (removedUserIds change.entry).foldl
      (fun slots uid => slots.erase uid) st'.keyDeliverySlots }

/-- `handle_remove_member`. -/
def handleRemoveMember (request : RekeyRequest C) (remainingUids : List Int) (change : Change)
    (proofs : List Pf) (env : Surroundings) :
    Except ServerError (ChangeResponse T) × SpaceState T :=
  routed P st (removeMemberChecks P D st request remainingUids change proofs) change env
    fun ciphertexts _ st' => removeMemberSlots D request remainingUids change ciphertexts st'

/-- The recipients of a rekey and their ciphertexts. -/
def rekeyDelivery (change : Change) (request : RekeyRequest C) :
    Except ServerError (List Int × List Bytes) := do
  verifyRekeyNewRootCommitment D change request.newRootCommitment
  let members ← members P D st
  let ciphertexts ← orGeneric (D.verifyRekey (members.map Prod.snd) request)
    "rekey MVE verification failed"
  ensure (members.length ≤ ciphertexts.length) "missing ciphertext for member"
  return (members.map Prod.fst, ciphertexts)

/-- The envelopes of a retention request: none unless it is a rekey. -/
def retentionDelivery (change : Change) (rekeyRequest : Option (RekeyRequest C)) :
    Except ServerError (Option (C × List Int × List Bytes)) :=
  if change.entry.message.opType = .rekey then do
    let request ← orGeneric rekeyRequest "rekey op missing delivery envelope"
    let (uids, ciphertexts) ← rekeyDelivery P D st change request
    return some (request.newRootCommitment, uids, ciphertexts)
  else .ok none

def retentionChecks (change : Change) (proofs : List Pf) (rekeyRequest : Option (RekeyRequest C)) :
    Except ServerError (Option (C × List Int × List Bytes)) := do
  verifyRetentionProofsFromChange P D st change proofs
  retentionDelivery P D st change rekeyRequest

def retentionSlots (delivery : Option (C × List Int × List Bytes)) (st' : SpaceState T) :
    Except ServerError Unit × SpaceState T :=
  match delivery with
  | none => (.ok (), st')
  | some (commitment, uids, ciphertexts) => putEnvelopes D commitment uids ciphertexts st'

/-- `handle_retention`. -/
def handleRetention (change : Change) (proofs : List Pf) (rekeyRequest : Option (RekeyRequest C))
    (env : Surroundings) : Except ServerError (ChangeResponse T) × SpaceState T :=
  routed P st (retentionChecks P D st change proofs rekeyRequest) change env
    fun delivery _ st' => retentionSlots D delivery st'

/-- A request that carries a change. -/
inductive Request (C Pf : Type) where
  | change (change : Change) (proofs : List Pf)
  | addMember (request : InviteRequest C) (change : Change) (proofs : List Pf)
  | removeMember (request : RekeyRequest C) (remainingUids : List Int) (change : Change)
      (proofs : List Pf)
  | retention (change : Change) (proofs : List Pf) (rekeyRequest : Option (RekeyRequest C))

def Request.signed : Request C Pf → Change
  | .change signed _ | .addMember _ signed _ | .removeMember _ _ signed _
  | .retention signed _ _ => signed

/-- `process_request_directly`, for the requests that carry a change. -/
def processRequest (env : Surroundings) :
    Request C Pf → Except ServerError (ChangeResponse T) × SpaceState T
  | .change change proofs => handleChangeWithProofs P D st change proofs env
  | .addMember request change proofs => handleAddMember P D st request change proofs env
  | .removeMember request remainingUids change proofs =>
    handleRemoveMember P D st request remainingUids change proofs env
  | .retention change proofs rekeyRequest =>
    handleRetention P D st change proofs rekeyRequest env

/-! ## What a route can do -/

variable {P D st}

/-- Two states that differ in their slots only. -/
def SlotsOnly (st st' : SpaceState T) : Prop :=
  st' = { st with keyDeliverySlots := st'.keyDeliverySlots }

omit [DecidableEq C] in
theorem putEnvelopes_slotsOnly (commitment : C) (uids : List Int) (ciphertexts : List Bytes)
    (st : SpaceState T) : SlotsOnly st (putEnvelopes D commitment uids ciphertexts st).2 := by
  induction uids generalizing ciphertexts st with
  | nil => rfl
  | cons uid uids ih =>
    cases ciphertexts with
    | nil => rfl
    | cons ciphertext ciphertexts =>
      have h := ih ciphertexts { st with
        keyDeliverySlots := st.keyDeliverySlots.insert uid
          (D.encodeEnvelope commitment ciphertext) }
      unfold SlotsOnly at h ⊢
      rw [putEnvelopes, h]

theorem routed_cases {α : Type} {checks : Except ServerError α} {change : Change}
    {env : Surroundings}
    {slots : α → ChangeResponse T → SpaceState T → Except ServerError Unit × SpaceState T}
    (hSlots : ∀ a response st', SlotsOnly st' (slots a response st').2)
    {r : Except ServerError (ChangeResponse T)} {st' : SpaceState T}
    (h : routed P st checks change env slots = (r, st')) :
    ((∃ e, r = .error e) ∧ st' = st) ∨
      ∃ r₁ st₁, handleChange P st change env.auth env.now env.prover = (r₁, st₁) ∧
        SlotsOnly st₁ st' := by
  unfold routed at h
  cases checks with
  | error e =>
    obtain ⟨rfl, rfl⟩ := Prod.mk.inj h
    exact .inl ⟨⟨e, rfl⟩, rfl⟩
  | ok a =>
    cases hHandle : handleChange P st change env.auth env.now env.prover with
    | mk r₁ st₁ =>
      refine .inr ⟨r₁, st₁, rfl, ?_⟩
      rw [hHandle] at h
      cases r₁ with
      | error e =>
        obtain ⟨-, rfl⟩ := Prod.mk.inj h
        rfl
      | ok response =>
        dsimp only at h
        have hOnly := hSlots a response st₁
        cases hPut : slots a response st₁ with
        | mk r₂ st₂ =>
          rw [hPut] at h hOnly
          cases r₂ with
          | error e =>
            obtain ⟨-, rfl⟩ := Prod.mk.inj h
            exact hOnly
          | ok u =>
            obtain ⟨-, rfl⟩ := Prod.mk.inj h
            exact hOnly

/-- Whatever the route, a request is refused or its change is handled; the route
itself writes slots only. -/
theorem processRequest_cases {env : Surroundings} {request : Request C Pf}
    {r : Except ServerError (ChangeResponse T)} {st' : SpaceState T}
    (h : processRequest P D st env request = (r, st')) :
    ((∃ e, r = .error e) ∧ st' = st) ∨
      ∃ r₁ st₁, handleChange P st request.signed env.auth env.now env.prover = (r₁, st₁) ∧
        SlotsOnly st₁ st' := by
  cases request with
  | change signed proofs =>
    unfold processRequest handleChangeWithProofs at h
    apply routed_cases (fun _ _ st' => ?_) h
    rfl
  | addMember request change proofs =>
    apply routed_cases (fun ciphertexts response st' => ?_) h
    unfold addMemberSlots
    split
    · rfl
    · exact putEnvelopes_slotsOnly _ _ _ _
  | removeMember request remainingUids change proofs =>
    apply routed_cases (fun ciphertexts response st' => ?_) h
    exact (putEnvelopes_slotsOnly _ _ _ _).trans rfl
  | retention change proofs rekeyRequest =>
    apply routed_cases (fun delivery response st' => ?_) h
    unfold retentionSlots
    split
    · rfl
    · exact putEnvelopes_slotsOnly _ _ _ _

end Routes

open Crypto.KoalaBear in
/-- Delivery with the raw suite, proofs that reveal the keys, and encryption that
accepts everything. -/
def sampleDelivery : DeliveryParams Limbs Limbs Limbs (List Limbs) Unit where
  suite := suite id (fun _ => 1) rawCodec
  prover := revealingProver (suite id (fun _ => 1) rawCodec)
  parsePk _ := some ()
  verifyInvite _ _ := some [[1]]
  verifyRekey pks _ := some (pks.map fun _ => [1])
  encodeEnvelope commitment ciphertext := toBytes commitment ++ ciphertext

end EncryptedSpaces.Server
