import EncryptedSpaces.Ops.RefreshAcceptance

/-!
# Rotating keys again and again

`rotate_user_keys` takes the range of the retired key from two numbers that the
client keeps: `key_valid_from_change_id`, the change id of its last rotation, and
`my_last_change_id`.  RefreshKeys files the range up to the `sig_ref` of the
rotation, which is the signer's change before it, and wants the next range to
start right after that.  The two agree when the last rotation came directly after
the signer's change before it, and never again if anything was in between.
-/

namespace EncryptedSpaces.Client

open Encoding Changelog Lib Ops

/-! ## The client -/

/-- What a client keeps for its signatures. -/
structure SignerState where
  keyValidFromChangeId : Nat
  myLastChangeId : Nat
  deriving DecidableEq, Repr

/-- An entry is incorporated; own rotations also move the start of the key. -/
def SignerState.incorporate (uid changeId : Nat) (entry : ChangelogEntry) (st : SignerState) :
    SignerState :=
  if entry.uid = uid then
    { keyValidFromChangeId :=
        if entry.message.opType = .refreshKeys then changeId else st.keyValidFromChangeId
      myLastChangeId := changeId }
  else st

/-- The state of a user's client after some entries, the newest first. -/
def signerState (uid : Nat) : List ChangelogEntry → SignerState
  | [] => { keyValidFromChangeId := 0, myLastChangeId := 0 }
  | entry :: older => (signerState uid older).incorporate uid (older.length + 1) entry

/-- The keys of a rotation, in the form in which cells hold them. -/
structure RotatedKeys where
  oldAuthKey : Bytes
  authKey : Bytes
  updateKey : Bytes

/-- The cells that `rotate_user_keys` builds. -/
def SignerState.rotation (st : SignerState) (uid : Nat) (keys : RotatedKeys) : Rotation where
  uid := uid
  oldAuthKey := keys.oldAuthKey
  validFrom := st.keyValidFromChangeId
  validTo := st.myLastChangeId
  authKey := keys.authKey
  updateKey := keys.updateKey

/-- `build_refresh_keys`; `context` has the fields that the operation does not read. -/
def SignerState.rotateUserKeys (st : SignerState) (uid : Nat) (keys : RotatedKeys)
    (context : ChangelogEntry) : ChangelogEntry :=
  { context with
    uid := uid
    message :=
      { opType := .refreshKeys, treePath := utf8 "/", entries := (st.rotation uid keys).cells }
    sigRef := st.myLastChangeId }

/-! ## Rotations of a run -/

/-- The change id and the `sig_ref` of a user's last rotation; the newest entry comes
first. -/
def lastRotation (uid : Nat) : List ChangelogEntry → Option (Nat × Nat)
  | [] => none
  | entry :: older =>
    if entry.uid = uid ∧ entry.message.opType = .refreshKeys then
      some (older.length + 1, entry.sigRef)
    else lastRotation uid older

/-- The entry removes the user. -/
def RemovesUser (uid : Nat) (entry : ChangelogEntry) : Prop :=
  entry.message.opType = .removeUser ∧
    ∃ kv ∈ userKvs entry, (parsedColumn? kv.key).map (fun cell => truncateU32 cell.2.1) = some uid

instance (uid : Nat) (entry : ChangelogEntry) : Decidable (RemovesUser uid entry) :=
  inferInstanceAs (Decidable (_ ∧ ∃ kv ∈ userKvs entry, _))

section State

variable {uid : Nat}

theorem myLastChangeId_signerState (entries : List ChangelogEntry) :
    (signerState uid entries).myLastChangeId = lastChangeOf uid entries := by
  induction entries with
  | nil => rfl
  | cons entry older ih =>
    rw [signerState, SignerState.incorporate, lastChangeOf]
    by_cases hOwn : entry.uid = uid
    · rw [if_pos hOwn, if_pos hOwn]
    · rw [if_neg hOwn, if_neg hOwn, ih]

theorem keyValidFrom_signerState (entries : List ChangelogEntry) :
    (signerState uid entries).keyValidFromChangeId =
      ((lastRotation uid entries).map (·.1)).getD 0 := by
  induction entries with
  | nil => rfl
  | cons entry older ih =>
    rw [signerState, SignerState.incorporate, lastRotation]
    by_cases hOwn : entry.uid = uid
    · by_cases hType : entry.message.opType = .refreshKeys
      · have hBoth : entry.uid = uid ∧ entry.message.opType = .refreshKeys := ⟨hOwn, hType⟩
        rw [if_pos hOwn, if_pos hBoth]
        exact if_pos hType
      · have hNot : ¬ (entry.uid = uid ∧ entry.message.opType = .refreshKeys) := fun h => hType h.2
        rw [if_pos hOwn, if_neg hNot, ← ih]
        exact if_neg hType
    · rw [if_neg hOwn, if_neg fun h => hOwn h.1, ih]

/-- A key is in use from at most the user's last change on. -/
theorem keyValidFrom_le (entries : List ChangelogEntry) :
    (signerState uid entries).keyValidFromChangeId ≤ (signerState uid entries).myLastChangeId := by
  induction entries with
  | nil => exact Nat.le_refl 0
  | cons entry older ih =>
    have hLe := lastChangeOf_le uid older
    rw [← myLastChangeId_signerState] at hLe
    rw [signerState, SignerState.incorporate]
    split
    · dsimp only
      split <;> omega
    · exact ih

end State

/-! ## The end of the history -/

/-- Where the next range of a user has to start. -/
def nextStart (rotation : Option (Nat × Nat)) : Int :=
  match rotation with
  | none => 0
  | some (_, sigRef) => sigRef + 1

/-- The history of a user ends with the last rotation. -/
structure RotationInv (codec : RuleCodec) (start : Db) (uid : Nat) (entries : List ChangelogEntry)
    (db : Db) : Prop where
  history : HistoryInv codec start entries db
  readable : HistoryReadable db entries.length
  ends : ∃ rows, HistoryOf codec start entries db uid rows ∧
    tilesEnd 0 (rows.map HistoryRow.range) = nextStart (lastRotation uid entries.reverse)

section Inv

variable {codec : RuleCodec} {start db db' : Db} {entries : List ChangelogEntry} {uid : Nat}
  {entry : ChangelogEntry}

theorem RotationInv.snoc (h : RotationInv codec start uid entries db)
    (hRun : Run codec start entries db) (hRun' : Run codec start (entries ++ [entry]) db')
    (hStep : HistoryStep db db' (entries.length + 1) entry)
    (hSigRef : checkSigrefContinuity entry (expectedSigRef entries entry.uid) = .ok ())
    (hUid : entry.uid < 2 ^ 32) (hStays : ¬ RemovesUser uid entry) :
    RotationInv codec start uid (entries ++ [entry]) db' := by
  have hHistory := h.history.snoc hRun hRun' hStep hSigRef hUid
  obtain ⟨rows, hRows, hEnd⟩ := h.ends
  have hLast : lastRotation uid (entries ++ [entry]).reverse =
      if entry.uid = uid ∧ entry.message.opType = .refreshKeys then
        some (entries.length + 1, entry.sigRef)
      else lastRotation uid entries.reverse := by
    rw [List.reverse_append, List.reverse_singleton, List.singleton_append, lastRotation,
      List.length_reverse]
  have hLength : (entries ++ [entry]).length = entries.length + 1 := by simp
  cases hStep with
  | same hType hSame =>
    rw [if_neg fun h => hType h.2] at hLast
    refine ⟨hHistory, hLength ▸ h.readable.snoc_of_same hSame, rows, hRows.snoc_of_same hSame, ?_⟩
    rw [hLast, hEnd]
  | rotation hType first hAdded =>
    have hReadable := hLength ▸ h.readable.snoc_of_added hAdded (by omega)
    by_cases hOwn : entry.uid = uid
    · -- the new row ends at the `sig_ref` of the rotation
      have hLe : entry.sigRef ≤ entries.length := by
        rw [sigRef_eq_of_continuity hSigRef]
        exact expectedSigRef_le entries entry.uid
      rw [if_pos ⟨hOwn, hType⟩] at hLast
      rw [hOwn] at hAdded hUid
      refine ⟨hHistory, hReadable, _,
        hAdded.historyOf h.history (by omega) hRun hRun' (by omega) hRows, ?_⟩
      rw [hLast, List.map_append, List.map_singleton, tilesEnd_concat]
      rfl
    · rw [if_neg fun h => hOwn h.1] at hLast
      refine ⟨hHistory, hReadable, rows,
        hAdded.historyOf_of_ne h.history (Ne.symm hOwn) hRows, ?_⟩
      rw [hLast, hEnd]
  | removal hType rowId first hNonempty hRow hAdded =>
    have hOther : uid ≠ truncateU32 rowId := by
      rintro rfl
      obtain ⟨kv, hkv⟩ := List.exists_mem_of_ne_nil _ hNonempty
      obtain ⟨column, hKey⟩ := hRow kv hkv
      exact hStays ⟨hType, kv, hkv, by rw [hKey]; rfl⟩
    have hNot : ¬ (entry.uid = uid ∧ entry.message.opType = .refreshKeys) := by
      rintro ⟨_, hRefresh⟩
      rw [hType] at hRefresh
      cases hRefresh
    rw [if_neg hNot] at hLast
    refine ⟨hHistory, hLength ▸ h.readable.snoc_of_added hAdded (truncateU32_lt rowId), rows,
      hAdded.historyOf_of_ne h.history hOther hRows, ?_⟩
    rw [hLast, hEnd]

/-- A run in which the user stays a member, from a start without history. -/
structure MemberRun (codec : RuleCodec) (start : Db) (uid : Nat) (entries : List ChangelogEntry)
    (db : Db) : Prop where
  bootstrapped : Bootstrapped start
  empty : ∀ key value, start[key]? = some value → ¬ TableKey keyHistoryTable key
  cascade : NoCascadeInto codec start keyHistoryTable
  run : Run codec start entries db
  chained : SigRefsChained entries
  uids : ∀ entry ∈ entries, entry.uid < 2 ^ 32
  length : entries.length < 2 ^ 32
  clean : ∀ entry ∈ entries, RetiresCleanly entry
  stays : ∀ entry ∈ entries, ¬ RemovesUser uid entry

theorem MemberRun.rotationInv (h : MemberRun codec start uid entries db) :
    RotationInv codec start uid entries db := by
  have hNoKeys : ∀ p ∈ start.toList, isHistoryKey p.1 = false := by
    intro p hMem
    have hNone := h.empty p.1 p.2 (Std.ExtTreeMap.mem_toList_iff_getElem?_eq_some.mp hMem)
    unfold isHistoryKey
    split
    · rename_i table rowId column hParse
      refine decide_eq_false fun hTable => hNone (.inl ?_)
      rw [← hTable]
      exact hasFront_of_parseKey hParse
    · rename_i table column element rowId hParse
      refine decide_eq_false fun hTable => hNone (.inr (.inl ?_))
      rw [← hTable]
      exact hasFront_of_parseIndex hParse
    · rfl
  have hInit : RotationInv codec start uid [] start :=
    ⟨historyInv_of_no_keys hNoKeys, historyReadable_of_no_keys h.empty, [],
      historyOf_of_no_keys hNoKeys, rfl⟩
  refine h.run.invariant hInit fun before entry after db batch hSplit hRun hStep hInv => ?_
  have hMem : entry ∈ entries := by rw [hSplit]; simp
  have hShorter : before.length ≤ entries.length := by rw [hSplit, List.length_append]; omega
  have hLength := h.length
  have hHistory := historyStep_of_dispatch (hRun.reachable h.bootstrapped)
    (hRun.noCascadeInto h.cascade) hStep (h.uids entry hMem) (by omega) (h.clean entry hMem)
  exact hInv.snoc hRun (.snoc hRun hStep) hHistory (h.chained before entry after hSplit)
    (h.uids entry hMem) (h.stays entry hMem)

/-- The start that the verifier wants is the one after the last rotation. -/
theorem RotationInv.follows_iff (h : RotationInv codec start uid entries db) (hUid : uid < 2 ^ 63)
    (first : Int) :
    Follows (ListedEnd db uid) first ↔ first = nextStart (lastRotation uid entries.reverse) := by
  obtain ⟨rows, hRows, hEnd⟩ := h.ends
  have hFollows := (follows_tilesEnd hRows.tiles).congr fun e =>
    (h.history.listedEnd_iff hUid hRows e).symm
  rw [hEnd] at hFollows
  constructor
  · intro hFirst
    exact hFirst.unique hFollows
  · rintro rfl
    exact hFollows

/-- Listed rows have their ranges. -/
theorem RotationInv.ranges_isSome (h : RotationInv codec start uid entries db) (hUid : uid < 2 ^ 63)
    {rowId : Int} (hListed : Listed db uid rowId) :
    (db.historyInt rowId "valid_from_change_id").isSome ∧
      (db.historyInt rowId "valid_to_change_id").isSome := by
  obtain ⟨rows, hRows, _⟩ := h.ends
  have hIn : InI64 rowId := by
    obtain ⟨_, _, _, _, _, hParse⟩ := hListed
    exact inI64_of_parseIndex hParse
  have hOwn := ((h.history.indexesHistory hUid) rowId hIn).mp hListed
  obtain ⟨row, hMem, rfl⟩ := (hRows.complete rowId).mp (h.history.storedFor_iff.mpr ⟨hIn, hOwn⟩)
  have hStored := hRows.stored row hMem
  exact ⟨by rw [hStored.first]; rfl, by rw [hStored.last]; rfl⟩

/-- The client's start is the wanted one exactly if the last rotation followed the
signer's change before it directly. -/
theorem keyValidFrom_eq_nextStart_iff (entries : List ChangelogEntry) :
    ((signerState uid entries).keyValidFromChangeId : Int) = nextStart (lastRotation uid entries) ↔
      ∀ rotation ∈ lastRotation uid entries, rotation.1 = rotation.2 + 1 := by
  rw [keyValidFrom_signerState]
  cases lastRotation uid entries with
  | none => simp [nextStart]
  | some rotation =>
    simp only [nextStart, Option.map_some, Option.getD_some, Option.mem_some, forall_eq']
    omega

end Inv

section Acceptance

variable {codec : RuleCodec} {start db : Db} {entries : List ChangelogEntry} {uid : Nat}

theorem historyKvs_rotateUserKeys (hUid : uid < 2 ^ 63) (st : SignerState) (keys : RotatedKeys)
    (context : ChangelogEntry) :
    historyKvs (st.rotateUserKeys uid keys context) = (st.rotation uid keys).historyCells := by
  have hIn : InI64 ((st.rotation uid keys).uid : Int) := by
    show InI64 (uid : Int)
    unfold InI64
    omega
  have hParts := partitionFrom_append (st.rotation uid keys).isColumnOf_history
    ((st.rotation uid keys).isColumnOf_users hIn) "" 0
  exact (partitionFrom_eq_ok hParts).keyHistory.symm

/-- The next rotation of a member's client is accepted exactly if there was none
before, or the last one came directly after the member's change before it. -/
theorem rotateUserKeys_accepted_iff (h : MemberRun codec start uid entries db) (hUid : uid < 2 ^ 32)
    (keys : RotatedKeys) (context : ChangelogEntry)
    (hAuth : db[columnKey usersTable uid "auth_key"]? = some keys.oldAuthKey)
    (hStatus : (db[columnKey usersTable uid "status"]?).isSome) :
    (∃ batch, (dispatchExtractAndValidate (entries.length + 1)
        ((signerState uid entries.reverse).rotateUserKeys uid keys context)).eval
          (plain codec db.reader) = .ok batch) ↔
      ∀ rotation ∈ lastRotation uid entries.reverse, rotation.1 = rotation.2 + 1 := by
  have hInv := h.rotationInv
  have hDb := h.run.reachable h.bootstrapped
  have hLength := h.length
  set st := signerState uid entries.reverse with hSt
  have hLast : st.myLastChangeId ≤ entries.length := by
    rw [hSt, myLastChangeId_signerState]
    exact expectedSigRef_le entries uid
  have hFrom : st.keyValidFromChangeId ≤ st.myLastChangeId := keyValidFrom_le entries.reverse
  rw [← keyValidFrom_eq_nextStart_iff, ← hSt, ← hInv.follows_iff (by omega)]
  constructor
  · rintro ⟨batch, hStep⟩
    have hOwn : (st.rotateUserKeys uid keys context).uid < 2 ^ 63 := by
      show uid < 2 ^ 63
      omega
    obtain ⟨first, hAccepted⟩ := refreshAccepted_of_dispatch hDb hOwn rfl hStep
    have hStarts := hAccepted.checked.starts
    have hIn : InI64 (st.keyValidFromChangeId : Int) := by unfold InI64; omega
    rw [historyKvs_rotateUserKeys (by omega), (st.rotation uid keys).firstValue_history.2.1,
      Option.bind_some] at hStarts
    have hFirst : first = st.keyValidFromChangeId :=
      Option.some.inj (hStarts.symm.trans (parseI64ColumnValue_i64ToValueBytes hIn))
    rw [← hFirst]
    exact hAccepted.checked.follows
  · intro hFollows
    have hSucceeds : (refreshKeysOp (st.rotateUserKeys uid keys context)).Succeeds
        (plain codec db.reader) :=
      refreshKeysOp_succeeds (r := st.rotation uid keys) hDb hInv.readable (by omega) hUid
        (by show st.myLastChangeId < 2 ^ 63; omega) rfl rfl rfl hFrom hAuth hStatus
        (fun rowId hListed => hInv.ranges_isSome (by omega) hListed) hFollows
    exact Prog.succeeds_bind_of_eq (a := ()) rfl hSucceeds

end Acceptance

/-! ## Runs on a new space -/

/-- The first two elements of a key. -/
def keyFront (key : Bytes) : Option (Bytes × Bytes) :=
  match decodeElement key with
  | .ok (.bytes tag, rest) =>
    match decodeElement rest with
    | .ok (.bytes table, _) => some (tag, table)
    | _ => none
  | _ => none

theorem keyFront_of_hasFront {key : Bytes} {tag table : String} (h : HasFront key tag table) :
    keyFront key = some (utf8 tag, utf8 table) := by
  obtain ⟨rest, rest', hTag, hTable⟩ := h
  simp only [keyFront, hTag, hTable]

theorem internalDb_no_history : ∀ key value, internalDb[key]? = some value →
    ¬ TableKey keyHistoryTable key := by
  have hKeys : ∀ p ∈ internalDb.toList, keyFront p.1 ≠ some (utf8 tagRow, utf8 keyHistoryTable) ∧
      keyFront p.1 ≠ some (utf8 tagIndex, utf8 keyHistoryTable) ∧
      p.1 ≠ schemaNextIdKey keyHistoryTable := by decide +kernel
  intro key value hGet hKey
  obtain ⟨hRow, hIndex, hNext⟩ := hKeys _ (Std.ExtTreeMap.mem_toList_iff_getElem?_eq_some.mpr hGet)
  rcases hKey with hFront | hFront | hKey
  · exact hRow (keyFront_of_hasFront hFront)
  · exact hIndex (keyFront_of_hasFront hFront)
  · exact hNext hKey

/-- A rotation from the keys of one byte to those of another. -/
def sampleKeys (old new : UInt8) : RotatedKeys where
  oldAuthKey := hashCell old
  authKey := hashCell new
  updateKey := hashCell new

/-- The rotation that a user's client builds after some entries. -/
def sampleRotation (uid : Nat) (entries : List ChangelogEntry) (old new : UInt8) : ChangelogEntry :=
  (signerState uid entries.reverse).rotateUserKeys uid (sampleKeys old new)
    (sampleEntry .refreshKeys uid entries.length 0 [])

/-- User 1 creates the space and rotates. -/
def founderRun : List ChangelogEntry := [sampleCreate, sampleRotation 1 [sampleCreate] 1 3]

/-- User 2 is invited and rotates. -/
def inviteeRun : List ChangelogEntry :=
  [sampleCreate, sampleInvite, sampleRotation 2 [sampleCreate, sampleInvite] 2 3]

theorem memberRun_of_runEntries {entries : List ChangelogEntry} {db : Db} {n : Nat}
    (hRun : runEntries noRules 0 entries internalDb = .ok db)
    (h : (∀ i (_ : i < entries.length), checkSigrefContinuity entries[i]
        (expectedSigRef (entries.take i) entries[i].uid) = .ok ()) ∧
      (∀ entry ∈ entries, entry.uid < 2 ^ 32) ∧ entries.length < 2 ^ 32 ∧
      (∀ entry ∈ entries, RetiresCleanly entry) ∧ ∀ entry ∈ entries, ¬ RemovesUser n entry) :
    MemberRun noRules internalDb n entries db :=
  ⟨.internal, internalDb_no_history, noCascadeInto_noRules _ _, run_of_runEntries hRun,
    sigRefsChained_of_forall h.1, h.2.1, h.2.2.1, h.2.2.2.1, h.2.2.2.2⟩

/-- A founder who rotates twice in a row is not stuck. -/
theorem founder_rotates_again : ∃ db, MemberRun noRules internalDb 1 founderRun db ∧
    lastRotation 1 founderRun.reverse = some (2, 1) ∧
    ∃ batch, (dispatchExtractAndValidate 3 (sampleRotation 1 founderRun 3 4)).eval
      (plain noRules db.reader) = .ok batch := by
  obtain ⟨db, hRun, hAuth, hStatus⟩ : ∃ db, runEntries noRules 0 founderRun internalDb = .ok db ∧
      db[columnKey usersTable (1 : Nat) "auth_key"]? = some (hashCell 3) ∧
      (db[columnKey usersTable (1 : Nat) "status"]?).isSome := by
    decide +kernel
  have hMember := memberRun_of_runEntries (n := 1) hRun (by decide +kernel)
  have hLast : lastRotation 1 founderRun.reverse = some (2, 1) := by decide +kernel
  have hAccepted := (rotateUserKeys_accepted_iff hMember (by decide) (sampleKeys 3 4)
    (sampleEntry .refreshKeys 1 2 0 []) hAuth hStatus).mpr (by rw [hLast]; decide)
  exact ⟨db, hMember, hLast, hAccepted⟩

/-- An invited user can rotate once: the founder's invitation is between the start of
the chain and the rotation, and the next range does not follow. -/
theorem invitee_rotation_stuck : ∃ db, MemberRun noRules internalDb 2 inviteeRun db ∧
    db[columnKey usersTable (2 : Nat) "auth_key"]? = some (hashCell 3) ∧
    (db[columnKey usersTable (2 : Nat) "status"]?).isSome ∧
    ∀ batch, (dispatchExtractAndValidate 4 (sampleRotation 2 inviteeRun 3 4)).eval
      (plain noRules db.reader) ≠ .ok batch := by
  obtain ⟨db, hRun, hAuth, hStatus, hRejected⟩ :
      ∃ db, runEntries noRules 0 inviteeRun internalDb = .ok db ∧
        db[columnKey usersTable (2 : Nat) "auth_key"]? = some (hashCell 3) ∧
        (db[columnKey usersTable (2 : Nat) "status"]?).isSome ∧
        ¬ ∃ batch, Accepts noRules 4 db (sampleRotation 2 inviteeRun 3 4) batch := by
    decide +kernel
  exact ⟨db, memberRun_of_runEntries (n := 2) hRun (by decide +kernel), hAuth, hStatus,
    not_exists.mp hRejected⟩

end EncryptedSpaces.Client
