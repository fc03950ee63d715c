import EncryptedSpaces.Ops.BatchEffect
import EncryptedSpaces.Ops.RefreshKeys

/-!
# Who may sign an accepted entry

Every verifier reads the signer's `_users.status` cell for itself; the dispatcher
does not.  All operation types reach that read on every accepting path except
CreateSpace, which starts the space, and Noop, which exists for benchmarks and
reads nothing.  An action reaches it through its first leg: a cascade cannot come
first, because it takes its key from the row that the first leg carries.
-/

namespace EncryptedSpaces.Ops

open Encoding Changelog Acl Lib Prog Lib.Except

/-- `uid` has a `_users` row, and may perform `opType`: a provisional user may
only refresh keys. -/
def Admitted (db : Db) (uid : Nat) (opType : OpType) : Prop :=
  ∃ status, db[columnKey usersTable uid "status"]? = some status ∧
    (opType ≠ .refreshKeys → parseI64ColumnValue status ≠ some 0)

/-- All types but RefreshKeys ask for the same. -/
theorem Admitted.of_ne {db : Db} {uid : Nat} {opType opType' : OpType}
    (h : Admitted db uid opType) (hType : opType ≠ .refreshKeys) : Admitted db uid opType' := by
  obtain ⟨status, hStatus, hFull⟩ := h
  exact ⟨status, hStatus, fun _ => hFull hType⟩

section Steps

variable {codec : RuleCodec} {db : Db} {entry : ChangelogEntry}

theorem validateUserAccess_admits {opType : OpType} {opName : String} :
    (validateUserAccess entry opType opName).Returns (FromDb codec db) fun _ =>
      Admitted db entry.uid opType := by
  have hRead : (readUserStatus entry.uid opName).Returns (FromDb codec db) fun status =>
      ∃ bytes, db[columnKey usersTable entry.uid "status"]? = some bytes ∧
        status = parseI64ColumnValue bytes := by
    refine readKey_fromDb.bind fun cell hCell => ?_
    refine returns_orFail.bind fun bytes hBytes => returns_ret ⟨bytes, ?_, rfl⟩
    rw [← hCell, hBytes]
  refine hRead.bind fun status hStatus => ?_
  obtain ⟨bytes, hBytes, rfl⟩ := hStatus
  refine returns_ensure.mono fun _ hAllowed => ⟨bytes, hBytes, fun hType hZero => ?_⟩
  exact hAllowed ⟨by rw [hZero]; rfl, hType⟩

/-! ## The operations -/

theorem insertOp_admits :
    (insertOp entry).Returns (FromDb codec db) fun _ => Admitted db entry.uid .insert := by
  iterate 2 refine returns_skip fun _ => ?_
  refine returns_skip fun ⟨table, entryRowId⟩ => ?_
  iterate 4 refine returns_skip fun _ => ?_
  exact validateUserAccess_admits.keep

theorem updateOp_admits :
    (updateOp entry).Returns (FromDb codec db) fun _ => Admitted db entry.uid .update := by
  iterate 2 refine returns_skip fun _ => ?_
  exact validateUserAccess_admits.keep

theorem deleteOp_admits :
    (deleteOp entry).Returns (FromDb codec db) fun _ => Admitted db entry.uid .delete := by
  iterate 2 refine returns_skip fun _ => ?_
  exact validateUserAccess_admits.keep

theorem retentionChainOp_admits {opType : OpType} {opName missing : String} :
    (retentionChainOp opType opName missing entry).Returns (FromDb codec db) fun _ =>
      Admitted db entry.uid opType := by
  iterate 3 refine returns_skip fun _ => ?_
  exact validateUserAccess_admits.keep

theorem inviteUserOp_admits :
    (inviteUserOp entry).Returns (FromDb codec db) fun _ => Admitted db entry.uid .inviteUser := by
  iterate 3 refine returns_skip fun _ => ?_
  exact validateUserAccess_admits.keep

theorem refreshKeysOp_admits :
    (refreshKeysOp entry).Returns (FromDb codec db) fun _ =>
      Admitted db entry.uid .refreshKeys := by
  iterate 5 refine returns_skip fun _ => ?_
  exact validateUserAccess_admits.keep

theorem removeUserOp_admits {currentChangeId : Nat} :
    (removeUserOp currentChangeId entry).Returns (FromDb codec db) fun _ =>
      Admitted db entry.uid .removeUser := by
  iterate 4 refine returns_skip fun _ => ?_
  refine returns_skip fun ⟨userTable, deletedRowId⟩ => ?_
  refine returns_skip fun _ => ?_
  exact validateUserAccess_admits.keep

/-! ## Actions -/

/-- A cascade carries no kvs, so as the first leg it finds no key to follow. -/
theorem dispatchLeg_admits {actionName : String} {leg : ActionLeg} {kvs : List KvData} :
    (dispatchLeg entry actionName (selfRowFromLegKvs kvs) leg kvs).Returns (FromDb codec db)
      fun _ => Admitted db entry.uid .action := by
  cases leg with
  | insert table =>
    refine returns_skip fun _ => ?_
    exact insertOp_admits.mono fun _ h => Admitted.of_ne h nofun
  | update table cols =>
    iterate 2 refine returns_skip fun _ => ?_
    exact updateOp_admits.mono fun _ h => Admitted.of_ne h nofun
  | delete table =>
    refine returns_skip fun _ => ?_
    exact deleteOp_admits.mono fun _ h => Admitted.of_ne h nofun
  | cascadeDelete table whereColumn whereSelfColumn =>
    refine returns_ensure.bind fun _ hEmpty => ?_
    subst hEmpty
    exact returns_fail

theorem actionOp_admits :
    (actionOp entry).Returns (FromDb codec db) fun _ => Admitted db entry.uid .action := by
  refine returns_skip fun ⟨primaryTable, actionName, kvs⟩ => ?_
  iterate 3 refine returns_skip fun _ => ?_
  refine returns_ensure.bind fun _ hLegs => ?_
  iterate 4 refine returns_skip fun _ => ?_
  obtain ⟨first, rest, hCons⟩ := List.exists_cons_of_ne_nil hLegs
  rw [hCons]
  exact (dispatchLeg_admits.keep).keep

/-- Every accepted entry is signed by an admitted user, unless its type is
CreateSpace or Noop. -/
theorem dispatch_admits {currentChangeId : Nat} (hCreate : entry.message.opType ≠ .createSpace)
    (hNoop : entry.message.opType ≠ .noop) :
    (dispatchExtractAndValidate currentChangeId entry).Returns (FromDb codec db) fun _ =>
      Admitted db entry.uid entry.message.opType := by
  refine returns_skip fun _ => ?_
  cases hType : entry.message.opType with
  | insert => exact insertOp_admits
  | update => exact updateOp_admits
  | delete => exact deleteOp_admits
  | listInsert | listUpdate | listDelete | listAppend => exact validateUserAccess_admits.keep
  | createSpace => exact absurd hType hCreate
  | refreshKeys => exact refreshKeysOp_admits
  | inviteUser => exact inviteUserOp_admits
  | removeUser => exact removeUserOp_admits
  | extend | reduce | rekey => exact retentionChainOp_admits
  | action => exact actionOp_admits
  | noop => exact absurd hType hNoop

end Steps

/-- An entry of a type other than CreateSpace and Noop, accepted on any state, is
signed by a user with a row there, who is not provisional unless the entry
refreshes keys. -/
theorem signer_admitted_of_dispatch {codec : RuleCodec} {db : Db} {n : Nat}
    {entry : ChangelogEntry} {batch : Batch}
    (hStep : (dispatchExtractAndValidate n entry).eval (plain codec db.reader) = .ok batch)
    (hCreate : entry.message.opType ≠ .createSpace) (hNoop : entry.message.opType ≠ .noop) :
    Admitted db entry.uid entry.message.opType := by
  have hReturns : (dispatchExtractAndValidate n entry).Returns (FromDb codec db) fun _ =>
      Admitted db entry.uid entry.message.opType := dispatch_admits hCreate hNoop
  exact hReturns.of_ok hStep

/-- User 1, who created the space, may invite. -/
theorem sampleInvite_signer_admitted : ∃ db batch, Reachable noRules 1 db ∧
    (dispatchExtractAndValidate 2 sampleInvite).eval (plain noRules db.reader) = .ok batch ∧
    Admitted db 1 .inviteUser := by
  obtain ⟨db, hDb, batch, hBatch⟩ : ∃ db, runEntry noRules 1 sampleCreate internalDb = .ok db ∧
      ∃ batch, Accepts noRules 2 db sampleInvite batch := by
    decide +kernel
  exact ⟨db, batch, (Reachable.init .internal).runEntry hDb, hBatch,
    signer_admitted_of_dispatch hBatch nofun nofun⟩

/-- A Noop of a user without a row is accepted in the empty space. -/
theorem noop_accepted_from_stranger : ∃ db, Reachable noRules 0 db ∧
    (dispatchExtractAndValidate 1 (sampleEntry .noop 7 0 0 [])).eval (plain noRules db.reader) =
      .ok [] ∧ ¬ Admitted db 7 .noop := by
  refine ⟨internalDb, .init .internal, rfl, fun ⟨status, hStatus, _⟩ => ?_⟩
  have hNone : internalDb[columnKey usersTable 7 "status"]? = none := by decide +kernel
  exact absurd (hNone.symm.trans hStatus) nofun

end EncryptedSpaces.Ops
