import EncryptedSpaces.Ops.Database
import EncryptedSpaces.Ops.Footprint

/-!
# Whose row RefreshKeys writes

RefreshKeys is documented as limited to the signer's own `_users` row.  The
verifier checks the `_key_history` part of the entry against the signer, but the
`_users` cells keep the keys of the entry, and no check compares their row with
the signer.  So the batch stays on the signer's row exactly when the entry does
(`refreshKeysOp_signerRow_iff`), and `refreshKeys_overwrites_other_user` is a run
in which a provisional user takes over the administrator's row.
-/

namespace EncryptedSpaces.Ops

open Encoding Changelog Lib Lib.Except

/-- Every key that is a `_users` column names the row of `uid`. -/
def SignerRowOnly (uid : Nat) (keys : List Bytes) : Prop :=
  ∀ key ∈ keys, ∀ rowId column, parseKey key = .ok (.column usersTable rowId column) → rowId = uid

instance (uid : Nat) (keys : List Bytes) : Decidable (SignerRowOnly uid keys) :=
  decidable_of_iff
    (∀ key ∈ keys, ∀ cell ∈ parsedColumn? key, cell.1 = usersTable → cell.2.1 = uid) <| by
      refine forall₂_congr fun key _ =>
        ⟨fun h rowId column hParse => ?_, fun h cell hCell hTable => ?_⟩
      · exact h _ (parsedColumn?_eq_some_iff.mpr hParse) rfl
      · obtain ⟨table, rowId, column⟩ := cell
        cases hTable
        exact h rowId column (parsedColumn?_eq_some_iff.mp hCell)

/-- No key of another table reads as a `_users` column. -/
theorem not_users_of_touches {batch : Batch} (h : Touches (· = keyHistoryTable) batch)
    {op : BatchOp} (hOp : op ∈ batch) {rowId : Int} {column : String} :
    parseKey op.key ≠ .ok (.column usersTable rowId column) := by
  intro hParse
  exact absurd (h.owner hOp (hasFront_of_parseKey hParse) (by decide)) (by decide)

section Accepted

variable {codec : RuleCodec} {reader : Reader} {entry : ChangelogEntry} {batch : Batch}

theorem exists_kv_of_users_op
    (hAccept : (refreshKeysOp entry).eval (plain codec reader) = .ok batch) {op : BatchOp}
    (hOp : op ∈ batch) {rowId : Int} {column : String}
    (hParse : parseKey op.key = .ok (.column usersTable rowId column)) :
    ∃ kv ∈ entry.message.entries, kv.key = op.key := by
  obtain ⟨history, hHistory, hBatch⟩ := Prog.Returns.of_eval (R := fun _ _ => True)
    (refreshKeysOp_writes (L := ListKey)) (fun _ _ _ => trivial) hAccept
  rcases (hBatch op).mp hOp with hOp | ⟨kv, hkv, rfl⟩
  · exact absurd hParse (not_users_of_touches hHistory hOp)
  · exact ⟨kv, (mem_tableKvs.mp hkv).1, rfl⟩

theorem exists_op_of_users_kv
    (hAccept : (refreshKeysOp entry).eval (plain codec reader) = .ok batch) {kv : KvData}
    (hkv : kv ∈ entry.message.entries) {rowId : Int} {column : String}
    (hParse : parseKey kv.key = .ok (.column usersTable rowId column)) :
    ∃ op ∈ batch, op.key = kv.key := by
  obtain ⟨history, _, hBatch⟩ := Prog.Returns.of_eval (R := fun _ _ => True)
    (refreshKeysOp_writes (L := ListKey)) (fun _ _ _ => trivial) hAccept
  have hUsers : kv ∈ tableKvs entry.message.entries usersTable :=
    mem_tableKvs.mpr ⟨hkv, rowId, column, parsedColumn?_eq_some_iff.mpr hParse⟩
  exact ⟨kv.toBatchOp kv.key, (hBatch _).mpr (.inr ⟨kv, hUsers, rfl⟩), rfl⟩

/-- An accepted RefreshKeys writes the signer's row only, if and only if the
`_users` keys of its entry do. -/
theorem refreshKeysOp_signerRow_iff
    (hAccept : (refreshKeysOp entry).eval (plain codec reader) = .ok batch) :
    SignerRowOnly entry.uid (batch.map BatchOp.key) ↔
      SignerRowOnly entry.uid (entry.message.entries.map KvData.key) := by
  unfold SignerRowOnly
  rw [List.forall_mem_map, List.forall_mem_map]
  constructor
  · intro h kv hkv rowId column hParse
    obtain ⟨op, hOp, hKey⟩ := exists_op_of_users_kv hAccept hkv hParse
    exact h op hOp rowId column (hKey ▸ hParse)
  · intro h op hOp rowId column hParse
    obtain ⟨kv, hkv, hKey⟩ := exists_kv_of_users_op hAccept hOp hParse
    exact h kv hkv rowId column (hKey ▸ hParse)

end Accepted

/-! ## A run that takes over another user's row -/

/-- A codec for spaces without rules and actions. -/
def noRules : RuleCodec where
  decodeRule _ := .error "no rules"
  decodeActionNames _ := .error "no actions"
  decodeActionBody _ := .error "no actions"

/-- The cell of a hash-backed column: 32 bytes, here all the same. -/
def hashCell (byte : UInt8) : Bytes := List.replicate 32 byte

def sampleEntry (opType : OpType) (uid parentChange sigRef : Nat) (entries : List KvData) :
    ChangelogEntry where
  timestamp := 0
  uid := uid
  parentChange := parentChange
  message := { opType := opType, treePath := utf8 "/", entries := entries }
  sigRef := sigRef
  parentClc := []
  signature := []

def sampleUser (authKey : UInt8) (status : Int) : List KvData :=
  [ { key := columnKeyPlaceholder usersTable "auth_key", value := hashCell authKey },
    { key := columnKeyPlaceholder usersTable "status", value := i64ToValueBytes status },
    { key := columnKeyPlaceholder usersTable "update_key", value := hashCell authKey } ]

/-- User 1 creates the space. -/
def sampleCreate : ChangelogEntry := sampleEntry .createSpace 1 0 0 (sampleUser 1 1)

/-- User 1 invites user 2, who is provisional. -/
def sampleInvite : ChangelogEntry := sampleEntry .inviteUser 1 1 1 (sampleUser 2 0)

/-- User 2 retires the own key and writes the `auth_key` of `target`. -/
def sampleRefresh (target : Int) : ChangelogEntry :=
  sampleEntry .refreshKeys 2 2 0
    [ { key := columnKeyPlaceholder keyHistoryTable "old_auth_key", value := hashCell 2 },
      { key := columnKeyPlaceholder keyHistoryTable "uid", value := i64ToValueBytes 2 },
      { key := columnKeyPlaceholder keyHistoryTable "valid_from_change_id",
        value := i64ToValueBytes 0 },
      { key := columnKeyPlaceholder keyHistoryTable "valid_to_change_id",
        value := i64ToValueBytes 0 },
      { key := columnKey usersTable target "auth_key", value := hashCell 3 } ]

/-- One accepted entry, as a function on databases. -/
def runEntry (codec : RuleCodec) (n : Nat) (entry : ChangelogEntry) (db : Db) :
    Except ChangelogError Db :=
  ((dispatchExtractAndValidate n entry).eval (plain codec db.reader)).map db.applyBatch

theorem Reachable.runEntry {codec : RuleCodec} {n : Nat} {db db' : Db} {entry : ChangelogEntry}
    (hDb : Reachable codec n db) (hRun : runEntry codec (n + 1) entry db = .ok db') :
    Reachable codec (n + 1) db' := by
  obtain ⟨batch, hBatch, rfl⟩ := map_eq_ok.mp hRun
  exact .step hDb hBatch

/-- The space after both entries. -/
def sampleRun : Except ChangelogError Db := do
  let db ← runEntry noRules 1 sampleCreate internalDb
  runEntry noRules 2 sampleInvite db

theorem sampleRun_reachable {db : Db} (h : sampleRun = .ok db) : Reachable noRules 2 db := by
  obtain ⟨db₁, hCreate, hInvite⟩ := bind_eq_ok.mp h
  exact ((Reachable.init .internal).runEntry hCreate).runEntry hInvite

/-- On the own row the entry is accepted and stays there. -/
theorem sampleRefresh_own_row : ∃ db batch, Reachable noRules 2 db ∧
    (refreshKeysOp (sampleRefresh 2)).eval (plain noRules db.reader) = .ok batch ∧
    SignerRowOnly 2 (batch.map BatchOp.key) := by
  obtain ⟨db, hRun, batch, hAccept⟩ : ∃ db, sampleRun = .ok db ∧ ∃ batch,
      (refreshKeysOp (sampleRefresh 2)).eval (plain noRules db.reader) = .ok batch := by
    decide +kernel
  exact ⟨db, batch, sampleRun_reachable hRun, hAccept,
    (refreshKeysOp_signerRow_iff hAccept).mpr (by decide +kernel)⟩

/-- On the row of user 1 it is accepted as well, and user 1's key is replaced. -/
theorem refreshKeys_overwrites_other_user : ∃ db batch, Reachable noRules 2 db ∧
    (refreshKeysOp (sampleRefresh 1)).eval (plain noRules db.reader) = .ok batch ∧
    ¬ SignerRowOnly (sampleRefresh 1).uid (batch.map BatchOp.key) ∧
    db[columnKey usersTable 1 "auth_key"]? = some (hashCell 1) ∧
    (db.applyBatch batch)[columnKey usersTable 1 "auth_key"]? = some (hashCell 3) := by
  obtain ⟨db, hRun, batch, hAccept, hEffect⟩ : ∃ db, sampleRun = .ok db ∧ ∃ batch,
      (refreshKeysOp (sampleRefresh 1)).eval (plain noRules db.reader) = .ok batch ∧
      ¬ SignerRowOnly 2 (batch.map BatchOp.key) ∧
      db[columnKey usersTable 1 "auth_key"]? = some (hashCell 1) ∧
      (db.applyBatch batch)[columnKey usersTable 1 "auth_key"]? = some (hashCell 3) := by
    decide +kernel
  exact ⟨db, batch, sampleRun_reachable hRun, hAccept, hEffect⟩

end EncryptedSpaces.Ops
