import EncryptedSpaces.Ops.Membership
import EncryptedSpaces.Ops.SignerKeys

/-!
# What no run can do

Whatever entries are accepted, the rules stay those of the start, a table is changed
only by the operations that own it, and a removed user never signs again.
-/

namespace EncryptedSpaces.Ops

open Encoding Changelog Lib List Option

variable {codec : RuleCodec} {start db : Db} {entries : List ChangelogEntry}
  {entry : ChangelogEntry} {n uid : Nat} {batch : Batch}

/-- The entry rotates keys in its signer's row only. -/
def OwnRow (entry : ChangelogEntry) : Prop :=
  entry.message.opType = .refreshKeys → ∀ kv ∈ userKvs entry, ∃ column,
    kv.key = columnKey usersTable entry.uid column

/-- The user id was given out, and its row is gone. -/
abbrev Departed (db : Db) (uid : Nat) : Prop :=
  db[columnKey usersTable uid "status"]? = none ∧ (uid : Int) < db.nextId usersTable

/-- User 1 removes user 2. -/
abbrev departingRun : List ChangelogEntry := removalRun (sampleRemove (columnKey usersTable 2))

theorem departingRun_accepted : ∃ db, Run noRules internalDb departingRun db ∧ Departed db 2 :=
  exists_run (by decide +kernel)

/-- A row that is gone does not come back: new users get new ids. -/
theorem departed_of_keyStep (h : KeyStep db n entry batch) (hOwn : OwnRow entry)
    (hSigner : entry.message.opType = .refreshKeys → entry.uid ≠ uid) (hEntry : entry.uid < 2 ^ 32)
    (hUid : uid < 2 ^ 32) (hGone : Departed db uid) : Departed (db.applyBatch batch) uid := by
  have hIn : InI64 (uid : Int) := inI64_uid hUid
  have hKey := parsedColumn?_columnKey usersTable "status" hIn
  have hTable : TableKey usersTable (columnKey usersTable uid "status") := tableKey_columnKey _ _ _
  obtain ⟨hNone, hLt⟩ := hGone
  cases h with
  | rotation hType first hAccepted =>
    have hRaw : rawValue (userKvs entry) (columnKey usersTable uid "status") = none := by
      refine rawValue_eq_none fun kv hkv hEq => ?_
      obtain ⟨column, hColumn⟩ := hOwn hType kv hkv
      have hSame := (columnKey_inj (inI64_uid hEntry) hIn (hColumn.symm.trans hEq)).2.1
      exact hSigner hType (Int.ofNat.inj hSame)
    refine ⟨?_, by rwa [hAccepted.nextId_users]⟩
    rw [Db.getElem?_applyBatch, hAccepted.users _ hTable, hRaw]
    exact hNone
  | removal _ rowId first hAccepted =>
    refine ⟨?_, by rwa [hAccepted.nextId_users]⟩
    rw [hAccepted.getElem?_users hKey, hNone, ite_self]
  | newUser _ hWrites hCounts _ =>
    refine ⟨?_, by rw [hCounts.nextId]; omega⟩
    obtain ⟨_, _, hNext, _⟩ := id hWrites
    rw [Db.getElem?_applyBatch, hWrites.written_eq hKey, if_neg]
    · exact hNone
    · intro hEq
      have hSame := (columnKey_inj hIn hNext hEq).2.1
      omega
  | other _ hUsers _ =>
    exact ⟨by rwa [hUsers.getElem?_applyBatch hTable], by rwa [nextId_of_spares hUsers]⟩

/-- Once the row of a user is gone, no later entry of the user is accepted, as long as
rotations stay in the signer's row. -/
theorem departed_never_signs {db' : Db} {before after : List ChangelogEntry}
    (hStart : Bootstrapped start) (hUsers : NoCascadeInto codec start usersTable)
    (hHistory : NoCascadeInto codec start keyHistoryTable) (hBefore : Run codec start before db)
    (hGone : Departed db uid) (hUid : uid < 2 ^ 32) (hRun : Run codec start entries db')
    (hEntries : entries = before ++ after)
    (hAfter : ∀ entry ∈ after, OwnRow entry ∧ entry.uid < 2 ^ 32) :
    Departed db' uid ∧ ∀ entry ∈ after, entry.message.opType ∉ [OpType.createSpace, .noop] →
      entry.uid ≠ uid := by
  induction hRun generalizing after with
  | nil =>
    obtain ⟨rfl, rfl⟩ := append_eq_nil_iff.mp hEntries.symm
    exact ⟨Run.nil.unique hBefore ▸ hGone, by simp⟩
  | @snoc done db₁ entry batch hRun hStep ih =>
    rcases eq_nil_or_concat' after with rfl | ⟨after, last, rfl⟩
    · rw [append_nil] at hEntries
      subst hEntries
      exact ⟨(hRun.snoc hStep).unique hBefore ▸ hGone, by simp⟩
    rw [← append_assoc] at hEntries
    obtain ⟨hDone, hLast⟩ := append_inj' hEntries rfl
    cases hLast
    obtain ⟨hGone₁, hNot⟩ := ih hDone fun e he => hAfter e (mem_append_left _ he)
    obtain ⟨hOwn, hEntry⟩ := hAfter entry (by simp)
    have hSigner : entry.message.opType ∉ [OpType.createSpace, .noop] → entry.uid ≠ uid := by
      rintro hType rfl
      rw [mem_cons, mem_singleton, not_or] at hType
      obtain ⟨status, hStatus, _⟩ :=
        Prog.Returns.of_eval (dispatch_admits hType.1 hType.2) (fun _ _ h => h) hStep
      rw [hGone₁.1] at hStatus
      cases hStatus
    have hKeyStep := keyStep_of_dispatch (hRun.reachable hStart) (by omega)
      (hRun.noCascadeInto hUsers) (hRun.noCascadeInto hHistory) hStep
    refine ⟨departed_of_keyStep hKeyStep hOwn (fun hType => hSigner (by simp [hType])) hEntry hUid
      hGone₁, fun e he => ?_⟩
    rcases mem_append.mp he with he | he
    · exact hNot e he
    · rw [mem_singleton.mp he]
      exact hSigner

/-- User 2 is removed and stays out while user 3 joins. -/
theorem removed_user_never_signs : ∃ db db', Run noRules internalDb departingRun db ∧
    Departed db 2 ∧ Run noRules internalDb (departingRun ++ [sampleInvite]) db' ∧
      Departed db' 2 := by
  obtain ⟨db, hRun, hGone⟩ := departingRun_accepted
  obtain ⟨db', hRun', -⟩ : ∃ db',
      Run noRules internalDb (departingRun ++ [sampleInvite]) db' ∧ True :=
    exists_run (by decide +kernel)
  have hAfter : ∀ entry ∈ [sampleInvite], OwnRow entry ∧ entry.uid < 2 ^ 32 :=
    forall_mem_singleton.mpr ⟨nofun, by decide⟩
  exact ⟨db, db', hRun, hGone, hRun', (departed_never_signs .internal (noCascadeInto_noRules _ _)
    (noCascadeInto_noRules _ _) hRun hGone (by decide) hRun' rfl hAfter).1⟩

/-- The schemas, id modes, access rules, gates and actions are those of the start. -/
theorem policy_fixed (h : Run codec start entries db) (opName : String) (key : StaticKey) :
    loadStatic codec db.reader opName key = loadStatic codec start.reader opName key := by
  induction h with
  | nil => rfl
  | snoc _ hStep ih =>
    rw [← ih, loadStatic_reader, loadStatic_reader, getElem?_treeKey_of_dispatch hStep]

theorem policy_fixed_departing : ∃ db, Run noRules internalDb departingRun db ∧ ∀ opName key,
    loadStatic noRules db.reader opName key = loadStatic noRules internalDb.reader opName key := by
  obtain ⟨db, hRun, -⟩ := departingRun_accepted
  exact ⟨db, hRun, policy_fixed hRun⟩

/-- Entries of other operations leave the cells, index entries and counter of a table. -/
theorem table_fixed {table : String} {key : Bytes} (h : Run codec start entries db)
    (hCascade : NoCascadeInto codec start table) (hLists : table ≠ listsTable)
    (hNone : ∀ entry ∈ entries, ¬ tablesOf (· ≠ table) entry table) (hKey : TableKey table key) :
    db[key]? = start[key]? := by
  induction h with
  | nil => rfl
  | @snoc entries db entry batch hRun hStep ih =>
    have hTouches := (hRun.noCascadeInto hCascade).touches hStep
    have hSpares := hTouches.spares (hNone entry (by simp)) hLists
    rw [hSpares.getElem?_applyBatch hKey]
    exact ih fun e he => hNone e (mem_append_left _ he)

/-- A new space with a post. -/
def postDb : Db := internalDb.insert (columnKey "posts" 1 "body") [7]

theorem table_fixed_departing : ∃ db, Run noRules postDb departingRun db ∧
    db[columnKey "posts" 1 "body"]? = some [7] ∧
    ∀ key, TableKey "posts" key → db[key]? = postDb[key]? := by
  obtain ⟨db, hRun, -⟩ : ∃ db, Run noRules postDb departingRun db ∧ True :=
    exists_run (by decide +kernel)
  have hNone : ∀ entry ∈ departingRun, ¬ tablesOf (· ≠ "posts") entry "posts" := by
    simp [removalRun, tablesOf, sampleCreate, sampleInvite, sampleRemove, sampleRemoval,
      sampleEntry, usersTable, retentionTable, keyHistoryTable]
  have hFixed : ∀ key, TableKey "posts" key → db[key]? = postDb[key]? := fun _ =>
    table_fixed hRun (noCascadeInto_noRules _ _) (by decide) hNone
  refine ⟨db, hRun, ?_, hFixed⟩
  rw [hFixed _ (tableKey_columnKey _ _ _)]
  decide +kernel

end EncryptedSpaces.Ops
