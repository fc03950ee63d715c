import EncryptedSpaces.Ops.RetiredKeys
import EncryptedSpaces.Ops.Runs

/-!
# Entries and the keys of users

How an accepted entry can change `_users` and `_key_history`: a new user, a
rotation, a removal, or not at all.
-/

namespace EncryptedSpaces.Ops

open Encoding Changelog Lib

/-- The batch has no key of the table. -/
def Spares (table : String) (batch : Batch) : Prop :=
  ∀ key, TableKey table key → written batch key = none

theorem Spares.getElem?_applyBatch {table : String} {batch : Batch} (h : Spares table batch)
    {db : Db} {key : Bytes} (hKey : TableKey table key) :
    (db.applyBatch batch)[key]? = db[key]? := by
  rw [Db.getElem?_applyBatch, h key hKey]
  rfl

theorem TouchesOr.spares {tables : String → Prop} {batch : Batch} {table : String}
    (h : Touches tables batch) (hNot : ¬ tables table) (hLists : table ≠ listsTable) :
    Spares table batch :=
  fun _ hKey => h.written_tableKey hKey hNot hLists

/-- What an accepted entry does to the two tables, by its type. -/
inductive KeyStep (db : Db) (changeId : Nat) (entry : ChangelogEntry) (batch : Batch) : Prop where
  | rotation (hType : entry.message.opType = .refreshKeys) (first : Int)
      (hAccepted : RefreshAccepted db entry first batch)
  | removal (hType : entry.message.opType = .removeUser) (rowId first : Int)
      (hAccepted : RemoveAccepted db changeId entry rowId first batch)
  | newUser (hType : entry.message.opType = .createSpace ∨ entry.message.opType = .inviteUser)
      (hWrites : InviteWrites db entry batch) (hCounts : CountsUser db batch)
      (hHistory : Spares keyHistoryTable batch)
  | other (hRotation : entry.message.opType ≠ .refreshKeys)
      (hUsers : Spares usersTable batch) (hHistory : Spares keyHistoryTable batch)

section Step

variable {codec : RuleCodec} {db : Db} {n : Nat} {entry : ChangelogEntry} {batch : Batch}
  {table : String}

/-- An internal table is left alone by the entry types that retire no key, unless they add a
user to it. -/
theorem not_tablesOf (hInternal : ¬ Application table) (hLists : table ≠ listsTable)
    (hRetention : table ≠ retentionTable) (hRefresh : entry.message.opType ≠ .refreshKeys)
    (hRemove : entry.message.opType ≠ .removeUser)
    (hNew : entry.message.opType = .createSpace ∨ entry.message.opType = .inviteUser →
      table ≠ usersTable) : ¬ tablesOf (· ≠ table) entry table := by
  have hUser : table ≠ usersTable →
      ¬ (table = usersTable ∨ table = retentionTable ∧ CarriesRetention entry) := by
    rintro hNot (h | h)
    · exact hNot h
    · exact hRetention h.1
  unfold tablesOf
  cases hType : entry.message.opType with
  | refreshKeys => exact absurd hType hRefresh
  | removeUser => exact absurd hType hRemove
  | insert | update | delete => exact hInternal
  | listInsert | listUpdate | listDelete | listAppend => exact hLists
  | createSpace => exact hUser (hNew (.inl hType))
  | inviteUser => exact hUser (hNew (.inr hType))
  | extend | reduce | rekey => exact hRetention
  | action =>
    rintro (h | h)
    · exact hInternal h
    · exact h rfl
  | noop => exact id

theorem not_tablesOf_history (hRefresh : entry.message.opType ≠ .refreshKeys)
    (hRemove : entry.message.opType ≠ .removeUser) :
    ¬ tablesOf (· ≠ keyHistoryTable) entry keyHistoryTable :=
  not_tablesOf (by decide) (by decide) (by decide) hRefresh hRemove fun _ => by decide

theorem refreshAccepted_of_dispatch (hDb : Reachable codec n db) (hUid : entry.uid < 2 ^ 63)
    (hType : entry.message.opType = .refreshKeys) (hStep : Accepts codec (n + 1) db entry batch) :
    ∃ first, RefreshAccepted db entry first batch := by
  refine holds_of_dispatch ?_ hStep
  rw [hType]
  exact refreshKeysOp_returns hDb hUid

theorem removeAccepted_of_dispatch (hDb : Reachable codec n db)
    (hType : entry.message.opType = .removeUser) (hStep : Accepts codec (n + 1) db entry batch) :
    ∃ rowId first, RemoveAccepted db (n + 1) entry rowId first batch := by
  refine holds_of_dispatch ?_ hStep
  rw [hType]
  exact removeUserOp_returns hDb

theorem inviteWrites_of_dispatch (hDb : Reachable codec n db)
    (hType : entry.message.opType = .createSpace ∨ entry.message.opType = .inviteUser)
    (hStep : Accepts codec (n + 1) db entry batch) :
    InviteWrites db entry batch ∧ CountsUser db batch := by
  refine holds_of_dispatch ?_ hStep
  rcases hType with hType | hType
  · rw [hType]
    exact createSpaceOp_returns hDb
  · rw [hType]
    exact inviteUserOp_returns hDb

/-- Every accepted entry takes one of these steps. -/
theorem keyStep_of_dispatch (hDb : Reachable codec n db) (hUid : entry.uid < 2 ^ 63)
    (hUsers : NoCascadeInto codec db usersTable)
    (hHistory : NoCascadeInto codec db keyHistoryTable)
    (hStep : Accepts codec (n + 1) db entry batch) :
    KeyStep db (n + 1) entry batch := by
  by_cases hRefresh : entry.message.opType = .refreshKeys
  · obtain ⟨first, hAccepted⟩ := refreshAccepted_of_dispatch hDb hUid hRefresh hStep
    exact .rotation hRefresh first hAccepted
  by_cases hRemove : entry.message.opType = .removeUser
  · obtain ⟨rowId, first, hAccepted⟩ := removeAccepted_of_dispatch hDb hRemove hStep
    exact .removal hRemove rowId first hAccepted
  have hSpares : Spares keyHistoryTable batch :=
    (hHistory.touches hStep).spares (not_tablesOf_history hRefresh hRemove) (by decide)
  by_cases hNew : entry.message.opType = .createSpace ∨ entry.message.opType = .inviteUser
  · obtain ⟨hWrites, hCounts⟩ := inviteWrites_of_dispatch hDb hNew hStep
    exact .newUser hNew hWrites hCounts hSpares
  · have hOther : ¬ tablesOf (· ≠ usersTable) entry usersTable :=
      not_tablesOf (by decide) (by decide) (by decide) hRefresh hRemove fun h => absurd h hNew
    exact .other hRefresh ((hUsers.touches hStep).spares hOther (by decide)) hSpares

end Step

end EncryptedSpaces.Ops
