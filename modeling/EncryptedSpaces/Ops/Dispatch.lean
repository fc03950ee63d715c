import EncryptedSpaces.Ops.Actions
import EncryptedSpaces.Ops.Composite
import EncryptedSpaces.Ops.Lists

/-!
# Dispatch on the operation type
-/

namespace EncryptedSpaces.Ops

open Encoding Changelog Lib

/-- The verifier of an operation type. -/
def verifierOf (currentChangeId : Nat) (entry : ChangelogEntry) : OpType → OpM Batch
  | .insert => insertOp entry
  | .update => updateOp entry
  | .delete => deleteOp entry
  | .listInsert => listInsertOp entry
  | .listUpdate => listUpdateOp entry
  | .listDelete => listDeleteOp entry
  | .listAppend => listAppendOp entry
  | .createSpace => createSpaceOp entry
  | .refreshKeys => refreshKeysOp entry
  | .inviteUser => inviteUserOp entry
  | .removeUser => removeUserOp currentChangeId entry
  | .extend => extendOp entry
  | .reduce => reduceOp entry
  | .rekey => rekeyOp entry
  | .action => actionOp entry
  | .noop => return []

/-- `dispatch_extract_and_validate`, outside of an action. -/
def dispatchExtractAndValidate (currentChangeId : Nat) (entry : ChangelogEntry) : OpM Batch := do
  enforceDispatchGating entry none
  verifierOf currentChangeId entry entry.message.opType

/-- `static_metadata_cache_invalidated_by`. -/
def cacheInvalidatedBy : OpType → Bool
  | .createSpace | .inviteUser | .removeUser | .refreshKeys | .extend | .reduce | .rekey => true
  | _ => false

end EncryptedSpaces.Ops
