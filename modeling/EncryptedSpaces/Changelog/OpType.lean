/-!
# Operation types of a changelog entry
-/

namespace EncryptedSpaces.Changelog

/-- `OpType`, in the order of its wire numbers. -/
inductive OpType where
  | insert
  | update
  | delete
  | listInsert
  | listUpdate
  | listDelete
  | createSpace
  | refreshKeys
  | inviteUser
  | removeUser
  | extend
  | reduce
  | rekey
  | listAppend
  | action
  | noop
  deriving DecidableEq, Repr

end EncryptedSpaces.Changelog
