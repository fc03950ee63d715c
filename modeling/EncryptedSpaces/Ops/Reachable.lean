import EncryptedSpaces.Ops.Database
import EncryptedSpaces.Ops.RetentionRows

/-!
# Internal schemas in reachable states

No accepted entry writes a key that static metadata is loaded from, so the
schemas of the internal tables are those of the initial state in every run.
-/

namespace EncryptedSpaces.Ops

open Encoding Changelog Lib

variable {codec : RuleCodec} {reader : Reader} {n : Nat} {entry : ChangelogEntry} {batch : Batch}
  {db : Db}

section

variable (hStep : (dispatchExtractAndValidate n entry).eval (plain codec reader) = .ok batch)
include hStep

/-- The footprint of an accepted entry, with any cascades. -/
theorem touchesOr_of_dispatch :
    TouchesOr (listKeysOf entry) (tablesOf (fun _ => True) entry) batch := by
  refine dispatch_touchesOr.of_eval (fun q a _ => ?_) hStep
  unfold InvokedCascades
  split
  · exact fun _ _ _ _ _ => trivial
  · trivial

theorem touches_of_dispatch :
    Touches (tablesOf (fun _ => True) entry) batch :=
  fun op hOp => (touchesOr_of_dispatch hStep op hOp).imp_right listKey_of_listKeysOf

/-- An accepted batch does not write the source of a static value. -/
theorem key_ne_treeKey_of_dispatch (key : StaticKey) : ∀ op ∈ batch, op.key ≠ key.treeKey :=
  fun _ hOp => (touches_of_dispatch hStep).treeKey_ne hOp key

/-- So it leaves that source alone. -/
theorem getElem?_treeKey_of_dispatch
    (key : StaticKey) : (db.applyBatch batch)[key.treeKey]? = db[key.treeKey]? :=
  Db.getElem?_applyBatch_of_ne (key_ne_treeKey_of_dispatch hStep key)

end

section Internal

variable {codec : RuleCodec} {db : Db} {n : Nat} {key : StaticKey}

theorem Bootstrapped.getElem?_treeKey (h : Bootstrapped db)
    (hKey : key.treeKey ∈ internalSchemaKeys) :
    db[key.treeKey]? = internalDb[key.treeKey]? := by
  induction h with
  | internal => rfl
  | @write db key' value _ hKey' ih =>
    have hNe : key' ≠ key.treeKey := fun hEq => hKey' (hEq ▸ hKey)
    rw [Std.ExtTreeMap.getElem?_insert, ← ih]
    simp [hNe]

/-- Every run keeps the internal schemas. -/
theorem Reachable.getElem?_treeKey (h : Reachable codec n db)
    (hKey : key.treeKey ∈ internalSchemaKeys) :
    db[key.treeKey]? = internalDb[key.treeKey]? := by
  induction h with
  | init hDb => exact hDb.getElem?_treeKey hKey
  | step _ hStep ih => rw [getElem?_treeKey_of_dispatch hStep, ih]

end Internal

theorem loadStatic_reader {opName : String} {key : StaticKey} :
    loadStatic codec db.reader opName key = decodeStatic codec opName key db[key.treeKey]? := by
  unfold loadStatic Db.reader Db.read
  cases hGet : db[key.treeKey]? <;> simp [hGet]

end EncryptedSpaces.Ops
