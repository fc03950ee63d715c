import EncryptedSpaces.Server.LostUpdates

/-!
# Files of deleted rows

Before a Delete is applied, the server selects the column `*` of its rows and notes
the hashes in plaintext FileRef cells; after the tree is written it removes these
files.  `filter_columns` takes `*` for the name of a column, so the files of a column
with this name are removed and no others.  The server does not look at the cells of
other rows, and a file is gone also when the call fails after that.
-/

namespace EncryptedSpaces.Server

open Encoding Changelog Ops Lib Acl FastForward

section Files

/- The columns in a schema document, each with its `plaintext` flag. -/
variable (decode : Bytes → Option (List (ColumnDef × Bool))) (db : Db)

def fileRefColumns (table : String) : List String :=
  (((db[schemaKey table]?).bind decode).getD []).filterMap fun (column, plaintext) =>
    if column.columnType = .fileRef ∧ plaintext then some column.name else none

/-- The hashes in a row, without empty texts. -/
def Row.fileHashes (row : Row) (columns : List String) : List String :=
  columns.filterMap fun column => ((row.get column).bind Value.asStr).filter (· ≠ "")

/-- `filter_columns` for the list `["*"]`.  The text has no ` AS ` and no dot, so it
names a column. -/
def filterStar (row : Row) : Row := ((row.get "*").map fun value => ("*", value)).toList

/-- `collect_file_hashes_for_delete`, with a file store: one unreadable row, and
nothing is collected. -/
def collectFileHashesForDelete (entry : ChangelogEntry) : List String :=
  let keys := entry.message.entries.filterMap fun kv => parsedColumn? kv.key
  match keys with
  | [] => []
  | (table, _, _) :: _ =>
    let rowIds := ((keys.map fun (_, rowId, _) => rowId).dedup).insertionSort (· ≤ ·)
    match rowIds.mapM (getRowById db table) with
    | .error _ => []
    | .ok rows => rows.reduceOption.flatMap fun row =>
        (filterStar row).fileHashes (fileRefColumns decode db table)

/-- The key of a plaintext FileRef cell with the hash. -/
structure FileCell (key : Bytes) (hash : String) : Prop where
  column : ∃ table rowId column, parsedColumn? key = some (table, rowId, column) ∧
    column ∈ fileRefColumns decode db table
  value : ∃ bytes, db[key]? = some bytes ∧
    (bytesToValue bytes).toOption.bind Value.asStr = some hash

end Files

section Removal

variable {T V : Type} (P : ServerParams T V)
  (decode : Bytes → Option (List (ColumnDef × Bool))) (st : SpaceState T)
  (trace : T → Trace T) (change : Change) (auth : AuthContext) (now : Nat)
  (prover : ProverOutcome)

/-- The files that a call of `handle_change` removes: a Delete whose tree is written
and whose witness is there. -/
def removedFiles : List String :=
  match acceptanceChecks P st change auth now,
      doQueryWithPrunedMerkleTree P st.takeSnapshot change.entry with
  | .ok _, .ok (some tree) =>
    if change.entry.message.opType = .delete ∧ (emitWitness P (trace tree) tree).isOk then
      collectFileHashesForDelete decode (st.db P) change.entry
    else []
  | _, _ => []

/-- The call removes the files of its rows. -/
structure Deletes (tree : T) (witness : Witness T) : Prop where
  checks : ∃ referenced, acceptanceChecks P st change auth now = .ok referenced
  query : doQueryWithPrunedMerkleTree P st.takeSnapshot change.entry = .ok (some tree)
  witness_eq : emitWitness P (trace tree) tree = .ok witness
  opType : change.entry.message.opType = .delete

variable {P decode st trace change auth now prover} {tree : T} {witness : Witness T}

theorem removedFiles_of_deletes (h : Deletes P st trace change auth now tree witness) :
    removedFiles P decode st trace change auth now =
      collectFileHashesForDelete decode (st.db P) change.entry := by
  obtain ⟨referenced, hChecks⟩ := h.checks
  unfold removedFiles
  rw [hChecks, h.query]
  dsimp only
  rw [h.witness_eq]
  exact if_pos ⟨h.opType, rfl⟩

theorem removedFiles_eq_nil
    (h : ∀ tree witness, ¬ Deletes P st trace change auth now tree witness) :
    removedFiles P decode st trace change auth now = [] := by
  unfold removedFiles
  split
  · rename_i referenced tree hChecks hQuery
    refine if_neg fun ⟨hType, hOk⟩ => ?_
    cases hEmit : emitWitness P (trace tree) tree with
    | error e =>
      rw [hEmit] at hOk
      cases hOk
    | ok witness => exact h tree witness ⟨⟨referenced, hChecks⟩, hQuery, hEmit, hType⟩
  · rfl

/-- The tree of a call that reaches it has the batch of the change, whatever comes
later. -/
theorem Deletes.db_eq (hM : CompleteTrees P.merk P.contents)
    (h : Deletes P st trace change auth now tree witness) :
    ∃ batch, Accepts P.codec (st.changelog.numChanges + 1) (st.db P) change.entry batch ∧
      (handleChangeTraced P st trace change auth now prover).2.db P =
        (st.db P).applyBatch batch := by
  obtain ⟨referenced, hChecks⟩ := h.checks
  obtain ⟨_, _, batch, hDispatch, _, hApply⟩ := doQuery_eq_some h.query
  rw [SpaceState.takeSnapshot_tree, SpaceState.takeSnapshot_changelog, hM.read] at *
  refine ⟨batch, hDispatch, ?_⟩
  unfold SpaceState.db
  rw [handleChangeTraced_applied hChecks h.query, commitChange_tree, hM.contents_eq hApply]

/-- A Delete takes its own cells out and leaves the other cells and the schemas. -/
theorem fileCell_applyBatch_iff {db : Db} {n : Nat} {batch : Batch} {key : Bytes} {hash : String}
    (hType : change.entry.message.opType = .delete)
    (hStep : Accepts P.codec n db change.entry batch) :
    FileCell decode (db.applyBatch batch) key hash ↔
      key ∉ change.entry.message.entries.map KvData.key ∧ FileCell decode db key hash := by
  obtain ⟨_, _, hOp⟩ := Prog.eval_bind_eq_ok.mp hStep
  rw [hType] at hOp
  obtain ⟨x, hx, rfl⟩ := deleteOp_returns.of_ok hOp
  have hSchema : ∀ table, (db.applyBatch (x.batch change.entry.message.entries))[schemaKey table]? =
      db[schemaKey table]? := by
    intro table
    refine Db.getElem?_applyBatch_of_ne fun op hMem hEq => ?_
    have hFront : HasFront op.key tagSchema table := hEq ▸ hasFront_encodeTuple tagSchema table _
    rcases List.mem_append.mp hMem with hMem | hMem
    · obtain ⟨_, hKey, rfl⟩ := List.mem_map.mp hMem
      obtain ⟨kv, hkv, rfl⟩ := List.mem_map.mp hKey
      exact absurd ((hasFront_of_isColumnOf (hx.sameTable kv hkv)).unique hFront).1 (by decide)
    · exact absurd ((hx.indexesOf op hMem).unique hFront).1 (by decide)
  have hColumns : ∀ table, fileRefColumns decode (db.applyBatch
      (x.batch change.entry.message.entries)) table = fileRefColumns decode db table :=
        fun table => by
    unfold fileRefColumns
    rw [hSchema table]
  have hCell : ∀ table rowId column, parsedColumn? key = some (table, rowId, column) →
      (db.applyBatch (x.batch change.entry.message.entries))[key]? =
        if key ∈ change.entry.message.entries.map KvData.key then none else db[key]? := by
    intro table rowId column hKey
    rw [Db.getElem?_applyBatch, hx.written_batch hKey]
    split <;> rfl
  constructor
  · rintro ⟨⟨table, rowId, column, hKey, hColumn⟩, bytes, hGet, hHash⟩
    rw [hCell table rowId column hKey] at hGet
    split at hGet
    · cases hGet
    · rename_i hNot
      exact ⟨hNot, ⟨table, rowId, column, hKey, hColumns table ▸ hColumn⟩, bytes, hGet, hHash⟩
  · rintro ⟨hNot, ⟨table, rowId, column, hKey, hColumn⟩, bytes, hGet, hHash⟩
    refine ⟨⟨table, rowId, column, hKey, (hColumns table).symm ▸ hColumn⟩, bytes, ?_, hHash⟩
    rw [hCell table rowId column hKey, if_neg hNot]
    exact hGet

end Removal

/-! ## Two documents with one file -/

/-- Documents whose column `*` is a plaintext FileRef. -/
def fileColumns : Bytes → Option (List (ColumnDef × Bool)) := fun _ =>
  some [(⟨"id", .integer⟩, true), (⟨"*", .fileRef⟩, true)]

def filesServer : ServerParams Db Unit :=
  { notesServer with
    getSchema := fun db table =>
      if table = "docs" then some { columns := [⟨"id", .integer⟩, ⟨"*", .fileRef⟩] }
      else notesServer.getSchema db table }

def filesSpace : SpaceState Db :=
  { notesSpace with
    tree := (gatedNotes.insert (schemaKey "docs") []).insert (schemaColumnsKey "docs")
      (encodeColumnNames ["*"]) }

def fileDoc (hash : String) : ChangelogEntry :=
  sampleEntry .insert 1 1 1
    [ { key := columnKeyPlaceholder "docs" "*", value := stringToValueBytes hash } ]

def fileDelete : ChangelogEntry :=
  sampleEntry .delete 1 1 1 [ { key := columnKey "docs" 1 "*", value := [] } ]

def fileCalls (second : String) (fits : (nextSample (fileDoc second) 2 2).FitsWidths) : List Call :=
  [ sampleCall (nextSample sampleCreate 0 0) [1] firstCreate_fits,
    sampleCall (nextSample (fileDoc "f0") 1 1) [] (by constructor <;> decide +kernel),
    sampleCall (nextSample (fileDoc second) 2 2) [] fits ]

def deleteCall : Call :=
  sampleCall (nextSample fileDelete 3 3) [] (by constructor <;> decide +kernel)

end EncryptedSpaces.Server
