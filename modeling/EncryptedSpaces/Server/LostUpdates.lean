import EncryptedSpaces.Ops.CellSources
import EncryptedSpaces.Server.Served

/-!
# Concurrent changes

`check_concurrent_conflict` compares the keys that entries list.  The cells that an
entry writes are its own keys or belong to a new row, except for cascades, whose
rows no entry lists.  Without cascades an accepted Update, Delete or Action writes no
cell that was written since its parent.
-/

namespace EncryptedSpaces.Server

open Encoding Changelog Ops Lib Acl FastForward Lib.Except List

/-- The change at a position of a log writes or deletes the key. -/
def ChangeWrites (codec : RuleCodec) (start : Db) (entries : List ChangelogEntry) (m : Nat)
    (key : Bytes) : Prop :=
  ∃ before entry after db batch, entries = before ++ entry :: after ∧ m = before.length + 1 ∧
    Run codec start before db ∧
    (dispatchExtractAndValidate m entry).eval (plain codec db.reader) = .ok batch ∧
    ∃ op ∈ batch, op.key = key

/-- The row exists after the first changes of a log. -/
def RowAfter (codec : RuleCodec) (start : Db) (entries : List ChangelogEntry) (p : Nat)
    (table : String) (rowId : Int) : Prop :=
  ∃ db, Run codec start (entries.take p) db ∧ ¬ NoRow db table rowId

/-- Rows of tables with assigned ids are seeded below the counter. -/
def SeededBelow (codec : RuleCodec) (db : Db) : Prop :=
  ∀ table, Application table → db.Static codec (.autoIncrement table) true → RowsBelow db table

section Runs

variable {codec : RuleCodec} {start db : Db} {entries : List ChangelogEntry} {table : String}

/-- Later states of a run have larger counters. -/
theorem nextId_le_of_run {front : List ChangelogEntry} {db' : Db}
    (hFront : Run codec start front db')
    (hRun : Run codec start entries db) (hLe : front <+: entries) (hApp : Application table) :
    db'.nextId table ≤ db.nextId table := by
  induction hRun with
  | nil =>
    rw [prefix_nil] at hLe
    subst hLe
    exact (congrArg (·.nextId table) (hFront.unique .nil)).le
  | @snoc entries db entry batch hRun hStep ih =>
    rcases prefix_concat_iff.mp hLe with hAll | hFew
    · subst hAll
      exact (congrArg (·.nextId table) (hFront.unique (.snoc hRun hStep))).le
    · exact (ih hFew).trans (nextId_le_of_dispatch hStep hApp)

/-- A row that existed before is not the next row. -/
theorem ne_nextId_of_rowAfter {p : Nat} {rowId : Int} (hStart : SeededBelow codec start)
    (hRow : RowAfter codec start entries p table rowId) {before : List ChangelogEntry}
    (hRun : Run codec start before db) (hLe : entries.take p <+: before) (hApp : Application table)
    (hMode : db.Static codec (.autoIncrement table) true) : rowId ≠ db.nextId table := by
  obtain ⟨dbp, hRunp, hExists⟩ := hRow
  have hModep := hRunp.static_iff.mpr (hRun.static_iff.mp hMode)
  have hBelow := hRunp.rowsBelow (hStart table hApp) hApp hModep
  unfold NoRow RowKeys at hExists
  push Not at hExists
  obtain ⟨key, value, hStored, column, hKey, _⟩ := hExists
  have hLt := hBelow key value hStored rowId column hKey
  have hGrows := nextId_le_of_run hRunp hRun hLe hApp
  omega

/-- Declared actions do not change in a run. -/
theorem hasCascade_iff_of_run {entry : ChangelogEntry} (hRun : Run codec start entries db) :
    HasCascade codec db entry ↔ HasCascade codec start entry := by
  constructor
  · rintro ⟨primaryTable, name, kvs, action, leg, hType, hMarker, hAction, hLeg, hKind⟩
    exact ⟨primaryTable, name, kvs, action, leg, hType, hMarker,
      hRun.static_iff.mp hAction, hLeg, hKind⟩
  · rintro ⟨primaryTable, name, kvs, action, leg, hType, hMarker, hAction, hLeg, hKind⟩
    exact ⟨primaryTable, name, kvs, action, leg, hType, hMarker,
      hRun.static_iff.mpr hAction, hLeg, hKind⟩

end Runs

/-! ## The check of the server -/

section Check

variable {T V : Type} {P : ServerParams T V} {st : SpaceState T} {entry : ChangelogEntry}

/-- Updates, deletes and actions have passed the conflict check. -/
theorem keys_ne_of_opValidation {outcome : DeleteValidationOutcome}
    (h : opValidation P st entry = .ok outcome)
    (hKind : entry.message.opType ∈ [OpType.update, .delete, .action]) :
    ∀ existing ∈ st.changelog.changes.drop entry.parentChange,
      existing.message.treePath = entry.message.treePath →
        ∀ old ∈ existing.message.entries, ∀ new ∈ entry.message.entries, old.key ≠ new.key := by
  have hCheck : ∃ u, checkConcurrentConflict st entry = .ok u := by
    simp only [mem_cons, not_mem_nil, or_false] at hKind
    unfold opValidation at h
    rcases hKind with hType | hType | hType
    · rw [hType] at h
      obtain ⟨_, _, h⟩ := bind_eq_ok.mp h
      obtain ⟨u, hConflict, _⟩ := bind_eq_ok.mp h
      exact ⟨u, hConflict⟩
    · rw [hType] at h
      obtain ⟨_, _, h⟩ := bind_eq_ok.mp h
      obtain ⟨u, hConflict, _⟩ := bind_eq_ok.mp h
      exact ⟨u, hConflict⟩
    · rw [hType] at h
      obtain ⟨u, hConflict, _⟩ := bind_eq_ok.mp h
      exact ⟨u, hConflict⟩
  obtain ⟨_, hConflict⟩ := hCheck
  exact ensure_eq_ok.mp hConflict

/-- **No lost updates.**  In every run of the server, an accepted Update, Delete or
Action writes or deletes no cell, of a row that existed after its parent, that was
written or deleted after its parent; as long as neither it nor a change since its
parent invokes an action with a cascade. -/
theorem no_lost_updates (hM : CompleteTrees P.merk P.contents) {start : SpaceState T}
    (hInit : start.Initial P) (hSeeded : SeededBelow P.codec (start.db P)) (calls : List Call)
    (call : Call)
    (hAccepted : (serve P (serveAll P start calls) call).changelog.changes =
      (serveAll P start calls).changelog.changes ++ [call.change.entry])
    (hKind : call.change.entry.message.opType ∈ [OpType.update, .delete, .action])
    (hCascades : ∀ e ∈ (serve P (serveAll P start calls) call).changelog.changes.drop
      call.change.entry.parentChange, ¬ HasCascade P.codec (start.db P) e) :
    ∀ key table rowId column, parsedColumn? key = some (table, rowId, column) →
      RowAfter P.codec (start.db P) (serveAll P start calls).changelog.changes
        call.change.entry.parentChange table rowId →
      ChangeWrites P.codec (start.db P) (serve P (serveAll P start calls) call).changelog.changes
        ((serveAll P start calls).changelog.changes.length + 1) key →
      ∀ m, call.change.entry.parentChange < m →
        m ≤ (serveAll P start calls).changelog.changes.length →
        ¬ ChangeWrites P.codec (start.db P) (serveAll P start calls).changelog.changes m key := by
  have hServed := hInit.servedLog_serveAll hM calls
  generalize serveAll P start calls = st at *
  -- the change was committed
  obtain ⟨referenced, writes, tree, log, hCommitted, _⟩ : ∃ referenced writes tree log,
      Committed P st call.change call.auth call.now referenced writes tree log ∧
      After P st call.change.entry tree log (serve P st call) := by
    have hNe : (serve P st call).changelog ≠ st.changelog := by
      intro hSame
      rw [hSame] at hAccepted
      have hLength := congrArg length hAccepted
      rw [length_append, length_singleton] at hLength
      omega
    rcases serve_cases P st call with hIdle | ⟨_, _, _, hState⟩ | hCommitted
    · exact absurd (NoTrace.of_idle hIdle).changelog hNe
    · rw [hState] at hNe
      exact absurd SpaceState.takeSnapshot_changelog hNe
    · exact hCommitted
  have hDiffer := keys_ne_of_opValidation hCommitted.outcome hKind
  rw [SpaceState.takeSnapshot_changelog] at hDiffer
  rw [hAccepted] at hCascades ⊢
  intro key table rowId column hKey hRow hLast m hLt hLe hOlder
  obtain ⟨before, entry, after, db, batch, hSplit, hPosition, hRun, hStep, op, hOp, rfl⟩ := hLast
  obtain ⟨rfl, hEntry⟩ : st.changelog.changes = before ∧ [call.change.entry] = entry :: after :=
    append_inj hSplit (by omega)
  obtain ⟨rfl, rfl⟩ := cons.inj hEntry
  obtain ⟨before', entry', after', db', batch', hSplit', rfl, hRun', hStep', op', hOp', hSame⟩ :=
    hOlder
  -- both changes come after the parent, so neither has a cascade
  have hMem' : entry' ∈ st.changelog.changes.drop call.change.entry.parentChange := by
    rw [hSplit', drop_append_of_le_length (by omega)]
    exact mem_append_right _ mem_cons_self
  have hParent : call.change.entry.parentChange ≤ st.changelog.changes.length := by omega
  have hNoCascade : ¬ HasCascade P.codec db call.change.entry := by
    rw [hasCascade_iff_of_run hRun]
    refine hCascades _ ?_
    rw [drop_append_of_le_length hParent]
    exact mem_append_right _ mem_cons_self
  have hNoCascade' : ¬ HasCascade P.codec db' entry' := by
    rw [hasCascade_iff_of_run hRun']
    refine hCascades _ ?_
    rw [drop_append_of_le_length hParent]
    exact mem_append_left _ hMem'
  obtain ⟨hApp, hFrom⟩ := fromKvs_of_dispatch hStep hNoCascade hOp hKey
  have hFrom' := (fromKvs_of_dispatch hStep' hNoCascade' hOp' (hSame ▸ hKey)).2 (hApp hKind)
  rcases hFrom (hApp hKind) with hListed | ⟨hMode, hNext⟩
  · rcases hFrom' with hListed' | ⟨hMode, hNext⟩
    · obtain ⟨new, hNew, hNewKey⟩ := mem_map.mp hListed
      obtain ⟨old, hOld, hOldKey⟩ := mem_map.mp hListed'
      have hPath := hServed.paths entry' (mem_of_mem_drop hMem')
      exact hDiffer entry' hMem' (hPath.trans hCommitted.treePath.symm) old hOld new hNew
        (hOldKey.trans (hSame.trans hNewKey.symm))
    · refine ne_nextId_of_rowAfter hSeeded hRow hRun' ?_ (hApp hKind) hMode hNext
      rw [hSplit', take_append_of_le_length (by omega)]
      exact take_prefix _ _
  · exact ne_nextId_of_rowAfter hSeeded hRow hRun ( take_prefix _ _) (hApp hKind) hMode hNext

end Check

/-! ## Moving a note and dropping its document -/

section Samples

variable {codec : RuleCodec} {start : Db}

theorem changeWrites_of_run (before after : List ChangelogEntry) {entry : ChangelogEntry}
    {key : Bytes} (h : ∃ db, runEntries codec 0 before start = .ok db ∧
      ∃ batch, Accepts codec (before.length + 1) db entry batch ∧ ∃ op ∈ batch, op.key = key) :
    ChangeWrites codec start (before ++ entry :: after) (before.length + 1) key := by
  obtain ⟨db, hRun, batch, hStep, hOp⟩ := exists_run h
  exact ⟨before, entry, after, db, batch, rfl, rfl, hRun, hStep, hOp⟩

end Samples

/-- A server of documents and notes, where `drop` deletes a document and its notes. -/
def notesServer : ServerParams Db Unit :=
  { sampleServer with
    codec := dropCodec ["drop"]
    getSchema := fun db table =>
      match table with
      | "docs" => some { columns := [⟨"id", .integer⟩, ⟨"a", .integer⟩] }
      | "notes" => some { columns := [⟨"id", .integer⟩, ⟨"doc", .integer⟩] }
      | _ => sampleServer.getSchema db table }

def notesSpace : SpaceState Db :=
  { sampleSpace with
    tree := gatedNotes
    changelog := ChangeLog.new notesServer.H (notesServer.merk.hash gatedNotes) }

/-- An entry of user 1 at its place in the chain of that user. -/
def nextSample (entry : ChangelogEntry) (parentChange sigRef : Nat) : ChangelogEntry :=
  signedSample { entry with parentChange, sigRef } 50

/-- Moves note `1` to document `1`. -/
def noteMove : ChangelogEntry :=
  sampleEntry .update 1 1 1 [ { key := columnKey "notes" 1 "doc", value := i64ToValueBytes 1 } ]

/-- A space with document `1` and a note elsewhere. -/
def notesLog : List ChangelogEntry :=
  [nextSample sampleCreate 0 0, nextSample docInsert 1 1, nextSample (noteInsert 2) 2 2]

theorem firstCreate_fits : (nextSample sampleCreate 0 0).FitsWidths := by
  constructor <;> decide +kernel

def notesCalls : List Call :=
  [ sampleCall (nextSample sampleCreate 0 0) [1] firstCreate_fits,
    sampleCall (nextSample docInsert 1 1) [] (by constructor <;> decide +kernel),
    sampleCall (nextSample (noteInsert 2) 2 2) [] (by constructor <;> decide +kernel) ]

def secondDocCall : Call :=
  sampleCall (nextSample docInsert 3 3) [] (by constructor <;> decide +kernel)

/-- The document is dropped by a client that has seen three changes. -/
def dropCall : Call :=
  sampleCall (nextSample (dropEntry 1) 3 4) [] (by constructor <;> decide +kernel)

/-- The note is moved by a client that has seen three changes. -/
def lateMove : Call := sampleCall (nextSample noteMove 3 4) [] (by constructor <;> decide +kernel)

def earlyMove : Call := sampleCall (nextSample noteMove 3 3) [] (by constructor <;> decide +kernel)

/-- The note is moved while another document comes in: nobody else wrote its cell. -/
theorem move_beside_insert_loses_nothing :
    (serve notesServer (serveAll notesServer notesSpace (notesCalls ++ [secondDocCall]))
      lateMove).changelog.changes =
        notesLog ++ [secondDocCall.change.entry] ++ [lateMove.change.entry] ∧
    ChangeWrites notesServer.codec gatedNotes
      (notesLog ++ [secondDocCall.change.entry] ++ [lateMove.change.entry]) 5
      (columnKey "notes" 1 "doc") ∧
    ¬ ChangeWrites notesServer.codec gatedNotes (notesLog ++ [secondDocCall.change.entry]) 4
      (columnKey "notes" 1 "doc") := by
  set calls := notesCalls ++ [secondDocCall]
  set log := notesLog ++ [secondDocCall.change.entry]
  have hBefore : (serveAll notesServer notesSpace calls).changelog.changes = log := by
    decide +kernel
  have hAfter : (serve notesServer (serveAll notesServer notesSpace calls)
      lateMove).changelog.changes = log ++ [lateMove.change.entry] := by decide +kernel
  have hWrites : ChangeWrites notesServer.codec gatedNotes (log ++ [lateMove.change.entry]) 5
      (columnKey "notes" 1 "doc") :=
    changeWrites_of_run log [] (by decide +kernel)
  refine ⟨hAfter, hWrites, ?_⟩
  have hSeeded : SeededBelow notesServer.codec (notesSpace.db notesServer) :=
    (wellSeeded_of_no_rows (by decide +kernel)).below
  have hNoCascade : ∀ e ∈ (log ++ [lateMove.change.entry]).drop 3,
      ¬ HasCascade notesServer.codec (notesSpace.db notesServer) e := by
    rintro e he ⟨_, _, _, _, _, hType, _⟩
    have hOther : ∀ e ∈ (log ++ [lateMove.change.entry]).drop 3, e.message.opType ≠ .action := by
      decide +kernel
    exact hOther e he hType
  have hNone := no_lost_updates (P := notesServer) (mapTrees_complete _) ⟨rfl, rfl, rfl⟩ hSeeded
    calls lateMove (by rw [hBefore]; exact hAfter) (by decide)
    (by rw [hAfter]; exact hNoCascade) (columnKey "notes" 1 "doc") "notes" 1 "doc"
    (parsedColumn?_columnKey "notes" "doc" (by decide))
  rw [hBefore, hAfter] at hNone
  exact hNone (exists_run (by decide +kernel)) hWrites 4 (by decide) (by decide)

/-- The note is moved to document `1`; a client that has not seen this drops the
document, and the server deletes the note. -/
theorem stale_drop_deletes_moved_note :
    (serve notesServer (serveAll notesServer notesSpace (notesCalls ++ [earlyMove]))
      dropCall).changelog.changes = notesLog ++ [earlyMove.change.entry] ++
        [dropCall.change.entry] ∧
    dropCall.change.entry.message.opType = .action ∧ dropCall.change.entry.parentChange = 3 ∧
    RowAfter notesServer.codec gatedNotes (notesLog ++ [earlyMove.change.entry]) 3 "notes" 1 ∧
    ChangeWrites notesServer.codec gatedNotes (notesLog ++ [earlyMove.change.entry]) 4
      (columnKey "notes" 1 "doc") ∧
    ChangeWrites notesServer.codec gatedNotes
      (notesLog ++ [earlyMove.change.entry] ++ [dropCall.change.entry]) 5
      (columnKey "notes" 1 "doc") ∧
    ((serve notesServer (serveAll notesServer notesSpace (notesCalls ++ [earlyMove]))
      dropCall).tree[columnKey "notes" 1 "doc"]?) = none := by
  refine ⟨by decide +kernel, rfl, rfl, exists_run (by decide +kernel), ?_, ?_,
    by decide +kernel⟩
  · exact changeWrites_of_run notesLog [] (by decide +kernel)
  · exact changeWrites_of_run (notesLog ++ [earlyMove.change.entry]) [] (by decide +kernel)

end EncryptedSpaces.Server
