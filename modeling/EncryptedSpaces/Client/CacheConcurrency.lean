import EncryptedSpaces.Client.CacheRun

/-!
# The cache under concurrent tasks

A select reads the commitment, awaits the server, and populates the cache with the
rows that were proven against the commitment it read; a join populates twice.  An
applied change advances the commitment first and updates the cache afterwards, in
blocks with awaits between them.  No lock is held across an await, so the steps of
different tasks interleave freely.

A population is right only if the rows of its table are still those of the
commitment that was read, and if no update of the cache is under way; a change may
begin to update only when no other one is doing so.  `Orderly` is that condition,
step by step.  It is met by every schedule in which tasks do not overlap, and by
many others: a select may overlap with changes to other tables.
-/

namespace EncryptedSpaces.Client

open Encoding Changelog Ops Server Lib

/-! ## Schedules -/

/-- A population a select has still to do. -/
structure Population where
  now : Nat
  table : String
  region : Fetch

/-- A select between its read of the commitment and its last population. -/
structure SelectTask where
  snapshot : Tables
  left : List Population

/-- What the tasks of a client share, and where they are. -/
structure Shared where
  /-- The database that `current_data_commitment` commits to. -/
  db : Tables
  cache : Cache
  selects : Std.ExtTreeMap Nat SelectTask compare
  updates : Std.ExtTreeMap Nat (List UpdateBlock) compare

/-- One atomic step of a task. -/
inductive TaskStep where
  /-- A select reads the commitment. -/
  | readCommitment (task : Nat) (populations : List Population)
  /-- Its next population, or its end. -/
  | populate (task : Nat)
  /-- A broadcast or an own change advances the commitment; one that prunes keys
  clears the cache. -/
  | advance (task : Nat) (batch : Batch) (hashedValues : Material) (prunes : Bool)
  /-- The next block of its update, or its end. -/
  | update (task : Nat)

section Schedules

variable {KeyId Key : Type} (cipher : FieldCipher KeyId Key) (schemas : Schemas)
  (material : Material) (keys : Resolver KeyId Key)

def Shared.step (st : Shared) : TaskStep → Shared
  | .readCommitment task populations =>
    if task ∈ st.selects then st
    else { st with selects := st.selects.insert task { snapshot := st.db, left := populations } }
  | .populate task =>
    match st.selects[task]? with
    | none => st
    | some { snapshot := _, left := [] } => { st with selects := st.selects.erase task }
    | some { snapshot, left := next :: left } =>
      { st with
        cache := st.cache.fetch cipher schemas material keys snapshot next.now next.table
          next.region
        selects := st.selects.insert task { snapshot, left } }
  | .advance task batch hashedValues prunes =>
    if task ∈ st.updates then st
    else
      { st with
        db := st.db.applyWrites (cellWrites batch)
        updates := st.updates.insert task
          (if prunes then [.clear] else updateBlocks schemas hashedValues (cellWrites batch)) }
  | .update task =>
    match st.updates[task]? with
    | none => st
    | some [] => { st with updates := st.updates.erase task }
    | some (block :: left) =>
      { st with
        cache := st.cache.runBlock cipher schemas keys block
        updates := st.updates.insert task left }

/-- All tasks have ended. -/
def Shared.Quiescent (st : Shared) : Prop := st.selects = ∅ ∧ st.updates = ∅

/-- A population finds its table as it was read and no update under way; a change
advances when no other one is updating. -/
def TaskStep.Orderly (st : Shared) : TaskStep → Prop
  | .populate task => ∀ snapshot next left,
      st.selects[task]? = some { snapshot, left := next :: left } →
        st.updates = ∅ ∧ snapshot next.table = st.db next.table
  | .advance _ _ _ _ => st.updates = ∅
  | _ => True

/-- Keys are canonical, rows stay whole, and every row that is read or written decrypts. -/
def TaskStep.Clean (st : Shared) : TaskStep → Prop
  | .populate task => ∀ snapshot next left,
      st.selects[task]? = some { snapshot, left := next :: left } →
        CleanFetch cipher schemas material keys st.db next.table next.region
  | .advance _ batch hashedValues _ =>
    CanonicalBatch batch ∧ CleanWrites cipher schemas material keys st.db (cellWrites batch) ∧
      ∀ hash value, hashedValues hash = some value → material hash = some value
  | _ => True

/-- The database under the current commitment. -/
def TaskStep.commit (raw : Db) : TaskStep → Db
  | .advance _ batch _ _ => raw.applyBatch batch
  | _ => raw

/-- Every step of a schedule is clean and orderly. -/
def OrderlyRun : Shared → List TaskStep → Prop
  | _, [] => True
  | st, step :: steps =>
    step.Orderly st ∧ TaskStep.Clean cipher schemas material keys st step ∧
      OrderlyRun (st.step cipher schemas material keys step) steps

end Schedules

/-! ## What orderly schedules keep -/

section Invariant

variable {KeyId Key : Type} {cipher : FieldCipher KeyId Key} {schemas : Schemas}
  {material : Material} {keys all : Resolver KeyId Key} {st : Shared}

/-- The cache tells the truth about a database. -/
structure UpToDate (cipher : FieldCipher KeyId Key) (schemas : Schemas) (material : Material)
    (all : Resolver KeyId Key) (db : Tables) (cache : Cache) : Prop where
  registered : cache.Registered schemas
  coherent : cache.Coherent (plainTruth cipher all schemas material db) schemas.indexedColumns

/-- Either no update is under way and the cache is up to date, or one is and the
cache will be up to date when its blocks have run. -/
structure Shared.Valid (cipher : FieldCipher KeyId Key) (schemas : Schemas) (material : Material)
    (keys all : Resolver KeyId Key) (st : Shared) : Prop where
  whole : st.db.Whole schemas
  cache : (st.updates = ∅ ∧ UpToDate cipher schemas material all st.db st.cache) ∨
    ∃ task left, st.updates = (∅ : Std.ExtTreeMap Nat (List UpdateBlock) compare).insert task left ∧
      UpToDate cipher schemas material all st.db
        (left.foldl (Cache.runBlock cipher schemas keys) st.cache)

/-- A fetch reads one table of the database. -/
theorem fetch_congr {db db' : Tables} {table : String} (h : db table = db' table) (cache : Cache)
    (now : Nat) (region : Fetch) :
    cache.fetch cipher schemas material keys db now table region =
      cache.fetch cipher schemas material keys db' now table region := by
  unfold Cache.fetch selectRows Tables.listing
  rw [h]

/-- With one update under way, a lookup finds that one. -/
theorem getElem?_single {task task' : Nat} {left left' : List UpdateBlock}
    (h : ((∅ : Std.ExtTreeMap Nat (List UpdateBlock) compare).insert task left)[task']? =
      some left') : task = task' ∧ left = left' := by
  rw [TreeMaps.getElem?_insert_eq, Std.ExtTreeMap.getElem?_empty] at h
  by_cases hTask : task = task'
  · rw [if_pos hTask, Option.some.injEq] at h
    exact ⟨hTask, h⟩
  · rw [if_neg hTask] at h
    cases h

section

variable (h : st.Valid cipher schemas material keys all)
include h

theorem Shared.Valid.readCommitment (task : Nat) (populations : List Population) :
    (st.step cipher schemas material keys (.readCommitment task populations)).Valid cipher schemas
      material keys all := by
  rw [Shared.step]
  split_ifs with hTask
  · exact h
  · exact ⟨h.whole, h.cache⟩

theorem Shared.Valid.populate (hAll : all.Extends keys) {task : Nat}
    (hOrderly : (TaskStep.populate task).Orderly st)
    (hClean : TaskStep.Clean cipher schemas material keys st (.populate task)) :
    (st.step cipher schemas material keys (.populate task)).Valid cipher schemas material keys
      all := by
  rw [Shared.step]
  cases hTask : st.selects[task]? with
  | none => exact h
  | some select =>
    obtain ⟨snapshot, left⟩ := select
    cases left with
    | nil => exact ⟨h.whole, h.cache⟩
    | cons next left =>
      obtain ⟨hIdle, hSame⟩ := hOrderly snapshot next left hTask
      have hFetch := hClean snapshot next left hTask
      -- no update is under way, so the cache is up to date
      have hUpToDate : UpToDate cipher schemas material all st.db st.cache := by
        rcases h.cache with hNone | ⟨other, blocks, hOne, -⟩
        · exact hNone.2
        · rw [hIdle] at hOne
          exact absurd hOne.symm Std.ExtTreeMap.insert_ne_empty
      have hAfter := hUpToDate.coherent.fetch hUpToDate.registered hAll h.whole hFetch next.now
      refine ⟨h.whole, .inl ⟨hIdle, ?_⟩⟩
      dsimp only
      rw [fetch_congr hSame]
      exact ⟨hAfter.1, hAfter.2⟩

theorem Shared.Valid.advance
    (hAll : all.Extends keys) {task : Nat} {batch : Batch} {hashedValues : Material} {prunes : Bool}
    (hOrderly : (TaskStep.advance task batch hashedValues prunes).Orderly st)
    (hClean : TaskStep.Clean cipher schemas material keys st
      (.advance task batch hashedValues prunes)) :
    (st.step cipher schemas material keys (.advance task batch hashedValues prunes)).Valid cipher
      schemas material keys all := by
  have hIdle : st.updates = ∅ := hOrderly
  have hUpToDate : UpToDate cipher schemas material all st.db st.cache := by
    rcases h.cache with hNone | ⟨other, blocks, hOne, -⟩
    · exact hNone.2
    · rw [hIdle] at hOne
      exact absurd hOne.symm Std.ExtTreeMap.insert_ne_empty
  rw [Shared.step]
  by_cases hTask : task ∈ st.updates
  · rw [if_pos hTask]
    exact h
  · rw [if_neg hTask]
    refine ⟨hClean.2.1.whole, .inr ⟨task, _, by dsimp only; rw [hIdle], ?_⟩⟩
    by_cases hPrunes : prunes = true
    · rw [if_pos hPrunes]
      exact ⟨Cache.registered_of_empty rfl, Cache.coherent_of_empty rfl⟩
    · rw [if_neg hPrunes, foldl_runBlock_updateBlocks]
      have hUpdate := hUpToDate.coherent.updateFromProvenWrites hUpToDate.registered hAll hClean.2.2
        (fun _ hWrite => inI64_of_mem_cellWrites hWrite) hClean.2.1
      exact ⟨hUpdate.1, hUpdate.2⟩

theorem Shared.Valid.update (task : Nat) :
    (st.step cipher schemas material keys (.update task)).Valid
      cipher schemas material keys all := by
  rw [Shared.step]
  cases hTask : st.updates[task]? with
  | none => exact h
  | some left =>
    rcases h.cache with hNone | ⟨other, blocks, hOne, hLater⟩
    · rw [hNone.1] at hTask
      simp at hTask
    · rw [hOne] at hTask
      obtain ⟨rfl, rfl⟩ := getElem?_single hTask
      cases blocks with
      | nil =>
        refine ⟨h.whole, .inl ⟨?_, hLater⟩⟩
        rw [hOne]
        apply Std.ExtTreeMap.ext_getElem?
        intro task'
        rw [TreeMaps.getElem?_erase_eq, TreeMaps.getElem?_insert_eq]
        split <;> simp
      | cons block left =>
        refine ⟨h.whole, .inr ⟨other, left, ?_, hLater⟩⟩
        rw [hOne]
        apply Std.ExtTreeMap.ext_getElem?
        intro task'
        rw [TreeMaps.getElem?_insert_eq, TreeMaps.getElem?_insert_eq,
          TreeMaps.getElem?_insert_eq]
        split <;> rfl

theorem Shared.Valid.step (hAll : all.Extends keys) {step : TaskStep} (hOrderly : step.Orderly st)
    (hClean : TaskStep.Clean cipher schemas material keys st step) :
    (st.step cipher schemas material keys step).Valid cipher schemas material keys all := by
  cases step with
  | readCommitment task populations => exact h.readCommitment task populations
  | populate task => exact h.populate hAll hOrderly hClean
  | advance task batch hashedValues prunes => exact h.advance hAll hOrderly hClean
  | update task => exact h.update task

theorem Shared.Valid.run {steps : List TaskStep}
    (hAll : all.Extends keys) (hRun : OrderlyRun cipher schemas material keys st steps) :
    (steps.foldl (Shared.step cipher schemas material keys) st).Valid cipher schemas material keys
      all := by
  induction steps generalizing st with
  | nil => exact h
  | cons step steps ih => exact ih (h.step hAll hRun.1 hRun.2.1) hRun.2.2

end

/-- The tables of an orderly schedule are those of the database. -/
theorem holdsRows_of_orderlyRun {steps : List TaskStep} {raw : Db} (h : HoldsRows raw st.db)
    (hRun : OrderlyRun cipher schemas material keys st steps) :
    HoldsRows (steps.foldl TaskStep.commit raw)
      (steps.foldl (Shared.step cipher schemas material keys) st).db := by
  induction steps generalizing st raw with
  | nil => exact h
  | cons step steps ih =>
    refine ih ?_ hRun.2.2
    cases step with
    | readCommitment | populate | update =>
      unfold Shared.step TaskStep.commit
      dsimp only
      split <;> exact h
    | advance task batch hashedValues prunes =>
      have hIdle : st.updates = ∅ := hRun.1
      have hNew : task ∉ st.updates := by
        rw [hIdle]
        exact Std.ExtTreeMap.not_mem_empty
      unfold Shared.step TaskStep.commit
      dsimp only
      rw [if_neg hNew]
      exact h.applyBatch hRun.2.1.1

/-- **After an orderly schedule, once all tasks have ended, a cache hit returns the
rows of the database that the current commitment commits to.** -/
theorem tryQuery_serves_of_orderlyRun {steps : List TaskStep} {raw : Db} (hAll : all.Extends keys)
    (hCache : st.cache.tables = ∅) (hRows : HoldsRows raw st.db) (hTasks : st.Quiescent)
    (hWhole : st.db.Whole schemas)
    (hRun : OrderlyRun cipher schemas material keys st steps)
    (hQuiescent : (steps.foldl (Shared.step cipher schemas material keys) st).Quiescent)
    (hRead : CanRead cipher schemas material keys
      (steps.foldl (Shared.step cipher schemas material keys) st).db)
    {now : Nat} {table : String} {whereClauses : List (String × Int)} {idLookups : List Int}
    {rows : List RowObject}
    (hHit : ((steps.foldl (Shared.step cipher schemas material keys) st).cache.tryQuery now table
      whereClauses idLookups).1 = some rows) :
    HoldsRows (steps.foldl TaskStep.commit raw)
        (steps.foldl (Shared.step cipher schemas material keys) st).db ∧
      Serves (clientRow cipher schemas material keys
          (steps.foldl (Shared.step cipher schemas material keys) st).db table)
        whereClauses idLookups rows := by
  refine ⟨holdsRows_of_orderlyRun hRows hRun, ?_⟩
  have hStart : st.Valid cipher schemas material keys all :=
    ⟨hWhole, .inl ⟨hTasks.2, Cache.registered_of_empty hCache, Cache.coherent_of_empty hCache⟩⟩
  have hFinal := hStart.run hAll hRun
  generalize steps.foldl (Shared.step cipher schemas material keys) st = final at *
  have hUpToDate : UpToDate cipher schemas material all final.db final.cache := by
    rcases hFinal.cache with hNone | ⟨task, blocks, hOne, -⟩
    · exact hNone.2
    · rw [hQuiescent.2] at hOne
      exact absurd hOne.symm Std.ExtTreeMap.insert_ne_empty
  rw [clientRow_eq_plainTruth hAll hRead]
  exact hUpToDate.coherent.tryQuery_serves hUpToDate.registered hFinal.whole hHit

end Invariant

/-! ## A select that is overtaken -/

section Samples

/-- The client with all keys, before its first task. -/
def idleClient : Shared where
  db := newClient.db
  cache := newClient.cache
  selects := ∅
  updates := ∅

def wholeNotes : Population := { now := 0, table := "notes", region := .whole }

/-- A select of all notes, then a change that adds one. -/
def orderlySchedule : List TaskStep :=
  [.readCommitment 0 [wholeNotes], .populate 0, .populate 0,
    .advance 1 noteBatch (fun _ => none) false, .update 1, .update 1, .update 1]

/-- The same tasks; the change passes the select while it waits for the server. -/
def overtakenSchedule : List TaskStep :=
  [.readCommitment 0 [wholeNotes],
    .advance 1 noteBatch (fun _ => none) false, .update 1, .update 1, .update 1,
    .populate 0, .populate 0]

/-- The client after a schedule. -/
def notesShared (steps : List TaskStep) : Shared :=
  steps.foldl (Shared.step openCipher notesSchema (fun _ => none) everyKey) idleClient

theorem Shared.quiescent_of_isEmpty {st : Shared}
    (h : st.selects.isEmpty = true ∧ st.updates.isEmpty = true) : st.Quiescent :=
  ⟨Std.ExtTreeMap.isEmpty_iff.mp h.1, Std.ExtTreeMap.isEmpty_iff.mp h.2⟩

theorem orderlyRun_orderlySchedule :
    OrderlyRun openCipher notesSchema (fun _ => none) everyKey idleClient orderlySchedule := by
  refine ⟨trivial, trivial, ?_, ?_, ?_, ?_, rfl, ⟨canonicalBatch_notes, cleanWrites_notes, ?_⟩,
    trivial, trivial, trivial,
    trivial, trivial, trivial, trivial⟩
  · intro snapshot next left hTask
    obtain ⟨rfl, hLeft⟩ := SelectTask.mk.inj (Option.some.inj hTask)
    obtain ⟨rfl, rfl⟩ := List.cons.inj hLeft
    exact ⟨rfl, rfl⟩
  · intro snapshot next left hTask
    obtain ⟨rfl, hLeft⟩ := SelectTask.mk.inj (Option.some.inj hTask)
    obtain ⟨rfl, rfl⟩ := List.cons.inj hLeft
    exact cleanFetch_notes everyKey
  iterate 2
    intro snapshot next left hTask
    cases (SelectTask.mk.inj (Option.some.inj hTask)).2
  · intro hash value h
    cases h

theorem orderlySchedule_hit_serves_note :
    let final := orderlySchedule.foldl
      (Shared.step openCipher notesSchema (fun _ => none) everyKey) idleClient
    ∃ rows, (final.cache.tryQuery 1 "notes" [] []).1 = some rows ∧ rows.length = 1 ∧
      Serves (clientRow openCipher notesSchema (fun _ => none) everyKey final.db "notes") [] []
        rows := by
  have hLength : ((notesShared orderlySchedule).cache.tryQuery 1 "notes" [] []).1.map List.length =
      some 1 := by decide +kernel
  obtain ⟨rows, hRows, hOne⟩ := Option.map_eq_some_iff.mp hLength
  have hQuiescent : (notesShared orderlySchedule).Quiescent :=
    Shared.quiescent_of_isEmpty (by decide +kernel)
  have hDb : (notesShared orderlySchedule).db = newClient.db.applyWrites [noteWrite] :=
    congrArg newClient.db.applyWrites cellWrites_noteBatch
  exact ⟨rows, hRows, hOne, (tryQuery_serves_of_orderlyRun (fun _ _ h => h) rfl holdsRows_newClient
    ⟨rfl, rfl⟩ whole_newClient orderlyRun_orderlySchedule hQuiescent (hDb ▸ canRead_notes)
    hRows).2⟩

/-- The rows proven against the old commitment are cached as the whole table. -/
theorem overtakenSelect_hit_misses_note :
    let final := overtakenSchedule.foldl
      (Shared.step openCipher notesSchema (fun _ => none) everyKey) idleClient
    final.Quiescent ∧ CanRead openCipher notesSchema (fun _ => none) everyKey final.db ∧
      (final.cache.tryQuery 1 "notes" [] []).1 = some [] ∧
      ¬ Serves (clientRow openCipher notesSchema (fun _ => none) everyKey final.db "notes") [] []
        [] := by
  have hDb : (notesShared overtakenSchedule).db = newClient.db.applyWrites [noteWrite] :=
    congrArg newClient.db.applyWrites cellWrites_noteBatch
  have hQuiescent : (notesShared overtakenSchedule).Quiescent :=
    Shared.quiescent_of_isEmpty (by decide +kernel)
  have hEmpty : ((notesShared overtakenSchedule).cache.tryQuery 1 "notes" [] []).1.map List.length =
      some 0 := by decide +kernel
  obtain ⟨rows, hRows, hNil⟩ := Option.map_eq_some_iff.mp hEmpty
  rw [List.length_eq_zero_iff.mp hNil] at hRows
  exact ⟨hQuiescent, hDb ▸ canRead_notes, hRows, hDb ▸ not_serves_nil⟩

end Samples

end EncryptedSpaces.Client
