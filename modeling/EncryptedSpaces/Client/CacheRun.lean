import EncryptedSpaces.Client.CacheUpdateSteps

/-!
# Fetches, changes and keys in sequence

A fetch asks for the rows of a region of the verified database, decrypts those it
can, and puts them in the cache: all rows of a table, the rows of a value of an
indexed column, a slice of a table that claims nothing, or the rows a join looks
up by their keys.  A join is two fetches.  A verified change moves the database and
updates the cache.  The delivery of a key extends what the client can resolve and
leaves the cache alone.

Rows that do not decrypt are dropped by a fetch and by an update alike, and the
table stays marked as complete.
-/

namespace EncryptedSpaces.Client

open Encoding Changelog Ops Server Lib List

/-! ## Fetches -/

/-- What a fetch asks for. -/
inductive Fetch where
  | whole
  | bucket (column : String) (value : Int)
  | slice (ids : List Int)
  | joined (column : String) (keys : List TupleElement)

/-- The rows of a table, by id. -/
def Tables.listing (db : Tables) (table : String) : List (Int × RawRow) :=
  (db table).toList.filter fun (_, raw) => !raw.isEmpty

theorem Tables.mem_listing {db : Tables} {table : String} {id : Int} {raw : RawRow} :
    (id, raw) ∈ db.listing table ↔ db.rowAt table id = raw ∧ raw.isEmpty = false := by
  unfold Tables.listing Tables.rowAt
  rw [mem_filter, Std.ExtTreeMap.mem_toList_iff_getElem?_eq_some]
  constructor
  · rintro ⟨hRow, hSome⟩
    rw [hRow]
    exact ⟨rfl, by simpa using hSome⟩
  · rintro ⟨hRow, hSome⟩
    refine ⟨?_, by simpa using hSome⟩
    cases hGet : (db table)[id]? with
    | some raw' =>
      rw [hGet] at hRow
      rw [← hRow]
      rfl
    | none =>
      rw [hGet] at hRow
      rw [← hRow] at hSome
      cases hSome

section Fetches

variable {KeyId Key : Type} (cipher : FieldCipher KeyId Key) (schemas : Schemas)
  (material : Material)

/-- The index key of a row. -/
def indexElement (table column : String) (id : Int) (raw : RawRow) : Option TupleElement :=
  if column = "id" then some (.int id)
  else
    ((raw[column]?).bind (decodeCell schemas material table column)).bind fun value =>
      value.toTupleElement.toOption

/-- The row belongs to the region. -/
def Fetch.covers (fetch : Fetch) (table : String) (id : Int) (raw : RawRow) : Bool :=
  match fetch with
  | .whole => true
  | .bucket column value => indexElement schemas material table column id raw = some (.int value)
  | .slice ids => id ∈ ids
  | .joined column keys =>
      ∃ key ∈ keys, indexElement schemas material table column id raw = some key

/-- The rows of the region, as the server proves them; one cell that does not
decode fails the request. -/
def selectRows (db : Tables) (table : String) (fetch : Fetch) : Option (List RowObject) :=
  ((db.listing table).filter fun (id, raw) => Fetch.covers schemas material fetch table id raw).mapM
    fun (id, raw) => reassembleCells schemas material table id raw.toList

/-- `populate_full`, `populate_for_value` or `populate_partial`. -/
def Cache.populate (cache : Cache) (now : Nat) (table : String) (fetch : Fetch)
    (rows : List RowObject) : Cache :=
  let columns := schemas.indexedColumns table
  match fetch with
  | .whole => cache.populateFull now table rows columns
  | .bucket column value => cache.populateForValue now table column value rows columns
  | .slice _ => cache.populatePartial now table rows columns none
  | .joined column _ => cache.populatePartial now table rows columns (some column)

/-- `fetch_and_populate_cache`; a request that fails leaves the cache alone. -/
def Cache.fetch (resolver : Resolver KeyId Key) (db : Tables) (cache : Cache) (now : Nat)
    (table : String) (fetch : Fetch) : Cache :=
  match selectRows schemas material db table fetch with
  | none => cache
  | some rows =>
    cache.populate schemas now table fetch
      (decryptTableRows cipher resolver (schemas.encryptedColumns table) rows)

end Fetches

/-! ## Populations of the cache -/

section Populations

variable {truths : String → Truth} {columns : String → List String} {cache : Cache}
  {schemas : Schemas} {table : String} {rows : List RowObject}

theorem Cache.Registered.insert (h : cache.Registered schemas) (t : TableCache)
    (hTable : (schemas table).isSome = true) :
    ({ cache with tables := cache.tables.insert table t } : Cache).Registered schemas := by
  intro table' hSome
  rw [TreeMaps.getElem?_insert_eq] at hSome
  by_cases hEq : table = table'
  · rw [← hEq]
    exact hTable
  · rw [if_neg hEq] at hSome
    exact h table' hSome

theorem Cache.Registered.evictIfNeeded (h : cache.Registered schemas) :
    cache.evictIfNeeded.Registered schemas := by
  intro table hSome
  obtain ⟨t, hTable⟩ := Option.isSome_iff_exists.mp hSome
  exact h table (by rw [Cache.evictIfNeeded_tables hTable]; rfl)

theorem Cache.Coherent.populateFull (h : cache.Coherent truths columns)
    (hRows : TableCache.Current (truths table) rows)
    (hAll : ∀ id row, truths table id = some row → row ∈ rows)
    (hTruth : (truths table).Identified) (now : Nat) :
    (cache.populateFull now table rows (columns table)).Coherent truths columns := by
  unfold Cache.populateFull
  split
  · exact h.evictIfNeeded.insert (TableCache.coherent_populateFull hRows hAll hTruth now _)
      (TableCache.indexedBy_populateFull _ now rows _) fun _ _ => rfl
  · exact h

theorem Cache.Coherent.populateForValue (h : cache.Coherent truths columns) {column : String}
    {value : Int} (hRows : TableCache.Current (truths table) rows)
    (hAll : ∀ id row, truths table id = some row → RowObject.intField row column = some value →
      row ∈ rows)
    (hTruth : (truths table).Identified) (now : Nat) :
    (cache.populateForValue now table column value rows (columns table)).Coherent
      truths columns := by
  unfold Cache.populateForValue
  split
  · have hTable := h.evictIfNeeded.tableOrNew now table
    exact h.evictIfNeeded.insert (hTable.1.populateForValue hTable.2 hRows hTruth hAll now)
      (hTable.2.populateForValue now column value rows) fun _ _ => rfl
  · exact h

/-- Rows of the database inserted one by one: nothing is lost and all are cached. -/
theorem TableCache.Coherent.foldl_insertRow {truth : Truth} {t : TableCache}
    (h : t.Coherent truth) (hRows : TableCache.Current truth rows) :
    (rows.foldl TableCache.insertRow t).Coherent truth ∧
      ∀ (id : Int) (row : RowObject), (t.rows[id]? = some row ∨ (row ∈ rows ∧ truth id = some row ∧
        row.intField "id" = some id)) →
          (rows.foldl TableCache.insertRow t).rows[id]? = some row := by
  induction rows generalizing t with
  | nil =>
    refine ⟨h, fun id row hRow => ?_⟩
    rcases hRow with hRow | hRow
    · exact hRow
    · cases hRow.1
  | cons first rows ih =>
    obtain ⟨id₀, hId₀, hFirst⟩ := hRows first mem_cons_self
    have hInserted := h.insertCurrent hId₀ hFirst
    obtain ⟨hCoherent, hCached⟩ := ih hInserted fun row hRow =>
      hRows row (mem_cons_of_mem _ hRow)
    have hLookup : ∀ id : Int, (t.insertRow first).rows[id]? =
        if id₀ = id then some first else t.rows[id]? := by
      intro id
      unfold TableCache.insertRow
      rw [hId₀]
      exact TreeMaps.getElem?_insert_eq _ _ _ _
    refine ⟨hCoherent, fun id row hRow => hCached id row ?_⟩
    rw [hLookup]
    by_cases hId : id₀ = id
    · subst hId
      rw [if_pos rfl]
      -- the database has one row with this id
      have hTruth : truth id₀ = some row := by
        rcases hRow with hRow | hRow
        · exact h.current id₀ row hRow
        · exact hRow.2.1
      rw [hFirst] at hTruth
      exact .inl hTruth
    · rw [if_neg hId]
      rcases hRow with hRow | ⟨hMem, hTruth, hField⟩
      · exact .inl hRow
      · rcases mem_cons.mp hMem with rfl | hMem
        · rw [hId₀, Option.some.injEq] at hField
          exact absurd hField hId
        · exact .inr ⟨hMem, hTruth, hField⟩

theorem TableCache.IndexedBy.foldl_insertRow {columns : List String} {t : TableCache}
    (h : t.IndexedBy columns) (rows : List RowObject) :
    (rows.foldl TableCache.insertRow t).IndexedBy columns := by
  exact foldlRecOn rows _ h fun _ ht row _ => ht.insertRow row

/-- Rows of a join: all rows of every value of `pkCol` that occurs in them. -/
theorem Cache.Coherent.populatePartial (h : cache.Coherent truths columns) {pkCol : Option String}
    (hRows : TableCache.Current (truths table) rows)
    (hAll : ∀ column ∈ pkCol, column ≠ "id" → ∀ fetched ∈ rows, ∀ value,
      RowObject.intField fetched column = some value →
      ∀ id row, truths table id = some row → RowObject.intField row column = some value →
        row ∈ rows)
    (hTruth : (truths table).Identified) (now : Nat) :
    (cache.populatePartial now table rows (columns table) pkCol).Coherent truths columns := by
  unfold Cache.populatePartial
  split
  · have hTable := h.tableOrNew now table
    obtain ⟨hInserted, hCached⟩ := hTable.1.foldl_insertRow hRows
    have hIndexed := hTable.2.foldl_insertRow rows
    have hEvery : ∀ (id : Int) (row : RowObject), row ∈ rows → truths table id = some row →
        (rows.foldl TableCache.insertRow (cache.tableOrNew now table (columns table))).rows[id]? =
          some row :=
      fun id row hMem hRow => hCached id row (.inr ⟨hMem, hRow, hTruth id row hRow⟩)
    cases pkCol with
    | none => exact h.insert hInserted hIndexed fun _ _ => rfl
    | some column =>
      dsimp only
      split_ifs with hColumn
      · -- marking changes no row, so what was cached stays cached
        have hMarked := foldlRecOn (rows.filterMap (RowObject.intField · column))
          (fun t value => TableCache.markComplete t column value)
          (motive := fun t => t.Coherent (truths table) ∧ t.IndexedBy (columns table) ∧
            ∀ (id : Int) (row : RowObject), row ∈ rows → truths table id = some row →
              t.rows[id]? = some row)
          ⟨hInserted, hIndexed, hEvery⟩ fun t ⟨hCoherent, hIndexed, hHas⟩ value hValue => by
            obtain ⟨fetched, hFetched, hField⟩ := mem_filterMap.mp hValue
            have hSameRows : (t.markComplete column value).rows = t.rows := by
              rw [TableCache.markComplete_eq]
            refine ⟨hCoherent.markComplete fun id row hRow hValue => ?_,
              hIndexed.markComplete column value, by rw [hSameRows]; exact hHas⟩
            exact hHas id row (hAll column rfl hColumn fetched hFetched value hField id row hRow
              hValue) hRow
        exact h.insert hMarked.1 hMarked.2.1 fun _ _ => rfl
      · exact h.insert hInserted hIndexed fun _ _ => rfl
  · exact h

theorem Cache.Registered.populate (h : cache.Registered schemas)
    (hTable : (schemas table).isSome = true) (now : Nat) (fetch : Fetch) (rows : List RowObject) :
    (cache.populate schemas now table fetch rows).Registered schemas := by
  cases fetch with
  | whole =>
    show (cache.populateFull _ _ _ _).Registered schemas
    unfold Cache.populateFull
    split
    · exact h.evictIfNeeded.insert _ hTable
    · exact h
  | bucket column value =>
    show (cache.populateForValue _ _ _ _ _ _).Registered schemas
    unfold Cache.populateForValue
    split
    · exact h.evictIfNeeded.insert _ hTable
    · exact h
  | slice _ | joined _ _ =>
    show (cache.populatePartial _ _ _ _ _).Registered schemas
    unfold Cache.populatePartial
    split
    · exact h.insert _ hTable
    · exact h

end Populations

/-! ## A fetch keeps the cache coherent -/

section Coherence

variable {KeyId Key : Type} {cipher : FieldCipher KeyId Key} {all resolver : Resolver KeyId Key}
  {schemas : Schemas} {material : Material} {db : Tables} {table : String}

/-- The plaintext rows of a whole database carry their ids. -/
theorem Tables.Whole.identified (h : db.Whole schemas) (hTable : (schemas table).isSome = true) :
    (plainTruth cipher all schemas material db table).Identified := by
  intro id row hRow
  obtain ⟨spec, hSpec⟩ := Option.isSome_iff_exists.mp hTable
  obtain ⟨hCells, rfl⟩ := plainTruth_eq_some_iff.mp hRow
  exact intField_plainOf (h.getElem?_id hSpec id) (h.inI64 table id hCells)

/-- What a fetch needs: the table has a schema, looked-up columns are plaintext, and
every row of the region decrypts. -/
structure CleanFetch (cipher : FieldCipher KeyId Key) (schemas : Schemas) (material : Material)
    (resolver : Resolver KeyId Key) (db : Tables) (table : String) (fetch : Fetch) : Prop where
  registered : (schemas table).isSome = true
  plaintext : ∀ column, (∃ value, fetch = .bucket column value) ∨
      (∃ keys, fetch = .joined column keys) →
    ∀ encrypted ∈ schemas.encryptedColumns table, encrypted.name ≠ column
  notId : ∀ value, fetch ≠ .bucket "id" value
  readable : ∀ id raw, (id, raw) ∈ db.listing table →
    Fetch.covers schemas material fetch table id raw = true →
    (decryptRow cipher resolver (schemas.encryptedColumns table)
      (decodedRow schemas material table id raw)).isSome = true

theorem reassembleCells_toList {id : Int} {raw : RawRow} {row : RowObject}
    (h : reassembleCells schemas material table id raw.toList = some row) :
    row = decodedRow schemas material table id raw := by
  have hRaw : rawOfCells raw.toList = raw := TreeMaps.insertAll_toList raw
  have hRow := reassembleCells_eq_some (fun _ _ h => h) h
  rw [hRaw] at hRow
  exact hRow

/-- The rows a fetch reads. -/
theorem mem_selectRows {fetch : Fetch} {rows : List RowObject}
    (h : selectRows schemas material db table fetch = some rows) (row : RowObject) :
    row ∈ rows ↔ ∃ id raw, (id, raw) ∈ db.listing table ∧
      Fetch.covers schemas material fetch table id raw = true ∧
      row = decodedRow schemas material table id raw := by
  rw [Lists.mem_of_mapM_eq_some h]
  constructor
  · rintro ⟨⟨id, raw⟩, hMem, hCells⟩
    have hFilter := mem_filter.mp hMem
    exact ⟨id, raw, hFilter.1, hFilter.2, reassembleCells_toList hCells⟩
  · rintro ⟨id, raw, hListed, hCovers, hRow⟩
    have hMem : (id, raw) ∈ (db.listing table).filter fun (id, raw) =>
        Fetch.covers schemas material fetch table id raw := mem_filter.mpr ⟨hListed, hCovers⟩
    -- the traversal succeeded at this row too
    obtain ⟨row', hCells⟩ := Lists.exists_of_mapM_eq_some h hMem
    refine ⟨(id, raw), hMem, ?_⟩
    rw [hCells, hRow, reassembleCells_toList hCells]

/-- The rows a clean fetch puts in the cache are the plaintext rows of the region. -/
theorem CleanFetch.mem_decrypted {fetch : Fetch} {rows : List RowObject}
    (hClean : CleanFetch cipher schemas material resolver db table fetch)
    (hAll : all.Extends resolver) (hSelect : selectRows schemas material db table fetch = some rows)
    (row : RowObject) :
    row ∈ decryptTableRows cipher resolver (schemas.encryptedColumns table) rows ↔
      ∃ id, plainTruth cipher all schemas material db table id = some row ∧
        Fetch.covers schemas material fetch table id (db.rowAt table id) = true := by
  have hRows := mem_selectRows hSelect
  have hReadable : ∀ row ∈ rows,
      (decryptRow cipher resolver (schemas.encryptedColumns table) row).isSome = true := by
    intro row hRow
    obtain ⟨id, raw, hListed, hCovers, hEq⟩ := (hRows row).mp hRow
    rw [hEq]
    exact hClean.readable id raw hListed hCovers
  rw [decryptTableRows_eq_map hAll hReadable, mem_map]
  constructor
  · rintro ⟨decoded, hRow, hPlain⟩
    obtain ⟨id, raw, hListed, hCovers, hEq⟩ := (hRows decoded).mp hRow
    obtain ⟨rfl, hCells⟩ := Tables.mem_listing.mp hListed
    exact ⟨id, plainTruth_eq_some_iff.mpr ⟨hCells, by rw [← hPlain, hEq]; rfl⟩, hCovers⟩
  · rintro ⟨id, hRow, hCovers⟩
    obtain ⟨hCells, rfl⟩ := plainTruth_eq_some_iff.mp hRow
    exact ⟨_, (hRows _).mpr ⟨id, _, Tables.mem_listing.mpr ⟨rfl, hCells⟩, hCovers, rfl⟩, rfl⟩

/-- A plaintext integer field is an index key. -/
theorem indexElement_of_intField {column : String} {id value : Int} {raw : RawRow}
    (hPlain : ∀ encrypted ∈ schemas.encryptedColumns table, encrypted.name ≠ column)
    (hColumn : column ≠ "id") :
    (plainOf cipher all schemas material table id raw).intField column = some value ↔
      indexElement schemas material table column id raw = some (.int value) := by
  unfold RowObject.intField indexElement
  rw [getElem?_plainOf]
  simp only [if_neg hColumn]
  cases raw[column]? with
  | none => simp
  | some bytes =>
    simp only [Option.bind_some, plainField_of_plaintext hPlain]
    cases decodeCell schemas material table column bytes with
    | none => simp [Value.asI64]
    | some decoded =>
      rw [Option.getD_some, Option.bind_some, ← Value.toTupleElement_eq_int_iff]
      cases decoded.toTupleElement <;> simp [Except.toOption]

/-- **A clean fetch keeps the cache coherent.** -/
theorem Cache.Coherent.fetch {cache : Cache} {fetch : Fetch}
    (h : cache.Coherent (plainTruth cipher all schemas material db) schemas.indexedColumns)
    (hRegistered : cache.Registered schemas) (hAll : all.Extends resolver)
    (hWhole : db.Whole schemas)
    (hClean : CleanFetch cipher schemas material resolver db table fetch) (now : Nat) :
    let after := cache.fetch cipher schemas material resolver db now table fetch
    after.Registered schemas ∧
      after.Coherent (plainTruth cipher all schemas material db) schemas.indexedColumns := by
  have hTruth : (plainTruth cipher all schemas material db table).Identified :=
    hWhole.identified hClean.registered
  unfold Cache.fetch
  cases hSelect : selectRows schemas material db table fetch with
  | none => exact ⟨hRegistered, h⟩
  | some selected =>
    have hMem := fun row => hClean.mem_decrypted hAll hSelect row
    refine ⟨hRegistered.populate hClean.registered now fetch _, ?_⟩
    have hCurrent : TableCache.Current (plainTruth cipher all schemas material db table)
        (decryptTableRows cipher resolver (schemas.encryptedColumns table) selected) := by
      intro row hRow
      obtain ⟨id, hTruthRow, -⟩ := (hMem row).mp hRow
      exact ⟨id, hTruth id row hTruthRow, hTruthRow⟩
    cases fetch with
    | whole =>
      apply h.populateFull hCurrent _ hTruth now
      intro id row hRow
      exact (hMem row).mpr ⟨id, hRow, rfl⟩
    | bucket column value =>
      have hPlain := hClean.plaintext column (.inl ⟨value, rfl⟩)
      have hNotId : column ≠ "id" := by
        rintro rfl
        exact hClean.notId value rfl
      apply h.populateForValue hCurrent _ hTruth now
      intro id row hRow hField
      rw [(plainTruth_eq_some_iff.mp hRow).2, indexElement_of_intField hPlain hNotId] at hField
      exact (hMem row).mpr ⟨id, hRow, decide_eq_true hField⟩
    | slice ids =>
      apply h.populatePartial hCurrent _ hTruth now
      intro column hColumn
      cases hColumn
    | joined pk keys =>
      have hPlain := hClean.plaintext pk (.inr ⟨keys, rfl⟩)
      apply h.populatePartial hCurrent _ hTruth now
      intro column hColumn hNotId fetched hFetched value hField id row hRow hValue
      obtain rfl : pk = column := Option.some.inj hColumn
      -- the key of the fetched row is one of those looked up
      obtain ⟨id', hFetchedRow, hCovers⟩ := (hMem fetched).mp hFetched
      obtain ⟨key, hKey, hElement⟩ := of_decide_eq_true hCovers
      rw [(plainTruth_eq_some_iff.mp hFetchedRow).2, indexElement_of_intField hPlain hNotId,
        hElement, Option.some.injEq] at hField
      rw [(plainTruth_eq_some_iff.mp hRow).2, indexElement_of_intField hPlain hNotId] at hValue
      exact (hMem row).mpr ⟨id, hRow, decide_eq_true ⟨key, hKey, by rw [hField]; exact hValue⟩⟩

end Coherence

/-! ## Runs -/

/-- The verified database, the cache over it and the keys the client can resolve. -/
structure CacheState (KeyId Key : Type) where
  db : Tables
  cache : Cache
  keys : Resolver KeyId Key

/-- The steps of a sequential client. -/
inductive CacheEvent (KeyId Key : Type) where
  /-- The server is asked for a region. -/
  | fetch (now : Nat) (table : String) (region : Fetch)
  /-- The cache is asked. -/
  | lookup (now : Nat) (table : String) (whereClauses : List (String × Int)) (idLookups : List Int)
  /-- A change with the hashed values it carries was verified. -/
  | change (batch : Batch) (hashedValues : Material)
  /-- A rekey delivery was processed. -/
  | deliver (keys : Resolver KeyId Key)
  | clear

section Runs

variable {KeyId Key : Type} (cipher : FieldCipher KeyId Key) (schemas : Schemas)
  (material : Material)

def CacheState.step (st : CacheState KeyId Key) : CacheEvent KeyId Key → CacheState KeyId Key
  | .fetch now table region =>
    { st with cache := st.cache.fetch cipher schemas material st.keys st.db now table region }
  | .lookup now table whereClauses idLookups =>
    { st with cache := (st.cache.tryQuery now table whereClauses idLookups).2 }
  | .change batch hashedValues =>
    { st with
      db := st.db.applyWrites (cellWrites batch)
      cache := st.cache.updateFromProvenWrites cipher schemas st.keys hashedValues
        (cellWrites batch) }
  | .deliver keys => { st with keys }
  | .clear => { st with cache := st.cache.clearAll }

/-- What cryptography gives: an id names one key and a hash one value. -/
def CacheEvent.Consistent (all : Resolver KeyId Key) : CacheEvent KeyId Key → Prop
  | .change _ hashedValues => ∀ hash value, hashedValues hash = some value →
      material hash = some value
  | .deliver keys => all.Extends keys
  | _ => True

/-- Every row that a step reads decrypts at that time, keys are canonical and rows stay
whole. -/
def CacheEvent.Clean (st : CacheState KeyId Key) : CacheEvent KeyId Key → Prop
  | .fetch _ table region => CleanFetch cipher schemas material st.keys st.db table region
  | .change batch _ =>
    CanonicalBatch batch ∧ CleanWrites cipher schemas material st.keys st.db (cellWrites batch)
  | _ => True

/-- All steps of a run are clean. -/
def CleanRun : CacheState KeyId Key → List (CacheEvent KeyId Key) → Prop
  | _, [] => True
  | st, event :: events =>
    event.Clean cipher schemas material st ∧ CleanRun (st.step cipher schemas material event) events

/-- The database under the verified root. -/
def CacheEvent.commit (raw : Db) : CacheEvent KeyId Key → Db
  | .change batch _ => raw.applyBatch batch
  | _ => raw

/-- The row as the client reads it with the keys it has. -/
def clientRow (keys : Resolver KeyId Key) (db : Tables) (table : String) : Truth := fun id =>
  if (db.rowAt table id).isEmpty then none
  else (reassembleCells schemas material table id (db.rowAt table id).toList).bind
    (decryptRow cipher keys (schemas.encryptedColumns table))

/-- The client can resolve all keys in use. -/
def CanRead (keys : Resolver KeyId Key) (db : Tables) : Prop :=
  ∀ table id, (db.rowAt table id).isEmpty = false →
    (clientRow cipher schemas material keys db table id).isSome = true

variable {cipher schemas material} {all : Resolver KeyId Key}

/-- What every clean run keeps. -/
structure CacheState.Valid (cipher : FieldCipher KeyId Key) (schemas : Schemas)
    (material : Material) (all : Resolver KeyId Key) (st : CacheState KeyId Key) : Prop where
  keys : all.Extends st.keys
  whole : st.db.Whole schemas
  registered : st.cache.Registered schemas
  coherent : st.cache.Coherent (plainTruth cipher all schemas material st.db) schemas.indexedColumns

theorem inI64_of_mem_cellWrites {batch : Batch} {write : CellWrite} (h : write ∈ cellWrites batch) :
    InI64 write.rowId := by
  obtain ⟨op, -, hParsed⟩ := mem_filterMap.mp h
  obtain ⟨⟨table, rowId, column⟩, hKey, rfl⟩ := Option.map_eq_some_iff.mp hParsed
  exact inI64_of_parseKey (parsedColumn?_eq_some_iff.mp hKey)

/-- A lookup only notes when the table was used. -/
theorem Cache.Coherent.tryQuery {truths : String → Truth} {columns : String → List String}
    {cache : Cache} (h : cache.Coherent truths columns) (hRegistered : cache.Registered schemas)
    (now : Nat) (table : String) (whereClauses : List (String × Int)) (idLookups : List Int) :
    (cache.tryQuery now table whereClauses idLookups).2.Registered schemas ∧
      (cache.tryQuery now table whereClauses idLookups).2.Coherent truths columns := by
  unfold Cache.tryQuery
  split_ifs with hEnabled
  · cases hTable : cache.tables[table]? with
    | none => exact ⟨hRegistered, h⟩
    | some t =>
      have hCached := h table t hTable
      have hSpec := hRegistered table (by rw [hTable]; rfl)
      refine ⟨hRegistered.insert _ hSpec, h.insert ?_ hCached.2 fun _ _ => rfl⟩
      exact ⟨⟨hCached.1.current, hCached.1.indexed⟩, hCached.1.whole, hCached.1.buckets⟩
  · exact ⟨hRegistered, h⟩

theorem CacheState.Valid.step {st : CacheState KeyId Key} {event : CacheEvent KeyId Key}
    (h : st.Valid cipher schemas material all) (hConsistent : event.Consistent material all)
    (hClean : event.Clean cipher schemas material st) :
    (st.step cipher schemas material event).Valid cipher schemas material all := by
  cases event with
  | fetch now table region =>
    have hFetch := h.coherent.fetch h.registered h.keys h.whole hClean now
    exact ⟨h.keys, h.whole, hFetch.1, hFetch.2⟩
  | lookup now table whereClauses idLookups =>
    have hLookup := h.coherent.tryQuery h.registered now table whereClauses idLookups
    exact ⟨h.keys, h.whole, hLookup.1, hLookup.2⟩
  | change batch hashedValues =>
    have hUpdate := h.coherent.updateFromProvenWrites h.registered h.keys hConsistent
      (fun _ hWrite => inI64_of_mem_cellWrites hWrite) hClean.2
    exact ⟨h.keys, hClean.2.whole, hUpdate.1, hUpdate.2⟩
  | deliver keys => exact ⟨hConsistent, h.whole, h.registered, h.coherent⟩
  | clear => exact ⟨h.keys, h.whole, Cache.registered_of_empty rfl, Cache.coherent_of_empty rfl⟩

theorem CacheState.Valid.run {st : CacheState KeyId Key} {events : List (CacheEvent KeyId Key)}
    (h : st.Valid cipher schemas material all)
    (hConsistent : ∀ event ∈ events, event.Consistent material all)
    (hClean : CleanRun cipher schemas material st events) :
    (events.foldl (CacheState.step cipher schemas material) st).Valid
      cipher schemas material all := by
  induction events generalizing st with
  | nil => exact h
  | cons event events ih =>
    have hFirst := h.step (hConsistent event mem_cons_self) hClean.1
    exact ih hFirst (fun event hEvent => hConsistent event (mem_cons_of_mem _ hEvent)) hClean.2

/-- With all keys in use the client reads the plaintext rows. -/
theorem clientRow_eq_plainTruth {keys : Resolver KeyId Key} {db : Tables}
    (hKeys : all.Extends keys) (hRead : CanRead cipher schemas material keys db) (table : String) :
    clientRow cipher schemas material keys db table =
      plainTruth cipher all schemas material db table := by
  funext id
  by_cases hEmpty : (db.rowAt table id).isEmpty = true
  · unfold clientRow plainTruth
    rw [if_pos hEmpty, if_pos hEmpty]
  · have hSome := hRead table id (by simpa using hEmpty)
    obtain ⟨row, hRow⟩ := Option.isSome_iff_exists.mp hSome
    rw [hRow]
    unfold clientRow at hRow
    unfold plainTruth plainOf
    rw [if_neg hEmpty] at hRow ⊢
    obtain ⟨decoded, hDecoded, hPlain⟩ := Option.bind_eq_some_iff.mp hRow
    rw [decryptRow_eq_some hKeys hPlain, reassembleCells_toList hDecoded]

/-- A hit on a coherent cache tells the truth. -/
theorem Cache.Coherent.tryQuery_serves {cache : Cache} {db : Tables}
    (h : cache.Coherent (plainTruth cipher all schemas material db) schemas.indexedColumns)
    (hRegistered : cache.Registered schemas) (hWhole : db.Whole schemas) {now : Nat}
    {table : String} {whereClauses : List (String × Int)} {idLookups : List Int}
    {rows : List RowObject}
    (hHit : (cache.tryQuery now table whereClauses idLookups).1 = some rows) :
    Serves (plainTruth cipher all schemas material db table) whereClauses idLookups rows := by
  unfold Cache.tryQuery at hHit
  split_ifs at hHit with hEnabled
  cases hTable : cache.tables[table]? with
  | none =>
    rw [hTable] at hHit
    cases hHit
  | some t =>
    rw [hTable] at hHit
    have hSpec := hRegistered table (by rw [hTable]; rfl)
    exact (h table t hTable).1.serves (hWhole.identified hSpec) hHit

/-- The tables of a clean run are those of the database. -/
theorem holdsRows_of_cleanRun {st : CacheState KeyId Key} {events : List (CacheEvent KeyId Key)}
    {raw : Db} (h : HoldsRows raw st.db) (hClean : CleanRun cipher schemas material st events) :
    HoldsRows (events.foldl CacheEvent.commit raw)
      (events.foldl (CacheState.step cipher schemas material) st).db := by
  induction events generalizing st raw with
  | nil => exact h
  | cons event events ih =>
    refine ih ?_ hClean.2
    cases event with
    | change batch hashedValues => exact h.applyBatch hClean.1.1
    | fetch | lookup | deliver | clear => exact h

/-- **After a clean run, once the client can read every row, a cache hit returns the
rows of the region it was asked for, as they are in the database.** -/
theorem tryQuery_serves_of_cleanRun {st : CacheState KeyId Key} {raw : Db}
    {events : List (CacheEvent KeyId Key)} (hCache : st.cache.tables = ∅)
    (hRows : HoldsRows raw st.db) (hWhole : st.db.Whole schemas) (hKeys : all.Extends st.keys)
    (hConsistent : ∀ event ∈ events, event.Consistent material all)
    (hClean : CleanRun cipher schemas material st events)
    (hRead : CanRead cipher schemas material
      (events.foldl (CacheState.step cipher schemas material) st).keys
      (events.foldl (CacheState.step cipher schemas material) st).db)
    {now : Nat} {table : String} {whereClauses : List (String × Int)} {idLookups : List Int}
    {rows : List RowObject}
    (hHit : ((events.foldl (CacheState.step cipher schemas material) st).cache.tryQuery now table
      whereClauses idLookups).1 = some rows) :
    HoldsRows (events.foldl CacheEvent.commit raw)
        (events.foldl (CacheState.step cipher schemas material) st).db ∧
      Serves (clientRow cipher schemas material
          (events.foldl (CacheState.step cipher schemas material) st).keys
          (events.foldl (CacheState.step cipher schemas material) st).db table)
        whereClauses idLookups rows := by
  refine ⟨holdsRows_of_cleanRun hRows hClean, ?_⟩
  have hStart : st.Valid cipher schemas material all :=
    ⟨hKeys, hWhole, Cache.registered_of_empty hCache, Cache.coherent_of_empty hCache⟩
  have hFinal := hStart.run hConsistent hClean
  generalize events.foldl (CacheState.step cipher schemas material) st = final at *
  rw [clientRow_eq_plainTruth hFinal.keys hRead]
  exact hFinal.coherent.tryQuery_serves hFinal.registered hFinal.whole hHit

end Runs

/-! ## A key that comes late -/

section Samples

/-- A cipher for the samples: the first byte names the key, the others are the text. -/
def openCipher : FieldCipher UInt8 Unit where
  ciphertextKeyId encrypted := encrypted.head?
  decryptField encrypted _ := some encrypted.tail

/-- One table with one encrypted column. -/
def notesSchema : Schemas := fun table =>
  if table = "notes" then
    some { columns := [
      { name := "id", columnType := .integer, plaintext := true },
      { name := "title", columnType := .string, plaintext := false }] }
  else none

/-- Nothing is stored, cached or known. -/
def newClient : CacheState UInt8 Unit where
  db := fun _ => ∅
  cache := { tables := ∅, maxTables := 10, enabled := true }
  keys := fun _ => none

/-- The title `"hi"` under key 7. -/
def noteCell : Bytes := stringToValueBytes (encodeBase64 [7, 104, 105])

def noteBatch : Batch := [.put (columnKey "notes" 1 "title") noteCell]

def noteWrite : CellWrite :=
  { table := "notes", rowId := 1, column := "title", value := some noteCell }

/-- The client after some events. -/
def notesClient (events : List (CacheEvent UInt8 Unit)) : CacheState UInt8 Unit :=
  events.foldl (CacheState.step openCipher notesSchema fun _ => none) newClient

/-- All keys there are. -/
def everyKey : Resolver UInt8 Unit := fun _ => some ()

theorem cellWrites_noteBatch : cellWrites noteBatch = [noteWrite] := by decide +kernel

/-- The note is the only row. -/
theorem eq_note_of_rowAt {table : String} {id : Int}
    (h : ((newClient.db.applyWrites [noteWrite]).rowAt table id).isEmpty = false) :
    "notes" = table ∧ 1 = id := by
  change ((newClient.db.write noteWrite).rowAt table id).isEmpty = false at h
  rw [Tables.rowAt_write] at h
  split at h
  · assumption
  · cases h

/-- The client reads the note once it has the key. -/
theorem canRead_notes : CanRead openCipher notesSchema (fun _ => none) everyKey
    (newClient.db.applyWrites [noteWrite]) := by
  intro table id hSome
  obtain ⟨rfl, rfl⟩ := eq_note_of_rowAt hSome
  decide +kernel

/-- The key arrives, the table is fetched, a note arrives. -/
def earlyKeyRun : List (CacheEvent UInt8 Unit) :=
  [.deliver everyKey, .fetch 0 "notes" .whole, .change noteBatch (fun _ => none)]

theorem notesSchema_eq_some {table : String} {spec : TableSpec}
    (h : notesSchema table = some spec) :
    table = "notes" ∧ spec.nonIdColumns = ["title"] := by
  unfold notesSchema at h
  split at h
  · rename_i hTable
    obtain rfl := Option.some.inj h
    exact ⟨hTable, by decide⟩
  · cases h

theorem whole_notes : (newClient.db.applyWrites [noteWrite]).Whole notesSchema := by
  constructor
  · intro table spec hSpec id hSome column
    obtain ⟨rfl, rfl⟩ := eq_note_of_rowAt hSome
    have hRow : (newClient.db.applyWrites [noteWrite]).rowAt "notes" 1 =
        (∅ : RawRow).insert "title" noteCell := Tables.rowAt_write _ _ _ _
    rw [(notesSchema_eq_some hSpec).2, hRow, Std.ExtTreeMap.mem_insert]
    simp only [compare_eq_iff_eq, Std.ExtTreeMap.not_mem_empty, or_false, mem_singleton]
    exact eq_comm
  · intro table id hSome
    rw [← (eq_note_of_rowAt hSome).2]
    decide

theorem cleanFetch_notes (resolver : Resolver UInt8 Unit) :
    CleanFetch openCipher notesSchema (fun _ => none) resolver newClient.db "notes" .whole := by
  refine ⟨rfl, ?_, ?_, ?_⟩
  · rintro column (⟨value, h⟩ | ⟨keys, h⟩)
    · cases h
    · cases h
  · intro value h
    cases h
  · intro id raw hListed
    cases hListed

theorem cleanWrites_notes :
    CleanWrites openCipher notesSchema (fun _ => none) everyKey newClient.db
      (cellWrites noteBatch) := by
  refine ⟨whole_notes, ?_, ?_, ?_⟩
  · intro write hWrite
    rw [mem_singleton.mp hWrite]
    decide
  · intro row hRow
    cases hRow
  · intro table spec id hSpec hKept hPut
    obtain ⟨write, hWrite, ⟨hTable, hId⟩, -⟩ := mem_putRows.mp hPut
    rw [mem_singleton.mp hWrite] at hTable hId
    subst hTable hId
    obtain rfl := Option.some.inj hSpec
    decide +kernel

theorem canonicalBatch_notes : CanonicalBatch noteBatch := by
  intro op hOp table rowId column hParsed
  obtain rfl := mem_singleton.mp hOp
  have hKey : parsedColumn? (columnKey "notes" 1 "title") = some ("notes", 1, "title") :=
    parsedColumn?_columnKey "notes" "title" (by decide)
  obtain ⟨rfl, rfl, rfl⟩ : table = "notes" ∧ rowId = 1 ∧ column = "title" := by
    have hSame := Option.some.inj (hParsed.symm.trans hKey)
    simpa using hSame
  rfl

theorem holdsRows_newClient : HoldsRows ∅ newClient.db where
  canonical key hKey := absurd hKey Std.ExtTreeMap.not_mem_empty
  cell table id column _ := by
    rw [Std.ExtTreeMap.getElem?_empty]
    exact Std.ExtTreeMap.getElem?_empty.symm

theorem whole_newClient : newClient.db.Whole notesSchema := by
  constructor
  · intro table spec hSpec id hSome
    cases hSome
  · intro table id hSome
    cases hSome

/-- No rows are the answer to a lookup in a table with a note. -/
theorem not_serves_nil :
    ¬ Serves (clientRow openCipher notesSchema (fun _ => none) everyKey
      (newClient.db.applyWrites [noteWrite]) "notes") [] [] [] := by
  intro hServes
  have hStored : ((newClient.db.applyWrites [noteWrite]).rowAt "notes" 1).isEmpty = false := by
    decide +kernel
  obtain ⟨note, hNote⟩ := Option.isSome_iff_exists.mp (canRead_notes "notes" 1 hStored)
  have hListed := (hServes note).mpr ⟨⟨1, hNote⟩, rfl⟩
  cases hListed

theorem earlyKey_hit_serves_note :
    let final := earlyKeyRun.foldl
      (CacheState.step openCipher notesSchema fun _ => none) newClient
    ∃ rows, (final.cache.tryQuery 1 "notes" [] []).1 = some rows ∧ rows.length = 1 ∧
      Serves (clientRow openCipher notesSchema (fun _ => none) final.keys final.db "notes") [] []
        rows := by
  have hLength : ((notesClient earlyKeyRun).cache.tryQuery 1 "notes" [] []).1.map length =
      some 1 := by decide +kernel
  obtain ⟨rows, hRows, hOne⟩ := Option.map_eq_some_iff.mp hLength
  have hClean : CleanRun openCipher notesSchema (fun _ => none) newClient earlyKeyRun :=
    ⟨trivial, cleanFetch_notes everyKey, ⟨canonicalBatch_notes, cleanWrites_notes⟩, trivial⟩
  have hConsistent : ∀ event ∈ earlyKeyRun,
      event.Consistent (fun _ => none) everyKey := by
    intro event hEvent
    unfold earlyKeyRun at hEvent
    simp only [mem_cons, not_mem_nil, or_false] at hEvent
    rcases hEvent with rfl | rfl | rfl
    · exact fun _ _ h => h
    · trivial
    · intro hash value h
      cases h
  have hKeys : everyKey.Extends newClient.keys := by
    intro keyId key h
    cases h
  have hDb : (notesClient earlyKeyRun).db = newClient.db.applyWrites [noteWrite] :=
    congrArg newClient.db.applyWrites cellWrites_noteBatch
  exact ⟨rows, hRows, hOne,
    (tryQuery_serves_of_cleanRun rfl holdsRows_newClient whole_newClient hKeys hConsistent hClean
      (hDb ▸ canRead_notes) hRows).2⟩

/-- The table is fetched, a note arrives under an unknown key, the key arrives. -/
def lateKeyRun : List (CacheEvent UInt8 Unit) :=
  [.fetch 0 "notes" .whole, .change noteBatch (fun _ => none), .deliver everyKey]

/-- The note was dropped from the update and the table is still complete. -/
theorem lateKey_hit_misses_note :
    let final := lateKeyRun.foldl
      (CacheState.step openCipher notesSchema fun _ => none) newClient
    CanRead openCipher notesSchema (fun _ => none) final.keys final.db ∧
      (final.cache.tryQuery 1 "notes" [] []).1 = some [] ∧
      ¬ Serves (clientRow openCipher notesSchema (fun _ => none) final.keys final.db "notes") [] []
        [] := by
  have hDb : (notesClient lateKeyRun).db = newClient.db.applyWrites [noteWrite] :=
    congrArg newClient.db.applyWrites cellWrites_noteBatch
  have hEmpty : ((notesClient lateKeyRun).cache.tryQuery 1 "notes" [] []).1.map length =
      some 0 := by decide +kernel
  obtain ⟨rows, hRows, hNil⟩ := Option.map_eq_some_iff.mp hEmpty
  rw [length_eq_zero_iff.mp hNil] at hRows
  exact ⟨hDb ▸ canRead_notes, hRows, hDb ▸ not_serves_nil⟩

end Samples

end EncryptedSpaces.Client
