import EncryptedSpaces.Ops.Helpers

/-!
# What the key helpers accept

One lemma per helper of `ops/mod.rs` that reads keys: what its success says
about the keys of the entry, and which keys it derives from them.
-/

namespace EncryptedSpaces.Ops

open Encoding Changelog Lib Lib.Except

/-- `parse_key` reads the key as a column of the table. -/
def IsColumnOf (table : String) (key : Bytes) : Prop :=
  ∃ rowId column, parsedColumn? key = some (table, rowId, column)

theorem check_eq_ok {c : Prop} [Decidable c] {e : ChangelogError} {u : Unit} :
    check c e = .ok u ↔ c := by
  unfold check
  split <;> simp [*]

theorem mapError_eq_ok {α : Type} {x : Except String α} {f : String → ChangelogError} {a : α} :
    mapError x f = .ok a ↔ x = .ok a := by
  cases x <;> simp [mapError]

variable {i : Nat} {opName table : String} {keys : List Bytes} {parsed : List ParsedColumnEntry}
  {kv : KvData} {entries : List KvData}

/-- An indexed traversal returns exactly when every position does. -/
theorem mapIdxExcept_eq_ok {α β : Type} {f : Nat → α → Except ChangelogError β} {l : List α}
    {bs : List β} (h : mapIdxExcept f i l = .ok bs) :
    List.Forall₂ (fun a b => ∃ j, f j a = .ok b) l bs := by
  induction l generalizing i bs with
  | nil =>
    cases h
    exact .nil
  | cons a l ih =>
    obtain ⟨b, hb, h⟩ := bind_eq_ok.mp h
    obtain ⟨bs', hbs, h⟩ := bind_eq_ok.mp h
    cases h
    exact .cons ⟨i, hb⟩ (ih hbs)

/-- What an indexed traversal checked holds of every element. -/
theorem forall_of_mapIdxExcept {α β : Type} {f : Nat → α → Except ChangelogError β} {l : List α}
    {bs : List β} (h : mapIdxExcept f i l = .ok bs) {a : α} (ha : a ∈ l) :
    ∃ j b, f j a = .ok b := by
  have hAll := mapIdxExcept_eq_ok h
  clear h
  induction hAll with
  | nil => cases ha
  | @cons a' b l bs hHead _ ih =>
    rcases List.mem_cons.mp ha with rfl | hMem
    · obtain ⟨j, hj⟩ := hHead
      exact ⟨j, b, hj⟩
    · exact ih hMem

/-! ## One table for all keys -/

theorem sameTableFrom_eq_ok {table' : String} (h : sameTableFrom opName table i keys = .ok table') :
    table' = table ∧ ∀ key ∈ keys, IsColumnOf table key := by
  induction keys generalizing i with
  | nil =>
    cases h
    simp
  | cons key keys ih =>
    unfold sameTableFrom at h
    cases hKey : parsedColumn? key with
    | none => simp [hKey] at h
    | some cell =>
      obtain ⟨t, rowId, column⟩ := cell
      simp only [hKey] at h
      split_ifs at h with hTable
      rw [ne_eq, not_not] at hTable
      subst hTable
      obtain ⟨hEq, hRest⟩ := ih h
      refine ⟨hEq, fun k hk => ?_⟩
      rcases List.mem_cons.mp hk with rfl | hk
      · exact ⟨rowId, column, hKey⟩
      · exact hRest k hk

theorem isColumnOf_of_tableFromColumnKeys (h : tableFromColumnKeys keys opName = .ok table) :
    ∀ key ∈ keys, IsColumnOf table key := by
  cases keys with
  | nil => cases h
  | cons key keys =>
    unfold tableFromColumnKeys at h
    cases hKey : parsedColumn? key with
    | none => simp [hKey] at h
    | some cell =>
      obtain ⟨t, rowId, column⟩ := cell
      simp only [hKey] at h
      obtain ⟨rfl, hRest⟩ := sameTableFrom_eq_ok h
      intro k hk
      rcases List.mem_cons.mp hk with rfl | hk
      · exact ⟨rowId, column, hKey⟩
      · exact hRest k hk

/-- Every parsed entry keeps its kv and the column its key names. -/
theorem parseColumnEntries_eq_ok {entry : ChangelogEntry}
    (h : parseColumnEntries entry opName = .ok parsed) :
    ∀ p ∈ parsed, parseColumnKeyRef p.kv.key = .ok ⟨p.table, p.rowId, p.column⟩ := by
  have hAll := mapIdxExcept_eq_ok h
  clear h
  generalize entry.message.entries = kvs at hAll
  induction hAll with
  | nil => simp
  | @cons kv p kvs ps hHead _ ih =>
    intro q hq
    rcases List.mem_cons.mp hq with rfl | hq
    · obtain ⟨j, hj⟩ := hHead
      obtain ⟨ref, hRef, hRet⟩ := bind_eq_ok.mp hj
      cases hRet
      exact mapError_eq_ok.mp hRef
    · exact ih q hq

theorem validateSameTable_eq_ok (h : validateSameTable parsed opName = .ok table) :
    ∀ p ∈ parsed, p.table = table := by
  cases parsed with
  | nil => cases h
  | cons first rest =>
    obtain ⟨_, hRest, hRet⟩ := bind_eq_ok.mp h
    cases hRet
    intro p hp
    rcases List.mem_cons.mp hp with rfl | hp
    · rfl
    · obtain ⟨_, _, hCheck⟩ := forall_of_mapIdxExcept hRest hp
      exact check_eq_ok.mp hCheck

theorem validateSameTableRow_eq_ok {label : String} {r : String × Int}
    (h : validateSameTableRow parsed opName label = .ok r) :
    ∀ p ∈ parsed, p.table = r.1 ∧ p.rowId = r.2 := by
  cases parsed with
  | nil => cases h
  | cons first rest =>
    obtain ⟨_, hRest, hRet⟩ := bind_eq_ok.mp h
    cases hRet
    intro p hp
    rcases List.mem_cons.mp hp with rfl | hp
    · exact ⟨rfl, rfl⟩
    · obtain ⟨_, _, hCheck⟩ := forall_of_mapIdxExcept hRest hp
      exact check_eq_ok.mp hCheck

/-! ## Derived keys -/

/-- The key stands for the same column as the entry's placeholder, on row
`rowId`. -/
def Rebuilt (rowId : Int) (kv : KvData) (key : Bytes) : Prop :=
  ∃ table column, parsedColumn? kv.key = some (table, 0, column) ∧
    key = columnKey table rowId column

theorem rebuildColumnKeyWithRowId_eq_ok {rowId : Int} {key : Bytes}
    (h : rebuildColumnKeyWithRowId kv.key rowId opName = .ok key) :
    Rebuilt rowId kv key := by
  unfold rebuildColumnKeyWithRowId at h
  cases hKey : parsedColumn? kv.key with
  | none => simp [hKey] at h
  | some cell =>
    obtain ⟨table, placeholder, column⟩ := cell
    simp only [hKey] at h
    split_ifs at h with hZero
    rw [ne_eq, not_not] at hZero
    subst hZero
    cases h
    exact ⟨table, column, hKey, rfl⟩

theorem deriveColumnKeysWithRowId_eq_ok {rowId : Int}
    (h : deriveColumnKeysWithRowId entries rowId opName = .ok keys) :
    List.Forall₂ (Rebuilt rowId) entries keys :=
  (mapM_eq_ok.mp h).imp fun _ _ => rebuildColumnKeyWithRowId_eq_ok

/-- The keys of a chain insert.  A cell's row is the counter plus the number of
cells of the same column before it; `seen` lists the columns of the cells
before the first. -/
inductive ChainKeys (counter : Int) : List String → List KvData → List Bytes → Prop where
  | nil {seen : List String} : ChainKeys counter seen [] []
  | cons {seen : List String} {kv : KvData} {table column : String} {entries : List KvData}
      {keys : List Bytes} (hKey : parsedColumn? kv.key = some (table, 0, column))
      (hRow : InI64 (counter + (seen.count column : Nat)))
      (hRest : ChainKeys counter (column :: seen) entries keys) :
      ChainKeys counter seen (kv :: entries)
        (columnKey table (counter + (seen.count column : Nat)) column :: keys)

theorem chainKeys_eq_ok {numRows : Nat} {counter : Int} {seen seen' : List String}
    (h : chainKeys numRows counter opName entries seen = .ok (keys, seen')) :
    ChainKeys counter seen entries keys := by
  induction entries generalizing seen keys with
  | nil =>
    cases h
    exact .nil
  | cons kv entries ih =>
    unfold chainKeys at h
    cases hKey : parsedColumn? kv.key with
    | none => simp [hKey] at h
    | some cell =>
      obtain ⟨table, placeholder, column⟩ := cell
      simp only [hKey] at h
      split_ifs at h with hCount
      cases hAdd : checkedAdd counter (seen.count column : Nat) with
      | none => simp [hAdd] at h
      | some rowId =>
        simp only [hAdd] at h
        obtain ⟨key, hRebuilt, h⟩ := bind_eq_ok.mp h
        obtain ⟨⟨keys', seen''⟩, hRest, h⟩ := bind_eq_ok.mp h
        cases h
        obtain ⟨table', column', hKey', rfl⟩ := rebuildColumnKeyWithRowId_eq_ok hRebuilt
        obtain ⟨rfl, rfl, rfl⟩ := cell_unique hKey' hKey
        obtain ⟨rfl, hIn⟩ := checkedAdd_eq_some_iff.mp hAdd
        exact .cons hKey' hIn (ih hRest)

theorem deriveColumnKeysForChain_eq_ok {counter : Int} {colCount : Nat}
    (h : deriveColumnKeysForChain entries counter colCount opName = .ok keys) :
    ChainKeys counter [] entries keys := by
  iterate 2 obtain ⟨_, _, h⟩ := bind_eq_ok.mp h
  obtain ⟨⟨keys', seen⟩, hChain, h⟩ := bind_eq_ok.mp h
  obtain ⟨_, _, h⟩ := bind_eq_ok.mp h
  cases h
  exact chainKeys_eq_ok hChain

/-! ## Composite entries -/

/-- The parts of a composite entry are its kvs by table, in order. -/
structure PartitionedCompositeEntry.Partitions (parts : PartitionedCompositeEntry)
    (entries : List KvData) : Prop where
  keyHistory : parts.keyHistory = tableKvs entries keyHistoryTable
  retention : parts.retention = tableKvs entries retentionTable
  users : parts.users = tableKvs entries usersTable

theorem partitionFrom_eq_ok {parts : PartitionedCompositeEntry}
    (h : partitionFrom opName i entries = .ok parts) :
    parts.Partitions entries := by
  induction entries generalizing i parts with
  | nil =>
    cases h
    exact { keyHistory := rfl, retention := rfl, users := rfl }
  | cons kv entries ih =>
    unfold partitionFrom at h
    cases hKey : parsedColumn? kv.key with
    | none => simp [hKey] at h
    | some cell =>
      obtain ⟨table, rowId, column⟩ := cell
      simp only [hKey] at h
      have hCons : ∀ t, tableKvs (kv :: entries) t =
          if table = t then kv :: tableKvs entries t else tableKvs entries t := by
        intro t
        simp [tableKvs, List.filter_cons, hKey]
      split_ifs at h with hUsers hRetention hHistory
      all_goals
        obtain ⟨rest, hRest, h⟩ := bind_eq_ok.mp h
        cases h
        subst table
        have ih' := ih hRest
        constructor <;> rw [hCons]
      · simp [ih'.keyHistory, usersTable, keyHistoryTable]
      · simp [ih'.retention, usersTable, retentionTable]
      · simp [ih'.users]
      · simp [ih'.keyHistory, retentionTable, keyHistoryTable]
      · simp [ih'.retention]
      · simp [ih'.users, usersTable, retentionTable]
      · simp [ih'.keyHistory]
      · simp [ih'.retention, retentionTable, keyHistoryTable]
      · simp [ih'.users, usersTable, keyHistoryTable]

theorem mem_tableKvs :
    kv ∈ tableKvs entries table ↔ kv ∈ entries ∧ IsColumnOf table kv.key := by
  unfold tableKvs IsColumnOf
  rw [List.mem_filter, decide_eq_true_eq, Option.map_eq_some_iff]
  constructor
  · rintro ⟨hMem, ⟨t, rowId, column⟩, hKey, rfl⟩
    exact ⟨hMem, rowId, column, hKey⟩
  · rintro ⟨hMem, rowId, column, hKey⟩
    exact ⟨hMem, (table, rowId, column), hKey, rfl⟩

theorem tableKvs_cons_of_column (h : IsColumnOf table kv.key) :
    tableKvs (kv :: entries) table = kv :: tableKvs entries table := by
  obtain ⟨rowId, column, hKey⟩ := h
  simp [tableKvs, hKey]

theorem tableKvs_cons_of_not (h : ¬ IsColumnOf table kv.key) :
    tableKvs (kv :: entries) table = tableKvs entries table := by
  refine List.filter_cons_of_neg fun hTable => h ?_
  obtain ⟨⟨t, rowId, column⟩, hKey, rfl⟩ := Option.map_eq_some_iff.mp (of_decide_eq_true hTable)
  exact ⟨rowId, column, hKey⟩

theorem tableKvs_eq_self (h : ∀ kv ∈ entries, IsColumnOf table kv.key) :
    tableKvs entries table = entries :=
  List.filter_eq_self.mpr fun kv hkv => (List.mem_filter.mp (mem_tableKvs.mpr ⟨hkv, h kv hkv⟩)).2

end EncryptedSpaces.Ops
