import EncryptedSpaces.Client.State
import EncryptedSpaces.Lib.TreeMaps

/-!
# Reading a list

The rows of a list are linked by their ids in both directions.  `get_all` fetches them in
any order, looks for the row without a predecessor and follows the links from there.  It
counts the rows on its way, and compares every row's link back with the row it comes from.
-/

namespace EncryptedSpaces.Client

open Encoding Lib Lib.Except List

/-! ## Model -/

/-- A fetched row of `_lists`; any column may be missing. -/
structure ListRow where
  id : Option Int
  listNumber : Option Int
  prevId : Option Int
  nextId : Option Int
  value : Option String

/-- The columns of a row that passed the checks.  No row has the id `0`, which stands for the
end of the list in a link. -/
structure CheckedRow where
  id : Int
  prev : Int
  next : Int
  value : String
  id_pos : 0 < id
  deriving DecidableEq

structure ListEntry (T : Type) where
  key : Bytes
  position : Nat
  value : T
  deriving DecidableEq

/-- `serde_json::from_slice`, and the text of a base64 error. -/
structure ValueFormat (T : Type) where
  fromSlice : Bytes → Except String T
  base64Error : String → String

def checkRow (listNumber : Int) (row : ListRow) : Except SdkError CheckedRow := do
  let some id := row.id | throw (.validationError "List row missing id column")
  if hId : id ≤ 0 then
    throw (.validationError s!"List row has invalid id {id} (must be positive)")
  else
    if row.listNumber ≠ some listNumber then
      let found := match row.listNumber with
        | some n => s!"Some({n})"
        | none => "None"
      throw (.validationError s!"List row {id} has list_number {found}, expected {listNumber}")
    let some prev := row.prevId | throw (.validationError s!"List row {id} missing prev_id column")
    if prev < 0 then throw (.validationError s!"List row {id} has negative prev_id {prev}")
    let some next := row.nextId | throw (.validationError s!"List row {id} missing next_id column")
    if next < 0 then throw (.validationError s!"List row {id} has negative next_id {next}")
    let some value := row.value | throw (.validationError s!"List row {id} missing value column")
    return { id, prev, next, value, id_pos := not_le.mp hId }

section Walk

variable {T : Type} (F : ValueFormat T)

/-- The entry of a visited row. -/
def listEntry (id : Int) (position : Nat) (value : String) : Except SdkError (ListEntry T) :=
  match decodeBase64 value with
  | none => .error (.serializationError s!"base64 decode failed: {F.base64Error value}")
  | some plaintext =>
    match F.fromSlice plaintext with
    | .error e => .error (.serializationError s!"Failed to deserialize list value: {e}")
    | .ok value => .ok { key := i64ToBeBytes id, position, value }

/-- The loop; `left` rows may still be visited. -/
def walkList (byId : Std.ExtTreeMap Int CheckedRow compare) :
    Nat → Nat → Int → Int → Except SdkError (List (ListEntry T))
  | 0, _, _, _ => .error (.validationError "List chain integrity error: cycle detected")
  | left + 1, visited, currentId, expectedPrevId => do
    let some row := byId[currentId]?
      | throw (.validationError
          s!"List chain integrity error: row {currentId} not found in fetched set")
    if row.prev ≠ expectedPrevId then
      throw (.validationError (s!"List chain integrity error: row {currentId} has " ++
        s!"prev_id={row.prev} but expected {expectedPrevId}"))
    let entry ← listEntry F currentId visited row.value
    if row.next = 0 then return [entry]
    return entry :: (← walkList byId left (visited + 1) row.next currentId)

/-- `by_id`: the last row of an id stays. -/
def rowsById (rows : List CheckedRow) : Std.ExtTreeMap Int CheckedRow compare :=
  TreeMaps.insertAll ∅ (rows.map fun row => (row.id, row))

/-- `get_all` on the rows that were fetched. -/
def getAll (listNumber : Int) (rows : List ListRow) : Except SdkError (List (ListEntry T)) := do
  if rows.isEmpty then return []
  let checked ← rows.mapM (checkRow listNumber)
  match checked.filter (·.prev = 0) with
  | [] =>
    throw (.validationError
      "List chain integrity error: no head found (no row with prev_id == 0)")
  | [head] =>
    let entries ← walkList F (rowsById checked) rows.length 0 head.id 0
    if entries.length ≠ rows.length then
      throw (.validationError (s!"List chain integrity error: visited {entries.length} rows " ++
        s!"but fetched {rows.length}"))
    return entries
  | _ => throw (.validationError "List chain integrity error: multiple heads found")

end Walk

/-! ## What is read -/

/-- A chain from the row `id` on, which comes after `prev`. -/
def Linked (prev id : Int) : List CheckedRow → Prop
  | [] => False
  | row :: rest => row.id = id ∧ row.prev = prev ∧
      if row.next = 0 then rest = [] else Linked id row.next rest

/-- The rows are a single chain: one row has no predecessor, and the links lead from there to
every row once. -/
structure SingleChain (rows chain : List CheckedRow) : Prop where
  head : ∃ head, rows.filter (·.prev = 0) = [head] ∧ Linked 0 head.id chain
  perm : chain.Perm rows
  nodup : (chain.map CheckedRow.id).Nodup

section Results

variable {T : Type} {F : ValueFormat T} {entries : List (ListEntry T)} {prev id : Int}
  {rows chain : List CheckedRow}

/-- The entries of a chain, numbered from `position` on. -/
def chainEntries (F : ValueFormat T) (position : Nat) (chain : List CheckedRow) :
    Except SdkError (List (ListEntry T)) :=
  (chain.zipIdx position).mapM fun (row, i) => listEntry F row.id i row.value

theorem Linked.prev_mem (h : Linked prev id chain) {row : CheckedRow} (hRow : row ∈ chain) :
    row.prev = prev ∨ row.prev ∈ chain.map CheckedRow.id := by
  induction chain generalizing prev id with
  | nil => cases h
  | cons first rest ih =>
    obtain ⟨rfl, hPrev, hRest⟩ := h
    rcases mem_cons.mp hRow with rfl | hRow
    · exact .inl hPrev
    · split at hRest
      · rw [hRest] at hRow
        cases hRow
      · rcases ih hRest hRow with hSelf | hMem
        · exact .inr (mem_cons.mpr (.inl hSelf))
        · exact .inr (mem_cons_of_mem _ hMem)

/-- No row comes up twice: its predecessor would, and so on back to the start. -/
theorem Linked.nodup {byId : Std.ExtTreeMap Int CheckedRow compare} (h : Linked prev id chain)
    (hFound : ∀ row ∈ chain, byId[row.id]? = some row) (hPrev : prev ∉ chain.map CheckedRow.id) :
    (chain.map CheckedRow.id).Nodup := by
  induction chain generalizing prev id with
  | nil => cases h
  | cons first rest ih =>
    obtain ⟨rfl, hFirst, hRest⟩ := h
    split at hRest
    · rw [hRest]
      exact nodup_singleton _
    · have hNew : first.id ∉ rest.map CheckedRow.id := by
        intro hAgain
        obtain ⟨row, hRow, hId⟩ := mem_map.mp hAgain
        have hSame : row = first := by
          have hLater := hFound row (mem_cons_of_mem _ hRow)
          rw [hId, hFound first mem_cons_self] at hLater
          exact (Option.some.inj hLater).symm
        rw [hSame] at hRow
        apply hPrev
        rw [← hFirst, map_cons, mem_cons]
        exact hRest.prev_mem hRow
      rw [map_cons, nodup_cons]
      exact ⟨hNew, ih hRest (fun row hRow => hFound row (mem_cons_of_mem _ hRow)) hNew⟩

theorem chainEntries_cons {visited : Nat} {row : CheckedRow} {rest : List CheckedRow} :
    chainEntries F visited (row :: rest) = .ok entries ↔
      ∃ entry, listEntry F row.id visited row.value = .ok entry ∧
        ∃ later, chainEntries F (visited + 1) rest = .ok later ∧ entries = entry :: later := by
  unfold chainEntries
  rw [zipIdx_cons, mapM_eq_ok, forall₂_cons_left_iff]
  simp only [mapM_eq_ok, exists_and_left]

/-- The loop returns the entries of a chain of rows that are in the map. -/
theorem walkList_eq_ok {byId : Std.ExtTreeMap Int CheckedRow compare}
    (hIds : ∀ (id : Int) (row : CheckedRow), byId[id]? = some row → row.id = id)
    {left visited : Nat} : walkList F byId left visited id prev = .ok entries ↔
      ∃ chain, Linked prev id chain ∧ (∀ row ∈ chain, byId[row.id]? = some row) ∧
        chain.length ≤ left ∧ chainEntries F visited chain = .ok entries := by
  induction left generalizing visited id prev entries with
  | zero =>
    constructor
    · intro h
      cases h
    · rintro ⟨chain, hLinked, -, hLength, -⟩
      rw [length_eq_zero_iff.mp (Nat.le_zero.mp hLength)] at hLinked
      cases hLinked
  | succ left ih =>
    unfold walkList
    constructor
    · intro h
      cases hRow : byId[id]? with
      | none =>
        rw [hRow] at h
        cases h
      | some row =>
        rw [hRow] at h
        obtain rfl := hIds id row hRow
        dsimp only at h
        by_cases hPrev : row.prev = prev
        swap
        · rw [if_pos hPrev] at h
          cases h
        rw [if_neg (not_not.mpr hPrev)] at h
        obtain ⟨entry, hEntry, h⟩ := bind_eq_ok.mp h
        split_ifs at h with hLast
        · refine ⟨[row], ⟨rfl, hPrev, by rw [if_pos hLast]⟩, by simpa using hRow,
            Nat.succ_le_succ (Nat.zero_le _), chainEntries_cons.mpr ⟨entry, hEntry, [], rfl, ?_⟩⟩
          exact (Except.ok.inj h).symm
        · obtain ⟨later, hLater, h⟩ := bind_eq_ok.mp h
          obtain ⟨chain, hLinked, hFound, hLength, hEntries⟩ := ih.mp hLater
          refine ⟨row :: chain, ⟨rfl, hPrev, by rwa [if_neg hLast]⟩,
            forall_mem_cons.mpr ⟨hRow, hFound⟩, Nat.succ_le_succ hLength,
            chainEntries_cons.mpr ⟨entry, hEntry, later, hEntries, ?_⟩⟩
          exact (Except.ok.inj h).symm
    · rintro ⟨chain, hLinked, hFound, hLength, hEntries⟩
      cases chain with
      | nil => cases hLinked
      | cons row rest =>
        obtain ⟨rfl, hPrev, hRest⟩ := hLinked
        obtain ⟨entry, hEntry, later, hLater, rfl⟩ := chainEntries_cons.mp hEntries
        rw [hFound row mem_cons_self]
        dsimp only
        rw [if_neg (not_not.mpr hPrev)]
        refine bind_eq_ok.mpr ⟨entry, hEntry, ?_⟩
        split_ifs at hRest ⊢ with hLast
        · rw [hRest] at hLater
          rw [← Except.ok.inj hLater]
          rfl
        · refine bind_eq_ok.mpr ⟨later, ih.mpr ⟨rest, hRest, ?_, ?_, hLater⟩, rfl⟩
          · exact fun row hRow => hFound row (mem_cons_of_mem _ hRow)
          · exact Nat.le_of_succ_le_succ hLength

/-- The map has rows that were fetched, each under its id. -/
theorem mem_of_rowsById {row : CheckedRow} (h : (rowsById rows)[id]? = some row) :
    row ∈ rows ∧ row.id = id := by
  unfold rowsById at h
  rw [TreeMaps.getElem?_insertAll, Std.ExtTreeMap.getElem?_empty, Option.or_none] at h
  obtain ⟨row', hRow, hPair⟩ := mem_map.mp (WriteLog.mem_of_lookup_eq_some h)
  cases hPair
  exact ⟨hRow, rfl⟩

/-- Rows with different ids are all in the map. -/
theorem getElem?_rowsById (hNodup : (rows.map CheckedRow.id).Nodup) {row : CheckedRow}
    (hRow : row ∈ rows) : (rowsById rows)[row.id]? = some row := by
  unfold rowsById
  rw [TreeMaps.getElem?_insertAll, Std.ExtTreeMap.getElem?_empty, Option.or_none]
  apply WriteLog.lookup_eq_of_mem_iff
  intro value
  rw [mem_map, Option.some.injEq]
  constructor
  · rintro ⟨other, hOther, hPair⟩
    obtain ⟨hId, rfl⟩ := Prod.mk.inj hPair
    exact inj_on_of_nodup_map hNodup hRow hOther hId.symm
  · rintro rfl
    exact ⟨row, hRow, rfl⟩

/-- `get_all` returns without an entry if no row was fetched.  Otherwise it returns exactly if
the rows pass the checks and are a single chain of values that decode; the entries are those
of the chain, numbered from zero. -/
theorem getAll_eq_ok_iff {listNumber : Int} {fetched : List ListRow} :
    getAll F listNumber fetched = .ok entries ↔
      fetched = [] ∧ entries = [] ∨
      ∃ rows chain, fetched.mapM (checkRow listNumber) = .ok rows ∧ SingleChain rows chain ∧
        chainEntries F 0 chain = .ok entries := by
  by_cases hNone : fetched = []
  · subst hNone
    constructor
    · intro h
      exact .inl ⟨rfl, (Except.ok.inj h).symm⟩
    · rintro (⟨-, rfl⟩ | ⟨rows, chain, hRows, ⟨⟨head, hHead, -⟩, -, -⟩, -⟩)
      · rfl
      · rw [← Except.ok.inj hRows] at hHead
        cases hHead
  have hEmpty : ¬ fetched.isEmpty = true := fun h => hNone (isEmpty_iff.mp h)
  have hFirst : ¬ (fetched = [] ∧ entries = []) := fun h => hNone h.1
  have hIds : ∀ {rows : List CheckedRow} (id : Int) (row : CheckedRow),
      (rowsById rows)[id]? = some row → row.id = id := fun _ _ h => (mem_of_rowsById h).2
  have hCount : ∀ {visited : Nat} {chain : List CheckedRow} {entries : List (ListEntry T)},
      chainEntries F visited chain = .ok entries → entries.length = chain.length := by
    intro visited chain entries h
    rw [← (mapM_eq_ok.mp h).length_eq, length_zipIdx]
  unfold getAll
  rw [if_neg hEmpty, or_iff_right hFirst]
  constructor
  · intro h
    obtain ⟨rows, hRows, h⟩ := bind_eq_ok.mp h
    split at h
    · cases h
    · rename_i head hHead
      obtain ⟨walked, hWalk, h⟩ := bind_eq_ok.mp h
      split_ifs at h with hLength
      · cases h
      · obtain rfl := Except.ok.inj h
        obtain ⟨chain, hLinked, hFound, -, hEntries⟩ := (walkList_eq_ok hIds).mp hWalk
        have hSubset : ∀ row ∈ chain, row ∈ rows :=
          fun row hRow => (mem_of_rowsById (hFound row hRow)).1
        have hNodup : (chain.map CheckedRow.id).Nodup := by
          apply hLinked.nodup hFound
          intro hZero
          obtain ⟨row, hRow, hId⟩ := mem_map.mp hZero
          exact row.id_pos.ne' hId
        have hSame : rows.length ≤ chain.length := by
          rw [← hCount hEntries, not_not.mp hLength, (mapM_eq_ok.mp hRows).length_eq]
        have hPerm := (subperm_of_subset hNodup.of_map hSubset).perm_of_length_le hSame
        exact ⟨rows, chain, hRows, ⟨⟨head, hHead, hLinked⟩, hPerm, hNodup⟩, hEntries⟩
    · cases h
  · rintro ⟨rows, chain, hRows, ⟨⟨head, hHead, hLinked⟩, hPerm, hNodup⟩, hEntries⟩
    have hLength : chain.length = fetched.length := by
      rw [hPerm.length_eq, (mapM_eq_ok.mp hRows).length_eq]
    have hFound : ∀ row ∈ chain, (rowsById rows)[row.id]? = some row := fun row hRow =>
      getElem?_rowsById ((hPerm.map _).nodup_iff.mp hNodup) (hPerm.mem_iff.mp hRow)
    refine bind_eq_ok.mpr ⟨rows, hRows, ?_⟩
    rw [hHead]
    refine bind_eq_ok.mpr ⟨entries, ?_, ?_⟩
    · exact (walkList_eq_ok hIds).mpr ⟨chain, hLinked, hFound, hLength.le, hEntries⟩
    · rw [if_neg (not_not.mpr ((hCount hEntries).trans hLength))]
      rfl

/-- No row was fetched; there is no row without a predecessor. -/
theorem getAll_nil_without_chain : getAll (⟨.ok, fun s => s⟩ : ValueFormat Bytes) 1 [] = .ok [] ∧
    ¬ ∃ chain, SingleChain [] chain := by
  refine ⟨rfl, ?_⟩
  rintro ⟨chain, ⟨⟨head, hHead, -⟩, -, -⟩⟩
  cases hHead

end Results

end EncryptedSpaces.Client
