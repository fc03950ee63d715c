import EncryptedSpaces.Ops.BatchEffect

/-!
# Prefix scans

A prefix scan is a range scan up to the successor of the prefix.  It returns the
stored pairs whose keys start with the prefix and nothing else.
-/

namespace EncryptedSpaces.Ops

open Encoding Changelog Lib Lib.Except List

/-! ## The successor of a prefix -/

theorem replicate_le_iff {k : Nat} {key : Bytes} :
    List.replicate k (0xFF : UInt8) ≤ key ↔ List.replicate k (0xFF : UInt8) <+: key := by
  induction k generalizing key with
  | zero => simp
  | succ k ih =>
    rw [replicate_succ]
    cases key with
    | nil =>
      have hNot : ¬ (0xFF :: replicate k (0xFF : UInt8)) ≤ [] := fun h => h (nil_lt_cons _ _)
      simp [hNot]
    | cons b key =>
      have hTop : ¬ (0xFF : UInt8) < b := by
        rw [UInt8.lt_iff_toNat_lt]
        have hByte := b.toNat_lt
        have hMax : (0xFF : UInt8).toNat = 255 := rfl
        omega
      rw [cons_le_cons_iff, cons_prefix_cons, ih]
      simp [hTop]

theorem byte_lt_succ_iff {b last : UInt8} (hLast : last ≠ 0xFF) : b < last + 1 ↔ ¬ last < b := by
  have hMax : last.toNat ≠ 255 := fun h => hLast (UInt8.toNat_inj.mp h)
  have hLt := last.toNat_lt
  have hSucc : (last + 1).toNat = last.toNat + 1 := by
    rw [UInt8.toNat_add, UInt8.toNat_one]
    omega
  rw [UInt8.lt_iff_toNat_lt, UInt8.lt_iff_toNat_lt, hSucc]
  omega

/-- The keys between a prefix and its successor, where `last` is the last byte
that can be raised. -/
theorem between_iff {base key : Bytes} {last : UInt8} {k : Nat} (hLast : last ≠ 0xFF) :
    (base ++ last :: List.replicate k 0xFF ≤ key ∧ key < base ++ [last + 1]) ↔
      base ++ last :: List.replicate k 0xFF <+: key := by
  induction base generalizing key with
  | nil =>
    cases key with
    | nil =>
      have hNot : ¬ (last :: replicate k (0xFF : UInt8)) ≤ [] :=
        fun h => h (nil_lt_cons _ _)
      simp [hNot]
    | cons b key =>
      rw [nil_append, nil_append, cons_le_cons_iff, cons_lt_cons_iff,
        cons_prefix_cons, replicate_le_iff, byte_lt_succ_iff hLast]
      constructor
      · rintro ⟨hLow | hLow, hHigh | ⟨_, hHigh⟩⟩
        · exact absurd hLow hHigh
        · exact absurd hHigh (not_lt_nil key)
        · exact hLow
        · exact hLow
      · rintro ⟨rfl, hRest⟩
        exact ⟨.inr ⟨rfl, hRest⟩, .inl (UInt8.lt_irrefl last)⟩
  | cons b base ih =>
    cases key with
    | nil =>
      have hNot : ¬ (b :: (base ++ last :: replicate k (0xFF : UInt8))) ≤ [] :=
        fun h => h (nil_lt_cons _ _)
      simp [hNot]
    | cons c key =>
      rw [cons_append, cons_append, cons_le_cons_iff, cons_lt_cons_iff,
        cons_prefix_cons, ← ih]
      constructor
      · rintro ⟨hLow | ⟨rfl, hLow⟩, hHigh | ⟨hEq, hHigh⟩⟩
        · exact absurd hLow (UInt8.lt_asymm hHigh)
        · exact absurd hLow (hEq ▸ UInt8.lt_irrefl _)
        · exact absurd hHigh (UInt8.lt_irrefl _)
        · exact ⟨rfl, hLow, hHigh⟩
      · rintro ⟨rfl, hLow, hHigh⟩
        exact ⟨.inr ⟨rfl, hLow⟩, .inr ⟨rfl, hHigh⟩⟩

theorem prefixSuccessor_spec {start key : Bytes} :
    (start ≤ key ∧ ∀ bound ∈ prefixSuccessor start, key < bound) ↔ start <+: key := by
  have hSplit : start.reverse.takeWhile (· = 0xFF) ++ start.reverse.dropWhile (· = 0xFF) =
      start.reverse := takeWhile_append_dropWhile
  have hTops : start.reverse.takeWhile (· = 0xFF) =
      replicate (start.reverse.takeWhile (· = 0xFF)).length 0xFF := by
    refine eq_replicate_iff.mpr ⟨rfl, fun b hb => ?_⟩
    exact of_decide_eq_true (all_eq_true.mp all_takeWhile b hb)
  generalize (start.reverse.takeWhile (· = 0xFF)).length = k at hTops
  have hStart : start = (start.reverse.dropWhile (· = 0xFF)).reverse ++ replicate k 0xFF := by
    rw [hTops] at hSplit
    calc start = start.reverse.reverse := start.reverse_reverse.symm
      _ = (replicate k 0xFF ++ start.reverse.dropWhile (· = 0xFF)).reverse := by rw [hSplit]
      _ = _ := by rw [reverse_append, reverse_replicate]
  unfold prefixSuccessor
  cases hDrop : start.reverse.dropWhile (· = 0xFF) with
  | nil =>
    rw [hDrop] at hStart
    rw [hStart]
    simp [replicate_le_iff]
  | cons last rest =>
    have hLast : last ≠ 0xFF := by
      have hHead := head?_dropWhile_not (fun b : UInt8 => decide (b = 0xFF)) start.reverse
      rw [hDrop] at hHead
      simpa using hHead
    rw [hDrop, reverse_cons, append_assoc, singleton_append] at hStart
    rw [hStart]
    simp only [Option.mem_some_iff, forall_eq', reverse_cons]
    exact between_iff hLast

/-- A prefix scan finds the stored pairs whose keys start with the prefix. -/
theorem mem_read_keyPrefix {db : Db} {start : Bytes} {p : Bytes × Bytes} :
    p ∈ db.read (.keyPrefix start) ↔ db[p.1]? = some p.2 ∧ start <+: p.1 := by
  unfold Db.read Db.collectRange
  rw [mem_filter, decide_eq_true_eq, prefixSuccessor_spec]
  exact and_congr_left fun _ => Std.ExtTreeMap.mem_toList_iff_getElem?_eq_some

/-! ## The range of a prefix proof -/

/-- `prefix_successor_required`.  A prefix without a bound has only `ff` bytes to show. -/
def prefixSuccessorRequired (start : Bytes) : Except String Bytes :=
  match prefixSuccessor start with
  | some bound => .ok bound
  | none =>
    .error ("no lexicographic successor exists for prefix [" ++
      ", ".intercalate (start.map fun _ => "ff") ++
      "] (empty or all-0xFF); storage key-layout invariant is broken")

/-- The end of the range that `prove_prefix` asks for. -/
def endPrefix (start : Bytes) : Bytes :=
  match start.getLast? with
  | some last => if last < 255 then start.dropLast ++ [last + 1] else start ++ [0xFF]
  | none => start

/-- The keys that `prove_prefix` proves. -/
def ProvesKey (start key : Bytes) : Prop := start ≤ key ∧ key < endPrefix start

instance (start key : Bytes) : Decidable (ProvesKey start key) :=
  inferInstanceAs (Decidable (start ≤ key ∧ key < endPrefix start))

/-- Up to the successor there are the keys of the prefix and no others.  The range of the
proof has all of them if and only if the last byte can be raised. -/
theorem provesKey_iff_prefix_iff {start bound : Bytes}
    (hBound : prefixSuccessorRequired start = .ok bound) :
    (∀ key, (start ≤ key ∧ key < bound) ↔ start <+: key) ∧
      ((∀ key, ProvesKey start key ↔ start <+: key) ↔ start.getLast? ≠ some 0xFF) := by
  have hSuccessor : prefixSuccessor start = some bound := by
    unfold prefixSuccessorRequired at hBound
    split at hBound
    · rename_i hSome
      rw [hSome, Except.ok.inj hBound]
    · cases hBound
  constructor
  · intro key
    rw [← prefixSuccessor_spec, hSuccessor]
    simp
  constructor
  · -- the prefix with one more byte is the end of the range itself
    intro hExact hLast
    have hEnd : endPrefix start = start ++ [0xFF] := by
      unfold endPrefix
      rw [hLast]
      rfl
    have hKey := ((hExact (start ++ [0xFF])).mpr (prefix_append _ _)).2
    rw [hEnd] at hKey
    exact List.lt_irrefl _ hKey
  · intro hLast key
    rcases start.eq_nil_or_concat with hNil | ⟨base, last, hStart⟩
    · rw [hNil] at hSuccessor
      cases hSuccessor
    · rw [concat_eq_append] at hStart
      rw [hStart, getLast?_concat] at hLast
      have hByte : last ≠ 0xFF := fun h => hLast (congrArg some h)
      have hRaised : last < 255 := by
        have hMax : last.toNat ≠ 255 := fun h => hByte (UInt8.toNat_inj.mp h)
        have hTop := last.toNat_lt
        have h255 : (255 : UInt8).toNat = 255 := rfl
        rw [UInt8.lt_iff_toNat_lt]
        omega
      have hEnd : endPrefix start = base ++ [last + 1] := by
        unfold endPrefix
        rw [hStart, getLast?_concat]
        dsimp only
        rw [if_pos hRaised, dropLast_concat]
      unfold ProvesKey
      rw [hEnd, hStart]
      exact between_iff (k := 0) hByte

theorem provesKey_one : prefixSuccessorRequired [1] = .ok [2] ∧
    ∀ key, ProvesKey [1] key ↔ [1] <+: key :=
  ⟨rfl, (@provesKey_iff_prefix_iff [1] [2] rfl).2.mpr (by decide)⟩

/-- A key that starts with the prefix, lies below its successor and is not proved. -/
theorem not_provesKey_above_ff : prefixSuccessorRequired [1, 0xFF] = .ok [2] ∧
    [1, 0xFF] <+: [1, 0xFF, 0xFF] ∧ ([1, 0xFF, 0xFF] : Bytes) < [2] ∧
      ¬ ProvesKey [1, 0xFF] [1, 0xFF, 0xFF] := by
  decide

/-! ## Index scans -/

/-- The index of a column lists the row under an integer. -/
def IndexLists (db : Db) (table column : String) (value : Int) (rowId : Int) : Prop :=
  ∃ key stored element, db[key]? = some stored ∧
    indexValuePrefix table column (.int value) <+: key ∧
    parseKey key = .ok (.index table column element rowId)

theorem indexedRowId_eq_ok {table column opName : String} {pair : Bytes × Bytes} {id : Int}
    (h : indexedRowId table column opName pair = .ok id) :
    ∃ element, parseKey pair.1 = .ok (.index table column element id) := by
  obtain ⟨parsed, hParse, h⟩ := bind_eq_ok.mp h
  rw [mapError_eq_ok] at hParse
  cases parsed with
  | index keyTable keyColumn element rowId =>
    obtain ⟨_, hNames, h⟩ := bind_eq_ok.mp h
    iterate 2 obtain ⟨_, _, h⟩ := bind_eq_ok.mp h
    have hId : rowId = id := pure_eq_ok.mp h
    obtain ⟨hTable, hColumn⟩ := check_eq_ok.mp hNames
    rw [hTable, hColumn, hId] at hParse
    exact ⟨element, hParse⟩
  | schema | schemaColumns | schemaNextId | schemaIdMode | row | column | rowPrefix | aclRule
  | onlyViaActions | action | actionMarker => cases h

/-- An index scan finds the listed rows. -/
theorem readIndexedRowIds_lists {codec : RuleCodec} {db : Db} {table column opName : String}
    {value : Int} :
    (readIndexedRowIds table column value opName).Returns (FromDb codec db) fun ids =>
      ∀ id, id ∈ ids ↔ IndexLists db table column value id := by
  refine Prog.returns_query.bind fun results hResults => ?_
  have hRead : db.read (.keyPrefix (indexValuePrefix table column (.int value))) = results :=
    Except.ok.inj hResults
  refine (Prog.returns_lift id).bind fun ids hIds => Prog.returns_ret fun id => ?_
  rw [mem_btreeSetInt]
  constructor
  · intro hMem
    obtain ⟨⟨key, stored⟩, hPair, hId⟩ := exists_of_mem_mapM hIds hMem
    rw [← hRead, mem_read_keyPrefix] at hPair
    obtain ⟨element, hParse⟩ := indexedRowId_eq_ok hId
    exact ⟨key, stored, element, hPair.1, hPair.2, hParse⟩
  · rintro ⟨key, stored, element, hGet, hPrefix, hParse⟩
    have hPair : (key, stored) ∈ results := by
      rw [← hRead, mem_read_keyPrefix]
      exact ⟨hGet, hPrefix⟩
    obtain ⟨id', hMem, hId⟩ := exists_ok_of_mapM hIds hPair
    obtain ⟨element', hParse'⟩ := indexedRowId_eq_ok hId
    rw [hParse, Except.ok.injEq, ParsedKey.index.injEq] at hParse'
    rwa [hParse'.2.2.2]

end EncryptedSpaces.Ops
