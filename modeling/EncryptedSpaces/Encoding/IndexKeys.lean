import EncryptedSpaces.Encoding.Canonical

/-!
# Index keys

What `parse_key` reads off an index key, and which keys of the database extend the
prefix of a value, a row or a table: an encoded integer ends where it ends, so the
prefix of one integer is never a prefix of the key of another; a byte string may go on
with a zero byte, and a stored integer may be longer than it has to be.
-/

namespace EncryptedSpaces.Encoding

open Lib Lib.Except List

variable {table column table' column' : String} {value : TupleElement} {rowId i : Int}

theorem encodable_indexTuple (hValue : value.Encodable) (hRow : InI64 rowId) :
    ∀ e ∈ [TupleElement.string tagIndex, .string table, .string column, value, .int rowId],
      e.Encodable := by
  simpa [TupleElement.Encodable] using ⟨hValue, hRow⟩

/-- The parts of an index key are read back. -/
theorem parseKey_indexKey (hValue : value.Encodable) (hIn : InI64 rowId) :
    parseKey (indexKey table column value rowId) =
      .ok (.index table column value.decoded rowId) := by
  have hDecode : decodeTuple (indexKey table column value rowId) =
      .ok [.bytes (utf8 tagIndex), .bytes (utf8 table), .bytes (utf8 column), value.decoded,
        .int rowId] := by
    exact decodeTuple_encodeTuple (encodable_indexTuple hValue hIn)
  rw [parseKey, hDecode]
  simp [parseElements, parseTag, parseIndexElements, elementToString, elementToInt, tagIndex,
    tagRow, tagSchema, bind, Except.bind, pure, Except.pure]

section Parsed

variable {key : Bytes} (h : parseKey key = .ok (.index table column value rowId))
include h

theorem hasFront_of_parseIndex : HasFront key tagIndex table := hasFront_of_parsed h rfl

theorem inI64_of_parseIndex : InI64 rowId := inI64_of_parsed h (by simp [ParsedKey.body])

end Parsed

/-! ## Prefixes -/

theorem encodeBytesValue_append (a b : Bytes) :
    encodeBytesValue (a ++ b) = encodeBytesValue a ++ encodeBytesValue b := by
  induction a with
  | nil => rfl
  | cons c a ih => simp [encodeBytesValue, ih]; split <;> rfl

/-- Escaped bytes that an escaped value with its terminator starts with are a
prefix of the value. -/
theorem prefix_of_encodeBytesValue {data data' rest : Bytes} (hRest : rest.head? ≠ some 0xFF)
    (h : encodeBytesValue data <+: encodeBytesValue data' ++ 0x00 :: rest) : data <+: data' := by
  induction data generalizing data' with
  | nil => exact nil_prefix
  | cons b data ih =>
    cases data' with
    | nil =>
      by_cases hb : b = 0x00
      · cases rest with
        | nil => simp [encodeBytesValue, hb] at h
        | cons c rest =>
          simp [encodeBytesValue, hb] at h
          exact absurd (by rw [head?_cons, h.1]) hRest
      · simp [encodeBytesValue, hb] at h
    | cons c data' =>
      have hHead : b = c := by
        simp only [encodeBytesValue] at h
        split at h <;> split at h <;> exact (cons_prefix_cons.mp h).1
      subst hHead
      refine cons_prefix_cons.mpr ⟨rfl, ih ?_⟩
      by_cases hb : b = 0x00
      · simpa [encodeBytesValue, hb] using h
      · simpa [encodeBytesValue, hb] using h

/-- The byte string `e` goes on with a zero byte where the byte string `f` ends. -/
def TupleElement.Continues (f e : TupleElement) : Prop :=
  ∃ data data', f.decoded = .bytes data ∧ e.decoded = .bytes data' ∧ data ++ [0x00] <+: data'

/-- The encoding of `e` starts with that of `f`. -/
def TupleElement.Starts (f e : TupleElement) : Prop := f.decoded = e.decoded ∨ f.Continues e

/-- What a decoded element starts with: the encoding of its value, unless it is an integer
with leading zero bytes, and byte strings that it continues. -/
theorem Decodes.prefix_iff {f e : TupleElement} {bytes rest : Bytes} (hf : f.Encodable)
    (h : Decodes bytes e rest) : encodeElement f <+: bytes ↔
      f.decoded = e ∧ shortestInt bytes ∨ f.Continues e := by
  rw [← h.encodeElement_iff, ← encodeElement_decoded f]
  constructor
  · rintro ⟨more, hBytes⟩
    by_cases hEnd : ∀ data, f.decoded = .bytes data → more.head? ≠ some 0xFF
    · have hSame := decodes_encodeElement hf hEnd
      rw [← encodeElement_decoded f, hBytes] at hSame
      obtain ⟨hEq, rfl⟩ := hSame.unique h
      exact .inl ⟨hEq, hEq ▸ hBytes⟩
    · -- the terminator of `f` is the first half of an escaped zero byte of `e`
      push Not at hEnd
      obtain ⟨data, hData, hHead⟩ := hEnd
      obtain ⟨more, rfl⟩ := head?_eq_some_iff.mp hHead
      have hDec := h.decodeElement_eq
      rw [← hBytes, hData] at hDec
      obtain ⟨⟨data', rest'⟩, hValue, hEq⟩ := map_eq_ok.mp hDec
      obtain ⟨rfl, -⟩ := Prod.mk.inj hEq
      refine .inr ⟨data, data', hData, rfl, ?_⟩
      obtain ⟨hTail, hNext⟩ := decodeBytesValue_eq_ok_iff.mp hValue
      refine prefix_of_encodeBytesValue hNext ⟨more, ?_⟩
      rw [← hTail, encodeBytesValue_append]
      simp [encodeBytesValue]
  · rintro (⟨hSame, hBytes⟩ | ⟨data, data', hData, hData', more, rfl⟩)
    · rw [hSame, ← hBytes]
      exact prefix_append _ _
    · rw [h.decoded_eq] at hData'
      have hBytes : encodeElement e ++ rest = bytes := by
        subst hData'
        cases h
        rfl
      rw [← hBytes, hData, hData']
      simp only [encodeElement, encodeBytesValue_append, append_assoc, cons_append]
      refine ⟨0xFF :: (encodeBytesValue more ++ 0x00 :: rest), ?_⟩
      simp [encodeBytesValue]

theorem encodeElement_prefix_iff {f e : TupleElement} {rest : Bytes} (hf : f.Encodable)
    (he : e.Encodable) (hRest : rest.head? ≠ some 0xFF) :
    encodeElement f <+: encodeElement e ++ rest ↔ f.Starts e := by
  have h := decodes_encodeElement he fun _ _ => hRest
  have hShort := h.encodeElement_iff.mp (by rw [encodeElement_decoded])
  rw [h.prefix_iff hf, and_iff_left hShort]
  unfold TupleElement.Starts TupleElement.Continues
  rw [h.decoded_eq]

variable {f g e : TupleElement} {fs es : List TupleElement}

theorem encodeTuple_singleton_prefix_iff (hf : f.Encodable) (he : e.Encodable) :
    encodeTuple [f] <+: encodeTuple (e :: es) ↔ f.Starts e := by
  rw [← encodeElement_prefix_iff hf he (head?_encodeTuple es), encodeTuple_cons, encodeTuple_nil,
    append_nil, encodeTuple_cons]

/-- A string before the last element of the shorter tuple has to agree. -/
theorem encodeString_prefix_iff {s s' : String} {rest : Bytes} (hRest : rest.head? ≠ some 0xFF) :
    encodeTuple (.string s :: f :: fs) <+: encodeElement (.string s') ++ rest ↔
      s = s' ∧ encodeTuple (f :: fs) <+: rest := by
  have hString := decodes_encodeElement (e := .string s') trivial fun _ _ => hRest
  constructor
  · rintro ⟨more, h⟩
    have hHead : (encodeTuple (f :: fs) ++ more).head? ≠ some 0xFF := by
      rw [encodeTuple_cons, append_assoc]
      exact head?_encodeElement_append f _
    have hDec := decodes_encodeElement (e := .string s) trivial fun _ _ => hHead
    rw [← append_assoc, ← encodeTuple_cons, h] at hDec
    obtain ⟨hEq, rfl⟩ := hDec.unique hString
    exact ⟨utf8_injective (TupleElement.bytes.inj hEq), prefix_append _ _⟩
  · rintro ⟨rfl, hPrefix⟩
    exact (prefix_append_right_inj _).mpr hPrefix

theorem encodeTuple_string_prefix_iff {s s' : String} :
    encodeTuple (.string s :: f :: fs) <+: encodeTuple (.string s' :: es) ↔
      s = s' ∧ encodeTuple (f :: fs) <+: encodeTuple es :=
  encodeString_prefix_iff (head?_encodeTuple es)

/-- An integer starts itself only. -/
theorem int_starts_iff : (TupleElement.int i).Starts value ↔ value = .int i := by
  constructor
  · rintro (hSame | ⟨_, _, hBytes, _⟩)
    · cases value <;> cases hSame
      rfl
    · cases hBytes
  · rintro rfl
    exact .inl rfl

section Scans

variable {rowId' : Int} {value' : TupleElement}

/-- The index keys that a scan for a value selects. -/
theorem indexValuePrefix_prefix_iff (hValue : value.Encodable) (hValue' : value'.Encodable) :
    indexValuePrefix table column value <+: indexKey table' column' value' rowId ↔
      table = table' ∧ column = column' ∧ value.Starts value' := by
  simp only [indexValuePrefix, indexKey, encodeTuple_string_prefix_iff,
    encodeTuple_singleton_prefix_iff hValue hValue', true_and]

/-- The column keys that a scan of a row selects. -/
theorem rowKey_prefix_iff (hIn : InI64 rowId) (hIn' : InI64 rowId') :
    rowKey table rowId <+: columnKey table' rowId' column ↔ table = table' ∧ rowId = rowId' := by
  rw [rowKey, columnKey, encodeTuple_string_prefix_iff, encodeTuple_string_prefix_iff,
    encodeTuple_singleton_prefix_iff (f := .int rowId) (e := .int rowId') hIn hIn', int_starts_iff,
      TupleElement.int.injEq]
  simp [eq_comm]

/-- What is left of a key after its first `n` elements. -/
def afterElements : Nat → Bytes → Bytes
  | 0, bytes => bytes
  | n + 1, bytes =>
    match decodeElement bytes with
    | .ok (_, rest) => afterElements n rest
    | .error _ => bytes

/-- A decoded string is at the front of the bytes as the encoder writes it. -/
theorem exists_rest_of_string {s : String} {bytes : Bytes}
    (h : decodeTuple bytes = .ok (.bytes (utf8 s) :: es)) :
    ∃ rest, bytes = encodeElement (.string s) ++ rest ∧ rest.head? ≠ some 0xFF ∧
      decodeTuple rest = .ok es ∧ ∀ n, afterElements (n + 1) bytes = afterElements n rest := by
  obtain ⟨rest, hDec, hTail⟩ := decodeTuple_eq_cons.mp h
  have hAfter : ∀ n, afterElements (n + 1) bytes = afterElements n rest := by
    intro n
    rw [afterElements, hDec.decodeElement_eq]
  cases hDec with
  | bytes _ hHead => exact ⟨rest, rfl, hHead, hTail, hAfter⟩

variable {key : Bytes}

/-- The stored index keys that a scan for a value selects. -/
theorem indexValuePrefix_stored_iff (hValue : value.Encodable)
    (h : parseKey key = .ok (.index table' column' value' rowId')) :
    indexValuePrefix table column value <+: key ↔ table = table' ∧ column = column' ∧
      (value.decoded = value'.decoded ∧ shortestInt (afterElements 3 key) ∨
        value.Continues value') := by
  obtain ⟨es, hDecode, _, tail, rfl⟩ := parseKey_eq_ok h
  obtain ⟨r₁, rfl, h₁, hDecode, hAfter₁⟩ := exists_rest_of_string hDecode
  obtain ⟨r₂, rfl, h₂, hDecode, hAfter₂⟩ := exists_rest_of_string hDecode
  obtain ⟨r₃, rfl, h₃, hDecode, hAfter₃⟩ := exists_rest_of_string hDecode
  obtain ⟨r₄, hDec, _⟩ := decodeTuple_eq_cons.mp hDecode
  have hContinues : value.Continues value'.decoded ↔ value.Continues value' := by
    unfold TupleElement.Continues
    rw [hDec.decoded_eq]
  rw [hAfter₁, hAfter₂, hAfter₃, indexValuePrefix, encodeString_prefix_iff h₁,
    encodeString_prefix_iff h₂, encodeString_prefix_iff h₃, encodeTuple_cons, encodeTuple_nil,
    append_nil, hDec.prefix_iff hValue, hContinues]
  exact and_iff_right rfl

/-- The stored column keys that scans of a row and of a table select. -/
theorem rowScans_stored_iff (hIn : InI64 rowId)
    (h : parseKey key = .ok (.column table' rowId' column')) :
    (rowKey table rowId <+: key ↔
      table = table' ∧ rowId = rowId' ∧ shortestInt (afterElements 2 key)) ∧
    (rowPrefix table <+: key ↔ table = table' ∨ utf8 table ++ [0x00] <+: utf8 table') := by
  obtain ⟨es, hDecode, _, tail, rfl⟩ := parseKey_eq_ok h
  obtain ⟨r₁, rfl, h₁, hDecode, hAfter₁⟩ := exists_rest_of_string hDecode
  obtain ⟨r₂, rfl, h₂, hDecode, hAfter₂⟩ := exists_rest_of_string hDecode
  obtain ⟨r₃, hDec, _⟩ := decodeTuple_eq_cons.mp hDecode
  have hTag : tagRow = (ParsedKey.column table' rowId' column').tag := rfl
  constructor
  · have hNot : ¬ (TupleElement.int rowId).Continues (TupleElement.int rowId').decoded :=
      by rintro ⟨_, _, hInt, _⟩; cases hInt
    rw [hAfter₁, hAfter₂, rowKey, encodeString_prefix_iff h₁, encodeString_prefix_iff h₂,
      encodeTuple_cons, encodeTuple_nil, append_nil, and_iff_right hTag,
      hDec.prefix_iff (f := .int rowId) hIn, or_iff_left hNot, decoded_int, decoded_int,
      TupleElement.int.injEq]
    rfl
  · rw [rowPrefix, encodeString_prefix_iff h₁, and_iff_right hTag, encodeTuple_cons,
      encodeTuple_nil, append_nil,
      encodeElement_prefix_iff (f := .string table) (e := .string table') trivial trivial h₂]
    unfold TupleElement.Starts TupleElement.Continues
    simp [Function.Injective.eq_iff @utf8_injective]

/-- **What scans select.**  On a key of the database, a scan for an index value selects
exactly the keys of that value if and only if the stored value is written in its
shortest form and does not continue the value with a zero byte; a scan of a row if
and only if the stored row id is written in its shortest form; a scan of a table if
and only if the stored table does not continue its name with a zero byte. -/
theorem prefix_selects (hValue : value.Encodable) (hIn : InI64 rowId) :
    (∀ key table' column' value' rowId',
      parseKey key = .ok (.index table' column' value' rowId') →
      ((indexValuePrefix table column value <+: key ↔
          table = table' ∧ column = column' ∧ value.decoded = value'.decoded) ↔
        (table = table' → column = column' →
          (value.decoded = value'.decoded → shortestInt (afterElements 3 key)) ∧
            ¬ value.Continues value'))) ∧
    (∀ key table' rowId' column', parseKey key = .ok (.column table' rowId' column') →
      ((rowKey table rowId <+: key ↔ table = table' ∧ rowId = rowId') ↔
        (table = table' → rowId = rowId' → shortestInt (afterElements 2 key))) ∧
      ((rowPrefix table <+: key ↔ table = table') ↔
        ¬ utf8 table ++ [0x00] <+: utf8 table')) := by
  have hOther : ∀ {e : TupleElement}, value.Continues e → value.decoded ≠ e.decoded := by
    rintro e ⟨data, data', hData, hData', hMore⟩ hSame
    rw [hData, hData', TupleElement.bytes.injEq] at hSame
    have hLength := hMore.length_le
    rw [hSame, length_append, length_singleton] at hLength
    omega
  refine ⟨fun key table' column' value' rowId' h => ?_, fun key table' rowId' column' h => ⟨?_, ?_⟩⟩
  · rw [indexValuePrefix_stored_iff hValue h]
    have hApart := @hOther value'
    tauto
  · rw [(rowScans_stored_iff hIn h).1]
    tauto
  · rw [(rowScans_stored_iff hIn h).2]
    have hApart : utf8 table ++ [0x00] <+: utf8 table' → table ≠ table' := by
      rintro hMore rfl
      have hLength := hMore.length_le
      rw [length_append, length_singleton] at hLength
      omega
    tauto

/-- The row of a stored key that is not padded. -/
theorem prefix_selects_row :
    rowKey "docs" 1 <+: columnKey "docs" 1 "title" ↔ "docs" = "docs" ∧ (1 : Int) = 1 :=
  (((@prefix_selects "docs" "title" .null 1 trivial (by decide)).2 _ _ _ _
    (parseKey_columnKey (by decide))).1).mpr fun _ _ => by decide +kernel

/-- The scan for the title `a` also finds the title `a\0b`, the scan of a table also finds
the rows of another one, and the scan of a row misses a padded key of the row. -/
theorem prefix_selects_more :
    indexValuePrefix "docs" "title" (.string "a") <+:
        indexKey "docs" "title" (.string "a\x00b") 1 ∧
      rowPrefix "docs" <+: columnKey "docs\x00old" 1 "title" ∧
      ¬ rowKey "docs" 1 <+: longColumnKey := by
  decide +kernel

end Scans

/-- The prefix of an integer value starts the index keys of that value only. -/
theorem eq_of_indexValuePrefix_prefix (hIn : InI64 i) (hValue : value.Encodable)
    (h : indexValuePrefix table column (.int i) <+: indexKey table' column' value rowId) :
    column = column' ∧ value = .int i := by
  have hScan :=
    (indexValuePrefix_prefix_iff (show (TupleElement.int i).Encodable from hIn) hValue).mp h
  exact ⟨hScan.2.1, int_starts_iff.mp hScan.2.2⟩

theorem indexValuePrefix_prefix_indexKey {i' : Int} (hIn : InI64 i) (hIn' : InI64 i')
    (h : indexValuePrefix table column (.int i) <+: indexKey table' column' (.int i') rowId) :
    column = column' ∧ i = i' := by
  have hEncodable : (TupleElement.int i').Encodable := hIn'
  obtain ⟨hColumn, hValue⟩ := eq_of_indexValuePrefix_prefix hIn hEncodable h
  exact ⟨hColumn, (TupleElement.int.inj hValue).symm⟩

theorem indexValuePrefix_prefix (table column : String) (value : TupleElement) (rowId : Int) :
    indexValuePrefix table column value <+: indexKey table column value rowId := by
  refine ⟨encodeTuple [.int rowId], ?_⟩
  simp [indexValuePrefix, indexKey, encodeTuple]

end EncryptedSpaces.Encoding
