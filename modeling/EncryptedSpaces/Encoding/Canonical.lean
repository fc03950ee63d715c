import EncryptedSpaces.Encoding.KeyParsing

/-!
# Which keys are canonical

`parse_key` reads more byte strings than the key constructors write: integers
with leading zero bytes, eight-byte integers beyond `i64`, and elements after
those of the key.  Without them a key is the one its constructor writes.
-/

namespace EncryptedSpaces.Encoding

open Lib Lib.Digits Lib.Except

variable {bytes rest payload : Bytes} {e : TupleElement} {es : List TupleElement}
    {i : Int} {n : Nat}

/-! ## Shortest integers -/

/-- An integer at the front is written without leading zero bytes, and fits an `i64`. -/
def shortestInt : Bytes → Bool
  | [] => true
  | code :: rest =>
    if intZeroCode < code ∧ code ≤ posIntEnd then
      let n := (code - intZeroCode).toNat
      256 ^ (n - 1) ≤ ofBytesBE (rest.take n) ∧ ofBytesBE (rest.take n) < 2 ^ 63
    else if negIntStart ≤ code ∧ code < intZeroCode then
      let n := (intZeroCode - code).toNat
      let magnitude := 256 ^ n - 1 - ofBytesBE (rest.take n)
      256 ^ (n - 1) ≤ magnitude ∧ magnitude ≤ 2 ^ 63
    else true

/-- Every integer of the tuple is written so. -/
def shortestInts : Nat → Bytes → Bool
  | 0, _ => true
  | fuel + 1, bytes =>
    match decodeElement bytes with
    | .ok (_, rest) => shortestInt bytes && shortestInts fuel rest
    | .error _ => true

theorem intCode_inj : ∀ (neg neg' : Bool), ∀ n < 9, ∀ n' < 9, 1 ≤ n →
    intCode neg n = intCode neg' n' → neg = neg' ∧ n = n' := by
  decide

/-- A longer number has more base-256 digits. -/
theorem digits_le {m m' n n' : Nat} (hGe : 256 ^ (n - 1) ≤ m) (hLt : m' < 256 ^ n') (h : m ≤ m') :
    n ≤ n' := by
  have hPow := (Nat.pow_lt_pow_iff_right (by decide)).mp ((hGe.trans h).trans_lt hLt)
  omega

theorem encodeInt_eq_iff {neg : Bool} (hn : 1 ≤ n ∧ n ≤ 8) (hLen : payload.length = n)
    (hIn : InI64 i) : encodeInt i = intCode neg n :: payload ↔
      i ≠ 0 ∧ decide (i < 0) = neg ∧ i.natAbs = flipped neg n (ofBytesBE payload) ∧
        256 ^ (n - 1) ≤ i.natAbs := by
  by_cases h0 : i = 0
  · subst h0
    refine ⟨fun h => ?_, fun h => absurd rfl h.1⟩
    obtain rfl : payload = [] := (List.cons.inj h).2.symm
    rw [List.length_nil] at hLen
    omega
  obtain ⟨n', hn', hGe', hLt', hEnc⟩ := encodeInt_of_ne h0 hIn
  rw [hEnc, List.cons.injEq]
  constructor
  · rintro ⟨hCode, rfl⟩
    obtain ⟨hNeg, rfl⟩ := intCode_inj _ _ n' (by omega) n (by omega) hn'.1 hCode
    rw [ofBytesBE_bytesBE_of_lt (flipped_lt hLt'), hNeg, flipped_flipped hLt']
    exact ⟨h0, rfl, rfl, hGe'⟩
  · rintro ⟨_, hNeg, hAbs, hGe⟩
    have hPayload : ofBytesBE payload < 256 ^ n := hLen ▸ ofBytesBE_lt payload
    have hLt : i.natAbs < 256 ^ n := hAbs ▸ flipped_lt hPayload
    obtain rfl := (digits_le hGe hLt' le_rfl).antisymm (digits_le hGe' hLt le_rfl)
    rw [hNeg, hAbs, flipped_flipped hPayload, ← hLen, bytesBE_ofBytesBE]
    exact ⟨rfl, rfl⟩

/-- An accepted element is written as the encoder writes it, long integers
apart. -/
theorem Decodes.encodeElement_iff (h : Decodes bytes e rest) :
    encodeElement e ++ rest = bytes ↔ shortestInt bytes := by
  have hIn := h.encodable
  cases h with
  | null | bytes | zero | float | double => exact ⟨fun _ => rfl, fun _ => rfl⟩
  | bool b => cases b <;> exact ⟨fun _ => rfl, fun _ => rfl⟩
  | @int neg n payload _ hn hLen =>
    obtain ⟨_, _, _, hPos, hNeg, hWidth⟩ := intCode_spec neg n (by omega) hn.1
    have hLow : 0 < 256 ^ (n - 1) := Nat.pow_pos (by decide)
    have hHigh := Nat.pow_le_pow_right (show 0 < 256 by decide) hn.2
    have hPayload : ofBytesBE payload < 256 ^ n := hLen ▸ ofBytesBE_lt payload
    rw [List.append_cancel_right_eq, encodeElement, encodeInt_eq_iff hn hLen hIn, List.cons_append,
      shortestInt, if_congr hPos rfl (if_congr hNeg rfl rfl)]
    cases neg
    · rw [if_neg (by decide)] at hWidth
      simp only [hWidth, List.take_left' hLen, signed, flipped, if_true, if_false,
        Bool.false_eq_true, decide_eq_false_iff_not, decide_eq_true_eq]
      unfold toI64
      split <;> omega
    · rw [if_pos rfl] at hWidth
      simp only [hWidth, List.take_left' hLen, signed, flipped, if_true, if_false,
        Bool.true_eq_false, decide_eq_true_eq]
      generalize 256 ^ n - 1 - ofBytesBE payload = magnitude at *
      unfold toI64
      split_ifs <;> omega

theorem encodeTuple_iff_shortestInts {fuel : Nat} (hFuel : bytes.length ≤ fuel)
    (h : decodeTuple bytes = .ok es) : encodeTuple es = bytes ↔ shortestInts fuel bytes := by
  induction es generalizing bytes fuel with
  | nil =>
    obtain rfl := decodeTuple_eq_nil.mp h
    cases fuel <;> simp [shortestInts, decodeElement]
  | cons e es ih =>
    obtain ⟨rest, hDec, hTail⟩ := decodeTuple_eq_cons.mp h
    have hLt := hDec.length_lt
    cases fuel with
    | zero => omega
    | succ fuel =>
      rw [shortestInts, hDec.decodeElement_eq, Bool.and_eq_true, ← hDec.encodeElement_iff,
        ← ih (by omega) hTail, encodeTuple_cons]
      constructor
      · intro hEq
        have hBack := decodes_encodeElement hDec.encodable fun _ _ => head?_encodeTuple es
        rw [hEq] at hBack
        obtain ⟨_, rfl⟩ := hBack.unique hDec
        exact ⟨hEq, rfl⟩
      · rintro ⟨hFirst, hEq⟩
        rw [hEq, hFirst]

/-! ## Parsed keys -/

/-- A parsed key, written by its constructor. -/
def ParsedKey.encode : ParsedKey → Bytes
  | .schema table => schemaKey table
  | .schemaColumns table => schemaColumnsKey table
  | .schemaNextId table => schemaNextIdKey table
  | .schemaIdMode table => schemaIdModeKey table
  | .row table rowId => rowKey table rowId
  | .column table rowId name => columnKey table rowId name
  | .rowPrefix table => EncryptedSpaces.Encoding.rowPrefix table
  | .index table name value rowId => indexKey table name value rowId
  | .aclRule table op => aclRuleKey table op
  | .onlyViaActions table op => aclOnlyViaActionsKey table op
  | .action primaryTable name => actionStorageKey primaryTable name
  | .actionMarker primaryTable => actionMarkerKey primaryTable

/-- The elements of a key: the tag, then what the kind of the key asks for. -/
def ParsedKey.arity : ParsedKey → Nat
  | .schema _ | .rowPrefix _ => 2
  | .schemaColumns _ | .schemaNextId _ | .schemaIdMode _ | .row .. | .actionMarker _ => 3
  | .column .. | .aclRule .. | .onlyViaActions .. | .action .. => 4
  | .index .. => 5

theorem ParsedKey.length_elements (k : ParsedKey) : k.elements.length = k.arity := by
  cases k <;> rfl

theorem ParsedKey.encode_eq (k : ParsedKey) : k.encode = encodeTuple k.elements := by
  cases k <;> rfl

/-- **Canonical keys.**  An accepted key is the one its constructor writes
exactly when its integers are as short as possible and no element follows. -/
theorem encode_parseKey_iff {k : ParsedKey} (h : parseKey bytes = .ok k) :
    k.encode = bytes ↔ shortestInts bytes.length bytes ∧
      ∃ es, decodeTuple bytes = .ok es ∧ es.length = k.arity := by
  obtain ⟨es, hDecode, _, hPrefix⟩ := parseKey_eq_ok h
  rw [k.encode_eq, ← encodeTuple_map_decoded, ← encodeTuple_iff_shortestInts le_rfl hDecode]
  constructor
  · intro hEq
    have hDecoded : ∀ e ∈ k.elements.map TupleElement.decoded, e.Encodable ∧ e.decoded = e :=
      fun e he => encodable_of_decodeTuple hDecode e (hPrefix.subset he)
    have hBack := decodeTuple_encodeTuple fun e he => (hDecoded e he).1
    rw [hEq, hDecode, List.map_congr_left fun e he => (hDecoded e he).2, List.map_id'] at hBack
    cases hBack
    exact ⟨hEq, _, hDecode, (List.length_map _).trans k.length_elements⟩
  · rintro ⟨hEq, es', hDecode', hLen⟩
    cases hDecode.symm.trans hDecode'
    rw [hPrefix.eq_of_length (by rw [List.length_map, k.length_elements, hLen]), hEq]

theorem encode_parseKey_column :
    (ParsedKey.column "docs" 1 "title").encode = columnKey "docs" 1 "title" ↔
    shortestInts (columnKey "docs" 1 "title").length (columnKey "docs" 1 "title") ∧
      ∃ es, decodeTuple (columnKey "docs" 1 "title") = .ok es ∧ es.length = 4 :=
  encode_parseKey_iff (parseKey_columnKey (by decide))

/-- A column key whose row id has a leading zero byte. -/
def longColumnKey : Bytes :=
  rowPrefix "docs" ++ 0x16 :: 0x00 :: 0x01 :: encodeTuple [.string "title"]

theorem parseKey_longColumnKey :
    parseKey longColumnKey = .ok (.column "docs" 1 "title") ∧
      parseKey (columnKey "docs" 1 "title") = .ok (.column "docs" 1 "title") ∧
      longColumnKey ≠ columnKey "docs" 1 "title" := by
  have hDecode : decodeTuple longColumnKey = .ok [.bytes (utf8 tagRow), .bytes (utf8 "docs"),
      .int 1, .bytes (utf8 "title")] := by
    decide +kernel
  exact ⟨parseKey_of_decodeTuple hDecode, parseKey_columnKey (by decide), by decide +kernel⟩

/-! ## The key constructors -/

/-- The keys that the constructors write. -/
inductive StorageKey where
  | schema (table : String)
  | schemaColumns (table : String)
  | schemaIndexes (table : String)
  | schemaListColumns (table : String)
  | schemaNextId (table : String)
  | schemaIdMode (table : String)
  | schemaNextListNumber
  | listHead (listNumber : Int)
  | listTail (listNumber : Int)
  | listParent (listNumber : Int)
  | column (table : String) (rowId : Int) (name : String)
  | index (table name : String) (value : TupleElement) (rowId : Int)
  | aclRule (table op : String)
  | onlyViaActions (table op : String)
  | actionStorage (primaryTable name : String)
  | actionMarker (primaryTable : String)

def StorageKey.encode : StorageKey → Bytes
  | .schema table => schemaKey table
  | .schemaColumns table => schemaColumnsKey table
  | .schemaIndexes table => schemaIndexesKey table
  | .schemaListColumns table => schemaListColumnsKey table
  | .schemaNextId table => schemaNextIdKey table
  | .schemaIdMode table => schemaIdModeKey table
  | .schemaNextListNumber => schemaNextListNumberKey
  | .listHead listNumber => listHeadKey listNumber
  | .listTail listNumber => listTailKey listNumber
  | .listParent listNumber => listParentKey listNumber
  | .column table rowId name => columnKey table rowId name
  | .index table name value rowId => indexKey table name value rowId
  | .aclRule table op => aclRuleKey table op
  | .onlyViaActions table op => aclOnlyViaActionsKey table op
  | .actionStorage primaryTable name => actionStorageKey primaryTable name
  | .actionMarker primaryTable => actionMarkerKey primaryTable

/-- The integers of a key are `i64`. -/
def StorageKey.Encodable : StorageKey → Prop
  | .listHead i | .listTail i | .listParent i | .column _ i _ => InI64 i
  | .index _ _ value rowId => value.Encodable ∧ InI64 rowId
  | _ => True

/-- A string as an index value is stored as its bytes. -/
def StorageKey.decoded : StorageKey → StorageKey
  | .index table name value rowId => .index table name value.decoded rowId
  | k => k

/-- The key whose constructor writes the elements. -/
def StorageKey.read : List TupleElement → Option StorageKey
  | [_, .bytes t] => return .schema (← fromUtf8 t)
  | [_, .bytes t, .int i, .bytes c] => return .column (← fromUtf8 t) i (← fromUtf8 c)
  | [_, .bytes t, .bytes c, v, .int i] => return .index (← fromUtf8 t) (← fromUtf8 c) v i
  | [tag, .bytes t, .bytes l] => do
    let table ← fromUtf8 t
    let label ← fromUtf8 l
    if tag = .bytes (utf8 tagMarker) then return .actionMarker label
    else if label = "columns" then return .schemaColumns table
    else if label = "indexes" then return .schemaIndexes table
    else if label = "list_columns" then return .schemaListColumns table
    else if label = "next_id" then return .schemaNextId table
    else if label = "id_mode" then return .schemaIdMode table
    else return .schemaNextListNumber
  | [_, _, .bytes l, .int i] =>
    if l = utf8 "head" then some (.listHead i)
    else if l = utf8 "tail" then some (.listTail i)
    else some (.listParent i)
  | [_, .bytes t, .bytes l, .bytes a] => do
    let table ← fromUtf8 t
    let argument ← fromUtf8 a
    if l = utf8 "acl" then return .aclRule table argument
    else if l = utf8 "only_via_actions" then return .onlyViaActions table argument
    else return .actionStorage table argument
  | _ => none

theorem StorageKey.read_encode {k : StorageKey} (h : k.Encodable) :
    ∃ es, decodeTuple k.encode = .ok es ∧ StorageKey.read es = some k.decoded := by
  have hLabels : ∀ {s s' : String}, utf8 s = utf8 s' ↔ s = s' :=
    Function.Injective.eq_iff @utf8_injective
  cases k
  all_goals
    refine ⟨_, decodeTuple_encodeTuple ?_, ?_⟩
    · simp_all [TupleElement.Encodable, StorageKey.Encodable]
    · simp [StorageKey.read, StorageKey.decoded, hLabels, tagSchema, tagMarker]

theorem StorageKey.encode_decoded (k : StorageKey) : k.decoded.encode = k.encode := by
  cases k with
  | index table name value rowId =>
    simp [StorageKey.decoded, StorageKey.encode, indexKey, encodeElement_decoded]
  | _ => rfl

/-- **Keys of different records differ**: a key determines its constructor and
the arguments, up to a string as an index value being its bytes. -/
theorem StorageKey.encode_eq_iff {k k' : StorageKey} (h : k.Encodable) (h' : k'.Encodable) :
    k.encode = k'.encode ↔ k.decoded = k'.decoded := by
  constructor
  · intro hEq
    obtain ⟨es, hDecode, hRead⟩ := StorageKey.read_encode h
    obtain ⟨es', hDecode', hRead'⟩ := StorageKey.read_encode h'
    rw [hEq, hDecode', Except.ok.injEq] at hDecode
    rw [hDecode, hRead, Option.some.injEq] at hRead'
    exact hRead'
  · intro hEq
    rw [← k.encode_decoded, hEq, k'.encode_decoded]

theorem StorageKey.encode_eq_head :
    (StorageKey.listHead 1).encode = (StorageKey.schema "_lists").encode ↔
      (StorageKey.listHead 1).decoded = (StorageKey.schema "_lists").decoded :=
  StorageKey.encode_eq_iff (by decide : InI64 1) trivial

/-- The index entry of the string `a` is that of the bytes of `a`. -/
theorem StorageKey.encode_index_string :
    (StorageKey.index "docs" "title" (.string "a") 1).encode =
        (StorageKey.index "docs" "title" (.bytes (utf8 "a")) 1).encode ∧
      TupleElement.string "a" ≠ .bytes (utf8 "a") :=
  ⟨rfl, by simp⟩

end EncryptedSpaces.Encoding
