import EncryptedSpaces.Encoding.Keys

/-!
# Reading keys back

What the parsers make of a key that a constructor wrote, and what a key must
look like for a parser to accept it.
-/

namespace EncryptedSpaces.Encoding

open Lib Lib.Digits Lib.Except List

/-! ## The front of a key

Tag and table are the first two elements of every storage key.  They are read
off a key without decoding the rest, so they are known for keys that were built
by a constructor and for keys that only passed one of the parsers. -/

/-- The key starts with the tag and the table. -/
def HasFront (key : Bytes) (tag table : String) : Prop :=
  ∃ rest rest', decodeElement key = .ok (.bytes (utf8 tag), rest) ∧
    decodeElement rest = .ok (.bytes (utf8 table), rest')

theorem decodeElement_string (s : String) (es : List TupleElement) :
    decodeElement (encodeTuple (.string s :: es)) = .ok (.bytes (utf8 s), encodeTuple es) :=
  (decodes_encodeElement (e := .string s) trivial fun _ _ => head?_encodeTuple es).decodeElement_eq

theorem hasFront_encodeTuple (tag table : String) (es : List TupleElement) :
    HasFront (encodeTuple (.string tag :: .string table :: es)) tag table :=
  ⟨_, _, decodeElement_string _ _, decodeElement_string _ _⟩

variable {table s column : String} {e : TupleElement} {es : List TupleElement}
  {key bytes rest : Bytes} {rowId : Int} {k : ParsedKey}

/-- Keys with at least three leading elements show tag and table, whatever
follows. -/
theorem hasFront_of_prefix {tag : String}
    (h : encodeTuple (.string tag :: .string table :: e :: es) <+: key) :
    HasFront key tag table := by
  obtain ⟨rest, rfl⟩ := h
  simp only [encodeTuple_cons, append_assoc]
  have hTag := decodes_encodeElement (e := .string tag) trivial fun _ _ =>
    head?_encodeElement_append (.string table) (encodeElement e ++ (encodeTuple es ++ rest))
  have hTable := decodes_encodeElement (e := .string table) trivial fun _ _ =>
    head?_encodeElement_append e (encodeTuple es ++ rest)
  exact ⟨_, _, hTag.decodeElement_eq, hTable.decodeElement_eq⟩

theorem HasFront.unique {tag tag' table' : String} (h : HasFront key tag table)
    (h' : HasFront key tag' table') : tag = tag' ∧ table = table' := by
  obtain ⟨rest, _, hTag, hTable⟩ := h
  obtain ⟨rest', _, hTag', hTable'⟩ := h'
  rw [hTag, Except.ok.injEq, Prod.mk.injEq, TupleElement.bytes.injEq] at hTag'
  obtain ⟨hTagEq, rfl⟩ := hTag'
  rw [hTable, Except.ok.injEq, Prod.mk.injEq, TupleElement.bytes.injEq] at hTable'
  exact ⟨utf8_injective hTagEq, utf8_injective hTable'.1⟩

/-- Two encoded tuples agree when their first elements and the rest do. -/
theorem encodeTuple_cons_inj {s' : String} {es' : List TupleElement}
    (h : encodeTuple (.string s :: es) = encodeTuple (.string s' :: es')) :
    s = s' ∧ encodeTuple es = encodeTuple es' := by
  have hDecode := decodeElement_string s es
  rw [h, decodeElement_string, Except.ok.injEq, Prod.mk.injEq, TupleElement.bytes.injEq] at hDecode
  exact ⟨utf8_injective hDecode.1.symm, hDecode.2.symm⟩

/-! ## What `parse_key` accepts -/

/-- The type tag of a parsed key. -/
def ParsedKey.tag : ParsedKey → String
  | .row .. | .column .. | .rowPrefix .. => tagRow
  | .index .. => tagIndex
  | .actionMarker .. => tagMarker
  | _ => tagSchema

/-- The elements after the tag, as the key's constructor writes them. -/
def ParsedKey.body : ParsedKey → List TupleElement
  | .schema table | .rowPrefix table => [.string table]
  | .schemaColumns table => [.string table, .string "columns"]
  | .schemaNextId table => [.string table, .string "next_id"]
  | .schemaIdMode table => [.string table, .string "id_mode"]
  | .row table rowId => [.string table, .int rowId]
  | .column table rowId column => [.string table, .int rowId, .string column]
  | .index table column value rowId => [.string table, .string column, value, .int rowId]
  | .aclRule table op => [.string table, .string "acl", .string op]
  | .onlyViaActions table op => [.string table, .string "only_via_actions", .string op]
  | .action primaryTable name => [.string primaryTable, .string "action", .string name]
  | .actionMarker primaryTable => [.string "action_marker", .string primaryTable]

def ParsedKey.elements (k : ParsedKey) : List TupleElement := .string k.tag :: k.body

theorem elementToString_eq_ok (he : e.decoded = e) (h : elementToString e = .ok s) :
    e = .bytes (utf8 s) := by
  cases e with
  | bytes b =>
    unfold elementToString at h
    cases hUtf : fromUtf8 b with
    | none => simp [hUtf] at h
    | some t =>
      simp only [hUtf, Except.ok.injEq] at h
      subst h
      rw [fromUtf8_eq_some_iff.mp hUtf]
  | string t => cases he
  | null | int i | float bits | double bits | bool b => cases h

theorem elementToInt_eq_ok {i : Int} (h : elementToInt e = .ok i) : e = .int i := by
  cases e <;> cases h
  rfl

theorem schemaArgument_eq_ok {missing : String} (hEs : ∀ e ∈ es, e.decoded = e)
    (h : schemaArgument es missing = .ok s) : [.bytes (utf8 s)] <+: es := by
  cases es with
  | nil => cases h
  | cons e es =>
    obtain rfl := elementToString_eq_ok (hEs e mem_cons_self) h
    exact ⟨es, rfl⟩

theorem parseSchemaElements_eq_ok (hEs : ∀ e ∈ es, e.decoded = e)
    (h : parseSchemaElements (e :: es) = .ok k) :
    k.tag = tagSchema ∧ k.body.map TupleElement.decoded <+: es := by
  cases es with
  | nil => cases h
  | cons e₁ rest =>
    obtain ⟨he₁, hRest⟩ := forall_mem_cons.mp hEs
    obtain ⟨table, hTable, hKey⟩ := bind_eq_ok.mp h
    obtain rfl := elementToString_eq_ok he₁ hTable
    have hSchema : [.bytes (utf8 table)] <+: .bytes (utf8 table) :: rest := ⟨rest, rfl⟩
    split at hKey
    · cases hKey
      exact ⟨rfl, hSchema⟩
    next sub rest =>
      obtain ⟨hSub, hArgs⟩ := forall_mem_cons.mp hRest
      split at hKey
      · cases hKey
        exact ⟨rfl, hSchema⟩
      next label hLabel =>
        obtain rfl := elementToString_eq_ok hSub hLabel
        have hTwo : [.bytes (utf8 table), .bytes (utf8 label)] <+:
            .bytes (utf8 table) :: .bytes (utf8 label) :: rest := ⟨rest, rfl⟩
        have hThree : ∀ {missing s}, schemaArgument rest missing = .ok s →
            [.bytes (utf8 table), .bytes (utf8 label), .bytes (utf8 s)] <+:
              .bytes (utf8 table) :: .bytes (utf8 label) :: rest := by
          intro missing s hArg
          obtain ⟨rest', rfl⟩ := schemaArgument_eq_ok hArgs hArg
          exact ⟨rest', rfl⟩
        split_ifs at hKey with hColumns hNextId hIdMode hAcl hOnly hAction
        · cases hKey
          exact ⟨rfl, hColumns ▸ hTwo⟩
        · cases hKey
          exact ⟨rfl, hNextId ▸ hTwo⟩
        · cases hKey
          exact ⟨rfl, hIdMode ▸ hTwo⟩
        · obtain ⟨op, hArg, hKey⟩ := bind_eq_ok.mp hKey
          cases hKey
          exact ⟨rfl, hAcl ▸ hThree hArg⟩
        · obtain ⟨op, hArg, hKey⟩ := bind_eq_ok.mp hKey
          cases hKey
          exact ⟨rfl, hOnly ▸ hThree hArg⟩
        · obtain ⟨name, hArg, hKey⟩ := bind_eq_ok.mp hKey
          cases hKey
          exact ⟨rfl, hAction ▸ hThree hArg⟩
        · cases hKey
          exact ⟨rfl, hSchema⟩

theorem parseRowElements_eq_ok (hEs : ∀ e ∈ es, e.decoded = e)
    (h : parseRowElements (e :: es) = .ok k) :
    k.tag = tagRow ∧ k.body.map TupleElement.decoded <+: es := by
  cases es with
  | nil => cases h
  | cons e₁ rest =>
    obtain ⟨he₁, hRest⟩ := forall_mem_cons.mp hEs
    obtain ⟨table, hTable, hKey⟩ := bind_eq_ok.mp h
    obtain rfl := elementToString_eq_ok he₁ hTable
    split at hKey
    · cases hKey
      exact ⟨rfl, [], rfl⟩
    next id rest =>
      split at hKey
      · cases hKey
        exact ⟨rfl, id :: rest, rfl⟩
      next rowId hId =>
        obtain rfl := elementToInt_eq_ok hId
        split at hKey
        · cases hKey
          exact ⟨rfl, [], rfl⟩
        next column rest =>
          obtain ⟨name, hName, hColumn⟩ := bind_eq_ok.mp hKey
          cases hColumn
          obtain rfl := elementToString_eq_ok (hRest column (by simp)) hName
          exact ⟨rfl, rest, rfl⟩

theorem parseIndexElements_eq_ok (hEs : ∀ e ∈ es, e.decoded = e)
    (h : parseIndexElements (e :: es) = .ok k) :
    k.tag = tagIndex ∧ k.body.map TupleElement.decoded <+: es := by
  unfold parseIndexElements at h
  split at h
  next e₁ e₂ value e₄ rest hCons =>
    cases hCons
    obtain ⟨table, hTable, hKey⟩ := bind_eq_ok.mp h
    obtain ⟨column, hColumn, hKey⟩ := bind_eq_ok.mp hKey
    obtain ⟨rowId, hRowId, hKey⟩ := bind_eq_ok.mp hKey
    cases hKey
    obtain rfl := elementToString_eq_ok (hEs e₁ (by simp)) hTable
    obtain rfl := elementToString_eq_ok (hEs e₂ (by simp)) hColumn
    obtain rfl := elementToInt_eq_ok hRowId
    refine ⟨rfl, rest, ?_⟩
    simp [ParsedKey.body, hEs value]
  · cases h

theorem parseMarkerElements_eq_ok (hEs : ∀ e ∈ es, e.decoded = e)
    (h : parseMarkerElements (e :: es) = .ok k) :
    k.tag = tagMarker ∧ k.body.map TupleElement.decoded <+: es := by
  cases es with
  | nil => cases h
  | cons e₁ rest =>
    obtain ⟨he₁, hRest⟩ := forall_mem_cons.mp hEs
    obtain ⟨sub, hSub, hKey⟩ := bind_eq_ok.mp h
    obtain rfl := elementToString_eq_ok he₁ hSub
    split_ifs at hKey with hLabel
    subst hLabel
    split at hKey
    · cases hKey
    next e₂ rest =>
      obtain ⟨table, hTable, hMarker⟩ := bind_eq_ok.mp hKey
      cases hMarker
      obtain rfl := elementToString_eq_ok (hRest e₂ mem_cons_self) hTable
      exact ⟨rfl, rest, rfl⟩

/-- A key that `parse_key` accepts starts with the elements of the key it
returns. -/
theorem parseElements_eq_ok (hEs : ∀ e ∈ es, e.decoded = e) (h : parseElements es = .ok k) :
    k.elements.map TupleElement.decoded <+: es := by
  cases es with
  | nil => cases h
  | cons e es =>
    obtain ⟨he, hTail⟩ := forall_mem_cons.mp hEs
    obtain ⟨tag, hTag, h⟩ := bind_eq_ok.mp h
    have hFirst : tag ≠ "�" → e = .bytes (utf8 tag) := by
      intro hNe
      cases e with
      | bytes b =>
        rw [parseTag, Except.ok.injEq] at hTag
        cases hUtf : fromUtf8 b with
        | none => exact absurd (hUtf ▸ hTag).symm hNe
        | some t =>
          rw [hUtf, Option.getD_some] at hTag
          rw [← hTag, fromUtf8_eq_some_iff.mp hUtf]
      | string t => cases he
      | null | int i | float bits | double bits | bool b => cases hTag
    have hCons : ∀ {tag' : String}, tag = tag' → tag' ≠ "�" →
        (k.tag = tag' ∧ k.body.map TupleElement.decoded <+: es) →
        k.elements.map TupleElement.decoded <+: e :: es := by
      rintro _ rfl hNe ⟨hKeyTag, hBody⟩
      rw [hFirst hNe, ← hKeyTag]
      exact prefix_cons_inj _ |>.mpr hBody
    split_ifs at h with hS hR hI hM
    · exact hCons hS (by decide) (parseSchemaElements_eq_ok hTail h)
    · exact hCons hR (by decide) (parseRowElements_eq_ok hTail h)
    · exact hCons hI (by decide) (parseIndexElements_eq_ok hTail h)
    · exact hCons hM (by decide) (parseMarkerElements_eq_ok hTail h)

theorem parseKey_eq_ok (h : parseKey key = .ok k) : ∃ es, decodeTuple key = .ok es ∧
    parseElements es = .ok k ∧ k.elements.map TupleElement.decoded <+: es := by
  unfold parseKey at h
  split at h
  · cases h
  next es hDecode =>
    exact ⟨es, hDecode, h,
      parseElements_eq_ok (fun e he => (encodable_of_decodeTuple hDecode e he).2) h⟩

/-- A parsed key that has a table starts with its tag and the table. -/
theorem hasFront_of_parsed {tail : List TupleElement} (h : parseKey key = .ok k)
    (hBody : k.body = .string table :: tail) : HasFront key k.tag table := by
  obtain ⟨es, hDecode, _, rest, rfl⟩ := parseKey_eq_ok h
  rw [ParsedKey.elements, hBody] at hDecode
  obtain ⟨r₁, hTag, hDecode⟩ := decodeTuple_eq_cons.mp hDecode
  obtain ⟨r₂, hTable, _⟩ := decodeTuple_eq_cons.mp hDecode
  exact ⟨r₁, r₂, hTag.decodeElement_eq, hTable.decodeElement_eq⟩

/-- The integers of a parsed key are `i64`. -/
theorem inI64_of_parsed {i : Int} (h : parseKey key = .ok k) (hMem : .int i ∈ k.body) :
    InI64 i := by
  obtain ⟨es, hDecode, _, rest, rfl⟩ := parseKey_eq_ok h
  have hElement : .int i ∈ k.elements.map TupleElement.decoded :=
    mem_map_of_mem (f := TupleElement.decoded) (mem_cons_of_mem _ hMem)
  exact (encodable_of_decodeTuple hDecode _ (mem_append_left rest hElement)).1

theorem hasFront_of_parseKey (h : parseKey key = .ok (.column table rowId column)) :
    HasFront key tagRow table := hasFront_of_parsed h rfl

theorem inI64_of_parseKey (h : parseKey key = .ok (.column table rowId column)) : InI64 rowId :=
  inI64_of_parsed h (by simp [ParsedKey.body])

/-- `parse_key` ignores what follows the four elements of a column key. -/
theorem parseKey_of_decodeTuple (h : decodeTuple key = .ok (.bytes (utf8 tagRow) ::
    .bytes (utf8 table) :: .int rowId :: .bytes (utf8 column) :: es)) :
    parseKey key = .ok (.column table rowId column) := by
  rw [parseKey, h]
  simp [parseElements, parseTag, parseRowElements, elementToString, elementToInt, tagRow,
    tagSchema, bind, Except.bind, pure, Except.pure]

/-- The column a constructor writes is the one `parse_key` reads. -/
theorem parseKey_columnKey (h : InI64 rowId) :
    parseKey (columnKey table rowId column) = .ok (.column table rowId column) := by
  have hEncodable : ∀ e ∈ [.string tagRow, .string table, .int rowId, .string column],
      TupleElement.Encodable e := by
    simpa [TupleElement.Encodable] using h
  exact parseKey_of_decodeTuple (decodeTuple_encodeTuple hEncodable)

/-! ## What `parse_column_key_ref` accepts -/

/-- The segment-copying scan computes what the plain unescaping does. -/
theorem decodeStringLoop_eq (bytes segment : Bytes) (decoded : Option Bytes) :
    decodeStringLoop bytes segment decoded =
      (decodeBytesValue bytes).toOption.map fun (data, tail) =>
        (decoded.getD [] ++ segment ++ data, tail) := by
  induction bytes using decodeBytesValue.induct generalizing segment decoded with
  | case1 => rfl
  | case2 => simp [decodeStringLoop, decodeBytesValue, Except.toOption]
  | case3 b hb => simp [decodeStringLoop, decodeBytesValue, hb, Except.toOption]
  | case4 rest ih =>
    simp only [decodeStringLoop, decodeBytesValue, if_true, ih]
    cases decodeBytesValue rest <;> simp [Except.map, Except.toOption]
  | case5 c rest hc => simp [decodeStringLoop, decodeBytesValue, hc, Except.toOption]
  | case6 b c rest hb ih =>
    simp only [decodeStringLoop, decodeBytesValue, hb, if_false, ih]
    cases decodeBytesValue (c :: rest) <;> simp [Except.map, Except.toOption]

theorem decodeStringRef_eq_ok {label : String} :
    decodeStringRef bytes label = .ok (s, rest) ↔ Decodes bytes (.bytes (utf8 s)) rest := by
  constructor
  · intro h
    cases bytes with
    | nil => cases h
    | cons code tail =>
      rw [decodeStringRef, decodeStringLoop_eq] at h
      split_ifs at h with hCode
      obtain rfl := not_not.mp hCode
      cases hData : decodeBytesValue tail with
      | error e => simp [hData, Except.toOption] at h
      | ok r =>
        obtain ⟨data, tail'⟩ := r
        cases hUtf : fromUtf8 data with
        | none => simp [hData, Except.toOption, hUtf] at h
        | some t =>
          simp only [hData, Except.toOption, Option.map_some, Option.getD_none, nil_append,
            hUtf, Except.ok.injEq, Prod.mk.injEq] at h
          obtain ⟨rfl, rfl⟩ := h
          obtain ⟨rfl, hRest⟩ := decodeBytesValue_eq_ok_iff.mp hData
          have hDec := Decodes.bytes data hRest
          rw [encodeElement, append_assoc, ← fromUtf8_eq_some_iff.mp hUtf] at hDec
          rw [← fromUtf8_eq_some_iff.mp hUtf]
          exact hDec
  · intro h
    cases h with
    | bytes _ hRest =>
      have hData := decodeBytesValue_eq_ok_iff.mpr
        ⟨Eq.refl (encodeBytesValue (utf8 s) ++ 0x00 :: rest), hRest⟩
      simp [decodeStringRef, encodeElement, decodeStringLoop_eq, hData, Except.toOption]

theorem decodeI64Ref_eq_ok {label : String} {i : Int} :
    decodeI64Ref bytes label = .ok (i, rest) ↔ Decodes bytes (.int i) rest := by
  rw [← decodeElement_eq_ok_iff]
  cases bytes with
  | nil => simp [decodeI64Ref, decodeElement]
  | cons code tail =>
    by_cases hNull : code = nullCode
    · subst hNull
      simp [decodeI64Ref, decodeElement, nullCode, intZeroCode, negIntStart, posIntEnd]
    by_cases hBytes : code = bytesCode
    · subst hBytes
      cases hData : decodeBytesValue tail <;>
        simp [decodeI64Ref, decodeElement, bytesCode, nullCode, intZeroCode, negIntStart, posIntEnd,
          hData, Except.map]
    simp only [decodeI64Ref, decodeElement, hNull, hBytes, if_false]
    split_ifs <;> simp

/-- The borrowing parser reads exactly the four elements of a column key. -/
theorem parseColumnKeyRef_eq_ok {ref : ColumnKeyRef} : parseColumnKeyRef key = .ok ref ↔
    decodeTuple key = .ok [.bytes (utf8 tagRow), .bytes (utf8 ref.table), .int ref.rowId,
      .bytes (utf8 ref.column)] := by
  simp only [decodeTuple_eq_cons, decodeTuple_eq_nil]
  constructor
  · intro h
    obtain ⟨⟨tag, r₁⟩, hTag, h⟩ := bind_eq_ok.mp h
    dsimp only at h
    split_ifs at h with hRow
    · cases h
    obtain rfl := not_not.mp hRow
    obtain ⟨⟨table, r₂⟩, hTable, h⟩ := bind_eq_ok.mp h
    obtain ⟨⟨rowId, r₃⟩, hRowId, h⟩ := bind_eq_ok.mp h
    obtain ⟨⟨column, r₄⟩, hColumn, h⟩ := bind_eq_ok.mp h
    split_ifs at h with hEnd
    · cases h
    cases h
    exact ⟨r₁, decodeStringRef_eq_ok.mp hTag, r₂, decodeStringRef_eq_ok.mp hTable, r₃,
      decodeI64Ref_eq_ok.mp hRowId, r₄, decodeStringRef_eq_ok.mp hColumn, not_not.mp hEnd⟩
  · rintro ⟨r₁, hTag, r₂, hTable, r₃, hRowId, r₄, hColumn, rfl⟩
    simp [parseColumnKeyRef, decodeStringRef_eq_ok.mpr hTag, decodeStringRef_eq_ok.mpr hTable,
      decodeI64Ref_eq_ok.mpr hRowId, decodeStringRef_eq_ok.mpr hColumn, bind, Except.bind, pure,
      Except.pure]

theorem hasFront_of_parseColumnKeyRef {ref : ColumnKeyRef} (h : parseColumnKeyRef key = .ok ref) :
    HasFront key tagRow ref.table := by
  obtain ⟨r₁, hTag, hDecode⟩ := decodeTuple_eq_cons.mp (parseColumnKeyRef_eq_ok.mp h)
  obtain ⟨r₂, hTable, _⟩ := decodeTuple_eq_cons.mp hDecode
  exact ⟨r₁, r₂, hTag.decodeElement_eq, hTable.decodeElement_eq⟩

/-! ## The two column parsers -/

theorem parseKey_of_parseColumnKeyRef {ref : ColumnKeyRef} (h : parseColumnKeyRef key = .ok ref) :
    parseKey key = .ok (.column ref.table ref.rowId ref.column) :=
  parseKey_of_decodeTuple (parseColumnKeyRef_eq_ok.mp h)

/-- The borrowing parser accepts what `parse_key` reads as a column without
trailing elements, and reads the same off it. -/
theorem parseColumnKeyRef_iff {ref : ColumnKeyRef} : parseColumnKeyRef key = .ok ref ↔
    parseKey key = .ok (.column ref.table ref.rowId ref.column) ∧
      ∃ es, decodeTuple key = .ok es ∧ es.length = 4 := by
  constructor
  · intro h
    exact ⟨parseKey_of_parseColumnKeyRef h, _, parseColumnKeyRef_eq_ok.mp h, rfl⟩
  · rintro ⟨hParse, es, hDecode, hLen⟩
    obtain ⟨es', hDecode', _, hElements⟩ := parseKey_eq_ok hParse
    cases hDecode.symm.trans hDecode'
    rw [parseColumnKeyRef_eq_ok, hDecode, ← hElements.eq_of_length hLen.symm]
    rfl

/-- A column key with one element more. -/
def trailingColumnKey : Bytes :=
  encodeTuple [.string tagRow, .string "docs", .int 1, .string "title", .null]

theorem decodeTuple_trailingColumnKey : decodeTuple trailingColumnKey =
    .ok [.bytes (utf8 tagRow), .bytes (utf8 "docs"), .int 1, .bytes (utf8 "title"), .null] :=
  decodeTuple_encodeTuple (by simp [TupleElement.Encodable, InI64])

theorem parseColumnKeyRef_trailingColumnKey :
    parseKey trailingColumnKey = .ok (.column "docs" 1 "title") ∧
      ∀ ref, parseColumnKeyRef trailingColumnKey ≠ .ok ref := by
  refine ⟨parseKey_of_decodeTuple decodeTuple_trailingColumnKey, fun ref h => ?_⟩
  rw [parseColumnKeyRef_eq_ok, decodeTuple_trailingColumnKey] at h
  simp at h

end EncryptedSpaces.Encoding
