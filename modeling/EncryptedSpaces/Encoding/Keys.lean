import EncryptedSpaces.Encoding.Tuple

/-!
# Storage keys

Every storage key is a tuple whose first element is a type tag: `S` for schema
and counter keys, `R` for row columns, `I` for index entries and `M` for the
markers that only occur in changelog entries.

`parseKey` is the parser used by the operation verifiers.  It reads any tuple
that starts with a tag, so a key may carry trailing elements, and integers may
be written with leading zero bytes; `parseColumnKeyRef` is the second parser of
the source, which only accepts the exact four-element column shape.
-/

namespace EncryptedSpaces.Encoding

open Lib Lib.Digits

def tagSchema : String := "S"
def tagRow : String := "R"
def tagIndex : String := "I"
def tagMarker : String := "M"

def usersTable : String := "_users"
def keyHistoryTable : String := "_key_history"
def retentionTable : String := "_retention"
def listsTable : String := "_lists"

/-- `ACTION_STORAGE_VERSION`. -/
def actionStorageVersion : UInt8 := 1

/-! ## Constructors -/

/-- Keys below a table's schema: `("S", table, rest…)`. -/
def schemaSubkey (table : String) (rest : List TupleElement) : Bytes :=
  encodeTuple (.string tagSchema :: .string table :: rest)

def schemaKey (table : String) : Bytes := schemaSubkey table []
def schemaColumnsKey (table : String) : Bytes := schemaSubkey table [.string "columns"]
def schemaIndexesKey (table : String) : Bytes := schemaSubkey table [.string "indexes"]
def schemaListColumnsKey (table : String) : Bytes := schemaSubkey table [.string "list_columns"]
def schemaNextIdKey (table : String) : Bytes := schemaSubkey table [.string "next_id"]
def schemaIdModeKey (table : String) : Bytes := schemaSubkey table [.string "id_mode"]

def schemaNextListNumberKey : Bytes := schemaSubkey listsTable [.string "next_list_number"]
def listHeadKey (listNumber : Int) : Bytes :=
  schemaSubkey listsTable [.string "head", .int listNumber]
def listTailKey (listNumber : Int) : Bytes :=
  schemaSubkey listsTable [.string "tail", .int listNumber]
def listParentKey (listNumber : Int) : Bytes :=
  schemaSubkey listsTable [.string "parent", .int listNumber]

def aclRuleKey (table op : String) : Bytes := schemaSubkey table [.string "acl", .string op]
def aclOnlyViaActionsKey (table op : String) : Bytes :=
  schemaSubkey table [.string "only_via_actions", .string op]
def actionStorageKey (primaryTable name : String) : Bytes :=
  schemaSubkey primaryTable [.string "action", .string name]

def actionMarkerKey (primaryTable : String) : Bytes :=
  encodeTuple [.string tagMarker, .string "action_marker", .string primaryTable]

def rowPrefix (table : String) : Bytes := encodeTuple [.string tagRow, .string table]
def rowKey (table : String) (rowId : Int) : Bytes :=
  encodeTuple [.string tagRow, .string table, .int rowId]
def columnKey (table : String) (rowId : Int) (column : String) : Bytes :=
  encodeTuple [.string tagRow, .string table, .int rowId, .string column]
def columnKeyPlaceholder (table column : String) : Bytes := columnKey table 0 column

def indexKey (table column : String) (value : TupleElement) (rowId : Int) : Bytes :=
  encodeTuple [.string tagIndex, .string table, .string column, value, .int rowId]
def indexValuePrefix (table column : String) (value : TupleElement) : Bytes :=
  encodeTuple [.string tagIndex, .string table, .string column, value]

/-- `encode_list_parent`. -/
def encodeListParent (parentTable : String) (parentRowId : Int) (parentColumn : String) : Bytes :=
  encodeTuple [.string parentTable, .int parentRowId, .string parentColumn]

/-! ## Parsing -/

/-- `KeyError`, by its text. -/
abbrev KeyError := String

/-- A parsed storage key. -/
inductive ParsedKey where
  | schema (table : String)
  | schemaColumns (table : String)
  | schemaNextId (table : String)
  | schemaIdMode (table : String)
  | row (table : String) (rowId : Int)
  | column (table : String) (rowId : Int) (column : String)
  | rowPrefix (table : String)
  | index (table column : String) (value : TupleElement) (rowId : Int)
  | aclRule (table op : String)
  | onlyViaActions (table op : String)
  | action (primaryTable name : String)
  | actionMarker (primaryTable : String)
  deriving DecidableEq, Repr

def elementToString : TupleElement → Except KeyError String
  | .bytes b =>
    match fromUtf8 b with
    | some s => .ok s
    | none => .error "Invalid UTF-8 string"
  | .string s => .ok s
  | _ => .error "Expected string element"

def elementToInt : TupleElement → Except KeyError Int
  | .int i => .ok i
  | _ => .error "Expected integer element"

def parseMarkerElements (elements : List TupleElement) : Except KeyError ParsedKey :=
  match elements with
  | _ :: sub :: rest => do
      let sub ← elementToString sub
      if sub = "action_marker" then
        match rest with
        | [] => .error "action_marker key missing primary_table"
        | primaryTable :: _ => return .actionMarker (← elementToString primaryTable)
      else .error s!"Unknown marker sub-tag: {sub}"
  | _ => .error "Marker key missing sub-tag"

/-- The fourth element of a schema key that needs one. -/
def schemaArgument (rest : List TupleElement) (missing : String) : Except KeyError String :=
  match rest with
  | [] => .error missing
  | element :: _ => elementToString element

def parseSchemaElements (elements : List TupleElement) : Except KeyError ParsedKey :=
  match elements with
  | _ :: table :: rest => do
      let table ← elementToString table
      match rest with
      | [] => return .schema table
      | sub :: rest =>
        match elementToString sub with
        | .error _ => return .schema table
        | .ok sub =>
          if sub = "columns" then return .schemaColumns table
          else if sub = "next_id" then return .schemaNextId table
          else if sub = "id_mode" then return .schemaIdMode table
          else if sub = "acl" then
            return .aclRule table (← schemaArgument rest "acl key missing op")
          else if sub = "only_via_actions" then
            return .onlyViaActions table
              (← schemaArgument rest "only_via_actions key missing op")
          else if sub = "action" then
            return .action table (← schemaArgument rest "action key missing name")
          else return .schema table
  | _ => .error "Schema key missing table name"

def parseRowElements (elements : List TupleElement) : Except KeyError ParsedKey :=
  match elements with
  | _ :: table :: rest => do
      let table ← elementToString table
      match rest with
      | [] => return .rowPrefix table
      | id :: rest =>
        match elementToInt id with
        | .error _ => return .rowPrefix table
        | .ok rowId =>
          match rest with
          | [] => return .row table rowId
          -- further elements are ignored
          | column :: _ => return .column table rowId (← elementToString column)
  | _ => .error "Row key missing table name"

def parseIndexElements (elements : List TupleElement) : Except KeyError ParsedKey :=
  match elements with
  | _ :: table :: column :: value :: rowId :: _ => do
      let table ← elementToString table
      let column ← elementToString column
      let rowId ← elementToInt rowId
      return .index table column value rowId
  | _ => .error "Index key missing elements"

/-- The type tag; invalid UTF-8 only ends up in the error text. -/
def parseTag : TupleElement → Except KeyError String
  | .bytes b => .ok ((fromUtf8 b).getD "�")
  | .string s => .ok s
  | _ => .error "Key type tag must be a string"

/-- The dispatch of `parse_key` on the decoded tuple. -/
def parseElements (elements : List TupleElement) : Except KeyError ParsedKey :=
  match elements with
  | [] => .error "Empty key tuple"
  | first :: _ => do
      let tag ← parseTag first
      if tag = tagSchema then parseSchemaElements elements
      else if tag = tagRow then parseRowElements elements
      else if tag = tagIndex then parseIndexElements elements
      else if tag = tagMarker then parseMarkerElements elements
      else .error s!"Unknown key type: {tag}"

/-- `parse_key`. -/
def parseKey (key : Bytes) : Except KeyError ParsedKey :=
  match decodeTuple key with
  | .error e => .error s!"Failed to decode key: {e.text}"
  | .ok elements => parseElements elements

/-- `decode_list_parent`. -/
def decodeListParent (bytes : Bytes) : Except KeyError (String × Int × String) :=
  match decodeTuple bytes with
  | .error e => .error s!"Failed to decode key: {e.text}"
  | .ok [table, rowId, column] => do
      return (← elementToString table, ← elementToInt rowId, ← elementToString column)
  | .ok elements => .error s!"list_parent value must have 3 elements, got {elements.length}"

/-! ## The borrowing column-key parser -/

/-- The view `parse_column_key_ref` returns. -/
structure ColumnKeyRef where
  table : String
  rowId : Int
  column : String
  deriving DecidableEq, Repr

/-- The scan of `decode_string_ref`: `segment` is the run of plain bytes since
the last escape, `decoded` the output so far if there was an escape. -/
def decodeStringLoop : Bytes → Bytes → Option Bytes → Option (Bytes × Bytes)
  | [], _, _ => none
  | [b], segment, decoded =>
    if b = 0x00 then some (decoded.getD [] ++ segment, []) else none
  | b :: c :: rest, segment, decoded =>
    if b = 0x00 then
      if c = 0xFF then
        decodeStringLoop rest [] (some (decoded.getD [] ++ segment ++ [0x00]))
      else
        some (decoded.getD [] ++ segment, c :: rest)
    else
      decodeStringLoop (c :: rest) (segment ++ [b]) decoded

/-- `decode_string_ref`: the string at the front and the bytes after it. -/
def decodeStringRef (bytes : Bytes) (label : String) : Except KeyError (String × Bytes) :=
  match bytes with
  | [] => .error s!"Column key missing {label}"
  | code :: rest =>
    if code ≠ bytesCode then .error s!"Column key {label} must be a string element"
    else
      match decodeStringLoop rest [] none with
      | none => .error s!"Unterminated string element for {label}"
      | some (data, tail) =>
        match fromUtf8 data with
        | none => .error s!"Invalid UTF-8 in {label}"
        | some s => .ok (s, tail)

/-- `decode_i64_ref`. -/
def decodeI64Ref (bytes : Bytes) (label : String) : Except KeyError (Int × Bytes) :=
  match bytes with
  | [] => .error s!"Column key missing {label}"
  | code :: rest =>
    if code = intZeroCode then .ok (0, rest)
    else if intZeroCode < code ∧ code ≤ posIntEnd then
      let n := (code - intZeroCode).toNat
      if rest.length < n then .error s!"Unexpected end while decoding {label}"
      else .ok (i64FromBeBytes (paddedWord 0x00 (rest.take n)), rest.drop n)
    else if negIntStart ≤ code ∧ code < intZeroCode then
      let n := (intZeroCode - code).toNat
      if rest.length < n then .error s!"Unexpected end while decoding {label}"
      else
        let absVal := 2 ^ 64 - 1 - ofBytesBE (paddedWord 0xFF (rest.take n))
        .ok (if absVal = 2 ^ 63 then -2 ^ 63 else -(toI64 absVal), rest.drop n)
    else .error s!"Column key {label} must be an integer element"

/-- `parse_column_key_ref`: exactly `("R", table, row_id, column)`. -/
def parseColumnKeyRef (key : Bytes) : Except KeyError ColumnKeyRef := do
  let (tag, rest) ← decodeStringRef key "key type tag"
  if tag ≠ tagRow then .error s!"Expected column key tag '{tagRow}', got '{tag}'"
  let (table, rest) ← decodeStringRef rest "table name"
  let (rowId, rest) ← decodeI64Ref rest "row id"
  let (column, rest) ← decodeStringRef rest "column name"
  if rest ≠ [] then .error s!"Column key has trailing tuple data: {rest.length} bytes"
  return { table, rowId, column }

end EncryptedSpaces.Encoding
