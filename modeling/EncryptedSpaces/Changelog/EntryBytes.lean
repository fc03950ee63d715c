import EncryptedSpaces.Changelog.Types
import EncryptedSpaces.Encoding.Values
import EncryptedSpaces.Lib.Decoder

/-!
# Changelog entries as bytes

A leaf of the log is the postcard encoding of an entry.  The sequence verifier
does not run postcard on it but a decoder of its own, which skips the signature
and reads every length as a `u32`.  `fromBytesForVerification_toBytes` says that
this decoder reads back every entry whose fields have the widths of the source's
types and whose lengths fit in 32 bits.
-/

namespace EncryptedSpaces.Changelog

open Encoding Lib

/-! ## Encoding -/

/-- The enum index, which is also the discriminant. -/
def OpType.toNat : OpType → Nat
  | .insert => 0
  | .update => 1
  | .delete => 2
  | .listInsert => 3
  | .listUpdate => 4
  | .listDelete => 5
  | .createSpace => 6
  | .refreshKeys => 7
  | .inviteUser => 8
  | .removeUser => 9
  | .extend => 10
  | .reduce => 11
  | .rekey => 12
  | .listAppend => 13
  | .action => 14
  | .noop => 15

/-- `OpType::from_u8`. -/
def OpType.fromNat : Nat → Option OpType
  | 0 => some .insert
  | 1 => some .update
  | 2 => some .delete
  | 3 => some .listInsert
  | 4 => some .listUpdate
  | 5 => some .listDelete
  | 6 => some .createSpace
  | 7 => some .refreshKeys
  | 8 => some .inviteUser
  | 9 => some .removeUser
  | 10 => some .extend
  | 11 => some .reduce
  | 12 => some .rekey
  | 13 => some .listAppend
  | 14 => some .action
  | 15 => some .noop
  | _ => none

theorem OpType.fromNat_toNat (opType : OpType) : OpType.fromNat opType.toNat = some opType := by
  cases opType <;> rfl

theorem OpType.toNat_lt (opType : OpType) : opType.toNat < 16 := by
  cases opType <;> decide

/-- A `Vec<u8>`: its length and its bytes. -/
def putVec (bytes : Bytes) : Bytes := putVarint 10 bytes.length ++ bytes

def KvData.toBytes (kv : KvData) : Bytes := putVec kv.key ++ putVec kv.value

def LogMessage.toBytes (message : LogMessage) : Bytes :=
  putVarint 5 message.opType.toNat ++ (putVec message.treePath ++
    (putVarint 10 message.entries.length ++ message.entries.flatMap KvData.toBytes))

/-- `ChangelogEntry::to_bytes`. -/
def ChangelogEntry.toBytes (entry : ChangelogEntry) : Bytes :=
  putVarint 10 entry.timestamp ++ (putVarint 5 entry.uid ++ (putVarint 5 entry.parentChange ++
    (entry.message.toBytes ++ (putVarint 5 entry.sigRef ++ (entry.parentClc ++
      putVec entry.signature)))))

/-! ## The verifier's decoder -/

abbrev EntryDecoder := Decoder UInt8 ChangelogError

/-- `read_varint_u32` and `read_varint_u64`: seven bits per byte from `shift` on,
for at most `max` bytes.  Bits shifted out of the type are lost. -/
def readVarint (bits shift : Nat) (tooLong : String) : Nat → EntryDecoder Nat
  | 0 => .fail (.generic tooLong)
  | max + 1 => fun input =>
    match input with
    | [] => .error (.generic "EntryDecoder: varint extends past end of input")
    | byte :: rest =>
      let low := byte.toNat % 0x80 * 2 ^ shift % 2 ^ bits
      if byte < 0x80 then .ok (low, rest)
      else
        match readVarint bits (shift + 7) tooLong max rest with
        | .ok (high, rest) => .ok (low + high, rest)
        | .error e => .error e

def readVarintU32 : EntryDecoder Nat := readVarint 32 0 "EntryDecoder: varint too long for u32" 5

def readVarintU64 : EntryDecoder Nat := readVarint 64 0 "EntryDecoder: varint too long for u64" 10

def takeInput (len : Nat) : EntryDecoder Bytes :=
  .take (.generic "EntryDecoder: unexpected end of input") len

def readVecU8 : EntryDecoder Bytes := do
  let len ← readVarintU32
  takeInput len

def readKvData : EntryDecoder KvData := do
  let key ← readVecU8
  let value ← readVecU8
  return { key, value }

def opTypeOfVariant (variant : Nat) : EntryDecoder OpType :=
  if 255 < variant then .fail (.generic s!"OpType variant {variant} out of range")
  else
    match OpType.fromNat variant with
    | some opType => pure opType
    | none => .fail (.generic s!"Unknown OpType variant: {variant}")

def readMessage : EntryDecoder LogMessage := do
  let variant ← readVarintU32
  let opType ← opTypeOfVariant variant
  let treePath ← readVecU8
  let entriesLen ← readVarintU32
  let entries ← Decoder.replicate readKvData entriesLen
  return { opType, treePath, entries }

/-- The fields; the signature is skipped. -/
def readEntry : EntryDecoder ChangelogEntry := do
  let timestamp ← readVarintU64
  let uid ← readVarintU32
  let parentChange ← readVarintU32
  let message ← readMessage
  let sigRef ← readVarintU32
  let parentClc ← takeInput 32
  let _ ← readVecU8
  return { timestamp, uid, parentChange, message, sigRef, parentClc, signature := [] }

/-- `ChangelogEntry::from_bytes_for_verification`. -/
def fromBytesForVerification (bytes : Bytes) : Except ChangelogError ChangelogEntry :=
  match readEntry bytes with
  | .ok (entry, []) => .ok entry
  | .ok (_, rest) => .error (.generic s!"EntryDecoder: {rest.length} trailing bytes")
  | .error e => .error e

/-! ## Round trip -/

/-- The widths of the source's field types, and lengths that fit in 32 bits. -/
structure ChangelogEntry.FitsWidths (entry : ChangelogEntry) : Prop where
  timestamp : entry.timestamp < 2 ^ 64
  uid : entry.uid < 2 ^ 32
  parentChange : entry.parentChange < 2 ^ 32
  sigRef : entry.sigRef < 2 ^ 32
  parentClc : entry.parentClc.length = 32
  treePath : entry.message.treePath.length < 2 ^ 32
  entries : entry.message.entries.length < 2 ^ 32
  kvs : ∀ kv ∈ entry.message.entries, kv.key.length < 2 ^ 32 ∧ kv.value.length < 2 ^ 32
  signature : entry.signature.length < 2 ^ 32

/-- The induction is on the bytes written; the number left is what its bits add
from `shift` on. -/
theorem readVarint_putVarint {bits shift max max' n : Nat} {tooLong : String}
    (hMax : n < 0x80 ^ max) (hMax' : n < 0x80 ^ max') (hBits : n * 2 ^ shift < 2 ^ bits)
    (hPos : 0 < max ∧ 0 < max') :
    (readVarint bits shift tooLong max).Reads (putVarint max' n) (n * 2 ^ shift) := by
  induction max generalizing max' n shift with
  | zero => exact absurd hPos.1 (lt_irrefl 0)
  | succ max ih =>
    obtain ⟨max', rfl⟩ := Nat.exists_eq_add_of_lt hPos.2
    intro rest
    rw [putVarint]
    by_cases hSmall : n < 0x80
    · obtain ⟨hByte, hLast⟩ := lastByte_spec hSmall
      rw [if_pos hSmall, List.singleton_append, readVarint]
      dsimp only
      rw [if_pos hLast, hByte, Nat.mod_eq_of_lt hSmall, Nat.mod_eq_of_lt hBits]
    · obtain ⟨hByte, hMore⟩ := moreByte_spec n
      have hSplit : n % 0x80 * 2 ^ shift + n / 0x80 * 2 ^ (shift + 7) = n * 2 ^ shift := by
        rw [pow_add]
        calc n % 0x80 * 2 ^ shift + n / 0x80 * (2 ^ shift * 2 ^ 7)
            = (n % 0x80 + 0x80 * (n / 0x80)) * 2 ^ shift := by ring
          _ = n * 2 ^ shift := by rw [Nat.mod_add_div]
      have hDiv : ∀ {k : Nat}, n < 0x80 ^ (k + 1) → n / 0x80 < 0x80 ^ k ∧ 0 < k := by
        intro k hk
        refine ⟨?_, ?_⟩
        · rw [Nat.div_lt_iff_lt_mul (by decide), ← pow_succ]
          exact hk
        · rcases Nat.eq_zero_or_pos k with rfl | hk'
          · exact absurd hk (by simpa using hSmall)
          · exact hk'
      have hHigh : n / 0x80 * 2 ^ (shift + 7) < 2 ^ bits := by omega
      have hRest := ih (hDiv hMax).1 (hDiv hMax').1 hHigh ⟨(hDiv hMax).2, (hDiv hMax').2⟩ rest
      rw [if_neg hSmall, List.cons_append, readVarint]
      dsimp only
      rw [if_neg hMore, hRest, hByte]
      have hLow : (n % 0x80 + 0x80) % 0x80 * 2 ^ shift % 2 ^ bits = n % 0x80 * 2 ^ shift := by
        rw [Nat.add_mod_right, Nat.mod_mod]
        exact Nat.mod_eq_of_lt (by omega)
      dsimp only
      rw [hLow, hSplit]

theorem reads_varintU64 {n : Nat} (hn : n < 2 ^ 64) : readVarintU64.Reads (putVarint 10 n) n := by
  have hFits : n < 0x80 ^ 10 := by
    omega
  have h : readVarintU64.Reads (putVarint 10 n) (n * 2 ^ 0) :=
    readVarint_putVarint hFits hFits (by omega) (by decide)
  rwa [pow_zero, mul_one] at h

/-- Both the five-byte form of a `u32` and the ten-byte form of a length. -/
theorem reads_varintU32 {n max : Nat} (hn : n < 2 ^ 32) (hMax : 5 ≤ max) :
    readVarintU32.Reads (putVarint max n) n := by
  have hFits : n < 0x80 ^ 5 := by
    omega
  have hFits' : n < 0x80 ^ max := lt_of_lt_of_le hFits (Nat.pow_le_pow_right (by decide) hMax)
  have h : readVarintU32.Reads (putVarint max n) (n * 2 ^ 0) :=
    readVarint_putVarint hFits hFits' (by omega) ⟨by decide, by omega⟩
  rwa [pow_zero, mul_one] at h

theorem reads_vecU8 {bytes : Bytes} (h : bytes.length < 2 ^ 32) :
    readVecU8.Reads (putVec bytes) bytes :=
  (reads_varintU32 h (by decide)).bind (Decoder.reads_take rfl)

theorem reads_kvData {kv : KvData} (h : kv.key.length < 2 ^ 32 ∧ kv.value.length < 2 ^ 32) :
    readKvData.Reads kv.toBytes kv :=
  (reads_vecU8 h.1).bind ((reads_vecU8 h.2).map (Decoder.reads_pure kv))

theorem reads_opTypeOfVariant (opType : OpType) :
    (opTypeOfVariant opType.toNat).Reads [] opType := by
  have hSmall : ¬ 255 < opType.toNat := by
    have := opType.toNat_lt
    omega
  unfold opTypeOfVariant
  rw [if_neg hSmall, OpType.fromNat_toNat]
  exact Decoder.reads_pure opType

theorem reads_message {message : LogMessage} (hPath : message.treePath.length < 2 ^ 32)
    (hEntries : message.entries.length < 2 ^ 32)
    (hKvs : ∀ kv ∈ message.entries, kv.key.length < 2 ^ 32 ∧ kv.value.length < 2 ^ 32) :
    readMessage.Reads message.toBytes message := by
  have hVariant : message.opType.toNat < 2 ^ 32 := by
    have := message.opType.toNat_lt
    omega
  have hRows := Decoder.reads_replicate fun kv hkv => reads_kvData (hKvs kv hkv)
  refine (reads_varintU32 hVariant (by decide)).bind ?_
  refine (reads_opTypeOfVariant message.opType).bind ?_
  refine (reads_vecU8 hPath).bind ?_
  refine (reads_varintU32 hEntries (by decide)).bind ?_
  exact hRows.map (Decoder.reads_pure message)

/-- The verifier reads back what was appended, without the signature. -/
theorem fromBytesForVerification_toBytes {entry : ChangelogEntry} (h : entry.FitsWidths) :
    fromBytesForVerification entry.toBytes = .ok { entry with signature := [] } := by
  have hReads : readEntry.Reads entry.toBytes { entry with signature := [] } := by
    refine (reads_varintU64 h.timestamp).bind ?_
    refine (reads_varintU32 h.uid (by decide)).bind ?_
    refine (reads_varintU32 h.parentChange (by decide)).bind ?_
    refine (reads_message h.treePath h.entries h.kvs).bind ?_
    refine (reads_varintU32 h.sigRef (by decide)).bind ?_
    refine (Decoder.reads_take h.parentClc).bind ?_
    exact (reads_vecU8 h.signature).map (Decoder.reads_pure _)
  have hAll := hReads []
  rw [List.append_nil] at hAll
  unfold fromBytesForVerification
  rw [hAll]

end EncryptedSpaces.Changelog
