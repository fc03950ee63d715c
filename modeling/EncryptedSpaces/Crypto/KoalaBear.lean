import Mathlib.Data.ZMod.Basic
import EncryptedSpaces.Lib.Digits
import EncryptedSpaces.Crypto.KeySuite

/-!
# The Poseidon2 suite over KoalaBear

Key material and commitments are eight field limbs, packed little-endian in
base `FIELD_MODULUS` into 32 bytes.  Encryption is a one-time pad: limbwise
addition.  The Poseidon2 permutation, the tag hash and the JSON text of a
ciphertext are external and stay parameters.
-/

namespace EncryptedSpaces.Crypto.KoalaBear

open Lib.Digits

/-- `KoalaBear::ORDER_U32`. -/
def fieldModulus : Nat := 2130706433

/-- `KEYMATERIAL_LIMBS`, equal to the Poseidon2-16 rate. -/
def keymaterialLimbs : Nat := 8

abbrev Limb := ZMod fieldModulus

instance : NeZero fieldModulus := ⟨by decide⟩

/-- `AlgebraicKeyMaterial` and `AlgebraicKeyCommitment`. -/
abbrev Limbs := Fin keymaterialLimbs → Limb

/-- `HashBlock`: rate segment, then capacity segment. -/
abbrev HashBlock := Fin (keymaterialLimbs + keymaterialLimbs) → Limb

/-- The integer a limb vector stands for. -/
def toNat (limbs : Limbs) : Nat :=
  Nat.ofDigits fieldModulus (List.ofFn fun i => (limbs i).val)

/-- The limbs of an integer. -/
def ofNat (n : Nat) : Limbs := fun i =>
  ((digitsLE fieldModulus keymaterialLimbs n).getD i 0 : Nat)

/-- Serialized form, `SIZE = 32` bytes. -/
def toBytes (limbs : Limbs) : List UInt8 := bytesLE 32 (toNat limbs)

/-- `canonical_encoding_from_bytes`: exactly 32 bytes below the capacity. -/
def fromBytes (bytes : List UInt8) : Option Limbs :=
  if bytes.length = 32 ∧ ofBytesLE bytes < fieldModulus ^ keymaterialLimbs then
    some (ofNat (ofBytesLE bytes))
  else none

theorem length_valDigits (limbs : Limbs) :
    (List.ofFn fun i => (limbs i).val).length = keymaterialLimbs :=
  List.length_ofFn

theorem valDigits_lt (limbs : Limbs) : ∀ d ∈ List.ofFn fun i => (limbs i).val,
    d < fieldModulus := by
  intro d hd
  obtain ⟨i, rfl⟩ := List.mem_ofFn.mp hd
  exact ZMod.val_lt (limbs i)

theorem toNat_lt (limbs : Limbs) : toNat limbs < fieldModulus ^ keymaterialLimbs := by
  have h := ofDigits_lt (by decide) (valDigits_lt limbs)
  rwa [length_valDigits] at h

/-- Packing and unpacking limbs is the identity. -/
theorem ofNat_toNat (limbs : Limbs) : ofNat (toNat limbs) = limbs := by
  have hDigits := digitsLE_ofDigits (by decide) (valDigits_lt limbs)
  rw [length_valDigits] at hDigits
  funext i
  have hi := i.isLt
  simp [ofNat, toNat, hDigits, List.getD_eq_getElem?_getD, hi]

/-- Every limb vector fits the serialized size. -/
theorem toNat_lt_bytes (limbs : Limbs) : toNat limbs < 256 ^ 32 :=
  Nat.lt_trans (toNat_lt limbs) (by decide)

theorem fromBytes_toBytes (limbs : Limbs) : fromBytes (toBytes limbs) = some limbs := by
  have hValue : ofBytesLE (toBytes limbs) = toNat limbs :=
    ofBytesLE_bytesLE_of_lt (toNat_lt_bytes limbs)
  rw [fromBytes, hValue, if_pos ⟨length_bytesLE _ _, toNat_lt limbs⟩, ofNat_toNat]

/-! ## Derivation -/

/-- `key_to_hash_state` with the tag limbs in the capacity segment. -/
def hashState (key tag : Limbs) : HashBlock := Fin.append key tag

/-- The rate segment of a block. -/
def rate (block : HashBlock) : Limbs := fun i => block (Fin.castAdd keymaterialLimbs i)

def commit (permute : HashBlock → HashBlock) (key : Limbs) : Limbs :=
  rate (permute (hashState key 0))

def derive (permute : HashBlock → HashBlock) (tagLimbs : DerivationTag → Limbs)
    (parent : Limbs) (tag : DerivationTag) : Limbs :=
  rate (permute (hashState parent (tagLimbs tag)))

/-! ## Stored encodings -/

/-- The JSON text of a ciphertext, and of an optional one. -/
structure JsonCodec where
  toVec : Limbs → List UInt8
  fromSlice : List UInt8 → Option Limbs
  fromSliceOptional : List UInt8 → Option (Option Limbs)

structure JsonCodec.Lawful (json : JsonCodec) : Prop where
  fromSlice_toVec : ∀ limbs, json.fromSlice (json.toVec limbs) = some limbs
  fromSliceOptional_toVec : ∀ limbs,
    json.fromSliceOptional (json.toVec limbs) = some (some limbs)

/-- The codec that stores the canonical bytes themselves. -/
def rawCodec : JsonCodec where
  toVec := toBytes
  fromSlice := fromBytes
  fromSliceOptional bytes := (fromBytes bytes).map some

theorem rawCodec_lawful : rawCodec.Lawful where
  fromSlice_toVec limbs := by simp only [rawCodec, fromBytes_toBytes]
  fromSliceOptional_toVec limbs := by simp only [rawCodec, fromBytes_toBytes, Option.map_some]

/-- `u64` scalars are eight big-endian bytes. -/
def u64ToBytes (n : Nat) : List UInt8 := (bytesLE 8 n).reverse

def u64FromBytes (bytes : List UInt8) : Option Nat :=
  if bytes.length = 8 then some (ofBytesLE bytes.reverse) else none

def suite (permute : HashBlock → HashBlock) (tagLimbs : DerivationTag → Limbs)
    (json : JsonCodec) : KeySuite Limbs Limbs Limbs (List UInt8) where
  commit := commit permute
  derive := derive permute tagLimbs
  encrypt key message := key + message
  decrypt ciphertext key := ciphertext - key
  encodeU64 := u64ToBytes
  decodeU64 := u64FromBytes
  encodeCommitment := toBytes
  decodeCommitment := fromBytes
  encodeCiphertext := json.toVec
  decodeCiphertext := json.fromSlice
  decodeOptionalCiphertext := json.fromSliceOptional

/-- The suite is lawful as soon as commitments are binding and the JSON text
of a ciphertext reads back. -/
theorem suite_lawful {permute : HashBlock → HashBlock} {tagLimbs : DerivationTag → Limbs}
    {json : JsonCodec} (hBinding : Function.Injective (commit permute)) (hJson : json.Lawful) :
    (suite permute tagLimbs json).Lawful where
  decrypt_encrypt key message := by
    exact add_sub_cancel_left key message
  decodeU64_encodeU64 n hn := by
    have hValue : ofBytesLE (bytesLE 8 n) = n := ofBytesLE_bytesLE_of_lt (by simpa using hn)
    simp [suite, u64FromBytes, u64ToBytes, hValue]
  decodeU64_lt v n h := by
    simp only [suite, u64FromBytes] at h
    split at h
    · next hLen =>
        cases h
        have hLt := ofBytesLE_lt v.reverse
        rw [List.length_reverse, hLen] at hLt
        exact hLt
    · cases h
  decodeCommitment_encodeCommitment commitment := by
    simp only [suite, fromBytes_toBytes]
  decodeCiphertext_encodeCiphertext := hJson.fromSlice_toVec
  decodeOptionalCiphertext_encodeCiphertext := hJson.fromSliceOptional_toVec
  commit_injective := hBinding

theorem commit_id_injective : Function.Injective (commit id) := by
  intro a b h
  funext i
  have hi := congrFun h i
  simpa [commit, rate, hashState] using hi

end EncryptedSpaces.Crypto.KoalaBear
