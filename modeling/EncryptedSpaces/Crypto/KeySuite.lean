import Mathlib.Algebra.Group.Nat.Defs

/-!
# Key derivation, commitments and one-time-pad encryption as an interface

The retention code is generic over a `KeyDerivation` (commit and derive) and
over the byte encodings of its stored fields.  `KeySuite` is that interface:
key material `K`, commitments `C`, encrypted key material `E` and stored cell
values `V`.  Two suites instantiate it: `KoalaBear` (the code's own limb
arithmetic over a Poseidon2 permutation) and the term algebra of
`Retention.Symbolic`.

`Lawful` collects what the retention proofs need of a suite: decryption
inverts encryption, the stored encodings round-trip, and commitments are
binding.  Only the last is a cryptographic assumption.
-/

namespace EncryptedSpaces.Crypto

/-- The four derivation domains of the retention layer. -/
inductive DerivationTag where
  | gbChainLink
  | dHeadEncrypt
  | dDerive
  | hgkDerive
  deriving DecidableEq, Repr

/-- `KeyDerivation` together with `EncryptedKeyMaterial` and the per-field
encodings of the retention store. -/
structure KeySuite (K C E V : Type) where
  commit : K → C
  derive : K → DerivationTag → K
  /-- `encrypt key message` -/
  encrypt : K → K → E
  /-- `decrypt ciphertext key` -/
  decrypt : E → K → K
  encodeU64 : Nat → V
  decodeU64 : V → Option Nat
  encodeCommitment : C → V
  decodeCommitment : V → Option C
  encodeCiphertext : E → V
  decodeCiphertext : V → Option E
  /-- An optional field may also hold an explicit "no ciphertext". -/
  decodeOptionalCiphertext : V → Option (Option E)

namespace KeySuite

variable {K C E V : Type}

/-- What the retention proofs assume of a suite. -/
structure Lawful (S : KeySuite K C E V) : Prop where
  decrypt_encrypt : ∀ key message, S.decrypt (S.encrypt key message) key = message
  decodeU64_encodeU64 : ∀ n, n < 2 ^ 64 → S.decodeU64 (S.encodeU64 n) = some n
  decodeU64_lt : ∀ v n, S.decodeU64 v = some n → n < 2 ^ 64
  decodeCommitment_encodeCommitment : ∀ c,
    S.decodeCommitment (S.encodeCommitment c) = some c
  decodeCiphertext_encodeCiphertext : ∀ ct,
    S.decodeCiphertext (S.encodeCiphertext ct) = some ct
  decodeOptionalCiphertext_encodeCiphertext : ∀ ct,
    S.decodeOptionalCiphertext (S.encodeCiphertext ct) = some (some ct)
  /-- Commitments are binding. -/
  commit_injective : Function.Injective S.commit

/-- Encrypt an older GB key under a newer GB key (chain link). -/
def encryptGbChainLink (S : KeySuite K C E V) (gbKey olderGbKey : K) : E :=
  S.encrypt (S.derive gbKey .gbChainLink) olderGbKey

/-- Encrypt a D head under a GB key. -/
def encryptDHead (S : KeySuite K C E V) (gbKey dHead : K) : E :=
  S.encrypt (S.derive gbKey .dHeadEncrypt) dHead

/-- `n` derivations with one tag. -/
def deriveN (S : KeySuite K C E V) (tag : DerivationTag) : Nat → K → K
  | 0, key => key
  | n + 1, key => S.deriveN tag n (S.derive key tag)

theorem deriveN_succ (S : KeySuite K C E V) (tag : DerivationTag) (n : Nat)
    (key : K) :
    S.deriveN tag (n + 1) key = S.derive (S.deriveN tag n key) tag := by
  induction n generalizing key with
  | zero => rfl
  | succ n ih =>
    rw [deriveN, ih (S.derive key tag)]
    rfl

@[simp] theorem Lawful.decrypt_encryptGbChainLink {S : KeySuite K C E V}
    (hS : S.Lawful) (gbKey olderGbKey : K) :
    S.decrypt (S.encryptGbChainLink gbKey olderGbKey)
      (S.derive gbKey .gbChainLink) = olderGbKey :=
  hS.decrypt_encrypt _ _

@[simp] theorem Lawful.decrypt_encryptDHead {S : KeySuite K C E V}
    (hS : S.Lawful) (gbKey dHead : K) :
    S.decrypt (S.encryptDHead gbKey dHead)
      (S.derive gbKey .dHeadEncrypt) = dHead :=
  hS.decrypt_encrypt _ _

end KeySuite

end EncryptedSpaces.Crypto
