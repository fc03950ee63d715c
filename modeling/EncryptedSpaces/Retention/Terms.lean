import EncryptedSpaces.Crypto.KeySuite

/-!
# Keys as terms

Keys are terms: names drawn at random, derivations, and the junk a wrong key
decrypts to.  A derivation can only be applied forwards and a ciphertext opens
only under the key it was made with, so derivation is one-way and encryption
perfect.
-/

namespace EncryptedSpaces.Retention.Symbolic

open Crypto

/-- Key terms.  A draw is one operation's use of the random source; the two
kinds of name say what the key was drawn for. -/
inductive Key where
  | group (draw i : Nat)
  | data (draw : Nat)
  | derive (parent : Key) (tag : DerivationTag)
  | junk (sealedUnder message openedWith : Key)
  deriving DecidableEq, Repr

structure Ciphertext where
  key : Key
  message : Key
  deriving DecidableEq, Repr

/-- A commitment hides the key it stands for. -/
structure Commitment where
  key : Key
  deriving DecidableEq, Repr

/-- Stored cell values. -/
inductive Stored where
  | u64 (n : Nat)
  | commitment (c : Commitment)
  | ciphertext (ct : Ciphertext)
  deriving DecidableEq, Repr

def suite : KeySuite Key Commitment Ciphertext Stored where
  commit key := { key }
  derive := .derive
  encrypt key message := { key, message }
  decrypt ct key := if ct.key = key then ct.message else .junk ct.key ct.message key
  encodeU64 := .u64
  decodeU64 v := match v with
    | .u64 n => if n < 2 ^ 64 then some n else none
    | _ => none
  encodeCommitment := .commitment
  decodeCommitment v := match v with
    | .commitment c => some c
    | _ => none
  encodeCiphertext := .ciphertext
  decodeCiphertext v := match v with
    | .ciphertext ct => some ct
    | _ => none
  decodeOptionalCiphertext v := match v with
    | .ciphertext ct => some (some ct)
    | _ => none

theorem suite_lawful : suite.Lawful where
  decrypt_encrypt key message := by simp [suite]
  decodeU64_encodeU64 _ hn := if_pos hn
  decodeU64_lt v n h := by
    cases v <;> simp [suite] at h
    omega
  decodeCommitment_encodeCommitment _ := rfl
  decodeCiphertext_encodeCiphertext _ := rfl
  decodeOptionalCiphertext_encodeCiphertext _ := rfl
  commit_injective a b h := by simpa [suite] using h

end EncryptedSpaces.Retention.Symbolic
