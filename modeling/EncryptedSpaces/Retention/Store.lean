import EncryptedSpaces.Lib.Except
import EncryptedSpaces.Lib.WriteLog
import EncryptedSpaces.Crypto.KeySuite

/-!
# Row types and data access of the SimpleLine2 retention store

Every logical row field has its own string key.  `Cell` enumerates the keys
and `Cell.key` is the storage layout; the layout is injective
(`Cell.key_injective`), so a proof about a store may reason about cells and
never about key text.

Operations read and write through a `Builder`: reads see the operation's own
writes first.  A builder that is never finalized therefore holds, in `writes`,
every row ever written.
-/

namespace EncryptedSpaces.Retention

open Lib Crypto

/-- The stored fields of the four tables and the scalar counters. -/
inductive Cell where
  | fgkNext
  | dgkNext
  | dMin
  | dNext
  | fgkDStart (ordinal : Nat)
  | fgkCommitment (ordinal : Nat)
  | dgkCommitment (ordinal : Nat)
  | dCommitment (seq : Nat)
  | gbctDHead (fgkOrdinal : Nat)
  | gbctLink (fgkOrdinal : Nat)
  deriving DecidableEq, Repr

/-! ## Storage key layout -/

def fgkRowKey (ordinal : Nat) : String := "sl2/fgk/row/" ++ ordinal.repr
def dgkRowKey (ordinal : Nat) : String := "sl2/dgk/row/" ++ ordinal.repr
def dRowKey (seq : Nat) : String := "sl2/d/row/" ++ seq.repr
def gbctRowKey (fgkOrdinal : Nat) : String := "sl2/gbct/row/" ++ fgkOrdinal.repr

/-- The storage key of a cell. -/
def Cell.key : Cell → String
  | .fgkNext => "sl2/fgk/next"
  | .dgkNext => "sl2/dgk/next"
  | .dMin => "sl2/d/min"
  | .dNext => "sl2/d/next"
  | .fgkDStart ordinal => fgkRowKey ordinal ++ "/d_start"
  | .fgkCommitment ordinal => fgkRowKey ordinal ++ "/commitment"
  | .dgkCommitment ordinal => dgkRowKey ordinal ++ "/commitment"
  | .dCommitment seq => dRowKey seq ++ "/commitment"
  | .gbctDHead fgkOrdinal => gbctRowKey fgkOrdinal ++ "/d_head_ct"
  | .gbctLink fgkOrdinal => gbctRowKey fgkOrdinal ++ "/gb_ct"

private theorem slash_notMem_toDigits (n : Nat) : '/' ∉ Nat.toDigits 10 n := by
  intro hMem
  have := Nat.isDigit_of_mem_toDigits (by decide) (by decide) hMem
  exact absurd this (by decide)

private theorem toDigits_inj {m n : Nat}
    (h : Nat.toDigits 10 m = Nat.toDigits 10 n) : m = n := by
  rw [← Nat.ofDigitChars_ten_toDigits (n := m), h, Nat.ofDigitChars_ten_toDigits]

/-- Digits end at the first slash, so the field name can be read back from a
row key. -/
private theorem field_eq_of_rowKey_eq {m n : Nat} {s t : List Char}
    (hs : '/' ∉ s)
    (h : Nat.toDigits 10 m ++ '/' :: s = Nat.toDigits 10 n ++ '/' :: t) : s = t :=
  ((List.append_cons_inj_of_notMem (slash_notMem_toDigits m) hs).mp h).2.2

/-- Two cells never share a storage key. -/
theorem Cell.key_injective : Function.Injective Cell.key := by
  intro a b h
  have hList := congrArg String.toList h
  cases a <;> cases b <;>
    simp [Cell.key, fgkRowKey, dgkRowKey, dRowKey, gbctRowKey] at hList ⊢
  all_goals first
    | exact toDigits_inj hList
    | exact absurd (field_eq_of_rowKey_eq (by decide) hList) (by decide)

@[simp] theorem Cell.key_inj {a b : Cell} : a.key = b.key ↔ a = b :=
  Cell.key_injective.eq_iff

/-! ## Readers and builders -/

/-- Read-only view of key-management state. -/
abbrev Reader (V : Type) := String → Option V

/-- The strict view over an operation's pending writes: no fallback to the
state before the operation. -/
def pendingWritesView {V : Type} (pending : List (String × V)) : Reader V :=
  WriteLog.lookup pending

/-- `CollectingOperationBuilder`: reads delegate to `reader`, writes and
proofs are collected. -/
structure Builder (V P : Type) where
  reader : Reader V
  writes : List (String × V)
  proofs : List P
  needsDelivery : Bool

namespace Builder

variable {V P : Type}

/-- A builder over storage in which no key is present. -/
def noop : Builder V P :=
  { reader := fun _ => none, writes := [], proofs := [], needsDelivery := false }

def get (b : Builder V P) : Reader V := WriteLog.overlay b.writes b.reader

def put (b : Builder V P) (key : String) (value : V) : Builder V P :=
  { b with writes := b.writes ++ [(key, value)] }

def recordProof (b : Builder V P) (proof : P) : Builder V P :=
  { b with proofs := b.proofs ++ [proof] }

def markNeedsDelivery (b : Builder V P) : Builder V P :=
  { b with needsDelivery := true }

@[simp] theorem get_put (b : Builder V P) (c c' : Cell) (v : V) :
    (b.put c.key v).get c'.key = if c = c' then some v else b.get c'.key := by
  simp [get, put, WriteLog.overlay_snoc]

@[simp] theorem get_recordProof (b : Builder V P) (proof : P) :
    (b.recordProof proof).get = b.get := rfl

@[simp] theorem get_markNeedsDelivery (b : Builder V P) :
    b.markNeedsDelivery.get = b.get := rfl

@[simp] theorem writes_put (b : Builder V P) (key : String) (v : V) :
    (b.put key v).writes = b.writes ++ [(key, v)] := rfl

@[simp] theorem writes_recordProof (b : Builder V P) (proof : P) :
    (b.recordProof proof).writes = b.writes := rfl

@[simp] theorem writes_markNeedsDelivery (b : Builder V P) :
    b.markNeedsDelivery.writes = b.writes := rfl

end Builder

/-! ## Row types -/

/-- Fresh Group Key table row.  One per rekey, append-only. -/
structure FGKRow (C : Type) where
  dStart : Nat
  commitment : C
  deriving DecidableEq, Repr

/-- Derived Group Key commitment.  One per reduce, cleared on rekey. -/
structure DGKRow (C : Type) where
  commitment : C
  deriving DecidableEq, Repr

/-- D table row (data key commitment). -/
structure DTableRow (C : Type) where
  seq : Nat
  commitment : C
  deriving DecidableEq, Repr

/-- Ciphertext pair for a chain node. -/
structure GBCiphertextPair (E : Type) where
  olderGbKeyCiphertext : Option E
  dHeadCiphertext : E
  deriving DecidableEq, Repr

/-- A node of the reconstructed live chain, covering the half-open interval
`[dStart, dEnd)` of data-key sequence numbers. -/
structure LiveChainNode where
  fgkOrdinal : Nat
  dStart : Nat
  dEnd : Nat
  deriving DecidableEq, Repr

def LiveChainNode.contains (node : LiveChainNode) (seq : Nat) : Bool :=
  node.dStart ≤ seq && seq < node.dEnd

theorem LiveChainNode.contains_iff (node : LiveChainNode) (seq : Nat) :
    node.contains seq = true ↔ node.dStart ≤ seq ∧ seq < node.dEnd := by
  simp [contains]

/-! ## Field access -/

section Access

variable {K C E V P : Type} (S : KeySuite K C E V)

/-- Load a required `u64` scalar. -/
def loadU64Required (reader : Reader V) (key : String) : Option Nat := do
  S.decodeU64 (← reader key)

def loadCommitment (reader : Reader V) (key : String) : Option C := do
  S.decodeCommitment (← reader key)

def loadCiphertext (reader : Reader V) (key : String) : Option E := do
  S.decodeCiphertext (← reader key)

/-- A missing key is `none`; bytes that do not decode are an error. -/
def loadOptionalCiphertext (reader : Reader V) (key : String) :
    Option (Option E) :=
  match reader key with
  | none => some none
  | some bytes => S.decodeOptionalCiphertext bytes

@[simp] def saveU64 (b : Builder V P) (cell : Cell) (value : Nat) : Builder V P :=
  b.put cell.key (S.encodeU64 value)

@[simp] def saveCommitment (b : Builder V P) (cell : Cell) (commitment : C) :
    Builder V P :=
  b.put cell.key (S.encodeCommitment commitment)

@[simp] def saveCiphertext (b : Builder V P) (cell : Cell) (ciphertext : E) :
    Builder V P :=
  b.put cell.key (S.encodeCiphertext ciphertext)

/-! One write, seen through each kind of load. -/

@[simp] theorem loadU64Required_put (b : Builder V P) (c c' : Cell) (v : V) :
    loadU64Required S (b.put c.key v).get c'.key =
      if c = c' then S.decodeU64 v else loadU64Required S b.get c'.key := by
  simp only [loadU64Required, Builder.get_put]
  split <;> rfl

@[simp] theorem loadCommitment_put (b : Builder V P) (c c' : Cell) (v : V) :
    loadCommitment S (b.put c.key v).get c'.key =
      if c = c' then S.decodeCommitment v else loadCommitment S b.get c'.key := by
  simp only [loadCommitment, Builder.get_put]
  split <;> rfl

@[simp] theorem loadCiphertext_put (b : Builder V P) (c c' : Cell) (v : V) :
    loadCiphertext S (b.put c.key v).get c'.key =
      if c = c' then S.decodeCiphertext v else loadCiphertext S b.get c'.key := by
  simp only [loadCiphertext, Builder.get_put]
  split <;> rfl

@[simp] theorem loadOptionalCiphertext_put (b : Builder V P) (c c' : Cell) (v : V) :
    loadOptionalCiphertext S (b.put c.key v).get c'.key =
      if c = c' then S.decodeOptionalCiphertext v
      else loadOptionalCiphertext S b.get c'.key := by
  simp only [loadOptionalCiphertext, Builder.get_put]
  by_cases h : c = c' <;> simp [h]

/-! ## Table-specific loads and saves -/

def loadFgkNext (reader : Reader V) : Option Nat :=
  loadU64Required S reader Cell.fgkNext.key

@[simp] def saveFgkNext (b : Builder V P) (value : Nat) : Builder V P :=
  saveU64 S b .fgkNext value

def loadFgkRow (reader : Reader V) (ordinal : Nat) : Option (FGKRow C) := do
  let dStart ← loadU64Required S reader (Cell.fgkDStart ordinal).key
  let commitment ← loadCommitment S reader (Cell.fgkCommitment ordinal).key
  return { dStart, commitment }

@[simp] def saveFgkRow (b : Builder V P) (ordinal : Nat) (row : FGKRow C) :
    Builder V P :=
  saveCommitment S (saveU64 S b (.fgkDStart ordinal) row.dStart)
    (.fgkCommitment ordinal) row.commitment

def loadDgkNext (reader : Reader V) : Option Nat :=
  loadU64Required S reader Cell.dgkNext.key

@[simp] def saveDgkNext (b : Builder V P) (value : Nat) : Builder V P :=
  saveU64 S b .dgkNext value

def loadDgkRow (reader : Reader V) (ordinal : Nat) : Option (DGKRow C) := do
  return { commitment := ← loadCommitment S reader (Cell.dgkCommitment ordinal).key }

@[simp] def saveDgkRow (b : Builder V P) (ordinal : Nat) (row : DGKRow C) :
    Builder V P :=
  saveCommitment S b (.dgkCommitment ordinal) row.commitment

def loadDMin (reader : Reader V) : Option Nat :=
  loadU64Required S reader Cell.dMin.key

@[simp] def saveDMin (b : Builder V P) (value : Nat) : Builder V P :=
  saveU64 S b .dMin value

def loadDNext (reader : Reader V) : Option Nat :=
  loadU64Required S reader Cell.dNext.key

@[simp] def saveDNext (b : Builder V P) (value : Nat) : Builder V P :=
  saveU64 S b .dNext value

def loadDRow (reader : Reader V) (seq : Nat) : Option (DTableRow C) := do
  return { seq, commitment := ← loadCommitment S reader (Cell.dCommitment seq).key }

@[simp] def saveDRow (b : Builder V P) (row : DTableRow C) : Builder V P :=
  saveCommitment S b (.dCommitment row.seq) row.commitment

/-- Load the ciphertext pair of a chain node; on the tail the link is forced
to `none` whatever bytes are stored. -/
def loadGbctRow (reader : Reader V) (fgkOrdinal : Nat) (isTail : Bool) :
    Option (GBCiphertextPair E) := do
  let dHeadCiphertext ← loadCiphertext S reader (Cell.gbctDHead fgkOrdinal).key
  let olderGbKeyCiphertext ←
    if isTail then some none
    else loadOptionalCiphertext S reader (Cell.gbctLink fgkOrdinal).key
  return { olderGbKeyCiphertext, dHeadCiphertext }

/-- Load only the D-head ciphertext of a chain node. -/
def loadGbctDHead (reader : Reader V) (fgkOrdinal : Nat) : Option E :=
  loadCiphertext S reader (Cell.gbctDHead fgkOrdinal).key

/-- Tail rows omit the link field. -/
def saveGbctRow (b : Builder V P) (fgkOrdinal : Nat) (pair : GBCiphertextPair E) :
    Builder V P :=
  let b := saveCiphertext S b (.gbctDHead fgkOrdinal) pair.dHeadCiphertext
  match pair.olderGbKeyCiphertext with
  | some older => saveCiphertext S b (.gbctLink fgkOrdinal) older
  | none => b

end Access

end EncryptedSpaces.Retention
