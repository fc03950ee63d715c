import EncryptedSpaces.Ops.Scans
import Mathlib.Order.Interval.Finset.Basic

/-!
# Reads of a traced tree

A verifier reads from a merk tree that the host has pruned.  A prefix is read as the range
up to its successor, and every pair that is read is checked against the hash of its node.
Reaching a pruned child in a range is a panic.
-/

namespace EncryptedSpaces.Tracer

open Encoding Changelog Ops List

/-- A child slot of a merk node; a tree is a slot with a node. -/
inductive Slot where
  | empty
  | pruned (key : Bytes) (hash : Digest) (childHeights : UInt8 × UInt8)
  | node (key value : Bytes) (kvHash : Digest) (left right : Slot)
  deriving DecidableEq, Repr

inductive GetResult where
  | found (value : Bytes)
  | notFound
  | pruned
  deriving DecidableEq, Repr

section Reads

-- merk's hash of a pair, which fails on pairs that are too long
variable (kvHash : Bytes → Bytes → Option Digest)

/-- The pairs of a range, in the order of the tree.  `none` is a panic: a pruned child, or
a pair that is not the one its node was hashed with. -/
def collectRange (start : Bytes) (stop : Option Bytes) : Slot → Option (List (Bytes × Bytes))
  | .empty => some []
  | .pruned .. => none
  | .node key value stored left right => do
      let before ← (if start < key then collectRange start stop left else some [])
      let here ← (if start ≤ key ∧ ∀ bound ∈ stop, key < bound then
          if kvHash key value = some stored then some [(key, value)] else none
        else some [])
      let after ← (if ∀ bound ∈ stop, key < bound then collectRange start stop right else some [])
      return before ++ here ++ after

def lookupValueVerified (key : Bytes) : Slot → Option GetResult
  | .empty => some .notFound
  | .pruned .. => some .pruned
  | .node nodeKey value stored left right =>
    if key = nodeKey then if kvHash key value = some stored then some (.found value) else none
    else if key < nodeKey then lookupValueVerified key left
    else lookupValueVerified key right

end Reads

/-! ## Search trees -/

/-- The pairs of all nodes that are there, from left to right. -/
def Slot.entries : Slot → List (Bytes × Bytes)
  | .empty | .pruned .. => []
  | .node key value _ left right => left.entries ++ (key, value) :: right.entries

/-- Every node has the hash of its pair. -/
def Slot.Hashed (kvHash : Bytes → Bytes → Option Digest) : Slot → Prop
  | .empty | .pruned .. => True
  | .node key value stored left right =>
    kvHash key value = some stored ∧ left.Hashed kvHash ∧ right.Hashed kvHash

/-- No child is pruned. -/
def Slot.Complete : Slot → Prop
  | .empty => True
  | .pruned .. => False
  | .node _ _ _ left right => left.Complete ∧ right.Complete

def Slot.Ordered (t : Slot) : Prop := (t.entries.map Prod.fst).Pairwise (· < ·)

/-- A tree with its keys in order, whose nodes have their hashes. -/
structure SearchTree (kvHash : Bytes → Bytes → Option Digest) where
  root : Slot
  ordered : root.Ordered
  hashed : root.Hashed kvHash

variable {kvHash : Bytes → Bytes → Option Digest} {start key : Bytes}
    {stop : Option Bytes} {t : Slot}

theorem Slot.Ordered.node {value : Bytes} {stored : Digest} {left right : Slot}
    (h : (Slot.node key value stored left right).Ordered) :
    left.Ordered ∧ right.Ordered ∧ (∀ p ∈ left.entries, p.1 < key) ∧
      ∀ p ∈ right.entries, key < p.1 := by
  unfold Slot.Ordered Slot.entries at h
  rw [map_append, map_cons, pairwise_append, pairwise_cons] at h
  obtain ⟨hLeft, ⟨hAbove, hRight⟩, hAcross⟩ := h
  refine ⟨hLeft, hRight, fun p hp => ?_, fun p hp => hAbove p.1 (mem_map_of_mem hp)⟩
  exact hAcross p.1 (mem_map_of_mem hp) key mem_cons_self

/-- A range that is read has the pairs of the tree with keys in it. -/
theorem collectRange_eq {results : List (Bytes × Bytes)} (h : t.Ordered)
    (hRun : collectRange kvHash start stop t = some results) :
    results = t.entries.filter fun p => start ≤ p.1 ∧ ∀ bound ∈ stop, p.1 < bound := by
  induction t generalizing results with
  | empty =>
    obtain rfl := Option.some.inj hRun
    rfl
  | pruned => cases hRun
  | node key value stored left right ihLeft ihRight =>
    obtain ⟨hLeft, hRight, hBelow, hAbove⟩ := h.node
    simp only [collectRange, bind, Option.bind_eq_some_iff] at hRun
    obtain ⟨before, hBefore, here, hHere, after, hAfter, hResults⟩ := hRun
    obtain rfl := Option.some.inj hResults
    rw [Slot.entries, filter_append, filter_cons, append_assoc]
    congr 1
    · split_ifs at hBefore with hStart
      · exact ihLeft hLeft hBefore
      · -- all keys on the left are below the range
        obtain rfl := Option.some.inj hBefore
        refine (filter_eq_nil_iff.mpr fun p hp hIn => hStart ?_).symm
        exact Std.lt_of_le_of_lt (of_decide_eq_true hIn).1 (hBelow p hp)
    · have hRest : after = right.entries.filter fun p => start ≤ p.1 ∧
        ∀ bound ∈ stop, p.1 < bound := by
        split_ifs at hAfter with hEnd
        · exact ihRight hRight hAfter
        · obtain rfl := Option.some.inj hAfter
          refine (filter_eq_nil_iff.mpr fun p hp hIn => hEnd fun bound hBound => ?_).symm
          exact Std.lt_trans (hAbove p hp) ((of_decide_eq_true hIn).2 bound hBound)
      rw [← hRest]
      split_ifs at hHere with hIn hHash
      · obtain rfl := Option.some.inj hHere
        rw [if_pos (decide_eq_true hIn)]
        rfl
      · obtain rfl := Option.some.inj hHere
        rw [if_neg (fun h => hIn (of_decide_eq_true h))]
        rfl

/-- Nothing is missing in a tree without pruned children. -/
theorem exists_collectRange (hHashed : t.Hashed kvHash) (hComplete : t.Complete) :
    ∃ results, collectRange kvHash start stop t = some results := by
  induction t with
  | empty => exact ⟨[], rfl⟩
  | pruned => exact hComplete.elim
  | node key value stored left right ihLeft ihRight =>
    obtain ⟨before, hBefore⟩ := ihLeft hHashed.2.1 hComplete.1
    obtain ⟨after, hAfter⟩ := ihRight hHashed.2.2 hComplete.2
    unfold collectRange
    rw [hBefore, hAfter, if_pos hHashed.1]
    split <;> split <;> split <;> exact ⟨_, rfl⟩

theorem lookupValueVerified_iff {value : Bytes} (h : t.Ordered) (hHashed : t.Hashed kvHash) :
    lookupValueVerified kvHash key t = some (.found value) ↔ (key, value) ∈ t.entries := by
  induction t with
  | empty | pruned => simp [lookupValueVerified, Slot.entries]
  | node nodeKey nodeValue stored left right ihLeft ihRight =>
    obtain ⟨hLeft, hRight, hBelow, hAbove⟩ := h.node
    have hNotLeft : ¬ key < nodeKey → (key, value) ∉ left.entries := fun hGe hMem =>
      hGe (hBelow _ hMem)
    have hNotRight : ¬ nodeKey < key → (key, value) ∉ right.entries := fun hLe hMem =>
      hLe (hAbove _ hMem)
    unfold lookupValueVerified Slot.entries
    by_cases hKey : key = nodeKey
    · subst hKey
      have hIrrefl : ¬ key < key := Std.lt_irrefl
      rw [if_pos rfl, if_pos hHashed.1]
      simp [hNotLeft hIrrefl, hNotRight hIrrefl, eq_comm]
    · rw [if_neg hKey]
      by_cases hLt : key < nodeKey
      · rw [if_pos hLt, ihLeft hLeft hHashed.2.1]
        simp [hKey, hNotRight (List.lt_asymm hLt)]
      · rw [if_neg hLt, ihRight hRight hHashed.2.2]
        simp [hKey, hNotLeft hLt]

/-- Four keys in three levels, two of them under the prefix `ff`. -/
def sampleTree : SearchTree fun key value => some (key ++ value) where
  root := .node [0xff] [1] [0xff, 1]
    (.node [0xfe] [2] [0xfe, 2] .empty (.node [0xfe, 0xff] [3] [0xfe, 0xff, 3] .empty .empty))
    (.node [0xff, 0xff, 0] [4] [0xff, 0xff, 0, 4] .empty .empty)
  ordered := by
    unfold Slot.Ordered
    decide
  hashed := ⟨rfl, ⟨rfl, trivial, rfl, trivial, trivial⟩, rfl, trivial, trivial⟩

/-- A prefix read returns the pairs of the tree with that prefix, each once and in order; it
returns whenever no child is pruned.  A key read finds exactly the pairs of the tree. -/
theorem reads_exact (tree : SearchTree kvHash) (p : Bytes) :
    (tree.root.Complete →
      ∃ results, collectRange kvHash p (prefixSuccessor p) tree.root = some results) ∧
    (∀ results, collectRange kvHash p (prefixSuccessor p) tree.root = some results →
      (results.map Prod.fst).Pairwise (· < ·) ∧
        ∀ pair, pair ∈ results ↔ pair ∈ tree.root.entries ∧ p <+: pair.1) ∧
    ∀ key value, lookupValueVerified kvHash key tree.root = some (.found value) ↔
      (key, value) ∈ tree.root.entries := by
  refine ⟨exists_collectRange tree.hashed, fun results hRun => ?_,
    fun key value => lookupValueVerified_iff tree.ordered tree.hashed⟩
  rw [collectRange_eq tree.ordered hRun]
  refine ⟨tree.ordered.sublist (filter_sublist.map _), fun pair => ?_⟩
  rw [mem_filter, decide_eq_true_eq, prefixSuccessor_spec]

/-- The prefix `ff` has no successor; its range is read to the end of the tree. -/
theorem sampleTree_reads_ff :
    prefixSuccessor [0xff] = none ∧
    collectRange (fun key value => some (key ++ value)) [0xff] none sampleTree.root =
      some [([0xff], [1]), ([0xff, 0xff, 0], [4])] ∧
    (∀ pair, pair ∈ [(([0xff] : Bytes), ([1] : Bytes)), ([0xff, 0xff, 0], [4])] ↔
      pair ∈ sampleTree.root.entries ∧ [0xff] <+: pair.1) ∧
    lookupValueVerified (fun key value => some (key ++ value)) [0xfe, 0xff] sampleTree.root =
      some (.found [3]) :=
  ⟨by decide, by decide, ((reads_exact sampleTree [0xff]).2.1 _ (by decide)).2,
    ((reads_exact sampleTree []).2.2 _ _).mpr (by decide)⟩

end EncryptedSpaces.Tracer
