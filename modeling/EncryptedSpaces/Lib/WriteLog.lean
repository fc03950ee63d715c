import Mathlib.Data.List.Basic

/-!
# Append-only write logs with latest-write-wins reads

A log is the list of writes made so far, oldest first.  Reading a key scans
the log from its newest entry; a key that was never written falls through to
a base reader.  The lemmas below let a proof about a sequence of writes
compute with `lookup` alone, without ever reversing a list.
-/

namespace EncryptedSpaces.Lib.WriteLog

variable {κ ν : Type} [DecidableEq κ]

/-- The newest value written under `key`. -/
def lookup (log : List (κ × ν)) (key : κ) : Option ν :=
  (log.reverse.find? fun entry => entry.1 == key).map Prod.snd

/-- Read-your-writes: the log first, the base reader for keys it never wrote. -/
def overlay (log : List (κ × ν)) (base : κ → Option ν) (key : κ) : Option ν :=
  (lookup log key).or (base key)

/-- The newer part of a log shadows the older part. -/
theorem lookup_append (older newer : List (κ × ν)) (key : κ) :
    lookup (older ++ newer) key = (lookup newer key).or (lookup older key) := by
  unfold lookup
  rw [List.reverse_append, List.find?_append]
  cases newer.reverse.find? (fun entry => entry.1 == key) <;> rfl

theorem lookup_singleton (entry : κ × ν) (key : κ) :
    lookup [entry] key = if entry.1 = key then some entry.2 else none := by
  by_cases h : entry.1 = key <;> simp [lookup, h]

theorem lookup_cons (entry : κ × ν) (log : List (κ × ν)) (key : κ) :
    lookup (entry :: log) key =
      (lookup log key).or (if entry.1 = key then some entry.2 else none) := by
  rw [← List.singleton_append, lookup_append, lookup_singleton]

/-- Appending one write is a pointwise update of the visible state. -/
theorem overlay_snoc (log : List (κ × ν)) (base : κ → Option ν) (k : κ) (v : ν)
    (key : κ) :
    overlay (log ++ [(k, v)]) base key =
      if k = key then some v else overlay log base key := by
  unfold overlay
  rw [lookup_append, lookup_singleton]
  by_cases h : k = key <;> simp [h]

theorem lookup_eq_none_iff (log : List (κ × ν)) (key : κ) :
    lookup log key = none ↔ ∀ entry ∈ log, entry.1 ≠ key := by
  simp [lookup]

/-- Only the writes of a key, in their order, decide what is read. -/
theorem lookup_congr {log log' : List (κ × ν)} {key : κ}
    (h : log.filter (fun entry => decide (entry.1 = key)) =
      log'.filter (fun entry => decide (entry.1 = key))) : lookup log key = lookup log' key := by
  have hLast : ∀ log : List (κ × ν), lookup log key =
      (log.filter fun entry => decide (entry.1 = key)).getLast?.map Prod.snd := by
    intro log
    rw [List.getLast?_filter]
    rfl
  rw [hLast, hLast, h]

/-- A value read from the log was written to it under that key. -/
theorem mem_of_lookup_eq_some {log : List (κ × ν)} {key : κ} {value : ν}
    (h : lookup log key = some value) : (key, value) ∈ log := by
  simp only [lookup, Option.map_eq_some_iff] at h
  obtain ⟨entry, hFind, rfl⟩ := h
  have hKey : entry.1 = key := by simpa using List.find?_some hFind
  have hMem := List.mem_of_find?_eq_some hFind
  rw [← hKey]
  simpa using hMem

/-- A key that the log writes with one value. -/
theorem lookup_eq_of_mem_iff {log : List (κ × ν)} {key : κ} {stored : Option ν}
    (h : ∀ value, (key, value) ∈ log ↔ stored = some value) : lookup log key = stored := by
  cases hLookup : lookup log key with
  | some value => exact ((h value).mp (mem_of_lookup_eq_some hLookup)).symm
  | none =>
    cases stored with
    | none => rfl
    | some value => exact absurd rfl ((lookup_eq_none_iff log key).mp hLookup _ ((h value).mpr rfl))

theorem lookup_map {μ : Type} (f : ν → μ) (log : List (κ × ν)) (key : κ) :
    lookup (log.map fun entry => (entry.1, f entry.2)) key = (lookup log key).map f := by
  unfold lookup
  rw [← List.map_reverse, List.find?_map, Option.map_map, Option.map_map]
  rfl

end EncryptedSpaces.Lib.WriteLog
