import EncryptedSpaces.Lib.WriteLog
import Std.Data.ExtTreeMap

/-!
# Tree maps filled from lists

Lookups in a map after the entries of a list have been inserted one by one: the
last entry of a key wins, and a map is recovered from the list of its entries.
-/

namespace EncryptedSpaces.Lib.TreeMaps

variable {α β : Type} [Ord α] [Std.TransOrd α] [Std.LawfulEqOrd α] [DecidableEq α]

theorem getElem?_insert_eq (m : Std.ExtTreeMap α β compare) (k : α) (v : β) (k' : α) :
    (m.insert k v)[k']? = if k = k' then some v else m[k']? := by
  rw [Std.ExtTreeMap.getElem?_insert]
  simp only [Std.LawfulEqCmp.compare_eq_iff_eq]

theorem getElem?_erase_eq (m : Std.ExtTreeMap α β compare) (k k' : α) :
    (m.erase k)[k']? = if k = k' then none else m[k']? := by
  rw [Std.ExtTreeMap.getElem?_erase]
  simp only [Std.LawfulEqCmp.compare_eq_iff_eq]

/-- An entry that is there is changed. -/
theorem getElem?_modify_eq (m : Std.ExtTreeMap α β compare) (k : α) (f : β → β) (k' : α) :
    (m.modify k f)[k']? = (m[k']?).map fun v => if k = k' then f v else v := by
  rw [Std.ExtTreeMap.getElem?_modify]
  by_cases hKey : k = k'
  · simp [hKey]
  · simp [hKey]

theorem modify_eq_match (m : Std.ExtTreeMap α β compare) (k : α) (f : β → β) :
    m.modify k f = match m[k]? with
      | some v => m.insert k (f v)
      | none => m := by
  apply Std.ExtTreeMap.ext_getElem?
  intro k'
  rw [Std.ExtTreeMap.getElem?_modify]
  simp only [Std.LawfulEqCmp.compare_eq_iff_eq]
  cases hEntry : m[k]? with
  | some v => exact (getElem?_insert_eq m k (f v) k').symm
  | none =>
    by_cases hKey : k = k'
    · rw [if_pos hKey, ← hKey, hEntry]
      rfl
    · rw [if_neg hKey]

omit [DecidableEq α] [Std.LawfulEqOrd α] in
theorem mem_iff_exists {m : Std.ExtTreeMap α β compare} {k : α} : k ∈ m ↔ ∃ v, m[k]? = some v := by
  rw [Std.ExtTreeMap.mem_iff_isSome_getElem?, Option.isSome_iff_exists]

/-- The entries of a list, inserted in order. -/
def insertAll (m : Std.ExtTreeMap α β compare) (entries : List (α × β)) :
    Std.ExtTreeMap α β compare :=
  entries.foldl (fun m entry => m.insert entry.1 entry.2) m

theorem getElem?_insertAll (m : Std.ExtTreeMap α β compare) (entries : List (α × β)) (k : α) :
    (insertAll m entries)[k]? = (WriteLog.lookup entries k).or m[k]? := by
  unfold insertAll
  induction entries generalizing m with
  | nil => rfl
  | cons first entries ih =>
    rw [List.foldl_cons, ih, WriteLog.lookup_cons, getElem?_insert_eq, Option.or_assoc]
    split <;> rfl

theorem getElem?_insertAll_of_notMem {m : Std.ExtTreeMap α β compare} {entries : List (α × β)}
    {k : α} (h : ∀ v, (k, v) ∉ entries) : (insertAll m entries)[k]? = m[k]? := by
  have hNone : WriteLog.lookup entries k = none := by
    rw [WriteLog.lookup_eq_none_iff]
    rintro ⟨_, v⟩ hMem rfl
    exact h v hMem
  rw [getElem?_insertAll, hNone, Option.none_or]

theorem lookup_toList (m : Std.ExtTreeMap α β compare) (k : α) :
    WriteLog.lookup m.toList k = m[k]? :=
  WriteLog.lookup_eq_of_mem_iff fun _ => Std.ExtTreeMap.mem_toList_iff_getElem?_eq_some

/-- A map is the list of its entries. -/
theorem insertAll_toList (m : Std.ExtTreeMap α β compare) : insertAll ∅ m.toList = m := by
  apply Std.ExtTreeMap.ext_getElem?
  intro k
  rw [getElem?_insertAll, lookup_toList, Std.ExtTreeMap.getElem?_empty, Option.or_none]

end EncryptedSpaces.Lib.TreeMaps
