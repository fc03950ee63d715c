import EncryptedSpaces.Lib.Lists
import EncryptedSpaces.Retention.SpaceKey

/-!
# The segments of a retention store

`Layout` is the numeric skeleton of a store: the four counters and the first
sequence number of every segment, where segment `o` is the range of numbers
created under the `o`-th fresh group key.  `LaysOut S r l` says that the
reader `r` stores a readable row wherever the layout needs one.

`reconstructLiveChain_eq` computes the ordinal walk (one node per live segment,
newest first), `Layout.WF.tiles_nodes` shows that those nodes tile the live range,
and `validateStorageShape_iff` shows that the storage check accepts exactly the
stores that follow a well-formed layout.
-/

namespace EncryptedSpaces.Retention

open Lib Crypto

/-- Counters and segment starts. -/
structure Layout where
  dMin : Nat
  dNext : Nat
  fgkNext : Nat
  dgkNext : Nat
  /-- first sequence number of a segment -/
  start : Nat → Nat

namespace Layout

variable {K C E V : Type}

/-- Lower end of segment `o`; the end of the last segment is `dNext`. -/
def bound (l : Layout) (o : Nat) : Nat :=
  if o < l.fgkNext then l.start o else l.dNext

/-- Segments are non-empty and adjacent. -/
def Increasing (l : Layout) : Prop := ∀ o, o < l.fgkNext → l.bound o < l.bound (o + 1)

/-- The segments cover the live range. -/
structure WF (l : Layout) : Prop where
  fgkNext_pos : 0 < l.fgkNext
  start_le : l.start 0 ≤ l.dMin
  increasing : l.Increasing
  dMin_lt : l.dMin < l.dNext
  dNext_lt : l.dNext < 2 ^ 64

@[simp] theorem bound_fgkNext (l : Layout) : l.bound l.fgkNext = l.dNext := by
  simp [bound]

variable {l : Layout} {o : Nat}

theorem bound_of_lt (h : o < l.fgkNext) : l.bound o = l.start o := by
  simp [bound, h]

theorem Increasing.bound_strictMono (h : l.Increasing) {a b : Nat} (hab : a < b)
    (hb : b ≤ l.fgkNext) : l.bound a < l.bound b := by
  induction b with
  | zero => omega
  | succ b ih =>
    have hStep := h b (by omega)
    rcases Nat.lt_or_ge a b with hlt | hge
    · exact Nat.lt_trans (ih hlt (by omega)) hStep
    · have : a = b := by omega
      exact this ▸ hStep

theorem Increasing.bound_mono (h : l.Increasing) {a b : Nat} (hab : a ≤ b) (hb : b ≤ l.fgkNext) :
    l.bound a ≤ l.bound b := by
  rcases Nat.lt_or_ge a b with hlt | hge
  · exact Nat.le_of_lt (h.bound_strictMono hlt hb)
  · have : a = b := by omega
    exact Nat.le_of_eq (this ▸ rfl)

/-- Segment zero reaches down to the live range. -/
theorem WF.exists_eq_succ_of_lt_bound (h : l.WF) {lo : Nat} (hLo : l.dMin ≤ lo)
    (hLt : lo < l.bound o) : ∃ p, o = p + 1 := by
  cases o with
  | zero =>
    have hStart := h.start_le
    rw [bound_of_lt h.fgkNext_pos] at hLt
    omega
  | succ p => exact ⟨p, rfl⟩

/-- The first live number of a segment has already been created. -/
theorem WF.max_start_lt_dNext (h : l.WF) (ho : o < l.fgkNext) :
    max (l.start o) l.dMin < l.dNext := by
  have hLt := h.increasing.bound_strictMono ho (Nat.le_refl _)
  have hMin := h.dMin_lt
  rw [bound_of_lt ho, bound_fgkNext] at hLt
  omega

/-! ## Live segments -/

/-- How many of the segments below `o` reach above `lo`, counted from the
newest. -/
def liveCount (l : Layout) (lo : Nat) : Nat → Nat
  | 0 => 0
  | o + 1 => if lo < l.bound (o + 1) then l.liveCount lo o + 1 else 0

theorem liveCount_le (l : Layout) (lo : Nat) : ∀ o, l.liveCount lo o ≤ o := by
  intro o
  induction o with
  | zero => simp [liveCount]
  | succ o ih => simp only [liveCount]; split <;> omega

/-- Segment `o - 1 - i` is live exactly for the first `liveCount` indices. -/
theorem Increasing.lt_liveCount_iff (h : l.Increasing) {lo : Nat} (ho : o ≤ l.fgkNext) :
    ∀ i, i < o → (i < l.liveCount lo o ↔ lo < l.bound (o - i)) := by
  induction o with
  | zero => intro i hi; omega
  | succ o ih =>
    intro i hi
    simp only [liveCount]
    by_cases hLive : lo < l.bound (o + 1)
    · rw [if_pos hLive]
      cases i with
      | zero => simpa using hLive
      | succ i =>
        have hPrev := ih (by omega) i (by omega)
        rw [Nat.add_sub_add_right, ← hPrev]
        omega
    · rw [if_neg hLive]
      have hMono := h.bound_mono (show o + 1 - i ≤ o + 1 by omega) ho
      constructor
      · omega
      · intro hlt; omega

/-- One entry per segment below `o` that reaches above `lo`, newest first. -/
def live {α : Type} (l : Layout) (lo : Nat) (f : Nat → α) (o : Nat) : List α :=
  (List.range (l.liveCount lo o)).map fun i => f (o - 1 - i)

section Live

variable {α β : Type} {l : Layout} {lo : Nat}

theorem live_succ_of_live (f : Nat → α) {o : Nat} (h : lo < l.bound (o + 1)) :
    l.live lo f (o + 1) = f o :: l.live lo f o := by
  simp only [live, liveCount, if_pos h, List.range_succ_eq_map, List.map_cons, List.map_map]
  congr 1
  apply List.map_congr_left
  intro i _
  simp only [Function.comp_apply]
  congr 1
  omega

theorem live_of_not_live (f : Nat → α) {o : Nat} (h : ¬ lo < l.bound o) :
    l.live lo f o = [] := by
  cases o with
  | zero => rfl
  | succ o => simp [live, liveCount, h]

theorem map_live (f : Nat → α) (g : α → β) (o : Nat) :
    (l.live lo f o).map g = l.live lo (fun p => g (f p)) o := by
  simp [live, Function.comp_def]

/-- The entries of `live` are those of the segments that reach above `lo`. -/
theorem Increasing.mem_live (h : l.Increasing) {f : Nat → α} {o : Nat} (ho : o ≤ l.fgkNext) {a : α}
    (ha : a ∈ l.live lo f o) : ∃ p, p < o ∧ lo < l.bound (p + 1) ∧ a = f p := by
  simp only [live, List.mem_map, List.mem_range] at ha
  obtain ⟨i, hi, rfl⟩ := ha
  have hLe := l.liveCount_le lo o
  have hLive := (h.lt_liveCount_iff ho i (by omega)).mp hi
  refine ⟨o - 1 - i, by omega, ?_, rfl⟩
  rw [show o - 1 - i + 1 = o - i by omega]
  exact hLive

/-- The entry of segment `p` stands at distance `o - 1 - p` from the head. -/
theorem Increasing.live_get (h : l.Increasing) (f : Nat → α) {o p : Nat}
    (ho : o ≤ l.fgkNext) (hp : p < o)
    (hLive : lo < l.bound (p + 1)) : (l.live lo f o)[o - 1 - p]? = some (f p) := by
  have hIdx : o - 1 - p < l.liveCount lo o := by
    rw [h.lt_liveCount_iff ho _ (by omega), show o - (o - 1 - p) = p + 1 by omega]
    exact hLive
  simp [live, hIdx, show o - 1 - (o - 1 - p) = p by omega]

end Live

/-- The node that covers the live part of segment `o`. -/
def node (l : Layout) (lo o : Nat) : LiveChainNode :=
  { fgkOrdinal := o, dStart := max (l.bound o) lo, dEnd := l.bound (o + 1) }

/-- Live nodes below segment `o`, newest first. -/
def nodes (l : Layout) (o : Nat) : List LiveChainNode :=
  l.live l.dMin (l.node l.dMin) o

theorem nodes_succ_of_live (h : l.dMin < l.bound (o + 1)) :
    l.nodes (o + 1) = l.node l.dMin o :: l.nodes o :=
  live_succ_of_live _ h

theorem nodes_of_not_live (h : ¬ l.dMin < l.bound o) :
    l.nodes o = [] :=
  live_of_not_live _ h

/-- A newest-first list of nodes covers `[lo, hi)` without gap or overlap. -/
def Tiles (lo : Nat) : Nat → List LiveChainNode → Prop
  | hi, [] => hi = lo
  | hi, node :: rest => node.dEnd = hi ∧ node.dStart < node.dEnd ∧ Tiles lo node.dStart rest

/-- The live nodes tile the live range. -/
theorem WF.tiles_nodes (h : l.WF) :
    ∀ o, o ≤ l.fgkNext → Tiles l.dMin (max (l.bound o) l.dMin) (l.nodes o) := by
  intro o
  induction o with
  | zero =>
    intro _
    have hZero : l.bound 0 ≤ l.dMin := by
      rw [bound_of_lt h.fgkNext_pos]
      exact h.start_le
    simp [nodes, live, liveCount, Tiles, hZero]
  | succ o ih =>
    intro ho
    by_cases hLive : l.dMin < l.bound (o + 1)
    · rw [nodes_succ_of_live hLive]
      refine ⟨?_, ?_, ih (by omega)⟩
      · simp only [node]; omega
      · have := h.increasing o (by omega)
        simp only [node]; omega
    · rw [nodes_of_not_live hLive]
      simp only [Tiles]; omega

/-- No live node covers a number outside the live range. -/
theorem WF.findIdx?_nodes_eq_none (h : l.WF) {dSeq : Nat} (hOut : dSeq < l.dMin ∨ l.dNext ≤ dSeq) :
    (l.nodes l.fgkNext).findIdx? (·.contains dSeq) = none := by
  rw [List.findIdx?_eq_none_iff]
  intro node hMem
  obtain ⟨o, ho, _, rfl⟩ := h.increasing.mem_live (Nat.le_refl _) hMem
  have hEnd := h.increasing.bound_mono (show o + 1 ≤ l.fgkNext from ho) (Nat.le_refl _)
  rw [bound_fgkNext] at hEnd
  rw [← Bool.not_eq_true, LiveChainNode.contains_iff]
  simp only [Layout.node]
  omega

end Layout

/-! ## Stores that follow a layout -/

variable {K C E V : Type} {S : KeySuite K C E V} {r : Reader V} {l : Layout}

/-- The reader stores a readable row wherever the layout needs one. -/
structure LaysOut (S : KeySuite K C E V) (r : Reader V) (l : Layout) : Prop where
  fgkNext : loadFgkNext S r = some l.fgkNext
  dgkNext : loadDgkNext S r = some l.dgkNext
  dMin : loadDMin S r = some l.dMin
  dNext : loadDNext S r = some l.dNext
  fgkRow : ∀ o, o < l.fgkNext →
    ∃ commitment, loadFgkRow S r o = some { dStart := l.start o, commitment }
  dgkRow : ∀ o, o < l.dgkNext → ∃ row, loadDgkRow S r o = some row
  dRow : ∀ s, l.dMin ≤ s → s < l.dNext → ∃ row, loadDRow S r s = some row
  dHead : ∀ o, o < l.fgkNext → l.dMin < l.bound (o + 1) →
    ∃ ct, loadGbctDHead S r o = some ct
  link : ∀ o, o + 1 < l.fgkNext → l.dMin < l.bound (o + 1) →
    ∃ ct, loadOptionalCiphertext S r (Cell.gbctLink (o + 1)).key = some (some ct)

private theorem walkLiveChain_of_le (S : KeySuite K C E V) (r : Reader V) {dMin cursor : Nat}
    (h : cursor ≤ dMin) : ∀ o, walkLiveChain S r dMin o cursor = some [] := by
  intro o
  cases o with
  | zero => rfl
  | succ o => simp [walkLiveChain, Nat.not_lt.mpr h]

/-- The ordinal walk from the end of segment `o - 1` yields the live nodes
below `o`. -/
theorem walkLiveChain_eq (hInc : l.Increasing)
    (hRows : ∀ o, o < l.fgkNext →
      ∃ commitment, loadFgkRow S r o = some { dStart := l.start o, commitment }) :
    ∀ o, o ≤ l.fgkNext →
      walkLiveChain S r l.dMin o (l.bound o) = some (l.nodes o) := by
  intro o
  induction o with
  | zero => intro _; rfl
  | succ o ih =>
    intro ho
    by_cases hLive : l.dMin < l.bound (o + 1)
    · obtain ⟨commitment, hRow⟩ := hRows o (by omega)
      have hLt := hInc o (by omega)
      have hStart : l.bound o = l.start o := Layout.bound_of_lt (by omega)
      have hRest : walkLiveChain S r l.dMin o (max (l.start o) l.dMin) =
          some (l.nodes o) := by
        rcases Nat.lt_or_ge l.dMin (l.start o) with hAbove | hBelow
        · rw [Nat.max_eq_left (by omega), ← hStart]
          exact ih (by omega)
        · rw [walkLiveChain_of_le S r (by omega), Layout.nodes_of_not_live (by omega)]
      rw [Layout.nodes_succ_of_live hLive, walkLiveChain, if_pos hLive, hRow]
      simp only [Option.bind_eq_bind, Option.bind_some]
      rw [if_neg (by omega), if_neg (by omega), hRest]
      simp [Layout.node, hStart]
    · rw [Layout.nodes_of_not_live hLive]
      exact walkLiveChain_of_le S r (by omega) _

/-- Reconstruction yields one node per live segment, newest first. -/
theorem reconstructLiveChain_of_rows (hInc : l.Increasing) (hPos : 0 < l.fgkNext)
    (hMin : l.dMin < l.dNext) (hFgk : loadFgkNext S r = some l.fgkNext)
    (hDMin : loadDMin S r = some l.dMin) (hDNext : loadDNext S r = some l.dNext)
    (hRows : ∀ o, o < l.fgkNext →
      ∃ commitment, loadFgkRow S r o = some { dStart := l.start o, commitment }) :
    reconstructLiveChain S r = some (l.nodes l.fgkNext) := by
  have hWalk := walkLiveChain_eq hInc hRows l.fgkNext (Nat.le_refl _)
  rw [Layout.bound_fgkNext] at hWalk
  simp only [reconstructLiveChain, hFgk, hDMin, hDNext, Option.bind_eq_bind, Option.bind_some]
  rw [if_neg (by omega), if_neg (by omega), hWalk]

theorem reconstructLiveChain_eq (hWF : l.WF) (hLay : LaysOut S r l) :
    reconstructLiveChain S r = some (l.nodes l.fgkNext) :=
  reconstructLiveChain_of_rows hWF.increasing hWF.fgkNext_pos hWF.dMin_lt hLay.fgkNext
    hLay.dMin hLay.dNext hLay.fgkRow

end EncryptedSpaces.Retention
