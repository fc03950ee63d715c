import EncryptedSpaces.Retention.Layout

/-!
# The storage check accepts exactly the stores that follow a layout

`validate_storage_shape` loads every row the counters promise and compares the
ends of the reconstructed chain with the live range.  `validateStorageShape_iff`
replaces that loop of loads by one statement: there is a well-formed layout
that the store follows.
-/

namespace EncryptedSpaces.Retention

open Lib Crypto List

variable {K C E V : Type} {S : KeySuite K C E V} {r : Reader V} {l : Layout}

/-! ## Segment starts -/

variable {rows : List (FGKRow C)} {n o : Nat}

theorem dStartsIncrease_iff :
    dStartsIncrease rows = true ↔ (rows.map FGKRow.dStart).IsChain (· < ·) := by
  fun_induction dStartsIncrease rows with
  | case1 a b rows ih => simp [ih, isChain_cons_cons]
  | case2 rows hShort =>
    match rows with
    | [] => simp
    | [a] => simp
    | a :: b :: rows => exact absurd rfl (hShort a b rows)

/-- The rows loaded under a layout have the layout's starts. -/
theorem map_dStart_of_mapM {start : Nat → Nat}
    (h : (List.range n).mapM (loadFgkRow S r) = some rows)
    (hRow : ∀ o, o < n → ∃ commitment, loadFgkRow S r o = some { dStart := start o, commitment }) :
    rows.map FGKRow.dStart = (List.range n).map start := by
  rw [Lists.mapM_eq_some_iff] at h
  apply map_injective_iff.mpr fun (_ _ : Nat) => Option.some.inj
  calc (rows.map FGKRow.dStart).map some
      = (rows.map some).map (Option.map FGKRow.dStart) := by simp [Function.comp_def]
    _ = ((range n).map (loadFgkRow S r)).map (Option.map FGKRow.dStart) := by rw [h]
    _ = ((range n).map start).map some := by
        rw [map_map, map_map]
        apply map_congr_left
        intro o ho
        obtain ⟨commitment, hLoad⟩ := hRow o (mem_range.mp ho)
        simp [hLoad]

theorem isChain_map_range {start : Nat → Nat} :
    ((List.range n).map start).IsChain (· < ·) ↔ ∀ o, o + 1 < n → start o < start (o + 1) := by
  simp [isChain_iff_getElem]

theorem getLast?_map_range {α : Type} (f : Nat → α) (h : 0 < n) :
    ((List.range n).map f).getLast? = some (f (n - 1)) := by
  obtain ⟨m, rfl⟩ : ∃ m, n = m + 1 := ⟨n - 1, by omega⟩
  simp [range_succ]

/-! ## Chain ends -/

theorem Layout.Tiles.getLast_dStart {lo : Nat} :
    ∀ {hi : Nat} {nodes : List LiveChainNode} {last : LiveChainNode},
      Layout.Tiles lo hi nodes → nodes.getLast? = some last → last.dStart = lo := by
  intro hi nodes
  induction nodes generalizing hi with
  | nil => intro last _ h; cases h
  | cons node rest ih =>
    intro last hTiles hLast
    cases rest with
    | nil =>
      cases hLast
      exact hTiles.2.2
    | cons next rest =>
      exact ih hTiles.2.2 hLast

/-- The newest node of a non-empty live range is the head segment. -/
theorem Layout.head_nodes (hPos : 0 < o) (hLive : l.dMin < l.bound o) :
    (l.nodes o).head? = some (l.node l.dMin (o - 1)) := by
  obtain ⟨p, rfl⟩ : ∃ p, o = p + 1 := ⟨o - 1, by omega⟩
  rw [nodes_succ_of_live hLive]
  rfl

/-- Every ciphertext row of the live chain loads, and carries a link unless it
is the oldest. -/
theorem validateCiphertextRows_nodes (hWF : l.WF) (hLay : LaysOut S r l) :
    ∀ o, o ≤ l.fgkNext → validateCiphertextRows S r (l.nodes o) = some () := by
  intro o
  induction o with
  | zero => intro _; rfl
  | succ o ih =>
    intro ho
    by_cases hLive : l.dMin < l.bound (o + 1)
    · obtain ⟨ctHead, hHead⟩ := hLay.dHead o ho hLive
      simp only [loadGbctDHead] at hHead
      have hRest := ih (by omega)
      rw [Layout.nodes_succ_of_live hLive]
      by_cases hPrev : l.dMin < l.bound o
      · obtain ⟨p, rfl⟩ := hWF.exists_eq_succ_of_lt_bound (Nat.le_refl _) hPrev
        obtain ⟨ctLink, hLink⟩ := hLay.link p (by omega) hPrev
        have hTail : (l.nodes (p + 1)).isEmpty = false := by
          rw [Layout.nodes_succ_of_live hPrev]
          rfl
        simp [validateCiphertextRows, hTail, loadGbctRow, Layout.node, hHead, hLink, hRest]
      · rw [Layout.nodes_of_not_live hPrev]
        simp [validateCiphertextRows, loadGbctRow, Layout.node, hHead]
    · rw [Layout.nodes_of_not_live hLive]
      rfl

/-- A store that follows a well-formed layout passes the check. -/
theorem validateStorageShape_of_laysOut (hWF : l.WF) (hLay : LaysOut S r l) :
    validateStorageShape S r = some () := by
  have hPos := hWF.fgkNext_pos
  have hMin := hWF.dMin_lt
  obtain ⟨rows, hRows⟩ := Lists.exists_mapM_eq_some
    (l := range l.fgkNext) (f := loadFgkRow S r) fun o ho => by
      obtain ⟨commitment, hLoad⟩ := hLay.fgkRow o (mem_range.mp ho)
      exact ⟨_, hLoad⟩
  obtain ⟨dRows, hDRows⟩ := Lists.exists_mapM_eq_some
    (l := range' l.dMin (l.dNext - l.dMin)) (f := loadDRow S r) fun s hs => by
      rw [mem_range'_1] at hs
      exact hLay.dRow s hs.1 (by omega)
  obtain ⟨dgkRows, hDgkRows⟩ := Lists.exists_mapM_eq_some
    (l := range l.dgkNext) (f := loadDgkRow S r) fun o ho =>
      hLay.dgkRow o (mem_range.mp ho)
  have hStarts := map_dStart_of_mapM hRows hLay.fgkRow
  have hIncrease : dStartsIncrease rows = true := by
    rw [dStartsIncrease_iff, hStarts, isChain_map_range]
    intro o ho
    have hLt := hWF.increasing o (by omega)
    rwa [Layout.bound_of_lt (by omega), Layout.bound_of_lt ho] at hLt
  have hLast := getLast?_map_range l.start hPos
  rw [← hStarts, getLast?_map, Option.map_eq_some_iff] at hLast
  obtain ⟨lastRow, hLastRow, hLastStart⟩ := hLast
  have hTop := hWF.increasing (l.fgkNext - 1) (by omega)
  rw [Layout.bound_of_lt (by omega), show l.fgkNext - 1 + 1 = l.fgkNext by omega,
    Layout.bound_fgkNext] at hTop
  have hLive : l.dMin < l.bound l.fgkNext := by rwa [Layout.bound_fgkNext]
  have hHead := Layout.head_nodes hPos hLive
  have hTiles := hWF.tiles_nodes l.fgkNext (Nat.le_refl _)
  obtain ⟨last, hLastNode⟩ : ∃ last, (l.nodes l.fgkNext).getLast? = some last := by
    cases hNodes : l.nodes l.fgkNext with
    | nil => rw [hNodes] at hHead; cases hHead
    | cons node rest => exact ⟨_, getLast?_eq_some_getLast (by simp)⟩
  have hLastDStart := hTiles.getLast_dStart hLastNode
  have hEnd : (l.node l.dMin (l.fgkNext - 1)).dEnd = l.dNext := by
    simp only [Layout.node]
    rw [show l.fgkNext - 1 + 1 = l.fgkNext by omega, Layout.bound_fgkNext]
  have hOrdinal : (l.node l.dMin (l.fgkNext - 1)).fgkOrdinal = l.fgkNext - 1 := rfl
  have hCiphertexts := validateCiphertextRows_nodes hWF hLay l.fgkNext (Nat.le_refl _)
  simp only [validateStorageShape, hLay.fgkNext, hLay.dgkNext, hLay.dMin, hLay.dNext, hRows,
    hIncrease, hLastRow, hDRows, hDgkRows, reconstructLiveChain_eq hWF hLay, hHead, hLastNode,
    hLastDStart, hEnd, hOrdinal, hCiphertexts, Option.bind_eq_bind, Option.bind_some]
  simp
  omega

/-! ## From the check to a layout -/

/-- The starts found in a list of rows. -/
def startOf (rows : List (FGKRow C)) (o : Nat) : Nat :=
  ((rows.map FGKRow.dStart)[o]?).getD 0

theorem loadFgkRow_of_mapM (h : (List.range n).mapM (loadFgkRow S r) = some rows) (ho : o < n) :
    ∃ commitment, loadFgkRow S r o = some { dStart := startOf rows o, commitment } := by
  rw [Lists.mapM_eq_some_iff] at h
  have hLen : rows.length = n := by simpa using (congrArg length h).symm
  have hGet := congrArg (·[o]?) h
  have ho' : o < rows.length := by omega
  simp only [getElem?_map, getElem?_range ho, Option.map_some,
    getElem?_eq_getElem ho', Option.some.injEq] at hGet
  refine ⟨rows[o].commitment, ?_⟩
  rw [hGet]
  simp [startOf, ho']

/-- The oldest live node starts at the bottom of the range only if segment
zero reaches down to it. -/
theorem start_le_of_getLast (hInc : l.Increasing) (hPos : 0 < l.fgkNext)
    {last : LiveChainNode} (hLast : (l.nodes l.fgkNext).getLast? = some last)
    (hStart : last.dStart = l.dMin) : l.start 0 ≤ l.dMin := by
  have hMem := mem_of_getLast? hLast
  obtain ⟨o, ho, _, rfl⟩ := hInc.mem_live (Nat.le_refl _) hMem
  have hZero := hInc.bound_mono (Nat.zero_le o) (Nat.le_of_lt ho)
  rw [Layout.bound_of_lt hPos] at hZero
  simp only [Layout.node] at hStart
  omega

theorem Layout.Increasing.node_mem_nodes (hInc : l.Increasing) (ho : o < l.fgkNext)
    (hLive : l.dMin < l.bound (o + 1)) : l.node l.dMin o ∈ l.nodes l.fgkNext := by
  have hGet := hInc.live_get (l.node l.dMin) (Nat.le_refl _) ho hLive
  exact mem_of_getElem? hGet

/-- Rows of a chain that passed the ciphertext check. -/
theorem loadGbct_of_validateCiphertextRows :
    ∀ {chain : List LiveChainNode}, validateCiphertextRows S r chain = some () →
      ∀ {node : LiveChainNode}, node ∈ chain →
        ∃ ct, loadGbctDHead S r node.fgkOrdinal = some ct := by
  intro chain
  induction chain with
  | nil => intro _ node hMem; cases hMem
  | cons first rest ih =>
    intro h node hMem
    simp only [validateCiphertextRows, Option.bind_eq_some] at h
    obtain ⟨pair, hPair, hRest⟩ := h
    rcases mem_cons.mp hMem with rfl | hMem
    · simp only [loadGbctRow, Option.bind_eq_some] at hPair
      obtain ⟨ct, hCt, _⟩ := hPair
      exact ⟨ct, hCt⟩
    · split at hRest
      · cases hRest
      · exact ih hRest hMem

/-- Every row but the oldest carries a link. -/
theorem loadLink_of_validateCiphertextRows (hInc : l.Increasing) :
    ∀ o, o ≤ l.fgkNext → validateCiphertextRows S r (l.nodes o) = some () →
      ∀ p, p + 1 < o → l.dMin < l.bound (p + 1) →
        ∃ ct, loadOptionalCiphertext S r (Cell.gbctLink (p + 1)).key = some (some ct) := by
  intro o
  induction o with
  | zero => intro _ _ p hp; omega
  | succ o ih =>
    intro ho h p hp hPrev
    have hLive := hInc.bound_mono (show p + 1 ≤ o + 1 by omega) ho
    rw [Layout.nodes_succ_of_live (by omega)] at h
    simp only [validateCiphertextRows, Option.bind_eq_some] at h
    obtain ⟨pair, hPair, hRest⟩ := h
    split at hRest
    · cases hRest
    · next hLink =>
        rcases Nat.lt_or_ge (p + 1) o with hlt | hge
        · exact ih (by omega) hRest p hlt hPrev
        · -- this is the newest row, and the next older segment is live
          have hEq : o = p + 1 := by omega
          subst hEq
          have hTail : (l.nodes (p + 1)).isEmpty = false := by
            rw [Layout.nodes_succ_of_live hPrev]
            rfl
          rw [hTail] at hPair hLink
          simp only [loadGbctRow, Layout.node, Bool.false_eq_true, if_false,
            Option.bind_eq_some] at hPair
          obtain ⟨ctHead, _, older, hOlder, hRet⟩ := hPair
          cases hRet
          cases older with
          | none => simp at hLink
          | some ct => exact ⟨ct, hOlder⟩

/-- Rows whose starts increase up to `d_next` give the segments of a layout. -/
theorem exists_increasing_of_rows (dMin dgkNext : Nat) {dNext fgkNext : Nat} {lastRow : FGKRow C}
    (hPos : 0 < fgkNext) (hRows : (List.range fgkNext).mapM (loadFgkRow S r) = some rows)
    (hIncrease : dStartsIncrease rows = true) (hLastRow : rows.getLast? = some lastRow)
    (hTop : lastRow.dStart < dNext) :
    ∃ l : Layout, l.dMin = dMin ∧ l.dNext = dNext ∧ l.fgkNext = fgkNext ∧
      l.dgkNext = dgkNext ∧ l.Increasing ∧ ∀ o, o < l.fgkNext →
        ∃ commitment, loadFgkRow S r o = some { dStart := l.start o, commitment } := by
  have hRow := fun o (ho : o < fgkNext) => loadFgkRow_of_mapM hRows ho
  have hStarts := map_dStart_of_mapM hRows hRow
  refine ⟨{ dMin, dNext, fgkNext, dgkNext, start := startOf rows }, rfl, rfl, rfl, rfl, ?_, hRow⟩
  intro o ho
  have ho' : o < fgkNext := ho
  rcases Nat.lt_or_ge (o + 1) fgkNext with hlt | hge
  · rw [Layout.bound_of_lt ho, Layout.bound_of_lt (show o + 1 < _ from hlt)]
    rw [dStartsIncrease_iff, hStarts, isChain_map_range] at hIncrease
    exact hIncrease o hlt
  · -- the last segment ends at `d_next`
    have hGet := getLast?_map_range (startOf rows) hPos
    rw [← hStarts, getLast?_map, hLastRow, Option.map_some, Option.some.injEq] at hGet
    rw [Layout.bound_of_lt ho, Layout.bound, if_neg (Nat.not_lt.mpr hge)]
    show startOf rows o < dNext
    rw [show o = fgkNext - 1 by omega, ← hGet]
    exact hTop

/-- A store that passes the check follows a well-formed layout. -/
theorem exists_laysOut_of_validateStorageShape (hS : S.Lawful)
    (h : validateStorageShape S r = some ()) : ∃ l : Layout, l.WF ∧ LaysOut S r l := by
  simp only [validateStorageShape, Option.bind_eq_some] at h
  obtain ⟨fgkNext, hFgkNext, dgkNext, hDgkNext, dMin, hDMin, dNext, hDNext, h⟩ := h
  rw [Option.ite_none_left_eq_some] at h
  obtain ⟨hPos, h⟩ := h
  rw [Option.ite_none_left_eq_some] at h
  obtain ⟨hMin, h⟩ := h
  simp only [Option.bind_eq_some] at h
  obtain ⟨rows, hRows, h⟩ := h
  rw [Option.ite_none_left_eq_some] at h
  obtain ⟨hIncrease, h⟩ := h
  simp only [Option.bind_eq_some] at h
  obtain ⟨lastRow, hLastRow, h⟩ := h
  rw [Option.ite_none_left_eq_some] at h
  obtain ⟨hTop, h⟩ := h
  simp only [Option.bind_eq_some] at h
  obtain ⟨dRows, hDRows, dgkRows, hDgkRows, chain, hChain, first, hFirst, last, hLast, h⟩ := h
  rw [Option.ite_none_left_eq_some] at h
  obtain ⟨hOrdinal, h⟩ := h
  rw [Option.ite_none_left_eq_some] at h
  obtain ⟨hLastStart, h⟩ := h
  rw [Option.ite_none_left_eq_some] at h
  obtain ⟨hEnd, h⟩ := h
  obtain ⟨l, rfl, rfl, rfl, rfl, hInc, hRow⟩ :=
    exists_increasing_of_rows dMin dgkNext (Nat.pos_of_ne_zero hPos) hRows
      (by simpa using hIncrease) hLastRow (Nat.lt_of_not_le hTop)
  have hFgkPos : 0 < l.fgkNext := Nat.pos_of_ne_zero hPos
  have hMinLt : l.dMin < l.dNext := Nat.lt_of_not_le hMin
  have hNodes := reconstructLiveChain_of_rows hInc hFgkPos hMinLt hFgkNext hDMin hDNext hRow
  rw [hNodes] at hChain
  cases hChain
  have hStartLe := start_le_of_getLast hInc hFgkPos hLast
    (Decidable.not_not.mp hLastStart)
  have hDNextLt : l.dNext < 2 ^ 64 := by
    simp only [loadDNext, loadU64Required, Option.bind_eq_some] at hDNext
    obtain ⟨v, _, hDecode⟩ := hDNext
    exact hS.decodeU64_lt v _ hDecode
  refine ⟨l, ⟨hFgkPos, hStartLe, hInc, hMinLt, hDNextLt⟩, ?_⟩
  exact
    { fgkNext := hFgkNext
      dgkNext := hDgkNext
      dMin := hDMin
      dNext := hDNext
      fgkRow := hRow
      dgkRow := fun o ho => Lists.exists_of_mapM_eq_some hDgkRows (mem_range.mpr ho)
      dRow := fun s hs hs' => by
        apply Lists.exists_of_mapM_eq_some hDRows
        rw [mem_range'_1]
        omega
      dHead := fun o ho hLive => by
        have hMem := hInc.node_mem_nodes ho hLive
        have hLoad := loadGbct_of_validateCiphertextRows h hMem
        rwa [Layout.node] at hLoad
      link := loadLink_of_validateCiphertextRows hInc l.fgkNext (Nat.le_refl _) h }

/-- The storage check accepts exactly the stores that follow a well-formed
layout. -/
theorem validateStorageShape_iff (hS : S.Lawful) :
    validateStorageShape S r = some () ↔ ∃ l : Layout, l.WF ∧ LaysOut S r l := by
  constructor
  · exact exists_laysOut_of_validateStorageShape hS
  · rintro ⟨l, hWF, hLay⟩
    exact validateStorageShape_of_laysOut hWF hLay

end EncryptedSpaces.Retention
