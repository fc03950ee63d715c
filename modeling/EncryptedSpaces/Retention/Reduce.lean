import Mathlib.Data.List.Nodup
import EncryptedSpaces.Retention.Operations

/-!
# What a reduce does to the chain

`reduce` is the one operation that rewrites old rows: it collects the nodes
that still reach above `before`, opens the key of every node, advances the
D head of each survivor and re-encrypts the survivors under fresh keys.  Each
stage has a closed form over `Layout.live`; `reduce_eq` puts them together.
-/

namespace EncryptedSpaces.Retention

open Lib Crypto List Option

variable {K C E V P : Type} {S : KeySuite K C E V} {c : Chain K} {r : Reader V}

/-! ## Survivors -/

/-- The survivor record of segment `o`. -/
def Chain.survivor (c : Chain K) (o : Nat) : SurvivingInfo :=
  { fgkOrdinal := o
    origDRangeStart := max (c.bound o) c.dMin
    chainIndex := c.fgkNext - 1 - o }

/-- The survivors are the segments that reach above `before`. -/
theorem survivingNodes_nodes (hWF : c.WF S) {before : Nat} (hBefore : c.dMin < before) :
    survivingNodes before (c.nodes c.fgkNext) = c.live before c.survivor c.fgkNext := by
  have hLeMin := c.liveCount_le c.dMin c.fgkNext
  have hLeBefore := c.liveCount_le before c.fgkNext
  have hIff : ∀ lo i, i < c.fgkNext →
      (i < c.liveCount lo c.fgkNext ↔ lo < c.bound (c.fgkNext - i)) :=
    fun lo => hWF.increasing.lt_liveCount_iff (Nat.le_refl c.fgkNext)
  have hLe : c.liveCount before c.fgkNext ≤ c.liveCount c.dMin c.fgkNext := by
    by_contra hGt
    have hAbove := (hIff before (c.liveCount c.dMin c.fgkNext) (by omega)).mp (by omega)
    have hBelow := (hIff c.dMin (c.liveCount c.dMin c.fgkNext) (by omega)).not.mp (by omega)
    omega
  simp only [survivingNodes, Layout.nodes, Layout.live, Lists.zipIdx_map_range,
    filterMap_map]
  apply Lists.filterMap_range_below hLe
  · intro i hi
    have hLive := (hIff before i (by omega)).mp hi
    have hEnd : c.fgkNext - 1 - i + 1 = c.fgkNext - i := by omega
    simp only [Function.comp_apply, Layout.node, Chain.survivor, hEnd]
    rw [if_neg (by omega)]
    congr 2
    omega
  · intro i hLo hHi
    have hDead := (hIff before i (by omega)).not.mp (by omega)
    have hEnd : c.fgkNext - 1 - i + 1 = c.fgkNext - i := by omega
    simp only [Function.comp_apply, Layout.node, hEnd]
    rw [if_pos (by omega)]

/-! ## Old keys and advanced heads -/

/-- Opening the links from the head yields the key of every live segment. -/
theorem resolveChainGbKeys_nodes (hWF : c.WF S) (hRep : Represents S r c) :
    ∀ o, o ≤ c.fgkNext →
      resolveChainGbKeys S r (c.nodes o) (c.gbKey (o - 1)) =
        some (c.live c.dMin c.gbKey o) := by
  intro o
  induction o with
  | zero => intro _; rfl
  | succ o ih =>
    intro ho
    by_cases hLive : c.dMin < c.bound (o + 1)
    · obtain ⟨ctHead, hHead, _⟩ := hRep.dHead o ho hLive
      simp only [loadGbctDHead] at hHead
      rw [Layout.nodes_succ_of_live hLive, Layout.live_succ_of_live _ hLive]
      by_cases hPrev : c.dMin < c.bound o
      · -- an older live node exists, so this row carries a link
        obtain ⟨p, rfl⟩ := hWF.layout.exists_eq_succ_of_lt_bound (Nat.le_refl _) hPrev
        have hTail : (c.nodes (p + 1)).isEmpty = false := by
          rw [Layout.nodes_succ_of_live hPrev]
          rfl
        have hRest := ih (by omega)
        obtain ⟨ctLink, hLink, hOpen⟩ := hRep.link p (by omega) hPrev
        simp only [Nat.add_sub_cancel] at hRest ⊢
        simp [resolveChainGbKeys, hTail, loadGbctRow, Layout.node, hHead, hLink,
          hOpen, hRest]
      · rw [Layout.nodes_of_not_live hPrev, Layout.live_of_not_live _ hPrev]
        simp [resolveChainGbKeys, loadGbctRow, Layout.node, hHead]
    · rw [Layout.nodes_of_not_live hLive, Layout.live_of_not_live _ hLive]
      rfl

/-- A survivor's old head, advanced, is the key at its new first number. -/
theorem advancedDHead_survivor (hWF : c.WF S) (hRep : Represents S r c)
    {before o : Nat} (hBefore : c.dMin < before) (ho : o < c.fgkNext)
    (hLive : before < c.bound (o + 1)) :
    advancedDHead S r (c.live c.dMin c.gbKey c.fgkNext) before (c.survivor o) =
      some (c.dKey (max (c.start o) before)) := by
  have hGet :=
    hWF.increasing.live_get c.gbKey (Nat.le_refl _) ho (show c.dMin < c.bound (o + 1) by omega)
  obtain ⟨ct, hHead, hOpen⟩ := hRep.dHead o ho (by omega)
  have hStart : c.bound o = c.start o := Layout.bound_of_lt ho
  have hNonempty := hWF.increasing o ho
  have hKey := hWF.deriveN_dKey ho (s := max (c.start o) c.dMin) (by omega)
    (max (max (c.start o) c.dMin) before - max (c.start o) c.dMin) (by omega)
  simp only [advancedDHead, Chain.survivor, hGet, hHead, bind_eq_bind, bind_some,
    hOpen, hStart, hKey]
  congr 2
  omega

/-! ## New ciphertext pairs -/

/-- The pair a reduce writes for segment `o`: the link is left out when the
next older segment is gone. -/
def Layout.reducePair (S : KeySuite K C E V) (l : Layout) (lo : Nat) (gbKey dHead : Nat → K)
    (o : Nat) : GBCiphertextPair E :=
  { olderGbKeyCiphertext :=
      if lo < l.bound o then some (S.encryptGbChainLink (gbKey o) (gbKey (o - 1))) else none
    dHeadCiphertext := S.encryptDHead (gbKey o) (dHead o) }

theorem buildPairs_live (S : KeySuite K C E V) {l : Layout} (hWF : l.WF) {lo : Nat}
    (hLo : l.dMin ≤ lo) (gbKey dHead : Nat → K) :
    ∀ o, o ≤ l.fgkNext →
      buildPairs S (l.live lo gbKey o) (l.live lo dHead o) =
        l.live lo (l.reducePair S lo gbKey dHead) o := by
  intro o
  induction o with
  | zero => intro _; rfl
  | succ o ih =>
    intro ho
    by_cases hLive : lo < l.bound (o + 1)
    · rw [Layout.live_succ_of_live _ hLive, Layout.live_succ_of_live _ hLive,
        Layout.live_succ_of_live _ hLive, buildPairs, ih (by omega)]
      congr 1
      by_cases hPrev : lo < l.bound o
      · obtain ⟨p, rfl⟩ := hWF.exists_eq_succ_of_lt_bound hLo hPrev
        simp [Layout.live_succ_of_live _ hPrev, Layout.reducePair, hPrev]
      · simp [Layout.live_of_not_live _ hPrev, Layout.reducePair, hPrev]
    · rw [Layout.live_of_not_live _ hLive, Layout.live_of_not_live _ hLive,
        Layout.live_of_not_live _ hLive]
      rfl

/-! ## Rewriting the survivors' rows -/

/-- Save a list of ciphertext rows, newest segment first. -/
def saveGbctRows (S : KeySuite K C E V) (rows : List (Nat × GBCiphertextPair E))
    (b : Builder V P) : Builder V P :=
  rows.foldl (fun b row => saveGbctRow S b row.1 row.2) b

/-- A cell outside the saved rows keeps its value. -/
theorem get_saveGbctRows_of_ne (S : KeySuite K C E V) {cell : Cell} :
    ∀ (rows : List (Nat × GBCiphertextPair E)) (b : Builder V P),
      (∀ row ∈ rows, Cell.gbctDHead row.1 ≠ cell ∧ Cell.gbctLink row.1 ≠ cell) →
      (saveGbctRows S rows b).get cell.key = b.get cell.key := by
  intro rows
  induction rows with
  | nil => intro b _; rfl
  | cons row rows ih =>
    intro b hNe
    obtain ⟨hHead, hLink⟩ := hNe row (by simp)
    have hRow : (saveGbctRow S b row.1 row.2).get cell.key = b.get cell.key := by
      cases hOlder : row.2.olderGbKeyCiphertext <;>
        simp [saveGbctRow, hOlder, hHead, hLink]
    exact (ih _ fun row' hMem => hNe row' (by simp [hMem])).trans hRow

/-- A row saved once is read back: its D head and, when it has one, its link. -/
theorem loadGbct_saveGbctRows (hS : S.Lawful) {q : Nat} {pair : GBCiphertextPair E} :
    ∀ (rows : List (Nat × GBCiphertextPair E)) (b : Builder V P),
      (rows.map Prod.fst).Nodup → (q, pair) ∈ rows →
      loadGbctDHead S (saveGbctRows S rows b).get q = some pair.dHeadCiphertext ∧
        ∀ older, pair.olderGbKeyCiphertext = some older →
          loadOptionalCiphertext S (saveGbctRows S rows b).get (Cell.gbctLink q).key =
            some (some older) := by
  intro rows
  induction rows with
  | nil => intro b _ hMem; cases hMem
  | cons row rows ih =>
    intro b hNodup hMem
    rw [map_cons, nodup_cons] at hNodup
    rcases mem_cons.mp hMem with rfl | hRest
    · -- the later rows are for other segments
      have hOther : ∀ row ∈ rows, row.1 ≠ q := by
        rintro row hRow rfl
        exact hNodup.1 (mem_map.mpr ⟨row, hRow, rfl⟩)
      have hHeadKeep : (saveGbctRows S rows (saveGbctRow S b q pair)).get (Cell.gbctDHead q).key =
          (saveGbctRow S b q pair).get (Cell.gbctDHead q).key :=
        get_saveGbctRows_of_ne S rows _ fun row hRow => ⟨by simpa using hOther row hRow, by simp⟩
      have hLinkKeep : (saveGbctRows S rows (saveGbctRow S b q pair)).get (Cell.gbctLink q).key =
          (saveGbctRow S b q pair).get (Cell.gbctLink q).key :=
        get_saveGbctRows_of_ne S rows _ fun row hRow => ⟨by simp, by simpa using hOther row hRow⟩
      constructor
      · show (do S.decodeCiphertext (← (saveGbctRows S rows _).get _)) = _
        rw [hHeadKeep]
        cases hOlder : pair.olderGbKeyCiphertext <;>
          simp [saveGbctRow, hOlder, hS.decodeCiphertext_encodeCiphertext]
      · intro older hOlder
        show loadOptionalCiphertext S (saveGbctRows S rows (saveGbctRow S b q pair)).get _ = _
        unfold loadOptionalCiphertext
        rw [hLinkKeep]
        simp [saveGbctRow, hOlder, hS.decodeOptionalCiphertext_encodeCiphertext]
    · exact ih _ hNodup.2 hRest

/-- What saving rows adds to the log. -/
theorem mem_writes_saveGbctRows (S : KeySuite K C E V) {entry : String × V} :
    ∀ (rows : List (Nat × GBCiphertextPair E)) (b : Builder V P),
      entry ∈ (saveGbctRows S rows b).writes →
      entry ∈ b.writes ∨ ∃ row ∈ rows,
        entry = ((Cell.gbctDHead row.1).key, S.encodeCiphertext row.2.dHeadCiphertext) ∨
        ∃ older, row.2.olderGbKeyCiphertext = some older ∧
          entry = ((Cell.gbctLink row.1).key, S.encodeCiphertext older) := by
  intro rows
  induction rows with
  | nil => intro b h; exact .inl h
  | cons row rows ih =>
    intro b h
    rcases ih _ h with hHere | ⟨row', hMem, hRow⟩
    · cases hOlder : row.2.olderGbKeyCiphertext with
      | none =>
        simp only [saveGbctRow, hOlder, saveCiphertext, Builder.writes_put, mem_append,
          mem_singleton] at hHere
        rcases hHere with hOld | hHead
        · exact .inl hOld
        · exact .inr ⟨row, by simp, .inl hHead⟩
      | some older =>
        simp only [saveGbctRow, hOlder, saveCiphertext, Builder.writes_put, mem_append,
          mem_singleton] at hHere
        rcases hHere with (hOld | hHead) | hLink
        · exact .inl hOld
        · exact .inr ⟨row, by simp, .inl hHead⟩
        · exact .inr ⟨row, by simp, .inr ⟨older, hOlder, hLink⟩⟩
    · exact .inr ⟨row', by simp [hMem], hRow⟩

theorem Layout.nodup_map_fst_live {α : Type} (l : Layout) (lo : Nat) (f : Nat → α) (o : Nat) :
    ((l.live lo (fun p => (p, f p)) o).map Prod.fst).Nodup := by
  have hLe := l.liveCount_le lo o
  rw [Layout.map_live, Layout.live]
  apply List.Nodup.map_on _ nodup_range
  intro i hi j hj hEq
  rw [mem_range] at hi hj
  omega

/-! ## The whole operation -/

/-- The keys of the segments after a reduce: the head key is derived forward,
every other survivor gets a fresh key. -/
def Chain.reducedKey (S : KeySuite K C E V) (c : Chain K) (fresh : Nat → K) (o : Nat) : K :=
  if c.fgkNext - 1 - o = 0 then S.derive c.hgk .hgkDerive else fresh (c.fgkNext - 1 - o)

/-- The abstract effect of a reduce. -/
abbrev Chain.reducedFresh (S : KeySuite K C E V) (c : Chain K) (before : Nat)
    (fresh : Nat → K) : Chain K :=
  c.reduced before (S.derive c.hgk .hgkDerive) (c.reducedKey S fresh)

/-- The rows a reduce writes. -/
def Chain.reduceRows (S : KeySuite K C E V) (c : Chain K) (before : Nat) (fresh : Nat → K) :
    List (Nat × GBCiphertextPair E) :=
  c.live before
    (fun o => (o, c.reducePair S before (c.reducedKey S fresh)
      (fun p => c.dKey (max (c.start p) before)) o)) c.fgkNext

/-- The counters and the DGK row of a reduce. -/
def Builder.afterReduceCounters (S : KeySuite K C E V) (c : Chain K) (before : Nat)
    (proof : P) (b : Builder V P) : Builder V P :=
  let b := saveDMin S (b.recordProof proof) before
  let b := saveDgkRow S b c.dgkNext { commitment := S.commit (S.derive c.hgk .hgkDerive) }
  saveDgkNext S b (c.dgkNext + 1)

/-- The store after a reduce. -/
def Builder.afterReduce (S : KeySuite K C E V) (c : Chain K) (before : Nat) (fresh : Nat → K)
    (proof : P) (b : Builder V P) : Builder V P :=
  saveGbctRows S (c.reduceRows S before fresh) (b.afterReduceCounters S c before proof)

/-- The survivors' new pairs, as the builder of the ciphertexts computes them. -/
theorem buildReduceCiphertexts_eq (hWF : c.WF S) (hRep : Represents S r c)
    {before : Nat} (hBefore : c.dMin < before) (fresh : Nat → K)
    {ct : ReduceCiphertexts K E}
    (h : buildReduceCiphertexts S r (c.live before c.survivor c.fgkNext)
      (c.live c.dMin c.gbKey c.fgkNext) (S.derive c.hgk .hgkDerive) fresh before = some ct) :
    ct.pairs = c.live before (c.reducePair S before (c.reducedKey S fresh)
      (fun p => c.dKey (max (c.start p) before))) c.fgkNext := by
  have hHeads : (c.live before c.survivor c.fgkNext).mapM
      (advancedDHead S r (c.live c.dMin c.gbKey c.fgkNext) before) =
        some (c.live before (fun p => c.dKey (max (c.start p) before)) c.fgkNext) := by
    rw [Lists.mapM_eq_some_map
      (g := fun info => c.dKey (max (c.start info.fgkOrdinal) before)), Layout.map_live]
    · rfl
    · intro info hMem
      obtain ⟨o, ho, hLive, rfl⟩ := hWF.increasing.mem_live (Nat.le_refl _) hMem
      exact advancedDHead_survivor hWF hRep hBefore ho hLive
  have hKeys : ((range (c.live before c.survivor c.fgkNext).length).map fun i =>
      if i = 0 then S.derive c.hgk .hgkDerive else fresh i) =
        c.live before (c.reducedKey S fresh) c.fgkNext := by
    have hLe := c.liveCount_le before c.fgkNext
    simp only [Layout.live, length_map, length_range]
    apply map_congr_left
    intro i hi
    rw [mem_range] at hi
    rw [Chain.reducedKey, show c.fgkNext - 1 - (c.fgkNext - 1 - i) = i by omega]
  simp only [buildReduceCiphertexts, hHeads, hKeys, bind_eq_bind, bind_some] at h
  cases h
  exact buildPairs_live S hWF.layout (Nat.le_of_lt hBefore) _ _ _ (Nat.le_refl _)

/-- A successful reduce drops numbers inside the live range and writes the
survivors' rows. -/
theorem reduce_eq [DecidableEq C] {prover : RuntimeProver K C E P} (hS : S.Lawful)
    (hWF : c.WF S) {b b' : Builder V P} (hRep : Represents S b.get c) {self : SpaceKey K}
    {before : Nat} {fresh : Nat → K} (h : self.reduce S prover before fresh b = some b') :
    c.dMin < before ∧ before < c.dNext ∧ c.dgkNext + 1 < 2 ^ 64 ∧
      ∃ proof, b' = b.afterReduce S c before fresh proof := by
  simp only [SpaceKey.reduce, hRep.layout.dMin, hRep.layout.dNext,
    reconstructLiveChain_eq hWF.layout hRep.layout, bind_eq_bind, bind_some] at h
  split at h
  · cases h
  · next hLo =>
  split at h
  · cases h
  · next hHi =>
  simp only [bind_eq_some_iff] at h
  obtain ⟨oldHgk, hHgk, oldCommitment, _, h⟩ := h
  cases eq_of_resolveCurrentHgk hS hRep hHgk
  split at h
  · cases h
  · have hKeys := resolveChainGbKeys_nodes hWF hRep c.fgkNext (Nat.le_refl _)
    rw [hWF.head] at hKeys
    rw [hKeys, survivingNodes_nodes hWF (by omega)] at h
    simp only [bind_some, bind_eq_some_iff] at h
    obtain ⟨ct, hCt, _, _, proof, _, h⟩ := h
    have hPairs := buildReduceCiphertexts_eq hWF hRep (by omega) fresh hCt
    have hDgk : loadDgkNext S (saveDMin S (b.recordProof proof) before).get =
        some c.dgkNext := by
      simpa [loadDgkNext] using hRep.layout.dgkNext
    simp only [writeReduceToStorage, hDgk, hPairs, bind_eq_bind, bind_some,
      bind_eq_some_iff] at h
    obtain ⟨counter, hCounter, h⟩ := h
    obtain ⟨rfl, hLt⟩ := checkedSucc_eq_some hCounter
    cases h
    refine ⟨by omega, by omega, hLt, proof, ?_⟩
    simp only [Builder.afterReduce, saveGbctRows, Chain.reduceRows, Layout.live, zip_map',
      foldl_map]
    rfl

/-- Reducing keeps the chain well formed. -/
theorem Chain.WF.reducedFresh (h : c.WF S) {before : Nat} (hLo : c.dMin < before)
    (hHi : before < c.dNext) (fresh : Nat → K) : (c.reducedFresh S before fresh).WF S :=
  h.reduced hLo hHi (by simp [Chain.reducedKey])

/-- The store after a reduce represents the reduced chain. -/
theorem represents_afterReduce (hS : S.Lawful) (hWF : c.WF S) {b : Builder V P}
    (hRep : Represents S b.get c) {before : Nat} (hLo : c.dMin < before)
    (hHi : before < c.dNext) (hDgkLt : c.dgkNext + 1 < 2 ^ 64) (fresh : Nat → K) (proof : P) :
    Represents S (b.afterReduce S c before fresh proof).get (c.reducedFresh S before fresh) := by
  have hKeep : ∀ cell : Cell, (∀ o, Cell.gbctDHead o ≠ cell) → (∀ o, Cell.gbctLink o ≠ cell) →
      (b.afterReduce S c before fresh proof).get cell.key =
        (b.afterReduceCounters S c before proof).get cell.key :=
    fun cell hHead hLink => get_saveGbctRows_of_ne S _ _ fun row _ => ⟨hHead _, hLink _⟩
  have hRead := fun o ho hLive => loadGbct_saveGbctRows (P := P) hS _
    (b.afterReduceCounters S c before proof) (c.nodup_map_fst_live before _ c.fgkNext)
    (mem_of_getElem? (hWF.increasing.live_get
      (fun o => (o, c.reducePair S before (c.reducedKey S fresh)
        (fun p => c.dKey (max (c.start p) before)) o)) (Nat.le_refl _) (p := o) ho hLive))
  apply hRep.reduced hLo
  · intro cell hCell
    cases cell with
    | dMin => exact absurd trivial hCell
    | dgkNext => exact absurd trivial hCell
    | gbctDHead o => exact absurd trivial hCell
    | gbctLink o => exact absurd trivial hCell
    | dgkCommitment o =>
      have hNe : c.dgkNext ≠ o := fun h => hCell h.symm
      rw [hKeep _ (by simp) (by simp)]
      simp [Builder.afterReduceCounters, hNe]
    | _ =>
      rw [hKeep _ (by simp) (by simp)]
      simp [Builder.afterReduceCounters]
  · simp only [loadDMin, loadU64Required]
    rw [hKeep _ (by simp) (by simp)]
    simp [Builder.afterReduceCounters,
      hS.decodeU64_encodeU64 _ (Nat.lt_trans hHi hWF.layout.dNext_lt)]
  · simp only [loadDgkNext, loadU64Required]
    rw [hKeep _ (by simp) (by simp)]
    simp [Builder.afterReduceCounters, hS.decodeU64_encodeU64 _ hDgkLt]
  · simp only [loadDgkRow, loadCommitment]
    rw [hKeep _ (by simp) (by simp)]
    simp [Builder.afterReduceCounters, hS.decodeCommitment_encodeCommitment]
  · intro o ho hLive
    exact ⟨_, (hRead o ho hLive).1, hS.decrypt_encryptDHead _ _⟩
  · intro o ho hLive'
    have hLive : before < c.bound (o + 1) := hLive'
    have hNext := hWF.increasing (o + 1) ho
    refine ⟨S.encryptGbChainLink (c.reducedKey S fresh (o + 1)) (c.reducedKey S fresh o),
      (hRead (o + 1) ho (by omega)).2 _ ?_, hS.decrypt_encryptGbChainLink _ _⟩
    simp [Layout.reducePair, hLive]

end EncryptedSpaces.Retention
