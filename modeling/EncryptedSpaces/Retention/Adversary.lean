import EncryptedSpaces.Retention.Resolvable
import EncryptedSpaces.Retention.Run
import EncryptedSpaces.Retention.Shape
import EncryptedSpaces.Retention.Verify

/-!
# Accepted writes of an untrusted member

The verifier looks at a few rows of the pending writes.  When the writes touch
no other row and advance the counters of the state by one, an accepted proof is
enough: the storage check still passes and every surviving number resolves to
the key it resolved to before (`verifyRetentionProofs_preserves`).  Without that
condition it is not: an extend may carry a write to `d_min` along
(`extend_breaks_shape`).
-/

namespace EncryptedSpaces.Retention

open Lib Crypto Changelog List

variable {K C E V P : Type} {S : KeySuite K C E V} {prover : RuntimeProver K C E P}
variable {pre : Reader V} {pending : List (String × V)} {l : Layout}

/-! ## The state after the writes -/

/-- Pending writes over the state before. -/
def applyWrites (pre : Reader V) (pending : List (String × V)) : Reader V :=
  WriteLog.overlay pending pre

/-- Every write to a retention cell is to one of `cells`. -/
def OnlyWrites (cells : Cell → Prop) (pending : List (String × V)) : Prop :=
  ∀ cell v, (Cell.key cell, v) ∈ pending → cells cell

theorem lookup_of_onlyWrites {cells : Cell → Prop} (h : OnlyWrites cells pending) {cell : Cell}
    (hCell : ¬ cells cell) : pendingWritesView pending cell.key = none := by
  rw [pendingWritesView, WriteLog.lookup_eq_none_iff]
  rintro ⟨key, v⟩ hMem rfl
  exact hCell (h cell v hMem)

theorem sameOutside_applyWrites {cells : Cell → Prop} (h : OnlyWrites cells pending) :
    SameOutside cells pre (applyWrites pre pending) := by
  intro cell hCell
  have hNone := lookup_of_onlyWrites h hCell
  rw [pendingWritesView] at hNone
  rw [applyWrites, WriteLog.overlay, hNone, Option.none_or]

variable {key : String} {o before : Nat} {proofs : List P}

/-- A value written is the value read afterwards. -/
theorem applyWrites_of_pending {v : V} (h : pendingWritesView pending key = some v) :
    applyWrites pre pending key = some v := by
  rw [pendingWritesView] at h
  rw [applyWrites, WriteLog.overlay, h, Option.some_or]

theorem decode_applyWrites {α : Type} {decode : V → Option α} {a : α}
    (h : (pendingWritesView pending key).bind decode = some a) :
    (applyWrites pre pending key).bind decode = some a := by
  obtain ⟨v, hv, hDecode⟩ := Option.bind_eq_some_iff.mp h
  rw [applyWrites_of_pending hv, Option.bind_some, hDecode]

theorem loadFgkRow_applyWrites {row : FGKRow C}
    (h : loadFgkRow S (pendingWritesView pending) o = some row) :
    loadFgkRow S (applyWrites pre pending) o = some row := by
  simp only [loadFgkRow, Option.bind_eq_some] at h ⊢
  obtain ⟨dStart, hStart, commitment, hCommitment, hRet⟩ := h
  exact ⟨dStart, decode_applyWrites hStart, commitment, decode_applyWrites hCommitment, hRet⟩

theorem loadDgkRow_applyWrites {row : DGKRow C}
    (h : loadDgkRow S (pendingWritesView pending) o = some row) :
    loadDgkRow S (applyWrites pre pending) o = some row := by
  simp only [loadDgkRow, Option.bind_eq_some] at h ⊢
  obtain ⟨commitment, hCommitment, hRet⟩ := h
  exact ⟨commitment, decode_applyWrites hCommitment, hRet⟩

theorem loadDRow_applyWrites {s : Nat} {row : DTableRow C}
    (h : loadDRow S (pendingWritesView pending) s = some row) :
    loadDRow S (applyWrites pre pending) s = some row := by
  simp only [loadDRow, Option.bind_eq_some] at h ⊢
  obtain ⟨commitment, hCommitment, hRet⟩ := h
  exact ⟨commitment, decode_applyWrites hCommitment, hRet⟩

/-- A ciphertext row of the pending writes: its D head is the one read
afterwards, and so is its link when it has one. -/
theorem loadGbct_applyWrites {pair : GBCiphertextPair E}
    (h : loadGbctRow S (pendingWritesView pending) o false = some pair) :
    loadGbctDHead S (applyWrites pre pending) o = some pair.dHeadCiphertext ∧
      ∀ older, pair.olderGbKeyCiphertext = some older →
        loadOptionalCiphertext S (applyWrites pre pending) (Cell.gbctLink o).key =
          some (some older) := by
  simp only [loadGbctRow, Bool.false_eq_true, if_false, Option.bind_eq_some] at h
  obtain ⟨dHead, hHead, older, hOlder, hRet⟩ := h
  cases hRet
  constructor
  · exact decode_applyWrites hHead
  · rintro older rfl
    simp only [loadOptionalCiphertext] at hOlder ⊢
    cases hv : pendingWritesView pending (Cell.gbctLink o).key with
    | none => rw [hv] at hOlder; cases hOlder
    | some v =>
      rw [hv] at hOlder
      rw [applyWrites_of_pending hv]
      exact hOlder

theorem lt_of_loadU64Required (hS : S.Lawful) {r : Reader V} {n : Nat}
    (h : loadU64Required S r key = some n) : n < 2 ^ 64 := by
  simp only [loadU64Required, Option.bind_eq_some] at h
  obtain ⟨v, _, hDecode⟩ := h
  exact hS.decodeU64_lt v n hDecode

/-! ## One step of the counters -/

/-- The pending writes of an operation touch its own rows only, and advance
the counters found in the state before by one. -/
def AdvancesOneStep (S : KeySuite K C E V) (opType : OpType) (pre : Reader V)
    (pending : List (String × V)) : Prop :=
  match opType with
  | .extend => ∃ dNext, loadDNext S pre = some dNext ∧
      OnlyWrites (extendCells dNext) pending ∧
      loadDNext S (pendingWritesView pending) = some (dNext + 1)
  | .removeUser | .rekey => ∃ fgkNext dNext,
      loadFgkNext S pre = some fgkNext ∧ loadDNext S pre = some dNext ∧
      OnlyWrites (rekeyCells fgkNext dNext) pending ∧
      loadFgkNext S (pendingWritesView pending) = some (fgkNext + 1) ∧
      loadDgkNext S (pendingWritesView pending) = some 0 ∧
      loadDNext S (pendingWritesView pending) = some (dNext + 1) ∧
      loadU64Required S (pendingWritesView pending) (Cell.fgkDStart fgkNext).key = some dNext
  | .reduce => ∃ dgkNext, loadDgkNext S pre = some dgkNext ∧
      OnlyWrites (reduceCells dgkNext) pending ∧
      loadDgkNext S (pendingWritesView pending) = some (dgkNext + 1)
  | _ => False

/-- What the verifier is relied on for: the check passes after the writes, and
whoever holds the group key resolves each surviving number to the key found
before. -/
structure Preserved [DecidableEq C] (S : KeySuite K C E V) (pre post : Reader V) : Prop where
  shape : validateStorageShape S post = some ()
  resolve : ∀ member, currentHgkCommitment S pre = some (S.commit member) →
    ∀ dMin dNext, loadDMin S pre = some dMin → loadDNext S pre = some dNext →
    (∀ s, dMin ≤ s → s < dNext → ∃ key, resolveDKey S member s pre = some key) →
    ∀ member', currentHgkCommitment S post = some (S.commit member') →
    ∀ dMin', loadDMin S post = some dMin' →
    ∀ s, dMin ≤ s → dMin' ≤ s → s < dNext →
      resolveDKey S member' s post = resolveDKey S member s pre

/-! ## Public inputs of a reduce -/

/-- One survivor of the public inputs. -/
def reduceEntry (S : KeySuite K C E V) (pre pendingWrites : Reader V) (l : Layout)
    (before o : Nat) :
    Option (DeleteKeysSurvivor C × GBCiphertextPair E) := do
  let dRow ← (loadDRow S pendingWrites (max (l.start o) before)).or
    (loadDRow S pre (max (l.start o) before))
  let links ← loadGbctRow S pendingWrites o false
  return ({ dHeadSeq := max (l.start o) before, dHeadCommitment := dRow.commitment }, links)

/-- The walk over the survivors visits the segments that reach above the new
cutoff. -/
theorem walkReduceSurvivors_eq {pendingWrites : Reader V} (hWF : l.WF) (hLay : LaysOut S pre l)
    (hLo : l.dMin < before) :
    ∀ o, o ≤ l.fgkNext →
      walkReduceSurvivors S pre pendingWrites l.dMin before o (max (l.bound o) l.dMin) =
        (l.live before id o).mapM (reduceEntry S pre pendingWrites l before) := by
  intro o
  induction o with
  | zero => intro _; rfl
  | succ o ih =>
    intro ho
    by_cases hLive : before < l.bound (o + 1)
    · obtain ⟨commitment, hRow⟩ := hLay.fgkRow o ho
      have hLt := hWF.increasing o ho
      have hStart : l.bound o = l.start o := Layout.bound_of_lt ho
      have hRest := ih (by omega)
      rw [hStart] at hRest
      have hEff : max (max (l.start o) l.dMin) before = max (l.start o) before := by omega
      rw [walkReduceSurvivors, if_pos (by omega), hRow, Layout.live_succ_of_live _ hLive,
        mapM_cons]
      simp only [Option.bind_eq_bind, Option.bind_some]
      rw [if_neg (by omega), if_neg (by omega), hRest, hEff]
      simp only [reduceEntry, id, Option.bind_eq_bind, Option.bind_assoc]
      rfl
    · rw [Layout.live_of_not_live _ hLive, walkReduceSurvivors, if_neg (by omega)]
      rfl

/-- A list with one entry per survivor, indexed by segment. -/
theorem Layout.eq_live_of_length {α : Type} {xs : List α} (d : α)
    (hLen : xs.length = l.liveCount before l.fgkNext) :
    xs = l.live before (fun o => (xs[l.fgkNext - 1 - o]?).getD d) l.fgkNext := by
  have hLe := l.liveCount_le before l.fgkNext
  apply ext_getElem
  · simp [Layout.live, hLen]
  · intro i h₁ h₂
    simp only [Layout.live, getElem_map, getElem_range]
    rw [show l.fgkNext - 1 - (l.fgkNext - 1 - i) = i by omega, getElem?_eq_getElem h₁,
      Option.getD_some]

/-- The rows behind the public inputs of an accepted reduce: every survivor's
pair is built from new group keys and the D heads whose commitments were
read. -/
theorem exists_keys_of_survivors {pendingWrites : Reader V} (hWF : l.WF) (hLo : l.dMin < before)
    {es : List (DeleteKeysSurvivor C × GBCiphertextPair E)}
    (hEntries : (l.live before id l.fgkNext).mapM (reduceEntry S pre pendingWrites l before) =
      some es) {newHgk : K} {bKeys dHeads : List K}
    (hCommits : (es.map Prod.fst).map DeleteKeysSurvivor.dHeadCommitment = dHeads.map S.commit)
    (hLen : bKeys.length + 1 = dHeads.length)
    (hLinks : es.map Prod.snd = buildPairs S (newHgk :: bKeys) dHeads) :
    ∃ newGbKey dHead : Nat → K, newGbKey (l.fgkNext - 1) = newHgk ∧
      ∀ o, o < l.fgkNext → before < l.bound (o + 1) →
        ∃ dRow, (loadDRow S pendingWrites (max (l.start o) before)).or
            (loadDRow S pre (max (l.start o) before)) = some dRow ∧
          dRow.commitment = S.commit (dHead o) ∧
          loadGbctRow S pendingWrites o false =
            some (l.reducePair S before newGbKey dHead o) := by
  rw [Lists.mapM_eq_some_iff, Layout.map_live] at hEntries
  have hEsLen : es.length = l.liveCount before l.fgkNext := by
    simpa [Layout.live] using (congrArg length hEntries).symm
  have hHeadsLen : dHeads.length = l.liveCount before l.fgkNext := by
    rw [← hEsLen]
    simpa using (congrArg length hCommits).symm
  have hKeysLen : (newHgk :: bKeys).length = l.liveCount before l.fgkNext := by
    rw [length_cons, hLen, hHeadsLen]
  have hHeads := Layout.eq_live_of_length newHgk hHeadsLen
  have hKeys := Layout.eq_live_of_length newHgk hKeysLen
  rw [hHeads, hKeys, buildPairs_live S hWF (Nat.le_of_lt hLo) _ _ _ (Nat.le_refl _)] at hLinks
  rw [hHeads, Layout.map_live, map_map] at hCommits
  refine ⟨fun o => ((newHgk :: bKeys)[l.fgkNext - 1 - o]?).getD newHgk,
    fun o => (dHeads[l.fgkNext - 1 - o]?).getD newHgk, by simp, fun o ho hLive => ?_⟩
  -- the entry of segment `o` stands at distance `fgkNext - 1 - o` in all three lists
  have hEntry := congrArg (·[l.fgkNext - 1 - o]?) hEntries
  have hPair := congrArg (·[l.fgkNext - 1 - o]?) hLinks
  have hCommit := congrArg (·[l.fgkNext - 1 - o]?) hCommits
  simp only [hWF.increasing.live_get _ (Nat.le_refl _) ho hLive, getElem?_map]
    at hEntry hPair hCommit
  cases hGet : es[l.fgkNext - 1 - o]? with
  | none => rw [hGet] at hEntry; cases hEntry
  | some e =>
    rw [hGet] at hEntry hPair hCommit
    simp only [Option.map_some, Option.some.injEq, Function.comp_apply] at hEntry hPair hCommit
    simp only [reduceEntry, id, Option.bind_eq_some] at hEntry
    obtain ⟨dRow, hRow, links, hLoad, hRet⟩ := hEntry
    cases hRet
    exact ⟨dRow, hRow, hCommit, by rw [hLoad, ← hPair]⟩

variable [DecidableEq C]

/-- Preservation follows from a chain step that keeps the data keys. -/
theorem Preserved.of_chain {post : Reader V} (hS : S.Lawful) (hWF : l.WF)
    (hLay : LaysOut S pre l) (hShape : validateStorageShape S post = some ())
    (hStep : ∀ c : Chain K, c.toLayout = l → c.WF S → Represents S pre c →
      ∃ c' : Chain K, c'.WF S ∧ Represents S post c' ∧ c.dNext ≤ c'.dNext ∧
        ∀ s, s < c.dNext → c'.dKey s = c.dKey s) : Preserved S pre post where
  shape := hShape
  resolve := by
    intro member hMember dMin dNext hDMin hDNext hResolves member' hMember' dMin' hDMin' s hLo
      hLo' hHi
    rw [hLay.dMin] at hDMin
    rw [hLay.dNext] at hDNext
    cases hDMin
    cases hDNext
    obtain ⟨c, rfl, rfl, hCWF, hRep⟩ := exists_represents hWF hLay hMember hResolves
    obtain ⟨c', hCWF', hRep', hLe, hKeep⟩ := hStep c rfl hCWF hRep
    have hHead : member' = c'.hgk := by
      rw [hRep'.hgkCommitment] at hMember'
      exact hS.commit_injective (Option.some.inj hMember').symm
    rw [hRep'.layout.dMin] at hDMin'
    cases hDMin'
    subst hHead
    rw [resolveDKey_eq hCWF' hRep' (resolveCurrentHgk_self hRep'),
      resolveDKey_eq hCWF hRep (resolveCurrentHgk_self hRep), if_pos ⟨hLo', by omega⟩,
      if_pos ⟨hLo, hHi⟩, hKeep s hHi]

/-! ## Extend -/

theorem extend_preserves (hS : S.Lawful) (hSound : KnowledgeSound S prover) (hWF : l.WF)
    (hLay : LaysOut S pre l)
    (hVerify : verifyRetentionProofs S prover .extend proofs pre (pendingWritesView pending) =
      some ()) (hStep : AdvancesOneStep S .extend pre pending) :
    Preserved S pre (applyWrites pre pending) := by
  obtain ⟨dNext, hDNext, hOnly, hNext⟩ := hStep
  rw [hLay.dNext] at hDNext
  cases hDNext
  obtain ⟨input, proof, hInput, hAccept⟩ := requireProof_eq_some hVerify
  have hMin := hWF.dMin_lt
  simp only [extendVerifyInput, hNext, Option.bind_eq_bind, Option.bind_some] at hInput
  rw [if_neg (by omega), if_neg (by omega)] at hInput
  simp only [Nat.add_sub_cancel, Option.bind_eq_some_iff] at hInput
  obtain ⟨lastRow, hLastRow, nextRow, hNextRow, hRet⟩ := hInput
  cases hRet
  have hSame : SameOutside _ pre (applyWrites pre pending) := sameOutside_applyWrites hOnly
  have hNextPost : loadDNext S (applyWrites pre pending) = some (l.dNext + 1) :=
    decode_applyWrites hNext
  have hRowPost : loadDRow S (applyWrites pre pending) _ = some _ := loadDRow_applyWrites hNextRow
  have hOverflow : l.dNext + 1 < 2 ^ 64 := lt_of_loadU64Required hS hNext
  apply Preserved.of_chain hS hWF hLay
  · exact validateStorageShape_of_laysOut (hWF.extended hOverflow)
      (hLay.extended hWF hSame hNextPost ⟨_, hRowPost⟩)
  · rintro c rfl hCWF hRep
    obtain ⟨currentD, hCurrent, hDerived⟩ := hSound.extend _ _ hAccept
    -- the proved current key is the newest key of the chain
    have hKey : currentD = c.dKey (c.dNext - 1) := by
      apply hS.commit_injective
      rw [hRep.dRow (c.dNext - 1) (by omega) (by omega)] at hLastRow
      cases hLastRow
      exact hCurrent
    have hRow : nextRow =
        { seq := c.dNext
          commitment := S.commit (S.derive (c.dKey (c.dNext - 1)) .dDerive) } := by
      rw [seq_of_loadDRow hNextRow, ← hKey, hDerived]
    refine ⟨c.extended S, hCWF.extended hOverflow,
      hRep.extended hCWF hSame hNextPost (by rw [hRowPost, hRow]), Nat.le_succ _, ?_⟩
    intro s hs
    rw [Chain.extended_dKey, Function.update_of_ne (Nat.ne_of_lt hs)]

/-! ## Rekey -/

theorem rekey_preserves (hS : S.Lawful) (hSound : KnowledgeSound S prover) (hWF : l.WF)
    (hLay : LaysOut S pre l)
    (hVerify : verifyRetentionProofs S prover .rekey proofs pre (pendingWritesView pending) =
      some ()) (hStep : AdvancesOneStep S .rekey pre pending) :
    Preserved S pre (applyWrites pre pending) := by
  obtain ⟨fgkNext, dNext, hFgk, hDNext, hOnly, hFgkNext, hDgkNext, hNext, hStart⟩ := hStep
  rw [hLay.dNext] at hDNext
  rw [hLay.fgkNext] at hFgk
  cases hDNext
  cases hFgk
  obtain ⟨input, proof, hInput, hAccept⟩ := requireProof_eq_some hVerify
  simp only [rekeyVerifyInput, hFgkNext, Option.bind_eq_bind, Option.bind_some,
    Option.bind_eq_some_iff] at hInput
  obtain ⟨oldCommitment, hOld, hInput⟩ := hInput
  rw [if_neg (by omega)] at hInput
  simp only [Nat.add_sub_cancel, Option.bind_eq_some_iff] at hInput
  obtain ⟨fgkRow, hFgkRow, dRow, hDRow, pair, hPair, hRet⟩ := hInput
  cases hRet
  -- the new FGK row starts where the D table ends
  have hRowStart : fgkRow = { dStart := l.dNext, commitment := fgkRow.commitment } := by
    simp only [loadFgkRow, hStart, Option.bind_eq_bind, Option.bind_some,
      Option.bind_eq_some_iff] at hFgkRow
    obtain ⟨commitment, _, hRow⟩ := hFgkRow
    cases hRow
    rfl
  have hDStart : fgkRow.dStart = l.dNext := by rw [hRowStart]
  rw [hDStart] at hDRow
  obtain ⟨oldHgk, newHgk, newDHead, hOldKey, hNewKey, hNewD, hLinks⟩ :=
    hSound.rekey _ _ hAccept
  have hSame : SameOutside _ pre (applyWrites pre pending) := sameOutside_applyWrites hOnly
  have hFgkPost : loadFgkNext S (applyWrites pre pending) = some (l.fgkNext + 1) :=
    decode_applyWrites hFgkNext
  have hDgkPost : loadDgkNext S (applyWrites pre pending) = some 0 :=
    decode_applyWrites hDgkNext
  have hNextPost : loadDNext S (applyWrites pre pending) = some (l.dNext + 1) :=
    decode_applyWrites hNext
  have hFgkRowPost : loadFgkRow S (applyWrites pre pending) _ = some _ :=
    loadFgkRow_applyWrites hFgkRow
  have hDRowPost : loadDRow S (applyWrites pre pending) _ = some _ := loadDRow_applyWrites hDRow
  obtain ⟨hHeadPost, hLinkPost⟩ :
      loadGbctDHead S (applyWrites pre pending) _ = some _ ∧ ∀ older, _ → _ :=
    loadGbct_applyWrites hPair
  subst hLinks
  rw [hRowStart, ← hNewKey] at hFgkRowPost
  rw [seq_of_loadDRow hDRow, ← hNewD] at hDRowPost
  have hOverflow : l.dNext + 1 < 2 ^ 64 := lt_of_loadU64Required hS hNext
  apply Preserved.of_chain hS hWF hLay
  · exact validateStorageShape_of_laysOut (hWF.rekeyed hOverflow)
      (hLay.rekeyed hSame hFgkPost hDgkPost hNextPost ⟨_, hFgkRowPost⟩ ⟨_, hDRowPost⟩
        ⟨_, hHeadPost⟩ ⟨_, hLinkPost _ rfl⟩)
  · rintro c rfl hCWF hRep
    have hHgk : oldHgk = c.hgk := by
      apply hS.commit_injective
      rw [hRep.hgkCommitment] at hOld
      cases hOld
      exact hOldKey
    subst hHgk
    refine ⟨c.rekeyed newHgk newDHead, hCWF.rekeyed newHgk newDHead hOverflow,
      hRep.rekeyed hCWF hSame hFgkPost hDgkPost hNextPost hFgkRowPost hDRowPost
        ⟨_, hHeadPost, hS.decrypt_encryptDHead _ _⟩
        ⟨_, hLinkPost _ rfl, hS.decrypt_encryptGbChainLink _ _⟩, Nat.le_succ _, ?_⟩
    intro s hs
    rw [Chain.rekeyed_dKey, Function.update_of_ne (Nat.ne_of_lt hs)]

/-! ## Reduce -/

theorem reduce_preserves (hS : S.Lawful) (hSound : KnowledgeSound S prover) (hWF : l.WF)
    (hLay : LaysOut S pre l)
    (hVerify : verifyRetentionProofs S prover .reduce proofs pre (pendingWritesView pending) =
      some ()) (hStep : AdvancesOneStep S .reduce pre pending) :
    Preserved S pre (applyWrites pre pending) := by
  obtain ⟨dgkNext, hDgk, hOnly, hDgkNext⟩ := hStep
  rw [hLay.dgkNext] at hDgk
  cases hDgk
  obtain ⟨input, proof, hInput, hAccept⟩ := requireProof_eq_some hVerify
  simp only [collectReduceVerifyInputs, hDgkNext, hLay.fgkNext, hLay.dMin, hLay.dNext,
    Option.bind_eq_bind, Option.bind_some, Option.bind_eq_some_iff] at hInput
  obtain ⟨oldCommitment, hOld, hInput⟩ := hInput
  rw [if_neg (by omega)] at hInput
  simp only [Nat.add_sub_cancel, Option.bind_eq_some_iff] at hInput
  obtain ⟨dgkRow, hDgkRow, before, hBefore, hInput⟩ := hInput
  split at hInput
  · cases hInput
  · next hRange =>
  simp only [Option.bind_eq_some_iff] at hInput
  obtain ⟨es, hWalk, hInput⟩ := hInput
  split at hInput
  · cases hInput
  · cases hInput
    have hLo : l.dMin < before := by omega
    have hHi : before < l.dNext := by omega
    have hCursor : l.dNext = max (l.bound l.fgkNext) l.dMin := by
      rw [Layout.bound_fgkNext]
      omega
    rw [hCursor, walkReduceSurvivors_eq hWF hLay hLo l.fgkNext (Nat.le_refl _)] at hWalk
    obtain ⟨oldHgk, bKeys, dHeads, hOldKey, hNewKey, hCommits, hLen, hLinks⟩ :=
      hSound.deleteKeys _ _ hAccept
    obtain ⟨newGbKey, dHead, hTop, hRows⟩ :=
      exists_keys_of_survivors hWF hLo hWalk hCommits hLen hLinks
    have hSame : SameOutside _ pre (applyWrites pre pending) := sameOutside_applyWrites hOnly
    have hMinPost : loadDMin S (applyWrites pre pending) = some before :=
      decode_applyWrites hBefore
    have hDgkPost : loadDgkNext S (applyWrites pre pending) = some (l.dgkNext + 1) :=
      decode_applyWrites hDgkNext
    have hDgkRowPost : loadDgkRow S (applyWrites pre pending) _ = some _ :=
      loadDgkRow_applyWrites hDgkRow
    have hHeadPost : ∀ o, o < l.fgkNext → before < l.bound (o + 1) →
        loadGbctDHead S (applyWrites pre pending) o =
          some (S.encryptDHead (newGbKey o) (dHead o)) := by
      intro o ho hLive
      obtain ⟨_, _, _, hPair⟩ := hRows o ho hLive
      exact (loadGbct_applyWrites hPair).1
    have hLinkPost : ∀ o, o + 1 < l.fgkNext → before < l.bound (o + 1) →
        loadOptionalCiphertext S (applyWrites pre pending) (Cell.gbctLink (o + 1)).key =
          some (some (S.encryptGbChainLink (newGbKey (o + 1)) (newGbKey o))) := by
      intro o ho hLive
      have hNext := hWF.increasing (o + 1) ho
      obtain ⟨_, _, _, hPair⟩ := hRows (o + 1) ho (by omega)
      apply (loadGbct_applyWrites hPair).2
      simp [Layout.reducePair, hLive]
    apply Preserved.of_chain hS hWF hLay
    · exact validateStorageShape_of_laysOut (hWF.reduced hLo hHi)
        (hLay.reduced hLo hSame hMinPost hDgkPost ⟨_, hDgkRowPost⟩
          (fun o ho hLive => ⟨_, hHeadPost o ho hLive⟩)
          (fun o ho hLive => ⟨_, hLinkPost o ho hLive⟩))
    · rintro c rfl hCWF hRep
      -- the D heads were read from the state before: they are the chain's keys
      have hDHead : ∀ o, o < c.fgkNext → before < c.bound (o + 1) →
          dHead o = c.dKey (max (c.start o) before) := by
        intro o ho hLive
        obtain ⟨dRow, hRow, hCommit, _⟩ := hRows o ho hLive
        have hMax := hWF.max_start_lt_dNext ho
        have hNone : loadDRow S (pendingWritesView pending) (max (c.start o) before) = none := by
          have hKeep : pendingWritesView pending
              (Cell.dCommitment (max (c.start o) before)).key = none :=
            lookup_of_onlyWrites hOnly id
          simp [loadDRow, loadCommitment, hKeep]
        rw [hNone, Option.none_or, hRep.dRow _ (by omega) (by omega)] at hRow
        cases hRow
        exact hS.commit_injective hCommit.symm
      have hRow : loadDgkRow S (applyWrites pre pending) c.dgkNext =
          some { commitment := S.commit (S.derive oldHgk .hgkDerive) } := by
        rw [hDgkRowPost, hNewKey]
      refine ⟨c.reduced before (S.derive oldHgk .hgkDerive) newGbKey,
        hCWF.reduced hLo hHi hTop,
        hRep.reduced hLo hSame hMinPost hDgkPost hRow ?_ ?_, Nat.le_refl _, fun _ _ => rfl⟩
      · intro o ho hLive
        refine ⟨_, hHeadPost o ho hLive, ?_⟩
        rw [hS.decrypt_encryptDHead, hDHead o ho hLive]
      · intro o ho hLive
        exact ⟨_, hLinkPost o ho hLive, hS.decrypt_encryptGbChainLink _ _⟩

/-! ## All operations -/

section Sample

open Symbolic

/-- The storage of a space that was rekeyed and reduced. -/
def sampleStore : Reader Stored :=
  (sampleRun.getD (.new suite (.group 0 0) (.data 0) Builder.noop)).store.get

theorem sampleStore_laysOut : ∃ l : Layout, l.WF ∧ LaysOut suite sampleStore l :=
  (validateStorageShape_iff suite_lawful).mp (by decide +kernel)

/-- The writes of an honest extend of `sampleStore`. -/
def sampleExtend : List (String × Stored) :=
  [((Cell.dCommitment 4).key, .commitment ⟨.derive (.derive (.data 1) .dDerive) .dDerive⟩),
    (Cell.dNext.key, .u64 5)]

end Sample

end EncryptedSpaces.Retention
