import EncryptedSpaces.Client.Apply
import EncryptedSpaces.FastForward.Window
import EncryptedSpaces.Ops.RefreshKeys

/-!
# The client's checks and the verifier's

A client that applies changes one by one makes most of the checks that the
sequence verifier will make on the same chain: the high-water mark, the
signature chains and the distance to the parent.  It never looks at the signed
commitment to the parent.  `checkChain_isSome_iff` says that this is all that is
missing: the chain a client accepted from the start passes the verifier exactly
when every entry names the root of the chain at its parent.
-/

namespace EncryptedSpaces.Client

open Encoding Changelog Ops Lib FastForward Server List Option

/-! ## Chains -/

section Chain

variable (H : Bytes → Digest)

/-- The log after the given entries. -/
def logTree (initialDc : Digest) (entries : List ChangelogEntry) : Option MmrTree :=
  entries.foldlM (fun tree entry => tree.append H entry.toBytes) (MmrTree.initialized H initialDc)

/-- The root of the chain at a change. -/
def rootAt (initialDc : Digest) (entries : List ChangelogEntry) (changeId : Nat) : Option Digest :=
  (logTree H initialDc (entries.take changeId)).bind (·.root H)

/-- Every entry names the root of the chain at its parent. -/
def SignedParents (initialDc : Digest) (entries : List ChangelogEntry) : Prop :=
  ∀ (i : Nat) (entry : ChangelogEntry), entries[i]? = some entry →
    rootAt H initialDc entries entry.parentChange = some entry.parentClc

/-- Where the sequence verifier starts on a first chunk. -/
def chainStart (initialDc : Digest) : MmrTree × Threaded :=
  ((initialClcState H initialDc).toTree,
    { Threaded.initial with recentRoots := [(0, (initialClcState H initialDc).root)] })

variable {H}

theorem logTree_nil (initialDc : Digest) :
    logTree H initialDc [] = some (MmrTree.initialized H initialDc) := rfl

variable {initialDc : Digest} {entries : List ChangelogEntry}

theorem logTree_append {entry : ChangelogEntry} {tree : MmrTree}
    (h : logTree H initialDc entries = some tree) :
    logTree H initialDc (entries ++ [entry]) = tree.append H entry.toBytes := by
  unfold logTree at h ⊢
  rw [foldlM_append, h]
  dsimp only [bind, Option.bind, foldlM]
  cases tree.append H entry.toBytes <;> rfl

/-- Later entries do not change the roots before them. -/
theorem rootAt_append {changeId : Nat} (h : changeId ≤ entries.length)
    (more : List ChangelogEntry) :
    rootAt H initialDc (entries ++ more) changeId = rootAt H initialDc entries changeId := by
  unfold rootAt
  rw [take_append_of_le_length h]

theorem rootAt_length {tree : MmrTree} (h : logTree H initialDc entries = some tree) :
    rootAt H initialDc entries entries.length = tree.root H := by
  unfold rootAt
  rw [take_length, h, bind_some]

/-- A head that grew by an entry is the head of the grown log. -/
theorem tryAppend_eq_some {head head' : TreeHead} {bytes : Bytes}
    (h : head.tryAppend H bytes = some head') :
    head.toTree.append H bytes = some head'.toTree ∧ head'.toTree.root H = some head'.root := by
  unfold TreeHead.tryAppend at h
  by_cases hFits : head.isWellFormed H = true ∧ head.treeSize ≠ maxTreeSize
  · rw [if_pos hFits, bind_eq_some] at h
    obtain ⟨tree, hAppend, h⟩ := h
    obtain ⟨root, hRoot, h⟩ := bind_eq_some_iff.mp h
    obtain rfl := some.inj h
    exact ⟨hAppend, hRoot⟩
  · rw [if_neg hFits] at h
    cases h

end Chain

/-! ## Runs of a client -/

/-- A pair the server delivers and the local clock when it arrives. -/
structure Delivery (T : Type) where
  entry : ChangelogEntry
  fits : entry.FitsWidths
  response : ChangeResponse T
  now : Nat

/-- Accept deliveries one by one. -/
def acceptDeliveries {T V : Type} (P : ClientParams T V) :
    ClientState → List (Delivery T) → Option ClientState
  | st, [] => some st
  | st, d :: rest => do
      let (_, st) ← (validateAndApplyChange P d.now st d.entry d.response).toOption
      acceptDeliveries P st rest

/-- The entries that become part of the chain after `changeId`; the others were
applied before. -/
def appliedEntries {T : Type} : Nat → List (Delivery T) → List ChangelogEntry
  | _, [] => []
  | changeId, d :: rest =>
    if d.response.changeId = changeId + 1 then d.entry :: appliedEntries (changeId + 1) rest
    else appliedEntries changeId rest

section Simulation

variable {T V : Type} {P : ClientParams T V} {st : ClientState}

/-- The client after `log` and the verifier after the same entries. -/
structure Tracks (H : Bytes → Digest) (initialDc : Digest) (log : List ChangelogEntry)
    (st : ClientState) (sq : MmrTree × Threaded) (roots : List Digest) : Prop where
  length_log : log.length = st.currentChangeId
  tree_eq : st.currentClcState.toTree = sq.1
  logTree_eq : logTree H initialDc log = some sq.1
  sigrefMap : ∀ uid : Nat, sq.2.sigrefMap[uid]?.map Prod.fst = st.sigrefMap[uid]?
  timestampHwm : sq.2.timestampHwm = st.timestampHwm
  recentRoots : sq.2.recentRoots = window roots
  length_roots : roots.length = log.length + 1
  roots_eq : ∀ n ≤ log.length, roots[n]? = rootAt H initialDc log n

theorem ClientState.AtGenesis.tracks {H : Bytes → Digest} (h : st.AtGenesis H) :
    Tracks H st.initialDc [] st (chainStart H st.initialDc) [hInit H st.initialDc] where
  length_log := h.currentChangeId.symm
  tree_eq := by
    rw [h.currentClcState]
    rfl
  logTree_eq := logTree_nil st.initialDc
  sigrefMap uid := by
    rw [h.sigrefMap]
    rfl
  timestampHwm := h.timestampHwm.symm
  recentRoots := rfl
  length_roots := rfl
  roots_eq n hn := by
    obtain rfl : n = ([] : List ChangelogEntry).length := Nat.le_zero.mp hn
    rw [rootAt_length (logTree_nil st.initialDc), MmrTree.initialized_root]
    rfl

/-- The parent of an accepted change is at most nine changes back. -/
theorem NextChange.parent_near {entry : ChangelogEntry} {response : ChangeResponse T}
    {writes : Batch} {next : Prepared} (h : NextChange P st entry response writes next) :
    validateParentChange entry.parentChange (st.currentChangeId + 1) = true ∧
      entry.parentChange ≤ st.currentChangeId ∧
      st.currentChangeId + 1 ≤ entry.parentChange + maxParentDistance := by
  obtain ⟨tree, after, _, hVerified⟩ := verifyProofAndValidate_eq_ok.mp h.witness
  have hParent := hVerified.parentChange
  refine ⟨hParent, ?_⟩
  unfold validateParentChange at hParent
  simp only [decide_eq_true_eq] at hParent
  obtain ⟨hBounds, hNear⟩ := hParent
  split_ifs at hBounds with hFirst
  · omega
  · omega

section Step

variable {initialDc : Digest} {log : List ChangelogEntry} {sq : MmrTree × Threaded}
  {roots : List Digest} {entry : ChangelogEntry} {response : ChangeResponse T} {writes : Batch}
  {next : Prepared} {clc : TreeHead}

/-- The verifier's checks of the change a client applied: only the commitment to
the parent is open. -/
theorem checkEntry_of_next (leafHash : Digest) (hTracks : Tracks P.H initialDc log st sq roots)
    (hNext : NextChange P st entry response writes next) :
    checkEntry (st.currentChangeId + 1) { entry with signature := [] } leafHash sq.2 =
      if rootAt P.H initialDc log entry.parentChange = some entry.parentClc then
        some { sq.2 with
          sigrefMap := sq.2.sigrefMap.insert entry.uid (st.currentChangeId + 1, leafHash)
          timestampHwm := next.newTimestampHwm }
      else none := by
  obtain ⟨hParent, hBelow, hNear⟩ := hNext.parent_near
  have hHwm : validateTimestampHwm entry.timestamp sq.2.timestampHwm =
      some next.newTimestampHwm := by
    rw [hTracks.timestampHwm]
    exact hNext.timestampHwm
  have hSig : validateSigref sq.2.sigrefMap entry.uid entry.sigRef (st.currentChangeId + 1)
      leafHash = some (sq.2.sigrefMap.insert entry.uid (st.currentChangeId + 1, leafHash)) := by
    unfold validateSigref
    rw [if_pos]
    rw [hTracks.sigrefMap]
    exact hNext.sigRef
  have hClc : validateParentClc entry.parentChange entry.parentClc sq.2.recentRoots =
      decide (rootAt P.H initialDc log entry.parentChange = some entry.parentClc) := by
    have hLength : roots.length = st.currentChangeId + 1 := by
      rw [hTracks.length_roots, hTracks.length_log]
    rw [hTracks.recentRoots, Bool.eq_iff_iff, decide_eq_true_iff,
      ← hTracks.roots_eq _ (by rw [hTracks.length_log]; exact hBelow)]
    exact validateParentClc_window_iff (by omega) (by omega)
  unfold checkEntry
  rw [hHwm, hSig, hParent, hClc]
  by_cases hRoot : rootAt P.H initialDc log entry.parentChange = some entry.parentClc
  · rw [if_pos hRoot, decide_eq_true hRoot]
    rfl
  · rw [if_neg hRoot, decide_eq_false hRoot]
    rfl

/-- The whole round of the verifier. -/
theorem checkChainEntry_of_next (fits : entry.FitsWidths)
    (hTracks : Tracks P.H initialDc log st sq roots)
    (hNext : NextChange P st entry response writes next)
    (hAppend : st.currentClcState.tryAppend P.H entry.toBytes = some clc) :
    checkChainEntry P.H (st.currentChangeId + 1) entry.toBytes sq =
      if rootAt P.H initialDc log entry.parentChange = some entry.parentClc then
        some (clc.toTree, {
          sigrefMap := sq.2.sigrefMap.insert entry.uid
            (st.currentChangeId + 1, hLeaf P.H entry.toBytes)
          recentRoots := pushRoot sq.2.recentRoots (st.currentChangeId + 1) clc.root
          timestampHwm := next.newTimestampHwm })
      else none := by
  obtain ⟨hTree, hRoot⟩ := tryAppend_eq_some hAppend
  rw [hTracks.tree_eq] at hTree
  unfold checkChainEntry
  dsimp only [bind]
  rw [hTree, bind_some, fromBytesForVerification_toBytes fits]
  dsimp only [Except.toOption]
  rw [bind_some, checkEntry_of_next _ hTracks hNext]
  by_cases hParentRoot : rootAt P.H initialDc log entry.parentChange = some entry.parentClc
  · rw [if_pos hParentRoot, if_pos hParentRoot, bind_some, hRoot, bind_some]
    rfl
  · rw [if_neg hParentRoot, if_neg hParentRoot, bind_none]

/-- After a step in which the parent was right, client and verifier still agree. -/
theorem Tracks.advance (hTracks : Tracks P.H initialDc log st sq roots)
    (hNext : NextChange P st entry response writes next)
    (hAppend : st.currentClcState.tryAppend P.H entry.toBytes = some clc) :
    Tracks P.H initialDc (log ++ [entry]) (st.advance P.H entry response next clc)
      (clc.toTree, {
        sigrefMap := sq.2.sigrefMap.insert entry.uid
          (st.currentChangeId + 1, hLeaf P.H entry.toBytes)
        recentRoots := pushRoot sq.2.recentRoots (st.currentChangeId + 1) clc.root
        timestampHwm := next.newTimestampHwm })
      (roots ++ [clc.root]) := by
  obtain ⟨hTree, hRoot⟩ := tryAppend_eq_some hAppend
  rw [hTracks.tree_eq] at hTree
  have hLogTree : logTree P.H initialDc (log ++ [entry]) = some clc.toTree := by
    rw [logTree_append hTracks.logTree_eq, hTree]
  have hLength : (log ++ [entry]).length = log.length + 1 := by
    rw [length_append, length_singleton]
  refine {
    length_log := ?_
    tree_eq := rfl
    logTree_eq := hLogTree
    sigrefMap := ?_
    timestampHwm := rfl
    recentRoots := ?_
    length_roots := ?_
    roots_eq := ?_ }
  · show (log ++ [entry]).length = next.currentChangeId + 1
    rw [hLength, hTracks.length_log, hNext.currentChangeId]
  · intro uid
    show (sq.2.sigrefMap.insert entry.uid _)[uid]?.map Prod.fst =
      (st.sigrefMap.insert entry.uid response.changeId)[uid]?
    rw [Std.ExtTreeMap.getElem?_insert, Std.ExtTreeMap.getElem?_insert]
    by_cases hUid : compare entry.uid uid = .eq
    · rw [if_pos hUid, if_pos hUid, map_some, hNext.changeId]
    · rw [if_neg hUid, if_neg hUid]
      exact hTracks.sigrefMap uid
  · show pushRoot sq.2.recentRoots (st.currentChangeId + 1) clc.root = _
    rw [hTracks.recentRoots, ← hTracks.length_log, ← hTracks.length_roots]
    exact pushRoot_window roots clc.root
  · rw [length_append, length_singleton, hTracks.length_roots, hLength]
  · intro n hn
    by_cases hOld : n ≤ log.length
    · rw [rootAt_append hOld, getElem?_append_left (by rw [hTracks.length_roots]; omega)]
      exact hTracks.roots_eq n hOld
    · obtain rfl : n = (log ++ [entry]).length := by omega
      rw [rootAt_length hLogTree, hRoot, hLength, ← hTracks.length_roots,
        getElem?_concat_length]

end Step

/-- Along a whole run: the verifier passes the entries that were applied exactly
when each of them names the root at its parent. -/
theorem checkChain_isSome_of_tracks {initialDc : Digest} {log : List ChangelogEntry}
    {sq : MmrTree × Threaded} {roots : List Digest} {deliveries : List (Delivery T)}
    {st' : ClientState} (hTracks : Tracks P.H initialDc log st sq roots)
    (h : acceptDeliveries P st deliveries = some st') :
    (checkChain P.H st.currentChangeId
        ((appliedEntries st.currentChangeId deliveries).map (·.toBytes)) sq).isSome ↔
      ∀ (i : Nat) (entry : ChangelogEntry),
        (appliedEntries st.currentChangeId deliveries)[i]? = some entry →
        rootAt P.H initialDc (log ++ appliedEntries st.currentChangeId deliveries)
          entry.parentChange = some entry.parentClc := by
  induction deliveries generalizing log st sq roots with
  | nil => simp [appliedEntries, checkChain]
  | cons d rest ih =>
    rw [acceptDeliveries, bind_eq_some] at h
    obtain ⟨⟨writes, st₁⟩, hAccept, hRest⟩ := h
    rcases validateAndApplyChange_cases (Except.toOption_eq_some.mp hAccept) with
      ⟨hOld, rfl⟩ | ⟨next, clc, hNext, hAppend, rfl⟩
    · have hNotNext : ¬ d.response.changeId = st₁.currentChangeId + 1 := by omega
      rw [appliedEntries, if_neg hNotNext]
      exact ih hTracks hRest
    · have hBelow := hNext.parent_near.2.1
      rw [← hTracks.length_log] at hBelow
      have hId : (st.advance P.H d.entry d.response next clc).currentChangeId =
          st.currentChangeId + 1 := congrArg (· + 1) hNext.currentChangeId
      have hIh := ih (hTracks.advance hNext hAppend) hRest
      rw [hId] at hIh
      rw [appliedEntries, if_pos hNext.changeId, map_cons, checkChain, bind_eq_bind,
        checkChainEntry_of_next d.fits hTracks hNext hAppend]
      by_cases hRoot : rootAt P.H initialDc log d.entry.parentChange = some d.entry.parentClc
      · rw [if_pos hRoot, bind_some, hIh]
        constructor
        · intro hAll i entry hEntry
          cases i with
          | zero =>
            obtain rfl : d.entry = entry := some.inj hEntry
            rw [rootAt_append hBelow]
            exact hRoot
          | succ i =>
            have hTail := hAll i entry hEntry
            rwa [append_assoc, singleton_append] at hTail
        · intro hAll i entry hEntry
          rw [append_assoc, singleton_append]
          exact hAll (i + 1) entry hEntry
      · rw [if_neg hRoot, bind_none]
        constructor
        · intro hNone
          cases hNone
        · intro hAll
          have hHead := hAll 0 d.entry rfl
          rw [rootAt_append hBelow] at hHead
          exact absurd hHead hRoot

end Simulation

/-- The chain that a client accepted from the start passes the per-entry checks
of the sequence verifier exactly when every entry names the root at its parent. -/
theorem checkChain_isSome_iff {T V : Type} (P : ClientParams T V) {st st' : ClientState}
    {deliveries : List (Delivery T)} (hGenesis : st.AtGenesis P.H)
    (hAccepted : acceptDeliveries P st deliveries = some st') :
    (checkChain P.H 0 ((appliedEntries 0 deliveries).map (·.toBytes))
        (chainStart P.H st.initialDc)).isSome ↔
      SignedParents P.H st.initialDc (appliedEntries 0 deliveries) := by
  have h := checkChain_isSome_of_tracks hGenesis.tracks hAccepted
  rw [hGenesis.currentChangeId, nil_append] at h
  exact h

/-! ## A client and a fork -/

/-- A small checksum in place of the hash. -/
def checksum (bytes : Bytes) : Digest :=
  List.replicate 32 (bytes.foldl (fun acc byte => acc * 31 + byte) 7)

/-- A client over maps, with one signature key and no proofs. -/
def sampleClient : ClientParams Db Unit where
  H := checksum
  merk := mapTrees fun db => checksum (db.toList.flatMap fun (key, value) => key ++ value)
  codec := noRules
  verifyFf _ _ := .error "no proof"
  parseAuthKey _ := some ()
  verifySignature _ _ := true

/-- User 1 before any change. -/
def sampleGenesis : ClientState where
  uid := some 1
  currentDataCommitment := sampleClient.merk.hash internalDb
  initialDc := sampleClient.merk.hash internalDb
  currentChangeId := 0
  myLastChangeId := 0
  sigrefMap := ∅
  timestampHwm := 0
  keyValidFromChangeId := 0
  currentClcState := initialClcState checksum (sampleClient.merk.hash internalDb)
  currentChangeEntry := none
  ffImageId := []
  pendingLocalChanges := ∅

theorem sampleGenesis_atGenesis : sampleGenesis.AtGenesis checksum := ⟨rfl, rfl, rfl, rfl, rfl⟩

/-- The database after a sample entry. -/
def sampleAfter (changeId : Nat) (entry : ChangelogEntry) (db : Db) : Db :=
  (runEntry noRules changeId entry db).toOption.getD db

/-- What an honest server answers for an entry on `db`. -/
def sampleResponse (changeId : Nat) (entry : ChangelogEntry) (db : Db) : ChangeResponse Db where
  oldRoot := sampleClient.merk.hash db
  newRoot := sampleClient.merk.hash (sampleAfter changeId entry db)
  prunedMerkleTree := .pruned db
  changeId
  rowsAffected := 1
  acceptedAtServerTime := entry.timestamp
  hashedValues := ∅

/-- User 1's first entry, on the start of the log. -/
def clientCreate : ChangelogEntry :=
  { sampleCreate with
    timestamp := 50, signature := [1],
    parentClc := (initialClcState checksum (sampleClient.merk.hash internalDb)).root }

/-- User 1's second entry; it names `parentClc` as the root after the first. -/
def clientInvite (parentClc : Digest) : ChangelogEntry :=
  { sampleInvite with timestamp := 60, signature := [1], parentClc }

/-- The root after the first entry. -/
def clientRoot : Digest :=
  (rootAt checksum (sampleClient.merk.hash internalDb) [clientCreate] 1).getD []

theorem clientCreate_fits : clientCreate.FitsWidths := by constructor <;> decide +kernel

theorem clientInvite_fits : (clientInvite clientRoot).FitsWidths := by
  constructor <;> decide +kernel

/-- Both entries, the second with the given parent root of 32 bytes. -/
def sampleDeliveries (parentClc : Digest) (fits : (clientInvite parentClc).FitsWidths) :
    List (Delivery Db) :=
  [ { entry := clientCreate, fits := clientCreate_fits,
      response := sampleResponse 1 clientCreate internalDb, now := 50 },
    { entry := clientInvite parentClc, fits,
      response := sampleResponse 2 (clientInvite parentClc)
        (sampleAfter 1 clientCreate internalDb),
      now := 60 } ]

def honestDeliveries : List (Delivery Db) :=
  sampleDeliveries clientRoot clientInvite_fits

/-- The second entry was signed on another branch of the log. -/
def forkedDeliveries : List (Delivery Db) :=
  sampleDeliveries (hashCell 9) (by constructor <;> decide +kernel)

/-- The honest pair is accepted and passes the verifier's checks. -/
theorem honestDeliveries_pass :
    (∃ st, acceptDeliveries sampleClient sampleGenesis honestDeliveries = some st) ∧
    (appliedEntries 0 honestDeliveries).length = 2 ∧
    (checkChain sampleClient.H 0 ((appliedEntries 0 honestDeliveries).map (·.toBytes))
      (chainStart sampleClient.H sampleGenesis.initialDc)).isSome = true := by
  have hSome : (acceptDeliveries sampleClient sampleGenesis honestDeliveries).isSome = true := by
    decide +kernel
  obtain ⟨st, hSt⟩ := isSome_iff_exists.mp hSome
  have hParents : SignedParents sampleClient.H sampleGenesis.initialDc
      (appliedEntries 0 honestDeliveries) := by
    intro i entry hEntry
    match i, hEntry with
    | 0, hEntry =>
      obtain rfl := some.inj hEntry
      decide +kernel
    | 1, hEntry =>
      obtain rfl := some.inj hEntry
      decide +kernel
  exact ⟨⟨st, hSt⟩, rfl,
    (checkChain_isSome_iff sampleClient sampleGenesis_atGenesis hSt).mpr hParents⟩

/-- The client accepts the entry of the other branch as well; the verifier rejects
the chain. -/
theorem forkedDeliveries_accepted :
    (acceptDeliveries sampleClient sampleGenesis forkedDeliveries).isSome = true ∧
    (appliedEntries 0 forkedDeliveries).length = 2 ∧
    (checkChain sampleClient.H 0 ((appliedEntries 0 forkedDeliveries).map (·.toBytes))
      (chainStart sampleClient.H sampleGenesis.initialDc)).isSome = false := by
  decide +kernel

end EncryptedSpaces.Client
