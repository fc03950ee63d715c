import EncryptedSpaces.Changelog.MerkleRoot
import EncryptedSpaces.FastForward.Splice
import EncryptedSpaces.Ops.Runs

/-!
# The recursive guest

`extend_ff` replays one chunk and commits to a range that starts where the whole
chain of proofs starts.  An extension is given the journal of the previous proof
and calls `env::verify` on it; the image id of that proof is read from the host
like every other input.

A receipt exists if a program ran and every receipt it asked for exists.  The
chain below is sound as long as the host gives the guest the guest's own id: by
induction over the receipts, each journal states a replay of all entries from the
start of the log.
-/

namespace EncryptedSpaces.FastForward

open Encoding Changelog Lib Ops Acl List Option

/-! ## Chains of a log -/

/-- The last change of a user with the hash of its leaf.  The newest entry comes
first. -/
def lastSigned (H : Bytes → Digest) (uid : Nat) :
    List (Bytes × ChangelogEntry) → Option (Nat × Digest)
  | [] => none
  | (bytes, entry) :: older =>
    if entry.uid = uid then some (older.length + 1, hLeaf H bytes) else lastSigned H uid older

theorem lastSigned_fst (H : Bytes → Digest) (uid : Nat) (log : List (Bytes × ChangelogEntry)) :
    ((lastSigned H uid log).map Prod.fst).getD 0 = lastChangeOf uid (log.map Prod.snd) := by
  induction log with
  | nil => rfl
  | cons p older ih =>
    obtain ⟨bytes, entry⟩ := p
    rw [map_cons, lastSigned, lastChangeOf]
    by_cases hUid : entry.uid = uid
    · rw [if_pos hUid, if_pos hUid, length_map]
      rfl
    · rw [if_neg hUid, if_neg hUid]
      exact ih

/-- An entry that continues the chain is not in the log. -/
theorem not_mem_of_continues {log : List ChangelogEntry} {entry : ChangelogEntry}
    (h : SigRefsChained log) (hNext : entry.sigRef = expectedSigRef log entry.uid) :
    entry ∉ log := by
  intro hMem
  obtain ⟨before, after, rfl⟩ := append_of_mem hMem
  have hOld := sigRef_eq_of_continuity (h before entry after rfl)
  have hLe := expectedSigRef_le before entry.uid
  have hLater := le_expectedSigRef before entry after
  omega

/-- A log with the bytes of its entries, and the verifier's map after it. -/
structure Chained (H : Bytes → Digest) (log : List (Bytes × ChangelogEntry)) (map : SigrefMap) :
    Prop where
  decoded : ∀ p ∈ log, fromBytesForVerification p.1 = .ok p.2
  chained : SigRefsChained (log.map Prod.snd)
  last : ∀ uid : Nat, map[uid]? = lastSigned H uid log.reverse
  nodup : (log.map Prod.fst).Nodup

section Chains

variable {H : Bytes → Digest} {T : Type} {M : MerkOps T} {codec : RuleCodec}
  {log : List (Bytes × ChangelogEntry)}

theorem chained_nil : Chained H [] ∅ where
  decoded := by simp
  chained := sigRefsChained_nil
  last uid := by simp [lastSigned]
  nodup := List.nodup_nil

theorem Chained.expected {map : SigrefMap} (h : Chained H log map) (uid : Nat) :
    (map[uid]?.map Prod.fst).getD 0 = expectedSigRef (log.map Prod.snd) uid := by
  rw [h.last, lastSigned_fst, map_reverse]
  rfl

/-- One more entry. -/
theorem Chained.snoc {map : SigrefMap} (h : Chained H log map) {bytes : Bytes}
    {entry : ChangelogEntry} (hDecode : fromBytesForVerification bytes = .ok entry)
    (hRef : entry.sigRef = (map[entry.uid]?.map Prod.fst).getD 0) :
    Chained H (log ++ [(bytes, entry)])
      (map.insert entry.uid (log.length + 1, hLeaf H bytes)) := by
  rw [h.expected] at hRef
  refine ⟨fun p hp => ?_, ?_, fun uid => ?_, ?_⟩
  · rcases mem_append.mp hp with hp | hp
    · exact h.decoded p hp
    · rw [mem_singleton.mp hp]
      exact hDecode
  · rw [map_append, map_singleton]
    refine sigRefsChained_concat h.chained ?_
    exact if_neg (not_not_intro hRef)
  · rw [reverse_append, reverse_singleton, singleton_append, lastSigned,
      Std.ExtTreeMap.getElem?_insert, length_reverse]
    by_cases hUid : entry.uid = uid
    · rw [if_pos hUid, if_pos (by simp [hUid])]
    · rw [if_neg hUid, if_neg (by simp [hUid])]
      exact h.last uid
  · rw [map_append, map_singleton]
    refine nodup_append.mpr ⟨h.nodup, nodup_singleton bytes, ?_⟩
    rintro b hb b' hb' rfl
    rw [mem_singleton] at hb'
    obtain ⟨⟨bytes', entry'⟩, hMem, rfl⟩ := mem_map.mp hb
    -- equal bytes would be the same entry
    have hOld := h.decoded _ hMem
    rw [hb', hDecode, Except.ok.injEq] at hOld
    exact not_mem_of_continues h.chained hRef
      (mem_map.mpr ⟨(bytes', entry'), hMem, hOld.symm⟩)

theorem Chained.verifyEntry {bytes : Bytes} {s out : SequenceState T}
    (h : Chained H log s.threaded.sigrefMap)
    (hRun : verifyEntry H M codec (log.length + 1) bytes s = some out) :
    ∃ entry, Chained H (log ++ [(bytes, entry)]) out.threaded.sigrefMap := by
  obtain ⟨entry, threaded, root, _, hDecode, hCheck, _, _, hThreaded⟩ := verifyEntry_eq_some.mp hRun
  refine ⟨entry, ?_⟩
  unfold checkEntry at hCheck
  simp only [bind, bind_eq_some_iff, guard_eq_some', exists_const] at hCheck
  obtain ⟨_, _, sigrefMap, hSigref, _, _, hOut⟩ := hCheck
  obtain rfl := some.inj hOut
  rw [hThreaded]
  unfold validateSigref at hSigref
  dsimp only at hSigref
  split at hSigref
  · rename_i hRef
    obtain rfl := some.inj hSigref
    exact h.snoc hDecode hRef
  · cases hSigref

theorem Chained.verifyEntries {entries : List Bytes} {s out : SequenceState T}
    (h : Chained H log s.threaded.sigrefMap)
    (hRun : verifyEntries H M codec log.length entries s = some out) :
    ∃ news, news.map Prod.fst = entries ∧ Chained H (log ++ news) out.threaded.sigrefMap := by
  induction entries generalizing log s with
  | nil =>
    obtain rfl := some.inj hRun
    exact ⟨[], rfl, by rwa [append_nil]⟩
  | cons bytes rest ih =>
    rw [FastForward.verifyEntries, bind_eq_some] at hRun
    obtain ⟨s₁, hEntry, hRest⟩ := hRun
    obtain ⟨entry, hOne⟩ := h.verifyEntry hEntry
    have hLength : log.length + 1 = (log ++ [(bytes, entry)]).length := by simp
    rw [hLength] at hRest
    obtain ⟨news, hNews, hAll⟩ := ih hOne hRest
    refine ⟨(bytes, entry) :: news, by rw [map_cons, hNews], ?_⟩
    rwa [append_assoc, singleton_append] at hAll

end Chains

/-! ## The guest -/

/-- `[u32; 8]`. -/
abbrev ImageId := List Nat

/-- What the host gives for an extension: a journal, and the program it is from. -/
structure PreviousProof where
  io : FastForwardRange
  programId : ImageId

/-- The decoded inputs of the guest; the first chunk has no previous proof. -/
structure GuestInput (T : Type) where
  previous : Option PreviousProof
  entries : List Bytes
  verifyRange : FastForwardRange
  tree : T

/-- What a run shows outside: the `env::verify` calls and the journal. -/
structure Execution (J : Type) where
  verified : List (ImageId × J)
  journal : J

section Guest

variable (H : Bytes → Digest) {T J : Type} (M : MerkOps T) (codec : RuleCodec)

/-- The journal that `extend_ff` computes; `none` is a failed assertion. -/
def extendRange (input : GuestInput T) : Option FastForwardRange := do
  let range := input.verifyRange
  guard (range.endChangeId = input.entries.length)
  match input.previous with
  | none =>
    let threaded ← verifyOpSequence H M codec input.entries range input.tree 0 Threaded.initial
    return {
      startClcState := range.startClcState, endClcState := range.endClcState
      startDc := range.startDc, endDc := range.endDc
      endChangeId := input.entries.length % 2 ^ 32
      sigrefMap := threaded.sigrefMap, recentRoots := threaded.recentRoots
      timestampHwm := threaded.timestampHwm }
  | some previous =>
    guard (range.startClcState = previous.io.endClcState)
    guard (range.startDc = previous.io.endDc)
    let threaded ← verifyOpSequence H M codec input.entries range input.tree
      previous.io.endChangeId
      { sigrefMap := previous.io.sigrefMap, recentRoots := previous.io.recentRoots,
        timestampHwm := previous.io.timestampHwm }
    return {
      startClcState := previous.io.startClcState, endClcState := range.endClcState
      startDc := previous.io.startDc, endDc := range.endDc
      endChangeId := (previous.io.endChangeId + input.entries.length) % 2 ^ 32
      sigrefMap := threaded.sigrefMap, recentRoots := threaded.recentRoots
      timestampHwm := threaded.timestampHwm }

/-- `main` of `extend_ff`: it asks for a receipt of the previous journal, from the
program the host names. -/
def extendFf (encode : FastForwardRange → J) (input : GuestInput T) : Option (Execution J) := do
  let output ← extendRange H M codec input
  return {
    verified := input.previous.toList.map fun previous => (previous.programId, encode previous.io)
    journal := encode output }

/-- The receipts that exist if each stands for a run whose `env::verify` calls are
backed by receipts. -/
inductive Receipt (runs : ImageId → Execution J → Prop) : ImageId → J → Prop where
  | run {image : ImageId} {execution : Execution J} (hRun : runs image execution)
      (hVerified : ∀ call ∈ execution.verified, Receipt runs call.1 call.2) :
      Receipt runs image execution.journal

/-! ## What a journal of the guest states -/

/-- The verifier at the start of the log. -/
def genesisState (tree : T) (startDc : Digest) : SequenceState T where
  tree := tree
  workingTree := (initialClcState H startDc).toTree
  staticCache := Cache.empty
  threaded :=
    { sigrefMap := ∅, recentRoots := [(0, (initialClcState H startDc).root)], timestampHwm := 0 }

/-- A replay of all entries from the start of the log ends in what `io` states. -/
structure Replay (io : FastForwardRange) (entries : List Bytes) (tree : T)
    (out : SequenceState T) : Prop where
  length_eq : entries.length = io.endChangeId
  startDc : M.hash tree = io.startDc
  run : verifyEntries H M codec 0 entries (genesisState H tree io.startDc) = some out
  endDc : M.hash out.tree = io.endDc
  endClcState : out.workingTree.treeHead H = some io.endClcState
  threaded : out.threaded =
    { sigrefMap := io.sigrefMap, recentRoots := io.recentRoots, timestampHwm := io.timestampHwm }
  nonempty : 0 < io.endChangeId
  size_le : 1 + io.endChangeId ≤ maxTreeSize
  endHead : io.endClcState.verifyForTreeSize H (1 + io.endChangeId) = true

variable {H M codec}

variable {entries : List Bytes} {range : FastForwardRange} {tree : T} {st : Threaded}

/-- A sequence that `verify_op_sequence` accepts, with every check it passed. -/
theorem verifyOpSequence_eq_some {startChangeId : Nat} {st' : Threaded} :
    verifyOpSequence H M codec entries range tree startChangeId st = some st' ↔
      ∃ recentRoots out, rangeFits H range entries.length startChangeId = true ∧
        seedRecentRoots startChangeId range.startClcState.root st.recentRoots = some recentRoots ∧
        M.hash tree = range.startDc ∧
        verifyEntries H M codec startChangeId (entries.take range.endChangeId)
          { tree, workingTree := range.startClcState.toTree, staticCache := Cache.empty,
            threaded := { st with recentRoots } } = some out ∧
        M.hash out.tree = range.endDc ∧ out.workingTree.treeHead H = some range.endClcState ∧
        out.threaded = st' := by
  unfold verifyOpSequence
  constructor
  · intro h
    simp only [bind, bind_eq_some_iff, guard_eq_some', exists_const] at h
    obtain ⟨hFits, recentRoots, hSeed, hHash, out, hRun, hEndDc, hEndClc, hOut⟩ := h
    exact ⟨recentRoots, out, hFits, hSeed, hHash, hRun, hEndDc, hEndClc, some.inj hOut⟩
  · rintro ⟨recentRoots, out, hFits, hSeed, hHash, hRun, hEndDc, hEndClc, rfl⟩
    simp only [bind, bind_eq_some_iff, guard_eq_some', exists_const]
    exact ⟨hFits, recentRoots, hSeed, hHash, out, hRun, hEndDc, hEndClc, rfl⟩

/-- Change ids of a range that fits stay below `2 ^ 32`. -/
theorem mod_of_size_le {n : Nat} (h : 1 + n ≤ maxTreeSize) : n % 2 ^ 32 = n := by
  unfold maxTreeSize at h
  exact Nat.mod_eq_of_lt (by omega)

/-- The window is inherited: only a first chunk seeds it. -/
theorem eq_of_seedRecentRoots {n : Nat} {root : Digest} {roots roots' : List (Nat × Digest)}
    (hPos : 0 < n) (h : seedRecentRoots n root roots = some roots') : roots' = roots := by
  unfold seedRecentRoots at h
  split at h
  · split at h
    · exact (some.inj h).symm
    · cases h
  · rw [if_neg (Nat.ne_of_gt hPos)] at h
    cases h

/-- The first chunk. -/
theorem Replay.first (hLength : range.endChangeId = entries.length)
    (h : verifyOpSequence H M codec entries range tree 0 Threaded.initial = some st) :
    ∃ out, Replay H M codec
      { range with
        endChangeId := entries.length % 2 ^ 32, sigrefMap := st.sigrefMap,
        recentRoots := st.recentRoots, timestampHwm := st.timestampHwm }
      entries tree out := by
  obtain ⟨recentRoots, out, hFits, hSeed, hHash, hRun, hEndDc, hEndClc, rfl⟩ :=
    verifyOpSequence_eq_some.mp h
  obtain ⟨-, hInitial, hBounds, hSize, hEnd⟩ := of_decide_eq_true hFits
  have hStart := hInitial rfl
  rw [hStart] at hSize hEnd hSeed hRun
  obtain rfl := some.inj hSeed
  have hMod := mod_of_size_le hSize
  rw [← hMod] at hSize hEnd
  rw [hLength, take_length] at hRun
  exact ⟨out, {
    length_eq := hMod.symm
    startDc := hHash
    run := hRun
    endDc := hEndDc
    endClcState := hEndClc
    threaded := rfl
    nonempty := by
      dsimp only
      omega
    size_le := hSize
    endHead := hEnd }⟩

/-- A chunk that starts where a replay ends extends it. -/
theorem Replay.extend {Opens : T → T → Prop} (hM : HonestTrees M Opens) {io : FastForwardRange}
    {earlier : List Bytes} {start : T} {mid : SequenceState T} (hStart : Opens start start)
    (hTree : Opens tree tree)
    (hReplay : Replay H M codec io earlier start mid)
    (hLength : range.endChangeId = entries.length) (hClc : range.startClcState = io.endClcState)
    (hDc : range.startDc = io.endDc)
    (h : verifyOpSequence H M codec entries range tree io.endChangeId
      { sigrefMap := io.sigrefMap, recentRoots := io.recentRoots,
        timestampHwm := io.timestampHwm } = some st) :
    ∃ start' out, Opens start' start' ∧ Replay H M codec
      { io with
        endClcState := range.endClcState, endDc := range.endDc,
        endChangeId := (io.endChangeId + entries.length) % 2 ^ 32, sigrefMap := st.sigrefMap,
        recentRoots := st.recentRoots, timestampHwm := st.timestampHwm }
      (earlier ++ entries) start' out := by
  obtain ⟨recentRoots, out, hFits, hSeed, hHash, hRun, hEndDc, hEndClc, rfl⟩ :=
    verifyOpSequence_eq_some.mp h
  obtain ⟨hHead, -, hBounds, hSize, hEnd⟩ := of_decide_eq_true hFits
  have hStartSize : range.startClcState.treeSize = io.endChangeId + 1 := by
    exact (of_decide_eq_true (of_decide_eq_true hHead).2).1
  have hTotal : range.startClcState.treeSize + entries.length =
      1 + (io.endChangeId + entries.length) := by omega
  rw [hTotal] at hSize hEnd
  have hMod := mod_of_size_le hSize
  rw [← hMod] at hSize hEnd
  rw [hLength, take_length, eq_of_seedRecentRoots hReplay.nonempty hSeed] at hRun
  have hWorking : range.startClcState.toTree = mid.workingTree := by
    rw [hClc]
    exact toTree_of_treeHead hReplay.endClcState
  have hFrom : io.endChangeId = 0 + earlier.length := by rw [Nat.zero_add, hReplay.length_eq]
  rw [hFrom] at hRun
  have hRootBetween : M.hash tree = M.hash mid.tree := by rw [hHash, hDc, hReplay.endDc]
  obtain ⟨u, hHonest, hu, out', hRun', hHash', hWorking', hThreaded'⟩ :=
    verifyEntries_splice hM hStart hTree rfl rfl hReplay.run hRun hRootBetween hWorking
      hReplay.threaded.symm
  exact ⟨u, out', hHonest, {
    length_eq := by
      rw [hMod, length_append, hReplay.length_eq]
    startDc := hu.trans hReplay.startDc
    run := hRun'
    endDc := hHash'.trans hEndDc
    endClcState := by
      rw [hWorking']
      exact hEndClc
    threaded := hThreaded'
    nonempty := by
      dsimp only
      omega
    size_le := hSize
    endHead := hEnd }⟩

/-- One run of the guest on an honest witness: it replays a first range, or extends
the replay of the range that it is given. -/
theorem exists_replay_of_extendRange {Opens : T → T → Prop} (hM : HonestTrees M Opens)
    {input : GuestInput T} {output : FastForwardRange} (hTree : Opens input.tree input.tree)
    (h : extendRange H M codec input = some output)
    (hPrevious : ∀ previous ∈ input.previous, ∃ earlier start mid, Opens start start ∧
      Replay H M codec previous.io earlier start mid) :
    ∃ entries tree out, Opens tree tree ∧ Replay H M codec output entries tree out := by
  obtain ⟨_, hGuard, h⟩ := bind_eq_some_iff.mp h
  have hLength := (guard_eq_some' _).mp hGuard
  cases hInput : input.previous with
  | none =>
    rw [hInput] at h
    obtain ⟨st, hSeq, h⟩ := bind_eq_some_iff.mp h
    obtain rfl := some.inj h
    obtain ⟨out, hReplay⟩ := Replay.first hLength hSeq
    exact ⟨_, _, out, hTree, hReplay⟩
  | some previous =>
    rw [hInput] at h
    simp only [bind, bind_eq_some_iff, guard_eq_some', exists_const] at h
    obtain ⟨hClc, hDc, st, hSeq, h⟩ := h
    obtain rfl := some.inj h
    obtain ⟨earlier, start, mid, hStart, hEarlier⟩ := hPrevious previous hInput
    exact ⟨_, hEarlier.extend hM hStart hTree hLength hClc hDc hSeq⟩

section Chain

variable {encode : FastForwardRange → J} {runs : ImageId → Execution J → Prop}
  {extendFfId : ImageId}

/-- The guest's image stands for the guest, and what the host gives it is as the guest
takes it: an honest witness, and with a previous proof the guest's own id. -/
structure OwnImage (H : Bytes → Digest) (M : MerkOps T) (Opens : T → T → Prop)
    (codec : RuleCodec) (encode : FastForwardRange → J) (runs : ImageId → Execution J → Prop)
    (extendFfId : ImageId) : Prop where
  guest : ∀ execution, runs extendFfId execution → ∃ input : GuestInput T,
    extendFf H M codec encode input = some execution ∧ Opens input.tree input.tree ∧
    ∀ previous ∈ input.previous, previous.programId = extendFfId

/-- **The chain of proofs is sound.**  Every journal with a receipt of the guest is
the journal of a replay from the start of the log. -/
theorem exists_replay_of_receipt {Opens : T → T → Prop} (hM : HonestTrees M Opens)
    (hEncode : Function.Injective encode) (hOwn : OwnImage H M Opens codec encode runs extendFfId)
    {image : ImageId} {journal : J} (hReceipt : Receipt runs image journal) :
    image = extendFfId → ∃ io entries tree out,
      journal = encode io ∧ Opens tree tree ∧ Replay H M codec io entries tree out := by
  induction hReceipt with
  | @run image execution hRun hVerified ih =>
    intro hImage
    rw [hImage] at hRun
    obtain ⟨input, hInput, hTree, hPrevious⟩ := hOwn.guest execution hRun
    obtain ⟨output, hOutput, hInput⟩ := bind_eq_some_iff.mp hInput
    obtain rfl := some.inj hInput
    -- the receipt it asked for is one of the guest, so its journal is a replay
    have hEarlier : ∀ previous ∈ input.previous, ∃ earlier start mid, Opens start start ∧
        Replay H M codec previous.io earlier start mid := by
      intro previous hSome
      have hCall := mem_map_of_mem (f := fun previous : PreviousProof =>
        (previous.programId, encode previous.io)) (mem_toList.mpr hSome)
      obtain ⟨io, earlier, start, mid, hJournal, hStart, hReplay⟩ :=
        ih _ hCall (hPrevious previous hSome)
      obtain rfl := hEncode hJournal
      exact ⟨earlier, start, mid, hStart, hReplay⟩
    obtain ⟨entries, tree, out, hReplay⟩ :=
      exists_replay_of_extendRange hM hTree hOutput hEarlier
    exact ⟨_, entries, tree, out, rfl, hReplay⟩

end Chain

end Guest

end EncryptedSpaces.FastForward
