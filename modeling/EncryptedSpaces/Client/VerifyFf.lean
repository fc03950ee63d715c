import EncryptedSpaces.Client.ChainChecks
import EncryptedSpaces.FastForward.Guest

/-!
# Verifying a fast-forward proof

`verify_ff` checks the receipt against the image id the application trusts and
compares the journal with the range the proof carries.  What an accepted proof
then says about the log depends on the chain of receipts behind it, and there the
guest checks less: it asks for a receipt of whatever program the host names.  A
proof whose guest runs were all given the guest's own id is a replay of the whole
log; a run that was given another id extends the journal of a stranger.
-/

namespace EncryptedSpaces.Client

open Encoding Changelog Lib Ops FastForward List

/-- A proof after deserialization; the receipt is `inner`, for its journal. -/
structure FfProof (J S : Type) where
  io : FastForwardRange
  inner : S
  journal : J

/-- The proof system: the bytes of proofs and journals, and `Receipt::verify`. -/
structure Zkvm (J S : Type) where
  deserialize : Bytes → Option (FfProof J S)
  encode : FastForwardRange → J
  decode : J → Option FastForwardRange
  verifyReceipt : S → ImageId → J → Bool

/-- Journals are read back as they are written, and receipts are sound. -/
structure Zkvm.Sound {J S : Type} (Z : Zkvm J S) (runs : ImageId → Execution J → Prop) : Prop where
  decode_encode : ∀ range, Z.decode (Z.encode range) = some range
  receipt : ∀ inner image journal, Z.verifyReceipt inner image journal = true →
    Receipt runs image journal

inductive FfProofError where
  | decodingError
  | verificationFailed
  deriving DecidableEq, Repr

deriving instance DecidableEq for FastForwardRange

/-- `verify_ff_internal`; the window of recent roots is not compared. -/
def verifyFfInternal {J S : Type} (Z : Zkvm J S) (proof : FfProof J S)
    (expectedImageId : ImageId) : Bool :=
  if Z.verifyReceipt proof.inner expectedImageId proof.journal then
    match Z.decode proof.journal with
    | none => false
    | some io =>
      io.startClcState = proof.io.startClcState ∧ io.endClcState = proof.io.endClcState ∧
      io.startDc = proof.io.startDc ∧ io.endDc = proof.io.endDc ∧
      io.sigrefMap = proof.io.sigrefMap ∧ io.timestampHwm = proof.io.timestampHwm ∧
      io.endChangeId = proof.io.endChangeId
  else false

/-- What a range says to a client. -/
def ffOutput (io : FastForwardRange) : VerifiedFfOutput where
  startClcState := io.startClcState
  endClcState := io.endClcState
  startDc := io.startDc
  endDc := io.endDc
  endChangeId := io.endChangeId
  sigrefMap := io.sigrefMap
  timestampHwm := io.timestampHwm

def verifyFf {J S : Type} (Z : Zkvm J S) (proofBytes : Bytes) (expectedImageId : ImageId) :
    Except FfProofError VerifiedFfOutput :=
  match Z.deserialize proofBytes with
  | none => .error .decodingError
  | some proof =>
    if verifyFfInternal Z proof expectedImageId then .ok (ffOutput proof.io)
    else .error .verificationFailed

/-- An accepted proof outputs what its journal says. -/
theorem verifyFf_eq_ok {J S : Type} {Z : Zkvm J S} {proofBytes : Bytes} {image : ImageId}
    {out : VerifiedFfOutput} (h : verifyFf Z proofBytes image = .ok out) :
    ∃ inner journal io, Z.verifyReceipt inner image journal = true ∧ Z.decode journal = some io ∧
      out = ffOutput io := by
  unfold verifyFf at h
  split at h
  · cases h
  · split_ifs at h with hInternal
    obtain rfl := Except.ok.inj h
    unfold verifyFfInternal at hInternal
    split_ifs at hInternal with hSeal
    split at hInternal
    · cases hInternal
    · rename_i io hJournal
      obtain ⟨hStart, hEnd, hStartDc, hEndDc, hSigref, hHwm, hId⟩ := of_decide_eq_true hInternal
      refine ⟨_, _, io, hSeal, hJournal, ?_⟩
      unfold ffOutput
      rw [hStart, hEnd, hStartDc, hEndDc, hSigref, hHwm, hId]

/-! ## What an accepted proof means -/

/-- The range of all changes up to the output, from the head at the start. -/
def genesisRange (H : Bytes → Digest) (out : VerifiedFfOutput) : FastForwardRange where
  startClcState := initialClcState H out.startDc
  endClcState := out.endClcState
  startDc := out.startDc
  endDc := out.endDc
  endChangeId := out.endChangeId
  sigrefMap := ∅
  recentRoots := []
  timestampHwm := 0

/-- The verifier, run on all entries from the start of the log with nothing
threaded, ends in what the proof outputs. -/
def Replayable {T : Type} (H : Bytes → Digest) (M : MerkOps T) (codec : RuleCodec)
    (out : VerifiedFfOutput) : Prop :=
  ∃ entries tree recentRoots, entries.length = out.endChangeId ∧ M.hash tree = out.startDc ∧
    verifyOpSequence H M codec entries (genesisRange H out) tree 0 Threaded.initial =
      some { sigrefMap := out.sigrefMap, recentRoots, timestampHwm := out.timestampHwm }

theorem replayable_of_replay {T : Type} {H : Bytes → Digest} {M : MerkOps T} {codec : RuleCodec}
    {io : FastForwardRange} {entries : List Bytes} {tree : T} {last : SequenceState T}
    (h : Replay H M codec io entries tree last) : Replayable H M codec (ffOutput io) := by
  refine ⟨entries, tree, io.recentRoots, h.length_eq, h.startDc, ?_⟩
  apply verifyOpSequence_eq_some.mpr
  refine ⟨[(0, (initialClcState H io.startDc).root)], last, ?_, rfl, h.startDc, ?_, h.endDc,
    h.endClcState, h.threaded⟩
  · have hNonempty := h.nonempty
    have hSize := h.size_le
    apply decide_eq_true
    refine ⟨?_, fun _ => rfl, ?_, ?_, ?_⟩
    · unfold TreeHead.verifyForChangeId TreeHead.verifyForTreeSize
      exact decide_eq_true ⟨by decide, decide_eq_true ⟨rfl, initialClcState_isWellFormed _⟩⟩
    · rw [h.length_eq]
      exact ⟨hNonempty, hNonempty, Nat.le_refl _⟩
    · rw [h.length_eq]
      exact hSize
    · rw [h.length_eq]
      exact h.endHead
  · change verifyEntries H M codec 0 (entries.take io.endChangeId) _ = _
    rw [← h.length_eq, take_length]
    exact h.run

/-- In a replayable output nobody signed a later change than the last. -/
theorem Replayable.signed_le {T : Type} {H : Bytes → Digest} {M : MerkOps T} {codec : RuleCodec}
    {out : VerifiedFfOutput} (h : Replayable H M codec out) (uid : Nat) :
    (out.sigrefMap[uid]?.map Prod.fst).getD 0 ≤ out.endChangeId := by
  obtain ⟨entries, tree, recentRoots, hLength, -, hRun⟩ := h
  obtain ⟨roots, last, -, -, -, hRun, -, -, hThreaded⟩ := verifyOpSequence_eq_some.mp hRun
  change verifyEntries H M codec ([] : List (Bytes × ChangelogEntry)).length
    (entries.take out.endChangeId) _ = _ at hRun
  rw [← hLength, take_length] at hRun
  have hEmpty : Chained H [] Threaded.initial.sigrefMap := chained_nil
  obtain ⟨log, rfl, hChained⟩ := hEmpty.verifyEntries hRun
  rw [nil_append, hThreaded] at hChained
  have hLe := expectedSigRef_le (log.map Prod.snd) uid
  rw [← hChained.expected, length_map, ← length_map Prod.fst, hLength] at hLe
  exact hLe

/-- Bytes spelled so that an end can be told from a byte. -/
def spell : Bytes → Bytes
  | [] => [0]
  | byte :: rest => 1 :: byte :: spell rest

theorem spell_append_inj {a b rest rest' : Bytes} (h : spell a ++ rest = spell b ++ rest') :
    a = b ∧ rest = rest' := by
  induction a generalizing b with
  | nil =>
    cases b with
    | nil => exact ⟨rfl, (cons.inj h).2⟩
    | cons byte b => exact absurd (cons.inj h).1 (by decide)
  | cons byte a ih =>
    cases b with
    | nil => exact absurd (cons.inj h).1 (by decide)
    | cons byte' b =>
      have hTail := cons.inj (cons.inj h).2
      obtain ⟨rfl, hRest⟩ := ih hTail.2
      exact ⟨by rw [hTail.1], hRest⟩

theorem spell_ne_nil (bytes : Bytes) : spell bytes ≠ [] := by
  cases bytes <;> exact cons_ne_nil _ _

/-- A hash of databases without collisions: all cells, spelled out. -/
def spellCells : List (Bytes × Bytes) → Bytes
  | [] => []
  | (key, value) :: rest => spell key ++ (spell value ++ spellCells rest)

theorem spellCells_injective : Function.Injective spellCells := by
  intro a b h
  induction a generalizing b with
  | nil =>
    cases b with
    | nil => rfl
    | cons cell b => exact absurd (append_eq_nil_iff.mp h.symm).1 (spell_ne_nil _)
  | cons cell a ih =>
    cases b with
    | nil => exact absurd (append_eq_nil_iff.mp h).1 (spell_ne_nil _)
    | cons cell' b =>
      obtain ⟨hKey, hRest⟩ := spell_append_inj h
      obtain ⟨hValue, hCells⟩ := spell_append_inj hRest
      rw [ih hCells, Prod.ext hKey hValue]

/-- Databases as trees, under that hash. -/
def spelledTrees : MerkOps Db := mapTrees fun db => spellCells db.toList

theorem spelledTrees_pruned : PrunedTrees spelledTrees Eq :=
  mapTrees_pruned fun _ _ h => Std.ExtTreeMap.toList_inj.mp (spellCells_injective h)

/-- A chunk of one entry on `db`. -/
def sampleChunk (previous : Option PreviousProof) (start : TreeHead) (db : Db) (changeId : Nat)
    (entry : ChangelogEntry) : GuestInput Db where
  previous := previous
  entries := [entry.toBytes]
  verifyRange :=
    { startClcState := start, endClcState := (start.tryAppend checksum entry.toBytes).getD start
      startDc := spelledTrees.hash db, endDc := spelledTrees.hash (sampleAfter changeId entry db)
      endChangeId := 1, sigrefMap := ∅, recentRoots := [], timestampHwm := 0 }
  tree := db

def spelledStart : TreeHead := initialClcState checksum (spelledTrees.hash internalDb)

def spelledCreate : ChangelogEntry := { clientCreate with parentClc := spelledStart.root }

/-- The guest over the samples. -/
def sampleExtend (input : GuestInput Db) : Option FastForwardRange :=
  extendRange checksum spelledTrees noRules input

/-- The journal of a chunk; all sample chunks are accepted. -/
def sampleJournal (input : GuestInput Db) : FastForwardRange :=
  (sampleExtend input).getD input.verifyRange

def guestId : ImageId := [1, 2, 3, 4, 5, 6, 7, 8]
def strangerId : ImageId := [9, 9, 9, 9, 9, 9, 9, 9]

def firstChunk : GuestInput Db := sampleChunk none spelledStart internalDb 1 spelledCreate

/-- The second entry, on the journal of the first. -/
def secondChunk : GuestInput Db :=
  let io := sampleJournal firstChunk
  sampleChunk (some { io, programId := guestId }) io.endClcState
    (sampleAfter 1 spelledCreate internalDb) 2 (clientInvite io.endClcState.root)

/-- A journal that no replay ends in: user 5 last signed change 1000 of an empty
log. -/
def strangerRange : FastForwardRange where
  startClcState := spelledStart
  endClcState := spelledStart
  startDc := spelledTrees.hash internalDb
  endDc := spelledTrees.hash internalDb
  endChangeId := 0
  sigrefMap := Std.ExtTreeMap.empty.insert 5 (1000, [])
  recentRoots := []
  timestampHwm := 0

/-- The first entry, on the stranger's journal. -/
def strangerChunk : GuestInput Db :=
  sampleChunk (some { io := strangerRange, programId := strangerId }) spelledStart internalDb 1
    spelledCreate

/-- The guest runs on the inputs the host has for it; the stranger's program
commits to the stranger's journal. -/
def sampleRuns (hosted : List (GuestInput Db)) (image : ImageId)
    (execution : Execution FastForwardRange) : Prop :=
  (image = guestId ∧
    ∃ input ∈ hosted, extendFf checksum spelledTrees noRules id input = some execution) ∨
  (image = strangerId ∧ execution = { verified := [], journal := strangerRange })

/-- A verifier that knows one receipt of the guest; every byte string is its proof. -/
def sampleZkvm (io : FastForwardRange) : Zkvm FastForwardRange Unit where
  deserialize _ := some { io, inner := (), journal := io }
  encode := id
  decode := some
  verifyReceipt _ image journal := image = guestId ∧ journal = io

theorem verifyFf_sampleZkvm (io : FastForwardRange) :
    verifyFf (sampleZkvm io) [] guestId = .ok (ffOutput io) := by
  have hAccepts : verifyFfInternal (sampleZkvm io) { io, inner := (), journal := io } guestId =
      true := by
    simp [verifyFfInternal, sampleZkvm]
  change (if _ then _ else _) = _
  rw [if_pos hAccepts]

theorem sampleZkvm_sound {io : FastForwardRange} {hosted : List (GuestInput Db)}
    (hReceipt : Receipt (sampleRuns hosted) guestId io) :
    (sampleZkvm io).Sound (sampleRuns hosted) where
  decode_encode _ := rfl
  receipt _ image journal h := by
    obtain ⟨rfl, rfl⟩ := of_decide_eq_true h
    exact hReceipt

theorem extendFf_sample {input : GuestInput Db} (h : (sampleExtend input).isSome = true) :
    extendFf checksum spelledTrees noRules id input = some {
      verified := input.previous.toList.map fun previous => (previous.programId, previous.io)
      journal := sampleJournal input } := by
  obtain ⟨output, hOutput⟩ := Option.isSome_iff_exists.mp h
  have hJournal : sampleJournal input = output := by
    unfold sampleJournal
    rw [hOutput, Option.getD_some]
  change (sampleExtend input).bind _ = _
  rw [hOutput, hJournal]
  rfl

/-- A receipt for a hosted chunk, from a receipt for what it extends. -/
theorem receipt_sample {hosted : List (GuestInput Db)} {input : GuestInput Db}
    (hHosted : input ∈ hosted) (hSome : (sampleExtend input).isSome = true)
    (hPrevious : ∀ previous ∈ input.previous,
      Receipt (sampleRuns hosted) previous.programId previous.io) :
    Receipt (sampleRuns hosted) guestId (sampleJournal input) := by
  have hRun : sampleRuns hosted guestId _ := Or.inl ⟨rfl, input, hHosted, extendFf_sample hSome⟩
  apply Receipt.run hRun
  intro call hCall
  obtain ⟨previous, hMem, rfl⟩ := mem_map.mp hCall
  exact hPrevious previous (Option.mem_toList.mp hMem)

theorem firstChunk_isSome : (sampleExtend firstChunk).isSome = true := by decide +kernel
theorem secondChunk_isSome : (sampleExtend secondChunk).isSome = true := by decide +kernel
theorem strangerChunk_isSome : (sampleExtend strangerChunk).isSome = true := by decide +kernel

/-- Both own chunks have receipts. -/
theorem receipt_secondChunk :
    Receipt (sampleRuns [firstChunk, secondChunk]) guestId (sampleJournal secondChunk) := by
  have hFirst : Receipt (sampleRuns [firstChunk, secondChunk]) guestId
      (sampleJournal firstChunk) := by
    apply receipt_sample mem_cons_self firstChunk_isSome
    intro previous hPrevious
    cases hPrevious
  have hSecond : secondChunk ∈ [firstChunk, secondChunk] :=
    mem_cons_of_mem _ (mem_singleton.mpr rfl)
  have hExtends : secondChunk.previous =
      some { io := sampleJournal firstChunk, programId := guestId } := rfl
  apply receipt_sample hSecond secondChunk_isSome
  intro previous hPrevious
  rw [hExtends, Option.mem_some_iff] at hPrevious
  rw [← hPrevious]
  dsimp only
  exact hFirst

/-- The stranger's journal has a receipt, of the stranger's program; so the chunk
that extends it has one of the guest. -/
theorem receipt_strangerChunk :
    Receipt (sampleRuns [strangerChunk]) guestId (sampleJournal strangerChunk) := by
  apply receipt_sample mem_cons_self strangerChunk_isSome
  intro previous hPrevious
  obtain rfl := Option.some.inj hPrevious
  have hRun : sampleRuns [strangerChunk] strangerId
      { verified := [], journal := strangerRange } := Or.inr ⟨rfl, rfl⟩
  apply Receipt.run hRun
  intro call hCall
  cases hCall

theorem ownImage_sample : OwnImage checksum spelledTrees Eq noRules id
    (sampleRuns [firstChunk, secondChunk]) guestId where
  guest execution hRun := by
    rcases hRun with ⟨-, input, hInput, hRun⟩ | ⟨hId, -⟩
    · refine ⟨input, hRun, rfl, fun previous hPrevious => ?_⟩
      rcases mem_cons.mp hInput with rfl | hInput
      · cases hPrevious
      · obtain rfl := mem_singleton.mp hInput
        obtain rfl := Option.some.inj hPrevious
        rfl
    · exact absurd hId (by decide)

end EncryptedSpaces.Client
