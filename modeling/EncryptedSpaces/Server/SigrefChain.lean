import EncryptedSpaces.FastForward.Chunks
import EncryptedSpaces.Server.Served

/-!
# Signature chains

Every entry names the previous change of its signer.  The verifier of a proof keeps
the last change of each user with the hash of its leaf, the server keeps the change
id only.  Both maps are a function of the log; so both accept the same next entry,
and no entry can be accepted twice.
-/

namespace EncryptedSpaces.Server

open Encoding Changelog Ops Lib Acl FastForward List

/-! ## The verifier -/

section Verifier

variable {H : Bytes → Digest} {T : Type} {M : MerkOps T} {codec : RuleCodec}
  {log : List (Bytes × ChangelogEntry)}

/-- One call of `verify_op_sequence`. -/
structure Chunk (T : Type) where
  entries : List Bytes
  range : FastForwardRange
  tree : T

/-- Chunk after chunk, each with the threaded state that the one before leaves. -/
def verifyChunks (H : Bytes → Digest) (M : MerkOps T) (codec : RuleCodec) :
    Nat → List (Chunk T) → Threaded → Option Threaded
  | _, [], st => some st
  | n, chunk :: chunks, st => do
      let st ← verifyOpSequence H M codec chunk.entries chunk.range chunk.tree n st
      verifyChunks H M codec (n + chunk.entries.length) chunks st

theorem chained_verifyChunks {chunks : List (Chunk T)} {st st' : Threaded}
    (h : Chained H log st.sigrefMap)
    (hRun : verifyChunks H M codec log.length chunks st = some st') :
    ∃ news, news.map Prod.fst = chunks.flatMap Chunk.entries ∧
      Chained H (log ++ news) st'.sigrefMap := by
  induction chunks generalizing log st with
  | nil =>
    obtain rfl := Option.some.inj hRun
    exact ⟨[], rfl, by rwa [append_nil]⟩
  | cons chunk chunks ih =>
    rw [Server.verifyChunks, Option.bind_eq_some] at hRun
    obtain ⟨st₁, hChunk, hRest⟩ := hRun
    have hLength := endChangeId_of_verifyOpSequence hChunk
    obtain ⟨_, out, _, _, _, hEntries, _, _, rfl⟩ := verifyOpSequence_eq_some.mp hChunk
    rw [hLength, take_length] at hEntries
    obtain ⟨news, hNews, hOne⟩ := h.verifyEntries hEntries
    have hNext : log.length + chunk.entries.length = (log ++ news).length := by
      rw [length_append, ← hNews, length_map]
    rw [hNext] at hRest
    obtain ⟨more, hMore, hAll⟩ := ih hOne hRest
    refine ⟨news ++ more, ?_, ?_⟩
    · rw [map_append, hNews, hMore, flatMap_cons]
    · rwa [append_assoc] at hAll

end Verifier

/-! ## The server -/

section Served

variable {T V : Type} {P : ServerParams T V} {st st' : SpaceState T}

/-- The server's map is the chain of its log. -/
structure ServerChain (st : SpaceState T) : Prop where
  expected : ∀ uid : Nat, st.sigrefMap[uid]?.getD 0 = expectedSigRef st.changelog.changes uid
  fits : ∀ entry ∈ st.changelog.changes, entry.FitsWidths

theorem ServerChain.serve (h : ServerChain st) (call : Call) : ServerChain (serve P st call) := by
  have hSame : ∀ {st' : SpaceState T}, st'.changelog = st.changelog →
      st'.sigrefMap = st.sigrefMap → ServerChain st' := by
    intro st' hLog hMap
    exact ⟨by rw [hLog, hMap]; exact h.expected, by rw [hLog]; exact h.fits⟩
  rcases serve_cases P st call with hIdle | ⟨_, tree, hashStore, hState⟩ |
    ⟨referenced, writes, tree, log, hCommitted, hAfter⟩
  · have hTrace := NoTrace.of_idle hIdle
    exact hSame hTrace.changelog hTrace.sigrefMap
  · rw [hState]
    exact hSame SpaceState.takeSnapshot_changelog SpaceState.takeSnapshot_sigrefMap
  · have hChanges := hCommitted.changes hAfter
    refine ⟨fun uid => ?_, fun entry hEntry => ?_⟩
    · rw [hAfter.sigrefMap, hChanges, Std.ExtTreeMap.getElem?_insert]
      unfold expectedSigRef
      rw [reverse_append, reverse_singleton, singleton_append, lastChangeOf,
        length_reverse]
      by_cases hUid : call.change.entry.uid = uid
      · rw [if_pos (by simp [hUid]), if_pos hUid]
        rfl
      · rw [if_neg (by simp [hUid]), if_neg hUid]
        exact h.expected uid
    · rw [hChanges] at hEntry
      rcases mem_append.mp hEntry with hOld | hNew
      · exact h.fits entry hOld
      · rw [mem_singleton.mp hNew]
        exact call.change.fits

theorem ServerChain.serveAll (h : ServerChain st) (calls : List Call) :
    ServerChain (serveAll P st calls) :=
  serveAll_invariant (fun _ call hInv => hInv.serve call) h calls

theorem SpaceState.Initial.serverChain (h : st.Initial P) : ServerChain st := by
  refine ⟨fun uid => ?_, ?_⟩
  · rw [h.sigrefMap, h.changelog]
    simp [ChangeLog.new, expectedSigRef, lastChangeOf]
  · rw [h.changelog]
    exact fun entry hEntry => absurd hEntry not_mem_nil

end Served

/-! ## Both -/

/-- The chain of a log depends on the signers only. -/
theorem lastChangeOf_congr {log log' : List ChangelogEntry} (uid : Nat)
    (h : log.map ChangelogEntry.uid = log'.map ChangelogEntry.uid) :
    lastChangeOf uid log = lastChangeOf uid log' := by
  induction log generalizing log' with
  | nil =>
    cases log' with
    | nil => rfl
    | cons entry log' => cases h
  | cons entry log ih =>
    cases log' with
    | nil => cases h
    | cons entry' log' =>
      rw [map_cons, map_cons, cons.injEq] at h
      have hLength : log.length = log'.length := by
        rw [← length_map ChangelogEntry.uid, h.2, length_map]
      rw [lastChangeOf, lastChangeOf, h.1, ih h.2, hLength]

theorem expectedSigRef_congr {log log' : List ChangelogEntry} (uid : Nat)
    (h : log.map ChangelogEntry.uid = log'.map ChangelogEntry.uid) :
    expectedSigRef log uid = expectedSigRef log' uid := by
  refine lastChangeOf_congr uid ?_
  rw [map_reverse, map_reverse, h]

/-- Entries are decoded from their bytes with their signers. -/
theorem map_uid_of_decoded {changes : List ChangelogEntry} {log : List (Bytes × ChangelogEntry)}
    (hBytes : changes.map ChangelogEntry.toBytes = log.map Prod.fst)
    (hFits : ∀ entry ∈ changes, entry.FitsWidths)
    (hDecoded : ∀ p ∈ log, fromBytesForVerification p.1 = .ok p.2) :
    changes.map ChangelogEntry.uid = (log.map Prod.snd).map ChangelogEntry.uid := by
  induction changes generalizing log with
  | nil =>
    rw [map_nil, eq_comm, map_eq_nil_iff] at hBytes
    rw [hBytes]
    rfl
  | cons entry changes ih =>
    cases log with
    | nil => cases hBytes
    | cons p log =>
      rw [map_cons, map_cons, cons.injEq] at hBytes
      have hEntry := hDecoded p mem_cons_self
      rw [← hBytes.1, fromBytesForVerification_toBytes (hFits entry mem_cons_self),
        Except.ok.injEq] at hEntry
      rw [map_cons, map_cons, map_cons, ← hEntry,
        ih hBytes.2 (fun e he => hFits e (mem_cons_of_mem _ he))
          fun q hq => hDecoded q (mem_cons_of_mem _ hq)]

/-- **No replay.**  What `verify_op_sequence` accepts from the start of a log, in any
chunks, is chained: every entry names its signer's previous change, the final map
holds everybody's last change and its leaf, and no byte string occurs twice.  After
the same entries the server's check accepts the same next entries. -/
theorem no_replay {H : Bytes → Digest} {T : Type} {M : MerkOps T} {codec : RuleCodec}
    {chunks : List (Chunk T)} {st : Threaded}
    (hRun : verifyChunks H M codec 0 chunks Threaded.initial = some st) :
    ∃ log : List (Bytes × ChangelogEntry), log.map Prod.fst = chunks.flatMap Chunk.entries ∧
      (∀ p ∈ log, fromBytesForVerification p.1 = .ok p.2) ∧
      (∀ before bytes entry after, log = before ++ (bytes, entry) :: after →
        entry.sigRef = expectedSigRef (before.map Prod.snd) entry.uid) ∧
      (∀ uid : Nat, st.sigrefMap[uid]? = lastSigned H uid log.reverse) ∧
      (chunks.flatMap Chunk.entries).Nodup ∧
      ∀ (T' V : Type) (P : ServerParams T' V) (start : SpaceState T') (calls : List Call),
        start.Initial P →
        (serveAll P start calls).changelog.changes.map ChangelogEntry.toBytes =
          chunks.flatMap Chunk.entries →
        ∀ (entry : ChangelogEntry) (n : Nat) (leaf : Digest),
          checkSigrefContinuity entry
              ((serveAll P start calls).sigrefMap[entry.uid]?.getD 0) = .ok () ↔
            (validateSigref st.sigrefMap entry.uid entry.sigRef n leaf).isSome := by
  have hEmpty : Chained H [] Threaded.initial.sigrefMap := chained_nil
  obtain ⟨log, hLog, hChained⟩ := chained_verifyChunks hEmpty hRun
  rw [nil_append] at hChained
  refine ⟨log, hLog, hChained.decoded, ?_, hChained.last, hLog ▸ hChained.nodup, ?_⟩
  · rintro before bytes entry after rfl
    refine sigRef_eq_of_continuity (hChained.chained (before.map Prod.snd) entry
      (after.map Prod.snd) ?_)
    rw [map_append, map_cons]
  · intro T' V P start calls hInitial hSame entry n leaf
    have hServer : ServerChain (serveAll P start calls) := hInitial.serverChain.serveAll calls
    have hUids : (serveAll P start calls).changelog.changes.map ChangelogEntry.uid =
        (log.map Prod.snd).map ChangelogEntry.uid :=
      map_uid_of_decoded (hSame.trans hLog.symm) hServer.fits hChained.decoded
    rw [validateSigref_isSome_iff, hServer.expected, hChained.expected,
      expectedSigRef_congr entry.uid hUids]

/-- The sample chunks: a space is created, then a user invited. -/
def sampleChunks : List (Chunk Db) :=
  [Client.firstChunk, Client.secondChunk].map fun input =>
    { entries := input.entries, range := input.verifyRange, tree := input.tree }

theorem sampleChunks_chained : ∃ (st : Threaded) (log : List (Bytes × ChangelogEntry)),
    verifyChunks Client.checksum Client.spelledTrees noRules 0 sampleChunks Threaded.initial =
      some st ∧
    log.map Prod.fst = sampleChunks.flatMap Chunk.entries ∧ log.length = 2 ∧
    (∀ uid : Nat, st.sigrefMap[uid]? = lastSigned Client.checksum uid log.reverse) ∧
    (sampleChunks.flatMap Chunk.entries).Nodup := by
  have hSome : (verifyChunks Client.checksum Client.spelledTrees noRules 0 sampleChunks
      Threaded.initial).isSome = true := by decide +kernel
  obtain ⟨st, hRun⟩ := Option.isSome_iff_exists.mp hSome
  obtain ⟨log, hLog, _, _, hLast, hNodup, _⟩ := no_replay hRun
  refine ⟨st, log, hRun, hLog, ?_, hLast, hNodup⟩
  have hLength : (sampleChunks.flatMap Chunk.entries).length = 2 := by decide +kernel
  rw [← hLog, length_map] at hLength
  exact hLength

end EncryptedSpaces.Server
