import EncryptedSpaces.FastForward.Sequence
import EncryptedSpaces.Ops.Reachable

/-!
# Joining chunks

Every chunk of a fast-forward is replayed on a witness of its own: a pruned tree
that opens what the chunk touches, and nothing relates two witnesses but the root
where one chunk ends and the next begins.  This module joins the replays.  If two
honest witnesses have the same root then some tree opens what either opens, and such a
tree can be carried back through a batch; so there is one witness for both
chunks, and one replay on it.

`HonestTrees` names what is used of Merk.  The static cache, which starts empty
in every chunk and lives on in the joint replay, holds what the tree holds.
-/

namespace EncryptedSpaces.FastForward

open Encoding Changelog Lib Ops Lib.Except Option

/-- What is used of Merk.  `Opens u t` means that both are prunings of one tree, with
the heights that tree has, and that `u` opens what `t` opens; so a witness is honest
if it opens itself.  The heights of a pruned child are not hashed: a root also has
witnesses that are not honest, and of those nothing is assumed. -/
structure HonestTrees {T : Type} (M : MerkOps T) (Opens : T → T → Prop) : Prop where
  honest : ∀ t u, Opens u t → Opens u u ∧ Opens t t
  trans : ∀ t u v, Opens v u → Opens u t → Opens v t
  hash : ∀ t u, Opens u t → M.hash u = M.hash t
  /-- What a witness answers, a larger one answers too. -/
  read : ∀ t u op r, Opens u t → M.read t op = .ok r → M.read u op = .ok r
  applyBatch : ∀ t u batch t', Opens u t → M.applyBatch t batch = .ok (some t') →
    ∃ u', M.applyBatch u batch = .ok (some u') ∧ Opens u' t'
  /-- The hash has no collisions: two witnesses of one root open one tree. -/
  join : ∀ t u, Opens t t → Opens u u → M.hash t = M.hash u → ∃ v, Opens v t ∧ Opens v u
  /-- A part that is opened after a batch could have been opened before it. -/
  pull : ∀ t batch t' v, Opens t t → M.applyBatch t batch = .ok (some t') → Opens v t' →
    ∃ u u', Opens u t ∧ M.applyBatch u batch = .ok (some u') ∧ Opens u' v
  /-- A key that a batch does not write reads as before. -/
  frame : ∀ t batch t' key r, Opens t t → M.applyBatch t batch = .ok (some t') →
    (∀ op ∈ batch, op.key ≠ key) → M.read t (.key key) = .ok r → M.read t' (.key key) = .ok r

/-- Pruned trees all of which are honest. -/
structure PrunedTrees {T : Type} (M : MerkOps T) (Opens : T → T → Prop) : Prop
    extends HonestTrees M Opens where
  refl : ∀ t, Opens t t

/-- Complete trees whose hash has no collisions; they open nothing further. -/
theorem mapTrees_pruned {hash : Db → Digest} (hHash : Function.Injective hash) :
    PrunedTrees (mapTrees hash) Eq where
  refl _ := rfl
  honest _ _ _ := ⟨rfl, rfl⟩
  trans _ _ _ hvu hut := hvu.trans hut
  hash _ _ hOpens := congrArg hash hOpens
  read _ _ _ _ hOpens hRead := by
    subst hOpens
    exact hRead
  applyBatch _ _ _ t' hOpens hApply := by
    subst hOpens
    exact ⟨t', hApply, rfl⟩
  join t _ _ _ hEq := ⟨t, rfl, hHash hEq⟩
  pull t _ t' _ _ hApply hOpens := ⟨t, t', rfl, hApply, hOpens.symm⟩
  frame t batch t' key r _ hApply hUnwritten hRead := by
    have hAfter : t.applyBatch batch = t' := by
      have hSome := Except.ok.inj hApply
      split at hSome
      · cases hSome
      · exact some.inj hSome
    have hCell : (t.applyBatch batch)[key]? = t[key]? := Db.getElem?_applyBatch_of_ne hUnwritten
    rw [← hRead, ← hAfter]
    change Except.ok (Db.read _ _) = Except.ok (Db.read _ _)
    unfold Db.read
    dsimp only
    rw [hCell]

section Splice

variable {H : Bytes → Digest} {T : Type} {M : MerkOps T} {codec : RuleCodec}
  {Opens : T → T → Prop}

/-- The cache of a replay holds what its tree holds. -/
abbrev Coherent (M : MerkOps T) (codec : RuleCodec) (tree : T) (cache : Cache) : Prop :=
  cache.Coherent codec (M.read tree)

/-! ## One operation -/

theorem loadStatic_mono {reader reader' : Reader} {opName : String} {key : StaticKey} {v : key.Val}
    (hRead : ∀ r, reader (.key key.treeKey) = .ok r → reader' (.key key.treeKey) = .ok r)
    (h : loadStatic codec reader opName key = .ok v) :
    loadStatic codec reader' opName key = .ok v := by
  unfold loadStatic at h ⊢
  cases hKey : reader (.key key.treeKey) with
  | error e =>
    rw [hKey] at h
    cases h
  | ok r =>
    rw [hKey] at h
    rw [hRead r hKey]
    exact h

variable {t t' : T} {n changeId : Nat} {entry : ChangelogEntry} {cache : Cache}
  {s out : SequenceState T}

theorem plain_mono (hM : HonestTrees M Opens) {u : T} (hOpens : Opens u t) (q : Query)
    (a : Answer q) (h : plain codec (M.read t) q = .ok a) : plain codec (M.read u) q = .ok a := by
  cases q with
  | read op => exact hM.read t u op a hOpens h
  | static key opName => exact loadStatic_mono (fun r => hM.read t u _ r hOpens) h

theorem replayOp_eq_some {cache' : Cache} :
    replayOp M codec n entry t cache = some (t', cache') ↔ ∃ writes cache₁,
      (dispatchExtractAndValidate n entry).run (cached codec (M.read t)) cache =
        .ok (writes, cache₁) ∧
      M.applyBatch t writes = .ok (some t') ∧
      cache' = finishChange entry.message.opType cache₁ := by
  unfold replayOp
  constructor
  · intro h
    obtain ⟨⟨writes, cache₁⟩, hRun, h⟩ := bind_eq_some_iff.mp h
    obtain ⟨after, hApply, h⟩ := bind_eq_some_iff.mp h
    obtain ⟨tree, hTree, h⟩ := bind_eq_some_iff.mp h
    obtain ⟨rfl, rfl⟩ := Prod.mk.inj (some.inj h)
    rw [hTree] at hApply
    exact ⟨writes, cache₁, toOption_eq_some.mp hRun, toOption_eq_some.mp hApply, rfl⟩
  · rintro ⟨writes, cache₁, hRun, hApply, rfl⟩
    dsimp only [bind]
    rw [hRun]
    dsimp only [Except.toOption]
    rw [bind_some, hApply]
    rfl

/-- After its batch an operation leaves a coherent cache. -/
theorem coherent_finishChange (hM : HonestTrees M Opens) {writes : Batch} (hHonest : Opens t t)
    (hCoh : Coherent M codec t cache)
    (hDispatch : (dispatchExtractAndValidate n entry).eval (plain codec (M.read t)) = .ok writes)
    (hApply : M.applyBatch t writes = .ok (some t')) :
    Coherent M codec t' (finishChange entry.message.opType cache) := by
  unfold finishChange
  split
  · exact Cache.coherent_empty
  · intro key v hKey opName
    -- no operation writes what static values are loaded from
    have hUnwritten := key_ne_treeKey_of_dispatch hDispatch key
    exact loadStatic_mono (fun r => hM.frame t writes t' _ r hHonest hApply hUnwritten)
      (hCoh key v hKey opName)

/-- The writes of a replayed operation do not depend on the cache. -/
theorem exists_writes_of_replayOp {cache' : Cache} (hCoh : Coherent M codec t cache)
    (h : replayOp M codec n entry t cache = some (t', cache')) : ∃ writes,
      (dispatchExtractAndValidate n entry).eval (plain codec (M.read t)) = .ok writes ∧
      M.applyBatch t writes = .ok (some t') := by
  obtain ⟨writes, cache₁, hRun, hApply, _⟩ := replayOp_eq_some.mp h
  exact ⟨writes, (eval_plain_of_run_cached hCoh hRun).1, hApply⟩

theorem replayOp_of_writes (hM : HonestTrees M Opens) {writes : Batch} (hHonest : Opens t t)
    (hCoh : Coherent M codec t cache)
    (hDispatch : (dispatchExtractAndValidate n entry).eval (plain codec (M.read t)) = .ok writes)
    (hApply : M.applyBatch t writes = .ok (some t')) :
    ∃ cache', replayOp M codec n entry t cache = some (t', cache') ∧
      Coherent M codec t' cache' := by
  obtain ⟨cache₁, hRun⟩ := run_cached_of_eval_plain hCoh hDispatch
  have hCoh₁ := (eval_plain_of_run_cached hCoh hRun).2
  exact ⟨_, replayOp_eq_some.mpr ⟨writes, cache₁, hRun, hApply, rfl⟩,
    coherent_finishChange hM hHonest hCoh₁ hDispatch hApply⟩

/-! ## Sequences on a larger witness -/

/-- The same replay with more parts opened; only the caches may differ. -/
structure Larger (M : MerkOps T) (codec : RuleCodec) (Opens : T → T → Prop)
    (s s' : SequenceState T) : Prop where
  opens : Opens s'.tree s.tree
  workingTree : s'.workingTree = s.workingTree
  threaded : s'.threaded = s.threaded
  coherent : Coherent M codec s.tree s.staticCache
  coherent' : Coherent M codec s'.tree s'.staticCache

/-- One round, taken apart. -/
theorem verifyEntry_eq_some {bytes : Bytes} :
    verifyEntry H M codec n bytes s = some out ↔ ∃ entry threaded root,
      s.workingTree.append H bytes = some out.workingTree ∧
      fromBytesForVerification bytes = .ok entry ∧
      checkEntry n entry (hLeaf H bytes) s.threaded = some threaded ∧
      replayOp M codec n entry s.tree s.staticCache = some (out.tree, out.staticCache) ∧
      out.workingTree.root H = some root ∧
      out.threaded = { threaded with recentRoots := pushRoot threaded.recentRoots n root } := by
  unfold verifyEntry
  constructor
  · intro h
    obtain ⟨workingTree, hAppend, h⟩ := bind_eq_some_iff.mp h
    obtain ⟨entry, hEntry, h⟩ := bind_eq_some_iff.mp h
    obtain ⟨threaded, hCheck, h⟩ := bind_eq_some_iff.mp h
    obtain ⟨⟨tree, cache⟩, hReplay, h⟩ := bind_eq_some_iff.mp h
    obtain ⟨root, hRoot, h⟩ := bind_eq_some_iff.mp h
    obtain rfl := some.inj h
    exact ⟨entry, threaded, root, hAppend, toOption_eq_some.mp hEntry, hCheck, hReplay, hRoot,
      rfl⟩
  · rintro ⟨entry, threaded, root, hAppend, hEntry, hCheck, hReplay, hRoot, hThreaded⟩
    dsimp only [bind]
    rw [hAppend, bind_some, hEntry]
    dsimp only [Except.toOption]
    rw [bind_some, hCheck, bind_some, hReplay, bind_some, hRoot,
      bind_some, ← hThreaded]
    rfl

theorem verifyEntry_larger (hM : HonestTrees M Opens) {bytes : Bytes} {s' : SequenceState T}
    (hLarger : Larger M codec Opens s s') (h : verifyEntry H M codec n bytes s = some out) :
    ∃ out', verifyEntry H M codec n bytes s' = some out' ∧ Larger M codec Opens out out' := by
  obtain ⟨entry, threaded, root, hAppend, hEntry, hCheck, hReplay, hRoot, hThreaded⟩ :=
    verifyEntry_eq_some.mp h
  obtain ⟨writes, hDispatch, hApply⟩ := exists_writes_of_replayOp hLarger.coherent hReplay
  have hDispatch' := Prog.eval_mono (plain_mono hM hLarger.opens) hDispatch
  obtain ⟨tree', hApply', hOpens'⟩ := hM.applyBatch _ _ writes _ hLarger.opens hApply
  have hHonest := hM.honest _ _ hLarger.opens
  obtain ⟨cache', hReplay', hCoh'⟩ :=
    replayOp_of_writes hM hHonest.1 hLarger.coherent' hDispatch' hApply'
  obtain ⟨cache'', hReplay'', hCoh⟩ :=
    replayOp_of_writes hM hHonest.2 hLarger.coherent hDispatch hApply
  rw [hReplay, some.injEq] at hReplay''
  have hCache : out.staticCache = cache'' := (Prod.mk.inj hReplay'').2
  refine ⟨{ out with tree := tree', staticCache := cache' }, ?_, ?_⟩
  · apply verifyEntry_eq_some.mpr
    rw [hLarger.workingTree, hLarger.threaded]
    exact ⟨entry, threaded, root, hAppend, hEntry, hCheck, hReplay', hRoot, hThreaded⟩
  · exact {
      opens := hOpens'
      workingTree := rfl
      threaded := rfl
      coherent := by rw [hCache]; exact hCoh
      coherent' := hCoh' }

theorem verifyEntries_larger (hM : HonestTrees M Opens) {entries : List Bytes}
    {s' : SequenceState T} (hLarger : Larger M codec Opens s s')
    (h : verifyEntries H M codec changeId entries s = some out) :
    ∃ out', verifyEntries H M codec changeId entries s' = some out' ∧
      Larger M codec Opens out out' := by
  induction entries generalizing changeId s s' with
  | nil =>
    obtain rfl := some.inj h
    exact ⟨s', rfl, hLarger⟩
  | cons bytes rest ih =>
    rw [verifyEntries, bind_eq_some] at h
    obtain ⟨s₁, hEntry, hRest⟩ := h
    obtain ⟨s₁', hEntry', hLarger₁⟩ := verifyEntry_larger hM hLarger hEntry
    obtain ⟨out', hRest', hOut⟩ := ih hLarger₁ hRest
    refine ⟨out', ?_, hOut⟩
    rw [verifyEntries, bind_eq_bind, hEntry', bind_some]
    exact hRest'

/-! ## Carrying a larger witness back -/

/-- A sequence whose last tree is opened further is a sequence from a witness
that was opened further, whatever coherent cache it starts with. -/
theorem verifyEntries_pull (hM : HonestTrees M Opens) {entries : List Bytes} {v : T}
    (hHonest : Opens s.tree s.tree) (hCoh : Coherent M codec s.tree s.staticCache)
    (h : verifyEntries H M codec changeId entries s = some out) (hOpens : Opens v out.tree) :
    ∃ u, Opens u s.tree ∧ ∀ cache, Coherent M codec u cache →
      ∃ out', verifyEntries H M codec changeId entries { s with tree := u, staticCache := cache } =
          some out' ∧
        out'.workingTree = out.workingTree ∧ out'.threaded = out.threaded ∧ Opens out'.tree v ∧
        Coherent M codec out'.tree out'.staticCache := by
  induction entries generalizing changeId s with
  | nil =>
    obtain rfl := some.inj h
    exact ⟨v, hOpens, fun cache hCache =>
      ⟨_, rfl, rfl, rfl, (hM.honest _ _ hOpens).1, hCache⟩⟩
  | cons bytes rest ih =>
    rw [verifyEntries, bind_eq_some] at h
    obtain ⟨s₁, hEntry, hRest⟩ := h
    -- the first round seen as a round on its own tree: its cache is coherent after it
    have hSame : Larger M codec Opens s s := ⟨hHonest, rfl, rfl, hCoh, hCoh⟩
    obtain ⟨s₁', hEntry', hLarger₁⟩ := verifyEntry_larger hM hSame hEntry
    obtain ⟨u₁, hu₁, hRun⟩ := ih (hM.honest _ _ hLarger₁.opens).2 hLarger₁.coherent hRest
    obtain ⟨out₁, hRest₁, hWorking, hThreaded, hOpens₁, -⟩ := hRun Cache.empty Cache.coherent_empty
    obtain ⟨entry, threaded, root, hAppend, hFrom, hCheck, hReplay, hRoot, hThr⟩ :=
      verifyEntry_eq_some.mp hEntry
    obtain ⟨writes, hDispatch, hApply⟩ := exists_writes_of_replayOp hCoh hReplay
    obtain ⟨u, u', hu, hApply', hu'⟩ := hM.pull _ writes _ u₁ hHonest hApply hu₁
    have hDispatch' := Prog.eval_mono (plain_mono hM hu) hDispatch
    refine ⟨u, hu, fun cache hCache => ?_⟩
    obtain ⟨cache', hReplay', hCache'⟩ :=
      replayOp_of_writes hM (hM.honest _ _ hu).1 hCache hDispatch' hApply'
    have hFirst : verifyEntry H M codec (changeId + 1) bytes
        { s with tree := u, staticCache := cache } =
          some { s₁ with tree := u', staticCache := cache' } :=
      verifyEntry_eq_some.mpr
        ⟨entry, threaded, root, hAppend, hFrom, hCheck, hReplay', hRoot, hThr⟩
    have hFrom₁ : Larger M codec Opens { s₁ with tree := u₁, staticCache := Cache.empty }
        { s₁ with tree := u', staticCache := cache' } :=
      ⟨hu', rfl, rfl, Cache.coherent_empty, hCache'⟩
    obtain ⟨out', hRest', hLarger'⟩ := verifyEntries_larger hM hFrom₁ hRest₁
    refine ⟨out', ?_, ?_, ?_, ?_, hLarger'.coherent'⟩
    · rw [verifyEntries, bind_eq_bind, hFirst, bind_some]
      exact hRest'
    · rw [hLarger'.workingTree, hWorking]
    · rw [hLarger'.threaded, hThreaded]
    · exact hM.trans _ _ _ hLarger'.opens hOpens₁

theorem verifyEntries_append {first second : List Bytes} {mid : SequenceState T}
    (h : verifyEntries H M codec changeId first s = some mid) :
    verifyEntries H M codec changeId (first ++ second) s =
      verifyEntries H M codec (changeId + first.length) second mid := by
  induction first generalizing changeId s with
  | nil =>
    obtain rfl := some.inj h
    rfl
  | cons bytes rest ih =>
    rw [verifyEntries, bind_eq_some] at h
    obtain ⟨s₁, hEntry, hRest⟩ := h
    rw [List.cons_append, verifyEntries, bind_eq_bind, hEntry, bind_some, ih hRest,
      List.length_cons]
    congr 1
    omega

/-- **Two chunks are one.**  A chunk that starts where another ends, on any honest
witness of the same root, extends it to one replay on one honest witness. -/
theorem verifyEntries_splice (hM : HonestTrees M Opens) {first second : List Bytes}
    {mid next : SequenceState T} (hHonest : Opens s.tree s.tree)
    (hNextHonest : Opens next.tree next.tree) (hEmpty : s.staticCache = Cache.empty)
    (hNextEmpty : next.staticCache = Cache.empty)
    (hFirst : verifyEntries H M codec changeId first s = some mid)
    (hSecond : verifyEntries H M codec (changeId + first.length) second next = some out)
    (hHash : M.hash next.tree = M.hash mid.tree) (hWorking : next.workingTree = mid.workingTree)
    (hThreaded : next.threaded = mid.threaded) :
    ∃ u, Opens u u ∧ M.hash u = M.hash s.tree ∧ ∃ out',
      verifyEntries H M codec changeId (first ++ second) { s with tree := u } = some out' ∧
      M.hash out'.tree = M.hash out.tree ∧ out'.workingTree = out.workingTree ∧
      out'.threaded = out.threaded := by
  have hCoh : Coherent M codec s.tree s.staticCache := by
    rw [hEmpty]
    exact Cache.coherent_empty
  -- the tree after the first chunk is honest, as the one before it
  have hSame : Larger M codec Opens s s := ⟨hHonest, rfl, rfl, hCoh, hCoh⟩
  obtain ⟨_, _, hLargerMid⟩ := verifyEntries_larger hM hSame hFirst
  have hMidHonest := (hM.honest _ _ hLargerMid.opens).2
  -- one tree opens both witnesses of the root between the chunks
  obtain ⟨v, hvNext, hvMid⟩ := hM.join _ _ hNextHonest hMidHonest hHash
  obtain ⟨u, hu, hRun⟩ := verifyEntries_pull hM hHonest hCoh hFirst hvMid
  have hCohU : Coherent M codec u s.staticCache := by
    rw [hEmpty]
    exact Cache.coherent_empty
  obtain ⟨mid', hFirst', hWorking', hThreaded', hOpens', hCoh'⟩ := hRun s.staticCache hCohU
  have hLarger : Larger M codec Opens next mid' := {
    opens := hM.trans _ _ _ hOpens' hvNext
    workingTree := by rw [hWorking', hWorking]
    threaded := by rw [hThreaded', hThreaded]
    coherent := by rw [hNextEmpty]; exact Cache.coherent_empty
    coherent' := hCoh' }
  obtain ⟨out', hSecond', hOut⟩ := verifyEntries_larger hM hLarger hSecond
  refine ⟨u, (hM.honest _ _ hu).1, hM.hash _ _ hu, out', ?_, hM.hash _ _ hOut.opens,
    hOut.workingTree, hOut.threaded⟩
  exact (verifyEntries_append hFirst').trans hSecond'

end Splice

end EncryptedSpaces.FastForward
