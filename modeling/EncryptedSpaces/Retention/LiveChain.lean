import EncryptedSpaces.Retention.Layout

/-!
# The chain a retention store represents

`Chain` is the abstract state behind the stored rows: a layout, the data keys
created so far and the group key in force for each segment.  `Represents S r c`
says that the reader `r` stores rows that open to exactly these keys.

The fact everything else rests on is `resolveDKey_eq`: a member holding the head
group key resolves every live sequence number to the key created for it, and
no other number.
-/

namespace EncryptedSpaces.Retention

open Lib Crypto

/-! ## Walking the links -/

section Walk

variable {K C E V : Type} {S : KeySuite K C E V} {r : Reader V} {l : Layout}

/-- `gbKey` lists the keys found by following the links from the head. -/
def Linked (S : KeySuite K C E V) (r : Reader V) (l : Layout) (gbKey : Nat → K) : Prop :=
  ∀ o, o + 1 < l.fgkNext → l.dMin < l.bound (o + 1) →
    ∃ ct, loadOptionalCiphertext S r (Cell.gbctLink (o + 1)).key = some (some ct) ∧
      S.decrypt ct (S.derive (gbKey (o + 1)) .gbChainLink) = gbKey o

/-- The link stored with segment `o + 1` opens to the key of segment `o`. -/
theorem followLink_node (hWF : l.WF) (hLay : LaysOut S r l) {gbKey : Nat → K}
    (hLinked : Linked S r l gbKey) {o : Nat} (ho : o + 1 < l.fgkNext)
    (hLive : l.dMin < l.bound (o + 1)) :
    followLink S r (gbKey (o + 1)) (l.node l.dMin (o + 1)) = some (gbKey o) := by
  have hNext := hWF.increasing (o + 1) ho
  obtain ⟨ctHead, hHead⟩ := hLay.dHead (o + 1) ho (by omega)
  obtain ⟨ctLink, hLink, hOpen⟩ := hLinked o ho hLive
  simp only [loadGbctDHead] at hHead
  simp [followLink, loadGbctRow, Layout.node, hHead, hLink, hOpen]

/-- The walk to the node covering a live sequence number: its position, its
segment, and the GB key reached there. -/
theorem walk_to_node (hWF : l.WF) (hLay : LaysOut S r l) {gbKey : Nat → K}
    (hLinked : Linked S r l gbKey) {dSeq : Nat} (hLo : l.dMin ≤ dSeq) :
    ∀ o, o ≤ l.fgkNext → dSeq < l.bound o →
      ∃ idx ord, ord < o ∧ l.bound ord ≤ dSeq ∧ dSeq < l.bound (ord + 1) ∧
        (l.nodes o).findIdx? (·.contains dSeq) = some idx ∧
        (l.nodes o)[idx]? = some (l.node l.dMin ord) ∧
        ((l.nodes o).take idx).foldlM (followLink S r) (gbKey (o - 1)) =
          some (gbKey ord) := by
  intro o
  induction o with
  | zero =>
    intro _ hHi
    obtain ⟨p, hp⟩ := hWF.exists_eq_succ_of_lt_bound hLo hHi
    omega
  | succ o ih =>
    intro ho hHi
    have hLive : l.dMin < l.bound (o + 1) := by omega
    rw [Layout.nodes_succ_of_live hLive]
    rcases Nat.lt_or_ge dSeq (l.bound o) with hOlder | hHere
    · -- the number lies in an older segment: skip this node through its link
      obtain ⟨idx, ord, hOrd, hLoOrd, hHiOrd, hFind, hGet, hFold⟩ := ih (by omega) hOlder
      obtain ⟨p, rfl⟩ := hWF.exists_eq_succ_of_lt_bound hLo hOlder
      have hSkip : (l.node l.dMin (p + 1)).contains dSeq = false := by
        rw [← Bool.not_eq_true, LiveChainNode.contains_iff]
        simp only [Layout.node]
        omega
      have hFollow := followLink_node hWF hLay hLinked (o := p) (by omega) (by omega)
      refine ⟨idx + 1, ord, by omega, hLoOrd, hHiOrd, ?_, ?_, ?_⟩
      · simp [List.findIdx?_cons, hSkip, hFind]
      · simpa using hGet
      · simpa [hFollow] using hFold
    · have hContains : (l.node l.dMin o).contains dSeq = true := by
        rw [LiveChainNode.contains_iff]
        simp only [Layout.node]
        omega
      refine ⟨0, o, by omega, hHere, hHi, ?_, by simp, by simp⟩
      simp [List.findIdx?_cons, hContains]

variable [DecidableEq C]

/-- Resolution of a live number: the D head of its segment is opened with the
key found there, derived forward and compared with the D row. -/
theorem resolveDKey_linked (hWF : l.WF) (hLay : LaysOut S r l) {gbKey : Nat → K}
    (hLinked : Linked S r l gbKey) {localHgk : K}
    (hLocal : resolveCurrentHgk S localHgk r = some (gbKey (l.fgkNext - 1)))
    {dSeq : Nat} (hLo : l.dMin ≤ dSeq) (hHi : dSeq < l.dNext) :
    ∃ ord ct row, ord < l.fgkNext ∧ l.bound ord ≤ dSeq ∧ dSeq < l.bound (ord + 1) ∧
      loadGbctDHead S r ord = some ct ∧ loadDRow S r dSeq = some row ∧
      resolveDKey S localHgk dSeq r =
        if S.commit (S.deriveN .dDerive (dSeq - max (l.bound ord) l.dMin)
            (S.decrypt ct (S.derive (gbKey ord) .dHeadEncrypt))) = row.commitment
        then some (S.deriveN .dDerive (dSeq - max (l.bound ord) l.dMin)
          (S.decrypt ct (S.derive (gbKey ord) .dHeadEncrypt)))
        else none := by
  obtain ⟨idx, ord, hOrd, hLoOrd, hHiOrd, hFind, hGet, hFold⟩ :=
    walk_to_node hWF hLay hLinked hLo l.fgkNext (Nat.le_refl _) (by rwa [Layout.bound_fgkNext])
  obtain ⟨ct, hHead⟩ := hLay.dHead ord hOrd (by omega)
  obtain ⟨row, hRow⟩ := hLay.dRow dSeq hLo hHi
  refine ⟨ord, ct, row, hOrd, hLoOrd, hHiOrd, hHead, hRow, ?_⟩
  simp [resolveDKey, reconstructLiveChain_eq hWF hLay, hLocal, hFind, hGet, hFold, Layout.node,
    hHead, hRow]

theorem resolveDKey_eq_none (hWF : l.WF) (hLay : LaysOut S r l) (localHgk : K) {dSeq : Nat}
    (hOut : dSeq < l.dMin ∨ l.dNext ≤ dSeq) : resolveDKey S localHgk dSeq r = none := by
  simp [resolveDKey, reconstructLiveChain_eq hWF hLay, hWF.findIdx?_nodes_eq_none hOut]

end Walk

/-! ## Chains -/

/-- What a retention store stands for. -/
structure Chain (K : Type) extends Layout where
  /-- the head group key in force -/
  hgk : K
  /-- the data key created for a sequence number -/
  dKey : Nat → K
  /-- the key that protects a segment's D head -/
  gbKey : Nat → K

namespace Chain

variable {K C E V : Type}

/-- Inside the live part of a segment each data key is derived from its
predecessor, and the newest segment is protected by the head key. -/
structure WF (S : KeySuite K C E V) (c : Chain K) : Prop where
  layout : c.toLayout.WF
  derive_step : ∀ o, o < c.fgkNext → ∀ s, max (c.bound o) c.dMin ≤ s → s + 1 < c.bound (o + 1) →
    c.dKey (s + 1) = S.derive (c.dKey s) .dDerive
  head : c.gbKey (c.fgkNext - 1) = c.hgk

variable {S : KeySuite K C E V} {c : Chain K}

theorem WF.dMin_lt (h : c.WF S) : c.dMin < c.dNext :=
  h.layout.dMin_lt

theorem WF.increasing (h : c.WF S) :
    c.toLayout.Increasing :=
  h.layout.increasing

/-- Deriving forward inside a segment reaches the key created there. -/
theorem WF.deriveN_dKey (h : c.WF S) {o : Nat} (ho : o < c.fgkNext) {s : Nat}
    (hs : max (c.bound o) c.dMin ≤ s) :
    ∀ n, s + n < c.bound (o + 1) → S.deriveN .dDerive n (c.dKey s) = c.dKey (s + n) := by
  intro n
  induction n with
  | zero => intro _; rfl
  | succ n ih =>
    intro hn
    rw [KeySuite.deriveN_succ, ih (by omega),
      ← h.derive_step o ho (s + n) (by omega) (by omega)]
    rfl

end Chain

/-! ## Representation -/

variable {K C E V : Type}

/-- The reader stores the rows that make `c` resolvable. -/
structure Represents (S : KeySuite K C E V) (r : Reader V) (c : Chain K) : Prop where
  layout : LaysOut S r c.toLayout
  hgkCommitment : currentHgkCommitment S r = some (S.commit c.hgk)
  dRow : ∀ s, c.dMin ≤ s → s < c.dNext →
    loadDRow S r s = some { seq := s, commitment := S.commit (c.dKey s) }
  dHead : ∀ o, o < c.fgkNext → c.dMin < c.bound (o + 1) →
    ∃ ct, loadGbctDHead S r o = some ct ∧
      S.decrypt ct (S.derive (c.gbKey o) .dHeadEncrypt) = c.dKey (max (c.start o) c.dMin)
  link : Linked S r c.toLayout c.gbKey

variable {S : KeySuite K C E V} {r : Reader V} {c : Chain K}

variable [DecidableEq C]

/-- A member holding the head group key resolves to it. -/
theorem resolveCurrentHgk_self (hRep : Represents S r c) :
    resolveCurrentHgk S c.hgk r = some c.hgk := by
  simp [resolveCurrentHgk, hRep.hgkCommitment]

private theorem commit_of_deriveForward {target : C} :
    ∀ (steps : Nat) (key result : K),
      deriveForward S target steps key = some result → S.commit result = target := by
  intro steps
  induction steps with
  | zero => intro key result h; simp [deriveForward] at h
  | succ steps ih =>
    intro key result h
    simp only [deriveForward] at h
    split at h
    · cases h; assumption
    · exact ih _ _ h

/-- Whatever key a member starts from, a successful resolution yields the head
group key: commitments are binding. -/
theorem eq_of_resolveCurrentHgk (hS : S.Lawful) (hRep : Represents S r c)
    {localHgk key : K} (h : resolveCurrentHgk S localHgk r = some key) : key = c.hgk := by
  apply hS.commit_injective
  simp only [resolveCurrentHgk, hRep.hgkCommitment, hRep.layout.dgkNext, Option.bind_eq_bind,
    Option.bind_some] at h
  split at h
  · cases h; assumption
  · exact commit_of_deriveForward _ _ _ h

/-- Resolution from any local key that reaches the head group key: live
numbers resolve to the key created for them, all others fail. -/
theorem resolveDKey_eq (hWF : c.WF S) (hRep : Represents S r c)
    {localHgk : K} (hLocal : resolveCurrentHgk S localHgk r = some c.hgk) (dSeq : Nat) :
    resolveDKey S localHgk dSeq r =
      if c.dMin ≤ dSeq ∧ dSeq < c.dNext then some (c.dKey dSeq) else none := by
  split
  · next hRange =>
      rw [← hWF.head] at hLocal
      obtain ⟨ord, ct, row, hOrd, hLoOrd, hHiOrd, hHead, hRow, hResolve⟩ :=
        resolveDKey_linked hWF.layout hRep.layout hRep.link hLocal hRange.1 hRange.2
      have hStart : c.bound ord = c.start ord := Layout.bound_of_lt hOrd
      obtain ⟨ct', hHead', hOpen⟩ := hRep.dHead ord hOrd (by omega)
      rw [hHead] at hHead'
      cases hHead'
      rw [hRep.dRow dSeq hRange.1 hRange.2] at hRow
      cases hRow
      have hKey : S.deriveN .dDerive (dSeq - max (c.bound ord) c.dMin)
          (S.decrypt ct (S.derive (c.gbKey ord) .dHeadEncrypt)) = c.dKey dSeq := by
        rw [hOpen, hStart, hWF.deriveN_dKey hOrd (by omega) _ (by omega)]
        congr 1
        omega
      rw [hResolve, hKey, if_pos rfl]
  · next hRange =>
      exact resolveDKey_eq_none hWF.layout hRep.layout localHgk (by omega)

/-- A resolution that succeeds reached the head group key. -/
theorem resolveCurrentHgk_of_resolveDKey (hS : S.Lawful) (hRep : Represents S r c)
    {localHgk key : K} {dSeq : Nat} (h : resolveDKey S localHgk dSeq r = some key) :
    resolveCurrentHgk S localHgk r = some c.hgk := by
  cases hHgk : resolveCurrentHgk S localHgk r with
  | none =>
    simp only [resolveDKey, hHgk, Option.bind_eq_some] at h
    obtain ⟨_, _, _, _, _, hNone, _⟩ := h
    cases hNone
  | some hgk => rw [eq_of_resolveCurrentHgk hS hRep hHgk]

end EncryptedSpaces.Retention
