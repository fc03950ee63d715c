import EncryptedSpaces.Changelog.Types

/-!
# Checks shared by server, client and guest

Timestamps, the window for the parent change, the parent commitment and the
per-user signature chain.  `u64` additions and subtractions that saturate are
cut off at `2 ^ 64 - 1` and at zero.
-/

namespace EncryptedSpaces.Changelog

open Encoding

/-! ## Time -/

def changeExpirySeconds : Nat := 100
def clockSkewToleranceSeconds : Nat := 5
def clientClockToleranceSeconds : Nat := 120
def timestampHwmToleranceSeconds : Nat := changeExpirySeconds + clockSkewToleranceSeconds

/-- `u64::saturating_add`. -/
def saturatingAdd64 (a b : Nat) : Nat := min (a + b) (2 ^ 64 - 1)

def validateChangeTimestampAtAcceptance (changeTimestamp acceptedAtServerTime : Nat) :
    Except ChangelogError Unit :=
  if saturatingAdd64 acceptedAtServerTime clockSkewToleranceSeconds < changeTimestamp then
    .error (.generic (s!"Change timestamp {changeTimestamp} is more than " ++
      s!"{clockSkewToleranceSeconds}s in the future " ++
      s!"(accepted_at_server_time={acceptedAtServerTime})"))
  else if changeExpirySeconds < acceptedAtServerTime - changeTimestamp then
    .error (.generic (s!"Change has expired, older than {changeExpirySeconds} seconds at " ++
      "acceptance time"))
  else .ok ()

def validateAcceptedAtServerTimeAgainstLocalClock (acceptedAtServerTime localTime : Nat) :
    Except ChangelogError Unit :=
  if saturatingAdd64 localTime clientClockToleranceSeconds < acceptedAtServerTime then
    .error (.generic (s!"Server acceptance time {acceptedAtServerTime} is more than " ++
      s!"{clientClockToleranceSeconds}s in the future (local_time={localTime})"))
  else if clientClockToleranceSeconds < localTime - acceptedAtServerTime then
    .error (.generic (s!"Server acceptance time {acceptedAtServerTime} is outside the local " ++
      s!"clock freshness window (local_time={localTime}, " ++
      s!"max_age={clientClockToleranceSeconds}s)"))
  else .ok ()

/-- The new high-water mark, or `none` for a timestamp that lags too far. -/
def validateTimestampHwm (changeTimestamp timestampHwm : Nat) : Option Nat :=
  if timestampHwm ≤ changeTimestamp then some changeTimestamp
  else if timestampHwm - changeTimestamp ≤ timestampHwmToleranceSeconds then some timestampHwm
  else none

/-! ## Parents -/

def validateParentChange (parentChange currentChangeId : Nat) : Bool :=
  let inBounds :=
    if currentChangeId = 1 then parentChange = 0 else parentChange < currentChangeId
  inBounds ∧ currentChangeId - parentChange ≤ maxParentDistance

/-- The first root recorded for the parent must be the signed one. -/
def validateParentClc (parentChange : Nat) (parentClc : Digest)
    (recentRoots : List (Nat × Digest)) : Bool :=
  match recentRoots.find? (fun (changeId, _) => changeId = parentChange) with
  | some (_, root) => root = parentClc
  | none => false

/-! ## Signature chains -/

/-- `BTreeMap<u32, (u32, [u8; 32])>`: the last change of each user and its leaf. -/
abbrev SigrefMap := Std.ExtTreeMap Nat (Nat × Digest) compare

/-- The advanced map, or `none` if the chain is broken. -/
def validateSigref (sigrefMap : SigrefMap) (uid sigRef currentChangeId : Nat)
    (entryHash : Digest) : Option SigrefMap :=
  let expected := (sigrefMap[uid]?.map Prod.fst).getD 0
  if sigRef = expected then some (sigrefMap.insert uid (currentChangeId, entryHash)) else none

def checkSigrefContinuity (change : ChangelogEntry) (expectedSigRef : Nat) :
    Except ChangelogError Unit :=
  if change.sigRef ≠ expectedSigRef then
    .error (.generic (s!"Sigref chain broken for uid {change.uid}: " ++
      s!"expected sig_ref={expectedSigRef}, got {change.sigRef}"))
  else .ok ()

/-- The guest's step accepts what the single check accepts against the guest's
own map. -/
theorem validateSigref_isSome_iff {sigrefMap : SigrefMap} {entry : ChangelogEntry}
    {currentChangeId : Nat} {entryHash : Digest} :
    (validateSigref sigrefMap entry.uid entry.sigRef currentChangeId entryHash).isSome ↔
      checkSigrefContinuity entry ((sigrefMap[entry.uid]?.map Prod.fst).getD 0) = .ok () := by
  unfold validateSigref checkSigrefContinuity
  by_cases hRef : entry.sigRef = (sigrefMap[entry.uid]?.map Prod.fst).getD 0
  · simp [hRef]
  · simp [hRef]

end EncryptedSpaces.Changelog
