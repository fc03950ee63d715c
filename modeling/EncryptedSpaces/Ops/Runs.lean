import EncryptedSpaces.Changelog.Checks
import EncryptedSpaces.Ops.DerivedRows
import EncryptedSpaces.Ops.RefreshKeys

/-!
# Runs of accepted entries

A run lists the entries that were accepted one after the other from a start
state; change ids count from `1`.  This module has what invariants of runs share:
the signature chain of each user, and what no step touches.
-/

namespace EncryptedSpaces.Ops

open Encoding Changelog Lib Lib.Except List

/-- The database after a list of accepted entries. -/
inductive Run (codec : RuleCodec) (start : Db) : List ChangelogEntry → Db → Prop where
  | nil : Run codec start [] start
  | snoc {entries : List ChangelogEntry} {db : Db} {entry : ChangelogEntry} {batch : Batch}
      (hRun : Run codec start entries db)
      (hStep :
        (dispatchExtractAndValidate (entries.length + 1) entry).eval (plain codec db.reader) =
        .ok batch) :
      Run codec start (entries ++ [entry]) (db.applyBatch batch)

/-- Run entries from change id `n + 1` on. -/
def runEntries (codec : RuleCodec) : Nat → List ChangelogEntry → Db → Except ChangelogError Db
  | _, [], db => .ok db
  | n, entry :: entries, db => do
      let db ← runEntry codec (n + 1) entry db
      runEntries codec (n + 1) entries db

/-- The change id of the user's last entry; `0` if there is none.  The newest
entry comes first. -/
def lastChangeOf (uid : Nat) : List ChangelogEntry → Nat
  | [] => 0
  | entry :: older => if entry.uid = uid then older.length + 1 else lastChangeOf uid older

/-- The `sig_ref` that the server expects from a user after some entries. -/
def expectedSigRef (entries : List ChangelogEntry) (uid : Nat) : Nat :=
  lastChangeOf uid entries.reverse

/-- Every entry continues the signature chain of its signer. -/
def SigRefsChained (entries : List ChangelogEntry) : Prop :=
  ∀ before entry after, entries = before ++ entry :: after →
    checkSigrefContinuity entry (expectedSigRef before entry.uid) = .ok ()

section Run

variable {codec : RuleCodec} {start db : Db} {entries : List ChangelogEntry}

theorem Run.reachable (h : Run codec start entries db) (hStart : Bootstrapped start) :
    Reachable codec entries.length db := by
  induction h with
  | nil => exact .init hStart
  | snoc _ hStep ih =>
    rw [length_append, length_singleton]
    exact .step ih hStep

/-- What holds at the start and is kept by every accepted entry holds after the
run; the step knows where in the run its entry stands. -/
theorem Run.invariant {P : List ChangelogEntry → Db → Prop} (h : Run codec start entries db)
    (hStart : P [] start)
    (hStep : ∀ before entry after db batch, entries = before ++ entry :: after →
      Run codec start before db →
      Accepts codec (before.length + 1) db entry batch → P before db →
        P (before ++ [entry]) (db.applyBatch batch)) :
    P entries db := by
  induction h with
  | nil => exact hStart
  | @snoc before db entry batch hRun hAccept ih =>
    refine hStep before entry [] db batch rfl hRun hAccept (ih ?_)
    intro before' entry' after db batch hSplit
    exact hStep before' entry' (after ++ [entry]) db batch (by rw [hSplit]; simp)

variable {db' : Db} {entry : ChangelogEntry}

/-- The entries determine the database. -/
theorem Run.unique (h : Run codec start entries db) (h' : Run codec start entries db') :
    db = db' := by
  induction h generalizing db' with
  | nil =>
    generalize hEntries : ([] : List ChangelogEntry) = entries' at h'
    cases h' with
    | nil => rfl
    | snoc _ _ =>
      exact absurd hEntries.symm
        (append_ne_nil_of_right_ne_nil _ (cons_ne_nil _ _))
  | @snoc before db entry batch _ hStep ih =>
    generalize hEntries : before ++ [entry] = entries' at h'
    cases h' with
    | nil => exact absurd hEntries (append_ne_nil_of_right_ne_nil _ (cons_ne_nil _ _))
    | @snoc before' db₁ entry' batch' hRun' hStep' =>
      obtain ⟨rfl, hLast⟩ := append_inj' hEntries rfl
      cases hLast
      obtain rfl := ih hRun'
      rw [hStep, Except.ok.injEq] at hStep'
      rw [hStep']

/-- Every entry of a run was accepted at its place. -/
theorem Run.exists_accepted {before after : List ChangelogEntry} (h : Run codec start entries db)
    (hSplit : entries = before ++ entry :: after) (h' : Run codec start before db') :
    ∃ batch, Accepts codec (before.length + 1) db' entry batch := by
  induction h generalizing after with
  | nil =>
    cases before <;> cases hSplit
  | @snoc entries db last batch hRun hStep ih =>
    rcases eq_nil_or_concat after with rfl | ⟨after', last', rfl⟩
    · obtain ⟨rfl, hLast⟩ := append_inj' hSplit rfl
      cases hLast
      obtain rfl := hRun.unique h'
      exact ⟨batch, hStep⟩
    · have hSplit' : entries ++ [last] = (before ++ entry :: after') ++ [last'] := by
        rw [hSplit]
        simp
      exact ih (append_inj' hSplit' rfl).1

theorem run_of_runEntries (h : runEntries codec 0 entries start = .ok db) :
    Run codec start entries db := by
  have hFrom : ∀ (entries before : List ChangelogEntry) (db₁ : Db), Run codec start before db₁ →
      runEntries codec before.length entries db₁ = .ok db →
      Run codec start (before ++ entries) db := by
    intro entries
    induction entries with
    | nil =>
      intro before db₁ hRun h
      cases h
      rwa [append_nil]
    | cons entry entries ih =>
      intro before db₁ hRun h
      obtain ⟨db₂, hFirst, h⟩ := bind_eq_ok.mp h
      obtain ⟨batch, hBatch, rfl⟩ := map_eq_ok.mp hFirst
      rw [append_cons]
      exact ih _ _ (.snoc hRun hBatch) (by rwa [length_append, length_singleton])
  exact hFrom entries [] start .nil h

theorem exists_run {P : Db → Prop} (h : ∃ db, runEntries codec 0 entries start = .ok db ∧ P db) :
    ∃ db, Run codec start entries db ∧ P db :=
  h.imp fun _ h => ⟨run_of_runEntries h.1, h.2⟩

/-- The condition holds of every entry of the run, in the database before it. -/
def EachStep (codec : RuleCodec) (start : Db) (entries : List ChangelogEntry)
    (C : Db → ChangelogEntry → Prop) : Prop :=
  ∀ before entry after db, entries = before ++ entry :: after →
    Run codec start before db → C db entry

/-- `EachStep` for a condition that can be computed. -/
def checkSteps (codec : RuleCodec) (c : Db → ChangelogEntry → Bool) :
    Nat → List ChangelogEntry → Db → Bool
  | _, [], _ => true
  | n, entry :: entries, db =>
    c db entry && match runEntry codec (n + 1) entry db with
      | .ok db => checkSteps codec c (n + 1) entries db
      | .error _ => true

theorem eachStep_of_checkSteps {c : Db → ChangelogEntry → Bool} {C : Db → ChangelogEntry → Prop}
    {done : List ChangelogEntry} (hc : ∀ db entry, c db entry = true → C db entry)
    (hRun : Run codec start done db) (h : checkSteps codec c done.length entries db = true) :
    ∀ before entry after db', entries = before ++ entry :: after →
      Run codec start (done ++ before) db' → C db' entry := by
  induction entries generalizing done db with
  | nil =>
    intro before entry after db' hSplit
    cases before <;> cases hSplit
  | cons first entries ih =>
    intro before entry after db' hSplit hRun'
    obtain ⟨hFirst, hRest⟩ := Bool.and_eq_true_iff.mp h
    cases before with
    | nil =>
      cases hSplit
      rw [append_nil] at hRun'
      rw [← hRun.unique hRun']
      exact hc db first hFirst
    | cons first' before =>
      rw [cons_append, cons.injEq] at hSplit
      obtain ⟨rfl, hSplit⟩ := hSplit
      have hAppend : done ++ first :: before = (done ++ [first]) ++ before := by simp
      rw [hAppend] at hRun'
      obtain ⟨db₁, hNext, hEntry⟩ : ∃ db₁, Run codec start (done ++ [first]) db₁ ∧
          runEntry codec (done.length + 1) first db = .ok db₁ := by
        obtain ⟨batch, hBatch⟩ : ∃ batch, Accepts codec (done.length + 1) db first batch :=
          hRun'.exists_accepted (append_assoc done [first] before) hRun
        exact ⟨db.applyBatch batch, .snoc hRun hBatch, map_eq_ok.mpr ⟨batch, hBatch, rfl⟩⟩
      rw [hEntry] at hRest
      refine ih hNext ?_ before entry after db' hSplit hRun'
      rwa [length_append, length_singleton]

theorem lastChangeOf_le (uid : Nat) (entries : List ChangelogEntry) :
    lastChangeOf uid entries ≤ entries.length := by
  induction entries with
  | nil => exact Nat.le_refl 0
  | cons entry older ih =>
    rw [lastChangeOf, length_cons]
    split <;> omega

theorem expectedSigRef_le (entries : List ChangelogEntry) (uid : Nat) :
    expectedSigRef entries uid ≤ entries.length := by
  have hLe := lastChangeOf_le uid entries.reverse
  rwa [length_reverse] at hLe

theorem le_lastChangeOf (newer : List ChangelogEntry) (entry : ChangelogEntry)
    (older : List ChangelogEntry) :
    older.length + 1 ≤ lastChangeOf entry.uid (newer ++ entry :: older) := by
  induction newer with
  | nil => rw [nil_append, lastChangeOf, if_pos rfl]
  | cons e newer ih =>
    rw [cons_append, lastChangeOf]
    split
    · rw [length_append, length_cons]
      omega
    · exact ih

/-- A user's next `sig_ref` is at least every change of the user. -/
theorem le_expectedSigRef (before : List ChangelogEntry) (entry : ChangelogEntry)
    (after : List ChangelogEntry) :
    before.length + 1 ≤ expectedSigRef (before ++ entry :: after) entry.uid := by
  have hLe := le_lastChangeOf after.reverse entry before.reverse
  rw [length_reverse] at hLe
  unfold expectedSigRef
  rw [reverse_append, reverse_cons, append_assoc]
  exact hLe

theorem sigRef_eq_of_continuity {expected : Nat}
    (h : checkSigrefContinuity entry expected = .ok ()) : entry.sigRef = expected := by
  unfold checkSigrefContinuity at h
  by_contra hNe
  rw [if_pos hNe] at h
  cases h

theorem sigRefsChained_nil : SigRefsChained [] := by
  intro before entry after hSplit
  exact absurd hSplit.symm (append_ne_nil_of_right_ne_nil before (cons_ne_nil _ _))

theorem sigRefsChained_of_forall (h : ∀ i (_ : i < entries.length), checkSigrefContinuity entries[i]
    (expectedSigRef (entries.take i) entries[i].uid) = .ok ()) : SigRefsChained entries := by
  rintro before entry after rfl
  simpa using h before.length (by simp)

theorem sigRefsChained_concat (h : SigRefsChained entries)
    (hEntry : checkSigrefContinuity entry (expectedSigRef entries entry.uid) = .ok ()) :
    SigRefsChained (entries ++ [entry]) := by
  intro before e after hSplit
  rcases eq_nil_or_concat after with rfl | ⟨rest, last, rfl⟩
  · obtain ⟨rfl, hLast⟩ := append_inj' hSplit rfl
    cases hLast
    exact hEntry
  · rw [concat_eq_append, ← cons_append, ← append_assoc] at hSplit
    exact h before e rest (append_inj' hSplit rfl).1

end Run

/-! ## Frame -/

/-- No declared action cascades into the table. -/
def NoCascadeInto (codec : RuleCodec) (db : Db) (table : String) : Prop :=
  ∀ q a, FromDb codec db q a → DeclaredCascades (· ≠ table) q a

section Frame

variable {codec : RuleCodec} {start db : Db} {n : Nat} {entry : ChangelogEntry} {batch : Batch}
  {entries : List ChangelogEntry} {table : String}

/-- Actions are static, so no step adds a cascade. -/
theorem NoCascadeInto.applyBatch (h : NoCascadeInto codec db table)
    (hStep : Accepts codec n db entry batch) :
    NoCascadeInto codec (db.applyBatch batch) table := by
  intro q a hAnswer
  cases q with
  | read op => trivial
  | static key opName =>
    refine h (.static key opName) a ?_
    change loadStatic codec (db.applyBatch batch).reader opName key = .ok a at hAnswer
    change loadStatic codec db.reader opName key = .ok a
    rw [loadStatic_reader, getElem?_treeKey_of_dispatch hStep] at hAnswer
    rw [loadStatic_reader, hAnswer]

/-- A codec that decodes no action declares no cascade. -/
theorem noCascadeInto_noRules (db : Db) (table : String) : NoCascadeInto noRules db table := by
  intro q a hAnswer
  unfold DeclaredCascades
  split
  · rename_i tree name opName action
    change loadStatic noRules db.reader opName (.action tree name) = .ok (some action) at hAnswer
    rw [loadStatic_reader] at hAnswer
    simp only [decodeStatic, noRules] at hAnswer
    split at hAnswer
    · cases hAnswer
    · split at hAnswer <;> cases hAnswer
  · trivial

theorem Run.noCascadeInto (h : Run codec start entries db)
    (hStart : NoCascadeInto codec start table) : NoCascadeInto codec db table := by
  induction h with
  | nil => exact hStart
  | snoc _ hStep ih => exact ih.applyBatch hStep

/-- An accepted batch stays on the tables of its type. -/
theorem NoCascadeInto.touches (h : NoCascadeInto codec db table)
    (hStep : Accepts codec n db entry batch) :
    Touches (tablesOf (· ≠ table) entry) batch :=
  Prog.Returns.of_eval dispatch_touches (fun q a hAnswer => (h q a hAnswer).invoked) hStep

end Frame

end EncryptedSpaces.Ops
