import EncryptedSpaces.Acl.Rule
import EncryptedSpaces.Changelog.Types
import EncryptedSpaces.Lib.Prog
import Mathlib.Logic.Function.Basic

/-!
# How an operation verifier reads

A verifier is a program that asks for tree reads and for static metadata: the
schema lists, access rules and actions of a table.  Static metadata is read
through a cache that is shared by all operations of a verified sequence and
cleared after the operation types that may change what it holds.

The program does not know whether an answer came from the cache.
`eval_plain_of_run_cached` and `run_cached_of_eval_plain` say when it does not
matter: if every cached value is what a fresh read would give, a verifier
returns the same with and without the cache, and the cache stays that way.
-/

namespace EncryptedSpaces.Ops

open Encoding Changelog Acl Lib

/-- The seven maps of `StaticMetadataCacheState`, by the key of an entry. -/
inductive StaticKey where
  | schemaColumns (table : String)
  | schemaListColumns (table : String)
  | schemaIndexes (table : String)
  | aclRule (table op : String)
  | action (primaryTable name : String)
  | onlyViaActions (table op : String)
  | autoIncrement (table : String)
  deriving DecidableEq, Repr

/-- What the cache holds for a key. -/
@[reducible] def StaticKey.Val : StaticKey → Type
  | .schemaColumns _ | .schemaListColumns _ | .schemaIndexes _ => List String
  | .aclRule _ _ => Option AccessRule
  | .action _ _ => Option Action
  | .onlyViaActions _ _ => Option (List String)
  | .autoIncrement _ => Bool

/-- The tree key that a static value is loaded from. -/
def StaticKey.treeKey : StaticKey → Bytes
  | .schemaColumns table => schemaColumnsKey table
  | .schemaListColumns table => schemaListColumnsKey table
  | .schemaIndexes table => schemaIndexesKey table
  | .aclRule table op => aclRuleKey table op
  | .action primaryTable name => actionStorageKey primaryTable name
  | .onlyViaActions table op => aclOnlyViaActionsKey table op
  | .autoIncrement table => schemaIdModeKey table

/-- What a verifier may ask: a tree read, or a static value on behalf of the
operation named. -/
inductive Query where
  | read (op : ReadOp)
  | static (key : StaticKey) (opName : String)

@[reducible] def Answer : Query → Type
  | .read _ => ReadResult
  | .static key _ => key.Val

/-- Operation verifiers and their helpers. -/
abbrev OpM := Prog Query Answer ChangelogError

def ask (q : Query) : OpM (Answer q) := Prog.query q

/-- Read from the tree. -/
def read (op : ReadOp) : OpM ReadResult := ask (.read op)

/-- The value of the first pair found by a key read. -/
def readKey (key : Bytes) : OpM (Option Bytes) := do
  let results ← read (.key key)
  return results.head?.map (·.2)

def generic (msg : String) : ChangelogError := .generic msg
def keyMismatch (msg : String) : ChangelogError := .keyMismatch msg

/-- A pure step of a verifier. -/
def pureStep {α : Type} (x : Except ChangelogError α) : OpM α := Prog.lift x

/-- Fail unless `c` holds. -/
def require (c : Prop) [Decidable c] (e : ChangelogError) : OpM Unit := Prog.ensure c e

/-- Fail unless there is a value. -/
def orFail {α : Type} (x : Option α) (e : ChangelogError) : OpM α :=
  match x with
  | some a => .ret a
  | none => .fail e

/-! ## Static metadata -/

/-- `postcard::from_bytes` at the types of stored rules and actions. -/
structure RuleCodec where
  decodeRule : Bytes → Except String AccessRule
  decodeActionNames : Bytes → Except String (List String)
  decodeActionBody : Bytes → Except String ActionBody

/-- `decode_action_value`. -/
def decodeActionValue : Bytes → Except KeyError Bytes
  | [] => .error "action storage value is empty"
  | version :: body =>
    if version ≠ actionStorageVersion then
      .error s!"unsupported action storage version {version} (expected {actionStorageVersion})"
    else .ok body

/-- A column-name list; `missing` is what an absent key means. -/
def decodeNames (value : Option Bytes) (missing : Except ChangelogError (List String))
    (undecodable : String) : Except ChangelogError (List String) :=
  match value with
  | none => missing
  | some bytes =>
    match decodeColumnNames bytes with
    | some names => .ok names
    | none => .error (generic undecodable)

/-- The id-allocation mode: one byte, `0` for auto-increment. -/
def decodeIdMode (opName table : String) : Option Bytes → Except ChangelogError Bool
  | none => .error (generic s!"{opName}: id_mode for table '{table}' is missing")
  | some bytes =>
    if bytes = [0] then .ok true
    else if bytes = [1] then .ok false
    else
      .error (generic (s!"{opName}: id_mode for table '{table}' has {bytes.length} bytes / " ++
        s!"value {bytes}, expected a single byte 0 or 1"))

/-- The uncached part of `read_schema_columns`, `read_schema_list_columns`,
`read_schema_indexes`, `read_acl_rule`, `read_action`, `read_only_via_actions`
and `read_auto_increment`: the meaning of the bytes found under the key. -/
def decodeStatic (codec : RuleCodec) (opName : String) (key : StaticKey) (value : Option Bytes) :
    Except ChangelogError key.Val :=
  match key with
  | .schemaColumns table =>
    decodeNames value
      (.error (generic s!"{opName}: schema columns not found for table '{table}'"))
      s!"{opName}: failed to decode column names for table '{table}'"
  | .schemaListColumns table =>
    decodeNames value (.ok []) s!"failed to decode list column names for table '{table}'"
  | .schemaIndexes table =>
    decodeNames value (.ok []) s!"failed to decode index column names for table '{table}'"
  | .aclRule table op =>
    match value with
    | none => .ok none
    | some blob =>
      match codec.decodeRule blob with
      | .ok rule => .ok (some rule)
      | .error e => .error (generic s!"ACL rule for ({table}, {op}) deserialization failed: {e}")
  | .action _ name =>
    match value with
    | none => .ok none
    | some bytes =>
      match decodeActionValue bytes with
      | .error e => .error (generic s!"action '{name}': {e}")
      | .ok body =>
        match codec.decodeActionBody body with
        | .ok body => .ok (some (body.intoAction name))
        | .error e => .error (generic s!"action '{name}' deserialization failed: {e}")
  | .onlyViaActions table op =>
    match value with
    | none => .ok none
    | some bytes =>
      match codec.decodeActionNames bytes with
      | .ok names => .ok (some names)
      | .error e =>
        .error (generic s!"only_via_actions for ({table}, {op}) deserialization failed: {e}")
  | .autoIncrement table => decodeIdMode opName table value

def readSchemaColumns (table opName : String) : OpM (List String) :=
  ask (.static (.schemaColumns table) opName)

def readSchemaListColumns (table : String) : OpM (List String) :=
  ask (.static (.schemaListColumns table) "")

def readSchemaIndexes (table : String) : OpM (List String) :=
  ask (.static (.schemaIndexes table) "")

def readAclRule (table op : String) : OpM (Option AccessRule) :=
  ask (.static (.aclRule table op) "")

def readAction (primaryTable name : String) : OpM (Option Action) :=
  ask (.static (.action primaryTable name) "")

def readOnlyViaActions (table op : String) : OpM (Option (List String)) :=
  ask (.static (.onlyViaActions table op) "")

def readAutoIncrement (table opName : String) : OpM Bool :=
  ask (.static (.autoIncrement table) opName)

/-! ## Answering -/

/-- An `OpReader`: the tree as a verifier sees it. -/
abbrev Reader := ReadOp → Except ChangelogError ReadResult

variable (codec : RuleCodec) (reader : Reader)

/-- Load a static value from the tree. -/
def loadStatic (opName : String) (key : StaticKey) : Except ChangelogError key.Val :=
  match reader (.key key.treeKey) with
  | .ok results => decodeStatic codec opName key (results.head?.map (·.2))
  | .error e => .error e

/-- Answer every question from the tree. -/
def plain : (q : Query) → Except ChangelogError (Answer q)
  | .read op => reader op
  | .static key opName => loadStatic codec reader opName key

/-- `StaticMetadataCacheState`. -/
abbrev Cache := (key : StaticKey) → Option key.Val

def Cache.empty : Cache := fun _ => none

/-- Answer static questions from the cache where possible, and remember what was
loaded. -/
def cached : (q : Query) → Cache → Except ChangelogError (Answer q × Cache)
  | .read op, cache =>
    match reader op with
    | .ok results => .ok (results, cache)
    | .error e => .error e
  | .static key opName, cache =>
    match cache key with
    | some v => .ok (v, cache)
    | none =>
      match loadStatic codec reader opName key with
      | .ok v => .ok (v, Function.update cache key (some v))
      | .error e => .error e

/-- Every cached value is what the tree holds now. -/
def Cache.Coherent (cache : Cache) : Prop :=
  ∀ key v, cache key = some v → ∀ opName, loadStatic codec reader opName key = .ok v

variable {codec reader}

variable {opName : String} {key : StaticKey} {cache : Cache}

/-- The operation name only shows in error texts. -/
theorem decodeStatic_opName {opName' : String} {value : Option Bytes} {v : key.Val}
    (h : decodeStatic codec opName key value = .ok v) :
    decodeStatic codec opName' key value = .ok v := by
  cases key with
  | schemaColumns table =>
    unfold decodeStatic decodeNames at h ⊢
    cases value with
    | none => cases h
    | some bytes =>
      cases hNames : decodeColumnNames bytes with
      | none => simp [hNames] at h
      | some names => simpa [hNames] using h
  | autoIncrement table =>
    unfold decodeStatic decodeIdMode at h ⊢
    cases value with
    | none => cases h
    | some bytes =>
      dsimp only at h ⊢
      split at h
      · rwa [if_pos (by assumption)]
      · rw [if_neg (by assumption)]
        split at h
        · rwa [if_pos (by assumption)]
        · cases h
  | schemaListColumns table | schemaIndexes table | aclRule table op | action table name
  | onlyViaActions table op => exact h

theorem loadStatic_opName {opName' : String} {v : key.Val}
    (h : loadStatic codec reader opName key = .ok v) :
    loadStatic codec reader opName' key = .ok v := by
  unfold loadStatic at h ⊢
  cases hRead : reader (.key key.treeKey) with
  | ok results =>
    rw [hRead] at h
    exact decodeStatic_opName h
  | error e =>
    rw [hRead] at h
    cases h

theorem Cache.coherent_empty : Cache.Coherent codec reader Cache.empty := by
  intro key v h
  cases h

theorem Cache.Coherent.update (hCoh : cache.Coherent codec reader) {v : key.Val}
    (hLoad : loadStatic codec reader opName key = .ok v) :
    Cache.Coherent codec reader (Function.update cache key (some v)) := by
  intro key' v' h opName'
  by_cases hKey : key' = key
  · subst hKey
    rw [Function.update_self, Option.some.injEq] at h
    subst h
    exact loadStatic_opName hLoad
  · rw [Function.update_of_ne hKey] at h
    exact hCoh key' v' h opName'

/-- One question: a coherent cache answers as the tree does and stays coherent. -/
theorem Cache.Coherent.answer (hCoh : cache.Coherent codec reader) {q : Query} {a : Answer q}
    {cache' : Cache} (h : cached codec reader q cache = .ok (a, cache')) :
    plain codec reader q = .ok a ∧ cache'.Coherent codec reader := by
  cases q with
  | read op =>
    cases hRead : reader op with
    | ok results =>
      simp only [cached, hRead] at h
      cases h
      exact ⟨hRead, hCoh⟩
    | error e =>
      simp only [cached, hRead] at h
      cases h
  | static key opName =>
    cases hHit : cache key with
    | some v =>
      simp only [cached, hHit] at h
      cases h
      exact ⟨hCoh key a hHit opName, hCoh⟩
    | none =>
      cases hLoad : loadStatic codec reader opName key with
      | ok v =>
        simp only [cached, hHit, hLoad] at h
        cases h
        exact ⟨hLoad, hCoh.update hLoad⟩
      | error e =>
        simp only [cached, hHit, hLoad] at h
        cases h

/-- A question the tree answers is answered through a coherent cache. -/
theorem Cache.Coherent.exists_answer (hCoh : cache.Coherent codec reader) {q : Query}
    {a : Answer q} (h : plain codec reader q = .ok a) :
    ∃ cache', cached codec reader q cache = .ok (a, cache') := by
  cases q with
  | read op =>
    have hRead : reader op = .ok a := h
    exact ⟨cache, by simp only [cached, hRead]⟩
  | static key opName =>
    have hLoad : loadStatic codec reader opName key = .ok a := h
    cases hHit : cache key with
    | some v =>
      have hSame := hCoh key v hHit opName
      rw [hLoad, Except.ok.injEq] at hSame
      subst hSame
      exact ⟨cache, by simp only [cached, hHit]⟩
    | none =>
      exact ⟨Function.update cache key (some a), by simp only [cached, hHit, hLoad]⟩

variable {α : Type}

/-- What a verifier returns through a coherent cache it returns without one. -/
theorem eval_plain_of_run_cached {p : OpM α} {cache' : Cache} {a : α}
    (hCoh : cache.Coherent codec reader) (h : p.run (cached codec reader) cache = .ok (a, cache')) :
    p.eval (plain codec reader) = .ok a ∧ cache'.Coherent codec reader := by
  induction p generalizing cache with
  | ret b =>
    cases h
    exact ⟨rfl, hCoh⟩
  | fail e => cases h
  | ask q next ih =>
    rw [Prog.run] at h
    cases hq : cached codec reader q cache with
    | ok r =>
      obtain ⟨b, cache₁⟩ := r
      obtain ⟨hPlain, hCoh₁⟩ := hCoh.answer hq
      rw [hq] at h
      obtain ⟨hEval, hCoh'⟩ := ih b hCoh₁ h
      rw [Prog.eval, hPlain]
      exact ⟨hEval, hCoh'⟩
    | error e =>
      rw [hq] at h
      cases h

/-- What a verifier returns without a cache it returns through a coherent one. -/
theorem run_cached_of_eval_plain {p : OpM α} {a : α} (hCoh : cache.Coherent codec reader)
    (h : p.eval (plain codec reader) = .ok a) :
    ∃ cache', p.run (cached codec reader) cache = .ok (a, cache') := by
  induction p generalizing cache with
  | ret b =>
    cases h
    exact ⟨cache, rfl⟩
  | fail e => cases h
  | ask q next ih =>
    rw [Prog.eval] at h
    cases hq : plain codec reader q with
    | ok b =>
      rw [hq] at h
      obtain ⟨cache₁, hCached⟩ := hCoh.exists_answer hq
      obtain ⟨cache', hRun⟩ := ih b (hCoh.answer hCached).2 h
      exact ⟨cache', by rw [Prog.run, hCached]; exact hRun⟩
    | error e =>
      rw [hq] at h
      cases h

end EncryptedSpaces.Ops
