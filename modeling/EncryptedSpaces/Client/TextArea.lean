import EncryptedSpaces.Client.State
import EncryptedSpaces.Lib.Outcome
import Mathlib.Data.List.Induction

/-!
# Text areas

A text area keeps a document in a list of chunks of at most sixteen characters, and
mirrors the list in a local view.  An edit finds its chunk in the view, sends list
operations one by one, and brings the view up to date.

While the list operations succeed, a text area is a string.  A list operation may also
fail, and ends the edit then.  Deletes bring the view up to date after each operation;
an insertion that needs several chunks does so at the end only, and leaves a view that
does not show what its first operations stored.
-/

namespace EncryptedSpaces.Client

open Lib List

/-! ## Model -/

/-- `MAX_CHUNK_SIZE`. -/
def maxChunkSize : Nat := 16

abbrev Text := List Char

/-- The chunks of a document by their list keys. -/
abbrev Chunks := List (Nat × Text)

/-- The stored list and its next key, and the local view of it.  `calls` counts the list
operations that were sent. -/
structure TextArea where
  list : Chunks
  nextKey : Nat
  view : Chunks
  initialized : Bool
  calls : Nat
  deriving DecidableEq, Repr

abbrev EditM := EStateM SdkError TextArea

def totalChars (view : Chunks) : Nat := (view.map fun chunk => chunk.2.length).sum

/-- Index and offset of a position, or how many characters it is behind the end. -/
def locate (i remaining : Nat) : Chunks → (Nat × Nat) ⊕ Nat
  | [] => .inr remaining
  | (_, text) :: view =>
    if remaining < text.length then .inl (i, remaining)
    else locate (i + 1) (remaining - text.length) view

def resolvePosition (view : Chunks) (pos : Nat) : Except SdkError (Nat × Nat) :=
  match locate 0 pos view, view.getLast? with
  | .inl found, _ => .ok found
  | .inr 0, none => .ok (0, 0)
  | .inr 0, some last => .ok (view.length - 1, last.2.length)
  | .inr _, _ => .error .notFound

def splitTextIntoChunks (text : Text) : List Text :=
  (List.range ((text.length + (maxChunkSize - 1)) / maxChunkSize)).map fun i =>
    (text.drop (maxChunkSize * i)).take maxChunkSize

/-- The chunk of a key gives way to others. -/
def onKey (key : Nat) (f : Text → Chunks) (list : Chunks) : Chunks :=
  list.flatMap fun chunk => if chunk.1 = key then f chunk.2 else [chunk]

section Operations

-- `fails n`: the list operation with the number `n` fails, and changes nothing
variable (fails : Nat → Bool)

def attempt : EditM Unit := do
  let st ← get
  set { st with calls := st.calls + 1 }
  if fails st.calls then throw (.databaseError "list operation failed")

def listAppend (text : Text) : EditM Nat := do
  attempt fails
  let st ← get
  set { st with list := st.list ++ [(st.nextKey, text)], nextKey := st.nextKey + 1 }
  return st.nextKey

/-- The list knows the key. -/
def editKey (key : Nat) (f : Text → Chunks) : EditM Unit := do
  attempt fails
  let st ← get
  if st.list.any (·.1 = key) then set { st with list := onKey key f st.list }
  else throw .notFound

def updateByKey (key : Nat) (text : Text) : EditM Unit := editKey fails key fun _ => [(key, text)]

def deleteByKey (key : Nat) : EditM Unit := editKey fails key fun _ => []

def insertAfterKey (key : Nat) (text : Text) : EditM Nat := do
  let new := (← get).nextKey
  editKey fails key fun old => [(key, old), (new, text)]
  modify fun st => { st with nextKey := new + 1 }
  return new

/-- `get_all` into the view. -/
def sync : EditM Unit := do
  attempt fails
  modify fun st => { st with view := st.list, initialized := true }

def ensureInitialized : EditM Unit := do
  if (← get).initialized then return () else sync fails

def modifyView (f : Chunks → Chunks) : EditM Unit := modify fun st => { st with view := f st.view }

def setText (i : Nat) (text : Text) (view : Chunks) : Chunks :=
  view.modify i fun chunk => (chunk.1, text)

/-- Indexing past the end is a panic. -/
def chunkAt (i : Nat) : EditM (Nat × Text) := do
  match (← get).view[i]? with
  | some chunk => return chunk
  | none => throw (.aborted "index out of bounds")

def resolve (pos : Nat) : EditM (Nat × Nat) := do
  match resolvePosition (← get).view pos with
  | .ok found => return found
  | .error e => throw e

def ensureRange (p : Chunks → Bool) : EditM Unit := do
  if p (← get).view then return () else throw .notFound

/-- Store what is left of a chunk; a chunk of which nothing is left is deleted. -/
def storeRemaining (i key : Nat) (text : Text) : EditM Unit :=
  if text = [] then do
    deleteByKey fails key
    modifyView (·.eraseIdx i)
  else do
    updateByKey fails key text
    modifyView (setText i text)

/-- The chunks after the first, each behind the one before. -/
def insertRest (lastKey : Nat) : List Text → EditM Chunks
  | [] => return []
  | text :: texts => do
      let key ← insertAfterKey fails lastKey text
      let entries ← insertRest key texts
      return (key, text) :: entries

/-- The first chunk is stored by `first`, the view changes at the end. -/
def storeChunks (texts : List Text) (first : Text → EditM Nat) (place : Chunks → Chunks → Chunks) :
    EditM Unit :=
  match texts with
  | [] => throw (.aborted "index out of bounds")
  | text :: texts => do
      let key ← first text
      let entries ← insertRest fails key texts
      modifyView (place ((key, text) :: entries))

def insertString (pos : Nat) (s : Text) : EditM Unit :=
  if s = [] then return ()
  else do
    ensureInitialized fails
    ensureRange (pos ≤ totalChars ·)
    if (← get).view = [] then
      storeChunks fails (splitTextIntoChunks s) (listAppend fails) fun entries _ => entries
    else do
      let (i, offset) ← resolve pos
      let (key, text) ← chunkAt i
      let newText := text.take offset ++ s ++ text.drop offset
      if newText.length ≤ maxChunkSize then do
        updateByKey fails key newText
        modifyView (setText i newText)
      else
        storeChunks fails (splitTextIntoChunks newText)
          (fun first => do updateByKey fails key first; return key)
          fun entries view => view.take i ++ entries ++ view.drop (i + 1)

def insert (pos : Nat) (ch : Char) : EditM Unit := insertString fails pos [ch]

def append (ch : Char) : EditM Unit := do
  ensureInitialized fails
  let view := (← get).view
  match view.getLast? with
  | none => do
      let key ← listAppend fails [ch]
      modifyView (· ++ [(key, [ch])])
  | some (key, text) =>
    let newText := text ++ [ch]
    if newText.length ≤ maxChunkSize then do
      updateByKey fails key newText
      modifyView (setText (view.length - 1) newText)
    else do
      let first := newText.take maxChunkSize
      let second := newText.drop maxChunkSize
      updateByKey fails key first
      let newKey ← insertAfterKey fails key second
      modifyView fun view => setText (view.length - 1) first view ++ [(newKey, second)]

def len : EditM Nat := do
  ensureInitialized fails
  return totalChars (← get).view

def appendString (s : Text) : EditM Unit :=
  if s = [] then return ()
  else do
    let len ← len fails
    insertString fails len s

def delete (pos : Nat) : EditM Unit := do
  ensureInitialized fails
  ensureRange (pos < totalChars ·)
  let (i, offset) ← resolve pos
  let (key, text) ← chunkAt i
  storeRemaining fails i key (text.eraseIdx offset)

/-- The chunks between, from the last to the first. -/
def deleteBetween (start : Nat) : Nat → EditM Unit
  | 0 => return ()
  | n + 1 => do
      let (key, _) ← chunkAt (start + 1 + n)
      deleteByKey fails key
      modifyView (·.eraseIdx (start + 1 + n))
      deleteBetween start n

def deleteRange (start stop : Nat) : EditM Unit := do
  ensureInitialized fails
  ensureRange fun view => start ≤ stop ∧ stop ≤ totalChars view
  if start = stop then return ()
  else do
    let (startChunk, startOffset) ← resolve start
    let (endChunk, endLast) ← resolve (stop - 1)
    let (endKey, endText) ← chunkAt endChunk
    if startChunk = endChunk then
      storeRemaining fails endChunk endKey (endText.take startOffset ++ endText.drop (endLast + 1))
    else do
      storeRemaining fails endChunk endKey (endText.drop (endLast + 1))
      deleteBetween fails startChunk (endChunk - (startChunk + 1))
      let (startKey, startText) ← chunkAt startChunk
      storeRemaining fails startChunk startKey (startText.take startOffset)

def replace (pos : Nat) (ch : Char) : EditM Unit := do
  ensureInitialized fails
  ensureRange (pos < totalChars ·)
  let (i, offset) ← resolve pos
  let (key, text) ← chunkAt i
  let newText := text.set offset ch
  updateByKey fails key newText
  modifyView (setText i newText)

/-! ### Reads -/

def snapshot : EditM Text := do
  ensureInitialized fails
  return (← get).view.flatMap Prod.snd

def charAt (pos : Nat) : EditM Char := do
  ensureInitialized fails
  ensureRange (pos < totalChars ·)
  let (i, offset) ← resolve pos
  let (_, text) ← chunkAt i
  match text[offset]? with
  | some ch => return ch
  | none => throw .notFound

def rangeFrom (start stop pos : Nat) : Chunks → Text
  | [] => []
  | (_, text) :: view =>
    let chunkEnd := pos + text.length
    if chunkEnd ≤ start then rangeFrom start stop chunkEnd view
    else if stop ≤ pos then []
    else (text.drop (start - pos)).take (min stop chunkEnd - max start pos) ++
      rangeFrom start stop chunkEnd view

def textRange (start stop : Nat) : EditM Text := do
  ensureInitialized fails
  ensureRange fun view => start ≤ stop ∧ stop ≤ totalChars view
  return rangeFrom start stop 0 (← get).view

end Operations

/-! ## Positions -/

def text (chunks : Chunks) : Text := chunks.flatMap Prod.snd

@[simp] theorem text_nil : text [] = [] := rfl

@[simp] theorem text_cons (chunk : Nat × Text) (chunks : Chunks) :
    text (chunk :: chunks) = chunk.2 ++ text chunks := rfl

@[simp] theorem text_append (a b : Chunks) : text (a ++ b) = text a ++ text b :=
  flatMap_append

theorem totalChars_eq (chunks : Chunks) : totalChars chunks = (text chunks).length := by
  unfold totalChars text
  rw [length_flatMap]

variable {chunks : Chunks} {pos : Nat}

theorem locate_of_lt (h : pos < (text chunks).length) (i : Nat) :
    ∃ a key t b offset, chunks = a ++ (key, t) :: b ∧ offset < t.length ∧
      (text a).length + offset = pos ∧ locate i pos chunks = .inl (i + a.length, offset) := by
  induction chunks generalizing pos i with
  | nil => simp at h
  | cons chunk chunks ih =>
    obtain ⟨key, t⟩ := chunk
    unfold locate
    split_ifs with hHere
    · exact ⟨[], key, t, chunks, pos, rfl, hHere, by simp, by simp⟩
    · rw [text_cons, length_append] at h
      have hRest : pos - t.length < (text chunks).length := by
        dsimp only at h
        omega
      obtain ⟨a, key', t', b, offset, rfl, hOffset, hPos, hLocate⟩ := ih hRest (i + 1)
      refine ⟨(key, t) :: a, key', t', b, offset, rfl, hOffset, ?_, ?_⟩
      · simp only [text_cons, length_append]
        omega
      · rw [hLocate, length_cons]
        congr 2
        omega

theorem locate_of_ge (h : (text chunks).length ≤ pos) (i : Nat) :
    locate i pos chunks = .inr (pos - (text chunks).length) := by
  induction chunks generalizing pos i with
  | nil => rfl
  | cons chunk chunks ih =>
    rw [text_cons, length_append] at h ⊢
    unfold locate
    rw [if_neg (by omega), ih (by omega)]
    congr 1
    omega

/-- The position is in the chunk, or right behind it. -/
structure Found (chunks : Chunks) (pos : Nat) (a : Chunks) (key : Nat) (t : Text) (b : Chunks)
    (offset : Nat) : Prop where
  split : chunks = a ++ (key, t) :: b
  offset_le : offset ≤ t.length
  position : (text a).length + offset = pos
  resolved : resolvePosition chunks pos = .ok (a.length, offset)

theorem exists_found_of_lt (h : pos < (text chunks).length) :
    ∃ a key t b offset, Found chunks pos a key t b offset ∧ offset < t.length := by
  obtain ⟨a, key, t, b, offset, hSplit, hOffset, hPos, hLocate⟩ := locate_of_lt h 0
  refine ⟨a, key, t, b, offset, ⟨hSplit, hOffset.le, hPos, ?_⟩, hOffset⟩
  unfold resolvePosition
  rw [hLocate, Nat.zero_add]

theorem exists_found (hSome : chunks ≠ []) (h : pos ≤ (text chunks).length) :
    ∃ a key t b offset, Found chunks pos a key t b offset := by
  rcases h.lt_or_eq with hLt | hEq
  · obtain ⟨a, key, t, b, offset, hFound, _⟩ := exists_found_of_lt hLt
    exact ⟨a, key, t, b, offset, hFound⟩
  · obtain ⟨a, ⟨key, t⟩, rfl⟩ := (eq_nil_or_concat chunks).resolve_left hSome
    rw [concat_eq_append] at *
    refine ⟨a, key, t, [], t.length, rfl, le_rfl, ?_, ?_⟩
    · rw [hEq]
      simp
    · unfold resolvePosition
      rw [locate_of_ge hEq.ge, hEq, Nat.sub_self]
      simp

section Found

variable {chunks a b : Chunks} {pos key offset : Nat} {t : Text}

theorem Found.text_eq (h : Found chunks pos a key t b offset) :
    text chunks = text a ++ (t ++ text b) := by
  rw [h.split, text_append, text_cons]

theorem Found.take (h : Found chunks pos a key t b offset) :
    (text chunks).take pos = text a ++ t.take offset := by
  rw [h.text_eq, ← h.position, take_length_add_append, take_append_of_le_length h.offset_le]

theorem Found.drop (h : Found chunks pos a key t b offset) :
    (text chunks).drop pos = t.drop offset ++ text b := by
  rw [h.text_eq, ← h.position, drop_length_add_append, drop_append_of_le_length h.offset_le]

theorem Found.drop_succ (h : Found chunks pos a key t b offset) (hLt : offset < t.length) :
    (text chunks).drop (pos + 1) = t.drop (offset + 1) ++ text b := by
  rw [h.text_eq, ← h.position, Nat.add_assoc, drop_length_add_append,
    drop_append_of_le_length hLt]

end Found

/-! ## Chunks of a text -/

theorem splitTextIntoChunks_cons {s : Text} (h : s ≠ []) :
    splitTextIntoChunks s = s.take maxChunkSize :: splitTextIntoChunks (s.drop maxChunkSize) := by
  have hPos := length_pos_of_ne_nil h
  have hCount : (s.length + (maxChunkSize - 1)) / maxChunkSize =
      ((s.drop maxChunkSize).length + (maxChunkSize - 1)) / maxChunkSize + 1 := by
    rw [length_drop]
    unfold maxChunkSize
    omega
  unfold splitTextIntoChunks
  rw [hCount, range_succ_eq_map, map_cons, map_map]
  congr 1
  refine map_congr_left fun i _ => ?_
  rw [drop_drop, Function.comp_apply, Nat.mul_succ, Nat.add_comm]

theorem splitTextIntoChunks_spec (s : Text) :
    (splitTextIntoChunks s).flatten = s ∧
      ∀ piece ∈ splitTextIntoChunks s, piece ≠ [] ∧ piece.length ≤ maxChunkSize := by
  induction hLength : s.length using Nat.strong_induction_on generalizing s with
  | _ n ih =>
    by_cases hNil : s = []
    · subst hNil
      exact ⟨rfl, fun piece hPiece => absurd hPiece not_mem_nil⟩
    · have hPos := length_pos_of_ne_nil hNil
      have hShorter : (s.drop maxChunkSize).length < n := by
        rw [length_drop]
        unfold maxChunkSize
        omega
      obtain ⟨hFlatten, hPieces⟩ := ih _ hShorter _ rfl
      rw [splitTextIntoChunks_cons hNil]
      refine ⟨by rw [flatten_cons, hFlatten, take_append_drop], fun piece hPiece => ?_⟩
      rcases mem_cons.mp hPiece with rfl | hPiece
      · refine ⟨fun hTake => hNil ?_, length_take_le _ _⟩
        exact (take_eq_nil_iff.mp hTake).resolve_left (by decide)
      · exact hPieces piece hPiece

/-! ## The list and the view -/

/-- The list has these chunks, under distinct keys that it will not give again. -/
structure Stored (st : TextArea) (chunks : Chunks) : Prop where
  list : st.list = chunks
  nodup : (chunks.map Prod.fst).Nodup
  fresh : ∀ chunk ∈ chunks, chunk.1 < st.nextKey

/-- The view, once fetched, is the list; chunks are neither empty nor too long. -/
structure Holds (st : TextArea) (chunks : Chunks) : Prop extends Stored st chunks where
  view : st.initialized = true → st.view = chunks
  sized : ∀ chunk ∈ chunks, chunk.2 ≠ [] ∧ chunk.2.length ≤ maxChunkSize

/-- The view has been fetched. -/
structure Loaded (st : TextArea) (chunks : Chunks) : Prop extends Holds st chunks where
  initialized : st.initialized = true

section Steps

variable {fails : Nat → Bool} {st : TextArea} {a b chunks : Chunks} {key : Nat} {t : Text}

/-- Only the count of the list operations differs. -/
def TextArea.tick (st : TextArea) : TextArea := { st with calls := st.calls + 1 }

theorem Loaded.view_eq (h : Loaded st chunks) : st.view = chunks := h.view h.initialized

theorem Loaded.tick (h : Loaded st chunks) : Loaded st.tick chunks :=
  ⟨⟨⟨h.list, h.nodup, h.fresh⟩, h.view, h.sized⟩, h.initialized⟩

theorem attempt_run : (attempt fails).run st =
    if fails st.calls then .error (.databaseError "list operation failed") st.tick
    else .ok () st.tick := by
  show (if fails st.calls then throw _ else pure () : EditM Unit).run st.tick = _
  split <;> rfl

theorem run_of_attempt {α : Type} {x : EditM Unit} {f : Unit → EditM α} {e : SdkError} {r : α}
    {st₁ st' : TextArea} (hx : x.run st = if fails st.calls then .error e st.tick else .ok () st₁)
    (hf : (f ()).run st₁ = .ok r st') :
    (x >>= f).run st = if fails st.calls then .error e st.tick else .ok r st' := by
  rw [run_bind, hx, ← hf]
  cases fails st.calls <;> rfl

theorem onKey_split {f : Text → Chunks} (h : ((a ++ (key, t) :: b).map Prod.fst).Nodup) :
    onKey key f (a ++ (key, t) :: b) = a ++ f t ++ b := by
  rw [map_append, map_cons, nodup_append, nodup_cons] at h
  have hOther : ∀ c : Chunks, (∀ chunk ∈ c, chunk.1 ≠ key) → onKey key f c = c := by
    intro c hc
    unfold onKey
    rw [flatMap_congr (g := fun chunk => [chunk]) fun chunk hMem => if_neg (hc chunk hMem)]
    simp
  have hA : ∀ chunk ∈ a, chunk.1 ≠ key := fun chunk hMem =>
    h.2.2 _ (mem_map_of_mem hMem) _ mem_cons_self
  have hB : ∀ chunk ∈ b, chunk.1 ≠ key := by
    intro chunk hMem hEq
    exact h.2.1.1 (mem_map.mpr ⟨chunk, hMem, hEq⟩)
  unfold onKey at hOther ⊢
  rw [flatMap_append, flatMap_cons, hOther a hA, hOther b hB, if_pos rfl, append_assoc]

/-- An operation on a stored key is done, or fails and changes nothing. -/
theorem editKey_run {f : Text → Chunks} (h : Stored st (a ++ (key, t) :: b)) :
    (editKey fails key f).run st =
      if fails st.calls then .error (.databaseError "list operation failed") st.tick
      else .ok () { st.tick with list := a ++ f t ++ b } := by
  have hAny : st.list.any (·.1 = key) = true := by
    rw [h.list]
    simp
  refine run_of_attempt attempt_run ?_
  show (if st.list.any (·.1 = key) then set _ else throw _ : EditM Unit).run st.tick = _
  rw [if_pos hAny, show st.tick.list = _ from h.list, onKey_split h.nodup]
  rfl

/-- A list operation has failed. -/
def Fails (fails : Nat → Bool) : Prop := ∃ n, fails n = true

/-- A list operation on a chunk, and then the same change of the view. -/
theorem paired_outcome {n : Chunks} {g : Chunks → Chunks} (h : Loaded st (a ++ (key, t) :: b))
    (hKeys : (n.map Prod.fst).Sublist [key])
    (hSized : ∀ chunk ∈ n, chunk.2 ≠ [] ∧ chunk.2.length ≤ maxChunkSize)
    (hView : g (a ++ (key, t) :: b) = a ++ n ++ b) :
    Outcome (do editKey fails key fun _ => n; modifyView g) st
      (fun _ st' => Loaded st' (a ++ n ++ b))
      fun _ st' => Fails fails ∧ Loaded st' (a ++ (key, t) :: b) := by
  have hSub : ((a ++ n ++ b).map Prod.fst).Sublist ((a ++ (key, t) :: b).map Prod.fst) := by
    simp only [map_append, map_cons, append_assoc]
    exact (List.Sublist.refl _).append (hKeys.append (List.Sublist.refl (b.map Prod.fst)))
  have hRun : (editKey fails key fun _ => n).run st = _ := editKey_run h.toStored
  refine Outcome.bind (Q := fun _ st' => st' = { st.tick with list := a ++ n ++ b }) ?_ ?_
  · unfold Outcome
    rw [hRun]
    by_cases hFails : fails st.calls = true
    · rw [if_pos hFails]
      exact ⟨⟨_, hFails⟩, h.tick⟩
    · rw [if_neg hFails]
  · rintro _ _ rfl
    refine ⟨⟨⟨rfl, h.nodup.sublist hSub, fun chunk hMem => ?_⟩, fun _ => ?_, fun chunk hMem => ?_⟩,
      h.initialized⟩
    · obtain ⟨old, hOld, hEq⟩ := mem_map.mp (hSub.subset (mem_map_of_mem hMem))
      rw [← hEq]
      exact h.fresh old hOld
    · show g st.view = _
      rw [h.view_eq, hView]
    · rcases mem_append.mp hMem with hMem | hMem
      · rcases mem_append.mp hMem with hMem | hMem
        · exact h.sized chunk (mem_append_left _ hMem)
        · exact hSized chunk hMem
      · exact h.sized chunk (mem_append_right _ (mem_cons_of_mem _ hMem))

theorem setText_split (text' : Text) :
    setText a.length text' (a ++ (key, t) :: b) = a ++ [(key, text')] ++ b := by
  unfold setText
  induction a with
  | nil => rfl
  | cons c a ih =>
    rw [cons_append, length_cons, modify_succ_cons, ih]
    rfl

variable {text' : Text}

theorem updateBoth_outcome (h : Loaded st (a ++ (key, t) :: b)) (hSome : text' ≠ [])
    (hLe : text'.length ≤ maxChunkSize) :
    Outcome (do updateByKey fails key text'; modifyView (setText a.length text')) st
      (fun _ st' => Loaded st' (a ++ [(key, text')] ++ b))
      fun _ st' => Fails fails ∧ Loaded st' (a ++ (key, t) :: b) := by
  refine paired_outcome h (List.Sublist.refl _) ?_ (setText_split text')
  rintro chunk hMem
  rw [mem_singleton.mp hMem]
  exact ⟨hSome, hLe⟩

/-- What is left of a chunk. -/
def remaining (key : Nat) (text : Text) : Chunks := if text = [] then [] else [(key, text)]

@[simp] theorem text_remaining (key : Nat) (s : Text) : text (remaining key s) = s := by
  unfold remaining
  split
  · rename_i hNil
    rw [hNil]
    rfl
  · simp

theorem storeRemaining_outcome (h : Loaded st (a ++ (key, t) :: b))
    (hLe : text'.length ≤ maxChunkSize) :
    Outcome (storeRemaining fails a.length key text') st
      (fun _ st' => Loaded st' (a ++ remaining key text' ++ b))
      fun _ st' => Fails fails ∧ Loaded st' (a ++ (key, t) :: b) := by
  unfold storeRemaining remaining
  by_cases hNil : text' = []
  · rw [if_pos hNil, if_pos hNil]
    refine paired_outcome h (nil_sublist _) (by simp) ?_
    rw [eraseIdx_append_of_length_le (le_refl _), Nat.sub_self]
    simp
  · rw [if_neg hNil, if_neg hNil]
    exact updateBoth_outcome h hNil hLe

theorem chunkAt_run (h : Loaded st (a ++ (key, t) :: b)) :
    (chunkAt a.length).run st = .ok (key, t) st := by
  have hGet : st.view[a.length]? = some (key, t) := by
    rw [h.view_eq, getElem?_append_right (le_refl _), Nat.sub_self]
    rfl
  show (match st.view[a.length]? with
    | some chunk => pure chunk
    | none => throw _ : EditM (Nat × Text)).run st = _
  rw [hGet]
  rfl

theorem resolve_run {pos offset : Nat} (h : Loaded st chunks)
    (hFound : Found chunks pos a key t b offset) :
    (resolve pos).run st = .ok (a.length, offset) st := by
  have hResolved := hFound.resolved
  show (match resolvePosition st.view pos with
    | .ok found => pure found
    | .error e => throw e : EditM (Nat × Nat)).run st = _
  rw [h.view_eq, hResolved]
  rfl

theorem ensureRange_run {p : Chunks → Bool} (h : Loaded st chunks) :
    (ensureRange p).run st = if p chunks then .ok () st else .error .notFound st := by
  show (if p st.view then pure () else throw _ : EditM Unit).run st = _
  rw [h.view_eq]
  split <;> rfl

theorem ensureInitialized_outcome (h : Holds st chunks) :
    Outcome (ensureInitialized fails) st (fun _ st' => Loaded st' chunks ∧
        st'.calls = (st.calls + if st.initialized then 0 else 1) ∧
        (st.initialized = false → fails st.calls = false))
      fun _ st' => st.initialized = false ∧ fails st.calls = true ∧ Holds st' chunks := by
  have hRun : (ensureInitialized fails).run st =
      (if st.initialized then pure () else sync fails : EditM Unit).run st := rfl
  unfold Outcome
  rw [hRun]
  by_cases hInit : st.initialized = true
  · rw [if_pos hInit, if_pos hInit]
    exact ⟨⟨h, hInit⟩, rfl, fun hNot => by rw [hInit] at hNot; cases hNot⟩
  · rw [if_neg hInit, if_neg hInit]
    unfold sync
    rw [run_bind, attempt_run]
    split_ifs with hFails
    · exact ⟨eq_false_of_ne_true hInit, hFails, ⟨h.list, h.nodup, h.fresh⟩, h.view, h.sized⟩
    · exact ⟨⟨⟨⟨h.list, h.nodup, h.fresh⟩, fun _ => h.list, h.sized⟩, rfl⟩, rfl,
        fun _ => eq_false_of_ne_true hFails⟩

/-- The list has changed, and the view not yet. -/
structure Unseen (st st' : TextArea) (chunks : Chunks) : Prop extends Stored st' chunks where
  view : st'.view = st.view
  initialized : st'.initialized = st.initialized

/-- One list operation, which returns `result` and makes the list these chunks. -/
def Stores {α : Type} (fails : Nat → Bool) (x : EditM α) (st : TextArea) (result : α)
    (chunks : Chunks) : Prop :=
  Outcome x st (fun r st' => r = result ∧ fails st.calls = false ∧ Unseen st st' chunks ∧
    st'.calls = st.calls + 1) fun _ st' => fails st.calls = true ∧ st' = st.tick

theorem stores_of_run {α : Type} {x : EditM α} {r : α} {e : SdkError} {st' : TextArea}
    (hRun : x.run st = if fails st.calls then .error e st.tick else .ok r st')
    (hCalls : st'.calls = st.calls + 1) (h : Unseen st st' chunks) :
    Stores fails x st r chunks := by
  unfold Stores Outcome
  rw [hRun]
  split_ifs with hFails
  · exact ⟨hFails, rfl⟩
  · exact ⟨rfl, eq_false_of_ne_true hFails, h, hCalls⟩

theorem updateByKey_outcome (h : Stored st (a ++ (key, t) :: b)) :
    Stores fails (updateByKey fails key text') st () (a ++ (key, text') :: b) := by
  refine stores_of_run (editKey_run h) rfl ⟨⟨?_, ?_, fun chunk hMem => ?_⟩, rfl, rfl⟩
  · exact append_assoc a _ b
  · simpa using h.nodup
  · rcases mem_append.mp hMem with hMem | hMem
    · exact h.fresh chunk (mem_append_left _ hMem)
    · rcases mem_cons.mp hMem with rfl | hMem
      · exact h.fresh (key, t) (mem_append_right _ mem_cons_self)
      · exact h.fresh chunk (mem_append_right _ (mem_cons_of_mem _ hMem))

/-- The first chunk of a document. -/
theorem listAppend_outcome (h : Stored st []) :
    Stores fails (listAppend fails text') st st.nextKey [(st.nextKey, text')] := by
  refine stores_of_run (run_of_attempt attempt_run rfl) rfl
    ⟨⟨?_, by simp, fun chunk hMem => ?_⟩, rfl, rfl⟩
  · show st.list ++ _ = _
    rw [h.list]
    rfl
  · rw [mem_singleton.mp hMem]
    exact Nat.lt_succ_self _

theorem insertAfterKey_outcome (h : Stored st (a ++ (key, t) :: b)) :
    Stores fails (insertAfterKey fails key text') st st.nextKey
      (a ++ (key, t) :: (st.nextKey, text') :: b) := by
  have hRun : (insertAfterKey fails key text').run st =
      ((editKey fails key fun old => [(key, old), (st.nextKey, text')]) >>= fun _ => do
        modify fun st' => { st' with nextKey := st.nextKey + 1 }
        return st.nextKey : EditM Nat).run st := rfl
  refine stores_of_run (hRun.trans (run_of_attempt (editKey_run h) rfl)) rfl
    ⟨⟨?_, ?_, fun chunk hMem => ?_⟩, rfl, rfl⟩
  · exact append_assoc a _ b
  · have hNew : st.nextKey ∉ (a ++ (key, t) :: b).map Prod.fst := by
      intro hMem
      obtain ⟨chunk, hChunk, hEq⟩ := mem_map.mp hMem
      exact absurd (h.fresh chunk hChunk) (by omega)
    have hPerm : ((a ++ (key, t) :: (st.nextKey, text') :: b).map Prod.fst).Perm
        (st.nextKey :: (a ++ (key, t) :: b).map Prod.fst) := by
      simp only [map_append, map_cons]
      exact (List.Perm.append_left _ (List.Perm.swap ..)).trans perm_middle
    exact hPerm.nodup_iff.mpr (nodup_cons.mpr ⟨hNew, h.nodup⟩)
  · show chunk.1 < st.nextKey + 1
    by_cases hOld : chunk ∈ a ++ (key, t) :: b
    · exact Nat.lt_succ_of_lt (h.fresh chunk hOld)
    · have hNew : chunk = (st.nextKey, text') := by
        simp only [mem_append, mem_cons] at hMem hOld
        tauto
      rw [hNew]
      exact Nat.lt_succ_self _

/-- All chunks are inserted, or a first part of them. -/
theorem insertRest_outcome {texts : List Text} (h : Stored st (a ++ (key, t) :: b)) :
    Outcome (insertRest fails key texts) st
      (fun entries st' => entries.map Prod.snd = texts ∧
        Unseen st st' (a ++ (key, t) :: (entries ++ b)))
      fun _ st' => Fails fails ∧ texts ≠ [] ∧ ∃ entries,
        Unseen st st' (a ++ (key, t) :: (entries ++ b)) ∧
          (entries = [] ↔ fails st.calls = true) := by
  induction texts generalizing st a key t with
  | nil => exact ⟨rfl, h, rfl, rfl⟩
  | cons text' texts ih =>
    refine Outcome.bind ((insertAfterKey_outcome h).mono (fun _ _ h => h) ?_)
      fun new st₁ ⟨hNew, hOk, hFirst, hCalls⟩ => ?_
    · rintro _ _ ⟨hFails, rfl⟩
      exact ⟨⟨_, hFails⟩, by simp, [], ⟨⟨h.list, h.nodup, h.fresh⟩, rfl, rfl⟩,
        iff_of_true rfl hFails⟩
    · rw [← hNew] at hFirst
      have hSplit : a ++ (key, t) :: (new, text') :: b =
          (a ++ [(key, t)]) ++ (new, text') :: b := by simp
      have hStored : Stored st₁ ((a ++ [(key, t)]) ++ (new, text') :: b) := hSplit ▸ hFirst.toStored
      have hUnseen :
        ∀ {st' entries}, Unseen st₁ st' ((a ++ [(key, t)]) ++ (new, text') :: (entries ++ b)) →
          Unseen st st' (a ++ (key, t) :: ((new, text') :: entries ++ b)) := by
        intro st' entries hU
        refine ⟨?_, hU.view.trans hFirst.view, hU.initialized.trans hFirst.initialized⟩
        simpa using hU.toStored
      refine Outcome.bind ((ih hStored).mono (fun _ _ h => h) ?_) fun entries st₂ ⟨hTexts, hU⟩ => ?_
      · rintro _ st' ⟨hFails, _, entries, hU, _⟩
        refine ⟨hFails, by simp, (new, text') :: entries, hUnseen hU, iff_of_false (by simp) ?_⟩
        rw [hOk]
        decide
      · exact ⟨by rw [map_cons, hTexts], hUnseen hU⟩

/-- The first chunk is stored by its own operation, the others after it. -/
theorem storeChunks_outcome {first : Text → EditM Nat} {texts : List Text}
    {place : Chunks → Chunks → Chunks}
    (h : Stores fails (first text') st key (a ++ (key, text') :: b)) :
    Outcome (storeChunks fails (text' :: texts) first place) st
      (fun _ st' => ∃ entries, entries.map Prod.snd = text' :: texts ∧
        Stored st' (a ++ entries ++ b) ∧
        st'.view = place entries st.view ∧ st'.initialized = st.initialized)
      fun _ st' => fails st.calls = true ∧ st' = st.tick ∨
        fails st.calls = false ∧ Fails fails ∧ texts ≠ [] ∧
          ∃ entries, Unseen st st' (a ++ (key, text') :: (entries ++ b)) ∧
            (entries = [] ↔ fails (st.calls + 1) = true) := by
  refine Outcome.bind (h.mono (fun _ _ h => h) fun _ _ h => .inl h) ?_
  rintro k st₁ ⟨rfl, hOk, hFirst, hCalls⟩
  refine Outcome.bind ((insertRest_outcome hFirst.toStored).mono (fun _ _ h => h) ?_)
    fun entries st₂ ⟨hTexts, hU⟩ => ?_
  · rintro _ st' ⟨hFails, hTexts, entries, hU, hEmpty⟩
    rw [hCalls] at hEmpty
    exact .inr ⟨hOk, hFails, hTexts, entries,
      ⟨hU.toStored, hU.view.trans hFirst.view, hU.initialized.trans hFirst.initialized⟩, hEmpty⟩
  · refine ⟨(k, text') :: entries, by rw [map_cons, hTexts], ⟨?_, ?_, ?_⟩, ?_, ?_⟩
    · show st₂.list = _
      rw [hU.list]
      simp
    · simpa using hU.nodup
    · intro chunk hMem
      exact hU.fresh chunk (by simpa using hMem)
    · show place _ st₂.view = _
      rw [hU.view, hFirst.view]
    · exact hU.initialized.trans hFirst.initialized

end Steps

/-! ## Edits -/

inductive Edit where
  | insert (pos : Nat) (ch : Char)
  | insertString (pos : Nat) (s : Text)
  | append (ch : Char)
  | appendString (s : Text)
  | delete (pos : Nat)
  | deleteRange (start stop : Nat)
  | replace (pos : Nat) (ch : Char)
  deriving DecidableEq, Repr

def Edit.call (fails : Nat → Bool) : Edit → EditM Unit
  | .insert pos ch => Client.insert fails pos ch
  | .insertString pos s => Client.insertString fails pos s
  | .append ch => Client.append fails ch
  | .appendString s => Client.appendString fails s
  | .delete pos => Client.delete fails pos
  | .deleteRange start stop => Client.deleteRange fails start stop
  | .replace pos ch => Client.replace fails pos ch

def insertAt (pos : Nat) (s doc : Text) : Option Text :=
  if pos ≤ doc.length then some (doc.take pos ++ s ++ doc.drop pos) else none

/-- The edit of a plain string, or that it is out of range.  Inserting nothing is never
out of range. -/
def Edit.apply (doc : Text) : Edit → Option Text
  | .insert pos ch => insertAt pos [ch] doc
  | .insertString pos s => if s = [] then some doc else insertAt pos s doc
  | .append ch => some (doc ++ [ch])
  | .appendString s => some (doc ++ s)
  | .delete pos => if pos < doc.length then some (doc.eraseIdx pos) else none
  | .deleteRange start stop =>
    if start ≤ stop ∧ stop ≤ doc.length then some (doc.take start ++ doc.drop stop) else none
  | .replace pos ch => if pos < doc.length then some (doc.set pos ch) else none

/-- The text that an edit inserts in a document of some length, and where. -/
def Edit.insertion? (length : Nat) : Edit → Option (Nat × Text)
  | .insert pos ch => some (pos, [ch])
  | .insertString pos s => some (pos, s)
  | .appendString s => some (length, s)
  | _ => none

/-- The text of the chunk at a position, and the chunks that an insertion makes of it. -/
def insertionPlan (chunks : Chunks) (pos : Nat) (s : Text) : Option Text × List Text :=
  match (resolvePosition chunks pos).toOption.bind fun found =>
    (chunks[found.1]?).map (·.2, found.2) with
  | some (t, offset) => (some t, splitTextIntoChunks (t.take offset ++ s ++ t.drop offset))
  | none => (none, splitTextIntoChunks s)

/-- The insertion needs several list operations, the first is done, and it is not so that
the first changes nothing and the second fails. -/
def Torn (fails : Nat → Bool) (calls : Nat) (chunks : Chunks) (pos : Nat) (s : Text) : Prop :=
  s ≠ [] ∧ pos ≤ (text chunks).length ∧ 2 ≤ (insertionPlan chunks pos s).2.length ∧
    fails calls = false ∧
    ¬ ((insertionPlan chunks pos s).1 = (insertionPlan chunks pos s).2.head? ∧
      fails (calls + 1) = true)

/-- The operations of the insertion come after the fetch. -/
def TornAfter (fails : Nat → Bool) (st : TextArea) (chunks : Chunks) (pos : Nat) (s : Text) :
    Prop :=
  (st.initialized = false → fails st.calls = false) ∧
    Torn fails (st.calls + if st.initialized then 0 else 1) chunks pos s

/-- The edit is a torn insertion. -/
def Edit.Tears (fails : Nat → Bool) (st : TextArea) (chunks : Chunks) (edit : Edit) : Prop :=
  ∃ pos s, edit.insertion? (text chunks).length = some (pos, s) ∧ TornAfter fails st chunks pos s

/-- The document after an edit. -/
def Done (result : Option Text) (st : TextArea) : Prop :=
  ∃ chunks, Holds st chunks ∧ result = some (text chunks)

/-- An edit out of range changes nothing.  An edit whose list operation fails leaves view
and list equal, unless it is torn. -/
def Failed (fails : Nat → Bool) (chunks : Chunks) (result : Option Text) (torn : Prop)
    (st : TextArea) : Prop :=
  (result = none ∧ Holds st chunks ∧ ¬ torn) ∨
    Fails fails ∧ ((∃ chunks', Holds st chunks') ∧ ¬ torn ∨
      torn ∧ st.initialized = true ∧ st.view ≠ st.list)

section Edits

variable {fails : Nat → Bool} {st : TextArea} {chunks : Chunks}

variable {result : Option Text} {pos key : Nat} {a b : Chunks}

/-- What the call of an edit with this result does. -/
def Performs (fails : Nat → Bool) (x : EditM Unit) (st : TextArea) (chunks : Chunks)
    (result : Option Text) (torn : Prop) : Prop :=
  Outcome x st (fun _ st' => Done result st') fun _ st' => Failed fails chunks result torn st'

theorem Failed.of_holds {chunks' : Chunks} {torn : Prop} {st' : TextArea} (hFails : Fails fails)
    (h : Holds st' chunks') (hNot : ¬ torn) :
    Failed fails chunks result torn st' :=
  .inr ⟨hFails, .inl ⟨⟨chunks', h⟩, hNot⟩⟩

/-- The last operations of an edit on chunks that are loaded. -/
theorem performs_of_loaded {x : EditM Unit} {new old : Chunks} {torn : Prop}
    (h : Outcome x st (fun _ st' => Loaded st' new) fun _ st' => Fails fails ∧ Loaded st' old)
    (hNot : ¬ torn) (hResult : result = some (text new)) : Performs fails x st chunks result torn :=
  h.mono (fun _ _ hDone => ⟨new, hDone.toHolds, hResult⟩)
    fun _ _ ⟨hFails, hKept⟩ => .of_holds hFails hKept.toHolds hNot

/-- The fetch and the test of the range, before the edit proper. -/
theorem start_outcome {p : Chunks → Bool} {β : Type} {f : EditM β} {Q : β → TextArea → Prop}
    {torn : Prop} (h : Holds st chunks)
    (hTorn : torn → st.initialized = false → fails st.calls = false)
    (hRange : p chunks = false → result = none ∧ ¬ torn)
    (hf : ∀ st', Loaded st' chunks → st'.calls = (st.calls + if st.initialized then 0 else 1) ∧
      (st.initialized = false → fails st.calls = false) → p chunks = true →
        Outcome f st' Q fun _ st' => Failed fails chunks result torn st') :
    Outcome (do ensureInitialized fails; ensureRange p; f) st Q
      fun _ st' => Failed fails chunks result torn st' := by
  refine Outcome.bind ((ensureInitialized_outcome h).mono (fun _ _ h => h) ?_)
    fun _ st' ⟨hLoaded, hCalls⟩ => ?_
  · rintro _ st' ⟨hInit, hFails, hHolds⟩
    refine .of_holds ⟨_, hFails⟩ hHolds fun hT => ?_
    rw [hTorn hT hInit] at hFails
    cases hFails
  · by_cases hp : p chunks = true
    · exact Outcome.step ((ensureRange_run hLoaded).trans (if_pos hp)) (hf st' hLoaded hCalls hp)
    · obtain ⟨hNone, hNot⟩ := hRange (eq_false_of_ne_true hp)
      unfold Outcome
      rw [run_bind, ensureRange_run hLoaded, if_neg hp]
      exact .inl ⟨hNone, hLoaded.toHolds, hNot⟩

/-- The chunk of a position inside the document. -/
theorem inside_outcome {β : Type} {f : Nat × Nat → Nat × Text → EditM β} {Q : β → TextArea → Prop}
    (h : Holds st chunks) (hRange : ¬ pos < (text chunks).length → result = none)
    (hf : ∀ st' a key t b offset, Loaded st' chunks → Found chunks pos a key t b offset →
      offset < t.length → pos < (text chunks).length → Outcome (f (a.length, offset) (key, t)) st' Q
        fun _ st' => Failed fails chunks result False st') :
    Outcome (do
      ensureInitialized fails
      ensureRange (pos < totalChars ·)
      let found ← resolve pos
      let chunk ← chunkAt found.1
      f found chunk) st Q fun _ st' => Failed fails chunks result False st' := by
  refine start_outcome h (fun hFalse => hFalse.elim) (fun hOut => ⟨hRange ?_, id⟩)
    fun st' hLoaded _ hIn => ?_
  · simpa [totalChars_eq] using hOut
  · rw [decide_eq_true_eq, totalChars_eq] at hIn
    obtain ⟨a, key, t, b, offset, hFound, hOffset⟩ := exists_found_of_lt hIn
    have hSplit : Loaded st' (a ++ (key, t) :: b) := hFound.split ▸ hLoaded
    refine Outcome.step (resolve_run hLoaded hFound) ?_
    exact Outcome.step (chunkAt_run hSplit) (hf st' a key t b offset hLoaded hFound hOffset hIn)

theorem delete_outcome (h : Holds st chunks) (pos : Nat) :
    Performs fails (Client.delete fails pos) st chunks
      ((Edit.delete pos).apply (text chunks)) False := by
  refine inside_outcome h (fun hOut => if_neg hOut)
    fun st' a key t b offset hLoaded hFound hOffset hIn => ?_
  have hSplit : Loaded st' (a ++ (key, t) :: b) := hFound.split ▸ hLoaded
  have hLe : (t.eraseIdx offset).length ≤ maxChunkSize :=
    (length_eraseIdx_le _ _).trans (h.sized (key, t) (by rw [hFound.split]; simp)).2
  refine performs_of_loaded (storeRemaining_outcome hSplit hLe) id ?_
  show (if pos < (text chunks).length then some ((text chunks).eraseIdx pos) else none) = _
  rw [if_pos hIn, hFound.text_eq, ← hFound.position,
    eraseIdx_append_of_length_le (Nat.le_add_right _ _), Nat.add_sub_cancel_left,
    eraseIdx_append_of_lt_length hOffset]
  simp

theorem replace_outcome (h : Holds st chunks) (pos : Nat) (ch : Char) :
    Performs fails (Client.replace fails pos ch) st chunks
      ((Edit.replace pos ch).apply (text chunks)) False := by
  refine inside_outcome h (fun hOut => if_neg hOut)
    fun st' a key t b offset hLoaded hFound hOffset hIn => ?_
  have hSplit : Loaded st' (a ++ (key, t) :: b) := hFound.split ▸ hLoaded
  have hSized := h.sized (key, t) (by rw [hFound.split]; simp)
  have hSome : t.set offset ch ≠ [] := by simpa using hSized.1
  have hLe : (t.set offset ch).length ≤ maxChunkSize := by rw [length_set]; exact hSized.2
  refine performs_of_loaded (updateBoth_outcome hSplit hSome hLe) id ?_
  show (if pos < (text chunks).length then some ((text chunks).set pos ch) else none) = _
  rw [if_pos hIn, hFound.text_eq, ← hFound.position, set_append_right _ _ (Nat.le_add_right _ _),
    Nat.add_sub_cancel_left, set_append_left _ _ hOffset]
  simp

theorem append_outcome (h : Holds st chunks) (ch : Char) :
    Performs fails (Client.append fails ch) st chunks
      ((Edit.append ch).apply (text chunks)) False := by
  refine Outcome.bind ((ensureInitialized_outcome h).mono (fun _ _ h => h) ?_)
    fun _ st₁ ⟨hLoaded, _, _⟩ => ?_
  · rintro _ st' ⟨_, hFails, hHolds⟩
    exact .of_holds ⟨_, hFails⟩ hHolds id
  refine Outcome.step (a := st₁) rfl ?_
  rw [hLoaded.view_eq]
  rcases eq_nil_or_concat chunks with rfl | ⟨a, ⟨key, t⟩, rfl⟩
  · refine Outcome.bind ((listAppend_outcome hLoaded.toStored).mono (fun _ _ h => h) ?_) ?_
    · rintro _ _ ⟨hFails, rfl⟩
      exact .of_holds ⟨_, hFails⟩ hLoaded.tick.toHolds id
    · rintro _ st₂ ⟨rfl, _, hU, _⟩
      refine ⟨[(st₁.nextKey, [ch])], ⟨⟨hU.list, hU.nodup, hU.fresh⟩, fun _ => ?_, ?_⟩, rfl⟩
      · show st₂.view ++ _ = _
        rw [hU.view, hLoaded.view_eq]
        rfl
      · intro chunk hMem
        rw [mem_singleton.mp hMem]
        exact ⟨by simp, by simp [maxChunkSize]⟩
  · rw [concat_eq_append] at *
    have hSized := h.sized (key, t) (by simp)
    have hLength : (a ++ [(key, t)]).length - 1 = a.length := by simp
    dsimp only
    rw [getLast?_concat]
    refine Outcome.ite (fun hShort => ?_) fun hLong => ?_
    · rw [hLength]
      refine performs_of_loaded (updateBoth_outcome hLoaded (by simp) hShort) id ?_
      show some (text (a ++ [(key, t)]) ++ [ch]) = _
      simp
    · -- the last chunk is full, so its update changes nothing
      have hFull : t.length = maxChunkSize := by
        have hLe : t.length ≤ maxChunkSize := hSized.2
        rw [length_append, length_singleton] at hLong
        omega
      have hFirst : (t ++ [ch]).take maxChunkSize = t := by rw [← hFull, take_left]
      have hSecond : (t ++ [ch]).drop maxChunkSize = [ch] := by rw [← hFull, drop_left]
      rw [hFirst, hSecond]
      refine Outcome.bind ((updateByKey_outcome hLoaded.toStored).mono (fun _ _ h => h) ?_)
        fun _ st₂ ⟨_, _, hU, _⟩ => ?_
      · rintro _ _ ⟨hFails, rfl⟩
        exact .of_holds ⟨_, hFails⟩ hLoaded.tick.toHolds id
      have hSame : Loaded st₂ (a ++ [(key, t)]) :=
        ⟨⟨hU.toStored, fun _ => hU.view.trans hLoaded.view_eq, hLoaded.sized⟩,
          hU.initialized.trans hLoaded.initialized⟩
      refine Outcome.bind ((insertAfterKey_outcome hSame.toStored).mono (fun _ _ h => h) ?_)
        fun new st₃ ⟨hNew, _, hU', _⟩ => ?_
      · rintro _ _ ⟨hFails, rfl⟩
        exact .of_holds ⟨_, hFails⟩ hSame.tick.toHolds id
      · rw [← hNew] at hU'
        refine ⟨a ++ (key, t) :: [(new, [ch])],
          ⟨⟨hU'.list, hU'.nodup, hU'.fresh⟩, fun _ => ?_, ?_⟩, ?_⟩
        · show setText (st₃.view.length - 1) t st₃.view ++ _ = _
          rw [hU'.view, hSame.view_eq, hLength, setText_split]
          simp
        · intro chunk hMem
          by_cases hNew : chunk = (new, [ch])
          · rw [hNew]
            exact ⟨by simp, by simp [maxChunkSize]⟩
          · exact hSame.sized chunk (by simp_all)
        · show some (text (a ++ [(key, t)]) ++ [ch]) = _
          simp

/-- The chunks between go one by one. -/
theorem deleteBetween_outcome {m : Chunks} {chunk : Nat × Text}
    (h : Loaded st (a ++ chunk :: (m ++ b))) :
    Outcome (deleteBetween fails a.length m.length) st (fun _ st' => Loaded st' (a ++ chunk :: b))
      fun _ st' => Fails fails ∧ ∃ chunks', Loaded st' chunks' := by
  induction m using reverseRecOn generalizing st b with
  | nil => exact h
  | append_singleton m last ih =>
    obtain ⟨key, t⟩ := last
    have hSplit : a ++ chunk :: (m ++ [(key, t)] ++ b) =
        (a ++ chunk :: m) ++ (key, t) :: b := by simp
    have hLength : a.length + 1 + m.length = (a ++ chunk :: m).length := by
      simp
      omega
    rw [hSplit] at h
    rw [length_append, length_singleton]
    unfold deleteBetween
    rw [hLength]
    refine Outcome.step (chunkAt_run h) ?_
    dsimp only
    have hErase : (a ++ chunk :: m ++ (key, t) :: b).eraseIdx (a ++ chunk :: m).length =
        a ++ chunk :: m ++ [] ++ b := by
      rw [eraseIdx_append_of_length_le (le_refl _), Nat.sub_self]
      simp
    have hPaired : Outcome (do
        editKey fails key fun _ => []
        modifyView (·.eraseIdx (a ++ chunk :: m).length)) st _ _ :=
      paired_outcome h (nil_sublist _) (by simp) hErase
    rw [← bind_assoc]
    refine Outcome.bind
      (hPaired.mono (fun _ _ h => h) fun _ _ ⟨hFails, hKept⟩ => ⟨hFails, _, hKept⟩)
      fun _ st₁ hLoaded => ih ?_
    simpa using hLoaded

/-- Two positions in order are in one chunk, or in two with some between. -/
theorem Found.cases {pos' key' offset offset' : Nat} {a' b' : Chunks} {t t' : Text}
    (h : Found chunks pos a key t b offset) (h' : Found chunks pos' a' key' t' b' offset')
    (hOffset' : offset' < t'.length) (hLe : pos ≤ pos') :
    (a' = a ∧ key' = key ∧ t' = t ∧ b' = b) ∨
      ∃ m, a' = a ++ (key, t) :: m ∧ b = m ++ (key', t') :: b' := by
  have hSplit := h.split.symm.trans h'.split
  rcases append_eq_append_iff.mp hSplit with ⟨m, hm, hRest⟩ | ⟨m, hm, hRest⟩
  · cases m with
    | nil =>
      rw [append_nil] at hm
      rw [nil_append, cons.injEq, Prod.mk.injEq] at hRest
      exact .inl ⟨hm, hRest.1.1.symm, hRest.1.2.symm, hRest.2.symm⟩
    | cons c m =>
      rw [cons_append, cons.injEq] at hRest
      exact .inr ⟨m, by rw [hm, ← hRest.1], hRest.2⟩
  · cases m with
    | nil =>
      rw [append_nil] at hm
      rw [nil_append, cons.injEq, Prod.mk.injEq] at hRest
      exact .inl ⟨hm.symm, hRest.1.1, hRest.1.2, hRest.2⟩
    | cons c m =>
      -- the later position would be before the earlier one
      rw [cons_append, cons.injEq] at hRest
      have hLength : (text a).length = (text a').length + (t'.length + (text m).length) := by
        rw [hm, ← hRest.1]
        simp
      have hPos := h.position
      have hPos' := h'.position
      omega

theorem deleteRange_outcome (h : Holds st chunks) (start stop : Nat) :
    Performs fails (Client.deleteRange fails start stop) st chunks
      ((Edit.deleteRange start stop).apply (text chunks)) False := by
  refine start_outcome h (fun hFalse => hFalse.elim) (fun hOut => ⟨if_neg ?_, id⟩)
    fun st₁ hLoaded _ hIn => ?_
  · simpa [totalChars_eq] using hOut
  rw [decide_eq_true_eq, totalChars_eq] at hIn
  have hApply : (Edit.deleteRange start stop).apply (text chunks) =
      some ((text chunks).take start ++ (text chunks).drop stop) := if_pos hIn
  rw [hApply]
  refine Outcome.ite (fun hEq => ?_) fun hNe => ?_
  · refine ⟨chunks, hLoaded.toHolds, ?_⟩
    rw [hEq, take_append_drop]
  have hStop : stop - 1 + 1 = stop := by omega
  obtain ⟨a, key, t, b, offset, hFound, hOffset⟩ :=
    exists_found_of_lt (show start < (text chunks).length by omega)
  obtain ⟨a', key', t', b', offset', hFound', hOffset'⟩ :=
    exists_found_of_lt (show stop - 1 < (text chunks).length by omega)
  have hSized' := h.sized (key', t') (by rw [hFound'.split]; simp)
  have hSplit' : Loaded st₁ (a' ++ (key', t') :: b') := hFound'.split ▸ hLoaded
  have hText : (text chunks).take start ++ (text chunks).drop stop =
      (text a ++ t.take offset) ++ (t'.drop (offset' + 1) ++ text b') := by
    rw [hFound.take, ← hStop, hFound'.drop_succ hOffset']
  refine Outcome.step (resolve_run hLoaded hFound) ?_
  refine Outcome.step (resolve_run hLoaded hFound') ?_
  refine Outcome.step (chunkAt_run hSplit') ?_
  dsimp only
  rcases hFound.cases hFound' hOffset' (by omega) with ⟨rfl, rfl, rfl, rfl⟩ | ⟨m, rfl, rfl⟩
  · have hOrder : offset ≤ offset' := by
      have hPos := hFound.position
      have hPos' := hFound'.position
      omega
    have hLe : (t'.take offset ++ t'.drop (offset' + 1)).length ≤ maxChunkSize := by
      have hLe : t'.length ≤ maxChunkSize := hSized'.2
      rw [length_append, length_take, length_drop]
      omega
    rw [if_pos rfl]
    refine performs_of_loaded (storeRemaining_outcome hSplit' hLe) id ?_
    rw [hText]
    simp
  · have hLe' : (t'.drop (offset' + 1)).length ≤ maxChunkSize := by
      have hLe : t'.length ≤ maxChunkSize := hSized'.2
      rw [length_drop]
      omega
    have hLe : (t.take offset).length ≤ maxChunkSize :=
      (length_take_le' _ _).trans (h.sized (key, t) (by rw [hFound.split]; simp)).2
    have hCount : (a ++ (key, t) :: m).length - (a.length + 1) = m.length := by
      simp
      omega
    rw [if_neg (by simp), hCount]
    refine Outcome.bind ((storeRemaining_outcome hSplit' hLe').mono (fun _ _ h => h)
      fun _ st₂ ⟨hFails, hKept⟩ => .of_holds hFails hKept.toHolds id) fun _ st₂ hEnd => ?_
    have hBetween :
      Loaded st₂ (a ++ (key, t) :: (m ++ (remaining key' (t'.drop (offset' + 1)) ++ b'))) := by
      simpa using hEnd
    refine Outcome.bind ((deleteBetween_outcome hBetween).mono (fun _ _ h => h)
      fun _ st₃ ⟨hFails, _, hKept⟩ => .of_holds hFails hKept.toHolds id) fun _ st₃ hStart => ?_
    refine Outcome.step (chunkAt_run hStart) ?_
    refine performs_of_loaded (storeRemaining_outcome hStart hLe) id ?_
    rw [hText]
    simp

theorem length_splitTextIntoChunks (s : Text) :
    (splitTextIntoChunks s).length = (s.length + (maxChunkSize - 1)) / maxChunkSize := by
  unfold splitTextIntoChunks
  rw [length_map, length_range]

/-- New chunks in the place of one, or in an empty document. -/
theorem done_of_stored {s old new : Text} {entries : Chunks} {st' : TextArea}
    (hStored : Stored st' (a ++ entries ++ b)) (hView : st'.view = a ++ entries ++ b)
    (hSized : ∀ chunk ∈ a ++ b, chunk.2 ≠ [] ∧ chunk.2.length ≤ maxChunkSize)
    (hTexts : entries.map Prod.snd = splitTextIntoChunks new)
    (hTake : old.take pos ++ s ++ old.drop pos = text a ++ new ++ text b)
    (hPos : pos ≤ old.length) :
    Done (insertAt pos s old) st' := by
  obtain ⟨hFlatten, hPieces⟩ := splitTextIntoChunks_spec new
  refine ⟨a ++ entries ++ b, ⟨hStored, fun _ => hView, fun chunk hMem => ?_⟩, ?_⟩
  · rcases mem_append.mp hMem with hMem | hMem
    · rcases mem_append.mp hMem with hMem | hMem
      · exact hSized chunk (mem_append_left _ hMem)
      · exact hPieces chunk.2 (hTexts ▸ mem_map_of_mem hMem)
    · exact hSized chunk (mem_append_right _ hMem)
  · unfold insertAt
    have hEntries : text entries = (entries.map Prod.snd).flatten := List.flatMap_def
    rw [if_pos hPos, hTake, text_append, text_append, hEntries, hTexts, hFlatten]

theorem insertionPlan_eq {offset : Nat} {t : Text} (h : Found chunks pos a key t b offset)
    (s : Text) :
    insertionPlan chunks pos s =
      (some t, splitTextIntoChunks (t.take offset ++ s ++ t.drop offset)) := by
  have hGet : chunks[a.length]? = some (key, t) := by
    rw [h.split, getElem?_append_right (le_refl _), Nat.sub_self]
    rfl
  unfold insertionPlan
  rw [h.resolved]
  simp [Except.toOption, hGet]

/-- Several chunks: the first is stored by `first`, and `old` is the text it replaces. -/
theorem insertion_outcome {st₁ : TextArea} {s new text' : Text} {texts : List Text}
    {old : Option Text} {first : Text → EditM Nat} {place : Chunks → Chunks → Chunks}
    (hLoaded : Loaded st₁ chunks) (hSome : s ≠ []) (hIn : pos ≤ (text chunks).length)
    (hCalls : st₁.calls = st.calls + if st.initialized then 0 else 1)
    (hFetch : st.initialized = false → fails st.calls = false)
    (hPlan : insertionPlan chunks pos s = (old, text' :: texts))
    (hNew : splitTextIntoChunks new = text' :: texts)
    (hFirst : Stores fails (first text') st₁ key (a ++ (key, text') :: b))
    (hList : ∀ entries, a ++ (key, text') :: (entries ++ b) = chunks ↔
      entries = [] ∧ old = some text')
    (hPlace : ∀ entries, place entries chunks = a ++ entries ++ b)
    (hSub : ∀ chunk ∈ a ++ b, chunk ∈ chunks)
    (hTake : (text chunks).take pos ++ s ++ (text chunks).drop pos = text a ++ new ++ text b) :
    Performs fails (storeChunks fails (text' :: texts) first place) st₁ chunks
      (insertAt pos s (text chunks)) (TornAfter fails st chunks pos s) := by
  have hView := hLoaded.view_eq
  refine (storeChunks_outcome hFirst).mono ?_ ?_
  · rintro _ st' ⟨entries, hTexts, hStored, hPlaced, _⟩
    refine done_of_stored hStored ?_ (fun chunk hMem => hLoaded.sized chunk (hSub chunk hMem))
      (hTexts.trans hNew.symm) hTake hIn
    rw [hPlaced, hView, hPlace]
  · rintro _ st' (⟨hFails, rfl⟩ | ⟨hOk, hFails, hTexts, entries, hU, hEmpty⟩)
    · refine .of_holds ⟨_, hFails⟩ hLoaded.tick.toHolds fun hT => ?_
      have hOk := hT.2.2.2.2.1
      rw [← hCalls, hFails] at hOk
      cases hOk
    · have hTorn : TornAfter fails st chunks pos s ↔ ¬ (entries = [] ∧ old = some text') := by
        have hTwo : 2 ≤ (text' :: texts).length := by
          have hPos := length_pos_of_ne_nil hTexts
          rw [length_cons]
          omega
        unfold TornAfter Torn
        rw [hPlan, ← hCalls, hEmpty]
        tauto
      by_cases hSame : entries = [] ∧ old = some text'
      · -- only the first operation is done, and it has changed nothing
        have hStored : Stored st' chunks := (hList entries).mpr hSame ▸ hU.toStored
        exact .of_holds hFails ⟨hStored, fun _ => hU.view.trans hView, hLoaded.sized⟩
          fun hT => hTorn.mp hT hSame
      · refine .inr ⟨hFails, .inr ⟨hTorn.mpr hSame, hU.initialized.trans hLoaded.initialized, ?_⟩⟩
        rw [hU.view, hView, hU.list]
        exact fun hEq => hSame ((hList entries).mp hEq.symm)

theorem insertString_outcome (h : Holds st chunks) (pos : Nat) (s : Text) :
    Performs fails (Client.insertString fails pos s) st chunks
      ((Edit.insertString pos s).apply (text chunks)) (TornAfter fails st chunks pos s) := by
  refine Outcome.ite (fun hNil => ⟨chunks, h, if_pos hNil⟩) fun hSome => ?_
  have hApply : (Edit.insertString pos s).apply (text chunks) = insertAt pos s (text chunks) :=
    if_neg hSome
  rw [hApply]
  refine start_outcome h (fun hT => hT.1) (fun hOut => ?_)
    fun st₁ hLoaded ⟨hCalls, hFetch⟩ hIn => ?_
  · rw [decide_eq_false_iff_not, totalChars_eq] at hOut
    exact ⟨if_neg hOut, fun hT => hOut hT.2.2.1⟩
  rw [decide_eq_true_eq, totalChars_eq] at hIn
  refine Outcome.step (a := st₁) rfl ?_
  rw [hLoaded.view_eq]
  by_cases hEmpty : chunks = []
  · subst hEmpty
    have hPlan : insertionPlan [] pos s = (none, splitTextIntoChunks s) := by
      have hPos : pos = 0 := by simpa using hIn
      rw [hPos]
      rfl
    rw [if_pos rfl]
    rw [splitTextIntoChunks_cons hSome] at hPlan ⊢
    refine insertion_outcome (a := []) (b := []) hLoaded hSome hIn hCalls hFetch hPlan
      (splitTextIntoChunks_cons hSome) (listAppend_outcome hLoaded.toStored)
      (by simp) (by simp) (by simp) (by simp)
  · rw [if_neg hEmpty]
    obtain ⟨a, key, t, b, offset, hFound⟩ := exists_found hEmpty hIn
    have hSplit : Loaded st₁ (a ++ (key, t) :: b) := hFound.split ▸ hLoaded
    have hPlan := insertionPlan_eq hFound s
    have hTake : (text chunks).take pos ++ s ++ (text chunks).drop pos =
        text a ++ (t.take offset ++ s ++ t.drop offset) ++ text b := by
      rw [hFound.take, hFound.drop]
      simp
    have hNewSome : t.take offset ++ s ++ t.drop offset ≠ [] := by simp [hSome]
    refine Outcome.step (resolve_run hLoaded hFound) ?_
    refine Outcome.step (chunkAt_run hSplit) ?_
    dsimp only
    generalize t.take offset ++ s ++ t.drop offset = new at hPlan hTake hNewSome ⊢
    refine Outcome.ite (fun hShort => ?_) fun hLong => ?_
    · refine performs_of_loaded (updateBoth_outcome hSplit hNewSome hShort) (fun hT => ?_) ?_
      · -- one chunk is stored by one operation
        have hTwo := hT.2.2.2.1
        rw [hPlan, length_splitTextIntoChunks] at hTwo
        unfold maxChunkSize at hTwo hShort
        omega
      · unfold insertAt
        rw [if_pos hIn, hTake]
        simp
    · rw [splitTextIntoChunks_cons hNewSome] at hPlan ⊢
      have hFirst :
        Stores fails (do updateByKey fails key (new.take maxChunkSize); return key) st₁ key
          (a ++ (key, new.take maxChunkSize) :: b) :=
        Outcome.bind (updateByKey_outcome hSplit.toStored) fun _ st₂ hDone => ⟨rfl, hDone.2⟩
      refine insertion_outcome (a := a) (b := b) hLoaded hSome hIn hCalls hFetch hPlan
        (splitTextIntoChunks_cons hNewSome) hFirst (fun entries => ?_) (fun entries => ?_)
        (fun chunk hMem => ?_) hTake
      · rw [hFound.split]
        simp [and_comm, eq_comm]
      · rw [hFound.split, take_left, drop_append]
        simp
      · rw [hFound.split]
        rcases mem_append.mp hMem with hMem | hMem
        · exact mem_append_left _ hMem
        · exact mem_append_right _ (mem_cons_of_mem _ hMem)

theorem len_outcome (h : Holds st chunks) :
    Outcome (len fails) st (fun n st' => n = (text chunks).length ∧ Loaded st' chunks ∧
        st'.calls = (st.calls + if st.initialized then 0 else 1) ∧
        (st.initialized = false → fails st.calls = false))
      fun _ st' => st.initialized = false ∧ fails st.calls = true ∧ Holds st' chunks := by
  refine Outcome.bind (ensureInitialized_outcome h) fun _ st₁ hLoaded => ⟨?_, hLoaded⟩
  rw [hLoaded.1.view_eq, totalChars_eq]

theorem appendString_outcome (h : Holds st chunks) (s : Text) :
    Performs fails (Client.appendString fails s) st chunks
      ((Edit.appendString s).apply (text chunks))
        (TornAfter fails st chunks (text chunks).length s) := by
  have hApply : (Edit.appendString s).apply (text chunks) =
      (Edit.insertString (text chunks).length s).apply (text chunks) := by
    simp [Edit.apply, insertAt, eq_comm]
  refine Outcome.ite (fun hNil => ⟨chunks, h, by simp [Edit.apply, hNil]⟩) fun hSome => ?_
  refine Outcome.bind ((len_outcome h).mono (fun _ _ h => h) ?_) ?_
  · rintro _ st' ⟨hInit, hFails, hHolds⟩
    refine .of_holds ⟨_, hFails⟩ hHolds fun hT => ?_
    rw [hT.1 hInit] at hFails
    cases hFails
  · rintro _ st₁ ⟨rfl, hLoaded, hCalls, hFetch⟩
    have hTorn : TornAfter fails st₁ chunks (text chunks).length s ↔
        TornAfter fails st chunks (text chunks).length s := by
      unfold TornAfter
      rw [hLoaded.initialized, if_pos rfl, Nat.add_zero, hCalls]
      exact and_congr_left fun _ => iff_of_true (by simp) hFetch
    rw [hApply, ← propext hTorn]
    exact insertString_outcome hLoaded.toHolds _ s

/-- What every edit does. -/
theorem Edit.call_outcome (h : Holds st chunks) (edit : Edit) :
    Performs fails (edit.call fails) st chunks (edit.apply (text chunks))
      (edit.Tears fails st chunks) := by
  have hTears : ∀ {pos s}, edit.insertion? (text chunks).length = some (pos, s) →
      (edit.Tears fails st chunks ↔ TornAfter fails st chunks pos s) := by
    intro pos s hInsertion
    unfold Edit.Tears
    rw [hInsertion]
    simp
  have hNever : edit.insertion? (text chunks).length = none →
      (edit.Tears fails st chunks ↔ False) := by
    intro hInsertion
    unfold Edit.Tears
    rw [hInsertion]
    simp
  cases edit with
  | insert pos ch =>
    rw [propext (hTears rfl)]
    exact insertString_outcome h pos [ch]
  | insertString pos s =>
    rw [propext (hTears rfl)]
    exact insertString_outcome h pos s
  | appendString s =>
    rw [propext (hTears rfl)]
    exact appendString_outcome h s
  | append ch =>
    rw [propext (hNever rfl)]
    exact append_outcome h ch
  | delete pos =>
    rw [propext (hNever rfl)]
    exact delete_outcome h pos
  | deleteRange start stop =>
    rw [propext (hNever rfl)]
    exact deleteRange_outcome h start stop
  | replace pos ch =>
    rw [propext (hNever rfl)]
    exact replace_outcome h pos ch

/-- After an edit that fails, the view is the stored list if and only if the edit is not a
torn insertion.  A view that was not fetched yet is not looked at. -/
theorem view_eq_list_after_error_iff {edit : Edit} {e : SdkError} {st' : TextArea}
    (h : Holds st chunks) (hError : (edit.call fails).run st = .error e st') :
    (st'.initialized = true → st'.view = st'.list) ↔ ¬ edit.Tears fails st chunks := by
  have hSynced : ∀ {chunks'}, Holds st' chunks' → st'.initialized = true → st'.view = st'.list := by
    intro chunks' hHolds hInit
    rw [hHolds.view hInit, hHolds.list]
  rcases (edit.call_outcome h).of_error hError with
    ⟨_, hHolds, hNot⟩ | ⟨_, ⟨⟨chunks', hHolds⟩, hNot⟩ | ⟨hTorn, hInit, hNe⟩⟩
  · exact iff_of_true (hSynced hHolds) hNot
  · exact iff_of_true (hSynced hHolds) hNot
  · exact iff_of_false (fun hEq => hNe (hEq hInit)) (not_not_intro hTorn)

end Edits

/-- Full chunks of some characters, in list and view. -/
def fullChunks (chars : List Char) : TextArea :=
  let chunks := chars.mapIdx fun i ch => (i + 1, List.replicate 16 ch)
  { list := chunks, nextKey := chars.length + 1, view := chunks, initialized := true, calls := 0 }

theorem holds_fullChunks : Holds (fullChunks ['a', 'b', 'c']) (fullChunks ['a', 'b', 'c']).list :=
  ⟨⟨rfl, by decide, by decide⟩, fun _ => rfl, by decide⟩

/-- A deletion from three chunks fails at its second list operation.  The first is stored,
and the view shows it. -/
theorem failed_delete_keeps_view : ∃ e st',
    (Edit.call (fun n => n = 1) (.deleteRange 8 40)).run (fullChunks ['a', 'b', 'c']) =
      .error e st' ∧ st'.list ≠ (fullChunks ['a', 'b', 'c']).list ∧ st'.view = st'.list := by
  obtain ⟨e, st', hError, hList, hInit⟩ : ∃ e st',
      (Edit.call (fun n => n = 1) (.deleteRange 8 40)).run (fullChunks ['a', 'b', 'c']) =
        .error e st' ∧ st'.list ≠ (fullChunks ['a', 'b', 'c']).list ∧ st'.initialized = true :=
    ⟨_, _, rfl, by decide, rfl⟩
  refine ⟨e, st', hError, hList,
    (view_eq_list_after_error_iff holds_fullChunks hError).mpr ?_ hInit⟩
  rintro ⟨pos, s, hInsertion, _⟩
  cases hInsertion

/-- An insertion stores the first of two chunks, and fails on the second.  The list has
lost a character that the view still shows. -/
theorem failed_insert_tears : ∃ e st',
    (Edit.call (fun n => n = 1) (.insertString 0 ['b'])).run (fullChunks ['a']) = .error e st' ∧
      st'.list = [(1, 'b' :: List.replicate 15 'a')] ∧ st'.view = [(1, List.replicate 16 'a')] ∧
      st'.initialized = true :=
  ⟨_, _, rfl, by decide, by decide, rfl⟩

/-! ## A text area as a string -/

/-- What a call returns. -/
def result {α : Type} (x : EditM α) (st : TextArea) : Except SdkError α :=
  match x.run st with
  | .ok a _ => .ok a
  | .error e _ => .error e

/-- The calls of a run: whether each succeeds, and the state at the end. -/
def performAll (fails : Nat → Bool) : List Edit → TextArea → List Bool × TextArea
  | [], st => ([], st)
  | edit :: edits, st =>
    match (edit.call fails).run st with
    | .ok _ st' => ((performAll fails edits st').map (true :: ·) id)
    | .error _ st' => ((performAll fails edits st').map (false :: ·) id)

/-- The same edits of a plain string. -/
def applyAll : List Edit → Text → List Bool × Text
  | [], doc => ([], doc)
  | edit :: edits, doc =>
    match edit.apply doc with
    | some doc' => (applyAll edits doc').map (true :: ·) id
    | none => (applyAll edits doc).map (false :: ·) id

/-- The reads return what they return on the string. -/
structure ReadsAs (fails : Nat → Bool) (st : TextArea) (doc : Text) : Prop where
  snapshot : result (Client.snapshot fails) st = .ok doc
  len : result (Client.len fails) st = .ok doc.length
  charAt : ∀ pos, result (Client.charAt fails pos) st =
    match doc[pos]? with
    | some ch => .ok ch
    | none => .error .notFound
  textRange : ∀ start stop, result (Client.textRange fails start stop) st =
    if start ≤ stop ∧ stop ≤ doc.length then .ok ((doc.take stop).drop start) else .error .notFound

section Runs

variable {fails : Nat → Bool} {st : TextArea} {chunks : Chunks}

theorem rangeFrom_eq {start stop : Nat} (hLe : start ≤ stop) (pos : Nat) (view : Chunks) :
    rangeFrom start stop pos view = ((text view).take (stop - pos)).drop (start - pos) := by
  induction view generalizing pos with
  | nil => simp [rangeFrom]
  | cons chunk view ih =>
    obtain ⟨key, t⟩ := chunk
    unfold rangeFrom
    rw [text_cons, take_append, drop_append]
    by_cases hBefore : pos + t.length ≤ start
    · rw [if_pos hBefore, ih, take_of_length_le (show t.length ≤ stop - pos by omega),
        drop_of_length_le (show t.length ≤ start - pos by omega)]
      rw [nil_append, Nat.sub_sub, Nat.sub_sub]
    · rw [if_neg hBefore]
      by_cases hAfter : stop ≤ pos
      · rw [if_pos hAfter, Nat.sub_eq_zero_of_le hAfter]
        simp
      · rw [if_neg hAfter, ih]
        have hStart : start - pos - (t.take (stop - pos)).length = start - (pos + t.length) := by
          rw [length_take]
          omega
        have hStop : stop - pos - t.length = stop - (pos + t.length) := by omega
        rw [hStart, hStop]
        congr 1
        rw [drop_take, take_eq_take_iff, length_drop]
        omega

/-- Without failures a view can be fetched. -/
theorem result_after_fetch {α : Type} {f : EditM α} {r : Except SdkError α}
    (hOk : ∀ n, fails n = false)
    (h : Holds st chunks) (hf : ∀ st', Loaded st' chunks → result f st' = r) :
    result (do ensureInitialized fails; f) st = r := by
  have hFetch : Outcome (ensureInitialized fails) st _ _ := ensureInitialized_outcome h
  unfold Outcome at hFetch
  unfold result
  rw [run_bind]
  cases hRun : (ensureInitialized fails).run st with
  | ok _ st' =>
    rw [hRun] at hFetch
    exact hf st' hFetch.1
  | error e st' =>
    rw [hRun] at hFetch
    have hFails : fails st.calls = true := hFetch.2.1
    rw [hOk] at hFails
    cases hFails

theorem result_bind_ok {α β : Type} {x : EditM α} {f : α → EditM β} {a : α} {st' : TextArea}
    (h : x.run st = .ok a st') : result (x >>= f) st = result (f a) st' := by
  unfold result
  rw [run_bind, h]

theorem Holds.readsAs (hOk : ∀ n, fails n = false) (h : Holds st chunks) :
    ReadsAs fails st (text chunks) := by
  have hRange : ∀ {α : Type} {p : Chunks → Bool} {f : EditM α} {r : Except SdkError α},
      (p chunks = false → r = .error .notFound) →
      (∀ st', Loaded st' chunks → p chunks = true → result f st' = r) →
      result (do ensureInitialized fails; ensureRange p; f) st = r := by
    intro α p f r hOut hIn
    refine result_after_fetch hOk h fun st' hLoaded => ?_
    have hRun := ensureRange_run (p := p) hLoaded
    split_ifs at hRun with hp
    · rw [result_bind_ok hRun]
      exact hIn st' hLoaded hp
    · unfold result
      rw [run_bind, hRun, hOut (eq_false_of_ne_true hp)]
  refine ⟨?_, ?_, fun pos => ?_, fun start stop => ?_⟩
  · refine result_after_fetch hOk h fun st' hLoaded => ?_
    show Except.ok (st'.view.flatMap Prod.snd) = _
    rw [hLoaded.view_eq]
    rfl
  · refine result_after_fetch hOk h fun st' hLoaded => ?_
    show Except.ok (totalChars st'.view) = _
    rw [hLoaded.view_eq, totalChars_eq]
  · refine hRange (fun hOut => ?_) fun st' hLoaded hIn => ?_
    · rw [decide_eq_false_iff_not, totalChars_eq] at hOut
      rw [getElem?_eq_none (Nat.le_of_not_lt hOut)]
    · rw [decide_eq_true_eq, totalChars_eq] at hIn
      obtain ⟨a, key, t, b, offset, hFound, hOffset⟩ := exists_found_of_lt hIn
      have hSplit : Loaded st' (a ++ (key, t) :: b) := hFound.split ▸ hLoaded
      have hGet : (text chunks)[pos]? = t[offset]? := by
        rw [hFound.text_eq, ← hFound.position, getElem?_append_right (Nat.le_add_right _ _),
          Nat.add_sub_cancel_left, getElem?_append_left hOffset]
      rw [result_bind_ok (resolve_run hLoaded hFound), result_bind_ok (chunkAt_run hSplit), hGet]
      dsimp only
      rw [getElem?_eq_getElem hOffset]
      rfl
  · refine hRange (fun hOut => ?_) fun st' hLoaded hIn => ?_
    · rw [decide_eq_false_iff_not, totalChars_eq] at hOut
      rw [if_neg hOut]
    · rw [decide_eq_true_eq, totalChars_eq] at hIn
      rw [if_pos hIn]
      show Except.ok (rangeFrom start stop 0 st'.view) = _
      rw [hLoaded.view_eq, rangeFrom_eq hIn.1]
      rfl

/-- While list operations succeed, every run of edits is a run of the same edits on a plain
string: the same calls fail, and the reads agree.  View and list are equal and chunks
have their sizes; an edit out of range leaves the list alone. -/
theorem textArea_refines_string (hOk : ∀ n, fails n = false) (h : Holds st chunks)
    (edits : List Edit) :
    (performAll fails edits st).1 = (applyAll edits (text chunks)).1 ∧
      ReadsAs fails (performAll fails edits st).2 (applyAll edits (text chunks)).2 ∧
      (∃ chunks', Holds (performAll fails edits st).2 chunks') ∧
      ∀ edit, edit.apply (applyAll edits (text chunks)).2 = none → ∃ e st',
        (Edit.call fails edit).run (performAll fails edits st).2 = .error e st' ∧
          st'.list = (performAll fails edits st).2.list := by
  have hNever : ¬ Fails fails := by
    rintro ⟨n, hn⟩
    rw [hOk] at hn
    cases hn
  -- one call, as the string has it
  have hStep : ∀ {st chunks} (edit : Edit), Holds st chunks →
      (∃ st' chunks', (edit.call fails).run st = .ok () st' ∧ Holds st' chunks' ∧
        edit.apply (text chunks) = some (text chunks')) ∨
      ∃ e st', (edit.call fails).run st = .error e st' ∧ Holds st' chunks ∧
        edit.apply (text chunks) = none := by
    intro st chunks edit h
    have hOutcome : Outcome (edit.call fails) st _ _ := edit.call_outcome h
    unfold Outcome at hOutcome
    cases hRun : (edit.call fails).run st with
    | ok _ st' =>
      rw [hRun] at hOutcome
      obtain ⟨chunks', hHolds, hApply⟩ := hOutcome
      exact .inl ⟨st', chunks', rfl, hHolds, hApply⟩
    | error e st' =>
      rw [hRun] at hOutcome
      rcases hOutcome with ⟨hNone, hHolds, _⟩ | ⟨hFails, _⟩
      · exact .inr ⟨e, st', rfl, hHolds, hNone⟩
      · exact absurd hFails hNever
  induction edits generalizing st chunks with
  | nil =>
    refine ⟨rfl, h.readsAs hOk, ⟨chunks, h⟩, fun edit hNone => ?_⟩
    rcases hStep edit h with ⟨_, _, _, _, hSome⟩ | ⟨e, st', hRun, hHolds, _⟩
    · rw [show edit.apply (text chunks) = none from hNone] at hSome
      cases hSome
    · exact ⟨e, st', hRun, hHolds.list.trans h.list.symm⟩
  | cons edit edits ih =>
    unfold performAll applyAll
    rcases hStep edit h with ⟨st', chunks', hRun, hHolds, hApply⟩ | ⟨e, st', hRun, hHolds, hApply⟩
    · rw [hRun, hApply]
      obtain ⟨hResults, hRest⟩ := ih hHolds
      exact ⟨congrArg (true :: ·) hResults, hRest⟩
    · rw [hRun, hApply]
      obtain ⟨hResults, hRest⟩ := ih hHolds
      exact ⟨congrArg (false :: ·) hResults, hRest⟩

end Runs

/-! ## Samples -/

/-- A text area on a new list. -/
def newTextArea : TextArea :=
  { list := [], nextKey := 1, view := [], initialized := false, calls := 0 }

theorem holds_newTextArea : Holds newTextArea [] :=
  ⟨⟨rfl, by simp, by simp⟩, fun _ => rfl, by simp⟩

def sampleEdits : List Edit :=
  [.insertString 0 "the quick brown fox".toList, .append '!', .deleteRange 3 19,
    .replace 0 'T', .delete 9]

/-- The last call is out of range; the document is `The!`. -/
theorem sample_document :
    ReadsAs (fun _ => false) (performAll (fun _ => false) sampleEdits newTextArea).2 "The!".toList ∧
      (performAll (fun _ => false) sampleEdits newTextArea).1 =
        [true, true, true, true, false] := by
  have hOk : ∀ n, (fun _ => false : Nat → Bool) n = false := fun _ => rfl
  have hRefines := textArea_refines_string hOk holds_newTextArea sampleEdits
  exact ⟨hRefines.2.1, hRefines.1⟩

/-- Nothing is inserted behind the end of an empty document, and the call succeeds. -/
theorem empty_insert_out_of_range_succeeds :
    (Edit.call (fun _ => false) (.insertString 5 [])).run newTextArea = .ok () newTextArea ∧
      (text newTextArea.list).length < 5 := by
  exact ⟨rfl, by decide⟩

end EncryptedSpaces.Client
