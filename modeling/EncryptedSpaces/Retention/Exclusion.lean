import EncryptedSpaces.Retention.Erasure

/-!
# A rekey shuts out who does not get the new group key

A removed member may have kept every key that was ever in use, and goes on seeing
the rows.  A rekey draws its keys anew, and from then on rows are written under
keys that go back to such draws.  `rekey_excludes` says that this is enough.
-/

namespace EncryptedSpaces.Retention.Symbolic

open Lib Crypto

/-- The draw of the name under all derivations. -/
def Key.draw : Key → Nat
  | .group draw _ | .data draw => draw
  | .derive parent _ => parent.draw
  | .junk .. => 0

variable {P : Type} {k n m : Nat} {known key : Key} {history : List (String × Stored)}
  {c : Chain Key} {st st' : RunState Key Stored P} {op : SymbolicOp}
  {prover : RuntimeProver Key Commitment Ciphertext P}

/-- The ciphertexts that a step adds are made under keys that go back to the step's own
draw or, in a reduce, to the head group key. -/
theorem step_writes (hSim : Simulates suite st c)
    (hStep : st.step suite prover (op.draw n) = some st') {cell : String} {ct : Ciphertext}
    (hMem : (cell, Stored.ciphertext ct) ∈ st'.store.writes) :
    (cell, Stored.ciphertext ct) ∈ st.store.writes ∨ ct.key.draw = n ∨
      ct.key.draw = c.hgk.draw ∧ ∃ hgk before, op = .reduce hgk before := by
  obtain ⟨hWF, hRep, _⟩ := hSim
  cases op <;> simp only [SymbolicOp.draw, RunState.step, Option.bind_eq_some] at hStep
  case new =>
    cases hStep
    rcases mem_writes_new hMem with hMem | rfl
    · exact .inl hMem
    · exact .inr (.inl rfl)
  case extend localHgk =>
    obtain ⟨_, _, _, _, ⟨id, store⟩, hExtend, hRet⟩ := hStep
    cases hRet
    obtain ⟨_, _, proof, rfl⟩ := extend_eq suite_lawful hWF hRep hExtend
    exact .inl (mem_writes_afterExtend hMem)
  case rekey localHgk =>
    obtain ⟨⟨out, store⟩, hRekey, hRet⟩ := hStep
    cases hRet
    obtain ⟨_, _, _, proof, rfl⟩ := generateGroupKey_eq suite_lawful hWF hRep hRekey
    rcases mem_writes_afterRekey hMem with hMem | rfl | rfl
    · exact .inl hMem
    · exact .inr (.inl rfl)
    · exact .inr (.inl rfl)
  case reduce localHgk before =>
    obtain ⟨store, hReduce, hRet⟩ := hStep
    cases hRet
    obtain ⟨hLo, hHi, _, proof, rfl⟩ := reduce_eq suite_lawful hWF hRep hReduce
    rcases mem_writes_afterReduce hWF hLo hHi hMem with hMem | ⟨o, tag, _, _, hKey, _⟩
    · exact .inl hMem
    · rcases reduced_gbKey_cases (c := c) n before o with hEq | ⟨i, hEq⟩ <;> rw [hKey, hEq]
      · exact .inr (.inr ⟨rfl, _, _, rfl⟩)
      · exact .inr (.inl rfl)

/-- Keys drawn before `k` open such keys only, and the data keys from number `m` on were
drawn later; after the rekey also the head group key and the newest data key. -/
structure Separated (k m : Nat) (rekeyed : Prop) (history : List (String × Stored))
    (c : Chain Key) : Prop where
  opens : ∀ cell ct, (cell, Stored.ciphertext ct) ∈ history → ct.key.draw < k → ct.message.draw < k
  head : rekeyed → k ≤ c.hgk.draw
  data : ∀ s, s < c.dNext → m ≤ s ∨ rekeyed ∧ s + 1 = c.dNext → k ≤ (c.dKey s).draw

/-- The rekey and whatever comes after it. -/
theorem Separated.step {rekeyed : Prop} (h : Separated k m rekeyed st.store.writes c) (hk : k ≤ n)
    (hOp : rekeyed ∨ ∃ hgk, op = .rekey hgk) (hSim : Simulates suite st c)
    (hStep : st.step suite prover (op.draw n) = some st') :
    Separated k m True st'.store.writes (c.step suite (op.draw n)) where
  opens cell ct hMem hLt := by
    rcases step_writes hSim hStep hMem with hMem | hDraw | ⟨hDraw, _, _, rfl⟩
    · exact h.opens cell ct hMem hLt
    · omega
    · have hHead := h.head (hOp.resolve_right (by simp))
      omega
  head _ := by
    cases op with
    | new | rekey => exact hk
    | extend | reduce => exact h.head (hOp.resolve_right (by simp))
  data s hs hm := by
    have hMin := hSim.wf.dMin_lt
    have hNext {key : Key} (hKey : k ≤ key.draw) (hs : s < c.dNext + 1)
        (hm : m ≤ s ∨ True ∧ s + 1 = c.dNext + 1) :
        k ≤ (Function.update c.dKey c.dNext key s).draw := by
      by_cases hLast : s = c.dNext
      · rwa [hLast, Function.update_self]
      · rw [Function.update_of_ne hLast]
        exact h.data s (by omega) (.inl (by omega))
    cases op with
    | new => exact hk
    | rekey => exact hNext hk hs hm
    | extend =>
      have hLast := h.data (c.dNext - 1) (by omega) (.inr ⟨hOp.resolve_right (by simp), by omega⟩)
      exact @hNext (.derive _ .dDerive) hLast hs hm
    | reduce => exact h.data s hs (hm.imp_right fun hm => ⟨hOp.resolve_right (by simp), hm.2⟩)

theorem Separated.run (h : Separated k m True st.store.writes c) (ops : List SymbolicOp)
    (hk : k ≤ n) (hSim : Simulates suite st c)
    (hRun : st.runFrom suite prover (drawAll n ops) = some st') :
    ∃ c', Simulates suite st' c' ∧ Separated k m True st'.store.writes c' := by
  induction ops generalizing n st c with
  | nil =>
    cases hRun
    exact ⟨c, hSim, h⟩
  | cons op ops ih =>
    simp only [drawAll, RunState.runFrom, List.foldlM_cons, Option.bind_eq_some] at hRun
    obtain ⟨mid, hStep, hRest⟩ := hRun
    exact ih (h.step hk (.inl trivial) hSim hStep) (Nat.le_succ_of_le hk)
      (step_simulates suite_lawful hSim hStep) hRest

/-- Keys drawn before are closed under what an attacker can do. -/
theorem Separated.draw_lt_of_derivable {rekeyed : Prop} (h : Separated k m rekeyed history c)
    (hk : 0 < k) (hKnown : known.draw < k) (hKey : Derivable history known key) : key.draw < k := by
  induction hKey with
  | head => exact hKnown
  | derive tag _ ih => exact ih
  | @decrypt key cell ct hMem _ ih =>
    by_cases hEq : ct.key = key
    · have hOpen : suite.decrypt ct key = ct.message := if_pos hEq
      rw [hOpen]
      exact h.opens cell ct hMem (hEq ▸ ih)
    · have hJunk : suite.decrypt ct key = .junk ct.key ct.message key := if_neg hEq
      rw [hJunk]
      exact hk

/-- From a rekey on, the data keys of new numbers are not derivable from the keys drawn
before and every row ever written, now or after any further operations.  A derivation
starts from one key, so keys that are known together derive no more. -/
theorem rekey_excludes (prover : RuntimeProver Key Commitment Ciphertext P) {k : Nat} (hk : 0 < k)
    {st₁ st : RunState Key Stored P} {c₁ : Chain Key} (hSim₁ : Simulates suite st₁ c₁)
    (hFresh : ∀ cell ct, (cell, Stored.ciphertext ct) ∈ st₁.store.writes → ct.message.draw < k)
    (localHgk : Key) (ops : List SymbolicOp)
    (hRun : st₁.runFrom suite prover (drawAll k (.rekey localHgk :: ops)) = some st)
    (s : Nat) (hs : st₁.created.length ≤ s) (key : Key) (hKey : st.created[s]? = some key)
    (known : Key) (hKnown : known.draw < k) : ¬ Derivable st.store.writes known key := by
  have hSep₁ : Separated k c₁.dNext False st₁.store.writes c₁ :=
    ⟨fun cell ct hMem _ => hFresh cell ct hMem, False.elim, fun s hs hm => by simp at hm; omega⟩
  simp only [drawAll, RunState.runFrom, List.foldlM_cons, Option.bind_eq_some] at hRun
  obtain ⟨mid, hStep, hRest⟩ := hRun
  have hMid := hSep₁.step (Nat.le_refl k) (.inr ⟨localHgk, rfl⟩) hSim₁ hStep
  obtain ⟨c, hSim, hSep⟩ :=
    hMid.run ops (Nat.le_succ k) (step_simulates suite_lawful hSim₁ hStep) hRest
  intro hDerive
  have hOld := hSep.draw_lt_of_derivable hk hKnown hDerive
  rw [hSim.created, List.getElem?_map, Option.map_eq_some_iff] at hKey
  obtain ⟨s', hMem, rfl⟩ := hKey
  obtain ⟨hLt, rfl⟩ := List.getElem?_eq_some_iff.mp hMem
  rw [hSim₁.created, List.length_map, List.length_range] at hs
  rw [List.length_range] at hLt
  rw [List.getElem_range] at hOld
  have hNew := hSep.data s hLt (.inl hs)
  omega

/-- A rekey and an extend: the first group key does not open the newest data key. -/
theorem rekey_excludes_first_key : ∃ st : RunState Key Stored (List UInt8),
    start.runFrom suite noProver (drawAll 1 [.rekey (.group 0 0), .extend (.group 1 0)]) = some st ∧
      st.created[2]? = some (.derive (.data 1) .dDerive) ∧
      ¬ Derivable st.store.writes (.group 0 0) (.derive (.data 1) .dDerive) := by
  have hFresh : ∀ cell ct, (cell, Stored.ciphertext ct) ∈ (start (P := List UInt8)).store.writes →
      ct.message.draw < 1 := by
    intro cell ct hMem
    rcases mem_writes_new hMem with hMem | rfl
    · cases hMem
    · exact Nat.zero_lt_one
  exact ⟨_, rfl, rfl, rekey_excludes noProver Nat.zero_lt_one (simulates_new suite_lawful _ _ _)
    hFresh (.group 0 0) [.extend (.group 1 0)] rfl 2 (by decide) _ rfl _ Nat.zero_lt_one⟩

end EncryptedSpaces.Retention.Symbolic
