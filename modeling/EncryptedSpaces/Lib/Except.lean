import Mathlib.Data.List.Forall2

/-!
# Inverting computations that may fail

From a computation in `Except` that returned, these lemmas give what its parts
returned.  They are how the checks of a validator are read off an accepted
input.
-/

namespace EncryptedSpaces.Lib.Except

variable {E α β : Type}

variable {x : Except E α} {f : α → Except E β} {b : β} {a : α} {l : List α} {bs : List β}

/-- A sequence returns exactly when its parts do. -/
theorem bind_eq_ok :
    (x >>= f) = .ok b ↔ ∃ a, x = .ok a ∧ f a = .ok b := by
  cases x with
  | ok a =>
    constructor
    · intro h
      exact ⟨a, rfl, h⟩
    · rintro ⟨a', ha, h⟩
      cases ha
      exact h
  | error e =>
    constructor
    · intro h
      cases h
    · rintro ⟨a', ha, _⟩
      cases ha

theorem map_eq_ok {f : α → β} :
    x.map f = .ok b ↔ ∃ a, x = .ok a ∧ f a = b := by
  cases x with
  | ok a => simp [Except.map]
  | error e => simp [Except.map]

theorem mapError_eq_ok {F : Type} {f : E → F} :
    x.mapError f = .ok a ↔ x = .ok a := by
  cases x with
  | ok a' => simp [Except.mapError]
  | error e => simp [Except.mapError]

theorem toOption_eq_some : x.toOption = some a ↔ x = .ok a := by
  cases x with
  | ok a' => simp [Except.toOption]
  | error e => simp [Except.toOption]

@[simp] theorem pure_eq_ok {b : α} : (pure a : Except E α) = .ok b ↔ a = b :=
  Except.ok.injEq a b ▸ Iff.rfl

/-- A traversal returns exactly when every element does, with its entry of the
result. -/
theorem mapM_eq_ok :
    l.mapM f = .ok bs ↔ List.Forall₂ (fun a b => f a = .ok b) l bs := by
  induction l generalizing bs with
  | nil =>
    rw [List.mapM_nil, pure_eq_ok, List.forall₂_nil_left_iff]
    exact eq_comm
  | cons a l ih =>
    rw [List.mapM_cons, bind_eq_ok, List.forall₂_cons_left_iff]
    constructor
    · rintro ⟨b, hb, h⟩
      obtain ⟨bs', hbs', hRet⟩ := bind_eq_ok.mp h
      exact ⟨b, bs', hb, ih.mp hbs', (pure_eq_ok.mp hRet).symm⟩
    · rintro ⟨b, bs', hb, hTail, rfl⟩
      exact ⟨b, hb, bind_eq_ok.mpr ⟨bs', ih.mpr hTail, rfl⟩⟩

theorem mapM_isOk (h : ∀ a ∈ l, ∃ b, f a = .ok b) :
    ∃ bs, l.mapM f = .ok bs := by
  induction l with
  | nil => exact ⟨[], rfl⟩
  | cons a l ih =>
    obtain ⟨b, hb⟩ := h a List.mem_cons_self
    obtain ⟨bs, hbs⟩ := ih fun a' ha' => h a' (List.mem_cons_of_mem a ha')
    exact ⟨b :: bs, mapM_eq_ok.mpr (.cons hb (mapM_eq_ok.mp hbs))⟩

/-- Every element of a returned traversal comes from an element of the list. -/
theorem exists_of_mem_mapM (h : l.mapM f = .ok bs) (hb : b ∈ bs) : ∃ a ∈ l, f a = .ok b := by
  have hAll := mapM_eq_ok.mp h
  clear h
  induction hAll with
  | nil => cases hb
  | cons hHead _ ih =>
    rcases List.mem_cons.mp hb with rfl | hMem
    · exact ⟨_, by simp, hHead⟩
    · obtain ⟨a, ha, hfa⟩ := ih hMem
      exact ⟨a, by simp [ha], hfa⟩

/-- A traversal that returned did so at every element. -/
theorem exists_ok_of_mapM (h : l.mapM f = .ok bs) (ha : a ∈ l) : ∃ b ∈ bs, f a = .ok b := by
  have hAll := mapM_eq_ok.mp h
  clear h
  induction hAll with
  | nil => cases ha
  | cons hHead _ ih =>
    rcases List.mem_cons.mp ha with rfl | hMem
    · exact ⟨_, by simp, hHead⟩
    · obtain ⟨b, hb, hfb⟩ := ih hMem
      exact ⟨b, by simp [hb], hfb⟩

/-- What a computation returned is decided by running it. -/
instance decidableOkAnd {p : α → Prop} [DecidablePred p] : Decidable (∃ a, x = .ok a ∧ p a) :=
  match x with
  | .ok a => decidable_of_iff (p a) (by simp)
  | .error _ => isFalse (by simp)

instance decidableOk : Decidable (∃ a, x = .ok a) :=
  match x with
  | .ok a => isTrue ⟨a, rfl⟩
  | .error _ => isFalse (by simp)

end EncryptedSpaces.Lib.Except

namespace EncryptedSpaces.Lib.Option

theorem bind_eq_some {α β : Type} {x : Option α} {f : α → Option β} {b : β} :
    (x >>= f) = some b ↔ ∃ a, x = some a ∧ f a = some b := Option.bind_eq_some_iff

end EncryptedSpaces.Lib.Option
