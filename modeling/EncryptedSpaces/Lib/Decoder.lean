import Mathlib.Data.List.Basic

/-!
# Decoders that consume a front

A decoder takes symbols from the front of its input and returns a value with
what is left.  `Reads d front a` says that `d` takes exactly `front` and returns
`a`, whatever follows: the form in which round trips compose, since the front of
a sequence is the fronts of its parts one after the other.
-/

namespace EncryptedSpaces.Lib

/-- Decoders over symbols `S` with errors `E`. -/
def Decoder (S E α : Type) : Type := List S → Except E (α × List S)

namespace Decoder

variable {S E α β : Type}

instance : Monad (Decoder S E) where
  pure a := fun input => .ok (a, input)
  bind d f := fun input =>
    match d input with
    | .ok (a, rest) => f a rest
    | .error e => .error e

/-- Fail whatever the input is. -/
def fail (e : E) : Decoder S E α := fun _ => .error e

/-- The next `n` symbols. -/
def take (e : E) (n : Nat) : Decoder S E (List S) := fun input =>
  if n ≤ input.length then .ok (input.take n, input.drop n) else .error e

/-- `d` repeated `n` times. -/
def replicate (d : Decoder S E α) : Nat → Decoder S E (List α)
  | 0 => pure []
  | n + 1 => do
      let a ← d
      let as ← replicate d n
      return a :: as

/-- `d` takes exactly `front` and returns `a`. -/
def Reads (d : Decoder S E α) (front : List S) (a : α) : Prop :=
  ∀ rest, d (front ++ rest) = .ok (a, rest)

theorem reads_pure (a : α) : Reads (pure a : Decoder S E α) [] a := fun _ => rfl

theorem Reads.bind {d : Decoder S E α} {f : α → Decoder S E β} {front front' : List S} {a : α}
    {b : β} (hd : Reads d front a) (hf : Reads (f a) front' b) :
    Reads (d >>= f) (front ++ front') b := by
  intro rest
  change (match d (front ++ front' ++ rest) with
    | .ok (a, rest) => f a rest
    | .error e => .error e) = _
  rw [List.append_assoc, hd]
  exact hf rest

/-- A last step that takes nothing. -/
theorem Reads.map {d : Decoder S E α} {f : α → Decoder S E β} {front : List S} {a : α} {b : β}
    (hd : Reads d front a) (hf : Reads (f a) [] b) : Reads (d >>= f) front b := by
  have h := hd.bind hf
  rwa [List.append_nil] at h

theorem reads_take {e : E} {n : Nat} {front : List S} (h : front.length = n) :
    Reads (take e n) front front := by
  intro rest
  have hLe : n ≤ (front ++ rest).length := by
    rw [List.length_append, h]
    exact Nat.le_add_right _ _
  unfold take
  rw [if_pos hLe, ← h, List.take_left, List.drop_left]

theorem reads_replicate {d : Decoder S E α} {enc : α → List S} {as : List α}
    (h : ∀ a ∈ as, Reads d (enc a) a) : Reads (replicate d as.length) (as.flatMap enc) as := by
  induction as with
  | nil => exact reads_pure []
  | cons a as ih =>
    refine (h a List.mem_cons_self).bind ?_
    exact (ih fun b hb => h b (List.mem_cons_of_mem _ hb)).map (reads_pure _)

end Decoder

end EncryptedSpaces.Lib
