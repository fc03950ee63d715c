import Mathlib.Data.List.Forall2
import Mathlib.Logic.Basic

/-!
# Programs that ask questions

`Prog Q A E α` is a computation that may ask questions `q : Q`, receives an
answer of type `A q` for each, and ends with a result or an error.  The
questions are data, so one program can be run against different answerers: a
full store, a pruned witness, or a store behind a cache.

Two notions are developed.  `eval` runs a program against a stateless answerer,
and `run` against one that threads a state.  `Returns R P p` says that `p` can
only return values satisfying `P` as long as every answer satisfies `R`; its
rules follow the program's text, which is how facts about long validators are
proved without unfolding what they call.  `Succeeds` is the other half: the
program returns at all.
-/

namespace EncryptedSpaces.Lib

/-- Programs over questions `Q` with answers `A` and errors `E`. -/
inductive Prog (Q : Type) (A : Q → Type) (E : Type) (α : Type) : Type where
  | ret (a : α)
  | fail (e : E)
  | ask (q : Q) (next : A q → Prog Q A E α)

namespace Prog

variable {Q : Type} {A : Q → Type} {E α β : Type}

protected def bind (p : Prog Q A E α) (f : α → Prog Q A E β) : Prog Q A E β :=
  match p with
  | .ret a => f a
  | .fail e => .fail e
  | .ask q next => .ask q fun a => (next a).bind f

instance : Monad (Prog Q A E) where
  pure := .ret
  bind := Prog.bind

@[simp] theorem pure_eq (a : α) : (pure a : Prog Q A E α) = .ret a := rfl

@[simp] theorem ret_bind (a : α) (f : α → Prog Q A E β) : (Prog.ret a >>= f) = f a := rfl

@[simp] theorem fail_bind (e : E) (f : α → Prog Q A E β) :
    ((Prog.fail e : Prog Q A E α) >>= f) = .fail e := rfl

@[simp] theorem ask_bind (q : Q) (next : A q → Prog Q A E α) (f : α → Prog Q A E β) :
    (Prog.ask q next >>= f) = .ask q fun a => next a >>= f := rfl

/-- Ask one question. -/
def query (q : Q) : Prog Q A E (A q) := .ask q .ret

/-- A pure step that may fail. -/
def lift (x : Except E α) : Prog Q A E α :=
  match x with
  | .ok a => .ret a
  | .error e => .fail e

/-- Go on if `c` holds, fail with `e` otherwise. -/
def ensure (c : Prop) [Decidable c] (e : E) : Prog Q A E Unit :=
  if c then .ret () else .fail e

/-- Run `body` on every element in order. -/
def forEach (l : List β) (body : β → Prog Q A E Unit) : Prog Q A E Unit :=
  match l with
  | [] => .ret ()
  | b :: l => do
      body b
      forEach l body

/-- Run `f` on every element in order and collect the results. -/
def collect (l : List β) (f : β → Prog Q A E α) : Prog Q A E (List α) :=
  match l with
  | [] => .ret []
  | b :: l => do
      let a ← f b
      let as ← collect l f
      return a :: as

/-! ## Running -/

/-- Run against a stateless answerer. -/
def eval (h : (q : Q) → Except E (A q)) : Prog Q A E α → Except E α
  | .ret a => .ok a
  | .fail e => .error e
  | .ask q next =>
    match h q with
    | .ok a => (next a).eval h
    | .error e => .error e

/-- Run against an answerer with a state. -/
def run {σ : Type} (h : (q : Q) → σ → Except E (A q × σ)) :
    Prog Q A E α → σ → Except E (α × σ)
  | .ret a, s => .ok (a, s)
  | .fail e, _ => .error e
  | .ask q next, s =>
    match h q s with
    | .ok (a, s') => (next a).run h s'
    | .error e => .error e

section Eval

variable {h : (q : Q) → Except E (A q)}

@[simp] theorem eval_ret (a : α) : (Prog.ret a : Prog Q A E α).eval h = .ok a := rfl

@[simp] theorem eval_fail (e : E) : (Prog.fail e : Prog Q A E α).eval h = .error e := rfl

theorem eval_bind (p : Prog Q A E α) (f : α → Prog Q A E β) :
    (p >>= f).eval h = (p.eval h).bind fun a => (f a).eval h := by
  induction p with
  | ret a => rfl
  | fail e => rfl
  | ask q next ih =>
    rw [ask_bind, eval, eval]
    cases h q with
    | ok a => exact ih a
    | error e => rfl

/-- A sequence returns exactly when its parts do. -/
theorem eval_bind_eq_ok {p : Prog Q A E α} {f : α → Prog Q A E β} {b : β} :
    (p >>= f).eval h = .ok b ↔ ∃ a, p.eval h = .ok a ∧ (f a).eval h = .ok b := by
  rw [eval_bind]
  cases p.eval h with
  | ok a => simp [Except.bind]
  | error e => simp [Except.bind]

/-- An answerer that knows at least as much gives the same result. -/
theorem eval_mono {h' : (q : Q) → Except E (A q)} (hAnswers : ∀ q a, h q = .ok a → h' q = .ok a)
    {p : Prog Q A E α} {a : α} (hEval : p.eval h = .ok a) : p.eval h' = .ok a := by
  induction p with
  | ret b => exact hEval
  | fail e => cases hEval
  | ask q next ih =>
    rw [eval] at hEval ⊢
    cases hq : h q with
    | error e =>
      rw [hq] at hEval
      cases hEval
    | ok b =>
      rw [hq] at hEval
      rw [hAnswers q b hq]
      exact ih b hEval

@[simp] theorem eval_lift (x : Except E α) : (lift x : Prog Q A E α).eval h = x := by
  cases x <;> rfl

@[simp] theorem eval_query (q : Q) : (query q : Prog Q A E (A q)).eval h = h q := by
  unfold query eval
  cases h q <;> rfl

@[simp] theorem eval_ensure {c : Prop} [Decidable c] {e : E} {u : Unit} :
    (ensure c e : Prog Q A E Unit).eval h = .ok u ↔ c := by
  unfold ensure
  split <;> simp [*]

end Eval

/-! ## What a program can return -/

/-- Along every path on which the answers satisfy `R`, a result satisfies `P`. -/
def Returns (R : (q : Q) → A q → Prop) (P : α → Prop) : Prog Q A E α → Prop
  | .ret a => P a
  | .fail _ => True
  | .ask q next => ∀ a, R q a → (next a).Returns R P

section Returns

variable {R : (q : Q) → A q → Prop} {P : α → Prop} {P' : β → Prop}

theorem returns_ret {a : α} (h : P a) : (Prog.ret a : Prog Q A E α).Returns R P := h

theorem returns_fail {e : E} : (Prog.fail e : Prog Q A E α).Returns R P := trivial

theorem returns_lift {x : Except E α} (h : ∀ {a}, x = .ok a → P a) :
    (lift x : Prog Q A E α).Returns R P := by
  cases x with
  | ok a => exact h rfl
  | error e => trivial

theorem returns_ensure {c : Prop} [Decidable c] {e : E} :
    (ensure c e : Prog Q A E Unit).Returns R fun _ => c := by
  unfold ensure
  split
  · exact returns_ret (by assumption)
  · trivial

variable {p : Prog Q A E α} {f : α → Prog Q A E β}

theorem Returns.bind (hp : p.Returns R P) (hf : ∀ a, P a → (f a).Returns R P') :
    (p >>= f).Returns R P' := by
  induction p with
  | ret a => exact hf a hp
  | fail e => trivial
  | ask q next ih => exact fun a ha => ih a (hp a ha)

theorem Returns.mono {P₁ : α → Prop} (hp : p.Returns R P) (h : ∀ a, P a → P₁ a) :
    p.Returns R P₁ := by
  induction p with
  | ret a => exact h a hp
  | fail e => trivial
  | ask q next ih => exact fun a ha => ih a (hp a ha)

theorem Returns.and {P₁ : α → Prop} (hp : p.Returns R P) (hp₁ : p.Returns R P₁) :
    p.Returns R fun a => P a ∧ P₁ a := by
  induction p with
  | ret a => exact ⟨hp, hp₁⟩
  | fail e => trivial
  | ask q next ih => exact fun a ha => ih a (hp a ha) (hp₁ a ha)

theorem returns_true (p : Prog Q A E α) : p.Returns R fun _ => True := by
  induction p with
  | ret a => trivial
  | fail e => trivial
  | ask q next ih => exact fun a _ => ih a

/-- Step over a statement whose result does not matter. -/
theorem returns_skip (hf : ∀ a, (f a).Returns R P') : (p >>= f).Returns R P' :=
  (returns_true p).bind fun a _ => hf a

/-- What a statement establishes, whatever its result, stays established. -/
theorem Returns.keep {C : Prop} (hp : p.Returns R fun _ => C) : (p >>= f).Returns R fun _ => C :=
  hp.bind fun a hC => (returns_true (f a)).mono fun _ _ => hC

theorem returns_query {q : Q} : (query q : Prog Q A E (A q)).Returns R fun a => R q a :=
  fun _ ha => ha

theorem returns_ite {c : Prop} [Decidable c] {q : Prog Q A E α} (hp : c → p.Returns R P)
    (hq : ¬ c → q.Returns R P) : (if c then p else q).Returns R P := by
  split
  · exact hp (by assumption)
  · exact hq (by assumption)

/-- What holds of every collected result holds of each. -/
theorem returns_collect {l : List β} {f : β → Prog Q A E α}
    (h : ∀ b ∈ l, (f b).Returns R P) : (collect l f).Returns R fun as => ∀ a ∈ as, P a := by
  induction l with
  | nil => exact returns_ret (by simp)
  | cons b l ih =>
    refine (h b (by simp)).bind fun a ha => ?_
    refine (ih fun b' hb' => h b' (by simp [hb'])).bind fun as has => ?_
    refine returns_ret fun a' ha' => ?_
    rcases List.mem_cons.mp ha' with rfl | hMem
    · exact ha
    · exact has a' hMem

/-- The collected results belong to the elements, one each and in order. -/
theorem returns_collect_forall₂ {Q' : β → α → Prop} {l : List β} {f : β → Prog Q A E α}
    (h : ∀ b ∈ l, (f b).Returns R (Q' b)) : (collect l f).Returns R (List.Forall₂ Q' l) := by
  induction l with
  | nil => exact returns_ret .nil
  | cons b l ih =>
    refine (h b (by simp)).bind fun a ha => ?_
    refine (ih fun b' hb' => h b' (by simp [hb'])).bind fun as has => ?_
    exact returns_ret (.cons ha has)

/-- Against a stateless answerer, `Returns` is the usual partial correctness. -/
theorem Returns.of_eval {h : (q : Q) → Except E (A q)} {a : α} (hp : p.Returns R P)
    (hR : ∀ q a, h q = .ok a → R q a) (he : p.eval h = .ok a) : P a := by
  induction p with
  | ret b =>
    cases he
    exact hp
  | fail e => cases he
  | ask q next ih =>
    rw [eval] at he
    cases hq : h q with
    | ok b =>
      rw [hq] at he
      exact ih b (hp b (hR q b hq)) he
    | error e =>
      rw [hq] at he
      cases he

theorem Returns.of_ok {h : (q : Q) → Except E (A q)} {a : α}
    (hp : p.Returns (fun q a => h q = .ok a) P) (he : p.eval h = .ok a) : P a :=
  hp.of_eval (fun _ _ hq => hq) he

end Returns

/-! ## Programs that return -/

/-- The program returns against a stateless answerer.  What the result satisfies is
the matter of `Returns`. -/
def Succeeds (h : (q : Q) → Except E (A q)) (p : Prog Q A E α) : Prop := ∃ a, p.eval h = .ok a

section Succeeds

variable {h : (q : Q) → Except E (A q)}

theorem succeeds_ret (a : α) : (Prog.ret a : Prog Q A E α).Succeeds h := ⟨a, rfl⟩

theorem succeeds_lift {x : Except E α} {a : α} (hx : x = .ok a) :
    (lift x : Prog Q A E α).Succeeds h := ⟨a, (eval_lift x).trans hx⟩

theorem succeeds_ensure {c : Prop} [Decidable c] {e : E} (hc : c) :
    (ensure c e : Prog Q A E Unit).Succeeds h := ⟨(), eval_ensure.mpr hc⟩

theorem succeeds_query {q : Q} {a : A q} (ha : h q = .ok a) :
    (query q : Prog Q A E (A q)).Succeeds h := ⟨a, (eval_query q).trans ha⟩

/-- The rest has to return for every result that the statement can have. -/
theorem Succeeds.bind {R : (q : Q) → A q → Prop} {P : α → Prop} {p : Prog Q A E α}
    {f : α → Prog Q A E β} (hp : p.Succeeds h) (hR : ∀ q a, h q = .ok a → R q a)
    (hReturns : p.Returns R P) (hf : ∀ a, P a → (f a).Succeeds h) : (p >>= f).Succeeds h := by
  obtain ⟨a, ha⟩ := hp
  obtain ⟨b, hb⟩ := hf a (hReturns.of_eval hR ha)
  exact ⟨b, eval_bind_eq_ok.mpr ⟨a, ha, hb⟩⟩

/-- The same when the result is known. -/
theorem succeeds_bind_of_eq {p : Prog Q A E α} {f : α → Prog Q A E β} {a : α}
    (hp : p.eval h = .ok a) (hf : (f a).Succeeds h) : (p >>= f).Succeeds h := by
  obtain ⟨b, hb⟩ := hf
  exact ⟨b, eval_bind_eq_ok.mpr ⟨a, hp, hb⟩⟩

theorem succeeds_lift_bind {x : Except E α} {f : α → Prog Q A E β} {a : α} (hx : x = .ok a)
    (hf : (f a).Succeeds h) : (lift x >>= f).Succeeds h :=
  succeeds_bind_of_eq ((eval_lift x).trans hx) hf

theorem succeeds_ensure_bind {c : Prop} [Decidable c] {e : E} {f : Unit → Prog Q A E β} (hc : c)
    (hf : (f ()).Succeeds h) : (ensure c e >>= f).Succeeds h :=
  succeeds_bind_of_eq (eval_ensure.mpr hc) hf

theorem succeeds_collect {l : List β} {f : β → Prog Q A E α} (hf : ∀ b ∈ l, (f b).Succeeds h) :
    (collect l f).Succeeds h := by
  induction l with
  | nil => exact succeeds_ret []
  | cons b l ih =>
    obtain ⟨a, ha⟩ := hf b List.mem_cons_self
    obtain ⟨as, has⟩ := ih fun b' hb' => hf b' (List.mem_cons_of_mem b hb')
    exact succeeds_bind_of_eq ha (succeeds_bind_of_eq has (succeeds_ret _))

theorem succeeds_forEach {l : List β} {body : β → Prog Q A E Unit}
    (hBody : ∀ b ∈ l, (body b).Succeeds h) : (forEach l body).Succeeds h := by
  induction l with
  | nil => exact succeeds_ret ()
  | cons b l ih =>
    obtain ⟨_, hb⟩ := hBody b List.mem_cons_self
    exact succeeds_bind_of_eq hb (ih fun b' hb' => hBody b' (List.mem_cons_of_mem b hb'))

end Succeeds

end Prog

end EncryptedSpaces.Lib
