import Mathlib.Data.List.Basic
import Mathlib.Tactic.Common

/-!
# Actions with effects

A call into a stateful component is a function of the state before it.  It ends
with a value or with an error, it leaves a state behind in either case, and on
its way it performs effects that somebody outside can see.  Nothing is rolled
back when a call fails: the state and the effects are those up to the failure.

Two kinds of rule are given.  The equations `bind_of_ok` and `bind_of_error` run
an action whose first part is known.  The rule `Keeps.bind` is for facts that a
whole action inherits from its parts without being run: a relation between the
state before, the effects and the state after that composes is kept by every
action that is built from actions keeping it.
-/

namespace MalakethTurbo

/-- How a call ends, with the state and the effects it leaves. -/
structure Outcome (σ η ε α : Type) where
  result : Except ε α
  state : σ
  effects : List η

/-- A call that may change a state, fail, and perform effects. -/
def Action (σ η ε α : Type) := σ → Outcome σ η ε α

namespace Action

variable {σ η ε α β : Type}

/-- The outcome with effects that came before it. -/
def after (es : List η) (o : Outcome σ η ε α) : Outcome σ η ε α :=
  { o with effects := es ++ o.effects }

/-- Sequencing stops at the first failure. -/
def sequence (x : Action σ η ε α) (f : α → Action σ η ε β) : Action σ η ε β := fun s =>
  match x s with
  | ⟨.ok a, s', es⟩ => after es (f a s')
  | ⟨.error e, s', es⟩ => ⟨.error e, s', es⟩

instance : Monad (Action σ η ε) where
  pure a := fun s => ⟨.ok a, s, []⟩
  bind := sequence

/-- Reads the state. -/
def read : Action σ η ε σ := fun s => ⟨.ok s, s, []⟩

/-- Changes the state. -/
def change (f : σ → σ) : Action σ η ε Unit := fun s => ⟨.ok (), f s, []⟩

/-- A call that has nothing to do with the state. -/
def lift (x : Except ε α) : Action σ η ε α := fun s => ⟨x, s, []⟩

/-- Performs an effect. -/
def perform (e : η) : Action σ η ε Unit := fun s => ⟨.ok (), s, [e]⟩

/-- Performs effects one after the other. -/
def performAll (es : List η) : Action σ η ε Unit := fun s => ⟨.ok (), s, es⟩

/-! ## Running an action -/

@[simp] theorem after_nil (o : Outcome σ η ε α) : after [] o = o := rfl

@[simp] theorem after_result (es : List η) (o : Outcome σ η ε α) :
    (after es o).result = o.result := rfl

@[simp] theorem after_state (es : List η) (o : Outcome σ η ε α) :
    (after es o).state = o.state := rfl

@[simp] theorem after_effects (es : List η) (o : Outcome σ η ε α) :
    (after es o).effects = es ++ o.effects := rfl

@[simp] theorem pure_run (a : α) (s : σ) :
    (pure a : Action σ η ε α) s = ⟨.ok a, s, []⟩ := rfl

@[simp] theorem read_run (s : σ) : (read : Action σ η ε σ) s = ⟨.ok s, s, []⟩ := rfl

@[simp] theorem change_run (f : σ → σ) (s : σ) :
    (change f : Action σ η ε Unit) s = ⟨.ok (), f s, []⟩ := rfl

@[simp] theorem lift_run (x : Except ε α) (s : σ) :
    (lift x : Action σ η ε α) s = ⟨x, s, []⟩ := rfl

@[simp] theorem perform_run (e : η) (s : σ) :
    (perform e : Action σ η ε Unit) s = ⟨.ok (), s, [e]⟩ := rfl

@[simp] theorem performAll_run (es : List η) (s : σ) :
    (performAll es : Action σ η ε Unit) s = ⟨.ok (), s, es⟩ := rfl

theorem after_after (es es' : List η) (o : Outcome σ η ε α) :
    after es (after es' o) = after (es ++ es') o := by
  rw [after, after, after, List.append_assoc]

theorem bind_of_ok {x : Action σ η ε α} {f : α → Action σ η ε β} {s s' : σ} {a : α}
    {es : List η} (h : x s = ⟨.ok a, s', es⟩) : (x >>= f) s = after es (f a s') := by
  show sequence x f s = _
  rw [sequence, h]

theorem bind_of_error {x : Action σ η ε α} {f : α → Action σ η ε β} {s s' : σ} {e : ε}
    {es : List η} (h : x s = ⟨.error e, s', es⟩) : (x >>= f) s = ⟨.error e, s', es⟩ := by
  show sequence x f s = _
  rw [sequence, h]

/-- A part that begins with effects and goes on as another one. -/
theorem bind_of_after {x y : Action σ η ε α} {f : α → Action σ η ε β} {s s' : σ} {es : List η}
    (h : x s = after es (y s')) : (x >>= f) s = after es ((y >>= f) s') := by
  cases hrun : y s' with
  | mk result s'' es' =>
      rw [hrun] at h
      cases result with
      | error e =>
          rw [bind_of_error hrun, bind_of_error h]
          rfl
      | ok a => rw [bind_of_ok hrun, bind_of_ok h, after_after]

@[simp] theorem read_bind (f : σ → Action σ η ε β) (s : σ) : (read >>= f) s = f s s := rfl

@[simp] theorem change_bind (g : σ → σ) (f : Unit → Action σ η ε β) (s : σ) :
    (change g >>= f) s = f () (g s) := rfl

@[simp] theorem lift_ok_bind (a : α) (f : α → Action σ η ε β) (s : σ) :
    (lift (.ok a) >>= f) s = f a s := rfl

@[simp] theorem lift_error_bind (e : ε) (f : α → Action σ η ε β) (s : σ) :
    (lift (.error e) >>= f) s = ⟨.error e, s, []⟩ := rfl

@[simp] theorem perform_bind (e : η) (f : Unit → Action σ η ε β) (s : σ) :
    (perform e >>= f) s = after [e] (f () s) := rfl

/-- A sequence that ends well has a first part that does. -/
theorem exists_of_bind_ok {x : Action σ η ε α} {f : α → Action σ η ε β} {s : σ} {b : β}
    (h : ((x >>= f) s).result = .ok b) :
    ∃ a s' es, x s = ⟨.ok a, s', es⟩ ∧ (x >>= f) s = after es (f a s') := by
  cases hrun : x s with
  | mk result s' es =>
      cases result with
      | ok a => exact ⟨a, s', es, rfl, bind_of_ok hrun⟩
      | error e =>
          rw [bind_of_error hrun] at h
          cases h

/-! ## What a whole action keeps -/

/-- An action keeps a relation between the state before, the effects and the state
after, whether it fails or not. -/
def Keeps (R : σ → List η → σ → Prop) (x : Action σ η ε α) : Prop :=
  ∀ s, R s (x s).effects (x s).state

/-- A relation that doing nothing keeps and that composes. -/
structure Composes (R : σ → List η → σ → Prop) : Prop where
  refl : ∀ s, R s [] s
  trans : ∀ {s s' s'' es es'}, R s es s' → R s' es' s'' → R s (es ++ es') s''

namespace Keeps

variable {R : σ → List η → σ → Prop}

theorem pure (hR : Composes R) (a : α) : Keeps R (Pure.pure a : Action σ η ε α) :=
  fun s => hR.refl s

theorem read (hR : Composes R) : Keeps R (Action.read : Action σ η ε σ) := fun s => hR.refl s

theorem lift (hR : Composes R) (x : Except ε α) : Keeps R (Action.lift x : Action σ η ε α) :=
  fun s => hR.refl s

theorem change {f : σ → σ} (h : ∀ s, R s [] (f s)) :
    Keeps R (Action.change f : Action σ η ε Unit) := h

theorem perform {e : η} (h : ∀ s, R s [e] s) : Keeps R (Action.perform e : Action σ η ε Unit) :=
  h

theorem performAll (hR : Composes R) {es : List η} (h : ∀ e ∈ es, ∀ s, R s [e] s) :
    Keeps R (Action.performAll es : Action σ η ε Unit) := by
  intro s
  show R s es s
  induction es with
  | nil => exact hR.refl s
  | cons e es ih =>
      have hrest := ih fun e' he' => h e' (List.mem_cons_of_mem _ he')
      exact hR.trans (h e List.mem_cons_self s) hrest

/-- **A sequence keeps what its parts keep.** -/
theorem bind (hR : Composes R) {x : Action σ η ε α} {f : α → Action σ η ε β}
    (hx : Keeps R x) (hf : ∀ a, Keeps R (f a)) : Keeps R (x >>= f) := by
  intro s
  have hs := hx s
  cases hrun : x s with
  | mk result s' es =>
      rw [hrun] at hs
      cases result with
      | error e =>
          rw [bind_of_error hrun]
          exact hs
      | ok a =>
          rw [bind_of_ok hrun]
          exact hR.trans hs (hf a s')

end Keeps
end Action
end MalakethTurbo
