import Mathlib.Data.List.Basic
import Mathlib.Tactic.Common

/-!
# Transition systems and their runs

A system is given by its initial states and its labelled steps.  A run is listed
with the state before each step, so that a condition on the steps of a run can
speak about the state in which the step was taken.

There is one induction, `Run.history_after`: what the initial states have and what
the steps allowed by a condition preserve, of the steps taken so far and the state
they lead to, holds at the end of every run whose steps all meet the condition.  The
condition may look at the steps before, or at the step alone (`Run.history_along`), and
`Run.invariant_along` is the case for a state alone.  `Run.forall_congr` carries an equivalence
that holds of each step from a reachable state over to whole runs, and
`Run.forall_congr_along` one that holds only as long as an invariant does.
-/

namespace MalakethTurbo

/-- A transition system with states `σ` and labels `ℓ`. -/
structure System (σ ℓ : Type) where
  init : σ → Prop
  step : σ → ℓ → σ → Prop

variable {σ ℓ : Type}

/-- A run: the steps it took, each with the state before it, and where it ended. -/
inductive Run (S : System σ ℓ) : List (σ × ℓ) → σ → Prop where
  | start {s : σ} : S.init s → Run S [] s
  | next {steps : List (σ × ℓ)} {s s' : σ} {l : ℓ} :
      Run S steps s → S.step s l s' → Run S (steps ++ [(s, l)]) s'

/-- The states that a run goes through. -/
def states (steps : List (σ × ℓ)) (s : σ) : List σ := steps.map Prod.fst ++ [s]

/-- A state that some run ends in. -/
def System.Reachable (S : System σ ℓ) (s : σ) : Prop := ∃ steps, Run S steps s

namespace Run

variable {S : System σ ℓ} {steps : List (σ × ℓ)} {s : σ}

/-- **What a run has done so far.**  A relation between the steps of a run and the state
they lead to, kept by every step that a condition on it and the steps before it allows. -/
theorem history_after {P : List (σ × ℓ) → σ → Prop} {G : List (σ × ℓ) → σ → ℓ → Prop}
    (h : Run S steps s) (hinit : ∀ s, S.init s → P [] s)
    (hstep : ∀ steps s l s', P steps s → G steps s l → S.step s l s' → P (steps ++ [(s, l)]) s')
    (hguard : ∀ k x, steps[k]? = some x → G (steps.take k) x.1 x.2) : P steps s := by
  induction h with
  | start hs => exact hinit _ hs
  | @next steps s s' l _ hl ih =>
      have hprev : P steps s := ih fun k x hx => by
        have hlt : k < steps.length := (List.getElem?_eq_some_iff.mp hx).1
        have hbefore := hguard k x (by rw [List.getElem?_append_left hlt, hx])
        rwa [List.take_append_of_le_length (Nat.le_of_lt hlt)] at hbefore
      have hlast := hguard steps.length (s, l) (by simp)
      rw [List.take_left] at hlast
      exact hstep steps s l s' hprev hlast hl

/-- What a run has done so far, where the condition is on the steps alone. -/
theorem history_along {P : List (σ × ℓ) → σ → Prop} {G : σ → ℓ → Prop} (h : Run S steps s)
    (hinit : ∀ s, S.init s → P [] s)
    (hstep : ∀ steps s l s', P steps s → G s l → S.step s l s' → P (steps ++ [(s, l)]) s')
    (hguard : ∀ x ∈ steps, G x.1 x.2) : P steps s :=
  h.history_after (G := fun _ s l => G s l) hinit hstep fun _ x hx =>
    hguard x (List.mem_of_getElem? hx)

/-- **Invariants of guarded runs.** -/
theorem invariant_along {P : σ → Prop} {G : σ → ℓ → Prop} (h : Run S steps s)
    (hinit : ∀ s, S.init s → P s)
    (hstep : ∀ s l s', P s → G s l → S.step s l s' → P s')
    (hguard : ∀ x ∈ steps, G x.1 x.2) : P s :=
  h.history_along (P := fun _ s => P s) hinit (fun _ s l s' hs => hstep s l s' hs) hguard

/-- Invariants of all runs. -/
theorem invariant {P : σ → Prop} (h : Run S steps s) (hinit : ∀ s, S.init s → P s)
    (hstep : ∀ s l s', P s → S.step s l s' → P s') : P s :=
  h.invariant_along (G := fun _ _ => True) hinit (fun s l s' hs _ => hstep s l s' hs)
    fun _ _ => trivial

/-- The first steps of a run are a run. -/
theorem take (h : Run S steps s) {k : Nat} {x : σ × ℓ} (hx : steps[k]? = some x) :
    Run S (steps.take k) x.1 := by
  induction h with
  | start _ => exact absurd hx (by simp)
  | @next steps s s' l hrun _ ih =>
      rcases Nat.lt_or_ge k steps.length with hlt | hge
      · rw [List.getElem?_append_left hlt] at hx
        rw [List.take_append_of_le_length (Nat.le_of_lt hlt)]
        exact ih hx
      · rw [List.getElem?_append_right hge] at hx
        obtain ⟨hk, rfl⟩ := List.getElem?_eq_some_iff.mp hx
        have hk : k - steps.length < 1 := hk
        obtain rfl : k = steps.length := by omega
        rw [List.take_left, List.getElem_singleton]
        exact hrun

/-- A step of a run is taken from a state that a first part of the run ends in. -/
theorem exists_runTo (h : Run S steps s) {x : σ × ℓ} (hx : x ∈ steps) :
    ∃ before after, steps = before ++ x :: after ∧ Run S before x.1 := by
  obtain ⟨k, hk⟩ := List.mem_iff_getElem?.mp hx
  refine ⟨steps.take k, steps.drop (k + 1), ?_, h.take hk⟩
  obtain ⟨hlt, rfl⟩ := List.getElem?_eq_some_iff.mp hk
  rw [← List.drop_eq_getElem_cons hlt, List.take_append_drop]

theorem states_concat (steps : List (σ × ℓ)) (s s' : σ) (l : ℓ) :
    states (steps ++ [(s, l)]) s' = states steps s ++ [s'] := by
  rw [states, List.map_append]
  rfl

/-- A step of a run leads to one of its states. -/
theorem exists_next (h : Run S steps s) {x : σ × ℓ} (hx : x ∈ steps) :
    ∃ s' ∈ states steps s, S.step x.1 x.2 s' := by
  induction h with
  | start _ => exact absurd hx List.not_mem_nil
  | @next steps s s' l _ hl ih =>
      rw [states_concat]
      rcases List.mem_append.mp hx with hx | hx
      · obtain ⟨t, ht, hstep⟩ := ih hx
        exact ⟨t, List.mem_append_left _ ht, hstep⟩
      · rw [List.mem_singleton.mp hx]
        exact ⟨s', List.mem_append_right _ List.mem_cons_self, hl⟩

/-- **Every state is one that a first part of the run ends in.** -/
theorem exists_of_mem_states (h : Run S steps s) {s' : σ} (hs : s' ∈ states steps s) :
    ∃ steps', steps' <+: steps ∧ Run S steps' s' := by
  rcases List.mem_append.mp hs with hs | hs
  · obtain ⟨x, hx, rfl⟩ := List.mem_map.mp hs
    obtain ⟨before, after, rfl, hbefore⟩ := h.exists_runTo hx
    exact ⟨before, List.prefix_append _ _, hbefore⟩
  · rw [List.mem_singleton.mp hs]
    exact ⟨steps, List.prefix_rfl, h⟩

/-- **Step by step, run by run.**  Two conditions that agree on every step from a
reachable state agree on whole runs. -/
theorem forall_congr {P Q : σ → ℓ → Prop} (h : Run S steps s)
    (hiff : ∀ s l, S.Reachable s → (P s l ↔ Q s l)) :
    (∀ x ∈ steps, P x.1 x.2) ↔ ∀ x ∈ steps, Q x.1 x.2 := by
  have hreach : ∀ x ∈ steps, S.Reachable x.1 := by
    intro x hx
    obtain ⟨before, -, -, hbefore⟩ := h.exists_runTo hx
    exact ⟨before, hbefore⟩
  constructor
  · intro hP x hx
    exact (hiff x.1 x.2 (hreach x hx)).mp (hP x hx)
  · intro hQ x hx
    exact (hiff x.1 x.2 (hreach x hx)).mpr (hQ x hx)

/-- **The condition an invariant hangs on.**  If, as long as an invariant holds, one
condition on an allowed step is what keeps it and agrees with another, then the two agree
on whole runs of allowed steps. -/
theorem forall_congr_along {I : σ → Prop} {G P Q : σ → ℓ → Prop} (h : Run S steps s)
    (hguard : ∀ x ∈ steps, G x.1 x.2) (hinit : ∀ s, S.init s → I s)
    (hkeep : ∀ s l s', I s → G s l → P s l → S.step s l s' → I s')
    (hiff : ∀ s l, I s → G s l → (P s l ↔ Q s l)) :
    (∀ x ∈ steps, P x.1 x.2) ↔ ∀ x ∈ steps, Q x.1 x.2 := by
  induction h with
  | start _ => simp
  | @next steps s s' l hrun _ ih =>
      rw [List.forall_mem_append, List.forall_mem_singleton] at hguard ⊢
      rw [List.forall_mem_append, List.forall_mem_singleton]
      have hI : (∀ x ∈ steps, P x.1 x.2) → I s := fun hP =>
        hrun.invariant_along (G := fun s l => G s l ∧ P s l) hinit
          (fun s l s' hs hl hstep => hkeep s l s' hs hl.1 hl.2 hstep)
          fun x hx => ⟨hguard.1 x hx, hP x hx⟩
      constructor
      · rintro ⟨hsteps, hlast⟩
        exact ⟨(ih hguard.1).mp hsteps, (hiff s l (hI hsteps) hguard.2).mp hlast⟩
      · rintro ⟨hsteps, hlast⟩
        have hP := (ih hguard.1).mpr hsteps
        exact ⟨hP, (hiff s l (hI hP) hguard.2).mpr hlast⟩

end Run
end MalakethTurbo
