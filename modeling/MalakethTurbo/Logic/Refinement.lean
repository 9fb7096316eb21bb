import MalakethTurbo.Logic.Transition

/-!
# Simulations between transition systems

A path lists the labels of some steps, without the states in between.  A simulation
relates the states of a system to those of a simpler one: a step below is matched by a
path above, whose labels are what the step shows.  `Run.simulated` turns this into a
statement about runs: what a run below shows, one after the other, is a path above.

If the state above is part of the state below, the run above can be told step by step:
`Run.project` keeps the state before each step, so that conditions on the steps below
carry over.
-/

namespace MalakethTurbo

variable {σ τ ℓ μ : Type}

/-! ## Paths -/

/-- The steps from one state to another, told by their labels. -/
inductive Path (T : System τ μ) : τ → List μ → τ → Prop where
  | nil (t : τ) : Path T t [] t
  | cons {t t' t'' : τ} {l : μ} {ls : List μ} :
      T.step t l t' → Path T t' ls t'' → Path T t (l :: ls) t''

namespace Path

variable {T : System τ μ} {t t' t'' : τ} {ls ls' : List μ}

theorem single {l : μ} (h : T.step t l t') : Path T t [l] t' := .cons h (.nil t')

theorem append (h : Path T t ls t') (h' : Path T t' ls' t'') : Path T t (ls ++ ls') t'' := by
  induction h with
  | nil => exact h'
  | cons hstep _ ih => exact .cons hstep (ih h')

/-- What every step keeps, of the labels so far and the state, a path keeps. -/
theorem history {P : List μ → τ → Prop} (h : Path T t ls t') {ls₀ : List μ} (hstart : P ls₀ t)
    (hstep : ∀ ls t l t', P ls t → T.step t l t' → P (ls ++ [l]) t') : P (ls₀ ++ ls) t' := by
  induction h generalizing ls₀ with
  | nil =>
      rw [List.append_nil]
      exact hstart
  | cons hl _ ih =>
      rw [List.append_cons]
      exact ih (hstep _ _ _ _ hstart hl)

end Path

/-! ## Simulations -/

/-- Each state below is related to one above, and a step that a condition allows is matched
by a path whose labels are what it shows. -/
structure Simulates (S : System σ ℓ) (T : System τ μ) (G : σ → ℓ → Prop)
    (shows : σ → ℓ → List μ) (R : σ → τ → Prop) : Prop where
  init : ∀ s, S.init s → ∃ t, T.init t ∧ R s t
  step : ∀ s l s' t, R s t → G s l → S.step s l s' → ∃ t', Path T t (shows s l) t' ∧ R s' t'

namespace Run

variable {S : System σ ℓ} {T : System τ μ} {steps : List (σ × ℓ)} {s : σ}

/-- **What a run shows is a path above.** -/
theorem simulated {G : σ → ℓ → Prop} {shows : σ → ℓ → List μ} {R : σ → τ → Prop}
    (h : Run S steps s) (hsim : Simulates S T G shows R) (hguard : ∀ x ∈ steps, G x.1 x.2) :
    ∃ t₀ t, T.init t₀ ∧ Path T t₀ (steps.flatMap fun x => shows x.1 x.2) t ∧ R s t := by
  refine h.history_along (P := fun steps s => ∃ t₀ t, T.init t₀ ∧
    Path T t₀ (steps.flatMap fun x => shows x.1 x.2) t ∧ R s t) ?_ ?_ hguard
  · intro s hs
    obtain ⟨t, ht, hR⟩ := hsim.init s hs
    exact ⟨t, t, ht, .nil t, hR⟩
  · rintro steps s l s' ⟨t₀, t, ht₀, hpath, hR⟩ hl hstep
    obtain ⟨t', hnext, hR'⟩ := hsim.step s l s' t hR hl hstep
    refine ⟨t₀, t', ht₀, ?_, hR'⟩
    rw [List.flatMap_append, List.flatMap_singleton]
    exact hpath.append hnext

/-- **A part of the state runs by itself**: each step is a step of the part or leaves it
alone. -/
theorem project (part : σ → τ) (label : ℓ → Option μ) (h : Run S steps s)
    (hinit : ∀ s, S.init s → T.init (part s))
    (hstep : ∀ s l s', S.step s l s' →
      (∃ m, label l = some m ∧ T.step (part s) m (part s')) ∨
        label l = none ∧ part s' = part s) :
    Run T (steps.filterMap fun x => (label x.2).map (part x.1, ·)) (part s) := by
  induction h with
  | start hs => exact .start (hinit _ hs)
  | @next steps s s' l _ hl ih =>
      rw [List.filterMap_append]
      rcases hstep s l s' hl with ⟨m, hm, hpart⟩ | ⟨hnone, hpart⟩
      · have hlast : [(s, l)].filterMap (fun x => (label x.2).map (part x.1, ·)) =
            [(part s, m)] := by simp [hm]
        rw [hlast]
        exact ih.next hpart
      · have hlast : [(s, l)].filterMap (fun x => (label x.2).map (part x.1, ·)) = [] := by
          simp [hnone]
        rw [hlast, List.append_nil, hpart]
        exact ih

end Run
end MalakethTurbo
