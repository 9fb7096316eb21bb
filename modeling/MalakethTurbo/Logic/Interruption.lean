import Mathlib.Data.List.Basic

/-!
# Interrupted work that is done again

Work is a list of operations on a state.  It is done up to some point, lost, and done again
from the beginning.  If the operations of the list can be repeated, and exchanged, this comes
to the same as doing the work once (`Repeatable.foldl_foldl`).
-/

namespace MalakethTurbo

variable {σ α : Type} {f : σ → α → σ} {as bs : List α}

/-- Operations that can be repeated and exchanged. -/
structure Repeatable (f : σ → α → σ) (as : List α) : Prop where
  idem : ∀ a ∈ as, ∀ s, f (f s a) a = f s a
  comm : ∀ a ∈ as, ∀ b ∈ as, ∀ s, f (f s a) b = f (f s b) a

namespace Repeatable

theorem tail {a : α} (h : Repeatable f (a :: as)) : Repeatable f as where
  idem b hb := h.idem b (List.mem_cons_of_mem _ hb)
  comm b hb c hc := h.comm b (List.mem_cons_of_mem _ hb) c (List.mem_cons_of_mem _ hc)

/-- One operation is taken up by the work it is part of. -/
theorem foldl_apply (h : Repeatable f as) {a : α} (ha : a ∈ as) (s : σ) :
    as.foldl f (f s a) = as.foldl f s := by
  induction as generalizing s with
  | nil => exact absurd ha List.not_mem_nil
  | cons b as ih =>
      rw [List.foldl_cons, List.foldl_cons]
      rcases List.mem_cons.mp ha with rfl | hmem
      · rw [h.idem a ha]
      · rw [h.comm a ha b List.mem_cons_self, ih h.tail hmem]

/-- **Work that has been done in part** is done as if it had not been begun. -/
theorem foldl_foldl (h : Repeatable f as) (hsub : bs ⊆ as) (s : σ) :
    as.foldl f (bs.foldl f s) = as.foldl f s := by
  induction bs generalizing s with
  | nil => rfl
  | cons b bs ih =>
      rw [List.foldl_cons, ih (List.subset_of_cons_subset hsub),
        h.foldl_apply (hsub List.mem_cons_self)]

end Repeatable
end MalakethTurbo
