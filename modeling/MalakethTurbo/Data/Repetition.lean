import Mathlib.Data.List.Dedup
import Mathlib.Data.List.Destutter

/-!
# Repetitions in a list

`List.destutter (· ≠ ·)` drops every entry that equals the last one kept, which takes a
repetition out only where it stands next to the original.  The members stay
(`mem_destutter_ne`).  The result increases exactly if the list itself does not decrease in
the strong sense that each entry is above or equal to all before it
(`pairwise_destutter_ne_iff`), and then it is the one increasing list of its members
(`eq_of_pairwise_of_mem`).
-/

namespace MalakethTurbo

variable {α : Type} {r : α → α → Prop} {l l' : List α}

section Members

variable [DecidableEq α]

theorem mem_destutter'_ne {a b : α} :
    b ∈ l.destutter' (· ≠ ·) a ↔ b = a ∨ b ∈ l := by
  induction l generalizing a with
  | nil => rw [List.destutter'_nil, List.mem_singleton, or_iff_left List.not_mem_nil]
  | cons c l ih =>
      by_cases hne : a ≠ c
      · rw [List.destutter'_cons_pos (h := hne), List.mem_cons, ih, List.mem_cons]
      · rw [List.destutter'_cons_neg (h := hne), ih, List.mem_cons, not_not.mp hne,
          or_self_left]

/-- No member is lost. -/
theorem mem_destutter_ne {b : α} : b ∈ l.destutter (· ≠ ·) ↔ b ∈ l := by
  cases l with
  | nil => rw [List.destutter_nil]
  | cons a l => rw [List.destutter_cons', mem_destutter'_ne, List.mem_cons]

theorem pairwise_destutter'_ne_iff [IsTrans α r] {a : α} :
    (l.destutter' (· ≠ ·) a).Pairwise r ↔ (a :: l).Pairwise fun b c => r b c ∨ b = c := by
  induction l generalizing a with
  | nil =>
      rw [List.destutter'_nil]
      exact iff_of_true (List.pairwise_singleton _ _) (List.pairwise_singleton _ _)
  | cons c l ih =>
      by_cases hne : a ≠ c
      · rw [List.destutter'_cons_pos (h := hne), List.pairwise_cons, ih,
          List.pairwise_cons (l := c :: l)]
        refine and_congr_left fun htail => ?_
        constructor
        · intro habove b hb
          exact Or.inl (habove b (mem_destutter'_ne.mpr (List.mem_cons.mp hb)))
        · intro habove b hb
          have hac : r a c := (habove c List.mem_cons_self).resolve_right hne
          rcases mem_destutter'_ne.mp hb with rfl | hb
          · exact hac
          · rcases (List.pairwise_cons.mp htail).1 b hb with hcb | rfl
            · exact IsTrans.trans _ _ _ hac hcb
            · exact hac
      · obtain rfl : a = c := not_not.mp hne
        rw [List.destutter'_cons_neg (h := hne), ih]
        refine ⟨fun htail => List.pairwise_cons.mpr ⟨fun b hb => ?_, htail⟩, List.Pairwise.of_cons⟩
        rcases List.mem_cons.mp hb with rfl | hb
        · exact Or.inr rfl
        · exact (List.pairwise_cons.mp htail).1 b hb

/-- **When dropping adjacent repetitions sorts**: if the list was in order already. -/
theorem pairwise_destutter_ne_iff [IsTrans α r] :
    (l.destutter (· ≠ ·)).Pairwise r ↔ l.Pairwise fun a b => r a b ∨ a = b := by
  cases l with
  | nil => exact iff_of_true List.Pairwise.nil List.Pairwise.nil
  | cons a l => rw [List.destutter_cons', pairwise_destutter'_ne_iff]

end Members

section Increasing

variable [Std.Irrefl r]

theorem nodup_of_pairwise (h : l.Pairwise r) : l.Nodup := by
  refine h.imp fun {a b} hab heq => ?_
  rw [heq] at hab
  exact Std.Irrefl.irrefl b hab

/-- An increasing list is known by its members. -/
theorem eq_of_pairwise_of_mem [IsTrans α r] (h : l.Pairwise r) (h' : l'.Pairwise r)
    (hmem : ∀ a, a ∈ l ↔ a ∈ l') : l = l' := by
  have hperm : l.Perm l' :=
    (List.perm_ext_iff_of_nodup (nodup_of_pairwise h) (nodup_of_pairwise h')).mpr hmem
  refine hperm.eq_of_pairwise (fun a b _ _ hab hba => ?_) h h'
  exact absurd (IsTrans.trans _ _ _ hab hba) (Std.Irrefl.irrefl a)

end Increasing

end MalakethTurbo
