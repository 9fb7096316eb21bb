import Mathlib.Data.List.Sort

/-!
# One entry of a list

A list in which one entry is replaced, as when one of many workers takes a step, a
sorted list in which one missing entry is filled in, and a list of numbers in which none is
missing.
-/

namespace MalakethTurbo

section Replacing

variable {α : Type}

/-- An entry of a list, with those before and after it. -/
theorem exists_split {l : List α} {k : Nat} {a : α} (h : l[k]? = some a) :
    ∃ before after, l = before ++ a :: after ∧ before.length = k ∧
      ∀ a', l.set k a' = before ++ a' :: after := by
  obtain ⟨hk, rfl⟩ := List.getElem?_eq_some_iff.mp h
  refine ⟨l.take k, l.drop (k + 1), ?_, List.length_take_of_le hk.le, fun a' => ?_⟩
  · rw [← List.drop_eq_getElem_cons hk, List.take_append_drop]
  · rw [List.set_eq_take_append_cons_drop, if_pos hk]

theorem mem_of_split {l before after : List α} {a : α} (h : l = before ++ a :: after) :
    a ∈ l := by
  rw [h]
  exact List.mem_append_right _ List.mem_cons_self

/-- An entry that is replaced is the only one that changes. -/
theorem mem_replace {before after : List α} {a a' b : α}
    (h : b ∈ before ++ a' :: after) : b = a' ∨ b ∈ before ++ a :: after := by
  rcases List.mem_append.mp h with h | h
  · exact Or.inr (List.mem_append_left _ h)
  · rcases List.mem_cons.mp h with rfl | h
    · exact Or.inl rfl
    · exact Or.inr (List.mem_append_right _ (List.mem_cons_of_mem _ h))

/-- A relation of every entry to the later ones survives a change of one entry that keeps it
related. -/
theorem pairwise_replace {R : α → α → Prop} {before after : List α} {a a' : α}
    (h : (before ++ a :: after).Pairwise R) (hbefore : ∀ b ∈ before, R b a → R b a')
    (hafter : ∀ b ∈ after, R a b → R a' b) : (before ++ a' :: after).Pairwise R := by
  obtain ⟨hleft, hright, hcross⟩ := List.pairwise_append.mp h
  obtain ⟨hhead, htail⟩ := List.pairwise_cons.mp hright
  refine List.pairwise_append.mpr ⟨hleft,
    List.pairwise_cons.mpr ⟨fun b hb => hafter b hb (hhead b hb), htail⟩, fun b hb c hc => ?_⟩
  rcases List.mem_cons.mp hc with rfl | hc
  · exact hbefore b hb (hcross b hb a List.mem_cons_self)
  · exact hcross b hb c (List.mem_cons_of_mem _ hc)

/-- If nothing that is selected comes after anything that is not, what is selected is a first
part. -/
theorem filter_isPrefix {p : α → Bool} {l : List α}
    (h : l.Pairwise fun a b => p b = true → p a = true) : l.filter p <+: l := by
  induction l with
  | nil => exact List.prefix_rfl
  | cons a l ih =>
      obtain ⟨hhead, htail⟩ := List.pairwise_cons.mp h
      by_cases ha : p a = true
      · rw [List.filter_cons_of_pos ha]
        exact (List.prefix_cons_inj a).mpr (ih htail)
      · have hnone : l.filter p = [] := List.filter_eq_nil_iff.mpr fun b hb hp => ha (hhead b hb hp)
        rw [List.filter_cons_of_neg ha, hnone]
        exact List.nil_prefix

/-- A first part of a list with an entry in the middle ends before it or has it. -/
theorem isPrefix_or_mem {l before after : List α} {a : α}
    (h : l <+: before ++ a :: after) : l <+: before ∨ a ∈ l := by
  rcases List.prefix_or_prefix_of_prefix h (List.prefix_append before (a :: after)) with
    hshort | ⟨rest, rfl⟩
  · exact Or.inl hshort
  · rw [List.prefix_append_right_inj] at h
    cases rest with
    | nil => exact Or.inl (by simp)
    | cons b rest =>
        obtain ⟨rfl, -⟩ := List.cons_prefix_cons.mp h
        exact Or.inr (List.mem_append_right _ List.mem_cons_self)

end Replacing

section Filling

variable {α : Type} [DecidableEq α] (r : α → α → Prop) [DecidableRel r]

/-- An element put in order into a part of a sorted list lands where the list has
it. -/
theorem orderedInsert_filter {l : List α} (hl : l.Pairwise fun a b => r a b ∧ ¬ r b a)
    (p : α → Bool) {a : α} (ha : a ∈ l) (hp : p a = false) :
    (l.filter p).orderedInsert r a = l.filter fun b => p b || b = a := by
  induction l with
  | nil => exact absurd ha List.not_mem_nil
  | cons b l ih =>
      obtain ⟨hhead, htail⟩ := List.pairwise_cons.mp hl
      rcases List.mem_cons.mp ha with rfl | hmem
      · have hnot : a ∉ l := fun hmem => (hhead a hmem).2 (hhead a hmem).1
        have hsame : (l.filter fun b => p b || b = a) = l.filter p := by
          refine List.filter_congr ?_
          intro b hb
          have hne : b ≠ a := fun h => hnot (h ▸ hb)
          simp [hne]
        rw [List.filter_cons_of_neg (by simp [hp]), List.filter_cons_of_pos (by simp), hsame]
        cases hrest : l.filter p with
        | nil => rfl
        | cons c rest =>
            have hc : c ∈ l := List.mem_of_mem_filter (hrest ▸ List.mem_cons_self)
            rw [List.orderedInsert, if_pos (hhead c hc).1]
      · have hne : b ≠ a := fun h => (hhead a hmem).2 (h ▸ (hhead a hmem).1)
        have hih := ih htail hmem
        by_cases hb : p b = true
        · rw [List.filter_cons_of_pos hb, List.filter_cons_of_pos (by simp [hb]), ← hih]
          rw [List.orderedInsert, if_neg (hhead a hmem).2]
        · rw [List.filter_cons_of_neg hb, List.filter_cons_of_neg (by simp [hb, hne]), hih]

end Filling

section Counting

/-- **Counting is enough**: numbers in strict order are the first numbers exactly if there
are more of them than the largest. -/
theorem eq_range_iff {l : List ℕ} (h : l.Pairwise (· < ·)) :
    l = List.range l.length ↔ ∀ k ∈ l, k < l.length := by
  constructor
  · intro hrange k hk
    rw [hrange] at hk
    exact List.mem_range.mp hk
  · intro hlt
    have hnodup : l.Nodup := h.imp fun hab => hab.ne
    have hsub : l.Subperm (List.range l.length) :=
      List.subperm_of_subset hnodup fun k hk => List.mem_range.mpr (hlt k hk)
    have hperm : l.Perm (List.range l.length) :=
      hsub.perm_of_length_le (by rw [List.length_range])
    exact hperm.eq_of_pairwise' h List.pairwise_lt_range

end Counting

/-- If not every element has a property, there is a first one without it. -/
theorem exists_first_not {α : Type} {P : α → Prop} {l : List α} (h : ¬ ∀ a ∈ l, P a) :
    ∃ before a after, l = before ++ a :: after ∧ (∀ b ∈ before, P b) ∧ ¬ P a := by
  induction l with
  | nil => exact absurd (List.forall_mem_nil P) h
  | cons a l ih =>
      by_cases ha : P a
      · rw [List.forall_mem_cons, and_iff_right ha] at h
        obtain ⟨before, b, after, rfl, hbefore, hb⟩ := ih h
        exact ⟨a :: before, b, after, rfl, List.forall_mem_cons.mpr ⟨ha, hbefore⟩, hb⟩
      · exact ⟨[], a, l, rfl, List.forall_mem_nil P, ha⟩

/-- Lists that are put together of pieces of the same lengths. -/
theorem flatMap_eq_flatMap_iff {α β : Type} {f g : α → List β} {l : List α}
    (h : ∀ a ∈ l, (f a).length = (g a).length) :
    l.flatMap f = l.flatMap g ↔ ∀ a ∈ l, f a = g a := by
  refine ⟨fun heq => ?_, List.flatMap_congr⟩
  induction l with
  | nil => exact List.forall_mem_nil _
  | cons a l ih =>
      rw [List.forall_mem_cons] at h
      rw [List.flatMap_cons, List.flatMap_cons] at heq
      obtain ⟨hhead, htail⟩ := List.append_inj heq h.1
      exact List.forall_mem_cons.mpr ⟨hhead, ih h.2 htail⟩

/-- What holds of an element and what is before it, at every place of a list: at the head, and
at every place of the tail with the head before it. -/
theorem forall_split_cons {α : Type} {P : List α → α → Prop} {a : α} {l : List α} :
    (∀ before x after, a :: l = before ++ x :: after → P before x) ↔
      P [] a ∧ ∀ before x after, l = before ++ x :: after → P (a :: before) x := by
  constructor
  · intro h
    exact ⟨h [] a l rfl, fun before x after hl => h (a :: before) x after (by rw [hl]; rfl)⟩
  · rintro ⟨hhead, htail⟩ before x after heq
    cases before with
    | nil =>
        obtain ⟨rfl, -⟩ := List.cons.inj heq
        exact hhead
    | cons b before =>
        obtain ⟨rfl, hl⟩ := List.cons.inj heq
        exact htail before x after hl

end MalakethTurbo
