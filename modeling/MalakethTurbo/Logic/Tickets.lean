import MalakethTurbo.Logic.Transition
import Mathlib.Data.List.Induction
import Mathlib.Data.List.Nodup
import Mathlib.Logic.Function.Basic

/-!
# Tickets

Tasks draw numbers from a counter that they share.  Each task draws one, and which task comes
next is anybody's guess.  The counter wraps around at some size.

Whatever the order in which the tasks have drawn them, the numbers are consecutive up to that
size (`Run.tickets_perm`), and the counter is where the next ones begin
(`Run.tickets_counter`).  There is a run in which the tasks draw in any order that names none
of them twice (`exists_run_tickets`).
-/

namespace MalakethTurbo

/-- The counter, and the numbers that have been drawn. -/
structure Tickets (τ : Type) where
  counter : Nat
  drawn : τ → Option Nat

section Tickets

variable {τ : Type} [DecidableEq τ] {size first : Nat} {steps : List (Tickets τ × τ)}
  {s : Tickets τ} {order tasks : List τ}

/-- Tasks that draw from a counter. -/
def tickets (τ : Type) [DecidableEq τ] (size first : Nat) : System (Tickets τ) τ where
  init s := s = ⟨first, fun _ => none⟩
  step s i s' := s.drawn i = none ∧
    s' = ⟨(s.counter + 1) % size, Function.update s.drawn i (some s.counter)⟩

/-- The numbers that some tasks draw. -/
def numbers (size first count : Nat) : List Nat := (List.range' first count).map (· % size)

/-- The numbers that tasks have drawn, task by task. -/
def Tickets.collect (s : Tickets τ) (tasks : List τ) : List Nat := tasks.filterMap s.drawn

/-- Every task has drawn. -/
def Tickets.Finished (s : Tickets τ) (tasks : List τ) : Prop := ∀ i ∈ tasks, (s.drawn i).isSome

@[simp] theorem length_numbers (size first count : Nat) :
    (numbers size first count).length = count := by
  rw [numbers, List.length_map, List.length_range']

theorem numbers_succ (size first count : Nat) :
    numbers size first (count + 1) = numbers size first count ++ [(first + count) % size] := by
  rw [numbers, List.range'_1_concat, List.map_append, List.map_singleton, numbers]

/-- As long as the counter does not wrap around, the numbers are consecutive. -/
theorem numbers_eq {count : Nat} (h : first + count ≤ size) :
    numbers size first count = List.range' first count := by
  refine List.map_congr_left (g := id) (fun n hn => ?_) |>.trans (List.map_id _)
  obtain ⟨-, hlt⟩ := List.mem_range'_1.mp hn
  exact Nat.mod_eq_of_lt (by omega)

/-- Where the counter begins matters up to the size. -/
theorem numbers_mod (size first count : Nat) :
    numbers size (first % size) count = numbers size first count := by
  induction count with
  | zero => rfl
  | succ count ih => rw [numbers_succ, numbers_succ, ih, Nat.mod_add_mod]

/-- What has been drawn: the tasks that have drawn have the numbers, in their order. -/
structure Drew (size first : Nat) (order : List τ) (s : Tickets τ) : Prop where
  nodup : order.Nodup
  drawn : order.map s.drawn = (numbers size first order.length).map some
  waiting : ∀ i ∉ order, s.drawn i = none
  counter : s.counter = (first + order.length) % size

omit [DecidableEq τ] in
/-- A task that has not drawn is none of those that have. -/
theorem Drew.fresh (h : Drew size first order s) {i : τ} (hi : s.drawn i = none) : i ∉ order := by
  intro hmem
  have hdrawn := List.mem_map_of_mem (f := s.drawn) hmem
  rw [h.drawn, hi] at hdrawn
  obtain ⟨n, -, hn⟩ := List.mem_map.mp hdrawn
  cases hn

/-- One number is drawn. -/
theorem Drew.next (h : Drew size first order s) {i : τ} (hi : s.drawn i = none) :
    Drew size first (order ++ [i])
      ⟨(s.counter + 1) % size, Function.update s.drawn i (some s.counter)⟩ := by
  have hfresh := h.fresh hi
  have hsame : order.map (Function.update s.drawn i (some s.counter)) = order.map s.drawn :=
    List.map_congr_left fun j hj => Function.update_of_ne (ne_of_mem_of_not_mem hj hfresh) _ _
  refine ⟨?_, ?_, fun j hj => ?_, ?_⟩
  · refine List.nodup_append.mpr ⟨h.nodup, List.nodup_singleton i, fun a ha b hb => ?_⟩
    rw [List.mem_singleton.mp hb]
    exact ne_of_mem_of_not_mem ha hfresh
  · rw [List.map_append, hsame, h.drawn, List.length_append, List.length_singleton, numbers_succ,
      List.map_append, List.map_singleton, List.map_singleton, ← h.counter]
    exact congrArg (_ ++ [·]) (Function.update_self i (some s.counter) s.drawn)
  · rw [List.mem_append, not_or, List.mem_singleton] at hj
    exact (Function.update_of_ne hj.2 _ _).trans (h.waiting j hj.1)
  · rw [h.counter, List.length_append, List.length_singleton, Nat.mod_add_mod, Nat.add_assoc]

omit [DecidableEq τ] in
/-- Before the first number is drawn. -/
theorem Drew.start (hfirst : first < size) :
    Drew size first [] (⟨first, fun _ => none⟩ : Tickets τ) where
  nodup := List.nodup_nil
  drawn := rfl
  waiting _ _ := rfl
  counter := (Nat.mod_eq_of_lt hfirst).symm

/-- **What a run has drawn.** -/
theorem Run.drew (h : Run (tickets τ size first) steps s) (hfirst : first < size) :
    Drew size first (steps.map Prod.snd) s := by
  induction h with
  | start hinit =>
      obtain rfl := hinit
      exact Drew.start hfirst
  | next _ hstep ih =>
      obtain ⟨hi, rfl⟩ := hstep
      rw [List.map_append, List.map_singleton]
      exact ih.next hi

/-- The tasks may draw in any order. -/
theorem exists_run_tickets (hfirst : first < size) (horder : order.Nodup) :
    ∃ steps s, Run (tickets τ size first) steps s ∧ steps.map Prod.snd = order := by
  induction order using List.reverseRecOn with
  | nil => exact ⟨[], ⟨first, fun _ => none⟩, .start rfl, rfl⟩
  | append_singleton order i ih =>
      rw [List.nodup_append] at horder
      obtain ⟨hnodup, -, hfresh⟩ := horder
      obtain ⟨steps, s, hrun, hsteps⟩ := ih hnodup
      have hi : s.drawn i = none := by
        refine (hrun.drew hfirst).waiting i fun hmem => ?_
        rw [hsteps] at hmem
        exact hfresh i hmem i (List.mem_singleton_self i) rfl
      exact ⟨_, _, hrun.next ⟨hi, rfl⟩, by rw [List.map_append, hsteps, List.map_singleton]⟩

omit [DecidableEq τ] in
/-- The tasks that have drawn, one after the other. -/
theorem Drew.collect (h : Drew size first order s) :
    s.collect order = numbers size first order.length := by
  have hdrawn := congrArg (List.filterMap id) h.drawn
  rw [List.filterMap_map, List.filterMap_map, Function.id_comp, Function.id_comp,
    List.filterMap_some] at hdrawn
  exact hdrawn

omit [DecidableEq τ] in
/-- When every task has drawn, the tasks are those that have. -/
theorem Drew.order_perm (h : Drew size first order s) (hnodup : tasks.Nodup)
    (hall : ∀ i, i ∈ tasks) (hfinished : s.Finished tasks) : order.Perm tasks := by
  refine (List.perm_ext_iff_of_nodup h.nodup hnodup).mpr fun i => iff_of_true ?_ (hall i)
  by_contra hnot
  have hsome := hfinished i (hall i)
  rw [h.waiting i hnot] at hsome
  cases hsome

/-- **The numbers are the same, whoever has drawn them.** -/
theorem Run.tickets_perm (h : Run (tickets τ size first) steps s) (hfirst : first < size)
    (hnodup : tasks.Nodup) (hall : ∀ i, i ∈ tasks) (hfinished : s.Finished tasks) :
    (s.collect tasks).Perm (numbers size first tasks.length) := by
  have hdrew := h.drew hfirst
  have hperm := hdrew.order_perm hnodup hall hfinished
  rw [← hperm.length_eq, ← hdrew.collect]
  exact hperm.symm.filterMap s.drawn

/-- The counter is where the next numbers begin. -/
theorem Run.tickets_counter (h : Run (tickets τ size first) steps s) (hfirst : first < size)
    (hnodup : tasks.Nodup) (hall : ∀ i, i ∈ tasks) (hfinished : s.Finished tasks) :
    s.counter = (first + tasks.length) % size := by
  have hdrew := h.drew hfirst
  rw [hdrew.counter, (hdrew.order_perm hnodup hall hfinished).length_eq]

/-- There is a run in which every task has drawn. -/
theorem exists_finished (hfirst : first < size) (hnodup : tasks.Nodup) :
    ∃ steps s, Run (tickets τ size first) steps s ∧ s.Finished tasks := by
  obtain ⟨steps, s, hrun, hsteps⟩ := exists_run_tickets (τ := τ) hfirst hnodup
  refine ⟨steps, s, hrun, fun i hi => ?_⟩
  have hmem := List.mem_map_of_mem (f := s.drawn) hi
  rw [← hsteps, (hrun.drew hfirst).drawn] at hmem
  obtain ⟨n, -, hn⟩ := List.mem_map.mp hmem
  rw [← hn]
  rfl

end Tickets
end MalakethTurbo
