import MalakethTurbo.Logic.Refinement
import Mathlib.Data.List.Infix
import Mathlib.Logic.Function.Basic

/-!
# Total-order broadcast

Parties are delivered the entries of one order, each of them from the beginning and
without a gap.  Whoever has been delivered all of it may add the next entry.

A simulation into this system shows that what the parties below have been delivered never
parts: each of them has been delivered a first part of one order (`Path.delivered`).
-/

namespace MalakethTurbo

variable {ι α : Type}

/-- The order so far, and what each party has been delivered of it. -/
structure Broadcast (ι α : Type) where
  order : List α
  delivered : ι → List α

/-- A party is delivered the next entry of the order, which is a new one if it has been
delivered them all. -/
def totalOrder (ι α : Type) [DecidableEq ι] : System (Broadcast ι α) (ι × α) where
  init b := b.order = [] ∧ ∀ i, b.delivered i = []
  step b l b' :=
    b'.delivered = Function.update b.delivered l.1 (b.delivered l.1 ++ [l.2]) ∧
      (b'.order = b.order ∧ b.order[(b.delivered l.1).length]? = some l.2 ∨
        b'.order = b.order ++ [l.2] ∧ b.order.length = (b.delivered l.1).length)

/-- What is shown of one party. -/
def shownTo [DecidableEq ι] (i : ι) (ls : List (ι × α)) : List α :=
  (ls.filter fun l => l.1 = i).map Prod.snd

section Broadcast

variable [DecidableEq ι] {b b' : Broadcast ι α} {ls : List (ι × α)} {l : ι × α}

@[simp] theorem shownTo_nil (i : ι) : shownTo i ([] : List (ι × α)) = [] := rfl

@[simp] theorem shownTo_append (i : ι) (ls ls' : List (ι × α)) :
    shownTo i (ls ++ ls') = shownTo i ls ++ shownTo i ls' := by
  rw [shownTo, List.filter_append, List.map_append]
  rfl

theorem shownTo_single (i : ι) (l : ι × α) : shownTo i [l] = if l.1 = i then [l.2] else [] := by
  rw [shownTo, List.filter_singleton]
  by_cases hi : l.1 = i <;> simp [hi]

theorem shownTo_map (i j : ι) (es : List α) :
    shownTo i (es.map (j, ·)) = if j = i then es else [] := by
  rw [shownTo, List.filter_map, List.map_map]
  by_cases hij : j = i <;> simp [hij, Function.comp_def]

/-- A first part of a list with the entry that follows it is a first part. -/
theorem isPrefix_concat {xs ys : List α} {a : α} (h : xs <+: ys) (ha : ys[xs.length]? = some a) :
    xs ++ [a] <+: ys := by
  obtain ⟨hlt, rfl⟩ := List.getElem?_eq_some_iff.mp ha
  exact List.concat_get_prefix h hlt

/-- A step delivers its entry to its party, and keeps every party in the order. -/
theorem Broadcast.step_spec (h : (totalOrder ι α).step b l b')
    (hfirst : ∀ i, b.delivered i <+: b.order) (i : ι) :
    b'.delivered i = b.delivered i ++ shownTo i [l] ∧ b'.delivered i <+: b'.order := by
  obtain ⟨hdelivered, horder⟩ := h
  have hgrown : b.order <+: b'.order := by
    rcases horder with ⟨horder, -⟩ | ⟨horder, -⟩
    · rw [horder]
    · rw [horder]
      exact List.prefix_append _ _
  rw [hdelivered, shownTo_single]
  by_cases hi : l.1 = i
  · subst hi
    rw [Function.update_self, if_pos rfl]
    refine ⟨rfl, ?_⟩
    rcases horder with ⟨horder, hnext⟩ | ⟨horder, hlength⟩
    · rw [horder]
      exact isPrefix_concat (hfirst l.1) hnext
    · rw [horder, (hfirst l.1).eq_of_length hlength.symm]
  · rw [Function.update_of_ne (Ne.symm hi), if_neg hi, List.append_nil]
    exact ⟨rfl, (hfirst i).trans hgrown⟩

/-- **What is delivered is what is shown, and it is a first part of the order.** -/
theorem Path.delivered (h : Path (totalOrder ι α) b ls b') (hb : (totalOrder ι α).init b)
    (i : ι) : b'.delivered i = shownTo i ls ∧ b'.delivered i <+: b'.order := by
  have hall : ∀ i, b'.delivered i = shownTo i ([] ++ ls) ∧ b'.delivered i <+: b'.order := by
    refine h.history (P := fun ls b => ∀ i, b.delivered i = shownTo i ls ∧
      b.delivered i <+: b.order) ?_ ?_
    · intro i
      rw [hb.2 i]
      exact ⟨rfl, List.nil_prefix⟩
    · intro ls b l b' hprev hstep i
      obtain ⟨hnext, hfirst⟩ := Broadcast.step_spec hstep (fun i => (hprev i).2) i
      refine ⟨?_, hfirst⟩
      rw [hnext, (hprev i).1, shownTo_append]
  rw [List.nil_append] at hall
  exact hall i

end Broadcast
end MalakethTurbo
