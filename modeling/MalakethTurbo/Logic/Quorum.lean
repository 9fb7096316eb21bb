import Mathlib.Algebra.Order.BigOperators.Group.Finset
import Mathlib.Algebra.BigOperators.Group.Finset.Piecewise
import Mathlib.Algebra.GroupWithZero.Nat

/-!
# Quorums

Voters have weights, and a quorum is a set of voters of more than a part of the total weight.
Two quorums have voters in common, of so much weight as they are larger than the total
together (`Quorum.overlap`).

The weight of a voter may be looked up in a list, where the first entry for the voter counts.
No set of voters weighs more than all the entries of the list (`weight_lookup_le`).
-/

namespace MalakethTurbo

section Quorum

variable {α : Type} [DecidableEq α] {w : α → ℕ} {p q total : ℕ} {voters voters' : Finset α}

/-- The weight of some voters. -/
def weight (w : α → ℕ) (voters : Finset α) : ℕ := ∑ v ∈ voters, w v

/-- More than `p` of `q` parts of a total weight. -/
def Quorum (w : α → ℕ) (p q total : ℕ) (voters : Finset α) : Prop :=
  p * total < q * weight w voters

/-- The weights of two sets count those twice that are in both. -/
theorem weight_union_inter (w : α → ℕ) (voters voters' : Finset α) :
    weight w (voters ∪ voters') + weight w (voters ∩ voters') =
      weight w voters + weight w voters' :=
  Finset.sum_union_inter

/-- **Two quorums overlap.** -/
theorem Quorum.overlap (htotal : weight w (voters ∪ voters') ≤ total)
    (h : Quorum w p q total voters) (h' : Quorum w p q total voters') :
    2 * p * total < q * total + q * weight w (voters ∩ voters') := by
  have hsum := congrArg (q * ·) (weight_union_inter w voters voters')
  simp only [Nat.mul_add] at hsum
  have hunion := Nat.mul_le_mul_left q htotal
  rw [Quorum] at h h'
  rw [Nat.two_mul, Nat.add_mul]
  omega

/-! ## Weights in a list -/

variable {β : Type} {key : β → α} {value : β → ℕ}

/-- The weight of the first entry for a voter, if there is one. -/
def lookup (key : β → α) (value : β → ℕ) (entries : List β) (v : α) : ℕ :=
  ((entries.find? fun e => key e = v).map value).getD 0

theorem lookup_cons (e : β) (entries : List β) (v : α) :
    lookup key value (e :: entries) v =
      if key e = v then value e else lookup key value entries v := by
  rw [lookup, List.find?_cons]
  by_cases hv : key e = v
  · simp [hv]
  · simp [hv, lookup]

/-- **No voters weigh more than all the entries.** -/
theorem weight_lookup_le (entries : List β) (voters : Finset α) :
    weight (lookup key value entries) voters ≤ (entries.map value).sum := by
  induction entries with
  | nil => exact Nat.le_of_eq (Finset.sum_eq_zero fun _ _ => rfl)
  | cons e entries ih =>
      have hle : ∀ v ∈ voters, lookup key value (e :: entries) v ≤
          (if key e = v then value e else 0) + lookup key value entries v := by
        intro v _
        rw [lookup_cons]
        split_ifs <;> omega
      have hfirst : ∑ v ∈ voters, (if key e = v then value e else 0) ≤ value e := by
        rw [Finset.sum_ite_eq]
        split_ifs <;> omega
      have hsum := Finset.sum_le_sum hle
      rw [Finset.sum_add_distrib] at hsum
      rw [List.map_cons, List.sum_cons]
      exact hsum.trans (Nat.add_le_add hfirst ih)

end Quorum
end MalakethTurbo
