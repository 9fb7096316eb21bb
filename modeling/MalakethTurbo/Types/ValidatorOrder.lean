import MalakethTurbo.Data.Repetition
import MalakethTurbo.Types.ValidatorSet
import Mathlib.Data.List.Lex

/-!
# The order of the validators

A validator set is documented to be sorted by address and without repetitions, so that
the order and the repetitions of the list it is made from do not matter: not for the set,
not for its voting power, not for the choice of the proposer.

The set is not sorted, and of the repetitions only those next to each other are dropped.
So it is as documented exactly if the list was, adjacent repetitions apart (`Listed`), and
two lists of the same validators give the same set as documented exactly if both were
(`one_set_iff`).
-/

namespace MalakethTurbo

variable {ε : Type}

/-! ## The order -/

/-- The bytes of an address as numbers. -/
def Address.order (a : Address) : List ℕ := a.intoInner.val.map UInt8.toNat

/-- `Ord for Validator`: validators are compared by their addresses, byte by byte. -/
def Validator.before (v w : Validator) : Prop := v.address.order < w.address.order

instance : DecidableRel Validator.before :=
  fun v w => inferInstanceAs (Decidable (v.address.order < w.address.order))

instance : IsTrans Validator Validator.before :=
  ⟨fun v w x => lt_trans (a := v.address.order) (b := w.address.order) (c := x.address.order)⟩

instance : Std.Irrefl Validator.before := ⟨fun v => lt_irrefl v.address.order⟩

/-! ## Sets as documented -/

/-- What a validator set is documented to be: the validators of the list it is made from, in
increasing order of their addresses. -/
structure Documented (validators : List Validator) (vs : ValidatorSet) : Prop where
  sorted : vs.validators.Pairwise Validator.before
  mem : ∀ v, v ∈ vs.validators ↔ v ∈ validators

/-- A list of validators in order, in which a validator may be repeated right after itself. -/
def Listed (validators : List Validator) : Prop :=
  validators.Pairwise fun v w => v.before w ∨ v = w

instance (validators : List Validator) : Decidable (Listed validators) :=
  inferInstanceAs (Decidable (validators.Pairwise _))

/-- Two lists give one set: the one that is documented, in which every validator counts once,
with the same total and the same proposers. -/
structure OneSet (ε : Type) (validators validators' : List Validator) (vs vs' : ValidatorSet) :
    Prop where
  new : ValidatorSet.new validators = (.ok vs : Call ε _)
  new' : ValidatorSet.new validators' = (.ok vs' : Call ε _)
  documented : Documented validators vs
  eq : vs' = vs
  total : vs.totalVotingPower =
    (checkedSum (validators.dedup.map fun v => v.votingPower.toNat) : Call ε Nat)
  total' : vs'.totalVotingPower = (vs.totalVotingPower : Call ε Nat)
  proposer : ∀ height round,
    selectProposer vs' height round = (selectProposer vs height round : Call ε Validator)

namespace ValidatorSet

variable {validators validators' : List Validator} {vs : ValidatorSet}

theorem new_run (h : validators ≠ []) :
    ValidatorSet.new validators = (.ok ⟨sortValidators validators⟩ : Call ε _) := by
  have hsorted : sortValidators validators ≠ [] := fun hnil => h ((List.destutter_eq_nil _).mp hnil)
  rw [ValidatorSet.new, assert_of hsorted]
  rfl

/-- **A set is as documented** if the list it is made from was in order. -/
theorem documented_iff :
    Documented validators ⟨sortValidators validators⟩ ↔ Listed validators := by
  rw [Listed, ← pairwise_destutter_ne_iff]
  exact ⟨Documented.sorted, fun hsorted => ⟨hsorted, fun _ => mem_destutter_ne⟩⟩

/-- In a documented set every validator counts once. -/
theorem total_of_documented (h : Documented validators vs) :
    vs.totalVotingPower =
      (checkedSum (validators.dedup.map fun v => v.votingPower.toNat) : Call ε Nat) := by
  have hperm : vs.validators.Perm validators.dedup := by
    refine (List.perm_ext_iff_of_nodup (nodup_of_pairwise h.sorted)
      (List.nodup_dedup validators)).mpr fun v => ?_
    rw [h.mem, List.mem_dedup]
  have hsum := (hperm.map fun v => v.votingPower.toNat).sum_nat
  rw [totalVotingPower, checkedSum_eq, checkedSum_eq, hsum]

end ValidatorSet

/-- **When order and repetitions do not matter.**  Two non-empty lists of the same validators
give one validator set, as it is documented, with the same total voting power and the same
proposers, if and only if each of them is in order of the addresses, adjacent repetitions
apart. -/
theorem one_set_iff {validators validators' : List Validator} (hne : validators ≠ [])
    (hsame : ∀ v, v ∈ validators ↔ v ∈ validators') :
    (∃ vs vs', OneSet ε validators validators' vs vs') ↔
      Listed validators ∧ Listed validators' := by
  have hne' : validators' ≠ [] := by
    obtain ⟨v, hv⟩ := List.exists_mem_of_ne_nil _ hne
    exact List.ne_nil_of_mem ((hsame v).mp hv)
  have hnew : ValidatorSet.new validators = (.ok _ : Call ε _) := ValidatorSet.new_run hne
  have hnew' : ValidatorSet.new validators' = (.ok _ : Call ε _) := ValidatorSet.new_run hne'
  constructor
  · rintro ⟨vs, vs', h⟩
    obtain rfl : _ = vs := Except.ok.inj (hnew.symm.trans h.new)
    have hvs' : (⟨ValidatorSet.sortValidators validators'⟩ : ValidatorSet) = _ :=
      (Except.ok.inj (hnew'.symm.trans h.new')).trans h.eq
    refine ⟨ValidatorSet.documented_iff.mp h.documented, ValidatorSet.documented_iff.mp ?_⟩
    rw [hvs']
    exact ⟨h.documented.sorted, fun v => (h.documented.mem v).trans (hsame v)⟩
  · rintro ⟨hlisted, hlisted'⟩
    have hdocumented := ValidatorSet.documented_iff.mpr hlisted
    have hdocumented' := ValidatorSet.documented_iff.mpr hlisted'
    have heq : ValidatorSet.sortValidators validators' = ValidatorSet.sortValidators validators :=
      eq_of_pairwise_of_mem hdocumented'.sorted hdocumented.sorted fun v =>
        ((hdocumented'.mem v).trans (hsame v).symm).trans (hdocumented.mem v).symm
    have hset : (⟨ValidatorSet.sortValidators validators'⟩ : ValidatorSet) =
        ⟨ValidatorSet.sortValidators validators⟩ := by rw [heq]
    exact ⟨_, _, {
      new := hnew
      new' := hnew'
      documented := hdocumented
      eq := hset
      total := ValidatorSet.total_of_documented hdocumented
      total' := by rw [hset]
      proposer := fun height round => by rw [hset] }⟩

section Demo

attribute [local instance] demoCrypto

/-- A validator with a demo key. -/
def demoValidator (i : UInt8) : Validator := Validator.new (demoKey i) 1

theorem one_set_demo :
    ∃ vs vs', OneSet Unit [demoValidator 1, demoValidator 1, demoValidator 2]
      [demoValidator 1, demoValidator 2, demoValidator 2] vs vs' :=
  (one_set_iff (by decide) fun v => by simp).mpr (by decide +kernel)

/-- A repetition that does not stand next to the original is a validator of its own. -/
theorem repetition_counts_twice :
    ¬ ∀ validators validators' : List Validator, validators ≠ [] →
      (∀ v, v ∈ validators ↔ v ∈ validators') →
      ∃ vs vs', OneSet Unit validators validators' vs vs' := by
  intro hall
  obtain ⟨vs, vs', h⟩ := hall [demoValidator 1, demoValidator 2, demoValidator 1]
    [demoValidator 1, demoValidator 2] (by decide) fun v => by grind
  have hlisted : Listed [demoValidator 1, demoValidator 2, demoValidator 1] := by
    rw [← ValidatorSet.documented_iff,
      Except.ok.inj ((ValidatorSet.new_run (by decide)).symm.trans h.new)]
    exact h.documented
  exact absurd hlisted (by decide +kernel)

end Demo

end MalakethTurbo
