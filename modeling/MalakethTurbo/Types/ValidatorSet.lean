import MalakethTurbo.Types.Core
import Mathlib.Data.List.Destutter

/-!
# Validators and the choice of the proposer

The validator set is the list of the genesis file, in its order, without adjacent
repetitions.  A validator is looked up by its address, and the first entry with the
address answers.

The proposer of a height and a round is chosen by rotation.  The index is
computed in checked machine arithmetic, so the choice can panic.
-/

namespace MalakethTurbo

variable {ε : Type}

/-- A validator is a public key and voting power. -/
structure Validator where
  address : Address
  publicKey : PublicKey
  votingPower : UInt64
  deriving DecidableEq

/-- `Validator::new`. -/
def Validator.new [Crypto] (publicKey : PublicKey) (votingPower : UInt64) : Validator :=
  ⟨Address.fromPublicKey publicKey, publicKey, votingPower⟩

/-- The validators, in the order of the genesis file. -/
structure ValidatorSet where
  validators : List Validator
  deriving DecidableEq

namespace ValidatorSet

/-- `ValidatorSet::sort_validators`: all that it does is `Vec::dedup`, which drops an entry
that equals the one before it. -/
def sortValidators (vals : List Validator) : List Validator := vals.destutter (· ≠ ·)

/-- `ValidatorSet::new`. -/
def new (validators : List Validator) : Call ε ValidatorSet := do
  let validators := sortValidators validators
  assert (validators ≠ [])
  return ⟨validators⟩

/-- `ValidatorSet::total_voting_power`. -/
def totalVotingPower (vs : ValidatorSet) : Call ε Nat :=
  checkedSum (vs.validators.map fun v => v.votingPower.toNat)

def count (vs : ValidatorSet) : Nat := vs.validators.length

/-- `ValidatorSet::get_by_address`: the first validator with the address. -/
def getByAddress (vs : ValidatorSet) (address : Address) : Option Validator :=
  vs.validators.find? fun v => v.address = address

/-- `ValidatorSet::get_by_index`. -/
def getByIndex (vs : ValidatorSet) (index : Nat) : Option Validator := vs.validators[index]?

theorem mem_of_getByAddress {vs : ValidatorSet} {address : Address} {v : Validator}
    (h : vs.getByAddress address = some v) : v ∈ vs.validators ∧ v.address = address := by
  refine ⟨List.mem_of_find?_eq_some h, ?_⟩
  simpa using List.find?_some h

end ValidatorSet

/-- The genesis file. -/
structure Genesis where
  validatorSet : ValidatorSet
  deriving DecidableEq

/-- `TestContext::select_proposer`. -/
def selectProposer (vs : ValidatorSet) (height : Height) (round : Round) :
    Call ε Validator := do
  assert (vs.count > 0)
  assert (round ≠ .nil ∧ round.asI64 ≥ 0)
  let proposerIndex ← do
    let height := height.asU64.toNat
    let round := round.asI64.toNat
    let sum ← checkedAdd (← checkedSub height 1) round
    pure (sum % vs.count)
  unwrap (vs.getByIndex proposerIndex)

end MalakethTurbo
