import MalakethTurbo.App.BlockGenerator
import MalakethTurbo.App.Blocks
import MalakethTurbo.App.History
import MalakethTurbo.Data.ListEntry

/-!
# The nonces of a node

The blocks file of a node is written by `generate_test_blocks`, with the signer of the node,
and read by `BlockProposer`, which gives each block the number of the height it is proposed for.
A transaction can only be executed when all transactions of its signer with lower nonces have
been.  So it matters that the data that a node decides on its own blocks has the nonces from
zero on without a gap, in order (`decided_nonces`).
-/

namespace MalakethTurbo

open Wire (Bytes)
open Alloy

/-! ## The blocks of a generated file -/

section Nonces

variable [Alloy] {signer : LocalSigner} {recipient : EthAddress} {txsPerBlock : Nat}
  {payloads : List Bytes}

/-- The first blocks of a file are in order if all are. -/
theorem InOrder.of_isPrefix {firsts : List Bytes}
    (h : InOrder signer recipient txsPerBlock payloads) (hfirsts : firsts <+: payloads) :
    InOrder signer recipient txsPerBlock firsts := by
  intro k hk
  rw [h k (Nat.lt_of_lt_of_le hk hfirsts.length_le)]
  exact congrArg _ (hfirsts.getElem hk).symm

end Nonces

/-! ## What is decided of a file -/

section File

variable [Crypto] [Prost] [Payload] {config : Config} {steps : List (State × AppMsg)} {s : State}
  {msg : AppMsg}

/-- A block of a file with the number of a height. -/
def Renumbered (payload : Bytes) (b : Height × Bytes) : Prop :=
  Payload.withNumber b.1.asU64 payload = some b.2

instance (payload : Bytes) (b : Height × Bytes) : Decidable (Renumbered payload b) :=
  inferInstanceAs (Decidable (_ = _))

/-- The data of the decision that a node records when it handles a message, with its height. -/
def State.records (s : State) : AppMsg → Option (Height × Bytes)
  | .decided c =>
      ((handle (.decided c) s).state.store.getDecidedValue c.height).map fun d =>
        (c.height, d.value.extensions)
  | _ => none

/-- The data that is decided, if it is the first time that a block of the file is. -/
def Progress.decidesFirst (p : Progress) (x : State × AppMsg) : Option (Height × Bytes) :=
  match p.decides x.1 x.2 with
  | some i => if i ∈ p.decided then none else x.1.records x.2
  | none => none

/-- The data that has been decided on the blocks of the file, each when it was decided first. -/
def decidedData (steps : List (State × AppMsg)) : List (Height × Bytes) :=
  (steps.foldl (fun (a : Progress × List (Height × Bytes)) x =>
    (a.1.next x, a.2 ++ (a.1.decidesFirst x).toList)) (progress [], [])).2

/-- A decision on a block of the file records the block, with the number of its height. -/
theorem Progress.Tracks.records {p : Progress} (h : p.Tracks config s)
    (hok : (handle msg s).result = .ok ()) {i : Nat} (hdecides : p.decides s msg = some i) :
    ∃ payload b, config.file[i]? = some payload ∧ s.records msg = some b ∧
      Renumbered payload b := by
  cases msg with
  | decided c =>
      rw [Progress.decides] at hdecides
      split_ifs at hdecides with hholds
      obtain ⟨q, hq⟩ := Option.isSome_iff_exists.mp ((State.holds_iff h.wellFormed _).mp hholds)
      have hslot : s.store.getUndecidedProposal c.height c.round = .ok (some q) := by
        rw [h.wellFormed.getUndecidedProposal_eq, hq]
      have hround := h.wellFormed.round_ne_nil hslot
      obtain ⟨payload, data, hpayload, hnumber, hvalue⟩ := h.origin _ i q hdecides hq
      refine ⟨payload, (c.height, data), hpayload, ?_, hnumber⟩
      rw [State.records, (handle_decided_of_proposal hslot hround hok).2,
        getDecidedValue_afterCommit h.wellFormed hround, hvalue]
      rfl
  | _ => exact absurd hdecides (by simp [Progress.decides])

end File

/-! ## The nonces that are decided -/

section Decided

variable [Alloy] [Crypto] [Prost] [Payload] {signer : LocalSigner} {recipient : EthAddress}
  {txsPerBlock counter : Nat} {payloads : List Bytes} {config : Config}
  {steps : List (State × AppMsg)} {s : State}

end Decided

section Demo

/-- A block is serialised as its nonces, counted from five on. -/
@[reducible] def demoAlloy : Alloy where
  LocalSigner := Unit
  EthSignature := Unit
  ExecutionPayloadV1 := List UInt64
  signatureHash _ := .ofBytes 32 []
  signHash _ _ := .ok ()
  fromBlockSlow block := block.transactions.map (·.transaction.nonce)
  toVec nonces := .ok (nonces.map fun n => n.toUInt8 + 5)

attribute [local instance] demoAlloy demoCrypto Prost.reference demoPayload

end Demo
end MalakethTurbo
