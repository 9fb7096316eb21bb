import MalakethTurbo.Wire.Field
import MalakethTurbo.Types.Core

/-!
# The wire schema

The messages of `consensus.proto` and `sync.proto` that votes, proposals, parts,
certificates and stored values are encoded through.  The structures are the
generated ones: a scalar field is a plain word, a message field is optional, a
`oneof` is an optional sum.

Each instance of `Message` lists the fields in the order of their numbers, and
its law is put together from the readers, one for each field.
-/

namespace MalakethTurbo
namespace Proto

open Wire

/-- `message Address`. -/
structure Address where
  value : Bytes
  deriving DecidableEq

/-- `message Value`. -/
structure Value where
  value : UInt64
  extensions : Bytes
  deriving DecidableEq

/-- `message ValueId`. -/
structure ValueId where
  value : UInt64
  deriving DecidableEq

/-- `message Vote`; an enumeration is a plain `i32` on the wire. -/
structure Vote where
  voteType : Int32
  height : UInt64
  round : UInt32
  value : Option ValueId
  validatorAddress : Option Address
  deriving DecidableEq

/-- `message Proposal`. -/
structure Proposal where
  height : UInt64
  round : UInt32
  value : Option Value
  polRound : Option UInt32
  validatorAddress : Option Address
  deriving DecidableEq

/-- `message Signature`. -/
structure Signature where
  bytes : Bytes
  deriving DecidableEq

/-- `message ProposalInit`. -/
structure ProposalInit where
  height : UInt64
  round : UInt32
  proposer : Option Address
  deriving DecidableEq

/-- `message ProposalData`. -/
structure ProposalData where
  bytes : Bytes
  deriving DecidableEq

/-- `message ProposalFin`. -/
structure ProposalFin where
  signature : Option Signature
  deriving DecidableEq

/-- The `oneof part` of `message ProposalPart`. -/
inductive Part where
  | init : ProposalInit → Part
  | data : ProposalData → Part
  | fin : ProposalFin → Part
  deriving DecidableEq

/-- `message ProposalPart`. -/
structure ProposalPart where
  part : Option Part
  deriving DecidableEq

/-- `message CommitSignature`. -/
structure CommitSignature where
  validatorAddress : Option Address
  signature : Option Signature
  deriving DecidableEq

/-- `message AggregatedSignature`. -/
structure AggregatedSignature where
  signatures : List CommitSignature
  deriving DecidableEq

/-- `message CommitCertificate`. -/
structure CommitCertificate where
  height : UInt64
  round : UInt32
  valueId : Option ValueId
  aggregatedSignature : Option AggregatedSignature
  deriving DecidableEq

/-- `message ProposedValue`. -/
structure ProposedValue where
  height : UInt64
  round : UInt32
  validRound : Option UInt32
  proposer : Option Address
  value : Option Value
  validity : Bool
  deriving DecidableEq

/-! ## Scalars -/

/-- The varint of an `i32`: a negative number is sign extended to 64 bits. -/
def i32Varint (v : Int32) : Nat := (v.toInt % 2 ^ 64).toNat

@[simp] theorem ofInt_i32Varint (v : Int32) : Int32.ofInt (i32Varint v : Int) = v := by
  apply Int32.toInt_inj.mp
  have hlo := Int32.le_toInt v
  have hhi := Int32.toInt_lt v
  rw [Int32.toInt_ofInt, i32Varint]
  simp only [Int32.size, Int.bmod]
  split <;> omega

def u32? (o : Option UInt32) : Option Nat := o.map UInt32.toNat

@[simp] theorem map_ofNat_u32? (o : Option UInt32) : (u32? o).map UInt32.ofNat = o := by
  cases o <;> simp [u32?]

/-! ## Layout -/

instance : Message Address where
  toFields m := bytes 1 m.value
  ofFields fs := (readBytes 1 fs).map Address.mk
  ofFields_toFields m := by
    rw [readBytes_eq (b := m.value) (by simp)]
    rfl

instance : Message Value where
  toFields m := scalar 1 m.value.toNat ++ bytes 2 m.extensions
  ofFields fs := do
    let value ← readScalar 1 fs
    let extensions ← readBytes 2 fs
    return ⟨UInt64.ofNat value, extensions⟩
  ofFields_toFields m := by
    rw [readScalar_eq (n := m.value.toNat) (by simp),
      readBytes_eq (b := m.extensions) (by simp)]
    simp

instance : Message ValueId where
  toFields m := scalar 1 m.value.toNat
  ofFields fs := (readScalar 1 fs).map fun n => ⟨UInt64.ofNat n⟩
  ofFields_toFields m := by
    rw [readScalar_eq (n := m.value.toNat) (by simp)]
    simp

instance : Message Vote where
  toFields m :=
    scalar 1 (i32Varint m.voteType) ++ scalar 2 m.height.toNat ++ scalar 3 m.round.toNat ++
      message 4 m.value ++ message 5 m.validatorAddress
  ofFields fs := do
    let voteType ← readScalar 1 fs
    let height ← readScalar 2 fs
    let round ← readScalar 3 fs
    let value ← readMessage 4 fs
    let validatorAddress ← readMessage 5 fs
    return ⟨Int32.ofInt voteType, UInt64.ofNat height, UInt32.ofNat round, value,
      validatorAddress⟩
  ofFields_toFields m := by
    rw [readScalar_eq (n := i32Varint m.voteType) (by simp),
      readScalar_eq (n := m.height.toNat) (by simp),
      readScalar_eq (n := m.round.toNat) (by simp),
      readMessage_eq (o := m.value) (by simp),
      readMessage_eq (o := m.validatorAddress) (by simp)]
    simp

instance : Message Proposal where
  toFields m :=
    scalar 1 m.height.toNat ++ scalar 2 m.round.toNat ++ message 3 m.value ++
      optScalar 4 (u32? m.polRound) ++ message 5 m.validatorAddress
  ofFields fs := do
    let height ← readScalar 1 fs
    let round ← readScalar 2 fs
    let value ← readMessage 3 fs
    let polRound ← readOptScalar 4 fs
    let validatorAddress ← readMessage 5 fs
    return ⟨UInt64.ofNat height, UInt32.ofNat round, value, polRound.map UInt32.ofNat,
      validatorAddress⟩
  ofFields_toFields m := by
    rw [readScalar_eq (n := m.height.toNat) (by simp),
      readScalar_eq (n := m.round.toNat) (by simp),
      readMessage_eq (o := m.value) (by simp),
      readOptScalar_eq (o := u32? m.polRound) (by simp),
      readMessage_eq (o := m.validatorAddress) (by simp)]
    simp

instance : Message Signature where
  toFields m := bytes 1 m.bytes
  ofFields fs := (readBytes 1 fs).map Signature.mk
  ofFields_toFields m := by
    rw [readBytes_eq (b := m.bytes) (by simp)]
    rfl

instance : Message ProposalInit where
  toFields m := scalar 1 m.height.toNat ++ scalar 2 m.round.toNat ++ message 4 m.proposer
  ofFields fs := do
    let height ← readScalar 1 fs
    let round ← readScalar 2 fs
    let proposer ← readMessage 4 fs
    return ⟨UInt64.ofNat height, UInt32.ofNat round, proposer⟩
  ofFields_toFields m := by
    rw [readScalar_eq (n := m.height.toNat) (by simp),
      readScalar_eq (n := m.round.toNat) (by simp),
      readMessage_eq (o := m.proposer) (by simp)]
    simp

instance : Message ProposalData where
  toFields m := bytes 1 m.bytes
  ofFields fs := (readBytes 1 fs).map ProposalData.mk
  ofFields_toFields m := by
    rw [readBytes_eq (b := m.bytes) (by simp)]
    rfl

instance : Message ProposalFin where
  toFields m := message 1 m.signature
  ofFields fs := (readMessage 1 fs).map ProposalFin.mk
  ofFields_toFields m := by
    rw [readMessage_eq (o := m.signature) (by simp)]
    rfl

/-- The field of a `oneof` is written whenever one is chosen. -/
def partFields : Option Part → List Field
  | none => []
  | some (.init m) => message 1 (some m)
  | some (.data m) => message 2 (some m)
  | some (.fin m) => message 3 (some m)

/-- The last field of the `oneof` decides. -/
def readPart : Option Field → Option (Option Part)
  | some ⟨1, .len b⟩ => (decodeMessage b).map fun m => some (.init m)
  | some ⟨2, .len b⟩ => (decodeMessage b).map fun m => some (.data m)
  | some ⟨3, .len b⟩ => (decodeMessage b).map fun m => some (.fin m)
  | some _ => none
  | none => some none

instance : Message ProposalPart where
  toFields m := partFields m.part
  ofFields fs :=
    (readPart (fs.filter fun f => f.tag = 1 ∨ f.tag = 2 ∨ f.tag = 3).getLast?).map
      ProposalPart.mk
  ofFields_toFields m := by
    obtain ⟨part⟩ := m
    rcases part with _ | (part | part | part) <;> simp [partFields, message, readPart]

instance : Message CommitSignature where
  toFields m := message 1 m.validatorAddress ++ message 2 m.signature
  ofFields fs := do
    let validatorAddress ← readMessage 1 fs
    let signature ← readMessage 2 fs
    return ⟨validatorAddress, signature⟩
  ofFields_toFields m := by
    rw [readMessage_eq (o := m.validatorAddress) (by simp),
      readMessage_eq (o := m.signature) (by simp)]
    simp

instance : Message AggregatedSignature where
  toFields m := repeated 1 m.signatures
  ofFields fs := (readRepeated 1 fs).map AggregatedSignature.mk
  ofFields_toFields m := by
    rw [readRepeated_eq (l := m.signatures) (by simp)]
    rfl

instance : Message CommitCertificate where
  toFields m :=
    scalar 1 m.height.toNat ++ scalar 2 m.round.toNat ++ message 3 m.valueId ++
      message 4 m.aggregatedSignature
  ofFields fs := do
    let height ← readScalar 1 fs
    let round ← readScalar 2 fs
    let valueId ← readMessage 3 fs
    let aggregatedSignature ← readMessage 4 fs
    return ⟨UInt64.ofNat height, UInt32.ofNat round, valueId, aggregatedSignature⟩
  ofFields_toFields m := by
    rw [readScalar_eq (n := m.height.toNat) (by simp),
      readScalar_eq (n := m.round.toNat) (by simp),
      readMessage_eq (o := m.valueId) (by simp),
      readMessage_eq (o := m.aggregatedSignature) (by simp)]
    simp

instance : Message ProposedValue where
  toFields m :=
    scalar 1 m.height.toNat ++ scalar 2 m.round.toNat ++ optScalar 3 (u32? m.validRound) ++
      message 4 m.proposer ++ message 5 m.value ++ scalar 6 m.validity.toNat
  ofFields fs := do
    let height ← readScalar 1 fs
    let round ← readScalar 2 fs
    let validRound ← readOptScalar 3 fs
    let proposer ← readMessage 4 fs
    let value ← readMessage 5 fs
    let validity ← readScalar 6 fs
    return ⟨UInt64.ofNat height, UInt32.ofNat round, validRound.map UInt32.ofNat, proposer,
      value, decide (validity ≠ 0)⟩
  ofFields_toFields m := by
    rw [readScalar_eq (n := m.height.toNat) (by simp),
      readScalar_eq (n := m.round.toNat) (by simp),
      readOptScalar_eq (o := u32? m.validRound) (by simp),
      readMessage_eq (o := m.proposer) (by simp),
      readMessage_eq (o := m.value) (by simp),
      readScalar_eq (n := m.validity.toNat) (by simp)]
    simp

end Proto
end MalakethTurbo
