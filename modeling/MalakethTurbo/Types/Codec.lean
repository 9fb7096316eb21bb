import MalakethTurbo.Types.Proto

/-!
# Encoding and decoding

How the consensus types go to the wire and come back: the `Protobuf` conversions
of the types and the codec of the messages the node stores and streams.

The decoder of the generated structures is a parameter, since it belongs to a
library: `Prost` says that it reads back what the encoder of the schema wrote,
and nothing about other input.  `Prost.reference` is the decoder that the schema
itself gives.

Encoding can panic in one place only, a round that the schema stores as a plain
number and that is missing.  So every round trip has the form *if it was encoded,
it is decoded to the same message*, and no theorem carries a condition on rounds.
-/

namespace MalakethTurbo

open Wire

/-- The decoder of the generated structures. -/
class Prost where
  decode : {α : Type} → [Message α] → Bytes → Option α
  decode_encodeToVec : ∀ {α : Type} [Message α] (m : α), decode (encodeToVec m) = some m

/-- The decoder that reads the fields the schema lists. -/
@[reducible] def Prost.reference : Prost where
  decode := decodeMessage
  decode_encodeToVec := decodeMessage_encodeToVec

/-- The errors of the conversions. -/
inductive ProtoError where
  | decode : ProtoError
  | missingField : String → String → ProtoError
  | other : String → ProtoError
  deriving DecidableEq

/-- `Message::decode` with its error. -/
def decodeProto [Prost] {α : Type} [Message α] (b : Bytes) : Call ProtoError α :=
  okOr .decode (Prost.decode b)

@[simp] theorem decodeProto_encodeToVec [Prost] {α : Type} [Message α] (m : α) :
    decodeProto (encodeToVec m) = .ok m := by
  rw [decodeProto, Prost.decode_encodeToVec, okOr_some]

/-- `Result::unwrap`. -/
def unwrapResult {ε ε' α : Type} : Call ε α → Call ε' α
  | .ok a => .ok a
  | .error _ => .error .panic

@[simp] theorem unwrapResult_ok {ε ε' α : Type} (a : α) :
    (unwrapResult (.ok a : Call ε α) : Call ε' α) = .ok a := rfl

/-! ## Addresses, identifiers, values and signatures -/

def Address.toProto (a : Address) : Proto.Address := ⟨a.intoInner.val⟩

/-- `Address::from_proto`. -/
def Address.fromProto (p : Proto.Address) : Call ProtoError Address :=
  match FixedBytes.tryFrom 20 p.value with
  | some b => .ok ⟨b⟩
  | none =>
      .error (.err (.other ("Invalid address length: expected " ++ toString Address.LENGTH ++
        ", got " ++ toString p.value.length)))

def ValueId.toProto (v : ValueId) : Proto.ValueId := ⟨v.asU64⟩

def ValueId.fromProto (p : Proto.ValueId) : ValueId := ⟨p.value⟩

def Value.toProto (v : Value) : Proto.Value := ⟨v.value, v.extensions⟩

/-- `Value::from_proto`: both fields are taken from the wire as they stand. -/
def Value.fromProto (p : Proto.Value) : Value := ⟨p.value, p.extensions⟩

def encodeSignature (s : Signature) : Proto.Signature := ⟨s.val⟩

/-- `decode_signature`. -/
def decodeSignature (p : Proto.Signature) : Call ProtoError Signature :=
  okOr (.other "Invalid signature length") (FixedBytes.tryFrom 64 p.bytes)

@[simp] theorem Address.fromProto_toProto (a : Address) : Address.fromProto a.toProto = .ok a := by
  rw [Address.fromProto, Address.toProto, FixedBytes.tryFrom_val]

@[simp] theorem ValueId.fromProto_toProto (v : ValueId) : ValueId.fromProto v.toProto = v := rfl

@[simp] theorem Value.fromProto_toProto (v : Value) : Value.fromProto v.toProto = v := rfl

@[simp] theorem decodeSignature_encodeSignature (s : Signature) :
    decodeSignature (encodeSignature s) = .ok s := by
  rw [decodeSignature, encodeSignature, FixedBytes.tryFrom_val, okOr_some]

/-- `Protobuf::to_bytes` of a value. -/
def Value.toBytes (v : Value) : Bytes := encodeToVec v.toProto

/-- `Protobuf::from_bytes` of a value. -/
def Value.fromBytes [Prost] (b : Bytes) : Call ProtoError Value := do
  let proto ← decodeProto b
  return Value.fromProto proto

@[simp] theorem Value.fromBytes_toBytes [Prost] (v : Value) :
    Value.fromBytes v.toBytes = .ok v := by
  rw [Value.fromBytes, Value.toBytes, decodeProto_encodeToVec]
  rfl

/-! ## Votes, proposals and parts -/

/-- `encode_votetype`, as the number of the enumeration. -/
def encodeVotetype : VoteType → Int32
  | .prevote => 0
  | .precommit => 1

/-- The generated accessor of the field: a number outside the enumeration reads
as its default. -/
def decodeVotetype (n : Int32) : VoteType :=
  if n = 1 then .precommit else .prevote

/-- `Vote::to_proto`; the extension is not part of the schema. -/
def Vote.toProto (v : Vote) : Call ProtoError Proto.Vote := do
  let round ← unwrap v.round.asU32
  return {
    voteType := encodeVotetype v.typ
    height := v.height.asU64
    round := round
    value := match v.value with
      | .nil => none
      | .val id => some id.toProto
    validatorAddress := some v.validatorAddress.toProto }

/-- `Vote::from_proto`. -/
def Vote.fromProto (p : Proto.Vote) : Call ProtoError Vote := do
  let address ← okOr (.missingField "Vote" "validator_address") p.validatorAddress
  let validatorAddress ← Address.fromProto address
  return {
    typ := decodeVotetype p.voteType
    height := ⟨p.height⟩
    round := .new p.round
    value := match p.value with
      | some id => .val (ValueId.fromProto id)
      | none => .nil
    validatorAddress := validatorAddress
    extension := none }

/-- `Vote::to_bytes`. -/
def Vote.toBytes (v : Vote) : Call ProtoError Bytes := do
  return encodeToVec (← v.toProto)

/-- `Proposal::to_proto`. -/
def Proposal.toProto (p : Proposal) : Call ProtoError Proto.Proposal := do
  let round ← unwrap p.round.asU32
  return {
    height := p.height.asU64
    round := round
    value := some p.value.toProto
    polRound := p.polRound.asU32
    validatorAddress := some p.validatorAddress.toProto }

/-- `Proposal::from_proto`. -/
def Proposal.fromProto (p : Proto.Proposal) : Call ProtoError Proposal := do
  let value ← okOr (.missingField "Proposal" "value") p.value
  let address ← okOr (.missingField "Proposal" "validator_address") p.validatorAddress
  let validatorAddress ← Address.fromProto address
  return {
    height := ⟨p.height⟩
    round := .new p.round
    value := Value.fromProto value
    polRound := .ofOption p.polRound
    validatorAddress := validatorAddress }

/-- `Proposal::to_bytes`. -/
def Proposal.toBytes (p : Proposal) : Call ProtoError Bytes := do
  return encodeToVec (← p.toProto)

/-- `ProposalPart::to_proto`. -/
def ProposalPart.toProto : ProposalPart → Call ProtoError Proto.ProposalPart
  | .init i => do
      let round ← unwrap i.round.asU32
      return ⟨some (.init ⟨i.height.asU64, round, some i.proposer.toProto⟩)⟩
  | .data d => return ⟨some (.data ⟨d.bytes⟩)⟩
  | .fin f => return ⟨some (.fin ⟨some (encodeSignature f.signature)⟩)⟩

/-- `ProposalPart::from_proto`. -/
def ProposalPart.fromProto (p : Proto.ProposalPart) : Call ProtoError ProposalPart := do
  let part ← okOr (.missingField "ProposalPart" "part") p.part
  match part with
  | .init i =>
      let address ← okOr (.missingField "ProposalPart" "proposer") i.proposer
      let proposer ← Address.fromProto address
      return .init ⟨⟨i.height⟩, .new i.round, proposer⟩
  | .data d => return .data ⟨d.bytes⟩
  | .fin f =>
      let signature ← okOr (.missingField "ProposalPart" "signature") f.signature
      return .fin ⟨← decodeSignature signature⟩

/-- `ProposalPart::to_sign_bytes`. -/
def ProposalPart.toSignBytes (p : ProposalPart) : Call ProtoError Bytes := do
  return encodeToVec (← p.toProto)

/-- `ProposalPart::size_bytes`. -/
def ProposalPart.sizeBytes (p : ProposalPart) : Call ProtoError Nat := do
  return (← p.toSignBytes).length

/-! ## Certificates -/

/-- `encode_aggregate_signature`. -/
def encodeAggregateSignature (a : AggregatedSignature) : Proto.AggregatedSignature :=
  ⟨a.signatures.map fun s => ⟨some s.address.toProto, some (encodeSignature s.signature)⟩⟩

/-- One signature of `decode_aggregated_signature`. -/
def decodeCommitSignature (s : Proto.CommitSignature) : Call ProtoError CommitSignature := do
  let signature ← okOr (.missingField "CommitSignature" "signature") s.signature
  let signature ← decodeSignature signature
  let address ← okOr (.missingField "CommitSignature" "validator_address") s.validatorAddress
  let address ← Address.fromProto address
  return ⟨address, signature⟩

/-- `decode_aggregated_signature`. -/
def decodeAggregatedSignature (p : Proto.AggregatedSignature) :
    Call ProtoError AggregatedSignature := do
  let signatures ← p.signatures.mapM decodeCommitSignature
  return ⟨signatures⟩

/-- `encode_certificate`. -/
def encodeCertificate (c : CommitCertificate) : Call ProtoError Proto.CommitCertificate := do
  let round ← unwrap c.round.asU32
  return {
    height := c.height.asU64
    round := round
    valueId := some c.valueId.toProto
    aggregatedSignature := some (encodeAggregateSignature c.aggregatedSignature) }

/-- `decode_certificate`. -/
def decodeCertificate (p : Proto.CommitCertificate) : Call ProtoError CommitCertificate := do
  let valueId ← okOr (.missingField "CommitCertificate" "value_id") p.valueId
  let signature ←
    okOr (.missingField "CommitCertificate" "aggregated_signature") p.aggregatedSignature
  let aggregatedSignature ← decodeAggregatedSignature signature
  return {
    height := ⟨p.height⟩
    round := .new p.round
    valueId := ValueId.fromProto valueId
    aggregatedSignature := aggregatedSignature }

@[simp] theorem decodeCommitSignature_encode (s : CommitSignature) :
    decodeCommitSignature ⟨some s.address.toProto, some (encodeSignature s.signature)⟩ =
      .ok s := by
  simp [decodeCommitSignature]

@[simp] theorem decodeAggregatedSignature_encode (a : AggregatedSignature) :
    decodeAggregatedSignature (encodeAggregateSignature a) = .ok a := by
  obtain ⟨signatures⟩ := a
  have hall : (encodeAggregateSignature ⟨signatures⟩).signatures.mapM decodeCommitSignature =
      .ok signatures := by
    induction signatures with
    | nil => rfl
    | cons s signatures ih =>
        rw [encodeAggregateSignature] at ih ⊢
        rw [List.map_cons, List.mapM_cons, decodeCommitSignature_encode, call_ok_bind, ih]
        rfl
  rw [decodeAggregatedSignature, hall]
  rfl

/-- **Certificates survive their encoding.** -/
theorem decodeCertificate_encodeCertificate {c : CommitCertificate} {p : Proto.CommitCertificate}
    (h : encodeCertificate c = .ok p) : decodeCertificate p = .ok c := by
  obtain ⟨height, round, valueId, aggregatedSignature⟩ := c
  cases round with
  | nil => exact absurd h (by simp [encodeCertificate])
  | some r =>
      simp only [encodeCertificate, Round.asU32_some, unwrap_some, call_ok_bind, call_pure,
        Except.ok.injEq] at h
      rw [← h]
      simp [decodeCertificate]

/-! ## Proposed values -/

namespace ProposedValue

/-- The codec of `ProposedValue`, up to the generated structure. -/
def toProto (p : ProposedValue) : Call ProtoError Proto.ProposedValue := do
  let round ← unwrap p.round.asU32
  return {
    height := p.height.asU64
    round := round
    validRound := p.validRound.asU32
    proposer := some p.proposer.toProto
    value := some p.value.toProto
    validity := p.validity.toBool }

/-- The codec of `ProposedValue`, from the generated structure. -/
def fromProto (proto : Proto.ProposedValue) : Call ProtoError ProposedValue := do
  let proposer ← okOr (.missingField "ProposedValue" "proposer") proto.proposer
  let value ← okOr (.missingField "ProposedValue" "value") proto.value
  let proposer ← Address.fromProto proposer
  return {
    height := ⟨proto.height⟩
    round := .new proto.round
    validRound := .ofOption proto.validRound
    proposer := proposer
    value := Value.fromProto value
    validity := .fromBool proto.validity }

end ProposedValue

/-- The codec of `ProposedValue`, writing. -/
def encodeProposedValue (p : ProposedValue) : Call ProtoError Bytes := do
  let proto ← p.toProto
  return encodeToVec proto

/-- The codec of `ProposedValue`, reading. -/
def decodeProposedValue [Prost] (b : Bytes) : Call ProtoError ProposedValue := do
  let proto ← decodeProto b
  ProposedValue.fromProto proto

theorem encodeProposedValue_of_nil {p : ProposedValue} (h : p.round = .nil) :
    encodeProposedValue p = .error .panic := by
  rw [encodeProposedValue, ProposedValue.toProto, h]
  rfl

theorem exists_encodeProposedValue {p : ProposedValue} (h : p.round ≠ .nil) :
    ∃ b, encodeProposedValue p = .ok b := by
  cases hr : p.round with
  | nil => exact absurd hr h
  | some r =>
      rw [encodeProposedValue, ProposedValue.toProto, hr]
      exact ⟨_, rfl⟩

/-- **Proposed values survive their encoding.** -/
theorem decodeProposedValue_encodeProposedValue [Prost] {p : ProposedValue} {b : Bytes}
    (h : encodeProposedValue p = .ok b) : decodeProposedValue b = .ok p := by
  obtain ⟨height, round, validRound, proposer, value, validity⟩ := p
  cases round with
  | nil => exact absurd h (by simp [encodeProposedValue, ProposedValue.toProto])
  | some r =>
      simp only [encodeProposedValue, ProposedValue.toProto, Round.asU32_some, unwrap_some,
        call_ok_bind, call_pure, Except.ok.injEq] at h
      rw [← h]
      simp [decodeProposedValue, ProposedValue.fromProto]

/-- An encoded value has a round. -/
theorem round_ne_nil_of_encodeProposedValue {p : ProposedValue} {b : Bytes}
    (h : encodeProposedValue p = .ok b) : p.round ≠ .nil := by
  intro hnil
  rw [encodeProposedValue_of_nil hnil] at h
  exact absurd h (by simp)

end MalakethTurbo
