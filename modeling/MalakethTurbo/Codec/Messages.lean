import MalakethTurbo.App.State
import MalakethTurbo.Codec.Schema
import MalakethTurbo.Logic.Codec

/-!
# The network codec

`ProtobufCodec`, message by message: signed consensus messages, the messages of a
stream, and the status, requests and responses by which nodes catch up.  What the
codec shares with the store (values, parts, certificates, proposed values) is in
`Types.Codec` and is put behind the same interface here.

The readers are less strict than the schema in four places: the number of a vote
type outside the enumeration reads as a prevote, an end marker may say `false`, a
signed vote that does not read is left out of its vote set, and the identifier of
a peer that does not parse is not an error but a panic.
-/

namespace MalakethTurbo

open Wire

/-! ## Messages -/

/-- A message with its signature. -/
structure SignedMessage (α : Type) where
  message : α
  signature : Signature
  deriving DecidableEq

abbrev SignedVote := SignedMessage Vote

abbrev SignedProposal := SignedMessage Proposal

/-- A message of the consensus protocol. -/
inductive SignedConsensusMsg where
  | vote : SignedVote → SignedConsensusMsg
  | proposal : SignedProposal → SignedConsensusMsg
  deriving DecidableEq

structure VoteSet where
  votes : List SignedVote
  deriving DecidableEq

/-- The identifiers of peers, as the networking library writes and reads them. -/
class PeerIdentity (π : Type) where
  toBytes : π → Bytes
  fromBytes : Bytes → Option π
  fromBytes_toBytes : ∀ p, fromBytes (toBytes p) = some p

/-- A hash of a public key or the key itself, behind its code and its length. -/
def isMultihash : Bytes → Bool
  | 0x12 :: len :: digest => decide (len.toNat = digest.length ∧ digest.length ≤ 64)
  | 0x00 :: len :: digest => decide (len.toNat = digest.length ∧ digest.length ≤ 42)
  | _ => false

/-- The identifiers to run the codec with. -/
abbrev Multihash := { b : Bytes // isMultihash b = true }

@[reducible] def multihashIdentity : PeerIdentity Multihash where
  toBytes := Subtype.val
  fromBytes b := if h : isMultihash b = true then some ⟨b, h⟩ else none
  fromBytes_toBytes p := dif_pos p.property

namespace Sync

/-- What a node says about the values it has decided on. -/
structure Status (π : Type) where
  peerId : π
  height : Height
  historyMinHeight : Height
  deriving DecidableEq

structure ValueRequest where
  height : Height
  deriving DecidableEq

structure VoteSetRequest where
  height : Height
  round : Round
  deriving DecidableEq

inductive Request where
  | valueRequest : ValueRequest → Request
  | voteSetRequest : VoteSetRequest → Request
  deriving DecidableEq

structure ValueResponse where
  height : Height
  value : Option RawDecidedValue
  deriving DecidableEq

structure VoteSetResponse where
  height : Height
  round : Round
  voteSet : VoteSet
  deriving DecidableEq

inductive Response where
  | valueResponse : ValueResponse → Response
  | voteSetResponse : VoteSetResponse → Response
  deriving DecidableEq

end Sync

/-! ## Signed messages -/

/-- `encode_vote`. -/
def encodeVote (vote : SignedVote) : Call ProtoError Proto.SignedMessage := do
  let message ← vote.message.toProto
  return { message := some (.vote message), signature := some (encodeSignature vote.signature) }

/-- `Result::ok`; a panic goes on. -/
def resultOk {ε ε' α : Type} : Call ε α → Call ε' (Option α)
  | .ok a => .ok (some a)
  | .error (.err _) => .ok none
  | .error .panic => .error .panic

/-- `decode_vote`. -/
def decodeVote (msg : Proto.SignedMessage) : Call ProtoError (Option SignedVote) :=
  match msg.signature, msg.message with
  | some signature, some (.vote vote) => do
      match ← resultOk (decodeSignature signature) with
      | none => return none
      | some signature =>
          match ← resultOk (Vote.fromProto vote) with
          | none => return none
          | some vote => return some ⟨vote, signature⟩
  | _, _ => return none

/-- `encode_vote_set`. -/
def encodeVoteSet (voteSet : VoteSet) : Call ProtoError Proto.VoteSet := do
  let signedVotes ← voteSet.votes.mapM encodeVote
  return ⟨signedVotes⟩

/-- `decode_vote_set`: votes that do not read are left out. -/
def decodeVoteSet (voteSet : Proto.VoteSet) : Call ProtoError VoteSet := do
  let votes ← voteSet.signedVotes.filterMapM decodeVote
  return ⟨votes⟩

/-- The codec of `SignedConsensusMsg`, writing. -/
def SignedConsensusMsg.toProto : SignedConsensusMsg → Call ProtoError Proto.SignedMessage
  | .vote signed => do
      let message ← signed.message.toProto
      return { message := some (.vote message)
               signature := some (encodeSignature signed.signature) }
  | .proposal signed => do
      let message ← signed.message.toProto
      return { message := some (.proposal message)
               signature := some (encodeSignature signed.signature) }

/-- The codec of `SignedConsensusMsg`, reading. -/
def SignedConsensusMsg.fromProto (proto : Proto.SignedMessage) :
    Call ProtoError SignedConsensusMsg := do
  let signature ← okOr (.missingField "SignedMessage" "signature") proto.signature
  let signature ← decodeSignature signature
  let message ← okOr (.missingField "SignedMessage" "message") proto.message
  match message with
  | .proposal message => do
      let message ← Proposal.fromProto message
      return .proposal ⟨message, signature⟩
  | .vote message => do
      let message ← Vote.fromProto message
      return .vote ⟨message, signature⟩

/-! ## Stream messages -/

/-- `Protobuf::to_bytes` of a part. -/
def ProposalPart.toBytes (p : ProposalPart) : Call ProtoError Bytes := do
  return encodeToVec (← p.toProto)

/-- `Protobuf::from_bytes` of a part. -/
def ProposalPart.fromBytes [Prost] (b : Bytes) : Call ProtoError ProposalPart := do
  let proto ← decodeProto b
  ProposalPart.fromProto proto

/-- The content of a stream message, writing. -/
def StreamContent.toProto :
    StreamContent ProposalPart → Call ProtoError Proto.StreamMessage.Content
  | .data part => do
      let bytes ← part.toBytes
      return .data bytes
  | .fin => return .fin true

/-- The content of a stream message, reading; what an end marker says is not looked
at. -/
def StreamContent.fromProto [Prost] :
    Proto.StreamMessage.Content → Call ProtoError (StreamContent ProposalPart)
  | .data bytes => do
      let part ← ProposalPart.fromBytes bytes
      return .data part
  | .fin _ => return .fin

/-- The codec of `StreamMessage<ProposalPart>`, writing. -/
def StreamMessage.toProto (msg : StreamMessage ProposalPart) :
    Call ProtoError Proto.StreamMessage := do
  let content ← msg.content.toProto
  return { streamId := msg.streamId.bytes, sequence := msg.sequence, content := some content }

/-- The codec of `StreamMessage<ProposalPart>`, reading. -/
def StreamMessage.fromProto [Prost] (proto : Proto.StreamMessage) :
    Call ProtoError (StreamMessage ProposalPart) := do
  let content ← okOr (.missingField "StreamMessage" "content") proto.content
  let content ← StreamContent.fromProto content
  return { streamId := ⟨proto.streamId⟩, sequence := proto.sequence, content := content }

/-! ## Catching up -/

namespace Sync

/-- `encode_synced_value`. -/
def encodeSyncedValue (value : RawDecidedValue) : Call ProtoError Proto.SyncedValue := do
  let certificate ← encodeCertificate value.certificate
  return { valueBytes := value.valueBytes, certificate := some certificate }

/-- `decode_synced_value`. -/
def decodeSyncedValue (proto : Proto.SyncedValue) : Call ProtoError RawDecidedValue := do
  let certificate ← okOr (.missingField "SyncedValue" "certificate") proto.certificate
  let certificate ← decodeCertificate certificate
  return { certificate := certificate, valueBytes := proto.valueBytes }

section Status

variable {π : Type} [PeerIdentity π]

/-- The codec of `sync::Status`, writing. -/
def Status.toProto (status : Status π) : Call ProtoError Proto.Status :=
  return {
    peerId := some ⟨PeerIdentity.toBytes status.peerId⟩
    height := status.height.asU64
    earliestHeight := status.historyMinHeight.asU64 }

/-- The codec of `sync::Status`, reading: the identifier of the peer is unwrapped. -/
def Status.fromProto (proto : Proto.Status) : Call ProtoError (Status π) := do
  let peerId ← okOr (.missingField "Status" "peer_id") proto.peerId
  let peerId ← unwrap (PeerIdentity.fromBytes peerId.id)
  return { peerId := peerId, height := ⟨proto.height⟩, historyMinHeight := ⟨proto.earliestHeight⟩ }

end Status

/-- The codec of `sync::Request`, writing. -/
def Request.toProto : Request → Call ProtoError Proto.SyncRequest
  | .valueRequest req => return ⟨some (.valueRequest ⟨req.height.asU64⟩)⟩
  | .voteSetRequest req => do
      let round ← unwrap req.round.asU32
      return ⟨some (.voteSetRequest ⟨req.height.asU64, round⟩)⟩

/-- The codec of `sync::Request`, reading. -/
def Request.fromProto (proto : Proto.SyncRequest) : Call ProtoError Request := do
  let request ← okOr (.missingField "SyncRequest" "request") proto.request
  match request with
  | .valueRequest req => return .valueRequest ⟨⟨req.height⟩⟩
  | .voteSetRequest req => return .voteSetRequest ⟨⟨req.height⟩, .new req.round⟩

/-- `encode_sync_response`. -/
def Response.toProto : Response → Call ProtoError Proto.SyncResponse
  | .valueResponse response => do
      let value ← response.value.mapM encodeSyncedValue
      return ⟨some (.valueResponse ⟨response.height.asU64, value⟩)⟩
  | .voteSetResponse response => do
      let round ← unwrap response.round.asU32
      let voteSet ← encodeVoteSet response.voteSet
      return ⟨some (.voteSetResponse ⟨response.height.asU64, round, some voteSet⟩)⟩

/-- `decode_sync_response`. -/
def Response.fromProto (proto : Proto.SyncResponse) : Call ProtoError Response := do
  let response ← okOr (.missingField "SyncResponse" "messages") proto.response
  match response with
  | .valueResponse response => do
      let value ← response.value.mapM decodeSyncedValue
      return .valueResponse ⟨⟨response.height⟩, value⟩
  | .voteSetResponse response => do
      let voteSet ← okOr (.missingField "VoteSet" "vote_set") response.voteSet
      let voteSet ← decodeVoteSet voteSet
      return .voteSetResponse ⟨⟨response.height⟩, .new response.round, voteSet⟩

end Sync

/-! ## The codec -/

/-- `Codec::encode`. -/
def Codec.encode {α P : Type} [Message P] (c : Codec ProtoError α P) (m : α) :
    Call ProtoError Bytes := do
  return encodeToVec (← c.toProto m)

/-- `Codec::decode`. -/
def Codec.decode [Prost] {α P : Type} [Message P] (c : Codec ProtoError α P) (b : Bytes) :
    Call ProtoError α := do
  let proto ← decodeProto b
  c.fromProto proto

namespace ProtobufCodec

def value : Codec ProtoError Value Proto.Value :=
  ⟨fun v => .ok v.toProto, fun p => .ok (Value.fromProto p)⟩

def proposalPart : Codec ProtoError ProposalPart Proto.ProposalPart :=
  ⟨ProposalPart.toProto, ProposalPart.fromProto⟩

def signature : Codec ProtoError Signature Proto.Signature :=
  ⟨fun s => .ok (encodeSignature s), decodeSignature⟩

def signedConsensusMsg : Codec ProtoError SignedConsensusMsg Proto.SignedMessage :=
  ⟨SignedConsensusMsg.toProto, SignedConsensusMsg.fromProto⟩

def streamMessage [Prost] : Codec ProtoError (StreamMessage ProposalPart) Proto.StreamMessage :=
  ⟨StreamMessage.toProto, StreamMessage.fromProto⟩

def proposedValue : Codec ProtoError ProposedValue Proto.ProposedValue :=
  ⟨ProposedValue.toProto, ProposedValue.fromProto⟩

def status (π : Type) [PeerIdentity π] : Codec ProtoError (Sync.Status π) Proto.Status :=
  ⟨Sync.Status.toProto, Sync.Status.fromProto⟩

def request : Codec ProtoError Sync.Request Proto.SyncRequest :=
  ⟨Sync.Request.toProto, Sync.Request.fromProto⟩

def response : Codec ProtoError Sync.Response Proto.SyncResponse :=
  ⟨Sync.Response.toProto, Sync.Response.fromProto⟩

/-- The certificates of synced values, which the store keeps by themselves. -/
def certificate : Codec ProtoError CommitCertificate Proto.CommitCertificate :=
  ⟨encodeCertificate, decodeCertificate⟩

/-- A decided value as it is sent to a node that is behind. -/
def syncedValue : Codec ProtoError RawDecidedValue Proto.SyncedValue :=
  ⟨Sync.encodeSyncedValue, Sync.decodeSyncedValue⟩

/-- The store writes proposed values with the codec. -/
theorem encode_proposedValue (p : ProposedValue) :
    proposedValue.encode p = encodeProposedValue p := rfl

/-- The store reads proposed values with the codec. -/
theorem decode_proposedValue [Prost] (b : Bytes) :
    proposedValue.decode b = decodeProposedValue b := rfl

end ProtobufCodec

end MalakethTurbo
