import MalakethTurbo.Codec.Messages

/-!
# Decoding returns

Whatever bytes a peer sends, the decoder of the generated structures returns, and
what the codec then does to a structure is a sequence of checks, each with an error
of its own: a member that is missing, an address or a signature of the wrong length.
None of them panics, so nothing the codec reads takes the node down, with one
exception.  The identifier of the peer in a status is read by the networking
library, and what the library refuses is unwrapped: `decode_returns_iff`.
-/

namespace MalakethTurbo

open Wire

/-! ## Members -/

theorem Address.returns_fromProto (p : Proto.Address) : Returns (Address.fromProto p) := by
  rw [Address.fromProto]
  cases FixedBytes.tryFrom 20 p.value with
  | none => exact returns_err _
  | some b => exact returns_ok _

theorem returns_decodeSignature (p : Proto.Signature) : Returns (decodeSignature p) :=
  returns_okOr _ _

theorem returns_decodeProto [Prost] {α : Type} [Message α] (b : Bytes) :
    Returns (decodeProto b : Call ProtoError α) :=
  returns_okOr _ _

theorem Vote.returns_fromProto (p : Proto.Vote) : Returns (Vote.fromProto p) := by
  refine (returns_okOr _ _).bind fun address => ?_
  exact (Address.returns_fromProto address).bind fun _ => returns_ok _

theorem Proposal.returns_fromProto (p : Proto.Proposal) : Returns (Proposal.fromProto p) := by
  refine (returns_okOr _ _).bind fun value => (returns_okOr _ _).bind fun address => ?_
  exact (Address.returns_fromProto address).bind fun _ => returns_ok _

theorem ProposalPart.returns_fromProto (p : Proto.ProposalPart) :
    Returns (ProposalPart.fromProto p) := by
  refine (returns_okOr _ _).bind fun part => ?_
  cases part with
  | init i =>
      refine (returns_okOr _ _).bind fun address => ?_
      exact (Address.returns_fromProto address).bind fun _ => returns_ok _
  | data d => exact returns_ok _
  | fin f =>
      refine (returns_okOr _ _).bind fun signature => ?_
      exact (returns_decodeSignature signature).bind fun _ => returns_ok _

theorem returns_decodeCommitSignature (s : Proto.CommitSignature) :
    Returns (decodeCommitSignature s) := by
  refine (returns_okOr _ _).bind fun signature => ?_
  refine (returns_decodeSignature signature).bind fun _ => ?_
  refine (returns_okOr _ _).bind fun address => ?_
  exact (Address.returns_fromProto address).bind fun _ => returns_ok _

theorem returns_decodeCertificate (p : Proto.CommitCertificate) :
    Returns (decodeCertificate p) := by
  refine (returns_okOr _ _).bind fun valueId => (returns_okOr _ _).bind fun signature => ?_
  refine Returns.bind ?_ fun _ => returns_ok _
  exact (Returns.mapM returns_decodeCommitSignature _).bind fun _ => returns_ok _

theorem Sync.returns_decodeSyncedValue (p : Proto.SyncedValue) :
    Returns (Sync.decodeSyncedValue p) := by
  refine (returns_okOr _ _).bind fun certificate => ?_
  exact (returns_decodeCertificate certificate).bind fun _ => returns_ok _

theorem returns_resultOk {ε ε' α : Type} {x : Call ε α} (h : Returns x) :
    Returns (resultOk x : Call ε' (Option α)) := by
  cases x with
  | ok a => exact returns_ok _
  | error e =>
      cases e with
      | err e => exact returns_ok _
      | panic => exact absurd rfl h

theorem returns_decodeVote (p : Proto.SignedMessage) : Returns (decodeVote p) := by
  obtain ⟨message, signature⟩ := p
  cases signature with
  | none => exact returns_ok none
  | some signature =>
      cases message with
      | none => exact returns_ok none
      | some message =>
          cases message with
          | proposal p => exact returns_ok none
          | vote v =>
              refine (returns_resultOk (returns_decodeSignature signature)).bind fun o => ?_
              cases o with
              | none => exact returns_ok none
              | some s =>
                  refine (returns_resultOk (Vote.returns_fromProto v)).bind fun o => ?_
                  cases o with
                  | none => exact returns_ok none
                  | some vote => exact returns_ok _

/-! ## Messages -/

/-- A codec that reads every structure reads every byte string. -/
theorem Codec.Total.returns [Prost] {α P : Type} [Message P] {c : Codec ProtoError α P}
    (h : c.Total) (b : Bytes) : Returns (c.decode b) :=
  (returns_decodeProto b).bind h

namespace ProtobufCodec

theorem total_value : value.Total := fun _ => returns_ok _

theorem total_proposalPart : proposalPart.Total := ProposalPart.returns_fromProto

theorem total_signature : signature.Total := returns_decodeSignature

theorem total_signedConsensusMsg : signedConsensusMsg.Total := by
  intro p
  refine (returns_okOr _ _).bind fun signature => ?_
  refine (returns_decodeSignature signature).bind fun _ => ?_
  refine (returns_okOr _ _).bind fun message => ?_
  cases message with
  | proposal proposal =>
      exact (Proposal.returns_fromProto proposal).bind fun _ => returns_ok _
  | vote vote => exact (Vote.returns_fromProto vote).bind fun _ => returns_ok _

theorem total_streamMessage [Prost] : streamMessage.Total := by
  intro p
  refine (returns_okOr _ _).bind fun content => ?_
  refine Returns.bind ?_ fun _ => returns_ok _
  cases content with
  | data b =>
      refine Returns.bind ?_ fun _ => returns_ok _
      exact (returns_decodeProto b).bind ProposalPart.returns_fromProto
  | fin b => exact returns_ok _

theorem total_proposedValue : proposedValue.Total := by
  intro p
  refine (returns_okOr _ _).bind fun proposer => (returns_okOr _ _).bind fun value => ?_
  exact (Address.returns_fromProto proposer).bind fun _ => returns_ok _

theorem total_request : request.Total := by
  intro p
  refine (returns_okOr _ _).bind fun request => ?_
  cases request with
  | valueRequest req => exact returns_ok _
  | voteSetRequest req => exact returns_ok _

theorem total_response : response.Total := by
  intro p
  refine (returns_okOr _ _).bind fun response => ?_
  cases response with
  | valueResponse response =>
      refine Returns.bind ?_ fun _ => returns_ok _
      exact Returns.optionMapM Sync.returns_decodeSyncedValue _
  | voteSetResponse response =>
      refine (returns_okOr _ _).bind fun voteSet => ?_
      refine Returns.bind ?_ fun _ => returns_ok _
      exact (Returns.filterMapM returns_decodeVote _).bind fun _ => returns_ok _

end ProtobufCodec

/-! ## Statuses -/

/-- The library reads the identifier of the peer, if the status has one. -/
def Proto.Status.HasPeer (π : Type) [PeerIdentity π] (p : Proto.Status) : Prop :=
  ∀ peerId, p.peerId = some peerId → PeerIdentity.fromBytes (π := π) peerId.id ≠ none

/-- A status is read without a panic exactly if the library reads its peer. -/
theorem Sync.Status.returns_fromProto_iff {π : Type} [PeerIdentity π] (p : Proto.Status) :
    Returns (Sync.Status.fromProto p : Call ProtoError (Sync.Status π)) ↔ p.HasPeer π := by
  obtain ⟨peerId, height, earliestHeight⟩ := p
  cases peerId with
  | none =>
      refine iff_of_true (returns_err _) ?_
      intro peerId h
      cases h
  | some peerId =>
      rw [Sync.Status.fromProto, okOr_some, call_ok_bind]
      cases hid : PeerIdentity.fromBytes (π := π) peerId.id with
      | none =>
          refine iff_of_false (fun h => h rfl) ?_
          intro h
          exact h peerId rfl hid
      | some id =>
          refine iff_of_true (returns_ok _) ?_
          intro peerId' h
          cases h
          rw [hid]
          exact Option.some_ne_none id

open ProtobufCodec in
/-- **Decoding returns on every byte string, a status with a peer that the library
refuses apart.** -/
theorem decode_returns_iff [Prost] {π : Type} [PeerIdentity π] (b : Bytes) :
    Returns (value.decode b) ∧ Returns (proposalPart.decode b) ∧ Returns (signature.decode b) ∧
      Returns (signedConsensusMsg.decode b) ∧ Returns (streamMessage.decode b) ∧
      Returns (proposedValue.decode b) ∧ Returns (request.decode b) ∧
      Returns (response.decode b) ∧
      (Returns ((status π).decode b) ↔
        ∀ p : Proto.Status, Prost.decode b = some p → p.HasPeer π) := by
  refine ⟨total_value.returns b, total_proposalPart.returns b, total_signature.returns b,
    total_signedConsensusMsg.returns b, total_streamMessage.returns b,
    total_proposedValue.returns b, total_request.returns b, total_response.returns b, ?_⟩
  rw [Codec.decode, decodeProto]
  cases hp : (Prost.decode b : Option Proto.Status) with
  | none =>
      refine iff_of_true (returns_err _) ?_
      intro p h
      cases h
  | some p =>
      rw [okOr_some, call_ok_bind]
      constructor
      · intro h p' hp'
        obtain rfl := Option.some.inj hp'
        exact (Sync.Status.returns_fromProto_iff p).mp h
      · intro h
        exact (Sync.Status.returns_fromProto_iff p).mpr (h p rfl)

section Demo

attribute [local instance] Prost.reference multihashIdentity

/-- A status whose peer has no bytes takes the task down. -/
theorem decode_status_panics :
    (ProtobufCodec.status Multihash).decode [0x0a, 0x00] = .error .panic := by
  decide +kernel

end Demo

end MalakethTurbo
