import MalakethTurbo.Codec.Messages
import MalakethTurbo.Types.Signing

/-!
# What is encoded is decoded

The schema leaves out two things.  It stores some rounds as plain numbers, so a
message must have a round there, and it has no field for the extension of a vote.
A message that keeps to this is `Expressible`, and every expressible message is
restored by its codec: `decode_encode`.

A vote set is read vote by vote and drops what does not read, so the round trip of
a response rests on every one of its votes: `decodeVoteSet_encodeVoteSet`.
-/

namespace MalakethTurbo

open Wire

/-! ## What the schema can express -/

/-- The schema has a plain round and no extension. -/
def Vote.Expressible (v : Vote) : Prop := v.round ≠ .nil ∧ v.extension = none

def Proposal.Expressible (p : Proposal) : Prop := p.round ≠ .nil

def ProposalPart.Expressible : ProposalPart → Prop
  | .init i => i.round ≠ .nil
  | .data _ => True
  | .fin _ => True

def SignedConsensusMsg.Expressible : SignedConsensusMsg → Prop
  | .vote signed => signed.message.Expressible
  | .proposal signed => signed.message.Expressible

def StreamMessage.Expressible (msg : StreamMessage ProposalPart) : Prop :=
  ∀ part, msg.content = .data part → part.Expressible

def ProposedValue.Expressible (p : ProposedValue) : Prop := p.round ≠ .nil

def CommitCertificate.Expressible (c : CommitCertificate) : Prop := c.round ≠ .nil

def Sync.Request.Expressible : Sync.Request → Prop
  | .valueRequest _ => True
  | .voteSetRequest req => req.round ≠ .nil

def Sync.Response.Expressible : Sync.Response → Prop
  | .valueResponse response => ∀ value ∈ response.value, value.certificate.Expressible
  | .voteSetResponse response =>
      response.round ≠ .nil ∧ ∀ vote ∈ response.voteSet.votes, vote.message.Expressible

/-! ## One message after the other -/

/-- A round that is there is written. -/
theorem exists_asU32 {r : Round} (h : r ≠ .nil) : ∃ n, r.asU32 = some n ∧ Round.new n = r := by
  cases r with
  | nil => exact absurd rfl h
  | some n => exact ⟨n, rfl, rfl⟩

theorem Vote.restores {v : Vote} (h : v.Expressible) :
    ∃ p, v.toProto = .ok p ∧ Vote.fromProto p = .ok v := by
  obtain ⟨typ, height, round, value, address, extension⟩ := v
  obtain ⟨hround, hext⟩ := h
  obtain ⟨n, hn, hround'⟩ := exists_asU32 hround
  refine ⟨_, by rw [Vote.toProto, hn]; rfl, ?_⟩
  simp only at hext hround'
  rw [hext, ← hround']
  cases typ <;> cases value <;> simp [Vote.fromProto, encodeVotetype, decodeVotetype]

theorem Proposal.restores {p : Proposal} (h : p.Expressible) :
    ∃ q, p.toProto = .ok q ∧ Proposal.fromProto q = .ok p := by
  obtain ⟨height, round, value, polRound, address⟩ := p
  obtain ⟨n, hn, hround⟩ := exists_asU32 h
  refine ⟨_, by rw [Proposal.toProto, hn]; rfl, ?_⟩
  simp only at hround
  rw [← hround]
  simp [Proposal.fromProto]

theorem ProposalPart.restores {part : ProposalPart} (h : part.Expressible) :
    ProtobufCodec.proposalPart.Restores part := by
  cases part with
  | init i =>
      obtain ⟨height, round, proposer⟩ := i
      obtain ⟨n, hn, hround⟩ := exists_asU32 h
      simp only at hround
      refine ⟨⟨some (.init ⟨height.asU64, n, some proposer.toProto⟩)⟩, ?_, ?_⟩
      · show ProposalPart.toProto (.init ⟨height, round, proposer⟩) = _
        rw [ProposalPart.toProto, hn]
        rfl
      · show ProposalPart.fromProto _ = _
        rw [← hround]
        simp [ProposalPart.fromProto]
  | data d => exact ⟨_, rfl, rfl⟩
  | fin f =>
      refine ⟨_, rfl, ?_⟩
      show ProposalPart.fromProto _ = _
      simp [ProposalPart.fromProto]

theorem SignedConsensusMsg.restores {m : SignedConsensusMsg} (h : m.Expressible) :
    ProtobufCodec.signedConsensusMsg.Restores m := by
  cases m with
  | vote signed =>
      obtain ⟨p, hto, hfrom⟩ := Vote.restores h
      refine ⟨⟨some (.vote p), some (encodeSignature signed.signature)⟩, ?_, ?_⟩
      · show SignedConsensusMsg.toProto (.vote signed) = _
        rw [SignedConsensusMsg.toProto, hto]
        rfl
      · show SignedConsensusMsg.fromProto _ = _
        simp [SignedConsensusMsg.fromProto, hfrom]
  | proposal signed =>
      obtain ⟨p, hto, hfrom⟩ := Proposal.restores h
      refine ⟨⟨some (.proposal p), some (encodeSignature signed.signature)⟩, ?_, ?_⟩
      · show SignedConsensusMsg.toProto (.proposal signed) = _
        rw [SignedConsensusMsg.toProto, hto]
        rfl
      · show SignedConsensusMsg.fromProto _ = _
        simp [SignedConsensusMsg.fromProto, hfrom]

theorem ProposalPart.restores_bytes [Prost] {part : ProposalPart} (h : part.Expressible) :
    ∃ b, part.toBytes = .ok b ∧ ProposalPart.fromBytes b = .ok part := by
  obtain ⟨p, hto, hfrom⟩ := ProposalPart.restores h
  refine ⟨encodeToVec p, ?_, ?_⟩
  · rw [ProposalPart.toBytes, show part.toProto = .ok p from hto]
    rfl
  · rw [ProposalPart.fromBytes, decodeProto_encodeToVec]
    exact hfrom

theorem StreamMessage.restores [Prost] {msg : StreamMessage ProposalPart}
    (h : msg.Expressible) : ProtobufCodec.streamMessage.Restores msg := by
  obtain ⟨⟨id⟩, sequence, content⟩ := msg
  cases content with
  | data part =>
      obtain ⟨b, hto, hfrom⟩ := ProposalPart.restores_bytes (h part rfl)
      refine ⟨⟨id, sequence, some (.data b)⟩, ?_, ?_⟩
      · show StreamMessage.toProto _ = _
        simp [StreamMessage.toProto, StreamContent.toProto, hto]
      · show StreamMessage.fromProto _ = _
        simp [StreamMessage.fromProto, StreamContent.fromProto, hfrom]
  | fin => exact ⟨_, rfl, rfl⟩

theorem ProposedValue.restores {p : ProposedValue} (h : p.Expressible) :
    ProtobufCodec.proposedValue.Restores p := by
  obtain ⟨height, round, validRound, proposer, value, validity⟩ := p
  obtain ⟨n, hn, hround⟩ := exists_asU32 h
  refine ⟨_, by show ProposedValue.toProto _ = _; rw [ProposedValue.toProto, hn]; rfl, ?_⟩
  show ProposedValue.fromProto _ = _
  simp only at hround
  rw [← hround]
  simp [ProposedValue.fromProto]

theorem CommitCertificate.restores {c : CommitCertificate} (h : c.Expressible) :
    ProtobufCodec.certificate.Restores c := by
  obtain ⟨n, hn, -⟩ := exists_asU32 h
  have hto : encodeCertificate c = .ok {
      height := c.height.asU64
      round := n
      valueId := some c.valueId.toProto
      aggregatedSignature := some (encodeAggregateSignature c.aggregatedSignature) } := by
    rw [encodeCertificate, hn]
    rfl
  exact ⟨_, hto, decodeCertificate_encodeCertificate hto⟩

/-! ## Catching up -/

namespace Sync

theorem Status.restores {π : Type} [PeerIdentity π] (status : Status π) :
    (ProtobufCodec.status π).Restores status := by
  refine ⟨_, rfl, ?_⟩
  show Status.fromProto _ = _
  simp [Status.fromProto, PeerIdentity.fromBytes_toBytes]

theorem Request.restores {r : Request} (h : r.Expressible) :
    ProtobufCodec.request.Restores r := by
  cases r with
  | valueRequest req => exact ⟨_, rfl, rfl⟩
  | voteSetRequest req =>
      obtain ⟨height, round⟩ := req
      obtain ⟨n, hn, hround⟩ := exists_asU32 h
      simp only at hround
      refine ⟨⟨some (.voteSetRequest ⟨height.asU64, n⟩)⟩, ?_, ?_⟩
      · show Request.toProto (.voteSetRequest ⟨height, round⟩) = _
        rw [Request.toProto, hn]
        rfl
      · rw [← hround]
        rfl

theorem restores_syncedValue {v : RawDecidedValue} (h : v.certificate.Expressible) :
    ProtobufCodec.syncedValue.Restores v := by
  obtain ⟨p, hto, hfrom⟩ := CommitCertificate.restores h
  refine ⟨⟨v.valueBytes, some p⟩, ?_, ?_⟩
  · show encodeSyncedValue v = _
    rw [encodeSyncedValue, show encodeCertificate v.certificate = .ok p from hto]
    rfl
  · show decodeSyncedValue _ = _
    simp [decodeSyncedValue, show decodeCertificate p = .ok v.certificate from hfrom]

end Sync

/-- A vote that is written is kept when its set is read. -/
theorem decodeVote_encodeVote {vote : SignedVote} (h : vote.message.Expressible) :
    ∃ p, encodeVote vote = .ok p ∧ decodeVote p = .ok (some vote) := by
  obtain ⟨p, hto, hfrom⟩ := Vote.restores h
  refine ⟨⟨some (.vote p), some (encodeSignature vote.signature)⟩, ?_, ?_⟩
  · rw [encodeVote, hto]
    rfl
  · simp [decodeVote, hfrom, resultOk]

/-- **A vote set is read back with all its votes.** -/
theorem decodeVoteSet_encodeVoteSet {voteSet : VoteSet}
    (h : ∀ vote ∈ voteSet.votes, vote.message.Expressible) :
    ∃ p, encodeVoteSet voteSet = .ok p ∧ decodeVoteSet p = .ok voteSet := by
  obtain ⟨votes⟩ := voteSet
  have hall : ∃ ps, votes.mapM encodeVote = .ok ps ∧ ps.filterMapM decodeVote = .ok votes := by
    induction votes with
    | nil => exact ⟨[], rfl, rfl⟩
    | cons vote votes ih =>
        obtain ⟨p, hto, hfrom⟩ := decodeVote_encodeVote (h vote List.mem_cons_self)
        obtain ⟨ps, hps, hvotes⟩ := ih fun v hv => h v (List.mem_cons_of_mem vote hv)
        refine ⟨p :: ps, ?_, ?_⟩
        · rw [List.mapM_cons, hto, call_ok_bind, hps]
          rfl
        · rw [List.filterMapM_cons, hfrom, call_ok_bind]
          simp only [hvotes, call_ok_bind]
          rfl
  obtain ⟨ps, hps, hvotes⟩ := hall
  refine ⟨⟨ps⟩, ?_, ?_⟩
  · rw [encodeVoteSet, hps]
    rfl
  · rw [decodeVoteSet, hvotes]
    rfl

theorem Sync.Response.restores {r : Sync.Response} (h : r.Expressible) :
    ProtobufCodec.response.Restores r := by
  cases r with
  | valueResponse response =>
      obtain ⟨height, value⟩ := response
      cases value with
      | none => exact ⟨_, rfl, rfl⟩
      | some value =>
          obtain ⟨p, hto, hfrom⟩ := Sync.restores_syncedValue (h value rfl)
          refine ⟨⟨some (.valueResponse ⟨height.asU64, some p⟩)⟩, ?_, ?_⟩
          · show Sync.Response.toProto (.valueResponse ⟨height, some value⟩) = _
            rw [Sync.Response.toProto, Option.mapM_some,
              show Sync.encodeSyncedValue value = .ok p from hto]
            rfl
          · show Sync.Response.fromProto _ = _
            rw [Sync.Response.fromProto, okOr_some, call_ok_bind]
            simp only [Option.mapM_some, show Sync.decodeSyncedValue p = .ok value from hfrom]
            rfl
  | voteSetResponse response =>
      obtain ⟨height, round, voteSet⟩ := response
      obtain ⟨hround, hvotes⟩ := h
      obtain ⟨n, hn, hround'⟩ := exists_asU32 hround
      obtain ⟨p, hto, hfrom⟩ := decodeVoteSet_encodeVoteSet hvotes
      simp only at hround'
      refine ⟨⟨some (.voteSetResponse ⟨height.asU64, n, some p⟩)⟩, ?_, ?_⟩
      · show Sync.Response.toProto (.voteSetResponse ⟨height, round, voteSet⟩) = _
        rw [Sync.Response.toProto, hn, unwrap_some, call_ok_bind, hto]
        rfl
      · show Sync.Response.fromProto _ = _
        rw [← hround']
        simp [Sync.Response.fromProto, hfrom]

/-! ## The whole codec -/

/-- The message is encoded, and its bytes are decoded as the message. -/
def Codec.RoundTrips [Prost] {α P : Type} [Message P] (c : Codec ProtoError α P) (m : α) :
    Prop :=
  ∃ b, c.encode m = .ok b ∧ c.decode b = .ok m

theorem Codec.RoundTrips.encode_bind_decode [Prost] {α P : Type} [Message P]
    {c : Codec ProtoError α P} {m : α} (h : c.RoundTrips m) :
    (c.encode m >>= c.decode) = .ok m := by
  obtain ⟨b, hencode, hdecode⟩ := h
  rw [hencode, call_ok_bind, hdecode]

/-- A message that is restored makes the round trip through its bytes. -/
theorem Codec.Restores.roundTrips [Prost] {α P : Type} [Message P] {c : Codec ProtoError α P}
    {m : α} (h : c.Restores m) : c.RoundTrips m := by
  obtain ⟨p, hto, hfrom⟩ := h
  refine ⟨encodeToVec p, ?_, ?_⟩
  · rw [Codec.encode, hto]
    rfl
  · rw [Codec.decode, decodeProto_encodeToVec]
    exact hfrom

open ProtobufCodec in
/-- **Every message the schema can express is decoded from its encoding.** -/
theorem decode_encode [Prost] {π : Type} [PeerIdentity π] :
    (∀ v : Value, value.RoundTrips v) ∧
      (∀ p : ProposalPart, p.Expressible → proposalPart.RoundTrips p) ∧
      (∀ s : Signature, signature.RoundTrips s) ∧
      (∀ m : SignedConsensusMsg, m.Expressible → signedConsensusMsg.RoundTrips m) ∧
      (∀ m : StreamMessage ProposalPart, m.Expressible → streamMessage.RoundTrips m) ∧
      (∀ p : ProposedValue, p.Expressible → proposedValue.RoundTrips p) ∧
      (∀ s : Sync.Status π, (status π).RoundTrips s) ∧
      (∀ r : Sync.Request, r.Expressible → request.RoundTrips r) ∧
      (∀ r : Sync.Response, r.Expressible → response.RoundTrips r) ∧
      (∀ c : CommitCertificate, c.Expressible → certificate.RoundTrips c) := by
  refine ⟨?_, ?_, ?_, ?_, ?_, ?_, ?_, ?_, ?_, ?_⟩
  · intro v
    exact Codec.Restores.roundTrips ⟨v.toProto, rfl, rfl⟩
  · intro p h
    exact (ProposalPart.restores h).roundTrips
  · intro s
    exact Codec.Restores.roundTrips
      ⟨encodeSignature s, rfl, decodeSignature_encodeSignature s⟩
  · intro m h
    exact (SignedConsensusMsg.restores h).roundTrips
  · intro m h
    exact (StreamMessage.restores h).roundTrips
  · intro p h
    exact (ProposedValue.restores h).roundTrips
  · intro s
    exact (Sync.Status.restores s).roundTrips
  · intro r h
    exact (Sync.Request.restores h).roundTrips
  · intro r h
    exact (Sync.Response.restores h).roundTrips
  · intro c h
    exact (CommitCertificate.restores h).roundTrips

/-! ## What the schema leaves out -/

/-- The vote without its extension, for which the schema has no field. -/
def SignedVote.withoutExtension (vote : SignedVote) : SignedVote :=
  { vote with message := vote.message.withoutExtension }

/-- What is written does not depend on the extension. -/
theorem Vote.toProto_withoutExtension (v : Vote) : v.withoutExtension.toProto = v.toProto := rfl

theorem encodeVote_withoutExtension (vote : SignedVote) :
    encodeVote (SignedVote.withoutExtension vote) = encodeVote vote := by
  rw [encodeVote, encodeVote]
  exact congrArg (· >>= _) vote.message.toProto_withoutExtension

theorem encodeVoteSet_withoutExtension (votes : List SignedVote) :
    encodeVoteSet ⟨votes.map SignedVote.withoutExtension⟩ = encodeVoteSet ⟨votes⟩ := by
  have hencode : encodeVote ∘ SignedVote.withoutExtension = encodeVote :=
    funext encodeVote_withoutExtension
  rw [encodeVoteSet, encodeVoteSet, List.mapM_map, hencode]

theorem Sync.Response.toProto_withoutExtension (height : Height) (round : Round)
    (votes : List SignedVote) :
    Sync.Response.toProto
        (.voteSetResponse ⟨height, round, ⟨votes.map SignedVote.withoutExtension⟩⟩) =
      Sync.Response.toProto (.voteSetResponse ⟨height, round, ⟨votes⟩⟩) := by
  rw [Sync.Response.toProto, Sync.Response.toProto, encodeVoteSet_withoutExtension]

/-- A message that is written as one that makes the round trip reads back as that one. -/
theorem Codec.RoundTrips.of_toProto_eq [Prost] {α P : Type} [Message P] {c : Codec ProtoError α P}
    {m m' : α} (h : c.RoundTrips m') (heq : c.toProto m' = c.toProto m) :
    ∃ b, c.encode m = .ok b ∧ c.decode b = .ok m' := by
  obtain ⟨b, hencode, hdecode⟩ := h
  refine ⟨b, ?_, hdecode⟩
  rw [Codec.encode, ← heq]
  exact hencode

open ProtobufCodec in
/-- **A vote comes back without its extension and otherwise as it was**, from the wire and
from every place of a vote set. -/
theorem decode_drops_extension [Prost] :
    (∀ vote : SignedVote, vote.message.round ≠ .nil →
      ∃ b, signedConsensusMsg.encode (.vote vote) = .ok b ∧
        signedConsensusMsg.decode b = .ok (.vote (SignedVote.withoutExtension vote))) ∧
      ∀ (height : Height) (round : Round) (votes : List SignedVote), round ≠ .nil →
        (∀ vote ∈ votes, vote.message.round ≠ .nil) →
        ∃ b, response.encode (.voteSetResponse ⟨height, round, ⟨votes⟩⟩) = .ok b ∧
          response.decode b = .ok (.voteSetResponse
            ⟨height, round, ⟨votes.map SignedVote.withoutExtension⟩⟩) := by
  constructor
  · intro vote hround
    have hexpressible :
        (SignedConsensusMsg.vote (SignedVote.withoutExtension vote)).Expressible := ⟨hround, rfl⟩
    exact (SignedConsensusMsg.restores hexpressible).roundTrips.of_toProto_eq
      (encodeVote_withoutExtension vote)
  · intro height round votes hround hvotes
    have hexpressible : (Sync.Response.voteSetResponse
        ⟨height, round, ⟨votes.map SignedVote.withoutExtension⟩⟩).Expressible := by
      refine ⟨hround, fun vote hmem => ?_⟩
      obtain ⟨v, hv, rfl⟩ := List.mem_map.mp hmem
      exact ⟨hvotes v hv, rfl⟩
    exact (Sync.Response.restores hexpressible).roundTrips.of_toProto_eq
      (Sync.Response.toProto_withoutExtension height round votes)

section Demo

attribute [local instance] Prost.reference multihashIdentity

/-- A signature of `64` zeros. -/
def zeroSignature : Signature := FixedBytes.ofBytes 64 []

/-- A nil vote and a vote for the value `0`, both in round `0`, as a node that is
behind is sent them. -/
def demoVoteSet : Sync.Response :=
  .voteSetResponse ⟨⟨1⟩, .some 0, ⟨[.nil, .val ⟨0⟩].map fun value =>
    ⟨Vote.newPrecommit ⟨1⟩ (.some 0) value ⟨FixedBytes.ofBytes 20 []⟩, zeroSignature⟩⟩⟩

theorem decode_encode_demo :
    ProtobufCodec.streamMessage.RoundTrips
        ⟨⟨[7]⟩, 0, .data (.init ⟨⟨1⟩, .some 0, ⟨FixedBytes.ofBytes 20 []⟩⟩)⟩ ∧
      (ProtobufCodec.status Multihash).RoundTrips ⟨⟨[0x00, 1, 9], rfl⟩, ⟨2⟩, ⟨1⟩⟩ ∧
      ProtobufCodec.response.RoundTrips demoVoteSet := by
  obtain ⟨-, -, -, -, hstream, -, hstatus, -, hresponse, -⟩ := decode_encode (π := Multihash)
  refine ⟨hstream _ ?_, hstatus _, hresponse _ ⟨?_, ?_⟩⟩
  · rintro part hpart
    obtain rfl := StreamContent.data.inj hpart
    exact Round.noConfusion
  · exact Round.noConfusion
  · intro vote hvote
    obtain ⟨value, -, rfl⟩ := List.mem_map.mp hvote
    exact ⟨Round.noConfusion, rfl⟩

/-- A vote with an extension of one byte. -/
def demoExtended : SignedVote :=
  ⟨{ Vote.newPrecommit ⟨1⟩ (.some 0) .nil ⟨FixedBytes.ofBytes 20 []⟩ with
      extension := some ⟨[7], zeroSignature⟩ }, zeroSignature⟩

open ProtobufCodec in
theorem decode_drops_extension_demo :
    demoExtended.message.round ≠ .nil ∧
      (∃ b, signedConsensusMsg.encode (.vote demoExtended) = .ok b ∧
        signedConsensusMsg.decode b = .ok (.vote (SignedVote.withoutExtension demoExtended))) ∧
      ∃ b, response.encode (.voteSetResponse ⟨⟨1⟩, .some 0, ⟨[demoExtended]⟩⟩) = .ok b ∧
        response.decode b = .ok (.voteSetResponse
          ⟨⟨1⟩, .some 0, ⟨[SignedVote.withoutExtension demoExtended]⟩⟩) := by
  have hround : demoExtended.message.round ≠ .nil := Round.noConfusion
  obtain ⟨hvote, hresponse⟩ := decode_drops_extension
  refine ⟨hround, hvote demoExtended hround, hresponse ⟨1⟩ (.some 0) [demoExtended] ?_ ?_⟩
  · exact Round.noConfusion
  · exact List.forall_mem_singleton.mpr hround

/-- The extension is gone, and no error says so. -/
theorem extension_not_restored :
    ¬ ProtobufCodec.signedConsensusMsg.RoundTrips (.vote demoExtended) ∧
      ¬ ProtobufCodec.response.RoundTrips
        (.voteSetResponse ⟨⟨1⟩, .some 0, ⟨[demoExtended]⟩⟩) := by
  constructor
  · intro h
    exact absurd h.encode_bind_decode (by decide +kernel)
  · intro h
    exact absurd h.encode_bind_decode (by decide +kernel)

end Demo

end MalakethTurbo
