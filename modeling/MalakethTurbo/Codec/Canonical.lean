import MalakethTurbo.Codec.Messages

/-!
# What is decoded is encoded

A message may be read from more than one structure.  For most messages it is not:
reading a part, a proposal, a certificate, a proposed value or a request loses
nothing, and writing what was read gives the structure back.

Where something is lost is said by the four predicates `InSchema`.  An accepted
structure is written again as itself exactly if

* its vote has one of the two types of the enumeration,
* its end marker says `true`, and its data are the encoding of a part,
* every entry of its vote set is a vote with a full signature and address,
* the identifier of its peer is spelt as the library spells it.

Outside of these the reader is less strict than the schema, and
`decode_canonical_iff` is the exact line between the two.
-/

namespace MalakethTurbo

open Wire

/-! ## What the schema asks for -/

namespace Proto

/-- The number is one of the enumeration. -/
def Vote.KnownType (v : Vote) : Prop := v.voteType = 0 ∨ v.voteType = 1

/-- A vote has a known type; proposals are not restricted. -/
def SignedMessage.InSchema (p : SignedMessage) : Prop :=
  ∀ v, p.message = some (.vote v) → v.KnownType

/-- Data are the encoding of a part, and an end marker says `true`. -/
def StreamMessage.InSchema (p : StreamMessage) : Prop :=
  (∀ b, p.content = some (.data b) → ∃ part : ProposalPart, b = encodeToVec part) ∧
    ∀ b, p.content = some (.fin b) → b = true

/-- A vote of a known type with an address and a signature of full length. -/
def SignedMessage.IsVote (p : SignedMessage) : Prop :=
  ∃ v signature address, p.message = some (.vote v) ∧ v.KnownType ∧
    p.signature = some signature ∧ signature.bytes.length = 64 ∧
    v.validatorAddress = some address ∧ address.value.length = 20

/-- The vote set, if there is one, consists of votes. -/
def SyncResponse.InSchema (p : SyncResponse) : Prop :=
  ∀ r voteSet, p.response = some (.voteSetResponse r) → r.voteSet = some voteSet →
    ∀ signed ∈ voteSet.signedVotes, signed.IsVote

/-- The identifier of the peer is spelt as the library spells it. -/
def Status.InSchema (π : Type) [PeerIdentity π] (p : Status) : Prop :=
  ∀ peerId, p.peerId = some peerId → ∃ id : π, PeerIdentity.toBytes id = peerId.id

end Proto

/-! ## Members that lose nothing -/

/-- An address is read only from its own bytes. -/
theorem Address.fromProto_eq_ok {p : Proto.Address} {a : Address} :
    Address.fromProto p = .ok a ↔ p = a.toProto := by
  constructor
  · intro h
    rw [Address.fromProto] at h
    cases hb : FixedBytes.tryFrom 20 p.value with
    | none =>
        rw [hb] at h
        cases h
    | some b =>
        rw [hb] at h
        rw [← Except.ok.inj h]
        exact congrArg Proto.Address.mk (FixedBytes.tryFrom_eq_some.mp hb)
  · rintro rfl
    exact Address.fromProto_toProto a

/-- A signature is read only from its own bytes. -/
theorem decodeSignature_eq_ok {p : Proto.Signature} {s : Signature} :
    decodeSignature p = .ok s ↔ p = encodeSignature s := by
  rw [decodeSignature, okOr_eq_ok, FixedBytes.tryFrom_eq_some]
  exact ⟨fun h => congrArg Proto.Signature.mk h, fun h => congrArg Proto.Signature.bytes h⟩

/-- Reading a vote loses the number of an unknown type and nothing else. -/
theorem Vote.toProto_of_fromProto {p : Proto.Vote} {v : Vote} (h : Vote.fromProto p = .ok v) :
    v.toProto = .ok { p with voteType := encodeVotetype (decodeVotetype p.voteType) } := by
  obtain ⟨voteType, height, round, value, validatorAddress⟩ := p
  obtain ⟨a, ha, h⟩ := call_bind_eq_ok.mp h
  obtain ⟨address, haddress, h⟩ := call_bind_eq_ok.mp h
  rw [okOr_eq_ok] at ha
  rw [Address.fromProto_eq_ok] at haddress
  simp only at ha
  rw [← Except.ok.inj h, ha, haddress]
  cases value <;> rfl

theorem encodeVotetype_decodeVotetype {n : Int32} :
    encodeVotetype (decodeVotetype n) = n ↔ n = 0 ∨ n = 1 := by
  by_cases h : n = 1
  · rw [h]
    exact iff_of_true rfl (Or.inr rfl)
  · rw [decodeVotetype, if_neg h]
    constructor
    · intro h0
      exact Or.inl h0.symm
    · rintro (h0 | h1)
      · exact h0.symm
      · exact absurd h1 h

/-- **A vote is written as what it was read from exactly if its type is known.** -/
theorem Vote.toProto_eq_iff {p : Proto.Vote} {v : Vote} (h : Vote.fromProto p = .ok v) :
    v.toProto = .ok p ↔ p.KnownType := by
  rw [Vote.toProto_of_fromProto h, Except.ok.injEq, Proto.Vote.KnownType,
    ← encodeVotetype_decodeVotetype]
  constructor
  · intro heq
    exact congrArg Proto.Vote.voteType heq
  · intro heq
    rw [heq]

theorem Proposal.toProto_of_fromProto {p : Proto.Proposal} {x : Proposal}
    (h : Proposal.fromProto p = .ok x) : x.toProto = .ok p := by
  obtain ⟨height, round, value, polRound, validatorAddress⟩ := p
  obtain ⟨v, hv, h⟩ := call_bind_eq_ok.mp h
  obtain ⟨a, ha, h⟩ := call_bind_eq_ok.mp h
  obtain ⟨address, haddress, h⟩ := call_bind_eq_ok.mp h
  rw [okOr_eq_ok] at hv ha
  rw [Address.fromProto_eq_ok] at haddress
  simp only at hv ha
  rw [← Except.ok.inj h, hv, ha, haddress]
  cases polRound <;> rfl

theorem ProposalPart.toProto_of_fromProto {p : Proto.ProposalPart} {x : ProposalPart}
    (h : ProposalPart.fromProto p = .ok x) : x.toProto = .ok p := by
  obtain ⟨part⟩ := p
  obtain ⟨part, hpart, h⟩ := call_bind_eq_ok.mp h
  rw [okOr_eq_ok] at hpart
  simp only at hpart
  rw [hpart]
  cases part with
  | init i =>
      obtain ⟨height, round, proposer⟩ := i
      obtain ⟨a, ha, h⟩ := call_bind_eq_ok.mp h
      obtain ⟨address, haddress, h⟩ := call_bind_eq_ok.mp h
      rw [okOr_eq_ok] at ha
      rw [Address.fromProto_eq_ok] at haddress
      simp only at ha
      rw [← Except.ok.inj h, ha, haddress]
      rfl
  | data d =>
      rw [← Except.ok.inj h]
      rfl
  | fin f =>
      obtain ⟨signature⟩ := f
      obtain ⟨s, hs, h⟩ := call_bind_eq_ok.mp h
      obtain ⟨s', hs', h⟩ := call_bind_eq_ok.mp h
      rw [okOr_eq_ok] at hs
      rw [decodeSignature_eq_ok] at hs'
      simp only at hs
      rw [← Except.ok.inj h, hs, hs']
      rfl

theorem ProposedValue.toProto_of_fromProto {p : Proto.ProposedValue} {x : ProposedValue}
    (h : ProposedValue.fromProto p = .ok x) : x.toProto = .ok p := by
  obtain ⟨height, round, validRound, proposer, value, validity⟩ := p
  obtain ⟨a, ha, h⟩ := call_bind_eq_ok.mp h
  obtain ⟨v, hv, h⟩ := call_bind_eq_ok.mp h
  obtain ⟨address, haddress, h⟩ := call_bind_eq_ok.mp h
  rw [okOr_eq_ok] at hv ha
  rw [Address.fromProto_eq_ok] at haddress
  simp only at hv ha
  rw [← Except.ok.inj h, hv, ha, haddress]
  cases validRound <;> cases validity <;> rfl

theorem encode_of_decodeCommitSignature {p : Proto.CommitSignature} {s : CommitSignature}
    (h : decodeCommitSignature p = .ok s) :
    (⟨some s.address.toProto, some (encodeSignature s.signature)⟩ : Proto.CommitSignature) =
      p := by
  obtain ⟨validatorAddress, signature⟩ := p
  obtain ⟨sig, hsig, h⟩ := call_bind_eq_ok.mp h
  obtain ⟨sig', hsig', h⟩ := call_bind_eq_ok.mp h
  obtain ⟨a, ha, h⟩ := call_bind_eq_ok.mp h
  obtain ⟨address, haddress, h⟩ := call_bind_eq_ok.mp h
  rw [okOr_eq_ok] at hsig ha
  rw [decodeSignature_eq_ok] at hsig'
  rw [Address.fromProto_eq_ok] at haddress
  simp only at hsig ha
  rw [← Except.ok.inj h, hsig, ha, hsig', haddress]

theorem encode_of_decodeAggregatedSignature {p : Proto.AggregatedSignature}
    {a : AggregatedSignature} (h : decodeAggregatedSignature p = .ok a) :
    encodeAggregateSignature a = p := by
  obtain ⟨l, hl, ha⟩ := call_bind_eq_ok.mp h
  have hall : ∀ {ps l}, List.Forall₂ (fun p s => decodeCommitSignature p = .ok s) ps l →
      (encodeAggregateSignature ⟨l⟩).signatures = ps := by
    intro ps l hrel
    induction hrel with
    | nil => rfl
    | cons hs _ ih => exact congrArg₂ List.cons (encode_of_decodeCommitSignature hs) ih
  rw [← Except.ok.inj ha]
  exact congrArg Proto.AggregatedSignature.mk (hall (mapM_eq_ok.mp hl))

theorem encodeCertificate_of_decodeCertificate {p : Proto.CommitCertificate}
    {c : CommitCertificate} (h : decodeCertificate p = .ok c) : encodeCertificate c = .ok p := by
  obtain ⟨height, round, valueId, aggregatedSignature⟩ := p
  obtain ⟨v, hv, h⟩ := call_bind_eq_ok.mp h
  obtain ⟨s, hs, h⟩ := call_bind_eq_ok.mp h
  obtain ⟨a, ha, h⟩ := call_bind_eq_ok.mp h
  rw [okOr_eq_ok] at hv hs
  simp only at hv hs
  rw [← Except.ok.inj h, hv, hs, ← encode_of_decodeAggregatedSignature ha]
  rfl

theorem Sync.encodeSyncedValue_of_decodeSyncedValue {p : Proto.SyncedValue} {v : RawDecidedValue}
    (h : Sync.decodeSyncedValue p = .ok v) : Sync.encodeSyncedValue v = .ok p := by
  obtain ⟨valueBytes, certificate⟩ := p
  obtain ⟨c, hc, h⟩ := call_bind_eq_ok.mp h
  obtain ⟨c', hc', h⟩ := call_bind_eq_ok.mp h
  rw [okOr_eq_ok] at hc
  simp only at hc
  rw [← Except.ok.inj h, Sync.encodeSyncedValue, encodeCertificate_of_decodeCertificate hc', hc]
  rfl

/-! ## Vote sets -/

/-- What a vote is written as is a vote. -/
theorem isVote_of_encodeVote {vote : SignedVote} {p : Proto.SignedMessage}
    (h : encodeVote vote = .ok p) : p.IsVote := by
  obtain ⟨v, hv, hp⟩ := call_bind_eq_ok.mp h
  obtain ⟨round, -, hv'⟩ := call_bind_eq_ok.mp hv
  rw [← Except.ok.inj hp, ← Except.ok.inj hv']
  refine ⟨_, encodeSignature vote.signature, vote.message.validatorAddress.toProto, rfl, ?_,
    rfl, vote.signature.property, rfl, vote.message.validatorAddress.intoInner.property⟩
  show encodeVotetype vote.message.typ = 0 ∨ encodeVotetype vote.message.typ = 1
  cases vote.message.typ with
  | prevote => exact Or.inl rfl
  | precommit => exact Or.inr rfl

/-- A vote is kept by its set, and is written as what it was read from. -/
theorem exists_of_isVote {p : Proto.SignedMessage} (h : p.IsVote) :
    ∃ vote, decodeVote p = .ok (some vote) ∧ encodeVote vote = .ok p := by
  obtain ⟨message, signature⟩ := p
  obtain ⟨v, s, a, hmessage, htype, hsignature, hs, haddress, ha⟩ := h
  simp only at hmessage hsignature
  obtain ⟨sig, hsig⟩ : ∃ sig, decodeSignature s = .ok sig :=
    ⟨⟨s.bytes, hs⟩, decodeSignature_eq_ok.mpr rfl⟩
  obtain ⟨vote, hvote⟩ : ∃ vote, Vote.fromProto v = .ok vote := by
    rw [Vote.fromProto, haddress, okOr_some, call_ok_bind,
      Address.fromProto_eq_ok.mpr (show a = (⟨⟨a.value, ha⟩⟩ : Address).toProto from rfl)]
    exact ⟨_, rfl⟩
  refine ⟨⟨vote, sig⟩, ?_, ?_⟩
  · rw [hmessage, hsignature]
    simp [decodeVote, resultOk, hsig, hvote]
  · rw [encodeVote, (Vote.toProto_eq_iff hvote).mpr htype, hmessage, hsignature,
      decodeSignature_eq_ok.mp hsig]
    rfl

/-- **A vote set is written as what it was read from exactly if all its entries are
votes.** -/
theorem encodeVoteSet_eq_iff {p : Proto.VoteSet} {voteSet : VoteSet}
    (h : decodeVoteSet p = .ok voteSet) :
    encodeVoteSet voteSet = .ok p ↔ ∀ signed ∈ p.signedVotes, signed.IsVote := by
  obtain ⟨ps⟩ := p
  obtain ⟨votes, hvotes, hset⟩ := call_bind_eq_ok.mp h
  rw [← Except.ok.inj hset, encodeVoteSet]
  constructor
  · intro hto
    obtain ⟨ps', hps', heq⟩ := call_bind_eq_ok.mp hto
    rw [Proto.VoteSet.mk.inj (Except.ok.inj heq)] at hps'
    exact forall_mem_of_mapM (fun vote signed => isVote_of_encodeVote) hps'
  · intro hall
    suffices hto : votes.mapM encodeVote = .ok ps by
      rw [hto]
      rfl
    clear h hset
    induction ps generalizing votes with
    | nil =>
        rw [← Except.ok.inj hvotes]
        rfl
    | cons signed ps ih =>
        obtain ⟨vote, hdec, henc⟩ := exists_of_isVote (hall signed List.mem_cons_self)
        rw [List.filterMapM_cons, hdec, call_ok_bind] at hvotes
        obtain ⟨rest, hrest, heq⟩ := call_bind_eq_ok.mp hvotes
        rw [← Except.ok.inj heq, List.mapM_cons, henc, call_ok_bind,
          ih rest hrest fun s hs => hall s (List.mem_cons_of_mem signed hs)]
        rfl

/-! ## The messages -/

theorem canonicalOn_signedConsensusMsg :
    ProtobufCodec.signedConsensusMsg.CanonicalOn Proto.SignedMessage.InSchema := by
  rintro ⟨message, signature⟩ m h
  obtain ⟨s, hs, h₁⟩ := call_bind_eq_ok.mp h
  obtain ⟨s', hs', h₂⟩ := call_bind_eq_ok.mp h₁
  obtain ⟨msg, hmsg, h₃⟩ := call_bind_eq_ok.mp h₂
  rw [okOr_eq_ok] at hs hmsg
  rw [decodeSignature_eq_ok] at hs'
  simp only at hs hmsg
  rw [hs, hmsg, hs']
  cases msg with
  | proposal p =>
      obtain ⟨x, hx, h₄⟩ := call_bind_eq_ok.mp h₃
      rw [← Except.ok.inj h₄]
      refine iff_of_true ?_ ?_
      · show SignedConsensusMsg.toProto (.proposal ⟨x, s'⟩) = _
        rw [SignedConsensusMsg.toProto, Proposal.toProto_of_fromProto hx]
        rfl
      · intro v hv
        cases hv
  | vote p =>
      obtain ⟨v, hv, h₄⟩ := call_bind_eq_ok.mp h₃
      rw [← Except.ok.inj h₄]
      have hto : ∀ q, v.toProto = .ok q → SignedConsensusMsg.toProto (.vote ⟨v, s'⟩) =
          .ok ⟨some (.vote q), some (encodeSignature s')⟩ := by
        intro q hq
        rw [SignedConsensusMsg.toProto, hq]
        rfl
      show SignedConsensusMsg.toProto (.vote ⟨v, s'⟩) = _ ↔ _
      rw [hto _ (Vote.toProto_of_fromProto hv)]
      constructor
      · intro heq v' hv'
        cases hv'
        refine (Vote.toProto_eq_iff hv).mp ?_
        rw [Vote.toProto_of_fromProto hv]
        simpa using heq
      · intro hknown
        have heq := (Vote.toProto_eq_iff hv).mpr (hknown p rfl)
        rw [Vote.toProto_of_fromProto hv] at heq
        rw [Except.ok.inj heq]

theorem canonicalOn_streamMessage [Prost] :
    ProtobufCodec.streamMessage.CanonicalOn Proto.StreamMessage.InSchema := by
  rintro ⟨streamId, sequence, content⟩ m h
  obtain ⟨c, hc, h₁⟩ := call_bind_eq_ok.mp h
  obtain ⟨content', hcontent, h₂⟩ := call_bind_eq_ok.mp h₁
  rw [okOr_eq_ok] at hc
  simp only at hc
  rw [← Except.ok.inj h₂, hc]
  show StreamMessage.toProto ⟨⟨streamId⟩, sequence, content'⟩ = _ ↔ _
  cases c with
  | data b =>
      obtain ⟨part, hpart, hdata⟩ := call_bind_eq_ok.mp hcontent
      obtain ⟨proto, hproto, hfrom⟩ := call_bind_eq_ok.mp hpart
      have hto : StreamMessage.toProto ⟨⟨streamId⟩, sequence, content'⟩ =
          .ok ⟨streamId, sequence, some (.data (encodeToVec proto))⟩ := by
        rw [← Except.ok.inj hdata, StreamMessage.toProto, StreamContent.toProto,
          ProposalPart.toBytes, ProposalPart.toProto_of_fromProto hfrom]
        rfl
      rw [hto]
      constructor
      · intro heq
        refine ⟨fun b' hb' => ⟨proto, ?_⟩, fun b' hb' => ?_⟩
        · cases hb'
          simpa using heq.symm
        · cases hb'
      · rintro ⟨hdata', -⟩
        obtain ⟨part', rfl⟩ := hdata' b rfl
        rw [decodeProto_encodeToVec] at hproto
        rw [Except.ok.inj hproto]
  | fin b =>
      rw [← Except.ok.inj hcontent]
      cases b with
      | false =>
          refine iff_of_false ?_ ?_
          · intro heq
            cases heq
          · rintro ⟨-, hfin⟩
            cases hfin false rfl
      | true =>
          refine iff_of_true rfl ⟨fun b hb => ?_, fun b hb => ?_⟩
          · cases hb
          · cases hb
            rfl

theorem Sync.canonicalOn_status (π : Type) [PeerIdentity π] :
    (ProtobufCodec.status π).CanonicalOn (Proto.Status.InSchema π) := by
  rintro ⟨peerId, height, earliestHeight⟩ m h
  obtain ⟨proto, hproto, h₁⟩ := call_bind_eq_ok.mp h
  obtain ⟨id, hid, h₂⟩ := call_bind_eq_ok.mp h₁
  rw [okOr_eq_ok] at hproto
  simp only at hproto
  have hfrom : PeerIdentity.fromBytes (π := π) proto.id = some id := by
    cases ho : PeerIdentity.fromBytes (π := π) proto.id with
    | none =>
        rw [ho] at hid
        cases hid
    | some id' =>
        rw [ho] at hid
        rw [Except.ok.inj hid]
  rw [← Except.ok.inj h₂, hproto]
  constructor
  · intro heq peerId' hpeerId'
    cases hpeerId'
    have hbytes := congrArg Proto.Status.peerId (Except.ok.inj heq)
    exact ⟨id, congrArg Proto.PeerId.id (Option.some.inj hbytes)⟩
  · intro hspelt
    obtain ⟨id', hid'⟩ := hspelt proto rfl
    rw [← hid', PeerIdentity.fromBytes_toBytes] at hfrom
    show (Except.ok _ : Call ProtoError Proto.Status) = _
    rw [← Option.some.inj hfrom, hid']

theorem Sync.canonicalOn_request : ProtobufCodec.request.CanonicalOn fun _ => True := by
  rintro ⟨request⟩ m h
  obtain ⟨r, hr, h₁⟩ := call_bind_eq_ok.mp h
  rw [okOr_eq_ok] at hr
  simp only at hr
  rw [hr]
  cases r with
  | valueRequest req =>
      rw [← Except.ok.inj h₁]
      exact iff_of_true rfl trivial
  | voteSetRequest req =>
      rw [← Except.ok.inj h₁]
      exact iff_of_true rfl trivial

theorem Sync.canonicalOn_response :
    ProtobufCodec.response.CanonicalOn Proto.SyncResponse.InSchema := by
  rintro ⟨response⟩ m h
  obtain ⟨r, hr, h₁⟩ := call_bind_eq_ok.mp h
  rw [okOr_eq_ok] at hr
  simp only at hr
  rw [hr]
  cases r with
  | valueResponse r =>
      obtain ⟨height, value⟩ := r
      obtain ⟨value', hvalue, h₂⟩ := call_bind_eq_ok.mp h₁
      rw [← Except.ok.inj h₂]
      have hto : value'.mapM Sync.encodeSyncedValue = .ok value := by
        cases value with
        | none =>
            rw [← Except.ok.inj hvalue]
            rfl
        | some v =>
            rw [Option.mapM_some, map_eq_pure_bind] at hvalue
            obtain ⟨d, hd, heq⟩ := call_bind_eq_ok.mp hvalue
            rw [← Except.ok.inj heq, Option.mapM_some,
              Sync.encodeSyncedValue_of_decodeSyncedValue hd]
            rfl
      refine iff_of_true ?_ ?_
      · show Sync.Response.toProto (.valueResponse ⟨⟨height⟩, value'⟩) = _
        rw [Sync.Response.toProto, hto]
        rfl
      · intro r' voteSet hr'
        cases hr'
  | voteSetResponse r =>
      obtain ⟨height, round, voteSet⟩ := r
      obtain ⟨set, hset, h₂⟩ := call_bind_eq_ok.mp h₁
      obtain ⟨set', hset', h₃⟩ := call_bind_eq_ok.mp h₂
      rw [okOr_eq_ok] at hset
      simp only at hset
      rw [← Except.ok.inj h₃, hset]
      show Sync.Response.toProto (.voteSetResponse ⟨⟨height⟩, .new round, set'⟩) = _ ↔ _
      constructor
      · intro hto r' voteSet' hr' hvoteSet'
        cases hr'
        obtain rfl := Option.some.inj hvoteSet'
        obtain ⟨n, -, hrest⟩ := call_bind_eq_ok.mp hto
        obtain ⟨p, hp, heq⟩ := call_bind_eq_ok.mp hrest
        have hsame : n = round ∧ p = set := by simpa using heq
        rw [hsame.2] at hp
        exact (encodeVoteSet_eq_iff hset').mp hp
      · intro hall
        have hto := (encodeVoteSet_eq_iff hset').mpr (hall _ set rfl rfl)
        rw [Sync.Response.toProto, hto]
        rfl

open ProtobufCodec in
/-- **What is decoded is encoded exactly where the schema is kept.**  Parts, proposed
values and requests lose nothing; the other messages are written as what they were
read from exactly if they are in the schema. -/
theorem decode_canonical_iff [Prost] {π : Type} [PeerIdentity π] :
    signedConsensusMsg.CanonicalOn Proto.SignedMessage.InSchema ∧
      streamMessage.CanonicalOn Proto.StreamMessage.InSchema ∧
      proposalPart.CanonicalOn (fun _ => True) ∧
      proposedValue.CanonicalOn (fun _ => True) ∧
      (status π).CanonicalOn (Proto.Status.InSchema π) ∧
      request.CanonicalOn (fun _ => True) ∧
      response.CanonicalOn Proto.SyncResponse.InSchema ∧
      ∀ p q m, p.InSchema → q.InSchema → signedConsensusMsg.fromProto p = .ok m →
        signedConsensusMsg.fromProto q = .ok m → p = q := by
  refine ⟨canonicalOn_signedConsensusMsg, canonicalOn_streamMessage, ?_, ?_,
    Sync.canonicalOn_status π, Sync.canonicalOn_request, Sync.canonicalOn_response,
    fun _ _ _ => canonicalOn_signedConsensusMsg.inj⟩
  · intro p part hpart
    exact iff_of_true (ProposalPart.toProto_of_fromProto hpart) trivial
  · intro p value hvalue
    exact iff_of_true (ProposedValue.toProto_of_fromProto hvalue) trivial

section Demo

attribute [local instance] Prost.reference multihashIdentity

/-- A vote of an unknown type is a prevote, an end marker that says `false` ends the
stream, and an entry that is no vote is left out: each is written as something else. -/
theorem decode_outside_schema :
    (∃ m, ProtobufCodec.signedConsensusMsg.fromProto
        ⟨some (.vote ⟨7, 1, 0, none, some ⟨List.replicate 20 0⟩⟩),
          some ⟨List.replicate 64 0⟩⟩ = .ok m ∧
      ProtobufCodec.signedConsensusMsg.toProto m =
        .ok ⟨some (.vote ⟨0, 1, 0, none, some ⟨List.replicate 20 0⟩⟩),
          some ⟨List.replicate 64 0⟩⟩) ∧
    (ProtobufCodec.streamMessage.fromProto ⟨[], 0, some (.fin false)⟩ =
        .ok ⟨⟨[]⟩, 0, .fin⟩ ∧
      ProtobufCodec.streamMessage.toProto ⟨⟨[]⟩, 0, .fin⟩ =
        .ok ⟨[], 0, some (.fin true)⟩) ∧
    ProtobufCodec.response.fromProto ⟨some (.voteSetResponse ⟨1, 0, some ⟨[⟨none, none⟩]⟩⟩)⟩ =
        .ok (.voteSetResponse ⟨⟨1⟩, .some 0, ⟨[]⟩⟩) ∧
      ProtobufCodec.response.toProto (.voteSetResponse ⟨⟨1⟩, .some 0, ⟨[]⟩⟩) =
        .ok ⟨some (.voteSetResponse ⟨1, 0, some ⟨[]⟩⟩)⟩ :=
  ⟨⟨_, rfl, rfl⟩, ⟨rfl, rfl⟩, rfl, rfl⟩

/-- A signed precommit and its set are written as what they were read from. -/
theorem decode_canonical_demo :
    ∃ (p : Proto.SignedMessage) (m : SignedConsensusMsg) (r : Sync.Response),
      ProtobufCodec.signedConsensusMsg.fromProto p = .ok m ∧
        ProtobufCodec.signedConsensusMsg.toProto m = .ok p ∧
        ProtobufCodec.response.fromProto ⟨some (.voteSetResponse ⟨1, 0, some ⟨[p]⟩⟩)⟩ = .ok r ∧
        ProtobufCodec.response.toProto r =
          .ok ⟨some (.voteSetResponse ⟨1, 0, some ⟨[p]⟩⟩)⟩ := by
  obtain ⟨hsigned, -, -, -, -, -, hresponse, -⟩ := decode_canonical_iff (π := Multihash)
  have hknown : Proto.Vote.KnownType ⟨1, 1, 0, none, some ⟨List.replicate 20 0⟩⟩ := Or.inr rfl
  refine ⟨⟨some (.vote ⟨1, 1, 0, none, some ⟨List.replicate 20 0⟩⟩),
    some ⟨List.replicate 64 0⟩⟩, _, _, rfl, (hsigned _ _ rfl).mpr ?_, rfl,
    (hresponse _ _ rfl).mpr ?_⟩
  · intro v hv
    cases hv
    exact hknown
  · intro r voteSet hr hset signed hmem
    cases hr
    cases hset
    rw [List.mem_singleton.mp hmem]
    exact ⟨_, _, _, rfl, hknown, rfl, rfl, rfl, rfl⟩

end Demo

end MalakethTurbo
