import MalakethTurbo.Types.Codec
import MalakethTurbo.Types.ValidatorSet

/-!
# What is signed

Votes, proposals and proposal parts are signed over their wire encoding, with no
tag that says which of the three is meant.  That a signature is nevertheless for
one message only rests on the layout of the schemas:

* a vote and a proposal both end with the address in field `5`, which a part does
  not have;
* field `3` of a proposal is always a byte string, and field `3` of a vote never
  is, since a vote keeps its round there.

So the field lists of two messages of different kinds differ in what `select`
reads from field `5` or field `3`, and two messages of one kind with equal field
lists have equal generated structures.  From there each source field is read off
the generated one.

The extension of a vote is not in the schema.  `Vote.withoutExtension` is what a
vote's signature is for.
-/

namespace MalakethTurbo

open Wire

/-! ## The signing provider -/

section Provider

variable [Crypto]

/-- `sign_vote`. -/
def signVote (key : PrivateKey) (vote : Vote) : Call ProtoError Signature := do
  return Crypto.sign key (← vote.toBytes)

/-- `verify_signed_vote`. -/
def verifySignedVote (vote : Vote) (signature : Signature) (publicKey : PublicKey) :
    Call ProtoError Bool := do
  return Crypto.verify publicKey (← vote.toBytes) signature

/-- `sign_proposal`. -/
def signProposal (key : PrivateKey) (proposal : Proposal) : Call ProtoError Signature := do
  return Crypto.sign key (← proposal.toBytes)

/-- `verify_signed_proposal`. -/
def verifySignedProposal (proposal : Proposal) (signature : Signature)
    (publicKey : PublicKey) : Call ProtoError Bool := do
  return Crypto.verify publicKey (← proposal.toBytes) signature

/-- `sign_proposal_part`. -/
def signProposalPart (key : PrivateKey) (part : ProposalPart) : Call ProtoError Signature := do
  return Crypto.sign key (← part.toSignBytes)

/-- `verify_signed_proposal_part`. -/
def verifySignedProposalPart (part : ProposalPart) (signature : Signature)
    (publicKey : PublicKey) : Call ProtoError Bool := do
  return Crypto.verify publicKey (← part.toSignBytes) signature

/-- The error of a certificate whose signature does not verify. -/
inductive CertificateError where
  | invalidSignature : CommitSignature → CertificateError
  deriving DecidableEq

/-- `verify_commit_signature`: the vote that was signed is rebuilt from the
certificate. -/
def verifyCommitSignature (certificate : CommitCertificate) (commitSig : CommitSignature)
    (validator : Validator) : Call ProtoError (Except CertificateError UInt64) := do
  let vote := Vote.newPrecommit certificate.height certificate.round
    (.val certificate.valueId) validator.address
  let verified ← verifySignedVote vote commitSig.signature validator.publicKey
  if verified then return .ok validator.votingPower
  else return .error (.invalidSignature commitSig)

end Provider

/-! ## The three kinds of message -/

/-- A message the provider signs. -/
inductive SignedMsg where
  | vote : Vote → SignedMsg
  | proposal : Proposal → SignedMsg
  | part : ProposalPart → SignedMsg
  deriving DecidableEq

/-- A vote as its signature sees it. -/
def Vote.withoutExtension (v : Vote) : Vote := { v with extension := none }

namespace SignedMsg

/-- The bytes that are signed. -/
def signBytes : SignedMsg → Call ProtoError Bytes
  | vote v => v.toBytes
  | proposal p => p.toBytes
  | part p => p.toSignBytes

/-- Signs a message with the provider's function for its kind. -/
def sign [Crypto] (key : PrivateKey) : SignedMsg → Call ProtoError Signature
  | vote v => signVote key v
  | proposal p => signProposal key p
  | part p => signProposalPart key p

/-- Verifies a signature with the provider's function for the kind. -/
def verify [Crypto] (signature : Signature) (publicKey : PublicKey) :
    SignedMsg → Call ProtoError Bool
  | vote v => verifySignedVote v signature publicKey
  | proposal p => verifySignedProposal p signature publicKey
  | part p => verifySignedProposalPart p signature publicKey

/-- The same kind and the same fields, the extension of a vote apart. -/
def Same : SignedMsg → SignedMsg → Prop
  | vote v, vote v' => v.withoutExtension = v'.withoutExtension
  | proposal p, proposal p' => p = p'
  | part p, part p' => p = p'
  | _, _ => False

/-- The round that the schema of the message stores as a plain number. -/
def plainRound : SignedMsg → Option Round
  | vote v => some v.round
  | proposal p => some p.round
  | part (.init i) => some i.round
  | part _ => none

theorem sign_eq_ok [Crypto] {key : PrivateKey} {m : SignedMsg} {s : Signature}
    (h : m.sign key = .ok s) : ∃ b, m.signBytes = .ok b ∧ Crypto.sign key b = s := by
  cases m <;>
    (obtain ⟨b, hb, hs⟩ := call_bind_eq_ok.mp h
     exact ⟨b, hb, Except.ok.inj hs⟩)

theorem verify_eq_ok [Crypto] {s : Signature} {key : PublicKey} {m : SignedMsg}
    (h : m.verify s key = .ok true) :
    ∃ b, m.signBytes = .ok b ∧ Crypto.verify key b s = true := by
  cases m <;>
    (obtain ⟨b, hb, hs⟩ := call_bind_eq_ok.mp h
     exact ⟨b, hb, Except.ok.inj hs⟩)

end SignedMsg

/-! ## Reading a message off its fields -/

theorem Address.toProto_injective : Function.Injective Address.toProto := by
  rintro ⟨a⟩ ⟨b⟩ h
  have hval : a.val = b.val := congrArg Proto.Address.value h
  rw [FixedBytes.val_injective hval]

theorem Value.toProto_injective : Function.Injective Value.toProto := by
  rintro ⟨a, x⟩ ⟨b, y⟩ h
  obtain ⟨rfl, rfl⟩ := Proto.Value.mk.inj h
  rfl

theorem encodeVotetype_injective : Function.Injective encodeVotetype := by
  intro t t' h
  cases t <;> cases t' <;> first | rfl | exact absurd h (by decide)

/-- A round that was unwrapped is the number it was unwrapped to. -/
theorem round_eq_of_unwrap {ε : Type} {round : Round} {r : UInt32}
    (h : (unwrap round.asU32 : Call ε UInt32) = .ok r) : round = .some r := by
  cases round with
  | nil => exact absurd h (by simp)
  | some r' => rw [Except.ok.inj h]

/-- The generated structure of a vote determines the vote. -/
theorem Vote.toProto_inj {v v' : Vote} {p : Proto.Vote} (h : v.toProto = .ok p)
    (h' : v'.toProto = .ok p) : v.withoutExtension = v'.withoutExtension := by
  obtain ⟨typ, height, round, value, address, ext⟩ := v
  obtain ⟨typ', height', round', value', address', ext'⟩ := v'
  obtain ⟨r, hr, hp⟩ := call_bind_eq_ok.mp h
  obtain ⟨r', hr', hp'⟩ := call_bind_eq_ok.mp h'
  have heq := Except.ok.inj (hp.trans hp'.symm)
  simp only [Proto.Vote.mk.injEq, Option.some.injEq] at heq
  obtain ⟨htyp, hheight, rfl, hvalue, haddress⟩ := heq
  have hround : round = round' :=
    (round_eq_of_unwrap hr).trans (round_eq_of_unwrap hr').symm
  have hvalue' : value = value' := by
    cases value with
    | nil =>
        cases value' with
        | nil => rfl
        | val id' => exact absurd hvalue (by simp)
    | val id =>
        cases value' with
        | nil => exact absurd hvalue (by simp)
        | val id' =>
            obtain ⟨n⟩ := id
            obtain ⟨n'⟩ := id'
            simpa [ValueId.toProto] using hvalue
  obtain ⟨height⟩ := height
  obtain ⟨height'⟩ := height'
  simp only at hheight
  rw [Vote.withoutExtension, Vote.withoutExtension, encodeVotetype_injective htyp, hheight,
    hround, hvalue', Address.toProto_injective haddress]

/-- The generated structure of a proposal determines the proposal. -/
theorem Proposal.toProto_inj {q q' : Proposal} {p : Proto.Proposal} (h : q.toProto = .ok p)
    (h' : q'.toProto = .ok p) : q = q' := by
  obtain ⟨⟨height⟩, round, value, polRound, address⟩ := q
  obtain ⟨⟨height'⟩, round', value', polRound', address'⟩ := q'
  obtain ⟨r, hr, hp⟩ := call_bind_eq_ok.mp h
  obtain ⟨r', hr', hp'⟩ := call_bind_eq_ok.mp h'
  have heq := Except.ok.inj (hp.trans hp'.symm)
  simp only [Proto.Proposal.mk.injEq, Option.some.injEq] at heq
  obtain ⟨rfl, rfl, hvalue, hpol, haddress⟩ := heq
  have hround : round = round' :=
    (round_eq_of_unwrap hr).trans (round_eq_of_unwrap hr').symm
  rw [hround, Value.toProto_injective hvalue, Round.asU32_injective hpol,
    Address.toProto_injective haddress]

/-- The generated structure of a part determines the part. -/
theorem ProposalPart.toProto_inj {q q' : ProposalPart} {p : Proto.ProposalPart}
    (h : q.toProto = .ok p) (h' : q'.toProto = .ok p) : q = q' := by
  have hread : ∀ {q : ProposalPart}, q.toProto = .ok p →
      ProposalPart.fromProto p = .ok q := by
    intro q hq
    cases q with
    | init i =>
        obtain ⟨r, hr, hp⟩ := call_bind_eq_ok.mp hq
        obtain ⟨⟨height⟩, round, proposer⟩ := i
        have hround : round = .some r := round_eq_of_unwrap hr
        rw [← Except.ok.inj hp, hround]
        simp [ProposalPart.fromProto]
    | data d =>
        rw [← Except.ok.inj hq]
        rfl
    | fin f =>
        rw [← Except.ok.inj hq]
        simp [ProposalPart.fromProto]
  exact Except.ok.inj ((hread h).symm.trans (hread h'))

/-! ## No two kinds serialise alike -/

section Kinds

variable {v : Proto.Vote} {p : Proto.Proposal} {q : Proto.ProposalPart}

/-- Field `3` holds the round of a vote and the value of a proposal. -/
theorem encodeToVec_vote_ne_proposal (hvalue : p.value.isSome) :
    encodeToVec v ≠ encodeToVec p := by
  intro h
  have hsel := congrArg (select 3) (encodeFields_injective h)
  obtain ⟨value, hv⟩ := Option.isSome_iff_exists.mp hvalue
  by_cases hround : v.round.toNat = 0 <;> simp [toFields, hv, hround] at hsel

/-- A vote has an address in field `5`, a part has no field `5`. -/
theorem encodeToVec_vote_ne_part (haddress : v.validatorAddress.isSome) :
    encodeToVec v ≠ encodeToVec q := by
  intro h
  have hsel := congrArg (select 5) (encodeFields_injective h)
  obtain ⟨address, ha⟩ := Option.isSome_iff_exists.mp haddress
  obtain ⟨part⟩ := q
  rcases part with _ | (part | part | part) <;>
    simp [toFields, ha, Proto.partFields] at hsel

/-- A proposal has an address in field `5`, a part has no field `5`. -/
theorem encodeToVec_proposal_ne_part (haddress : p.validatorAddress.isSome) :
    encodeToVec p ≠ encodeToVec q := by
  intro h
  have hsel := congrArg (select 5) (encodeFields_injective h)
  obtain ⟨address, ha⟩ := Option.isSome_iff_exists.mp haddress
  obtain ⟨part⟩ := q
  rcases part with _ | (part | part | part) <;>
    simp [toFields, ha, Proto.partFields] at hsel

end Kinds

/-- Encoding a vote goes through its generated structure, which has an address. -/
theorem Vote.toBytes_eq_ok {v : Vote} {b : Bytes} (h : v.toBytes = .ok b) :
    ∃ p, v.toProto = .ok p ∧ p.validatorAddress.isSome ∧ b = encodeToVec p := by
  obtain ⟨p, hp, hb⟩ := call_bind_eq_ok.mp h
  obtain ⟨r, -, hr⟩ := call_bind_eq_ok.mp hp
  exact ⟨p, hp, by rw [← Except.ok.inj hr]; rfl, (Except.ok.inj hb).symm⟩

/-- Encoding a proposal goes through its generated structure, which has a value
and an address. -/
theorem Proposal.toBytes_eq_ok {q : Proposal} {b : Bytes} (h : q.toBytes = .ok b) :
    ∃ p, q.toProto = .ok p ∧ p.value.isSome ∧ p.validatorAddress.isSome ∧
      b = encodeToVec p := by
  obtain ⟨p, hp, hb⟩ := call_bind_eq_ok.mp h
  obtain ⟨r, -, hr⟩ := call_bind_eq_ok.mp hp
  exact ⟨p, hp, by rw [← Except.ok.inj hr]; rfl, by rw [← Except.ok.inj hr]; rfl,
    (Except.ok.inj hb).symm⟩

theorem ProposalPart.toSignBytes_eq_ok {q : ProposalPart} {b : Bytes}
    (h : q.toSignBytes = .ok b) : ∃ p, q.toProto = .ok p ∧ b = encodeToVec p := by
  obtain ⟨p, hp, hb⟩ := call_bind_eq_ok.mp h
  exact ⟨p, hp, (Except.ok.inj hb).symm⟩

/-- **Equal bytes, equal messages.**  Nine pairs of kinds: the three of one kind
read the generated structure back, and in the other six a field tells them
apart. -/
theorem SignedMsg.same_of_signBytes {m m' : SignedMsg} {b : Bytes}
    (h : m.signBytes = .ok b) (h' : m'.signBytes = .ok b) : m.Same m' := by
  cases m with
  | vote v =>
      obtain ⟨p, hp, ha, rfl⟩ := Vote.toBytes_eq_ok h
      cases m' with
      | vote v' =>
          obtain ⟨p', hp', -, hb⟩ := Vote.toBytes_eq_ok h'
          rw [← encodeToVec_injective hb] at hp'
          exact Vote.toProto_inj hp hp'
      | proposal q =>
          obtain ⟨p', -, hv, -, hb⟩ := Proposal.toBytes_eq_ok h'
          exact absurd hb (encodeToVec_vote_ne_proposal hv)
      | part q =>
          obtain ⟨p', -, hb⟩ := ProposalPart.toSignBytes_eq_ok h'
          exact absurd hb (encodeToVec_vote_ne_part ha)
  | proposal q =>
      obtain ⟨p, hp, hv, ha, rfl⟩ := Proposal.toBytes_eq_ok h
      cases m' with
      | vote v' =>
          obtain ⟨p', -, -, hb⟩ := Vote.toBytes_eq_ok h'
          exact absurd hb.symm (encodeToVec_vote_ne_proposal hv)
      | proposal q' =>
          obtain ⟨p', hp', -, -, hb⟩ := Proposal.toBytes_eq_ok h'
          rw [← encodeToVec_injective hb] at hp'
          exact Proposal.toProto_inj hp hp'
      | part q' =>
          obtain ⟨p', -, hb⟩ := ProposalPart.toSignBytes_eq_ok h'
          exact absurd hb (encodeToVec_proposal_ne_part ha)
  | part q =>
      obtain ⟨p, hp, rfl⟩ := ProposalPart.toSignBytes_eq_ok h
      cases m' with
      | vote v' =>
          obtain ⟨p', -, ha, hb⟩ := Vote.toBytes_eq_ok h'
          exact absurd hb.symm (encodeToVec_vote_ne_part ha)
      | proposal q' =>
          obtain ⟨p', -, -, ha, hb⟩ := Proposal.toBytes_eq_ok h'
          exact absurd hb.symm (encodeToVec_proposal_ne_part ha)
      | part q' =>
          obtain ⟨p', hp', hb⟩ := ProposalPart.toSignBytes_eq_ok h'
          rw [← encodeToVec_injective hb] at hp'
          exact ProposalPart.toProto_inj hp hp'

/-- Encoding panics exactly on a missing round, so every message with its rounds
has bytes to sign. -/
theorem SignedMsg.exists_signBytes_iff (m : SignedMsg) :
    (∃ b, m.signBytes = .ok b) ↔ m.plainRound ≠ some .nil := by
  cases m with
  | vote v => cases hr : v.round <;> simp [signBytes, plainRound, Vote.toBytes, Vote.toProto, hr]
  | proposal p =>
      cases hr : p.round <;> simp [signBytes, plainRound, Proposal.toBytes, Proposal.toProto, hr]
  | part q =>
      cases q with
      | init i =>
          cases hr : i.round <;>
            simp [signBytes, plainRound, ProposalPart.toSignBytes, ProposalPart.toProto, hr]
      | data d => exact ⟨fun _ => by simp [plainRound], fun _ => ⟨_, rfl⟩⟩
      | fin f => exact ⟨fun _ => by simp [plainRound], fun _ => ⟨_, rfl⟩⟩

/-! ## Signatures are for one message -/

/-- **Sign bytes are unambiguous.**  Two messages with the same bytes are the
same message.  So a signature that verifies only for the bytes it was made for
is accepted for the message it was made for and no other, whichever of the three
verifiers is asked, and a commit signature is accepted only if it was made for
the precommit that the certificate and the validator spell out. -/
theorem signBytes_unambiguous [Crypto] :
    (∀ (m m' : SignedMsg) (b : Bytes),
      m.signBytes = .ok b → m'.signBytes = .ok b → m.Same m') ∧
    (∀ (key : PrivateKey) (m : SignedMsg) (signature : Signature),
      m.sign key = .ok signature →
      (∀ publicKey b b', m.signBytes = .ok b →
        Crypto.verify publicKey b' signature = true → b' = b) →
      (∀ (m' : SignedMsg) (publicKey : PublicKey),
        m'.verify signature publicKey = .ok true → m.Same m') ∧
      (∀ (certificate : CommitCertificate) (commitSig : CommitSignature)
          (validator : Validator) (power : UInt64),
        commitSig.signature = signature →
        verifyCommitSignature certificate commitSig validator = .ok (.ok power) →
        m.Same (.vote (Vote.newPrecommit certificate.height certificate.round
          (.val certificate.valueId) validator.address)))) := by
  refine ⟨fun m m' b => SignedMsg.same_of_signBytes, ?_⟩
  intro key m signature hsign hexact
  obtain ⟨b, hb, -⟩ := SignedMsg.sign_eq_ok hsign
  have hverify : ∀ (m' : SignedMsg) (publicKey : PublicKey),
      m'.verify signature publicKey = .ok true → m.Same m' := by
    intro m' publicKey hv
    obtain ⟨b', hb', hv'⟩ := SignedMsg.verify_eq_ok hv
    rw [hexact publicKey b b' hb hv'] at hb'
    exact SignedMsg.same_of_signBytes hb hb'
  refine ⟨hverify, ?_⟩
  rintro certificate commitSig validator power rfl hcommit
  obtain ⟨verified, hv, hpower⟩ := call_bind_eq_ok.mp hcommit
  cases verified with
  | false => exact absurd (Except.ok.inj hpower) (by simp)
  | true => exact hverify (.vote _) validator.publicKey hv

/-- A nil prevote with an extension, to run the provider on. -/
def demoVote (extension : Option SignedExtension) : SignedMsg :=
  .vote {
    typ := .prevote
    height := ⟨1⟩
    round := .some 0
    value := .nil
    validatorAddress := @Address.fromPublicKey demoCrypto (demoKey 1)
    extension := extension }

theorem signBytes_unambiguous_demoVote :
    ∃ signature, @SignedMsg.sign demoCrypto (demoKey 1) (demoVote none) = .ok signature ∧
      (demoVote none).Same (demoVote (some ⟨[7], signature⟩)) ∧
      ∀ m' publicKey, @SignedMsg.verify demoCrypto signature publicKey m' = .ok true →
        (demoVote none).Same m' := by
  obtain ⟨hbytes, hsignature⟩ := @signBytes_unambiguous demoCrypto
  have hexact : ∀ publicKey b b', (demoVote none).signBytes = .ok b →
      demoCrypto.verify publicKey b' (demoCrypto.sign (demoKey 1)
        (((demoVote none).signBytes).toOption.getD [])) = true → b' = b := by
    intro publicKey b b' hb hv
    rw [hb] at hv
    have hlen : b.length ≤ 62 := by
      rw [← Except.ok.inj hb]
      decide
    exact (demoCrypto_exact hlen hv).2
  exact ⟨_, rfl, hbytes _ _ _ rfl rfl, (hsignature (demoKey 1) (demoVote none) _ rfl hexact).1⟩

end MalakethTurbo
