import MalakethTurbo.App.Provenance
import MalakethTurbo.Logic.Quorum

/-!
# Forks are accountable

The application takes the certificates of its decisions as they are.  It can check them
signature by signature (`verify_commit_signature`), and what it checks is a signature of one
precommit: of a height, a round and one value (`SignedMsg.same_of_signBytes`).

So if nodes have recorded decisions of one height and round whose certificates name different
values, and the certificates they were told of are genuine, then more than a third of the voting
power has signed two precommits where one is allowed: the one signature is in the certificate
that the one node has recorded, and the other in that of the other (`forks_are_accountable`).
This does not depend on what the nodes were sent besides.  It is about the values that the
certificates name, since a slot that holds another value makes a node record that one.
-/

namespace MalakethTurbo

open Wire (Bytes)

section Power

variable {vs : ValidatorSet} {a : Address}

/-- The voting power of an address. -/
def powerOf (vs : ValidatorSet) : Address → ℕ :=
  lookup Validator.address (fun v => v.votingPower.toNat) vs.validators

/-- The voting power of all validators. -/
def allPower (vs : ValidatorSet) : ℕ := (vs.validators.map fun v => v.votingPower.toNat).sum

theorem powerOf_eq {v : Validator} (h : vs.getByAddress a = some v) :
    powerOf vs a = v.votingPower.toNat := by
  rw [ValidatorSet.getByAddress] at h
  rw [powerOf, lookup, h]
  rfl

theorem weight_powerOf_le (vs : ValidatorSet) (addresses : Finset Address) :
    weight (powerOf vs) addresses ≤ allPower vs := weight_lookup_le vs.validators addresses

end Power

section Certificates

variable [Crypto] {vs : ValidatorSet} {c c' : CommitCertificate} {a : Address}

/-! ## What a certificate proves -/

/-- The commit signature is of a validator of the set, and it verifies. -/
def verifies (vs : ValidatorSet) (c : CommitCertificate) (sig : CommitSignature) : Bool :=
  match vs.getByAddress sig.address with
  | none => false
  | some v =>
      match verifyCommitSignature c sig v with
      | .ok (.ok _) => true
      | _ => false

/-- The validators whose commit signatures verify. -/
def signers (vs : ValidatorSet) (c : CommitCertificate) : Finset Address :=
  ((c.aggregatedSignature.signatures.filter (verifies vs c)).map CommitSignature.address).toFinset

/-- The precommit of a validator that is rebuilt from a certificate. -/
def precommitOf (v : Validator) (c : CommitCertificate) : Vote :=
  .newPrecommit c.height c.round (.val c.valueId) v.address

/-- A commit signature in a certificate is that of a validator under its precommit. -/
structure Precommitted (v : Validator) (c : CommitCertificate) (sig : CommitSignature) : Prop where
  recorded : sig ∈ c.aggregatedSignature.signatures
  address : sig.address = v.address
  verified : verifySignedVote (precommitOf v c) sig.signature v.publicKey = .ok true

theorem verifyCommitSignature_eq_ok {sig : CommitSignature} {v : Validator} {power : UInt64}
    (h : verifyCommitSignature c sig v = .ok (.ok power)) :
    power = v.votingPower ∧
      verifySignedVote (precommitOf v c) sig.signature v.publicKey = .ok true := by
  obtain ⟨verified, hverified, hpower⟩ := call_bind_eq_ok.mp h
  cases verified with
  | false => exact absurd (Except.ok.inj hpower) (by simp)
  | true => exact ⟨(Except.ok.inj (Except.ok.inj hpower)).symm, hverified⟩

omit [Crypto] in
theorem sum_map_ite {α : Type} (l : List α) (p : α → Bool) (f : α → ℕ) :
    (l.map fun x => if p x then f x else 0).sum = ((l.filter p).map f).sum := by
  induction l with
  | nil => rfl
  | cons x l ih =>
      by_cases hx : p x
      · simp [hx, ih]
      · simp [hx, ih]

theorem verifies_iff {sig : CommitSignature} : verifies vs c sig ↔
    ∃ v, vs.getByAddress sig.address = some v ∧
      ∃ power, verifyCommitSignature c sig v = .ok (.ok power) := by
  rw [verifies]
  cases hv : vs.getByAddress sig.address with
  | none => simp
  | some v =>
      rcases hpower : verifyCommitSignature c sig v with stop | (e | power) <;> simp [hpower]

/-- A commit signature counts for the power of its address if it verifies. -/
theorem certifiedPower_eq_sum : certifiedPower vs c =
    (c.aggregatedSignature.signatures.map fun sig =>
      if verifies vs c sig then powerOf vs sig.address else 0).sum := by
  refine congrArg List.sum (List.map_congr_left fun sig _ => ?_)
  by_cases hverifies : verifies vs c sig
  · obtain ⟨v, hv, power, hpower⟩ := verifies_iff.mp hverifies
    rw [if_pos hverifies, powerOf_eq hv, ← (verifyCommitSignature_eq_ok hpower).1, hv]
    dsimp only
    rw [hpower]
  · rw [if_neg hverifies]
    rw [verifies_iff] at hverifies
    push Not at hverifies
    cases hv : vs.getByAddress sig.address with
    | none => rfl
    | some v =>
        dsimp only
        split
        · rename_i power hpower
          exact absurd hpower (hverifies v hv power)
        · rfl

/-- **The power behind a certificate** is that of its signers, if nobody is named twice. -/
theorem certifiedPower_eq
    (hnodup : (c.aggregatedSignature.signatures.map CommitSignature.address).Nodup) :
    certifiedPower vs c = weight (powerOf vs) (signers vs c) := by
  have hsub := (List.filter_sublist (p := verifies vs c)
    (l := c.aggregatedSignature.signatures)).map CommitSignature.address
  rw [weight, signers, List.sum_toFinset _ (hnodup.sublist hsub), List.map_map,
    certifiedPower_eq_sum, sum_map_ite]
  rfl

theorem Genuine.quorum (h : Genuine vs c) :
    Quorum (powerOf vs) 2 3 (allPower vs) (signers vs c) := by
  rw [Quorum, ← certifiedPower_eq h.1]
  exact h.2

/-- A signer is a validator, and its signature is in the certificate. -/
theorem exists_precommitted (h : a ∈ signers vs c) :
    ∃ v, vs.getByAddress a = some v ∧ ∃ sig, Precommitted v c sig := by
  obtain ⟨sig, hsig, rfl⟩ := List.mem_map.mp (List.mem_toFinset.mp h)
  obtain ⟨hrecorded, hverifies⟩ := List.mem_filter.mp hsig
  obtain ⟨v, hv, power, hpower⟩ := verifies_iff.mp hverifies
  exact ⟨v, hv, sig, hrecorded, (ValidatorSet.mem_of_getByAddress hv).2.symm,
    (verifyCommitSignature_eq_ok hpower).2⟩

/-! ## Two certificates -/

/-- Two certificates of one height and round hold a signature each of one validator, under
precommits for different values. -/
structure DoubleSigned (v : Validator) (c c' : CommitCertificate) : Prop where
  height : c.height = c'.height
  round : c.round = c'.round
  valueId : c.valueId ≠ c'.valueId
  bytes : (precommitOf v c).toBytes ≠ (precommitOf v c').toBytes
  signed : ∃ sig, Precommitted v c sig
  signed' : ∃ sig, Precommitted v c' sig

/-- Two certificates show that validators of more than a third of the voting power have signed
two precommits each. -/
def ThirdDoubleSigned (vs : ValidatorSet) (c c' : CommitCertificate) : Prop :=
  ∃ culprits : Finset Address, allPower vs < 3 * weight (powerOf vs) culprits ∧
    ∀ a ∈ culprits, ∃ v, vs.getByAddress a = some v ∧ DoubleSigned v c c'

/-- Two precommits for different values are two messages. -/
theorem doubleSigned_of_precommitted {v : Validator} {sig sig' : CommitSignature}
    (h : Precommitted v c sig) (h' : Precommitted v c' sig') (hheight : c.height = c'.height)
    (hround : c.round = c'.round) (hne : c.valueId ≠ c'.valueId) : DoubleSigned v c c' := by
  refine ⟨hheight, hround, hne, fun hbytes => hne ?_, ⟨sig, h⟩, ⟨sig', h'⟩⟩
  obtain ⟨b, hb, -⟩ := call_bind_eq_ok.mp h.verified
  have hsame : SignedMsg.Same (.vote (precommitOf v c)) (.vote (precommitOf v c')) :=
    SignedMsg.same_of_signBytes hb (hbytes.symm.trans hb)
  exact NilOrVal.val.inj (congrArg Vote.value hsame)

/-- **Conflicting certificates convict a third.** -/
theorem thirdDoubleSigned_of_genuine (h : Genuine vs c) (h' : Genuine vs c')
    (hheight : c.height = c'.height) (hround : c.round = c'.round)
    (hne : c.valueId ≠ c'.valueId) : ThirdDoubleSigned vs c c' := by
  refine ⟨signers vs c ∩ signers vs c', ?_, fun a ha => ?_⟩
  · have hoverlap := h.quorum.overlap (weight_powerOf_le vs _) h'.quorum
    omega
  · obtain ⟨hsigner, hsigner'⟩ := Finset.mem_inter.mp ha
    obtain ⟨v, hv, sig, hprecommitted⟩ := exists_precommitted hsigner
    obtain ⟨v', hv', sig', hprecommitted'⟩ := exists_precommitted hsigner'
    obtain rfl : v = v' := Option.some.inj (hv.symm.trans hv')
    exact ⟨v, hv, doubleSigned_of_precommitted hprecommitted hprecommitted' hheight hround hne⟩

end Certificates

/-! ## Two nodes -/

section Nodes

variable [Crypto] [Prost] [Payload] {config config' : Config} {steps steps' : List (State × Event)}
  {s s' : State} {vs : ValidatorSet}

/-- A recorded decision is one that the node has been told of. -/
theorem genuine_of_recorded (h : Run (node config) steps s)
    (hgenuine : ∀ x ∈ steps, ∀ c, x.2.msg = .decided c → Genuine vs c) {height : Height}
    {d : DecidedValue} (hd : s.store.getDecidedValue height = some d) :
    d.certificate.height = height ∧ Genuine vs d.certificate := by
  obtain ⟨hheight, data, ⟨before, x, after, rfl, hmsg, -⟩, -⟩ := h.sourced.decided height d hd
  exact ⟨hheight, hgenuine x (List.mem_append_right _ List.mem_cons_self) _ hmsg⟩

/-- **Forks are accountable.**  Take any two nodes, whatever they have been sent and wherever
they have died, that have been told of decisions with genuine certificates only.  If they have
recorded decisions of one height and one round, the certificates are of that height and name
one value, or validators of more than a third of the voting power have each put two signatures,
one in the certificate that the one node has recorded and one in that of the other, under
precommits of that height and round for different values and with different bytes. -/
theorem forks_are_accountable (h : Run (node config) steps s) (h' : Run (node config') steps' s')
    (hgenuine : ∀ x ∈ steps, ∀ c, x.2.msg = .decided c → Genuine vs c)
    (hgenuine' : ∀ x ∈ steps', ∀ c, x.2.msg = .decided c → Genuine vs c)
    {height : Height} {d d' : DecidedValue} (hd : s.store.getDecidedValue height = some d)
    (hd' : s'.store.getDecidedValue height = some d')
    (hround : d.certificate.round = d'.certificate.round) :
    d.certificate.height = height ∧ d'.certificate.height = height ∧
      (d.certificate.valueId = d'.certificate.valueId ∨
        ThirdDoubleSigned vs d.certificate d'.certificate) := by
  obtain ⟨rfl, hc⟩ := genuine_of_recorded h hgenuine hd
  obtain ⟨hheight, hc'⟩ := genuine_of_recorded h' hgenuine' hd'
  refine ⟨rfl, hheight, ?_⟩
  by_cases hsame : d.certificate.valueId = d'.certificate.valueId
  · exact Or.inl hsame
  · exact Or.inr (thirdDoubleSigned_of_genuine hc hc' hheight.symm hround hsame)

end Nodes

section Demo

attribute [local instance] demoCrypto Prost.reference demoPayload

/-- A node that proposes a block and is told that it is decided. -/
def forkMsgs (block : UInt8) : List AppMsg :=
  [.getValue ⟨1⟩ (.some 0), .decided (demoCertificate block)]

theorem forkMsgs_genuine {i block : UInt8}
    (hgenuine : Genuine demoGenesis.validatorSet (demoCertificate block)) :
    ∀ x ∈ deliveries (demoState i [block]) (forkMsgs block), ∀ c, x.2.msg = .decided c →
      Genuine demoGenesis.validatorSet c := by
  intro x hx c hmsg
  rcases List.mem_pair.mp hx with rfl | rfl
  · exact absurd hmsg (by simp [Event.msg])
  · obtain rfl := AppMsg.decided.inj hmsg
    exact hgenuine

/-- Three of four validators have signed for two blocks. -/
theorem forks_are_accountable_demo :
    ThirdDoubleSigned demoGenesis.validatorSet (demoCertificate 5) (demoCertificate 6) := by
  have hone : Run (node (demoConfig 1 [5])) (deliveries (demoState 1 [5]) (forkMsgs 5))
      (handleAll (demoState 1 [5]) (forkMsgs 5)) :=
    Run.deliveries (.start ⟨true, rfl⟩) (forkMsgs 5) (by decide +kernel)
  have htwo : Run (node (demoConfig 2 [6])) (deliveries (demoState 2 [6]) (forkMsgs 6))
      (handleAll (demoState 2 [6]) (forkMsgs 6)) :=
    Run.deliveries (.start ⟨true, rfl⟩) (forkMsgs 6) (by decide +kernel)
  have hfive : (handleAll (demoState 1 [5]) (forkMsgs 5)).store.getDecidedValue ⟨1⟩ =
      some ⟨Value.new [5], demoCertificate 5⟩ := by decide +kernel
  have hsix : (handleAll (demoState 2 [6]) (forkMsgs 6)).store.getDecidedValue ⟨1⟩ =
      some ⟨Value.new [6], demoCertificate 6⟩ := by decide +kernel
  have hfork := forks_are_accountable hone htwo (forkMsgs_genuine (by decide +kernel))
    (forkMsgs_genuine (by decide +kernel)) hfive hsix rfl
  exact hfork.2.2.resolve_left (by decide +kernel)

end Demo
end MalakethTurbo
