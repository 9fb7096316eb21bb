import MalakethTurbo.App.Proposals

/-!
# What a proposal signature binds

A receiver hashes every part that says something, beginnings and data alike, in the
order of the stream.  What it assembles takes the slot from the first part and the data
from the data parts only.  The two agree as long as the first part is the only beginning:
the slot has a fixed width, so the hashed string is read off as the slot and the data.

A second beginning goes into the hash and not into the value.  A stream that passes
sixteen bytes of the signed data off as a beginning is therefore accepted, and the value
lacks these bytes.
-/

namespace MalakethTurbo

open Wire (Bytes)

/-! ## What is handed out -/

/-- The reassembler on its own, with messages of any peer. -/
def reassembler : System PartStreamsMap (PeerId × StreamMessage ProposalPart) where
  init map := map = .new
  step map x map' := ∃ o, map.insert x.1 x.2 = (.ok (o, map') : Call AppError _)

/-- No two messages of a stream are kept under one number, and a beginning that has been
taken note of is kept under the first. -/
structure StreamState.Begun (st : StreamState) : Prop where
  distinct : (st.buffer.msgs.map StreamMessage.sequence).Nodup
  seen : ∀ m ∈ st.buffer.msgs, m.sequence ∈ st.seenSequences
  begins : ∀ i, st.initInfo = some i →
    ∃ m ∈ st.buffer.msgs, m.sequence = 0 ∧ m.content = .data (.init i)

/-- A message whose part is a beginning. -/
theorem content_of_asInit {m : StreamMessage ProposalPart} {i : ProposalInit}
    (h : m.content.asData.bind ProposalPart.asInit = some i) : m.content = .data (.init i) := by
  obtain ⟨part, hpart, hinit⟩ := Option.bind_eq_some_iff.mp h
  cases hcontent : m.content with
  | fin =>
      rw [hcontent] at hpart
      exact absurd hpart (by simp [StreamContent.asData])
  | data part' =>
      rw [hcontent] at hpart
      obtain rfl : part' = part := Option.some.inj hpart
      cases part' with
      | init j => rw [Option.some.inj hinit]
      | data d => exact absurd hinit (by simp [ProposalPart.asInit])
      | fin f => exact absurd hinit (by simp [ProposalPart.asInit])

namespace StreamState.Begun

variable {st st' : StreamState} {m : StreamMessage ProposalPart} {ε : Type}

theorem default : Begun default where
  distinct := List.nodup_nil
  seen _ h := absurd h List.not_mem_nil
  begins _ h := absurd h (by simp [show (Inhabited.default : StreamState).initInfo = none from rfl])

/-- The message with the first number comes out of the heap first. -/
theorem msgs_eq_cons (h : st.Begun) (hm : m ∈ st.buffer.msgs) (hzero : m.sequence = 0) :
    ∃ rest, st.buffer.msgs = m :: rest := by
  cases hmsgs : st.buffer.msgs with
  | nil =>
      rw [hmsgs] at hm
      exact absurd hm List.not_mem_nil
  | cons a rest =>
      have hordered := st.buffer.ordered
      have hdistinct := h.distinct
      rw [hmsgs] at hordered hdistinct hm
      rcases List.mem_cons.mp hm with rfl | hrest
      · exact ⟨rest, rfl⟩
      · -- the head is no later than the first number, so it has it
        have hle : a.sequence.toNat ≤ m.sequence.toNat := (List.pairwise_cons.mp hordered).1 m hrest
        have hsame : a.sequence = m.sequence := by
          rw [hzero] at hle ⊢
          exact UInt64.toNat_inj.mp (Nat.le_zero.mp hle)
        have hmem : a.sequence ∈ rest.map StreamMessage.sequence := by
          rw [hsame]
          exact List.mem_map_of_mem hrest
        exact absurd hmem (List.nodup_cons.mp hdistinct).1

/-- What is handed out begins with the beginning that was taken note of. -/
theorem drain_eq_cons (h : st.Begun) {i : ProposalInit} (hinfo : st.initInfo = some i) :
    ∃ rest, st.buffer.drain = .init i :: rest := by
  obtain ⟨m, hm, hzero, hcontent⟩ := h.begins i hinfo
  obtain ⟨rest, hrest⟩ := h.msgs_eq_cons hm hzero
  refine ⟨rest.filterMap fun m => m.content.asData, ?_⟩
  rw [MinHeap.drain, hrest, List.filterMap_cons_some (b := .init i) (by rw [hcontent]; rfl)]

/-- A new message leaves the stream as it should be. -/
theorem push (h : st.Begun) (hnew : m.sequence ∉ st.seenSequences)
    (hrecorded : Recorded st m st') : Begun { st' with buffer := st'.buffer.push m } := by
  have hinfo := hrecorded.initInfo
  have hmsgs : (st'.buffer.push m).msgs = st.buffer.msgs.orderedInsert StreamMessage.before m := by
    rw [hrecorded.buffer]
    rfl
  have hperm := List.perm_orderedInsert StreamMessage.before m st.buffer.msgs
  refine ⟨?_, fun m' hm' => ?_, fun i hi => ?_⟩
  · show ((st'.buffer.push m).msgs.map _).Nodup
    rw [hmsgs, (hperm.map StreamMessage.sequence).nodup_iff, List.map_cons, List.nodup_cons]
    refine ⟨fun hmem => ?_, h.distinct⟩
    obtain ⟨m', hm', hsame⟩ := List.mem_map.mp hmem
    exact hnew (hsame ▸ h.seen m' hm')
  · show m'.sequence ∈ st'.seenSequences
    rw [hrecorded.seen]
    rcases List.mem_cons.mp (hperm.mem_iff.mp (hmsgs ▸ hm')) with rfl | hm'
    · exact List.mem_cons_self
    · exact List.mem_cons_of_mem _ (h.seen m' hm')
  · have hmem : ∀ m', m' ∈ (st'.buffer.push m).msgs ↔ m' ∈ m :: st.buffer.msgs := by
      intro m'
      rw [hmsgs]
      exact hperm.mem_iff
    rw [show st'.initInfo = some i from hi] at hinfo
    split_ifs at hinfo with hfirst
    · exact ⟨m, (hmem m).mpr List.mem_cons_self, of_decide_eq_true hfirst,
        content_of_asInit hinfo.symm⟩
    · obtain ⟨m', hm', hzero, hcontent⟩ := h.begins i hinfo.symm
      exact ⟨m', (hmem m').mpr (List.mem_cons_of_mem _ hm'), hzero, hcontent⟩

/-- **What a stream is handed out as begins with its slot.** -/
theorem insert (h : st.Begun) (hnew : m.sequence ∉ st.seenSequences) {o : Option ProposalParts}
    (hinsert : (st.see m).insert m = (.ok (o, st') : Call ε _)) :
    st'.Begun ∧ ∀ parts, o = some parts →
      ∃ rest, parts.parts = .init ⟨parts.height, parts.round, parts.proposer⟩ :: rest := by
  obtain ⟨st₁, hrecorded, ⟨rfl, rfl⟩ | ⟨i, hinfo, -, -, rfl, rfl⟩⟩ := insert_new hinsert
  · exact ⟨h.push hnew hrecorded, fun parts hparts => absurd hparts (by simp)⟩
  · obtain ⟨rest, hrest⟩ := (h.push hnew hrecorded).drain_eq_cons hinfo
    refine ⟨⟨List.nodup_nil, fun m hm => absurd hm List.not_mem_nil,
      fun i hi => absurd hi (by simp)⟩, fun parts hparts => ⟨rest, ?_⟩⟩
    rw [← Option.some.inj hparts]
    exact hrest

end StreamState.Begun

/-- Every stream of the reassembler is as it should be, whatever has arrived. -/
theorem begun_of_reachable {map : PartStreamsMap} (hmap : reassembler.Reachable map)
    (key : StreamKey) : (map.entry key).Begun := by
  obtain ⟨steps, hrun⟩ := hmap
  refine hrun.invariant (P := fun map => ∀ key, (map.entry key).Begun) ?_ ?_ key
  · rintro map rfl key
    exact .default
  · rintro map ⟨peer, m⟩ map' hprev ⟨o, hstep⟩ key
    rcases PartStreamsMap.insert_cases hstep with ⟨-, -, hentry⟩ | ⟨st', hnew, hst', hentry⟩
    · rw [hentry]
      exact hprev key
    · rw [hentry]
      split_ifs
      · exact ((hprev _).insert hnew hst').1
      · exact hprev key

/-- **Whatever arrives**, the parts that are handed out begin with the slot they are handed
out for. -/
theorem begins_of_handedOut {map map' : PartStreamsMap} (hmap : reassembler.Reachable map)
    {peer : PeerId} {m : StreamMessage ProposalPart} {parts : ProposalParts}
    (hinsert : map.insert peer m = (.ok (some parts, map') : Call AppError _)) :
    ∃ rest, parts.parts = .init ⟨parts.height, parts.round, parts.proposer⟩ :: rest := by
  rcases PartStreamsMap.insert_cases hinsert with ⟨-, hnone, -⟩ | ⟨st', hnew, hst', -⟩
  · exact absurd hnone (by simp)
  · exact ((begun_of_reachable hmap _).insert hnew hst').2 parts rfl

/-- The reassembler after messages of one peer; one that fails leaves it as it was. -/
def PartStreamsMap.afterAll (map : PartStreamsMap) (peer : PeerId) :
    List (StreamMessage ProposalPart) → PartStreamsMap
  | [] => map
  | m :: msgs =>
      match (map.insert peer m : Call AppError _) with
      | .ok (_, map') => map'.afterAll peer msgs
      | .error _ => map.afterAll peer msgs

/-- The calls that are made for them, each with the reassembler before it. -/
def PartStreamsMap.calls (map : PartStreamsMap) (peer : PeerId) :
    List (StreamMessage ProposalPart) →
      List (PartStreamsMap × (PeerId × StreamMessage ProposalPart))
  | [] => []
  | m :: msgs =>
      match (map.insert peer m : Call AppError _) with
      | .ok (_, map') => (map, (peer, m)) :: map'.calls peer msgs
      | .error _ => map.calls peer msgs

theorem Run.calls {steps : List (PartStreamsMap × (PeerId × StreamMessage ProposalPart))}
    {map : PartStreamsMap} (h : Run reassembler steps map) (peer : PeerId)
    (msgs : List (StreamMessage ProposalPart)) :
    Run reassembler (steps ++ map.calls peer msgs) (map.afterAll peer msgs) := by
  induction msgs generalizing map steps with
  | nil =>
      rw [PartStreamsMap.calls, List.append_nil]
      exact h
  | cons m msgs ih =>
      unfold PartStreamsMap.calls PartStreamsMap.afterAll
      rcases hinsert : (map.insert peer m : Call AppError _) with e | ⟨o, map'⟩
      · exact ih h
      · have hstep : reassembler.step map (peer, m) map' := ⟨o, hinsert⟩
        have hnext := ih (h.next hstep)
        rw [List.append_assoc] at hnext
        exact hnext

theorem reachable_afterAll {map : PartStreamsMap} (h : reassembler.Reachable map) (peer : PeerId)
    (msgs : List (StreamMessage ProposalPart)) :
    reassembler.Reachable (map.afterAll peer msgs) := by
  obtain ⟨steps, hrun⟩ := h
  exact ⟨_, hrun.calls peer msgs⟩

/-! ## What is hashed and what is assembled -/

/-- What a part adds to the hash. -/
def ProposalPart.hashed : ProposalPart → Bytes
  | .init i => slotBytes i.height i.round
  | .data d => d.bytes
  | .fin _ => []

/-- The string a receiver hashes. -/
def hashedBytes (parts : List ProposalPart) : Bytes := parts.flatMap ProposalPart.hashed

/-- The data a receiver assembles. -/
def dataBytes (parts : List ProposalPart) : Bytes :=
  (parts.filterMap ProposalPart.asData).flatMap ProposalData.bytes

@[simp] theorem length_slotBytes (height : Height) (round : Round) :
    (slotBytes height round).length = 16 := by
  simp [slotBytes]

/-- **A slot and its data are read off what is hashed.** -/
theorem slotBytes_append_inj {h h' : Height} {r r' : Round} {d d' : Bytes}
    (heq : slotBytes h r ++ d = slotBytes h' r' ++ d') : h = h' ∧ r = r' ∧ d = d' := by
  obtain ⟨hslot, hdata⟩ := List.append_inj heq (by simp)
  obtain ⟨hheight, hround⟩ := List.append_inj hslot (by simp)
  refine ⟨?_, Round.toBeBytes_injective hround, hdata⟩
  exact congrArg Height.mk (u64Bytes_injective hheight)

theorem foldl_recreate_fst (parts : List ProposalPart) (hasher : Bytes) (o : Option Signature) :
    (parts.foldl State.recreate (hasher, o)).1 = hasher ++ hashedBytes parts := by
  induction parts generalizing hasher o with
  | nil => exact (List.append_nil hasher).symm
  | cons part parts ih =>
      cases part with
      | init i => rw [List.foldl_cons, State.recreate, ih, List.append_assoc]; rfl
      | data d => rw [List.foldl_cons, State.recreate, ih, List.append_assoc]; rfl
      | fin f => rw [List.foldl_cons, State.recreate, ih]; rfl

theorem foldl_recreate_snd {parts : List ProposalPart} {hasher : Bytes} {o : Option Signature}
    {signature : Signature}
    (h : (parts.foldl State.recreate (hasher, o)).2 = some signature) :
    o = some signature ∨ .fin ⟨signature⟩ ∈ parts := by
  induction parts generalizing hasher o with
  | nil => exact Or.inl h
  | cons part parts ih =>
      rw [List.foldl_cons] at h
      cases part with
      | init i => exact (ih h).imp_right (List.mem_cons_of_mem _)
      | data d => exact (ih h).imp_right (List.mem_cons_of_mem _)
      | fin f =>
          rcases ih h with hlast | hmem
          · rw [← Option.some.inj hlast]
            exact Or.inr List.mem_cons_self
          · exact Or.inr (List.mem_cons_of_mem _ hmem)

/-- Every beginning is hashed on top of the data. -/
theorem length_hashedBytes (parts : List ProposalPart) :
    (hashedBytes parts).length =
      (dataBytes parts).length + 16 * (parts.filterMap ProposalPart.asInit).length := by
  induction parts with
  | nil => rfl
  | cons part parts ih =>
      have hhead : (hashedBytes (part :: parts)).length =
          part.hashed.length + (hashedBytes parts).length := by
        rw [hashedBytes, List.flatMap_cons, List.length_append]
        rfl
      rw [hhead, ih]
      cases part with
      | init i =>
          show (slotBytes _ _).length + _ = (dataBytes parts).length + 16 * (_ + 1)
          rw [length_slotBytes]
          omega
      | data d =>
          show d.bytes.length + _ = (d.bytes ++ dataBytes parts).length + _
          rw [List.length_append]
          exact (Nat.add_assoc _ _ _).symm
      | fin f => exact Nat.zero_add _

/-- **What is hashed is what is assembled exactly if there is no beginning among it.** -/
theorem hashedBytes_eq_dataBytes_iff (parts : List ProposalPart) :
    hashedBytes parts = dataBytes parts ↔ ∀ part ∈ parts, part.asInit = none := by
  constructor
  · intro heq
    have hlen := length_hashedBytes parts
    rw [heq] at hlen
    have hnone : (parts.filterMap ProposalPart.asInit) = [] :=
      List.eq_nil_of_length_eq_zero (by omega)
    exact List.filterMap_eq_nil_iff.mp hnone
  · intro hnone
    induction parts with
    | nil => rfl
    | cons part parts ih =>
        have hrest := ih fun p hp => hnone p (List.mem_cons_of_mem _ hp)
        rw [hashedBytes, List.flatMap_cons]
        cases part with
        | init i => exact absurd (hnone _ List.mem_cons_self) (by simp [ProposalPart.asInit])
        | data d => exact congrArg (d.bytes ++ ·) hrest
        | fin f => exact hrest

/-! ## The signature -/

section Binding

variable [Crypto] {s : State} {parts : ProposalParts}

/-- For which heights, rounds and data each validator has made the parts of a proposal. -/
abbrev Runs := Validator → Height → Round → Bytes → Prop

/-- What is assumed when parts are checked: a signature verifies under the key of the
validator named as proposer only for a hash that this validator has signed, and what has
been hashed does not collide. -/
structure Vouched (s : State) (parts : ProposalParts) (ran : Runs) : Prop where
  signed : ∀ w signature, s.genesis.validatorSet.getByAddress parts.proposer = some w →
    Crypto.verify w.publicKey (Crypto.keccak256 (hashedBytes parts.parts)).val signature = true →
    ∃ h r d, ran w h r d ∧
      (Crypto.keccak256 (hashedBytes parts.parts)).val = State.hashed h r d
  collisionFree : ∀ w h r d, ran w h r d →
    (Crypto.keccak256 (hashedBytes parts.parts)).val = State.hashed h r d →
    hashedBytes parts.parts = slotBytes h r ++ d

/-- What is assembled from the parts is a proposal that the validator named as proposer has
made the parts of. -/
def Bound (s : State) (parts : ProposalParts) (ran : Runs) : Prop :=
  ∃ w, s.genesis.validatorSet.getByAddress parts.proposer = some w ∧
    ran w (State.assembleValueFromParts parts).1.height
      (State.assembleValueFromParts parts).1.round (State.assembleValueFromParts parts).2

/-- Parts that are accepted carry a signature that verifies for what they hash to, under
the key of the proposer they name. -/
theorem signature_of_accepted (h : s.verifyProposalSignature parts = .ok ()) :
    ∃ w signature, s.genesis.validatorSet.getByAddress parts.proposer = some w ∧
      .fin ⟨signature⟩ ∈ parts.parts ∧
      Crypto.verify w.publicKey (Crypto.keccak256 (hashedBytes parts.parts)).val signature =
        true := by
  unfold State.verifyProposalSignature at h
  have hhash := foldl_recreate_fst parts.parts [] none
  rcases hfold : parts.parts.foldl State.recreate ([], none) with ⟨hasher, o⟩
  rw [hfold] at h hhash
  rw [List.nil_append] at hhash
  dsimp only at h hhash
  rw [hhash] at h
  cases o with
  | none => exact absurd h (by simp)
  | some signature =>
      dsimp only at h
      cases hw : s.genesis.validatorSet.getByAddress parts.proposer with
      | none =>
          rw [hw] at h
          exact absurd h (by simp)
      | some w =>
          rw [hw] at h
          dsimp only at h
          split_ifs at h with hverify
          have hmem := (foldl_recreate_snd (congrArg Prod.snd hfold)).resolve_left (by simp)
          exact ⟨w, signature, rfl, hmem, hverify⟩

/-- **Content binding.**  Whatever messages the parts have come from: that they are accepted
guarantees, in every history of runs, that what is assembled from them is a proposal of the
validator named as proposer exactly if their first part is their only beginning. -/
theorem signature_binds_content_iff {map map' : PartStreamsMap} {peer : PeerId}
    {m : StreamMessage ProposalPart} (hmap : reassembler.Reachable map)
    (hinsert : map.insert peer m = (.ok (some parts, map') : Call AppError _))
    (haccept : s.verifyProposalSignature parts = .ok ()) :
    (∀ ran, Vouched s parts ran → Bound s parts ran) ↔
      ∀ part ∈ parts.parts.tail, part.asInit = none := by
  obtain ⟨rest, hrest⟩ := begins_of_handedOut hmap hinsert
  obtain ⟨w, signature, hw, -, hverify⟩ := signature_of_accepted haccept
  have hhashed : hashedBytes parts.parts =
      slotBytes parts.height parts.round ++ hashedBytes rest := by
    rw [hrest]
    rfl
  have hdata : (State.assembleValueFromParts parts).2 = dataBytes rest := by
    show dataBytes parts.parts = _
    rw [hrest]
    rfl
  rw [hrest, List.tail_cons, ← hashedBytes_eq_dataBytes_iff]
  constructor
  · intro hbound
    -- the history in which the hashed string is all that was ever signed
    have hvouched : Vouched s parts fun _ h r d => hashedBytes parts.parts = slotBytes h r ++ d :=
      ⟨fun _ _ _ _ => ⟨parts.height, parts.round, hashedBytes rest, hhashed, by
        rw [hhashed]
        rfl⟩, fun _ _ _ _ hran _ => hran⟩
    obtain ⟨w', -, hran⟩ := hbound _ hvouched
    rw [hhashed, hdata] at hran
    exact (slotBytes_append_inj hran).2.2
  · intro heq ran hvouched
    obtain ⟨h, r, d, hran, hhash⟩ := hvouched.signed w signature hw hverify
    have hstring := hvouched.collisionFree w h r d hran hhash
    rw [hhashed] at hstring
    obtain ⟨rfl, rfl, rfl⟩ := slotBytes_append_inj hstring
    refine ⟨w, hw, ?_⟩
    rw [hdata, ← heq]
    exact hran

end Binding

/-! ## A signature of one string for two proposals -/

/-- What a message makes the reassembler hand out. -/
def PartStreamsMap.handedOutBy (map : PartStreamsMap) (peer : PeerId)
    (m : StreamMessage ProposalPart) : Option ProposalParts :=
  match (map.insert peer m : Call AppError _) with
  | .ok (o, _) => o
  | .error _ => none

theorem PartStreamsMap.insert_of_handedOutBy {map : PartStreamsMap} {peer : PeerId}
    {m : StreamMessage ProposalPart} {parts : ProposalParts}
    (h : map.handedOutBy peer m = some parts) :
    ∃ map', map.insert peer m = (.ok (some parts, map') : Call AppError _) := by
  unfold PartStreamsMap.handedOutBy at h
  rcases hinsert : (map.insert peer m : Call AppError _) with e | ⟨o, map'⟩
  · rw [hinsert] at h
    exact absurd h (by simp)
  · rw [hinsert] at h
    exact ⟨map', by rw [← h]⟩

section Demo

attribute [local instance] demoCrypto Prost.reference demoPayload

/-- The proposal of a demo node in parts. -/
def demoParts (data : Bytes) : ProposalParts :=
  (demoState 1 []).madeParts ⟨⟨1⟩, .some 0, Value.new data⟩ data

/-- The first demo node has proposed one block. -/
def demoRan : Runs := fun w h r d =>
  w.publicKey = demoKey 1 ∧ h = ⟨1⟩ ∧ r = .some 0 ∧ d = [7]

theorem signature_binds_content_demo : Bound (demoState 2 []) (demoParts [7]) demoRan := by
  have hout : (PartStreamsMap.new.afterAll ⟨[1]⟩
      ((State.streamMessages ⟨[]⟩ 0 (demoParts [7]).parts).take 3)).handedOutBy ⟨[1]⟩
        ⟨⟨[]⟩, 3, .fin⟩ = some (demoParts [7]) := by decide +kernel
  obtain ⟨map', hinsert⟩ := PartStreamsMap.insert_of_handedOutBy hout
  have hreach := reachable_afterAll ⟨[], .start rfl⟩ ⟨[1]⟩
    ((State.streamMessages ⟨[]⟩ 0 (demoParts [7]).parts).take 3)
  have hstring : hashedBytes (demoParts [7]).parts = slotBytes ⟨1⟩ (.some 0) ++ [7] := by
    decide +kernel
  have hvouched : Vouched (demoState 2 []) (demoParts [7]) demoRan := by
    refine ⟨fun w signature hw _ => ⟨⟨1⟩, .some 0, [7], ⟨?_, rfl, rfl, rfl⟩, ?_⟩, ?_⟩
    · have hfound : (demoState 2 []).genesis.validatorSet.getByAddress (demoParts [7]).proposer =
          some (Validator.new (demoKey 1) 1) := by decide +kernel
      rw [← Option.some.inj (hfound.symm.trans hw)]
      rfl
    · rw [hstring]
      rfl
    · rintro w h r d ⟨-, rfl, rfl, rfl⟩ -
      exact hstring
  exact (signature_binds_content_iff hreach hinsert (by decide +kernel)).mpr
    (by decide +kernel) demoRan hvouched

end Demo

section Split

/-- Data that reads like a slot. -/
def splitData : Bytes := slotBytes ⟨5⟩ (.some 0)

/-- The demo functions, except that nothing verifies but one signature of the first
validator. -/
@[reducible] def splitCrypto : Crypto :=
  { demoCrypto with
    verify := fun key message signature =>
      decide (key = demoKey 1) &&
        decide (message =
          (demoCrypto.keccak256 (slotBytes ⟨1⟩ (.some 0) ++ splitData)).val) &&
        decide (signature = sealBytes key message) }

attribute [local instance] splitCrypto Prost.reference demoPayload

/-- The first validator has proposed these data once, and nobody anything else. -/
def splitRan : Runs := fun w h r d =>
  w.publicKey = demoKey 1 ∧ h = ⟨1⟩ ∧ r = .some 0 ∧ d = splitData

/-- Its stream with the data passed off as a second beginning. -/
def splitParts : ProposalParts where
  height := ⟨1⟩
  round := .some 0
  proposer := demoAddress 1
  parts := [.init ⟨⟨1⟩, .some 0, demoAddress 1⟩, .init ⟨⟨5⟩, .some 0, demoAddress 1⟩,
    .fin ⟨Crypto.sign (demoKey 1) (State.hashed ⟨1⟩ (.some 0) splitData)⟩]

/-- **A signature for two contents.**  Only what the validators have signed verifies, only
one string has ever been hashed, and yet a receiver accepts a proposal that no validator has
made. -/
theorem signature_not_binding :
    (∀ w ∈ (demoState 2 []).genesis.validatorSet.validators, ∀ hash signature,
      Crypto.verify w.publicKey hash signature = true →
        ∃ h r d, splitRan w h r d ∧ hash = State.hashed h r d) ∧
    (∀ w h r d, splitRan w h r d → slotBytes h r ++ d = hashedBytes splitParts.parts) ∧
    (∃ map map' m, reassembler.Reachable map ∧
      map.insert ⟨[4]⟩ m = (.ok (some splitParts, map') : Call AppError _)) ∧
    (demoState 2 []).verifyProposalSignature splitParts = .ok () ∧
    ¬ Bound (demoState 2 []) splitParts splitRan := by
  refine ⟨fun w _ hash signature hverify => ?_, ?_, ?_, by decide +kernel, ?_⟩
  · obtain ⟨hsigner, -⟩ := Bool.and_eq_true_iff.mp hverify
    obtain ⟨hkey, hhash⟩ := Bool.and_eq_true_iff.mp hsigner
    exact ⟨⟨1⟩, .some 0, splitData, ⟨of_decide_eq_true hkey, rfl, rfl, rfl⟩,
      of_decide_eq_true hhash⟩
  · rintro w h r d ⟨-, rfl, rfl, rfl⟩
    decide +kernel
  · have hout : (PartStreamsMap.new.afterAll ⟨[4]⟩
        ((State.streamMessages ⟨[]⟩ 0 splitParts.parts).take 3)).handedOutBy ⟨[4]⟩
          ⟨⟨[]⟩, 3, .fin⟩ = some splitParts := by decide +kernel
    obtain ⟨map', hinsert⟩ := PartStreamsMap.insert_of_handedOutBy hout
    exact ⟨_, map', _, reachable_afterAll ⟨[], .start rfl⟩ ⟨[4]⟩ _, hinsert⟩
  · rintro ⟨w, -, -, -, -, hdata⟩
    exact absurd hdata (by decide +kernel)

end Split

/-! ## Who is accepted -/

section Accepted

variable [Crypto] [Prost] [Payload] {config : Config} {s : State}

/-- Whatever happens to a node, its reassembler has only been given messages. -/
theorem System.Reachable.streamsMap (h : (node config).Reachable s) :
    reassembler.Reachable s.streamsMap := by
  obtain ⟨steps, hrun⟩ := h
  refine hrun.invariant (P := fun s => reassembler.Reachable s.streamsMap) ?_ ?_
  · rintro s ⟨serverStarts, rfl⟩
    exact ⟨[], .start rfl⟩
  · intro s e s' hprev hstep
    cases e with
    | restart msg n serverStarts =>
        obtain rfl := hstep
        exact ⟨[], .start rfl⟩
    | deliver msg =>
        obtain ⟨-, rfl⟩ := hstep
        rcases streamsMap_handle_cases s msg with hsame | ⟨peer, part, o, -, hinsert⟩
        · rw [hsame]
          exact hprev
        · obtain ⟨steps, hrun⟩ := hprev
          have hnext : reassembler.step s.streamsMap (peer, part) _ := ⟨o, hinsert⟩
          exact ⟨_, hrun.next hnext⟩

omit [Prost] [Payload] in
/-- A proposal that is returned has been handed out by the reassembler and accepted. -/
theorem parts_of_returned {peer : PeerId} {part : StreamMessage ProposalPart} {p : ProposedValue}
    (h : (State.receivedProposalPart peer part s).result = .ok (some p)) :
    ∃ parts map, s.streamsMap.insert peer part = (.ok (some parts, map) : Call AppError _) ∧
      s.Acceptable parts ∧ p = (State.assembleValueFromParts parts).1 := by
  rcases State.receivedProposalPart_cases s peer part with
    ⟨e, -, hrun⟩ | ⟨o, map, -, hrun⟩ | ⟨parts, map, hinsert, haccept⟩
  · rw [hrun] at h
    exact absurd h (by simp)
  · rw [hrun] at h
    exact absurd h (by simp)
  · refine ⟨parts, map, hinsert, haccept, ?_⟩
    by_cases hround : parts.round = .nil
    · rw [State.receivedProposalPart_of_nil hinsert haccept hround] at h
      exact absurd h (by simp)
    · obtain ⟨ws, -, hrun⟩ := State.receivedProposalPart_run hinsert haccept hround
      rw [hrun] at h
      exact (Option.some.inj (Except.ok.inj h)).symm

/-- **Who is accepted.**  In every life of a node, a proposal that is returned is not for a
height the node has left, and it comes from a stream that begins with its slot and its
proposer.  The proposer is a validator of the genesis, and the stream carries a signature
that verifies under the key of this validator for the hash of the whole stream. -/
theorem acceptedProposer_is_validator (h : (node config).Reachable s) {peer : PeerId}
    {part : StreamMessage ProposalPart} {p : ProposedValue}
    (hreturned : (State.receivedProposalPart peer part s).result = .ok (some p)) :
    ¬ p.height < s.currentHeight ∧
      ∃ parts map rest, s.streamsMap.insert peer part = (.ok (some parts, map) : Call AppError _) ∧
        parts.parts = .init ⟨p.height, p.round, p.proposer⟩ :: rest ∧
        ∃ w ∈ config.genesis.validatorSet.validators, w.address = p.proposer ∧
          ∃ signature, .fin ⟨signature⟩ ∈ rest ∧ Crypto.verify w.publicKey
            (Crypto.keccak256 (slotBytes p.height p.round ++ hashedBytes rest)).val signature =
              true := by
  obtain ⟨parts, map, hinsert, ⟨hheight, hverified⟩, rfl⟩ := parts_of_returned hreturned
  obtain ⟨w, signature, hw, hfin, hverify⟩ := signature_of_accepted hverified
  obtain ⟨rest, hrest⟩ := begins_of_handedOut h.streamsMap hinsert
  obtain ⟨hmem, haddress⟩ := ValidatorSet.mem_of_getByAddress hw
  rw [h.config_eq.1] at hmem
  rw [hrest] at hverify hfin
  have hlater : .fin ⟨signature⟩ ∈ rest := (List.mem_cons.mp hfin).resolve_left (by simp)
  exact ⟨hheight, parts, map, rest, hinsert, hrest, w, hmem, haddress, signature, hlater,
    hverify⟩

end Accepted

section Demo

attribute [local instance] demoCrypto Prost.reference demoPayload

/-- A demo node that has all but the end of the stream of another one. -/
def demoWaiting (i : UInt8) : State := handleAll (demoState 2 []) ((demoArrivals i 9).take 3)

/-- The end of that stream. -/
def demoEnd (i : UInt8) : StreamMessage ProposalPart :=
  ⟨(demoState i [9]).nextStreamId 0, 3, .fin⟩

theorem demoWaiting_reachable {i : UInt8}
    (hok : allHandled (demoState 2 []) ((demoArrivals i 9).take 3) = true) :
    (node (demoConfig 2 [])).Reachable (demoWaiting i) :=
  ⟨_, Run.deliveries (.start ⟨true, rfl⟩) _ hok⟩

theorem acceptedProposer_is_validator_demo :
    ∃ rest, ∃ w ∈ demoGenesis.validatorSet.validators, w.address = demoAddress 1 ∧
      ∃ signature, .fin ⟨signature⟩ ∈ rest ∧ Crypto.verify w.publicKey
        (Crypto.keccak256 (slotBytes ⟨1⟩ (.some 0) ++ hashedBytes rest)).val signature = true := by
  have hreturned : (State.receivedProposalPart ⟨[1]⟩ (demoEnd 1) (demoWaiting 1)).result =
      .ok (some ⟨⟨1⟩, .some 0, .nil, demoAddress 1, Value.new [9], .valid⟩) := by
    decide +kernel
  obtain ⟨-, parts, map, rest, -, -, hsigned⟩ :=
    acceptedProposer_is_validator (demoWaiting_reachable (by decide +kernel)) hreturned
  exact ⟨rest, hsigned⟩

/-- **The proposer is not asked for.**  The proposal of the fourth validator is accepted for
a slot in which the first validator is to propose. -/
theorem acceptedProposer_not_selected :
    ∃ s p w, (node (demoConfig 2 [])).Reachable s ∧
      (State.receivedProposalPart ⟨[4]⟩ (demoEnd 4) s).result = .ok (some p) ∧
      (selectProposer demoGenesis.validatorSet p.height p.round : Call AppError _) = .ok w ∧
      p.proposer ≠ w.address := by
  refine ⟨demoWaiting 4, ⟨⟨1⟩, .some 0, .nil, demoAddress 4, Value.new [9], .valid⟩,
    Validator.new (demoKey 1) 1, demoWaiting_reachable (by decide +kernel), ?_, ?_, ?_⟩
  · decide +kernel
  · decide +kernel
  · decide +kernel

end Demo

end MalakethTurbo
