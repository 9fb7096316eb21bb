import MalakethTurbo.App.Proposals

/-!
# The streaming round trip

A node proposes data and streams it; the messages reach another node in any order,
any of them as often as the network likes, between messages of any other kind and of
any other stream.  The receiver hands the proposal over once, with the message that
completes it, and what it hands over and keeps is what was proposed.

The invariant `Followed` says what the receiver has of the stream after some of the
messages: it is still `Tracked`, and the numbers it has seen are those of the messages
that have arrived.  Everything else about the receiver may have changed in between.
-/

namespace MalakethTurbo

open Wire (Bytes)

section RoundTrip

variable [Crypto] [Prost] [Payload]

/-! ## The stream in the receiver -/

/-- What a node has of a stream after messages that it got one after the other. -/
structure Followed (peer : PeerId) (id : StreamId) (M : List (StreamMessage ProposalPart))
    (first : ProposalInit) (msgs : List AppMsg) (s : State) : Prop where
  tracked : Tracked M first (s.streamsMap.entry ⟨peer, id⟩)
  seen : ∀ m ∈ M, m.sequence ∈ (s.streamsMap.entry ⟨peer, id⟩).seenSequences ↔
    .receivedProposalPart peer m ∈ msgs

/-- The arrival of a message that completes its stream. -/
def CompletedBy (peer : PeerId) (M : List (StreamMessage ProposalPart)) (msgs : List AppMsg)
    (m : StreamMessage ProposalPart) : Prop :=
  .receivedProposalPart peer m ∉ msgs ∧
    ∀ m' ∈ M, m' = m ∨ .receivedProposalPart peer m' ∈ msgs

instance (peer : PeerId) (M : List (StreamMessage ProposalPart)) (msgs : List AppMsg)
    (m : StreamMessage ProposalPart) : Decidable (CompletedBy peer M msgs m) :=
  inferInstanceAs (Decidable (_ ∧ _))

variable {peer : PeerId} {id : StreamId} {M : List (StreamMessage ProposalPart)}
  {first : ProposalInit} {msgs : List AppMsg} {s receiver : State}
  {m : StreamMessage ProposalPart}

omit [Crypto] [Prost] [Payload] in
/-- Counting sequences is counting messages. -/
theorem Followed.completes_iff (hM : IsStream M first) (h : Followed peer id M first msgs s)
    (hm : m ∈ M) :
    PartStreamsMap.Completes M (s.streamsMap.entry ⟨peer, id⟩) m ↔ CompletedBy peer M msgs m := by
  refine and_congr (not_congr (h.seen m hm)) (forall_congr' fun m' => forall_congr' fun hm' => ?_)
  rw [List.mem_cons, h.seen m' hm']
  refine or_congr_left ⟨fun heq => ?_, fun heq => by rw [heq]⟩
  exact hM.eq_of_sequence hm' hm heq

/-- A message of the stream moves the stream on. -/
theorem Followed.next_of_mem (hM : IsStream M first) (h : Followed peer id M first msgs s)
    (hm : m ∈ M) (hid : m.streamId = id) {description : String × Nat}
    (hpart : describePart m.content = .ok description) :
    Followed peer id M first (msgs ++ [.receivedProposalPart peer m])
      (handle (.receivedProposalPart peer m) s).state := by
  subst hid
  obtain ⟨map', hinsert, htracked, hseen⟩ :=
    PartStreamsMap.insert_of_tracked (ε := AppError) hM h.tracked hm
  have hmap : (handle (.receivedProposalPart peer m) s).state.streamsMap = map' := by
    rw [state_handle_receivedProposalPart hpart, streamsMap_receivedProposalPart, hinsert]
  refine ⟨by rw [hmap]; exact htracked, fun m' hm' => ?_⟩
  rw [hmap, hseen, h.seen m' hm', List.mem_append, List.mem_singleton, or_comm]
  refine or_congr_right ⟨fun heq => ?_, fun heq => ?_⟩
  · rw [hM.eq_of_sequence hm' hm heq]
  · rw [(AppMsg.receivedProposalPart.inj heq).2]

/-- No other message moves it. -/
theorem Followed.next_of_ne {msg : AppMsg} (h : Followed peer id M first msgs s)
    (hid : ∀ m ∈ M, m.streamId = id)
    (hmsg : ∀ m, msg = .receivedProposalPart peer m → m.streamId ≠ id) :
    Followed peer id M first (msgs ++ [msg]) (handle msg s).state := by
  have hentry : (handle msg s).state.streamsMap.entry ⟨peer, id⟩ =
      s.streamsMap.entry ⟨peer, id⟩ := by
    refine entry_handle_of_ne ?_
    intro peer' part heq hkey
    obtain ⟨hpeer, hstream⟩ := StreamKey.mk.inj hkey
    rw [← hpeer] at heq
    exact hmsg part heq hstream.symm
  refine ⟨by rw [hentry]; exact h.tracked, fun m hm => ?_⟩
  rw [hentry, h.seen m hm, List.mem_append, List.mem_singleton]
  exact ⟨Or.inl, fun h => h.elim (fun h => h) fun heq => absurd (hid m hm) (hmsg m heq.symm)⟩

/-- The messages of a stream, as a receiver gets them: under its identifier nothing else
arrives. -/
structure Drawn (peer : PeerId) (id : StreamId) (M : List (StreamMessage ProposalPart))
    (msgs : List AppMsg) : Prop where
  streamId : ∀ m ∈ M, m.streamId = id
  described : ∀ m ∈ M, ∃ description, describePart m.content = .ok description
  mem : ∀ m, .receivedProposalPart peer m ∈ msgs → m.streamId = id → m ∈ M

/-- **A receiver follows a stream** through whatever it is sent. -/
theorem followed_handleAll (hM : IsStream M first) (hnew : receiver.streamsMap = .new)
    (hdrawn : Drawn peer id M msgs) :
    Followed peer id M first msgs (handleAll receiver msgs) := by
  induction msgs using List.reverseRecOn with
  | nil =>
      have hentry : (handleAll receiver []).streamsMap.entry ⟨peer, id⟩ = default := by
        show receiver.streamsMap.entry _ = _
        rw [hnew]
        rfl
      refine ⟨by rw [hentry]; exact Or.inl (receiving_default hM), fun m _ => ?_⟩
      rw [hentry]
      exact iff_of_false List.not_mem_nil List.not_mem_nil
  | append_singleton msgs msg ih =>
      have hprev := ih ⟨hdrawn.streamId, hdrawn.described, fun m hm =>
        hdrawn.mem m (List.mem_append_left _ hm)⟩
      have hlast : handleAll receiver (msgs ++ [msg]) =
          (handle msg (handleAll receiver msgs)).state := List.foldl_concat ..
      rw [hlast]
      by_cases hmsg : ∀ m, msg = .receivedProposalPart peer m → m.streamId ≠ id
      · exact hprev.next_of_ne hdrawn.streamId hmsg
      · push Not at hmsg
        obtain ⟨m, rfl, hid⟩ := hmsg
        have hm : m ∈ M := hdrawn.mem m (List.mem_append_right _ List.mem_cons_self) hid
        obtain ⟨description, hpart⟩ := hdrawn.described m hm
        exact hprev.next_of_mem hM hm hid hpart

/-! ## What is handed over -/

omit [Prost] [Payload] in
/-- A message of a stream that is acceptable hands the proposal over and keeps it if it
completes the stream, and does nothing otherwise. -/
theorem Followed.receivedProposalPart (hM : IsStream M first)
    (h : Followed peer id M first msgs s) (hm : m ∈ M) (hid : m.streamId = id)
    {parts : ProposalParts} (hparts : handedOut M first = parts) (haccept : s.Acceptable parts)
    (hround : parts.round ≠ .nil) :
    (CompletedBy peer M msgs m →
      (State.receivedProposalPart peer m s).result =
          .ok (some (State.assembleValueFromParts parts).1) ∧
        (State.receivedProposalPart peer m s).effects =
          (State.keepWrites (State.assembleValueFromParts parts).1 parts.height parts.round
            (State.assembleValueFromParts parts).2).map .write) ∧
    (¬ CompletedBy peer M msgs m →
      (State.receivedProposalPart peer m s).result = .ok none ∧
        (State.receivedProposalPart peer m s).effects = []) := by
  subst hid
  obtain ⟨map', hinsert, -, -⟩ := PartStreamsMap.insert_of_tracked (ε := AppError) hM h.tracked hm
  have hiff := h.completes_iff hM hm
  rw [hparts] at hinsert
  constructor
  · intro hdone
    rw [if_pos (hiff.mpr hdone)] at hinsert
    obtain ⟨ws, rfl, hrun⟩ := State.receivedProposalPart_run hinsert haccept hround
    rw [hrun]
    exact ⟨rfl, rfl⟩
  · intro hnot
    rw [if_neg fun hc => hnot (hiff.mp hc)] at hinsert
    rw [State.receivedProposalPart_of_not hinsert fun _ h => absurd h (by simp)]
    exact ⟨rfl, rfl⟩

/-- What a call hands over. -/
def returned (o : Outcome State Effect (Stop AppError) (Option ProposedValue)) :
    List ProposedValue :=
  match o.result with
  | .ok (some p) => [p]
  | _ => []

/-- A message is under the identifier of a stream. -/
def OfStream (M : List (StreamMessage ProposalPart)) (m : StreamMessage ProposalPart) : Prop :=
  ∃ m' ∈ M, m'.streamId = m.streamId

instance (M : List (StreamMessage ProposalPart)) (m : StreamMessage ProposalPart) :
    Decidable (OfStream M m) :=
  inferInstanceAs (Decidable (∃ m' ∈ M, _))

/-- What the call for a message hands over, if it is one of the stream. -/
def returnedBy (peer : PeerId) (M : List (StreamMessage ProposalPart)) (s : State) :
    AppMsg → List ProposedValue
  | .receivedProposalPart peer' m =>
      if peer' = peer ∧ OfStream M m then returned (State.receivedProposalPart peer' m s) else []
  | _ => []

/-- What the calls for one stream of one peer hand over, among other messages. -/
def returnedOf (peer : PeerId) (M : List (StreamMessage ProposalPart)) (s : State) :
    List AppMsg → List ProposedValue
  | [] => []
  | msg :: msgs => returnedBy peer M s msg ++ returnedOf peer M (handle msg s).state msgs

theorem returnedOf_concat (peer : PeerId) (M : List (StreamMessage ProposalPart)) (s : State)
    (msgs : List AppMsg) (msg : AppMsg) :
    returnedOf peer M s (msgs ++ [msg]) =
      returnedOf peer M s msgs ++ returnedBy peer M (handleAll s msgs) msg := by
  induction msgs generalizing s with
  | nil => exact List.append_nil _
  | cons first msgs ih =>
      rw [List.cons_append, returnedOf, returnedOf, ih, List.append_assoc]
      rfl

omit [Prost] [Payload] in
theorem returnedBy_of_mem (hm : m ∈ M) (s : State) :
    returnedBy peer M s (.receivedProposalPart peer m) =
      returned (State.receivedProposalPart peer m s) :=
  if_pos ⟨rfl, m, hm, rfl⟩

omit [Prost] [Payload] in
theorem returnedBy_of_not {msg : AppMsg}
    (h : ∀ m, msg = .receivedProposalPart peer m → ¬ OfStream M m) (s : State) :
    returnedBy peer M s msg = [] := by
  cases msg with
  | receivedProposalPart peer' m =>
      refine if_neg ?_
      rintro ⟨rfl, hof⟩
      exact h m rfl hof
  | _ => rfl

/-- **Once, with the last missing message.**  If each call of a stream hands `p` over
when it completes the stream and nothing otherwise, then all calls together hand `p` over
once, or not at all as long as a message is missing. -/
theorem returnedOf_eq {p : ProposedValue} (hne : M ≠ [])
    (hdrawn : ∀ m, .receivedProposalPart peer m ∈ msgs → OfStream M m → m ∈ M)
    (hcall : ∀ before m after, msgs = before ++ .receivedProposalPart peer m :: after → m ∈ M →
      returned (State.receivedProposalPart peer m (handleAll receiver before)) =
        if CompletedBy peer M before m then [p] else []) :
    returnedOf peer M receiver msgs =
      if ∀ m ∈ M, .receivedProposalPart peer m ∈ msgs then [p] else [] := by
  induction msgs using List.reverseRecOn with
  | nil =>
      obtain ⟨m, hm⟩ := List.exists_mem_of_ne_nil M hne
      rw [if_neg fun hall => List.not_mem_nil (hall m hm)]
      rfl
  | append_singleton msgs msg ih =>
      have hprev := ih (fun m hm => hdrawn m (List.mem_append_left _ hm))
        fun before m after heq => hcall before m (after ++ [msg]) (by rw [heq]; simp)
      rw [returnedOf_concat, hprev]
      by_cases hmsg : ∃ m ∈ M, msg = .receivedProposalPart peer m
      · obtain ⟨m, hm, rfl⟩ := hmsg
        rw [returnedBy_of_mem hm, hcall msgs m [] rfl hm]
        have hall : (∀ m' ∈ M, .receivedProposalPart peer m' ∈
            msgs ++ [.receivedProposalPart peer m]) ↔
              ∀ m' ∈ M, m' = m ∨ .receivedProposalPart peer m' ∈ msgs := by
          refine forall_congr' fun m' => forall_congr' fun _ => ?_
          rw [List.mem_append, List.mem_singleton, or_comm]
          exact or_congr_left ⟨fun h => (AppMsg.receivedProposalPart.inj h).2, fun h => by rw [h]⟩
        rw [if_congr hall rfl rfl]
        by_cases hbefore : ∀ m' ∈ M, .receivedProposalPart peer m' ∈ msgs
        · have hnot : ¬ CompletedBy peer M msgs m := fun hc => hc.1 (hbefore m hm)
          rw [if_pos hbefore, if_neg hnot, if_pos fun m' hm' => Or.inr (hbefore m' hm')]
          rfl
        · rw [if_neg hbefore, List.nil_append]
          refine if_congr ⟨fun hc => hc.2, fun hc => ⟨fun harrived => hbefore ?_, hc⟩⟩ rfl rfl
          intro m' hm'
          rcases hc m' hm' with rfl | hm'
          · exact harrived
          · exact hm'
      · have hother : ∀ m, msg = .receivedProposalPart peer m → ¬ OfStream M m := by
          rintro m rfl hof
          exact hmsg ⟨m, hdrawn m (List.mem_append_right _ List.mem_cons_self) hof, rfl⟩
        rw [returnedBy_of_not hother, List.append_nil]
        refine if_congr (forall_congr' fun m => forall_congr' fun hm => ?_) rfl rfl
        rw [List.mem_append, List.mem_singleton]
        exact ⟨Or.inl, fun h => h.elim (fun h => h) fun heq => absurd ⟨m, hm, heq.symm⟩ hmsg⟩

/-! ## The round trip -/

theorem genesis_handleAll (s : State) (msgs : List AppMsg) :
    (handleAll s msgs).genesis = s.genesis := by
  induction msgs using List.reverseRecOn with
  | nil => rfl
  | append_singleton msgs msg ih =>
      have hlast : handleAll s (msgs ++ [msg]) = (handle msg (handleAll s msgs)).state :=
        List.foldl_concat ..
      rw [hlast, (Framed.handle msg _).genesis, ih]

section Sent

variable {sender : State} {H : Height} {R : Round} {d : Bytes} {v : LocallyProposedValue}

omit [Prost] [Payload] in
/-- The parts that a proposer makes are assembled to what it has proposed. -/
theorem assembled_of_proposed (hv : (State.proposeValue H R d sender).result = .ok v) :
    State.assembleValueFromParts ((State.proposeValue H R d sender).state.madeParts v d) =
      (⟨H, R, .nil, sender.address, v.value, .valid⟩, d) := by
  obtain ⟨-, -, -, hvalue⟩ := State.proposeValue_of_ok hv
  rw [State.assembleValueFromParts_madeParts, hvalue]
  unfold State.localProposal
  rw [(Framed.frame.proposeValue H R d sender).address]

/-- A receiver that knows the proposer accepts them up to their height. -/
theorem acceptable_of_proposed {w : Validator}
    (hv : (State.proposeValue H R d sender).result = .ok v)
    (hknown : receiver.genesis.validatorSet.getByAddress sender.address = some w)
    (hverifies : ∀ hash : FixedBytes 32,
      Crypto.verify w.publicKey hash.val (Crypto.sign sender.signingKey hash.val) = true)
    (hheight : (handleAll receiver msgs).currentHeight ≤ H) :
    (handleAll receiver msgs).Acceptable
      ((State.proposeValue H R d sender).state.madeParts v d) := by
  obtain ⟨-, -, -, hvalue⟩ := State.proposeValue_of_ok hv
  have hsame := Framed.frame.proposeValue H R d sender
  constructor
  · show ¬ v.height < _
    rw [hvalue]
    exact not_lt.mpr hheight
  · refine State.verifyProposalSignature_madeParts (w := w) v d ?_ ?_
    · rw [genesis_handleAll, hsame.address]
      exact hknown
    · rw [hsame.signingKey]
      exact hverifies _

omit [Prost] [Payload] in
/-- Every message of the stream passes the logging of its part. -/
theorem described_of_proposed (hv : (State.proposeValue H R d sender).result = .ok v)
    (hM : (State.streamProposal v d (State.proposeValue H R d sender).state).result = .ok M)
    (hm : m ∈ M) : ∃ description, describePart m.content = .ok description := by
  obtain ⟨-, -, hround, hvalue⟩ := State.proposeValue_of_ok hv
  obtain ⟨-, hparts, -⟩ := State.isStream_of_ok hM
  refine exists_describePart ?_
  intro i hi
  rw [State.init_of_mem hparts hm hi]
  show v.round ≠ .nil
  rw [hvalue]
  exact hround

end Sent

/-- **The streaming round trip.**  A node proposes `d` for `(H, R)` and streams the
proposal; a receiver that has no stream yet, knows the proposer by its key and stays at
or below the height gets, under the stream's identifier, messages of the stream only, in
any order and any number, among any other messages.  Then each of them is answered with
nothing and has no effect, except the one that completes the stream, which is answered
with the proposal and makes the receiver keep it with `d`.  In all, the proposal is
returned once if every message arrives, and not at all otherwise. -/
theorem streamed_proposal_returned_once {sender receiver : State} {H : Height} {R : Round}
    {d : Bytes} {v : LocallyProposedValue} {w : Validator}
    (hv : (State.proposeValue H R d sender).result = .ok v)
    (hM : (State.streamProposal v d (State.proposeValue H R d sender).state).result = .ok M)
    (hknown : receiver.genesis.validatorSet.getByAddress sender.address = some w)
    (hkey : w.publicKey = Crypto.publicKey sender.signingKey)
    (hverifies : ∀ hash : FixedBytes 32, Crypto.verify (Crypto.publicKey sender.signingKey)
      hash.val (Crypto.sign sender.signingKey hash.val) = true)
    (hnew : receiver.streamsMap = .new)
    (hheight : ∀ before, before <+: msgs → (handleAll receiver before).currentHeight ≤ H)
    (hdrawn : ∀ m, .receivedProposalPart peer m ∈ msgs → OfStream M m → m ∈ M) :
    (∀ before m after, msgs = before ++ .receivedProposalPart peer m :: after → m ∈ M →
      if CompletedBy peer M before m then
        (State.receivedProposalPart peer m (handleAll receiver before)).result =
            .ok (some ⟨H, R, .nil, sender.address, v.value, .valid⟩) ∧
          (State.receivedProposalPart peer m (handleAll receiver before)).effects =
            [.write (.undecidedProposal ⟨H, R, .nil, sender.address, v.value, .valid⟩),
              .write (.undecidedBlockData H R d)]
      else
        (State.receivedProposalPart peer m (handleAll receiver before)).result = .ok none ∧
          (State.receivedProposalPart peer m (handleAll receiver before)).effects = []) ∧
    returnedOf peer M receiver msgs =
      if ∀ m ∈ M, .receivedProposalPart peer m ∈ msgs then
        [⟨H, R, .nil, sender.address, v.value, .valid⟩]
      else [] := by
  obtain ⟨-, -, hround, hvalue⟩ := State.proposeValue_of_ok hv
  obtain ⟨hstream, hparts, round, -, hid⟩ := State.isStream_of_ok hM
  have hassembled := assembled_of_proposed hv
  have hcall : ∀ before m after, msgs = before ++ .receivedProposalPart peer m :: after →
      m ∈ M →
      (CompletedBy peer M before m →
        (State.receivedProposalPart peer m (handleAll receiver before)).result =
            .ok (some ⟨H, R, .nil, sender.address, v.value, .valid⟩) ∧
          (State.receivedProposalPart peer m (handleAll receiver before)).effects =
            (State.keepWrites ⟨H, R, .nil, sender.address, v.value, .valid⟩ H R d).map .write) ∧
      (¬ CompletedBy peer M before m →
        (State.receivedProposalPart peer m (handleAll receiver before)).result = .ok none ∧
          (State.receivedProposalPart peer m (handleAll receiver before)).effects = []) := by
    intro before m after heq hm
    have hbeginning : before <+: msgs := ⟨_, heq.symm⟩
    have haccept := acceptable_of_proposed hv hknown (fun hash => hkey ▸ hverifies hash)
      (hheight before hbeginning)
    have hfollowed : Followed peer _ M _ before (handleAll receiver before) :=
      followed_handleAll hstream hnew ⟨hid, fun m' hm' => described_of_proposed hv hM hm',
        fun m' hm' hid' => hdrawn m' (hbeginning.subset hm') ⟨m, hm, by rw [hid m hm, hid']⟩⟩
    have hslot : v.height = H ∧ v.round = R := by
      rw [hvalue]
      exact ⟨rfl, rfl⟩
    have hrun := hfollowed.receivedProposalPart hstream hm (hid m hm) hparts haccept
      (hslot.2.symm ▸ hround)
    rw [hassembled] at hrun
    obtain ⟨rfl, rfl⟩ := hslot
    exact hrun
  refine ⟨fun before m after heq hm => ?_, returnedOf_eq ?_ hdrawn fun before m after heq hm => ?_⟩
  · split_ifs with hdone
    · exact (hcall before m after heq hm).1 hdone
    · exact (hcall before m after heq hm).2 hdone
  · obtain ⟨m, hm, -⟩ := hstream.first_mem
    exact List.ne_nil_of_mem hm
  · unfold returned
    split_ifs with hdone
    · rw [((hcall before m after heq hm).1 hdone).1]
    · rw [((hcall before m after heq hm).2 hdone).1]

end RoundTrip

section Demo

attribute [local instance] demoCrypto Prost.reference demoPayload

/-- The stream of the first demo node for one block. -/
def demoStream : List (StreamMessage ProposalPart) :=
  published (handle (.getValue ⟨1⟩ (.some 0)) (demoState 1 [7])).effects

/-- Its arrival last message first and every message twice, after a part of a stream of
somebody else. -/
def demoDisorder : List (PeerId × StreamMessage ProposalPart) :=
  (demoStream.take 2).map (fun m => (⟨[3]⟩, m)) ++
    (demoStream.reverse ++ demoStream).map fun m => (⟨[1]⟩, m)

theorem streamed_proposal_returned_once_demo :
    returnedOf ⟨[1]⟩ demoStream (demoState 2 [])
        (demoDisorder.map fun x => .receivedProposalPart x.1 x.2) =
      [⟨⟨1⟩, .some 0, .nil, demoAddress 1, Value.new [7], .valid⟩] := by
  have hv : (State.proposeValue ⟨1⟩ (.some 0) [7] (demoState 1 [])).result =
      .ok ⟨⟨1⟩, .some 0, Value.new [7]⟩ := by decide +kernel
  have hM : (State.streamProposal ⟨⟨1⟩, .some 0, Value.new [7]⟩ [7]
      (State.proposeValue ⟨1⟩ (.some 0) [7] (demoState 1 [])).state).result = .ok demoStream := by
    decide +kernel
  have hknown : (demoState 2 []).genesis.validatorSet.getByAddress (demoState 1 []).address =
      some (Validator.new (demoKey 1) 1) := by decide +kernel
  have hheight : ∀ before ∈ (demoDisorder.map fun x =>
      AppMsg.receivedProposalPart x.1 x.2).inits,
      (handleAll (demoState 2 []) before).currentHeight ≤ ⟨1⟩ := by decide +kernel
  have hdrawn : ∀ x ∈ demoDisorder, x.1 = ⟨[1]⟩ → OfStream demoStream x.2 → x.2 ∈ demoStream := by
    decide +kernel
  have hreturned := (streamed_proposal_returned_once hv hM hknown rfl (demoCrypto_accepts _) rfl
    (fun before h => hheight before ((List.mem_inits _ _).mpr h)) fun m hm hof => by
      obtain ⟨x, hx, heq⟩ := List.mem_map.mp hm
      obtain ⟨hpeer, rfl⟩ := AppMsg.receivedProposalPart.inj heq
      exact hdrawn x hx hpeer hof).2
  exact hreturned.trans (if_pos (by decide +kernel))

end Demo

end MalakethTurbo
