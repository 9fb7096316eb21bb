import MalakethTurbo.App.Methods
import MalakethTurbo.Logic.Transition

/-!
# The message loop and the life of a node

`handle` is one turn of the loop: what the application does with one message of
consensus.  A node starts on an empty store and then, step by step, either handles
a message to its end or dies while handling one, at any effect, and is started
again on the store that is left.  Dying between two messages is dying before the
first effect of the next one.  A message whose handler fails ends the loop, so
after it the node can only be started again.

The invariants of the store go through `storeAfter`: what a step leaves in the
store is a list of transactions away from what it found, whether the step was
completed or not.
-/

namespace MalakethTurbo

open Wire (Bytes)
open MalakethTurbo.Action (read change lift perform performAll)

/-! ## One message -/

/-- The messages of consensus to the application. -/
inductive AppMsg where
  | consensusReady : AppMsg
  | startedRound (height : Height) (round : Round) (proposer : Address) : AppMsg
  | getValue (height : Height) (round : Round) : AppMsg
  | receivedProposalPart (peer : PeerId) (part : StreamMessage ProposalPart) : AppMsg
  | getValidatorSet (height : Height) : AppMsg
  | decided (certificate : CommitCertificate) : AppMsg
  | processSyncedValue (height : Height) (round : Round) (proposer : Address)
      (valueBytes : Bytes) : AppMsg
  | getDecidedValue (height : Height) : AppMsg
  | getHistoryMinHeight : AppMsg
  | restreamProposal : AppMsg
  | extendVote : AppMsg
  | verifyVoteExtension : AppMsg
  | peerJoined (peer : PeerId) : AppMsg
  | peerLeft (peer : PeerId) : AppMsg
  deriving DecidableEq

/-- The type and the size of a part, for the log. -/
def describePart : StreamContent ProposalPart → Call AppError (String × Nat)
  | .data part => do
      let size ← unwrapResult part.sizeBytes
      return (part.getType, size)
  | .fin => return ("end of stream", 0)

section Handler

variable [Crypto] [Prost] [Payload]

/-- `decode_value`. -/
def decodeValue (bytes : Bytes) : Call AppError Value := unwrapResult (Value.fromBytes bytes)

/-- One turn of `run`. -/
def handle : AppMsg → AppM Unit
  | .consensusReady => do
      let s ← read
      perform (.reply (.startHeight s.currentHeight s.genesis.validatorSet))
  | .startedRound height round proposer =>
      change fun s => { s with
        currentHeight := height
        currentRound := round
        currentProposer := some proposer }
  | .getValue height round => do
      let blockBytes ← State.makeBlock
      let proposal ← State.proposeValue height round blockBytes
      perform (.reply (.localValue proposal))
      let msgs ← State.streamProposal proposal blockBytes
      performAll (msgs.map .publish)
  | .receivedProposalPart peer part => do
      let _ ← lift (describePart part.content)
      let proposedValue ← State.receivedProposalPart peer part
      perform (.reply (.receivedValue proposedValue))
  | .getValidatorSet _ => do
      let s ← read
      perform (.reply (.validatorSet s.genesis.validatorSet))
  | .decided certificate => do
      State.commit certificate
      let s ← read
      perform (.reply (.startHeight s.currentHeight s.genesis.validatorSet))
  | .processSyncedValue height round proposer valueBytes => do
      let value ← lift (decodeValue valueBytes)
      perform (.reply (.syncedValue
        { height := height
          round := round
          validRound := .nil
          proposer := proposer
          value := value
          validity := .valid }))
  | .getDecidedValue height => do
      let s ← read
      perform (.reply (.decidedValue ((s.getDecidedValue height).map fun decided =>
        ⟨decided.certificate, decided.value.toBytes⟩)))
  | .getHistoryMinHeight => do
      let s ← read
      perform (.reply (.historyMinHeight s.getEarliestHeight))
  | .restreamProposal => return ()
  | .extendVote => perform (.reply .noExtension)
  | .verifyVoteExtension => perform (.reply .extensionOk)
  | .peerJoined peer => change fun s => { s with peers := insert peer s.peers }
  | .peerLeft peer => change fun s => { s with peers := s.peers.erase peer }

end Handler

/-! ## What every action keeps -/

/-- Two states that differ at most in what a node notes down for itself: where it is in
consensus, the blocks it has left, its nonce and its peers. -/
structure UpToNotes (s s' : State) : Prop where
  store : s'.store = s.store
  genesis : s'.genesis = s.genesis
  signingKey : s'.signingKey = s.signingKey
  address : s'.address = s.address
  rpcServer : s'.rpcServer = s.rpcServer
  streamsMap : s'.streamsMap = s.streamsMap

/-- A relation that transactions, other effects and changes of the notes keep. -/
structure Frame (R : State → List Effect → State → Prop) : Prop where
  composes : Action.Composes R
  write : ∀ w, Action.Keeps R (writeStore w)
  effect : ∀ {e}, e.asWrite = none → ∀ s, R s [e] s
  notes : ∀ {s s'}, UpToNotes s s' → R s [] s'

namespace Frame

variable {R : State → List Effect → State → Prop}

theorem perform (hR : Frame R) {e : Effect} (h : e.asWrite = none) :
    Action.Keeps R (Action.perform e : AppM Unit) :=
  Action.Keeps.perform (hR.effect h)

theorem change (hR : Frame R) {f : State → State} (h : ∀ s, UpToNotes s (f s)) :
    Action.Keeps R (Action.change f : AppM Unit) :=
  Action.Keeps.change fun s => hR.notes (h s)

theorem keepProposal (hR : Frame R) (p : ProposedValue) (height : Height) (round : Round)
    (data : Bytes) : Action.Keeps R (State.keepProposal p height round data) :=
  Action.Keeps.bind hR.composes (hR.write _) fun _ => hR.write _

theorem nextHeight (hR : Frame R) : Action.Keeps R State.nextHeight := by
  refine Action.Keeps.bind hR.composes (Action.Keeps.read hR.composes) fun s => ?_
  refine Action.Keeps.bind hR.composes (Action.Keeps.lift hR.composes _) fun height => ?_
  exact hR.change fun _ => ⟨rfl, rfl, rfl, rfl, rfl, rfl⟩

theorem streamProposal [Crypto] (hR : Frame R) (v : LocallyProposedValue) (data : Bytes) :
    Action.Keeps R (State.streamProposal v data) := by
  intro s
  obtain ⟨nonce, hstate, heffects⟩ := State.streamProposal_frame s v data
  rw [hstate, heffects]
  exact hR.notes ⟨rfl, rfl, rfl, rfl, rfl, rfl⟩

theorem makeBlock [Payload] (hR : Frame R) : Action.Keeps R State.makeBlock := by
  intro s
  rw [State.makeBlock_run]
  exact hR.notes ⟨rfl, rfl, rfl, rfl, rfl, rfl⟩

theorem proposeValue [Crypto] (hR : Frame R) (height : Height) (round : Round) (data : Bytes) :
    Action.Keeps R (State.proposeValue height round data) := by
  refine Action.Keeps.bind hR.composes (Action.Keeps.read hR.composes) fun s => ?_
  refine Action.Keeps.bind hR.composes (Action.Keeps.lift hR.composes _) fun _ => ?_
  refine Action.Keeps.bind hR.composes (Action.Keeps.lift hR.composes _) fun _ => ?_
  exact Action.Keeps.bind hR.composes (hR.keepProposal _ _ _ _) fun _ =>
    Action.Keeps.pure hR.composes _

theorem commitBlockData (hR : Frame R) (c : CommitCertificate) :
    Action.Keeps R (State.commitBlockData c) := by
  refine Action.Keeps.bind hR.composes (Action.Keeps.read hR.composes) fun s => ?_
  cases s.store.getBlockData c.height c.round with
  | none => exact Action.Keeps.pure hR.composes ()
  | some data =>
      refine Action.Keeps.bind hR.composes (hR.write _) fun _ => ?_
      split_ifs
      · exact hR.perform rfl
      · exact Action.Keeps.pure hR.composes ()

theorem commit [Prost] (hR : Frame R) (c : CommitCertificate) :
    Action.Keeps R (State.commit c) := by
  refine Action.Keeps.bind hR.composes (Action.Keeps.read hR.composes) fun s => ?_
  refine Action.Keeps.bind hR.composes (Action.Keeps.lift hR.composes _) fun proposal => ?_
  cases proposal with
  | none => exact Action.Keeps.pure hR.composes ()
  | some p =>
      refine Action.Keeps.bind hR.composes (hR.write _) fun _ => ?_
      refine Action.Keeps.bind hR.composes (hR.commitBlockData c) fun _ => ?_
      exact Action.Keeps.bind hR.composes (hR.write _) fun _ => hR.nextHeight

/-- **Every handler keeps a frame**, the one of streamed parts apart. -/
theorem handle [Crypto] [Prost] [Payload] (hR : Frame R) {msg : AppMsg}
    (hmsg : ∀ peer part, msg ≠ .receivedProposalPart peer part) :
    Action.Keeps R (handle msg) := by
  have hread := Action.Keeps.read (ε := Stop AppError) hR.composes
  cases msg with
  | consensusReady => exact hread.bind hR.composes fun _ => hR.perform rfl
  | startedRound height round proposer =>
      exact hR.change fun _ => ⟨rfl, rfl, rfl, rfl, rfl, rfl⟩
  | getValue height round =>
      refine Action.Keeps.bind hR.composes hR.makeBlock fun blockBytes => ?_
      refine Action.Keeps.bind hR.composes (hR.proposeValue height round blockBytes) fun v => ?_
      refine Action.Keeps.bind hR.composes (hR.perform rfl) fun _ => ?_
      refine Action.Keeps.bind hR.composes (hR.streamProposal v blockBytes) fun msgs => ?_
      refine Action.Keeps.performAll hR.composes fun e he => ?_
      obtain ⟨m, -, rfl⟩ := List.mem_map.mp he
      exact hR.effect rfl
  | receivedProposalPart peer part => exact absurd rfl (hmsg peer part)
  | getValidatorSet height => exact hread.bind hR.composes fun _ => hR.perform rfl
  | decided certificate =>
      refine Action.Keeps.bind hR.composes (hR.commit certificate) fun _ => ?_
      exact hread.bind hR.composes fun _ => hR.perform rfl
  | processSyncedValue height round proposer valueBytes =>
      exact Action.Keeps.bind hR.composes (Action.Keeps.lift hR.composes _) fun _ =>
        hR.perform rfl
  | getDecidedValue height => exact hread.bind hR.composes fun _ => hR.perform rfl
  | getHistoryMinHeight => exact hread.bind hR.composes fun _ => hR.perform rfl
  | restreamProposal => exact Action.Keeps.pure hR.composes ()
  | extendVote => exact hR.perform rfl
  | verifyVoteExtension => exact hR.perform rfl
  | peerJoined peer => exact hR.change fun _ => ⟨rfl, rfl, rfl, rfl, rfl, rfl⟩
  | peerLeft peer => exact hR.change fun _ => ⟨rfl, rfl, rfl, rfl, rfl, rfl⟩

end Frame

/-- An action changes the store through its transactions only, and the identity of
the node not at all. -/
structure Framed (s : State) (es : List Effect) (s' : State) : Prop where
  store : s'.store = StoreWrite.applyAll s.store (writes es)
  genesis : s'.genesis = s.genesis
  signingKey : s'.signingKey = s.signingKey
  address : s'.address = s.address
  rpcServer : s'.rpcServer = s.rpcServer

namespace Framed

theorem composes : Action.Composes Framed where
  refl _ := ⟨rfl, rfl, rfl, rfl, rfl⟩
  trans {s s' s'' es es'} h h' := by
    refine ⟨?_, h'.genesis.trans h.genesis, h'.signingKey.trans h.signingKey,
      h'.address.trans h.address, h'.rpcServer.trans h.rpcServer⟩
    rw [h'.store, h.store, writes_append, StoreWrite.applyAll_append]

theorem writeStore (w : StoreWrite) : Action.Keeps Framed (writeStore w) := by
  intro s
  by_cases hw : w.Writable
  · rw [writeStore_of_writable hw]
    exact ⟨rfl, rfl, rfl, rfl, rfl⟩
  · rw [writeStore_of_not_writable hw]
    exact ⟨rfl, rfl, rfl, rfl, rfl⟩

theorem frame : Frame Framed where
  composes := composes
  write := writeStore
  effect {e} h s := by
    refine ⟨?_, rfl, rfl, rfl, rfl⟩
    rw [writes, List.filterMap_cons_none h]
    rfl
  notes h := ⟨h.store, h.genesis, h.signingKey, h.address, h.rpcServer⟩

theorem receivedProposalPart [Crypto] (peer : PeerId) (part : StreamMessage ProposalPart) :
    Action.Keeps Framed (State.receivedProposalPart peer part) := by
  intro s
  rcases State.receivedProposalPart_cases s peer part with
    ⟨e, -, hrun⟩ | ⟨o, map, -, hrun⟩ | ⟨parts, map, hinsert, haccept⟩
  · rw [hrun]
    exact composes.refl s
  · rw [hrun]
    exact ⟨rfl, rfl, rfl, rfl, rfl⟩
  · rw [State.receivedProposalPart_of_acceptable hinsert haccept]
    have hkeep := Action.Keeps.bind (R := Framed) composes
      (frame.keepProposal (State.assembleValueFromParts parts).1 parts.height parts.round
        (State.assembleValueFromParts parts).2)
      (fun _ => Action.Keeps.pure composes (some (State.assembleValueFromParts parts).1))
      { s with streamsMap := map }
    exact ⟨hkeep.store, hkeep.genesis, hkeep.signingKey, hkeep.address, hkeep.rpcServer⟩

/-- **Every handler is framed.** -/
theorem handle [Crypto] [Prost] [Payload] (msg : AppMsg) : Action.Keeps Framed (handle msg) := by
  by_cases hmsg : ∀ peer part, msg ≠ .receivedProposalPart peer part
  · exact frame.handle hmsg
  · push Not at hmsg
    obtain ⟨peer, part, rfl⟩ := hmsg
    refine Action.Keeps.bind composes (Action.Keeps.lift composes _) fun _ => ?_
    exact Action.Keeps.bind composes (receivedProposalPart peer part) fun _ => frame.perform rfl

end Framed

/-! ## Values handed to consensus -/

/-- The slot and the value of a reply from one of the two producers. -/
def Reply.produced : Reply → Option (UndecidedValueKey × Value)
  | localValue v => some (⟨v.height, v.round⟩, v.value)
  | receivedValue (some p) => some (⟨p.height, p.round⟩, p.value)
  | _ => none

/-- The slot and the value of any reply that hands a value to consensus. -/
def Reply.handed : Reply → Option (UndecidedValueKey × Value)
  | syncedValue p => some (⟨p.height, p.round⟩, p.value)
  | r => r.produced

/-- Effects that are an answer at most, with no value that a producer made. -/
def Quiet (es : List Effect) : Prop := es = [] ∨ ∃ r : Reply, r.produced = none ∧ es = [.reply r]

namespace Quiet

variable {es : List Effect}

theorem writes_eq (h : Quiet es) : writes es = [] := by
  rcases h with rfl | ⟨r, -, rfl⟩ <;> rfl

theorem published_eq (h : Quiet es) : published es = [] := by
  rcases h with rfl | ⟨r, -, rfl⟩ <;> rfl

theorem produced_eq (h : Quiet es) {r : Reply} (hr : r ∈ replies es) : r.produced = none := by
  rcases h with rfl | ⟨r', hr', rfl⟩
  · exact absurd hr List.not_mem_nil
  · rw [List.mem_singleton.mp hr]
    exact hr'

end Quiet

section HandsOver

variable [Crypto] [Payload]

/-- A message that makes a producer hand over a proposal with its block data: a
request for a value in the height and the round the node is in, or a part that
completes an acceptable stream. -/
inductive HandsOver (s : State) : AppMsg → ProposedValue → Bytes → Prop where
  | propose {data : Bytes}
      (hblock : (s.blockProposer.proposeBlock s.currentHeight.asU64).1 = .ok data)
      (hround : s.currentRound ≠ .nil) :
      HandsOver s (.getValue s.currentHeight s.currentRound)
        (s.localProposal s.currentHeight s.currentRound (Value.new data)) data
  | receive {peer : PeerId} {part : StreamMessage ProposalPart} {parts : ProposalParts}
      {map : PartStreamsMap} {description : String × Nat}
      (hpart : describePart part.content = .ok description)
      (hinsert : s.streamsMap.insert peer part = (.ok (some parts, map) : Call AppError _))
      (haccept : s.Acceptable parts) (hround : parts.round ≠ .nil) :
      HandsOver s (.receivedProposalPart peer part) (State.assembleValueFromParts parts).1
        (State.assembleValueFromParts parts).2

namespace HandsOver

variable {s : State} {msg : AppMsg} {p : ProposedValue} {data : Bytes}

theorem value_eq (h : HandsOver s msg p data) : p.value = Value.new data := by
  cases h <;> rfl

theorem round_ne_nil (h : HandsOver s msg p data) : p.round ≠ .nil := by
  cases h with
  | propose hblock hround => exact hround
  | receive hpart hinsert haccept hround => exact hround

variable [Prost]

/-- A request that is handed a value keeps it, replies with it and streams it. -/
theorem handle_getValue {height : Height} {round : Round}
    (h : HandsOver s (.getValue height round) p data) :
    ∃ s' msgs, s'.currentHeight = height ∧ s'.currentRound = round ∧
      s'.streamNonce = s.streamNonce ∧
      (msgs = [] ∨
        (State.streamProposal ⟨p.height, p.round, p.value⟩ data s').result = .ok msgs) ∧
      (handle (.getValue height round) s).effects =
        (State.keepWrites p p.height p.round data).map .write ++
          .reply (.localValue ⟨p.height, p.round, p.value⟩) :: msgs.map .publish := by
  cases h with
  | propose hblock hround =>
      have hmake := State.makeBlock_run s
      rw [hblock] at hmake
      obtain ⟨ws, rfl, hpropose⟩ := State.proposeValue_run
        (s := { s with
          blockProposer := (s.blockProposer.proposeBlock s.currentHeight.asU64).2 })
        hround data
      generalize hkept : State.afterWrites _ _ = s' at hpropose
      have hheight : s'.currentHeight = s.currentHeight := by rw [← hkept]; rfl
      have hround' : s'.currentRound = s.currentRound := by rw [← hkept]; rfl
      have hnonce : s'.streamNonce = s.streamNonce := by rw [← hkept]; rfl
      obtain ⟨nonce, hstate, heffects⟩ := State.streamProposal_frame s'
        ⟨s.currentHeight, s.currentRound, Value.new data⟩ data
      rw [handle, Action.bind_of_ok hmake, Action.after_nil, Action.bind_of_ok hpropose,
        Action.after_effects, Action.perform_bind, Action.after_effects]
      rcases hstream : State.streamProposal ⟨s.currentHeight, s.currentRound, Value.new data⟩
        data s' with ⟨e | msgs, s'', es⟩
      · rw [hstream] at heffects
        obtain rfl : es = [] := heffects
        refine ⟨s', [], hheight, hround', hnonce, Or.inl rfl, ?_⟩
        rw [Action.bind_of_error hstream]
        rfl
      · rw [hstream] at heffects
        obtain rfl : es = [] := heffects
        refine ⟨s', msgs, hheight, hround', hnonce, Or.inr ?_, ?_⟩
        · exact congrArg Outcome.result hstream
        · rw [Action.bind_of_ok hstream]
          rfl

/-- A part that completes an acceptable stream makes the node keep the proposal and
reply with it. -/
theorem handle_receivedProposalPart {peer : PeerId} {part : StreamMessage ProposalPart}
    (h : HandsOver s (.receivedProposalPart peer part) p data) :
    (handle (.receivedProposalPart peer part) s).effects =
      (State.keepWrites p p.height p.round data).map .write ++
        [.reply (.receivedValue (some p))] := by
  cases h with
  | receive hpart hinsert haccept hround =>
      obtain ⟨ws, rfl, hrun⟩ := State.receivedProposalPart_run hinsert haccept hround
      rw [handle, hpart, Action.lift_ok_bind, Action.bind_of_ok hrun]
      rfl

/-- **What is handed over is first kept.** -/
theorem handle_effects (h : HandsOver s msg p data) :
    ∃ (reply : Reply) (msgs : List (StreamMessage ProposalPart)),
      reply.produced = some (⟨p.height, p.round⟩, p.value) ∧
      (handle msg s).effects =
        (State.keepWrites p p.height p.round data).map .write ++
          .reply reply :: msgs.map .publish := by
  cases msg with
  | getValue height round =>
      obtain ⟨s', msgs, -, -, -, -, heffects⟩ := h.handle_getValue
      exact ⟨_, msgs, rfl, heffects⟩
  | receivedProposalPart peer part =>
      exact ⟨.receivedValue (some p), [], rfl, h.handle_receivedProposalPart⟩
  | _ => nomatch h

end HandsOver

variable [Prost] {s : State}

/-- A request that no value is handed over for does nothing to the outside. -/
theorem handle_getValue_of_not {height : Height} {round : Round}
    (h : ∀ p data, ¬ HandsOver s (.getValue height round) p data) :
    (handle (.getValue height round) s).effects = [] := by
  have hmake := State.makeBlock_run s
  rcases hblock : (s.blockProposer.proposeBlock s.currentHeight.asU64).1 with e | data
  · rw [hblock] at hmake
    rw [handle, Action.bind_of_error hmake]
  · rw [hblock] at hmake
    have hnot : ¬ (height = s.currentHeight ∧ round = s.currentRound ∧ round ≠ .nil) := by
      rintro ⟨rfl, rfl, hround⟩
      exact h _ _ (.propose hblock hround)
    obtain ⟨e, hpropose⟩ := State.proposeValue_of_not
      (s := { s with blockProposer := (s.blockProposer.proposeBlock s.currentHeight.asU64).2 })
      data hnot
    rw [handle, Action.bind_of_ok hmake, Action.after_nil, Action.bind_of_error hpropose]

/-- A part that no value is handed over for writes nothing; the reply, if there is
one, is empty. -/
theorem handle_receivedProposalPart_of_not {peer : PeerId} {part : StreamMessage ProposalPart}
    (h : ∀ p data, ¬ HandsOver s (.receivedProposalPart peer part) p data) :
    (handle (.receivedProposalPart peer part) s).effects = [] ∨
      (handle (.receivedProposalPart peer part) s).effects =
        [.reply (.receivedValue none)] := by
  rcases hpart : describePart part.content with e | description
  · rw [handle, hpart, Action.lift_error_bind]
    exact Or.inl rfl
  rw [handle, hpart, Action.lift_ok_bind]
  rcases State.receivedProposalPart_cases s peer part with
    ⟨e, -, hrun⟩ | ⟨o, map, -, hrun⟩ | ⟨parts, map, hinsert, haccept⟩
  · rw [Action.bind_of_error hrun]
    exact Or.inl rfl
  · rw [Action.bind_of_ok hrun]
    exact Or.inr rfl
  · have hround : parts.round = .nil := by
      by_contra hround
      exact h _ _ (.receive hpart hinsert haccept hround)
    rw [Action.bind_of_error (State.receivedProposalPart_of_nil hinsert haccept hround)]
    exact Or.inl rfl

/-- After its commit a decision is answered with the next height, unless the commit
fails. -/
theorem handle_decided_effects (c : CommitCertificate) :
    ∃ tail, (tail = [] ∨ ∃ h vs, tail = [.reply (.startHeight h vs)]) ∧
      (handle (.decided c) s).effects = (State.commit c s).effects ++ tail := by
  rcases hrun : State.commit c s with ⟨e | u, s', es⟩
  · rw [handle, Action.bind_of_error hrun]
    exact ⟨[], Or.inl rfl, (List.append_nil es).symm⟩
  · rw [handle, Action.bind_of_ok hrun]
    exact ⟨_, Or.inr ⟨_, _, rfl⟩, rfl⟩

/-- A decision whose slot holds a proposal. -/
theorem handle_decided_of_slot {c : CommitCertificate} {p : ProposedValue}
    (hslot : s.store.getUndecidedProposal c.height c.round = .ok (some p))
    (hround : c.round ≠ .nil) :
    ∃ tail, (tail = [] ∨ ∃ h vs, tail = [.reply (.startHeight h vs)]) ∧
      (handle (.decided c) s).effects = s.commitEffects c p ++ tail := by
  obtain ⟨tail, htail, heffects⟩ := handle_decided_effects (s := s) c
  refine ⟨tail, htail, ?_⟩
  rw [heffects, State.commit_of_slot hslot hround, Action.after_effects,
    State.nextHeight_effects, List.append_nil]

/-- The answer to a decision does not touch the state. -/
theorem handle_decided_state (c : CommitCertificate) :
    (handle (.decided c) s).state = (State.commit c s).state := by
  rcases hrun : State.commit c s with ⟨e | u, s', es⟩
  · rw [handle, Action.bind_of_error hrun]
  · rw [handle, Action.bind_of_ok hrun]
    rfl

/-- A decision whose slot holds a proposal moves the node on, unless it is at the last
height. -/
theorem handle_decided_run {c : CommitCertificate} {p : ProposedValue}
    (hslot : s.store.getUndecidedProposal c.height c.round = .ok (some p))
    (hround : c.round ≠ .nil) (hlt : s.currentHeight.asU64.toNat + 1 < 2 ^ 64) :
    (handle (.decided c) s).result = .ok () ∧
      (handle (.decided c) s).state.currentHeight = ⟨s.currentHeight.asU64 + 1⟩ ∧
      (handle (.decided c) s).effects = s.commitEffects c p ++
        [.reply (.startHeight ⟨s.currentHeight.asU64 + 1⟩ s.genesis.validatorSet)] := by
  have hnext := State.nextHeight_of_lt
    (s := s.afterWrites (writes (s.commitEffects c p))) hlt
  have hcommit := State.commit_of_slot hslot hround
  rw [hnext] at hcommit
  rw [handle, Action.bind_of_ok hcommit]
  refine ⟨rfl, rfl, ?_⟩
  rw [Action.after_effects, List.append_nil]
  rfl

/-- A decision writes what its commit writes, replies at most with the next height,
and publishes nothing. -/
theorem handle_decided (c : CommitCertificate) :
    ((∃ p, s.store.getUndecidedProposal c.height c.round = .ok (some p) ∧ c.round ≠ .nil ∧
        writes (handle (.decided c) s).effects = writes (s.commitEffects c p)) ∨
      writes (handle (.decided c) s).effects = []) ∧
    published (handle (.decided c) s).effects = [] ∧
      ∀ r ∈ replies (handle (.decided c) s).effects, ∃ h vs, r = .startHeight h vs := by
  obtain ⟨tail, htail, heffects⟩ := handle_decided_effects (s := s) c
  have hquiet : writes tail = [] ∧ published tail = [] ∧
      ∀ r ∈ replies tail, ∃ h vs, r = .startHeight h vs := by
    rcases htail with rfl | ⟨h, vs, rfl⟩
    · exact ⟨rfl, rfl, fun r hr => absurd hr List.not_mem_nil⟩
    · exact ⟨rfl, rfl, fun r hr => ⟨h, vs, List.mem_singleton.mp hr⟩⟩
  rw [heffects, writes_append, published_append, replies_append, hquiet.1, hquiet.2.1,
    List.append_nil, List.append_nil]
  rcases State.commit_cases s c with ⟨hnone, -⟩ | ⟨p, hslot, hround, hcommit⟩
  · rw [hnone]
    exact ⟨Or.inr rfl, rfl, hquiet.2.2⟩
  · obtain ⟨hreplies, hpublished⟩ := State.commitEffects_silent s c p
    rw [hcommit, Action.after_effects, State.nextHeight_effects, List.append_nil, hreplies,
      hpublished]
    exact ⟨Or.inl ⟨p, hslot, hround, rfl⟩, rfl, hquiet.2.2⟩

/-- A message that hands nothing over and decides nothing is answered at most. -/
theorem handle_quiet {msg : AppMsg} (h : ∀ p data, ¬ HandsOver s msg p data)
    (hdecided : ∀ c, msg ≠ .decided c) : Quiet (handle msg s).effects := by
  cases msg with
  | getValue height round => exact Or.inl (handle_getValue_of_not h)
  | receivedProposalPart peer part =>
      rcases handle_receivedProposalPart_of_not h with heffects | heffects
      · exact Or.inl heffects
      · exact Or.inr ⟨_, rfl, heffects⟩
  | decided c => exact absurd rfl (hdecided c)
  | processSyncedValue height round proposer valueBytes =>
      rw [handle]
      rcases hvalue : decodeValue valueBytes with e | value
      · exact Or.inl rfl
      · exact Or.inr ⟨_, rfl, rfl⟩
  | restreamProposal => exact Or.inl rfl
  | startedRound height round proposer => exact Or.inl rfl
  | peerJoined peer => exact Or.inl rfl
  | peerLeft peer => exact Or.inl rfl
  | _ => exact Or.inr ⟨_, rfl, rfl⟩

/-- **What a message does.**  It hands a value over, or it decides, or it is answered at
most. -/
theorem handle_cases (s : State) (msg : AppMsg) :
    (∃ p data, HandsOver s msg p data) ∨ (∃ c, msg = .decided c) ∨
      Quiet (handle msg s).effects := by
  by_cases hover : ∃ p data, HandsOver s msg p data
  · exact Or.inl hover
  · by_cases hdecided : ∃ c, msg = .decided c
    · exact Or.inr (Or.inl hdecided)
    · push Not at hover hdecided
      exact Or.inr (Or.inr (handle_quiet hover hdecided))

end HandsOver

/-! ## The life of a node -/

/-- A step in the life of a node: a message that is handled to its end, or one in
whose handler the node dies after a number of effects and is started again. -/
inductive Event where
  | deliver (msg : AppMsg) : Event
  | restart (msg : AppMsg) (performed : Nat) (serverStarts : Bool) : Event

section Life

variable [Crypto] [Prost] [Payload]

namespace Event

def msg : Event → AppMsg
  | deliver msg => msg
  | restart msg _ _ => msg

/-- The step gets past the first `k` effects of its handler. -/
def Passes (k : Nat) : Event → Prop
  | deliver _ => True
  | restart _ n _ => k < n

/-- The effects that have happened in a step. -/
def performed (s : State) : Event → List Effect
  | deliver msg => (handle msg s).effects
  | restart msg n _ => (handle msg s).effects.take n

/-- The store that a step leaves. -/
def storeAfter (s : State) (e : Event) : Db :=
  StoreWrite.applyAll s.store (writes (e.performed s))

/-- A step performs a first part of what the handler does. -/
theorem performed_isPrefix (s : State) (e : Event) :
    e.performed s <+: (handle e.msg s).effects := by
  cases e with
  | deliver msg => exact List.prefix_rfl
  | restart msg n serverStarts => exact List.take_prefix n _

/-- A step that gets past the first effect has performed it. -/
theorem performed_of_passes {s : State} {e : Event} {effect : Effect} {rest : List Effect}
    (h : (handle e.msg s).effects = effect :: rest) (hpasses : e.Passes 0) :
    ∃ rest', e.performed s = effect :: rest' ∧ rest' <+: rest := by
  cases e with
  | deliver msg => exact ⟨rest, h, List.prefix_rfl⟩
  | restart msg n serverStarts =>
      have heffects : (handle msg s).effects = effect :: rest := h
      obtain ⟨k, rfl⟩ := Nat.exists_eq_succ_of_ne_zero (Nat.pos_iff_ne_zero.mp hpasses)
      refine ⟨rest.take k, ?_, List.take_prefix k rest⟩
      show (handle msg s).effects.take (k + 1) = _
      rw [heffects, List.take_succ_cons]

/-- A step that has performed anything has got past the first effect. -/
theorem passes_of_mem_performed {s : State} {e : Event} {effect : Effect}
    (h : effect ∈ e.performed s) : e.Passes 0 := by
  cases e with
  | deliver msg => trivial
  | restart msg n serverStarts =>
      refine Nat.pos_of_ne_zero ?_
      intro hn
      rw [hn] at h
      exact absurd h List.not_mem_nil

theorem mem_writes {s : State} {e : Event} {w : StoreWrite} (h : w ∈ writes (e.performed s)) :
    w ∈ writes (handle e.msg s).effects := by
  obtain ⟨effect, hmem, hw⟩ := List.mem_filterMap.mp h
  exact List.mem_filterMap.mpr ⟨effect, (performed_isPrefix s e).subset hmem, hw⟩

theorem mem_replies {s : State} {e : Event} {r : Reply} (h : r ∈ replies (e.performed s)) :
    r ∈ replies (handle e.msg s).effects := by
  obtain ⟨effect, hmem, hr⟩ := List.mem_filterMap.mp h
  exact List.mem_filterMap.mpr ⟨effect, (performed_isPrefix s e).subset hmem, hr⟩

end Event

/-- The life of a node with a configuration. -/
def node (config : Config) : System State Event where
  init s := ∃ serverStarts, s = State.new config Db.empty serverStarts
  step s e s' :=
    match e with
    | .deliver msg => (handle msg s).result = .ok () ∧ s' = (handle msg s).state
    | .restart _ _ serverStarts => s' = State.new config (e.storeAfter s) serverStarts

variable {config : Config} {s s' : State} {e : Event} {steps : List (State × Event)}

theorem store_of_step (h : (node config).step s e s') : s'.store = e.storeAfter s := by
  cases e with
  | deliver msg =>
      obtain ⟨-, rfl⟩ := h
      exact (Framed.handle msg s).store
  | restart msg n serverStarts =>
      obtain rfl := h
      rfl

theorem Run.deliver {msg : AppMsg} (h : Run (node config) steps s)
    (hok : (handle msg s).result = .ok ()) :
    Run (node config) (steps ++ [(s, .deliver msg)]) (handle msg s).state :=
  have hstep : (node config).step s (.deliver msg) (handle msg s).state := ⟨hok, rfl⟩
  h.next hstep

theorem Run.restart (h : Run (node config) steps s) (msg : AppMsg) (n : Nat)
    (serverStarts : Bool) :
    Run (node config) (steps ++ [(s, .restart msg n serverStarts)])
      (State.new config (Event.storeAfter s (.restart msg n serverStarts)) serverStarts) :=
  have hstep : (node config).step s (.restart msg n serverStarts) _ := rfl
  h.next hstep

/-- **Store invariants.**  What the empty store has and every transaction of every
step keeps holds of the store at the end of every run whose steps meet a condition. -/
theorem Run.store_invariant {P : Db → Prop} {G : State → Event → Prop}
    (h : Run (node config) steps s) (hempty : P Db.empty)
    (hwrite : ∀ s e w db, P s.store → G s e → w ∈ writes (e.performed s) → P db →
      P (StoreWrite.apply db w))
    (hguard : ∀ x ∈ steps, G x.1 x.2) : P s.store := by
  refine h.invariant_along (P := fun s => P s.store) (G := G) ?_ ?_ hguard
  · rintro s ⟨serverStarts, rfl⟩
    exact hempty
  · intro s e s' hs hg hstep
    rw [store_of_step hstep]
    exact StoreWrite.applyAll_induction hs fun db hdb w hw => hwrite s e w db hs hg hw hdb

/-- **The store of a node is well formed**, whatever messages it gets and however
often it dies. -/
theorem System.Reachable.wellFormed (h : (node config).Reachable s) : s.store.WellFormed := by
  obtain ⟨steps, hrun⟩ := h
  exact hrun.store_invariant (G := fun _ _ => True) Db.WellFormed.empty
    (fun _ _ w _ _ _ _ hdb => (hdb.refines w).1) fun _ _ => trivial

/-- A node keeps the genesis and the key it was configured with. -/
theorem System.Reachable.config_eq (h : (node config).Reachable s) :
    s.genesis = config.genesis ∧ s.signingKey = config.signingKey := by
  obtain ⟨steps, hrun⟩ := h
  refine hrun.invariant (P := fun s => s.genesis = config.genesis ∧
    s.signingKey = config.signingKey) ?_ ?_
  · rintro s ⟨serverStarts, rfl⟩
    exact ⟨rfl, rfl⟩
  · rintro s e s' ⟨hgenesis, hkey⟩ hstep
    cases e with
    | deliver msg =>
        obtain ⟨-, rfl⟩ := hstep
        have hframe := Framed.handle msg s
        exact ⟨hframe.genesis.trans hgenesis, hframe.signingKey.trans hkey⟩
    | restart msg n serverStarts =>
        obtain rfl := hstep
        exact ⟨rfl, rfl⟩

/-! ## Runs without a restart -/

/-- The state after messages that are handled one after the other. -/
def handleAll (s : State) (msgs : List AppMsg) : State :=
  msgs.foldl (fun s msg => (handle msg s).state) s

/-- The steps that handle the messages. -/
def deliveries (s : State) : List AppMsg → List (State × Event)
  | [] => []
  | msg :: msgs => (s, .deliver msg) :: deliveries (handle msg s).state msgs

/-- Every message is handled to its end. -/
def allHandled (s : State) : List AppMsg → Bool
  | [] => true
  | msg :: msgs => (handle msg s).result.isOk && allHandled (handle msg s).state msgs

theorem deliveries_append (s : State) (msgs msgs' : List AppMsg) :
    deliveries s (msgs ++ msgs') = deliveries s msgs ++ deliveries (handleAll s msgs) msgs' := by
  induction msgs generalizing s with
  | nil => rfl
  | cons msg msgs ih =>
      rw [List.cons_append, deliveries, deliveries, ih, List.cons_append]
      rfl

theorem mem_deliveries {s : State} {msgs : List AppMsg} {x : State × Event}
    (h : x ∈ deliveries s msgs) : ∃ msg ∈ msgs, x.2 = .deliver msg := by
  induction msgs generalizing s with
  | nil => exact absurd h List.not_mem_nil
  | cons msg msgs ih =>
      rcases List.mem_cons.mp h with rfl | h
      · exact ⟨msg, List.mem_cons_self, rfl⟩
      · obtain ⟨msg', hmem, hx⟩ := ih h
        exact ⟨msg', List.mem_cons_of_mem _ hmem, hx⟩

theorem allHandled_cons {s : State} {msg : AppMsg} {msgs : List AppMsg}
    (h : allHandled s (msg :: msgs) = true) :
    (handle msg s).result = .ok () ∧ allHandled (handle msg s).state msgs = true := by
  obtain ⟨hfirst, hrest⟩ := Bool.and_eq_true_iff.mp h
  refine ⟨?_, hrest⟩
  cases hresult : (handle msg s).result with
  | ok u => rfl
  | error e =>
      rw [hresult] at hfirst
      exact absurd hfirst (by simp [Except.isOk, Except.toBool])

/-- A node handles messages as long as no handler fails. -/
theorem Run.deliveries (h : Run (node config) steps s) (msgs : List AppMsg)
    (hok : allHandled s msgs = true) :
    Run (node config) (steps ++ deliveries s msgs) (handleAll s msgs) := by
  induction msgs generalizing s steps with
  | nil =>
      rw [MalakethTurbo.deliveries, List.append_nil]
      exact h
  | cons msg msgs ih =>
      obtain ⟨hresult, hrest⟩ := allHandled_cons hok
      have hnext := ih (h.deliver hresult) hrest
      rw [List.append_assoc] at hnext
      exact hnext

end Life

/-! ## A network to run -/

section Demo

attribute [local instance] demoCrypto Prost.reference demoPayload

/-- Four validators of equal power, with the first four demo keys. -/
def demoGenesis : Genesis :=
  ⟨⟨[1, 2, 3, 4].map fun i => Validator.new (demoKey i) 1⟩⟩

/-- A validator with a demo key and a file of one-byte blocks. -/
def demoConfig (i : UInt8) (blocks : Bytes) : Config where
  genesis := demoGenesis
  signingKey := demoKey i
  startHeight := none
  blocks := blocks.flatMap fun b => [0, 0, 0, 1, b]
  enableRpc := true

/-- The address of a demo key. -/
def demoAddress (i : UInt8) : Address := Address.fromPublicKey (demoKey i)

/-- A demo node on an empty store. -/
def demoState (i : UInt8) (blocks : Bytes) : State :=
  State.new (demoConfig i blocks) Db.empty true

/-- The arrival of the proposal that a demo node makes of one block in round `0` of
height `1`. -/
def demoArrivals (i : UInt8) (block : UInt8) : List AppMsg :=
  (published (handle (.getValue ⟨1⟩ (.some 0)) (demoState i [block])).effects).map
    (.receivedProposalPart ⟨[i]⟩)

theorem demoArrivals_not_decided {i block : UInt8} {msg : AppMsg}
    (h : msg ∈ demoArrivals i block) (c : CommitCertificate) : msg ≠ .decided c := by
  obtain ⟨part, -, rfl⟩ := List.mem_map.mp h
  simp

/-- The certificate of the first three validators for one block in round `0` of a height. -/
def demoCertificateAt (height : Height) (block : UInt8) : CommitCertificate where
  height := height
  round := .some 0
  valueId := (Value.new [block]).id
  aggregatedSignature := ⟨[1, 2, 3].map fun i =>
    ⟨demoAddress i, Crypto.sign (demoKey i) ((Vote.newPrecommit height (.some 0)
      (.val (Value.new [block]).id) (demoAddress i)).toBytes.toOption.getD [])⟩⟩

/-- The certificate for a block of height `1`. -/
def demoCertificate (block : UInt8) : CommitCertificate := demoCertificateAt ⟨1⟩ block

/-- Two heights at which the first validator proposes, decided in their first rounds. -/
def settledMsgs : List AppMsg :=
  [.startedRound ⟨1⟩ (.some 0) (demoAddress 1), .getValue ⟨1⟩ (.some 0),
    .decided (demoCertificate 5), .startedRound ⟨2⟩ (.some 0) (demoAddress 1),
    .getValue ⟨2⟩ (.some 0), .decided (demoCertificateAt ⟨2⟩ 6)]

end Demo
end MalakethTurbo
